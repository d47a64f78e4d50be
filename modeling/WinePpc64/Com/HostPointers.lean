import WinePpc64.Com.OutCells

namespace WinePpc64.Com.Invoke

open Lib

def NoHostPointer (sl : Slot) (rawargs : List Word) (mem : Mem) (r : Result) : Prop :=
  ∀ c o, r.callee = some (c, o) → ∀ a ∈ outCells sl rawargs mem, a ∈ o.wrote →
    r.rt.Safe (r.mem.read a 8)

variable {e : Env} {sl : Slot} {rawargs : List Word} {mem : Mem} {proxy : ComProxy} {slot : ℕ}
  {fpPlumbing : Bool} {rt : Runtime} {r : Result} {o : Returned} {c : Call}

theorem invokeMarshalled_wraps (he : e.nowrap = false) (hw : WithinTables sl)
    (hr : invokeMarshalled e sl proxy slot rawargs fpPlumbing mem rt = some r)
    (hcall : r.callee = some (c, o)) :
    ∃ rt₀ post, Wraps (wrappedCells e sl rawargs mem c o) ⟨o.mem, rt₀⟩ post ∧
      r.mem = post.mem ∧ ∀ v, r.rt.Safe v ↔ post.rt.Safe v := by
  unfold invokeMarshalled at hr
  split at hr
  · cases hr
  · cases hr
    cases hcall
  rename_i l hl
  split at hr
  · cases hr
    cases hcall
  obtain ⟨x, hx, rfl⟩ := Option.map_eq_some_iff.mp hr
  obtain ⟨rfl, rfl⟩ := Prod.mk.inj (Option.some.inj hcall)
  exact ⟨_, x.2, wrapOuts_wraps he (marshalArgs_booked hw hl) rfl rfl hx, rfl,
    fun v => cacheQword_safe⟩

theorem outCell_safe_iff {a : Word} (he : e.nowrap = false)
    (hw : WithinTables sl) (hcells : CellsApart (outCells sl rawargs mem))
    (hr : invokeMarshalled e sl proxy slot rawargs fpPlumbing mem rt = some r)
    (hcall : r.callee = some (c, o)) (ha : a ∈ outCells sl rawargs mem) :
    r.rt.Safe (r.mem.read a 8) ↔
      (a ∉ wrappedCells e sl rawargs mem c o → r.rt.Safe (o.mem.read a 8)) := by
  obtain ⟨rt₀, post, hwraps, hmem, hsafe⟩ := invokeMarshalled_wraps he hw hr hcall
  have hapart : ∀ d ∈ wrappedCells e sl rawargs mem c o, a = d ∨ Apart a 8 d 8 :=
    fun d hd => hcells a ha d (wrappedCells_subset hd)
  rw [hmem, hsafe, hsafe]
  by_cases hin : a ∈ wrappedCells e sl rawargs mem c o
  · exact ⟨fun _ hnot => absurd hin hnot, fun _ => hwraps.clean a hapart (Or.inl hin)⟩
  have hframe : post.mem.read a 8 = o.mem.read a 8 :=
    hwraps.frame a fun d hd =>
      (hapart d hd).resolve_left fun h => hin (h ▸ hd)
  rw [hframe]
  exact ⟨fun h _ => h, fun h => h hin⟩

theorem invokeMarshalled_noHostPointer_iff (he : e.nowrap = false) (hw : WithinTables sl)
    (hcells : CellsApart (outCells sl rawargs mem))
    (hr : invokeMarshalled e sl proxy slot rawargs fpPlumbing mem rt = some r) :
    NoHostPointer sl rawargs mem r ↔
      ∀ c o, r.callee = some (c, o) → ∀ a ∈ outCells sl rawargs mem, a ∈ o.wrote →
        a ∉ wrappedCells e sl rawargs mem c o → r.rt.Safe (o.mem.read a 8) := by
  refine forall_congr' fun c => forall_congr' fun o => forall_congr' fun hcall => ?_
  refine forall_congr' fun a => forall_congr' fun ha => forall_congr' fun _ => ?_
  exact outCell_safe_iff he hw hcells hr hcall ha

namespace GetImmediateContext

def row : Slot where
  name := some "ID3D11Device::GetImmediateContext"
  refuse := false
  cls := some [.ifaceOutStatic]
  xaux := some [46]
  argc := 2
  retVoid := true
  retViaArg := false
  hand := false
  constQword := false
  aux := 0
  aux2 := 0
  caux := none
  fpmask := 0
  fpwide := 0
  fpret := 0
  xmask := 0
  narrowmask := 0
  narrowwide := 0
  narrowsign := 0
  dwordmask := 0
  dwordsign := 0
  scrubptr := 1

def cell : Word := 0x2000
def context : Word := 0x7000

def device : ComProxy := ⟨0x9000, 0x6000, 39, 1, 0⟩

def env (r3 : Word) : Env where
  surface := ⟨[]⟩
  invoke c := ⟨r3, 0, c.mem.write cell 8 context, c.rt, [cell]⟩
  hasInvokeFp := false
  wrapConcrete := none
  eventMint := none
  hasEventReap := false
  revEnabled := false
  nowrap := false
  eventOff := false
  fpOff := false
  refuseScrubOff := false
  arrBuf := 0x5000

def argv : List Word := [0x9000, cell]
def memory : Mem := fun _ => 0
def runtime : Runtime := ⟨[device], [], [0xa000], []⟩

theorem row_withinTables : WithinTables row := ⟨by decide, by decide, by decide⟩

theorem cells_apart : CellsApart (outCells row argv memory) := by
  intro c hc d hd
  have hone : outCells row argv memory = [cell] := by decide
  rw [hone, List.mem_singleton] at hc hd
  exact Or.inl (hc.trans hd.symm)

theorem invokeMarshalled_noHostPointer_success :
    ∃ r, invokeMarshalled (env 0) row device 40 argv true memory runtime = some r ∧
      r.mem.read cell 8 = 0xa000 ∧ NoHostPointer row argv memory r := by
  refine ⟨_, rfl, by decide, ?_⟩
  refine (invokeMarshalled_noHostPointer_iff rfl row_withinTables cells_apart
    (show invokeMarshalled (env 0) row device 40 argv true memory runtime = some _ from rfl)).mpr ?_
  rintro c o hcall a - hwrote hnot
  obtain ⟨rfl, rfl⟩ := Prod.mk.inj (Option.some.inj hcall)
  obtain rfl := List.mem_singleton.mp hwrote
  exact absurd (by decide) hnot

theorem invokeMarshalled_leaks_context :
    ∃ r, invokeMarshalled (env 0x80000000) row device 40 argv true memory runtime = some r ∧
      WithinTables row ∧ CellsApart (outCells row argv memory) ∧ r.rax = 0 ∧
      r.mem.read cell 8 = context ∧ ¬ NoHostPointer row argv memory r := by
  refine ⟨_, rfl, row_withinTables, cells_apart, rfl, by decide, fun h => ?_⟩
  have hsafe := h _ _ rfl cell (by decide) (by decide)
  revert hsafe
  decide

end GetImmediateContext

end WinePpc64.Com.Invoke
