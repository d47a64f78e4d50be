import WinePpc64.Callback.StubCode
import WinePpc64.Lib.BlockPool
import WinePpc64.Lib.Runs

namespace WinePpc64.Callback

open Lib List Option BlockPool

structure GuestCallbackStub where
  code : List (BitVec 32)
  guestFn : Word
  wide : Bool
  argc : ℕ

def guestCbBlock : ℕ := 1024
def maxGuestCbBlocks : ℕ := 64
def stubBytes : ℕ := 104

abbrev Pool := BlockPool GuestCallbackStub guestCbBlock stubBytes

def Pool.init : Pool := ⟨[], 0⟩

structure Env where
  nowrap : Bool
  dispatch : Bool → ℕ → Word

structure Call where
  fn : Word
  wide : Bool
  argc : ℕ
  guestModule : Bool
  image : Bool
  mem : Option Word

def guestCbOwns (p : Pool) (fn : Word) : Bool := p.owns fn

def guestCbTarget (p : Pool) (fn : Word) : Option Word := (p.target fn).map GuestCallbackStub.guestFn

def unwrapGuestCb (p : Pool) (fn : Word) : Word :=
  if fn = 0 then fn else (guestCbTarget p fn).getD fn

def findStub (p : Pool) (fn : Word) (wide : Bool) (argc : ℕ) : Option Word :=
  (p.entries.find? fun x => x.2.guestFn = fn ∧ x.2.wide = wide ∧ x.2.argc = argc).map Prod.fst

def reserve (p : Pool) (mem : Option Word) : Option (Word × Pool) :=
  if p.blocks = [] ∨ guestCbBlock ≤ p.count then
    if maxGuestCbBlocks ≤ p.blocks.length then none
    else (mem.map fun base => p.grow base ⟨[], 0, false, 0⟩).bind fun q => q.next.map (·, q)
  else p.next.map (·, p)

def newStub (e : Env) (c : Call) : GuestCallbackStub :=
  ⟨stubCode c.fn (e.dispatch c.wide c.argc) c.argc, c.fn, c.wide, c.argc⟩

def wrapGuestCallbackEx (e : Env) (p : Pool) (c : Call) : Word × Pool :=
  if c.fn = 0 then (c.fn, p)
  else if ¬ (4 ≤ c.argc ∧ c.argc ≤ 9) then (c.fn, p)
  else if e.nowrap then (c.fn, p)
  else if guestCbOwns p c.fn then (c.fn, p)
  else if !c.guestModule && c.image then (c.fn, p)
  else match findStub p c.fn c.wide c.argc with
    | some stub => (stub, p)
    | none => match reserve p c.mem with
      | none => (c.fn, p)
      | some (stub, q) => (stub, q.push (newStub e c))

def step (e : Env) (p : Pool) (c : Call) : Option Pool := some (wrapGuestCallbackEx e p c).2

/-- What the caller and the memory manager promise: a new block is memory nothing else has, and the
pointer is a guest function, so not in the pool's memory, or a stub the pool has handed out. -/
structure Valid (p : Pool) (c : Call) : Prop where
  free : ∀ base, c.mem = some base → p.Free base
  apart : ∀ base, c.mem = some base →
    (⟨base, fun _ => ⟨[], 0, false, 0⟩⟩ : Block GuestCallbackStub).Outside stubBytes guestCbBlock c.fn
  fn : p.Outside c.fn ∨ ∃ stub, (c.fn, stub) ∈ p.entries

structure Issued (e : Env) (x : Word × GuestCallbackStub) : Prop where
  code : x.2.code = stubCode x.2.guestFn (e.dispatch x.2.wide x.2.argc) x.2.argc
  argc : 4 ≤ x.2.argc ∧ x.2.argc ≤ 9
  guestFn : x.2.guestFn ≠ 0
  foreign : x.2.guestFn ≠ x.1

def key (x : Word × GuestCallbackStub) : Word × Bool × ℕ := (x.2.guestFn, x.2.wide, x.2.argc)

structure Inv (e : Env) (p : Pool) : Prop where
  ok : p.Ok
  keys : (p.entries.map key).Nodup
  issued : ∀ x ∈ p.entries, Issued e x

variable {e : Env} {p q : Pool} {c : Call} {a : Word} {stub : GuestCallbackStub}

theorem stubBytes_pos : 0 < stubBytes := by decide

theorem inv_init : Inv e .init := by
  refine ⟨⟨by simp [Pool.init], by simp [Pool.init], by simp [Pool.init], fun _ => rfl⟩, ?_, ?_⟩
  · exact nodup_nil
  · intro x hx
    cases hx

theorem outside_ne (h : p.Ok) (ho : p.Outside a) : (a, stub) ∉ p.entries := by
  intro hx
  have howns := h.owns_of_mem stubBytes_pos hx
  rw [h.owns_outside ho] at howns
  cases howns

theorem reserve_spec (h : p.Ok) (hv : Valid p c) (hfn : p.Outside c.fn)
    (hr : reserve p c.mem = some (a, q)) :
    q.Ok ∧ q.entries = p.entries ∧ q.next = some a ∧ q.blocks ≠ [] ∧ q.count < guestCbBlock ∧
      q.Outside c.fn := by
  have hcap : 0 < guestCbBlock := by decide
  unfold reserve at hr
  split_ifs at hr with hfull hmax
  · obtain ⟨q', hq', hnext⟩ := bind_eq_some_iff.mp hr
    obtain ⟨base, hmem, rfl⟩ := map_eq_some_iff.mp hq'
    obtain ⟨next, hn, heq⟩ := map_eq_some_iff.mp hnext
    obtain ⟨rfl, rfl⟩ := Prod.mk.inj heq
    have hle := h.count_le
    refine ⟨h.grow (hv.free base hmem), entries_grow (hfull.imp id (by omega)),
      hn, by simp [grow], hcap, fun blk hblk => ?_⟩
    obtain hblk | hblk := mem_append.mp hblk
    · exact hfn blk hblk
    · rw [mem_singleton.mp hblk]
      exact hv.apart base hmem
  · obtain ⟨next, hnext, heq⟩ := map_eq_some_iff.mp hr
    obtain ⟨rfl, rfl⟩ := Prod.mk.inj heq
    obtain ⟨hne, hlt⟩ := not_or.mp hfull
    exact ⟨h, rfl, hnext, hne, not_le.mp hlt, hfn⟩

theorem findStub_eq_some (h : findStub p c.fn c.wide c.argc = some a) :
    ∃ stub, (a, stub) ∈ p.entries ∧ key (a, stub) = (c.fn, c.wide, c.argc) := by
  obtain ⟨⟨b, stub⟩, hfind, rfl⟩ := map_eq_some_iff.mp h
  have hkey : stub.guestFn = c.fn ∧ stub.wide = c.wide ∧ stub.argc = c.argc := by
    simpa using find?_some hfind
  exact ⟨stub, mem_of_find?_eq_some hfind, by simp [key, hkey]⟩

theorem findStub_eq_none (h : findStub p c.fn c.wide c.argc = none) :
    (c.fn, c.wide, c.argc) ∉ p.entries.map key := by
  intro hmem
  obtain ⟨x, hx, hkey⟩ := mem_map.mp hmem
  have hnone := find?_eq_none.mp (map_eq_none_iff.mp h) x hx
  simp only [key, Prod.mk.injEq] at hkey
  exact hnone (decide_eq_true hkey)

structure Wraps (e : Env) (p : Pool) (c : Call) : Prop where
  fn : c.fn ≠ 0
  argc : 4 ≤ c.argc ∧ c.argc ≤ 9
  nowrap : e.nowrap = false
  outside : p.Outside c.fn
  guest : c.guestModule = true ∨ c.image = false

theorem wrapGuestCallbackEx_wraps (h : p.Ok) (hw : Wraps e p c) : wrapGuestCallbackEx e p c =
    match findStub p c.fn c.wide c.argc with
    | some stub => (stub, p)
    | none => match reserve p c.mem with
      | none => (c.fn, p)
      | some (stub, q) => (stub, q.push (newStub e c)) := by
  have hnative : (!c.guestModule && c.image) = false := by
    obtain hg | hi := hw.guest
    · simp [hg]
    · simp [hi]
  simp only [wrapGuestCallbackEx, hw.fn, hw.argc, hw.nowrap, guestCbOwns, h.owns_outside hw.outside,
    hnative, and_self, not_true_eq_false, if_false, Bool.false_eq_true]

theorem wrapGuestCallbackEx_raw (h : p.Ok) (hv : Valid p c) (hw : ¬ Wraps e p c) :
    wrapGuestCallbackEx e p c = (c.fn, p) := by
  unfold wrapGuestCallbackEx
  split_ifs with h0 hargc hnowrap howns hnative
  · rfl
  · rfl
  · rfl
  · rfl
  · refine absurd ⟨h0, hargc, Bool.eq_false_iff.mpr hnowrap, ?_, ?_⟩ hw
    · refine hv.fn.resolve_right fun ⟨stub, hstub⟩ => howns ?_
      exact h.owns_of_mem stubBytes_pos hstub
    · cases hg : c.guestModule with
      | true => exact .inl rfl
      | false => exact .inr (by simpa [hg] using hnative)
  · rfl

theorem wrapGuestCallbackEx_cases (h : Inv e p) (hv : Valid p c) :
    wrapGuestCallbackEx e p c = (c.fn, p) ∨
    (∃ a stub, Wraps e p c ∧ (a, stub) ∈ p.entries ∧ key (a, stub) = (c.fn, c.wide, c.argc) ∧
      wrapGuestCallbackEx e p c = (a, p)) ∨
    ∃ a q, Wraps e p c ∧ (c.fn, c.wide, c.argc) ∉ p.entries.map key ∧ q.Ok ∧ q.Outside c.fn ∧
      q.entries = p.entries ++ [(a, newStub e c)] ∧ wrapGuestCallbackEx e p c = (a, q) := by
  by_cases hw : Wraps e p c
  swap
  · exact .inl (wrapGuestCallbackEx_raw h.ok hv hw)
  rw [wrapGuestCallbackEx_wraps h.ok hw]
  cases hfind : findStub p c.fn c.wide c.argc with
  | some a =>
    obtain ⟨stub, hstub, hkey⟩ := findStub_eq_some hfind
    exact .inr (.inl ⟨a, stub, hw, hstub, hkey, rfl⟩)
  | none =>
    cases hres : reserve p c.mem with
    | none => exact .inl rfl
    | some r =>
      obtain ⟨a, q⟩ := r
      obtain ⟨hok, hentries, hnext, hne, hlt, hout⟩ := reserve_spec h.ok hv hw.outside hres
      refine .inr (.inr ⟨a, q.push (newStub e c), hw, findStub_eq_none hfind, hok.push hne hlt,
        outside_push hne hout, ?_, rfl⟩)
      rw [entries_push hnext, hentries]

theorem inv_wrapGuestCallbackEx (h : Inv e p) (hv : Valid p c) :
    Inv e (wrapGuestCallbackEx e p c).2 ∧ p.entries <+: (wrapGuestCallbackEx e p c).2.entries := by
  obtain hr | ⟨a, stub, -, -, -, hr⟩ | ⟨a, q, hw, hnew, hok, hout, hq, hr⟩ :=
    wrapGuestCallbackEx_cases h hv
  · rw [hr]
    exact ⟨h, prefix_rfl⟩
  · rw [hr]
    exact ⟨h, prefix_rfl⟩
  rw [hr, hq]
  have hmem : (a, newStub e c) ∈ q.entries := by simp [hq]
  have hne : c.fn ≠ a := by
    rintro rfl
    exact outside_ne hok hout hmem
  refine ⟨⟨hok, ?_, fun x hx => ?_⟩, prefix_append _ _⟩
  · rw [hq, map_append, map_singleton, nodup_append]
    refine ⟨h.keys, nodup_singleton _, fun k hk k' hk' => ?_⟩
    rw [mem_singleton.mp hk']
    rintro rfl
    exact hnew hk
  · rw [hq] at hx
    obtain hx | hx := mem_append.mp hx
    · exact h.issued x hx
    · rw [mem_singleton.mp hx]
      exact ⟨rfl, hw.argc, hw.fn, hne⟩

theorem inv_of_reaches (hr : Reaches (step e) Valid p q) (h : Inv e p) :
    Inv e q ∧ p.entries <+: q.entries := by
  refine hr.invariant (P := fun q => Inv e q ∧ p.entries <+: q.entries) ⟨h, prefix_rfl⟩ ?_
  intro u c v hv hs hu
  cases hs
  obtain ⟨hinv, hpre⟩ := inv_wrapGuestCallbackEx hu.1 hv
  exact ⟨hinv, hu.2.trans hpre⟩

end WinePpc64.Callback
