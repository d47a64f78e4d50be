import WinePpc64.Callback.Pool

namespace WinePpc64.Callback

open Lib Ppc

variable {e : Env} {p t : Pool} {c d : Call} {a : Word} {stub stub' : GuestCallbackStub}

theorem wrapGuestCallbackEx_owned (h : p.Ok) (hv : Valid p c) (hstub : (c.fn, stub) ∈ p.entries) :
    wrapGuestCallbackEx e p c = (c.fn, p) :=
  wrapGuestCallbackEx_raw h hv fun hw => outside_ne h hw.outside hstub

theorem wrapGuestCallbackEx_found (h : Inv e p) (hw : Wraps e p c) (hstub : (a, stub) ∈ p.entries)
    (hkey : key (a, stub) = (c.fn, c.wide, c.argc)) : wrapGuestCallbackEx e p c = (a, p) := by
  rw [wrapGuestCallbackEx_wraps h.ok hw]
  cases hfind : findStub p c.fn c.wide c.argc with
  | none =>
    have hmem := List.mem_map_of_mem (f := key) hstub
    rw [hkey] at hmem
    exact absurd hmem (findStub_eq_none hfind)
  | some b =>
    obtain ⟨stub', hstub', hkey'⟩ := findStub_eq_some hfind
    have heq := List.inj_on_of_nodup_map h.keys hstub' hstub (hkey'.trans hkey.symm)
    rw [(Prod.mk.inj heq).1]

theorem wrapGuestCallbackEx_answer (h : Inv e p) (hv : Valid p c) :
    wrapGuestCallbackEx e p c = (c.fn, p) ∨
    ∃ stub, Wraps e p c ∧
      ((wrapGuestCallbackEx e p c).1, stub) ∈ (wrapGuestCallbackEx e p c).2.entries ∧
      key ((wrapGuestCallbackEx e p c).1, stub) = (c.fn, c.wide, c.argc) := by
  obtain hr | ⟨a, stub, hw, hstub, hkey, hr⟩ | ⟨a, q, hw, -, -, -, hq, hr⟩ :=
    wrapGuestCallbackEx_cases h hv
  · exact .inl hr
  · rw [hr]
    exact .inr ⟨stub, hw, hstub, hkey⟩
  · rw [hr]
    exact .inr ⟨newStub e c, hw, by simp [hq], rfl⟩

theorem wrapGuestCallbackEx_again (h : Inv e p) (hv : Valid p c)
    (hstub : ((wrapGuestCallbackEx e p c).1, stub) ∈ (wrapGuestCallbackEx e p c).2.entries)
    (ht : Reaches (step e) Valid (wrapGuestCallbackEx e p c).2 t) (hvd : Valid t d)
    (hfn : d.fn = c.fn) (hwide : d.wide = c.wide) (hargc : d.argc = c.argc)
    (hguest : d.guestModule = true ∨ d.image = false) (hout : p.Outside c.fn → t.Outside c.fn) :
    wrapGuestCallbackEx e t d = ((wrapGuestCallbackEx e p c).1, t) := by
  obtain ⟨hinv, hpre⟩ := inv_of_reaches ht (inv_wrapGuestCallbackEx h hv).1
  obtain hr | ⟨stub', hw, hmem, hkey⟩ := wrapGuestCallbackEx_answer h hv
  · have hlater := hpre.subset hstub
    rw [hr] at hlater ⊢
    rw [← hfn] at hlater ⊢
    exact wrapGuestCallbackEx_owned hinv.ok hvd hlater
  · have hwd : Wraps e t d :=
      ⟨hfn ▸ hw.fn, hargc ▸ hw.argc, hw.nowrap, hfn ▸ hout hw.outside, hguest⟩
    refine wrapGuestCallbackEx_found hinv hwd (hpre.subset hmem) ?_
    rw [hkey, hfn, hwide, hargc]

theorem unwrapGuestCb_outside (h : p.Ok) (ho : p.Outside a) : unwrapGuestCb p a = a := by
  rw [unwrapGuestCb, guestCbTarget, h.target_outside ho]
  exact ite_self _

theorem unwrapGuestCb_stub (h : p.Ok) (hstub : (a, stub) ∈ p.entries) : unwrapGuestCb p a = stub.guestFn := by
  rw [unwrapGuestCb, guestCbTarget, h.target_of_mem stubBytes_pos hstub,
    if_neg (h.ne_zero_of_mem hstub)]
  rfl

theorem unwrap_wrap_iff (h : Inv e p) (hv : Valid p c) :
    unwrapGuestCb (wrapGuestCallbackEx e p c).2 (wrapGuestCallbackEx e p c).1 = c.fn ↔
      ∀ stub, (c.fn, stub) ∉ p.entries := by
  obtain hout | ⟨stub, hstub⟩ := hv.fn
  · refine iff_of_true ?_ fun stub => outside_ne h.ok hout
    obtain hr | ⟨stub, -, hmem, hkey⟩ := wrapGuestCallbackEx_answer h hv
    · rw [hr]
      exact unwrapGuestCb_outside h.ok hout
    · rw [unwrapGuestCb_stub (inv_wrapGuestCallbackEx h hv).1.ok hmem]
      exact (Prod.mk.inj hkey).1
  · refine iff_of_false ?_ fun hno => hno stub hstub
    rw [wrapGuestCallbackEx_owned h.ok hv hstub, unwrapGuestCb_stub h.ok hstub]
    exact (h.issued _ hstub).foreign

theorem eq_of_addr (h : p.Ok) (hs : (a, stub) ∈ p.entries) (hs' : (a, stub') ∈ p.entries) : stub = stub' :=
  (Prod.mk.inj (List.inj_on_of_nodup_map (h.nodup_addrs stubBytes_pos) hs hs' rfl)).2

theorem wrap_requested_iff (h : Inv e p) (hv : Valid p c) :
    (∀ stub, ((wrapGuestCallbackEx e p c).1, stub) ∈ (wrapGuestCallbackEx e p c).2.entries →
        stub.wide = c.wide ∧ stub.argc = c.argc) ↔
      ∀ stub, (c.fn, stub) ∈ p.entries → stub.wide = c.wide ∧ stub.argc = c.argc := by
  obtain hr | ⟨stub, hw, hmem, hkey⟩ := wrapGuestCallbackEx_answer h hv
  · rw [hr]
  refine iff_of_true (fun stub' hstub' => ?_) fun stub' hstub' =>
    absurd hstub' (outside_ne h.ok hw.outside)
  rw [← eq_of_addr (inv_wrapGuestCallbackEx h hv).1.ok hmem hstub']
  exact Prod.mk.inj (Prod.mk.inj hkey).2

/-- In every run a function, width and arity has one stub, which stays and passes on its arguments. -/
theorem wrapGuestCallbackEx_pool {s : Pool} (hr : Reaches (step e) Valid .init s) (hv : Valid s c) :
    (s.entries.map key).Nodup ∧ (s.entries.map Prod.fst).Nodup ∧
    (∀ t, Reaches (step e) Valid s t → s.entries <+: t.entries) ∧
    (∀ blk ∈ s.blocks.dropLast, ∀ i < guestCbBlock, Issued e (blk.addr stubBytes i, blk.slot i)) ∧
    (∀ stub, ((wrapGuestCallbackEx e s c).1, stub) ∈ (wrapGuestCallbackEx e s c).2.entries →
      ∀ t, Reaches (step e) Valid (wrapGuestCallbackEx e s c).2 t → ∀ d : Call, Valid t d →
        d.fn = c.fn → d.wide = c.wide → d.argc = c.argc → (d.guestModule = true ∨ d.image = false) →
        (s.Outside c.fn → t.Outside c.fn) →
        wrapGuestCallbackEx e t d = ((wrapGuestCallbackEx e s c).1, t)) ∧
    (∀ stub, ((wrapGuestCallbackEx e s c).1, stub) ∈ (wrapGuestCallbackEx e s c).2.entries →
      ∀ m, ∃ d op rest, runTo m stub.code = some (d, op, rest) ∧
        Enters m d stub.guestFn (e.dispatch stub.wide stub.argc) stub.argc) ∧
    (unwrapGuestCb (wrapGuestCallbackEx e s c).2 (wrapGuestCallbackEx e s c).1 = c.fn ↔
      ∀ stub, (c.fn, stub) ∉ s.entries) ∧
    ((∀ stub, ((wrapGuestCallbackEx e s c).1, stub) ∈ (wrapGuestCallbackEx e s c).2.entries →
        stub.wide = c.wide ∧ stub.argc = c.argc) ↔
      ∀ stub, (c.fn, stub) ∈ s.entries → stub.wide = c.wide ∧ stub.argc = c.argc) := by
  have hs := (inv_of_reaches hr inv_init).1
  have hafter := (inv_wrapGuestCallbackEx hs hv).1
  refine ⟨hs.keys, hs.ok.nodup_addrs stubBytes_pos, fun t ht => (inv_of_reaches ht hs).2,
    fun blk hblk i hi => hs.issued _ (BlockPool.mem_entries_of_dropLast hblk hi),
    fun stub hstub t ht d hvd hfn hwide hargc hguest hout =>
      wrapGuestCallbackEx_again hs hv hstub ht hvd hfn hwide hargc hguest hout,
    fun stub hstub m => ?_, unwrap_wrap_iff hs hv, wrap_requested_iff hs hv⟩
  have hissued := hafter.issued _ hstub
  rw [hissued.code]
  exact stubCode_enters m hissued.argc.2

namespace Retyped

def env : Env := ⟨false, fun wide argc => BitVec.ofNat 64 (0x9000 + 0x100 * argc + if wide then 8 else 0)⟩

def first : Call := ⟨0x1000, false, 4, true, true, some 0x100000⟩

def second : Call := ⟨0x100000, true, 6, false, false, none⟩

def pool : Pool := (wrapGuestCallbackEx env .init first).2

theorem valid_first : Valid .init first := by
  have hpos : 0 < (0x100000 : Word).toNat := by decide
  have hlt : (0x100000 : Word).toNat + guestCbBlock * stubBytes < 2 ^ 64 := by decide
  refine ⟨fun base hbase => ?_, fun base hbase => ?_, .inl fun blk hblk => (by cases hblk)⟩
  · cases hbase
    exact ⟨fun _ => ⟨hpos, hlt⟩, fun blk hblk => (by cases hblk)⟩
  · cases hbase
    exact .inl (by decide)

theorem valid_second : Valid pool second := by
  refine ⟨fun _ h => ?_, fun _ h => ?_, .inr ⟨newStub env first, ?_⟩⟩
  · cases h
  · cases h
  · exact List.mem_singleton.mpr rfl

theorem wrap_retyped_stub : Reaches (step env) Valid .init pool ∧ Valid pool second ∧
    (wrapGuestCallbackEx env pool second).1 = 0x100000 ∧
    ((wrapGuestCallbackEx env pool second).2.target 0x100000).map (fun x => (x.wide, x.argc)) =
      some (false, 4) ∧
    unwrapGuestCb (wrapGuestCallbackEx env pool second).2 (wrapGuestCallbackEx env pool second).1 =
      0x1000 :=
  ⟨.tail .refl valid_first rfl, valid_second, by decide +kernel, by decide +kernel, by decide +kernel⟩

theorem wrapGuestCallbackEx_pool_first : Valid .init first ∧
    unwrapGuestCb (wrapGuestCallbackEx env .init first).2 (wrapGuestCallbackEx env .init first).1 =
      0x1000 := by
  obtain ⟨-, -, -, -, -, -, hunwrap, -⟩ := wrapGuestCallbackEx_pool .refl valid_first
  exact ⟨valid_first, hunwrap.mpr fun stub hstub => by cases hstub⟩

end Retyped

end WinePpc64.Callback
