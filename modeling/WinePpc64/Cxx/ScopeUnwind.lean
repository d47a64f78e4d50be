import WinePpc64.Cxx.CatchSelection

namespace WinePpc64.Cxx

open Function List

variable {descr : FuncInfo} {table : List UnwindInfo} {frame : Addr} {th : Thread} {stop s : ℤ}
  {l : List ℤ} {c : CatchBlockInfo} {tb : TryBlockInfo}

def funclets (table : List UnwindInfo) (frame : Addr) (l : List ℤ) : List Event :=
  l.flatMap fun i => match table[i.toNat]? with
    | none => []
    | some u => if u.handler ≠ 0 then [.callFunclet u.handler frame] else []

variable (hprev : ∀ (i : ℕ) (u : UnwindInfo), table[i]? = some u → -1 ≤ u.prev ∧ u.prev < i)
  (h : Chain table stop s l)
include hprev h

theorem Chain.le : stop ≤ s := by
  induction h with
  | stop => exact le_refl _
  | link hu _ ih => exact ih.trans (hprev _ _ hu).2.le

theorem Chain.mem_le : ∀ x ∈ l, x ≤ s := by
  induction h with
  | stop => simp
  | link hu _ ih =>
    intro x hx
    obtain rfl | hx := mem_cons.mp hx
    · exact le_refl _
    · exact (ih x hx).trans (hprev _ _ hu).2.le

theorem Chain.decreasing : l.Pairwise (· > ·) := by
  induction h with
  | stop => exact List.Pairwise.nil
  | link hu hrest ih =>
    refine pairwise_cons.mpr ⟨fun x hx => ?_, ih⟩
    have hle := hrest.mem_le hprev x hx
    have hlt := (hprev _ _ hu).2
    omega

theorem unwindLoop_chain {n : ℕ} (hn : l.length < n) :
    unwindLoop table frame stop n s = .ok (stop, funclets table frame l) := by
  induction h generalizing n with
  | stop =>
    obtain ⟨m, rfl⟩ : ∃ m, n = m + 1 := ⟨n - 1, by omega⟩
    rw [unwindLoop, if_neg (lt_irrefl _)]
    rfl
  | @link i u l hu hrest ih =>
    obtain ⟨m, rfl⟩ : ∃ m, n = m + 1 := ⟨n - 1, by omega⟩
    have hlevel : (i : ℤ) > stop := lt_of_le_of_lt (hrest.le hprev) (hprev i u hu).2
    have hrec : unwindLoop table frame stop m u.prev = .ok (stop, funclets table frame l) :=
      ih (by rw [length_cons] at hn; omega)
    rw [unwindLoop, if_pos hlevel, if_neg (by omega)]
    simp only [hu, hrec, Result.bind, funclets, flatMap_cons, Int.toNat_natCast]

omit h hprev

theorem cxxLocalUnwind_chain (hd : WellFormed descr) {dispatch : Dispatcher}
    (hhelp : th.help frame = searched s) (hle : -1 ≤ s)
    (hs : ipToState descr dispatch.controlPc dispatch.imageBase = s)
    (h : Chain descr.unwindTable stop s l) {fuel : ℕ} (hfuel : l.length < fuel) :
    cxxLocalUnwind fuel th frame dispatch descr stop = .ok { th with
      help := update th.help frame (stop, (searched s).2)
      log := th.log ++ funclets descr.unwindTable frame l } := by
  have hlevel : (if (searched s).1 = -2 then ipToState descr dispatch.controlPc dispatch.imageBase
      else (searched s).1) = s := by
    by_cases hneg : s = -1
    · subst hneg
      exact hs
    · rw [searched, if_neg hneg]
      exact if_neg (by omega)
  simp only [cxxLocalUnwind, hhelp, hlevel, unwindLoop_chain hd.prev h hfuel, Result.bind]

structure Throw where
  object : Addr
  thrown : Option ExceptionType
  current : Option ExceptionRecord
  dispatch : Dispatcher

namespace Throw

variable (t : Throw)

def record : ExceptionRecord := ⟨cxxException, exceptionNoncontinuable, t.object, t.thrown⟩

def resolved : ExceptionRecord :=
  if t.object = 0 ∧ t.thrown.isNone then t.current.getD t.record else t.record

def excType : Option ExceptionType :=
  if t.resolved.code = cxxException then t.resolved.excType else none

def state (descr : FuncInfo) : ℤ :=
  ((descr.ipmap.filter fun m => t.dispatch.imageBase + m.ip ≤ t.dispatch.controlPc).getLast?.map
    IpMapInfo.state).getD (-1)

theorem ipToState_state (hd : WellFormed descr) :
    ipToState descr t.dispatch.controlPc t.dispatch.imageBase = t.state descr :=
  ipToState_eq hd.sorted

theorem neg_one_le_state (hd : WellFormed descr) : -1 ≤ t.state descr := by
  rw [← t.ipToState_state hd]
  exact neg_one_le_ipToState hd.states

end Throw

/-- `RtlUnwindEx` to the frame, which is where the exception came to: its handler is called as that of
the target, and then the routine of the record. -/
def rtlUnwindEx (fuel : ℕ) (descr : FuncInfo) (th : Thread) (t : Throw) (frame : Addr)
    (params : CatchParams) : Result Thread :=
  let record : ExceptionRecord := ⟨statusUnwindConsolidate,
    exceptionNoncontinuable ||| exceptionUnwinding ||| exceptionTargetUnwind, params.frame, none⟩
  (cxxFrameHandler3 fuel th t.current record (some params) frame t.dispatch descr).bind fun r =>
    .ok (callCatchBlock r.2 params).2

def deliver (fuel : ℕ) (descr : FuncInfo) (frame : Addr) (th : Thread) (t : Throw) :
    Result (Bool × Thread) :=
  (cxxFrameHandler3 fuel th t.current t.record none frame t.dispatch descr).bind fun r =>
    match r with
    | (.continueSearch, th') => .ok (false, th')
    | (.unwindEx target _ params, th') =>
      (rtlUnwindEx fuel descr th' t target params).bind fun th'' => .ok (true, th'')

def deliverAll (fuel : ℕ) (descr : FuncInfo) (frame : Addr) : Thread → List Throw → Result (Bool × Thread)
  | th, [] => .ok (true, th)
  | th, t :: ts => (deliver fuel descr frame th t).bind fun r =>
    if r.1 then deliverAll fuel descr frame r.2 ts else .ok r

def Caught (descr : FuncInfo) (frame : Addr) (t : Throw) : Prop :=
  ∃ fuel th target ip params th', th.help frame = (-2, -1) ∧
    cxxFrameHandler3 fuel th t.current t.record none frame t.dispatch descr =
      .ok (.unwindEx target ip params, th')

structure Handling where
  tryblock : TryBlockInfo
  clause : CatchBlockInfo
  copies : List Event
  levels : List ℤ

def Handling.events (descr : FuncInfo) (frame : Addr) (t : Throw) (h : Handling) : List Event :=
  h.copies ++ funclets descr.unwindTable frame h.levels ++
    [.register t.resolved, .callFunclet h.clause.handler frame, .unregister]

structure Handles (descr : FuncInfo) (frame : Addr) (t : Throw) (h : Handling) : Prop where
  selects : Selects descr (t.state descr) t.excType h.tryblock h.clause
  copies : ∀ e ∈ h.copies, ∃ type, e = .copy frame h.clause.offset h.clause.flags type
  chain : Chain descr.unwindTable h.tryblock.startLevel (t.state descr) h.levels
  decreasing : h.levels.Pairwise (· > ·)

section Delivery

variable {t : Throw} {fuel : ℕ}

theorem nestedFrame_outside {dispatch : Dispatcher} (hout : OutsideCatch descr s) :
    nestedFrame th frame dispatch descr s = (frame, -1) := by
  have hfold : ∀ (tbs : List TryBlockInfo) (acc : Addr × ℤ), (∀ tb ∈ tbs, tb.inCatch s = false) →
      tbs.foldl (fun acc tb =>
        if tb.inCatch s then
          tb.catchblock.foldl (fun acc c =>
            if c.handler = dispatch.beginAddress then (th.link frame c.frame, tb.endLevel) else acc) acc
        else acc) acc = acc := by
    intro tbs
    induction tbs with
    | nil => exact fun acc _ => rfl
    | cons tb tbs ih =>
      intro acc hall
      rw [foldl_cons, if_neg (by simp [hall tb mem_cons_self])]
      exact ih acc fun tb' htb' => hall tb' (mem_cons_of_mem _ htb')
  refine hfold _ _ fun tb htb => ?_
  have := hout tb (mem_reverse.mp htb)
  simpa [TryBlockInfo.inCatch] using this

theorem magic_ok (hd : WellFormed descr) :
    ¬ (descr.magic < cxxFrameMagicVC6 ∨ descr.magic > cxxFrameMagicVC8) := by
  have := hd.magic
  omega

theorem handled_always (code : BitVec 32) (h : code = cxxException ∨ code = statusUnwindConsolidate) :
    ¬ (descr.magic ≥ cxxFrameMagicVC8 ∧ descr.flags &&& funcDescrSynchronous ≠ 0 ∧
      code ≠ cxxException ∧ code ≠ statusUnwindConsolidate ∧ code ≠ statusLongjump) :=
  fun hc => h.elim hc.2.2.1 hc.2.2.2.1

theorem record_searched : ¬ (t.record.flags &&& (exceptionUnwinding ||| exceptionExitUnwind) ≠ 0) := by
  show ¬ (exceptionNoncontinuable &&& (exceptionUnwinding ||| exceptionExitUnwind) ≠ 0)
  decide

theorem record_resolved :
    (if t.record.code = cxxException ∧ t.record.object = 0 ∧ t.record.excType.isNone then
      t.current.getD t.record else t.record) = t.resolved := by
  simp [Throw.resolved, Throw.record]

theorem findTry_nil (hnil : descr.tryblock = []) {exc : Option ExceptionType} :
    findTry frame descr exc s = none := by
  rw [findTry, hnil]
  rfl

theorem search_some (hd : WellFormed descr) (hhelp : th.help frame = (-2, -1))
    (hout : OutsideCatch descr (t.state descr))
    {copies : List Event}
    (hfound : findTry frame descr t.excType (t.state descr) = some (tb, c, copies)) :
    cxxFrameHandler3 fuel th t.current t.record none frame t.dispatch descr =
      .ok (.unwindEx frame t.dispatch.controlPc ⟨frame, tb.startLevel, c.handler, t.resolved⟩, { th with
        help := update th.help frame (searched (t.state descr))
        log := th.log ++ copies }) := by
  have hne : descr.tryblock ≠ [] := by
    intro hnil
    rw [findTry_nil hnil] at hfound
    cases hfound
  have hblock : findCatchBlock th t.resolved frame t.dispatch descr t.excType frame = _ :=
    findCatchBlock_some hhelp (t.ipToState_state hd) (t.neg_one_le_state hd) hout hfound
  unfold Throw.excType at hblock
  simp only [cxxFrameHandler3, if_neg (magic_ok hd), if_neg (handled_always t.record.code (.inl rfl)),
    t.ipToState_state hd, nestedFrame_outside hout, if_neg record_searched, if_neg hne, record_resolved, hblock]

theorem search_none (fuel : ℕ) (hd : WellFormed descr) (hhelp : th.help frame = (-2, -1))
    (hout : OutsideCatch descr (t.state descr))
    (hfound : findTry frame descr t.excType (t.state descr) = none) :
    cxxFrameHandler3 fuel th t.current t.record none frame t.dispatch descr = .trap ∨
      ∃ th', cxxFrameHandler3 fuel th t.current t.record none frame t.dispatch descr =
        .ok (.continueSearch, th') := by
  have hblock : findCatchBlock th t.resolved frame t.dispatch descr t.excType frame = _ :=
    findCatchBlock_none hhelp (t.ipToState_state hd) (t.neg_one_le_state hd) hout hfound
  unfold Throw.excType at hblock
  simp only [cxxFrameHandler3, if_neg (magic_ok hd), if_neg (handled_always t.record.code (.inl rfl)),
    t.ipToState_state hd, nestedFrame_outside hout, if_neg record_searched, record_resolved, hblock]
  split_ifs
  · exact .inl rfl
  · exact .inr ⟨_, rfl⟩
  · exact .inl rfl
  · exact .inr ⟨_, rfl⟩

variable (hd : WellFormed descr)
include hd

theorem rtlUnwindEx_eq (hhelp : th.help frame = searched (t.state descr))
    (hout : OutsideCatch descr (t.state descr)) {params : CatchParams} (hframe : params.frame = frame)
    (hchain : Chain descr.unwindTable params.startLevel (t.state descr) l) (hfuel : l.length < fuel) :
    rtlUnwindEx fuel descr th t frame params = .ok { th with
      help := update th.help frame (-2, -1)
      log := th.log ++ funclets descr.unwindTable frame l ++
        [.register params.record, .callFunclet params.handler frame, .unregister] } := by
  have hunwind := cxxLocalUnwind_chain hd hhelp (t.neg_one_le_state hd) (t.ipToState_state hd) hchain hfuel
  have hflags : (exceptionNoncontinuable ||| exceptionUnwinding ||| exceptionTargetUnwind) &&&
      (exceptionUnwinding ||| exceptionExitUnwind) ≠ 0 := by decide
  have htarget : (exceptionNoncontinuable ||| exceptionUnwinding ||| exceptionTargetUnwind) &&&
      exceptionTargetUnwind ≠ 0 := by decide
  simp only [rtlUnwindEx, cxxFrameHandler3, if_neg (magic_ok hd), if_neg (handled_always _ (.inr rfl)),
    t.ipToState_state hd, nestedFrame_outside hout, if_pos hflags, if_pos htarget, if_true, hunwind, Result.bind,
    callCatchBlock, hframe, update_idem]

theorem deliver_caught (hhelp : th.help frame = (-2, -1))
    (hout : OutsideCatch descr (t.state descr))
    {copies : List Event}
    (hfound : findTry frame descr t.excType (t.state descr) = some (tb, c, copies))
    (hchain : Chain descr.unwindTable tb.startLevel (t.state descr) l) (hfuel : l.length < fuel) :
    deliver fuel descr frame th t = .ok (true, { th with
      log := th.log ++ Handling.events descr frame t ⟨tb, c, copies, l⟩ }) := by
  have hrest : update th.help frame (-2, -1) = th.help := by
    rw [← hhelp, update_eq_self]
  have hunwind (th' : Thread) (h : th'.help frame = searched (t.state descr)) :
      rtlUnwindEx fuel descr th' t frame ⟨frame, tb.startLevel, c.handler, t.resolved⟩ = _ :=
    rtlUnwindEx_eq hd h hout rfl hchain hfuel
  simp only [deliver, search_some hd hhelp hout hfound, Result.bind]
  rw [hunwind _ (update_self ..)]
  simp only [update_idem, hrest, Handling.events, append_assoc]

variable (hout : OutsideCatch descr (t.state descr))
include hout

theorem caught_iff : Caught descr frame t ↔ (findTry frame descr t.excType (t.state descr)).isSome := by
  constructor
  · rintro ⟨fuel, th, target, ip, params, th', hhelp, hcall⟩
    cases hfound : findTry frame descr t.excType (t.state descr) with
    | some r => rfl
    | none =>
      have hsearch := search_none fuel hd hhelp hout hfound
      rw [hcall] at hsearch
      obtain htrap | ⟨th'', hcontinue⟩ := hsearch
      · cases htrap
      · cases hcontinue
  · intro hsome
    obtain ⟨⟨tb, c, copies⟩, hfound⟩ := Option.isSome_iff_exists.mp hsome
    exact ⟨0, ⟨fun _ => (-2, -1), fun _ _ => 0, [], fun _ _ => 0⟩, _, _, _, _, rfl, search_some hd rfl hout hfound⟩

theorem handles_of_caught
    (hcaught : Caught descr frame t) : ∃ h : Handling, Handles descr frame t h ∧
      findTry frame descr t.excType (t.state descr) = some (h.tryblock, h.clause, h.copies) := by
  obtain ⟨⟨tb, c, copies⟩, hfound⟩ := Option.isSome_iff_exists.mp ((caught_iff hd hout).mp hcaught)
  obtain ⟨hsel, hclause⟩ := findTry_eq_some hd hfound
  obtain ⟨l, hchain⟩ := hd.chain tb hsel.mem _ hsel.encloses
  exact ⟨⟨tb, c, copies, l⟩,
    ⟨hsel, (catchClause_eq_some hclause).2, hchain, hchain.decreasing hd.prev⟩, hfound⟩

end Delivery

/-- Each exception is handled by the first matching clause of the innermost try that has one. -/
theorem cxxFrameHandler3_catches (hd : WellFormed descr) (frame : Addr) :
    (∀ t : Throw, OutsideCatch descr (t.state descr) → (Caught descr frame t ↔
      (∃ tb ∈ descr.tryblock, tb.Encloses (t.state descr) ∧ ∃ c ∈ tb.catchblock, Matches t.excType c) ∧
        Catchable t.excType)) ∧
    ∀ (ts : List Throw) (th : Thread), th.help frame = (-2, -1) →
      (∀ t ∈ ts, OutsideCatch descr (t.state descr) ∧ Caught descr frame t) →
      ∃ hs : List Handling, List.Forall₂ (Handles descr frame) ts hs ∧
        ∃ n, ∀ fuel ≥ n, ∃ th', deliverAll fuel descr frame th ts = .ok (true, th') ∧
          th'.help = th.help ∧
          th'.log = th.log ++ (List.zipWith (Handling.events descr frame) ts hs).flatten := by
  refine ⟨fun t hout => (caught_iff hd hout).trans findTry_isSome, ?_⟩
  intro ts
  induction ts with
  | nil => exact fun th _ _ => ⟨[], .nil, 0, fun fuel _ => ⟨th, rfl, rfl, by simp⟩⟩
  | cons t ts ih =>
    intro th hhelp hts
    obtain ⟨hout, hcaught⟩ := hts t mem_cons_self
    obtain ⟨h, hh, hfound⟩ := handles_of_caught hd hout hcaught
    obtain ⟨hs, hall, n, hrun⟩ := ih { th with log := th.log ++ h.events descr frame t } hhelp
      fun t' ht' => hts t' (mem_cons_of_mem _ ht')
    refine ⟨h :: hs, .cons hh hall, max n (h.levels.length + 1), fun fuel hfuel => ?_⟩
    obtain ⟨th', hdeliver, hhelp', hlog⟩ := hrun fuel (le_trans (le_max_left _ _) hfuel)
    refine ⟨th', ?_, hhelp', ?_⟩
    · rw [deliverAll, deliver_caught hd hhelp hout hfound hh.chain (by omega)]
      exact hdeliver
    · rw [hlog, zipWith_cons_cons, flatten_cons, append_assoc]

namespace Guarded

def guarded : FuncInfo where
  magic := cxxFrameMagicVC8
  unwindTable := [⟨-1, 0⟩, ⟨0, 0x1200⟩]
  tryblock := [⟨0, 1, 2, [⟨0, none, 0, 0x1300, 0⟩]⟩]
  ipmap := [⟨0x1000, -1⟩, ⟨0x1010, 0⟩, ⟨0x1020, 1⟩]
  flags := 0

theorem wellFormed : WellFormed guarded where
  magic := by decide
  prev := by
    intro i u hu
    match i with
    | 0 => cases hu; decide
    | 1 => cases hu; decide
    | i + 2 => simp [guarded] at hu
  sorted := by simp [guarded]
  states := by simp [guarded]
  nested := by simp [guarded]
  chain := by
    intro tb htb s hs
    obtain rfl : tb = ⟨0, 1, 2, [⟨0, none, 0, 0x1300, 0⟩]⟩ := by simpa [guarded] using htb
    obtain ⟨hstart, hend⟩ := hs
    obtain rfl | rfl : s = 0 ∨ s = 1 := by
      simp only at hstart hend
      omega
    · exact ⟨[], .stop⟩
    · exact ⟨[1], Chain.link rfl .stop⟩

def thrown : Throw := ⟨0x5000, some ⟨0, [⟨0x6000, ⟨[], by simp⟩⟩]⟩, none, ⟨0x401028, 0x400000, 0x1000⟩⟩

theorem outside : OutsideCatch guarded (thrown.state guarded) := by
  intro tb htb
  obtain rfl : tb = ⟨0, 1, 2, [⟨0, none, 0, 0x1300, 0⟩]⟩ := by simpa [guarded] using htb
  decide

theorem caught {frame : Addr} : Caught guarded frame thrown := by
  rw [caught_iff wellFormed outside, findTry_isSome]
  refine ⟨⟨_, mem_cons_self, ?_, _, mem_cons_self, trivial⟩, ?_⟩
  · exact ⟨by decide, by decide⟩
  · intro e he
    cases he
    exact cons_ne_nil _ _

def atRest : Thread := ⟨fun _ => (-2, -1), fun _ _ => 0, [], fun _ _ => 0⟩

theorem cxxFrameHandler3_catches_twice :
    WellFormed guarded ∧ Caught guarded 0x7000 thrown ∧ ∃ hs : List Handling,
      List.Forall₂ (Handles guarded 0x7000) [thrown, thrown] hs ∧
      ∃ n, ∀ fuel ≥ n, ∃ th', deliverAll fuel guarded 0x7000 atRest
          [thrown, thrown] = .ok (true, th') ∧ th'.help 0x7000 = (-2, -1) ∧
        th'.log = (List.zipWith (Handling.events guarded 0x7000) [thrown, thrown] hs).flatten := by
  refine ⟨wellFormed, caught, ?_⟩
  obtain ⟨hs, hall, n, hrun⟩ := (cxxFrameHandler3_catches wellFormed 0x7000).2 [thrown, thrown]
    atRest rfl (by simp [outside, caught])
  refine ⟨hs, hall, n, fun fuel hfuel => ?_⟩
  obtain ⟨th', hdeliver, hhelp, hlog⟩ := hrun fuel hfuel
  exact ⟨th', hdeliver, by rw [hhelp]; rfl, hlog⟩

end Guarded

end WinePpc64.Cxx
