import WinePpc64.Cxx.FrameHandler

namespace WinePpc64.Cxx

open List Option

variable {descr : FuncInfo} {exc : Option ExceptionType} {c c' : CatchBlockInfo} {tb : TryBlockInfo}
  {frame : Addr} {copies : List Event} {s : ℤ}

theorem cxxStrcmp_eq_zero_iff {as bs : List UInt8} (ha : 0 ∉ as) (hb : 0 ∉ bs) :
    cxxStrcmp as bs = 0 ↔ as = bs := by
  induction as generalizing bs with
  | nil =>
    cases bs with
    | nil => simp [cxxStrcmp]
    | cons b bs =>
      have hb0 : b.toNat ≠ 0 := by
        intro h
        have hzero : b = 0 := UInt8.toNat_inj.mp h
        exact hb (by simp [hzero])
      simp [cxxStrcmp, hb0]
  | cons a as ih =>
    have ha0 : a ≠ 0 := fun h => ha (by simp [h])
    cases bs with
    | nil =>
      have ha1 : a.toNat ≠ 0 := fun h => ha0 (UInt8.toNat_inj.mp h)
      simp [cxxStrcmp, ha1]
    | cons b bs =>
      by_cases hab : a = b
      · subst hab
        have hrest : cxxStrcmp as bs = 0 ↔ as = bs :=
          ih (fun h => ha (mem_cons_of_mem _ h)) (fun h => hb (mem_cons_of_mem _ h))
        simp [cxxStrcmp, ha0, hrest]
      · have hne : (a.toNat : ℤ) - b.toNat ≠ 0 := by
          intro h
          exact hab (UInt8.toNat_inj.mp (by omega))
        simp [cxxStrcmp, hab, hne]

def SameType (ti ti' : TypeInfo) : Prop := ti.addr = ti'.addr ∨ ti.mangled.bytes = ti'.mangled.bytes

def CvCompatible (flags catchFlags : BitVec 32) : Prop :=
  (flags &&& typeFlagConst ≠ 0 → catchFlags &&& typeFlagConst ≠ 0) ∧
  (flags &&& typeFlagVolatile ≠ 0 → catchFlags &&& typeFlagVolatile ≠ 0)

def Matches (exc : Option ExceptionType) (c : CatchBlockInfo) : Prop :=
  match c.typeInfo with
  | none => True
  | some ti => ∃ e ∈ exc, ∃ type ∈ e.typeInfoTable, SameType ti type ∧ CvCompatible e.flags c.flags

def Catchable (exc : Option ExceptionType) : Prop := ∀ e ∈ exc, e.typeInfoTable ≠ []

theorem caughtAs_some {flags catchFlags : BitVec 32} {ti type : TypeInfo} :
    caughtAs flags (some ti) catchFlags type = true ↔
      SameType ti type ∧ CvCompatible flags catchFlags := by
  have hcmp := cxxStrcmp_eq_zero_iff ti.mangled.noNul type.mangled.noNul
  simp only [caughtAs, SameType, CvCompatible, ← hcmp, Bool.and_eq_true, Bool.not_eq_true',
    Bool.and_eq_false_iff, decide_eq_false_iff_not, not_not, ne_eq]
  tauto

theorem findCaughtType_isSome {e : ExceptionType} {ti : Option TypeInfo} {flags : BitVec 32} :
    (findCaughtType e ti flags).isSome ↔ ∃ type ∈ e.typeInfoTable, caughtAs e.flags ti flags type := by
  rw [findCaughtType, find?_isSome]

theorem catchClause_isSome : (catchClause frame exc c).isSome ↔ Matches exc c ∧ Catchable exc := by
  cases exc with
  | none => cases hti : c.typeInfo <;> simp [catchClause, Matches, Catchable, hti]
  | some e =>
    have hsome : (catchClause frame (some e) c).isSome ↔ (findCaughtType e c.typeInfo c.flags).isSome := by
      simp [catchClause]
    rw [hsome, findCaughtType_isSome]
    cases hti : c.typeInfo with
    | none =>
      simp only [caughtAs, and_true, Matches, hti, Catchable, mem_def, Option.some.injEq,
        forall_eq', true_and]
      constructor
      · rintro ⟨type, hmem⟩
        exact ne_nil_of_mem hmem
      · exact exists_mem_of_ne_nil e.typeInfoTable
    | some ti =>
      simp only [caughtAs_some, Matches, hti, Catchable, mem_def, Option.some.injEq,
        exists_eq_left', forall_eq']
      constructor
      · rintro ⟨type, hmem, hmatch⟩
        exact ⟨⟨type, hmem, hmatch⟩, ne_nil_of_mem hmem⟩
      · exact fun h => h.1

theorem catchClause_eq_some (h : catchClause frame exc c = some (c', copies)) :
    c' = c ∧ ∀ e ∈ copies, ∃ type, e = .copy frame c.offset c.flags type := by
  cases exc with
  | none =>
    simp only [catchClause] at h
    split_ifs at h
    cases h
    exact ⟨rfl, by simp⟩
  | some e =>
    obtain ⟨type, -, heq⟩ := map_eq_some_iff.mp h
    cases hti : c.typeInfo with
    | none =>
      simp only [hti] at heq
      cases heq
      exact ⟨rfl, by simp⟩
    | some ti =>
      simp only [hti] at heq
      split_ifs at heq
      · cases heq
        exact ⟨rfl, fun e he => ⟨type, mem_singleton.mp he⟩⟩
      · cases heq
        exact ⟨rfl, by simp⟩

theorem findCatchHandler_isSome : (findCatchHandler frame tb exc).isSome ↔
    (∃ c ∈ tb.catchblock, Matches exc c) ∧ Catchable exc := by
  rw [findCatchHandler, findSome?_isSome_iff]
  constructor
  · rintro ⟨c, hc, hsome⟩
    obtain ⟨hmatch, hcatchable⟩ := catchClause_isSome.mp hsome
    exact ⟨⟨c, hc, hmatch⟩, hcatchable⟩
  · rintro ⟨⟨c, hc, hmatch⟩, hcatchable⟩
    exact ⟨c, hc, catchClause_isSome.mpr ⟨hmatch, hcatchable⟩⟩

theorem findCatchHandler_eq_some (h : findCatchHandler frame tb exc = some (c, copies)) :
    catchClause frame exc c = some (c, copies) ∧
    ∃ pre post, tb.catchblock = pre ++ c :: post ∧ ∀ c' ∈ pre, ¬ Matches exc c' := by
  obtain ⟨pre, d, post, heq, hd, hpre⟩ := findSome?_eq_some_iff.mp h
  obtain ⟨rfl, -⟩ := catchClause_eq_some hd
  refine ⟨hd, pre, post, heq, fun c' hc' hmatch => ?_⟩
  have hcatchable : Catchable exc := (catchClause_isSome.mp (by rw [hd]; rfl)).2
  have hsome : (catchClause frame exc c').isSome := catchClause_isSome.mpr ⟨hmatch, hcatchable⟩
  rw [hpre c' hc'] at hsome
  cases hsome

def TryBlockInfo.Encloses (tb : TryBlockInfo) (s : ℤ) : Prop := tb.startLevel ≤ s ∧ s ≤ tb.endLevel

def TryBlockInfo.Inside (tb tb' : TryBlockInfo) : Prop :=
  tb'.startLevel ≤ tb.startLevel ∧ tb.endLevel ≤ tb'.endLevel

def TryBlockInfo.Apart (tb tb' : TryBlockInfo) : Prop := ∀ s, ¬ (tb.Encloses s ∧ tb'.Encloses s)

inductive Chain (table : List UnwindInfo) (stop : ℤ) : ℤ → List ℤ → Prop
  | stop : Chain table stop stop []
  | link {i : ℕ} {u : UnwindInfo} {l : List ℤ} : table[i]? = some u → Chain table stop u.prev l →
      Chain table stop i (i :: l)

structure WellFormed (descr : FuncInfo) : Prop where
  magic : cxxFrameMagicVC6 ≤ descr.magic ∧ descr.magic ≤ cxxFrameMagicVC8
  prev : ∀ (i : ℕ) (u : UnwindInfo), descr.unwindTable[i]? = some u → -1 ≤ u.prev ∧ u.prev < i
  sorted : descr.ipmap.Pairwise fun m m' => m.ip ≤ m'.ip
  states : ∀ m ∈ descr.ipmap, -1 ≤ m.state
  nested : descr.tryblock.Pairwise fun tb tb' => tb.Apart tb' ∨ tb.Inside tb'
  chain : ∀ tb ∈ descr.tryblock, ∀ s, tb.Encloses s →
    ∃ l, Chain descr.unwindTable tb.startLevel s l

def OutsideCatch (descr : FuncInfo) (s : ℤ) : Prop :=
  ∀ tb ∈ descr.tryblock, ¬ (tb.endLevel < s ∧ s ≤ tb.catchLevel)

structure Selects (descr : FuncInfo) (s : ℤ) (exc : Option ExceptionType) (tb : TryBlockInfo)
    (c : CatchBlockInfo) : Prop where
  mem : tb ∈ descr.tryblock
  encloses : tb.Encloses s
  hit : Matches exc c
  clause : ∃ pre post, tb.catchblock = pre ++ c :: post ∧ ∀ c' ∈ pre, ¬ Matches exc c'
  innermost : ∀ tb' ∈ descr.tryblock, tb'.Encloses s → (∃ c' ∈ tb'.catchblock, Matches exc c') →
    tb.Inside tb'
  first : ∃ pre post, descr.tryblock = pre ++ tb :: post ∧
    ∀ tb' ∈ pre, tb'.Encloses s → ∀ c' ∈ tb'.catchblock, ¬ Matches exc c'

theorem takeWhile_eq_filter {ipmap : List IpMapInfo} (hsorted : ipmap.Pairwise fun m m' => m.ip ≤ m'.ip)
    {ip base : ℕ} : (ipmap.takeWhile fun m => ¬ base + m.ip > ip) =
      ipmap.filter fun m => base + m.ip ≤ ip := by
  induction ipmap with
  | nil => rfl
  | cons m ms ih =>
    obtain ⟨hle, htail⟩ := pairwise_cons.mp hsorted
    by_cases hm : base + m.ip ≤ ip
    · simpa [hm] using ih htail
    have hempty : (ms.filter fun m => base + m.ip ≤ ip) = [] := by
      rw [filter_eq_nil_iff]
      intro m' hm'
      have := hle m' hm'
      simp only [decide_eq_true_eq]
      omega
    simp [hm, hempty]

theorem ipToState_eq (hsorted : descr.ipmap.Pairwise fun m m' => m.ip ≤ m'.ip) {ip base : ℕ} :
    ipToState descr ip base =
      ((descr.ipmap.filter fun m => base + m.ip ≤ ip).getLast?.map IpMapInfo.state).getD (-1) := by
  rw [ipToState, takeWhile_eq_filter hsorted]
  cases (descr.ipmap.filter fun m => base + m.ip ≤ ip).getLast? <;> rfl

theorem neg_one_le_ipToState (hstates : ∀ m ∈ descr.ipmap, -1 ≤ m.state) {ip base : ℕ} :
    -1 ≤ ipToState descr ip base := by
  unfold ipToState
  split
  · exact le_refl _
  · rename_i m hm
    exact hstates m (( takeWhile_prefix _).subset (mem_of_getLast? hm))

def findTry (frame : Addr) (descr : FuncInfo) (exc : Option ExceptionType) (s : ℤ) :
    Option (TryBlockInfo × CatchBlockInfo × List Event) :=
  descr.tryblock.findSome? fun tb =>
    if s < tb.startLevel ∨ s > tb.endLevel then none
    else (findCatchHandler frame tb exc).map fun c => (tb, c)

theorem findTry_isSome : (findTry frame descr exc s).isSome ↔
    (∃ tb ∈ descr.tryblock, tb.Encloses s ∧ ∃ c ∈ tb.catchblock, Matches exc c) ∧ Catchable exc := by
  rw [findTry, findSome?_isSome_iff]
  constructor
  · rintro ⟨tb, htb, hsome⟩
    split_ifs at hsome with hout
    · cases hsome
    · rw [isSome_map, findCatchHandler_isSome] at hsome
      exact ⟨⟨tb, htb, ⟨by omega, by omega⟩, hsome.1⟩, hsome.2⟩
  · rintro ⟨⟨tb, htb, ⟨hstart, hend⟩, hmatch⟩, hcatchable⟩
    refine ⟨tb, htb, ?_⟩
    rw [if_neg (by omega), isSome_map, findCatchHandler_isSome]
    exact ⟨hmatch, hcatchable⟩

theorem findTry_eq_some (hd : WellFormed descr) (h : findTry frame descr exc s = some (tb, c, copies)) :
    Selects descr s exc tb c ∧ catchClause frame exc c = some (c, copies) := by
  obtain ⟨pre, tb', post, heq, htb, hpre⟩ := findSome?_eq_some_iff.mp h
  split_ifs at htb with hout
  obtain ⟨⟨c', copies'⟩, hfind, hpair⟩ := map_eq_some_iff.mp htb
  cases hpair
  obtain ⟨hclause, hfirst⟩ := findCatchHandler_eq_some hfind
  obtain ⟨hmatch, hcatchable⟩ := catchClause_isSome.mp (by rw [hclause]; rfl)
  have hbefore : ∀ tb' ∈ pre, tb'.Encloses s → ∀ c' ∈ tb'.catchblock, ¬ Matches exc c' := by
    intro tb' htb' hencl c' hc' hmatch'
    have hnone := hpre tb' htb'
    rw [if_neg (by obtain ⟨h1, h2⟩ := hencl; omega), map_eq_none_iff] at hnone
    have hsome : (findCatchHandler frame tb' exc).isSome :=
      findCatchHandler_isSome.mpr ⟨⟨c', hc', hmatch'⟩, hcatchable⟩
    rw [hnone] at hsome
    cases hsome
  have hencl : tb.Encloses s := ⟨by omega, by omega⟩
  refine ⟨⟨by simp [heq], hencl, hmatch, hfirst, ?_, pre, post, heq, hbefore⟩, hclause⟩
  intro tb' htb' hencl' ⟨c', hc', hmatch'⟩
  have hnested := hd.nested
  rw [heq] at htb' hnested
  obtain hmem | hmem := mem_append.mp htb'
  · exact absurd hmatch' (hbefore tb' hmem hencl' c' hc')
  obtain rfl | hmem := mem_cons.mp hmem
  · exact ⟨le_refl _, le_refl _⟩
  -- a later try that encloses the state is around this one
  obtain hapart | hinside :=
    (pairwise_cons.mp (pairwise_append.mp hnested).2.1).1 tb' hmem
  · exact absurd ⟨hencl, hencl'⟩ (hapart s)
  · exact hinside

def searched (s : ℤ) : ℤ × ℤ := if s = -1 then (-2, -1) else (s, s)

section Search

variable {t : Thread} {record : ExceptionRecord} {dispatch : Dispatcher}

theorem find_inCatch (hout : OutsideCatch descr s) :
    (descr.tryblock.reverse.find? fun tb => tb.inCatch s) = none := by
  rw [find?_eq_none]
  intro tb htb
  have := hout tb (mem_reverse.mp htb)
  simpa [TryBlockInfo.inCatch] using this

theorem search_level (hle : -1 ≤ s) :
    (if s > ((-2, -1) : ℤ × ℤ).2 then (s, (s, s)) else (((-2, -1) : ℤ × ℤ).2, (-2, -1))) =
      (s, searched s) := by
  by_cases hneg : s = -1
  · subst hneg
    rfl
  · rw [if_pos (by omega), searched, if_neg hneg]

theorem findCatchBlock_none (hhelp : t.help frame = (-2, -1))
    (hs : ipToState descr dispatch.controlPc dispatch.imageBase = s) (hle : -1 ≤ s)
    (hout : OutsideCatch descr s) (hfound : findTry frame descr exc s = none) :
    findCatchBlock t record frame dispatch descr exc frame =
      (.continueSearch, { t with help := Function.update t.help frame (searched s) }) := by
  rw [findTry] at hfound
  simp only [findCatchBlock, hs, hhelp, find_inCatch hout, search_level hle, any_none,
    Bool.false_eq_true, if_false, hfound]

theorem findCatchBlock_some (hhelp : t.help frame = (-2, -1))
    (hs : ipToState descr dispatch.controlPc dispatch.imageBase = s) (hle : -1 ≤ s)
    (hout : OutsideCatch descr s) (hfound : findTry frame descr exc s = some (tb, c, copies)) :
    findCatchBlock t record frame dispatch descr exc frame =
      (.unwindEx frame dispatch.controlPc ⟨frame, tb.startLevel, c.handler, record⟩,
        { t with
          help := Function.update t.help frame (searched s)
          log := t.log ++ copies }) := by
  rw [findTry] at hfound
  simp only [findCatchBlock, hs, hhelp, find_inCatch hout, search_level hle, any_none,
    Bool.false_eq_true, if_false, hfound]

end Search

end WinePpc64.Cxx
