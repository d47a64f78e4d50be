import WinePpc64.Handles.Requests

namespace WinePpc64.Handles

open Function Lib Except State Table

def State.Ok (s : State) : Prop := ∀ r t, s.table r = some t → t.Ok

section States

variable {s s' : State} {r r' : Ref} {t : Table}

theorem State.table_set : (s.set r t).table r' = if r' = r then some t else s.table r' := by
  cases r with
  | glob => cases r' <;> simp [set, table]
  | proc p =>
    cases r' with
    | glob => simp [set, table]
    | proc q =>
      by_cases hqp : q = p
      · simp [set, table, hqp]
      · simp [set, table, hqp]

theorem State.Ok.set (h : s.Ok) (ht : t.Ok) : (s.set r t).Ok := by
  intro r' t' ht'
  rw [table_set] at ht'
  split at ht'
  · cases ht'
    exact ht
  · exact h r' t' ht'

theorem State.init_ok : State.init.Ok := by
  intro r t h
  cases r <;> cases h

@[simp] theorem State.table_grab (s : State) (obj : ℕ) : (s.grab obj).table = s.table := by
  funext r
  cases r <;> rfl

theorem State.Ok.of_table (h : s.Ok) (heq : s'.table = s.table) : s'.Ok := by
  intro r t ht
  rw [heq] at ht
  exact h r t ht

end States

theorem State.release_table {s s' : State} {obj : ℕ} (h : s.release obj = .ok s') : s'.table = s.table := by
  rw [release] at h
  split at h <;> cases h
  funext r
  cases r <;> rfl

section Entries

variable {s s' : State} {p : ℕ} {h : Handle} {pol : Policy}

theorem getHandle_eq (hs : s.Ok) :
    ∃ o, getHandle s (some p) h = .ok o ∧ ∀ i e, o = some (i, e) →
      i = decode h ∧ ∃ t k, s.table (refOf p h) = some t ∧ decode h = (k : ℕ) ∧ k < t.used ∧
        t.entries k = some e := by
  rw [getHandle]
  cases ht : s.table (refOf p h) with
  | none => exact ⟨none, rfl, fun i e he => absurd he (by simp)⟩
  | some t =>
    dsimp only
    split
    · exact ⟨none, rfl, fun i e he => absurd he (by simp)⟩
    rename_i hidx
    push Not at hidx
    obtain ⟨k, hk⟩ := Int.eq_ofNat_of_zero_le hidx.1
    have hlt : k < t.used := by omega
    have hused := (hs _ _ ht).used_le
    rw [hk, read_lt (by omega)]
    refine ⟨_, rfl, ?_⟩
    intro i e he
    obtain ⟨e', he', heq⟩ := Option.map_eq_some_iff.mp he
    cases heq
    exact ⟨rfl, t, k, rfl, rfl, hlt, he'⟩

def ClearsGlobal (pol : Policy) (s : State) (p : ℕ) (h : Handle) : Prop :=
  handleIsGlobal h = true ∧ ∃ i e, getHandle s (some p) h = .ok (some (i, e)) ∧ isProtected e = false ∧
    pol.close e.obj p h = true

structure Cleared (s s' : State) (p : ℕ) (h : Handle) : Prop where
  isLocal : handleIsGlobal h = false
  entry : ∃ t t' k, s.procs p = some t ∧ s'.procs p = some t' ∧ handleToIndex h = (k : ℕ) ∧ k < t.used ∧
    t.entries k ≠ none ∧ t'.entries = update t.entries k none ∧ t'.Ok
  others : ∀ r, r ≠ .proc p → s'.table r = s.table r

theorem closeHandle_global (hs : s.Ok) (hc : ClearsGlobal pol s p h) :
    closeHandle pol s p h = .error .outOfBounds := by
  obtain ⟨hg, i, e, he, hprot, hclose⟩ := hc
  obtain ⟨o, ho, hspec⟩ := getHandle_eq hs
  cases ho.symm.trans he
  obtain ⟨-, t, k, ht, -⟩ := hspec i e rfl
  have hmax := (hs _ _ ht).max
  have hidx := handleToIndex_global hg
  rw [closeHandle, ho]
  simp only [Except.bind, hprot, hclose, ht]
  rw [clearEntry, Table.write_ge (by omega)]
  rfl

theorem closeHandle_cases (hs : s.Ok) (hc : ¬ ClearsGlobal pol s p h) :
    (closeHandle pol s p h = .ok (s, .invalidHandle) ∧ getHandle s (some p) h = .ok none) ∨
      (∃ i e, closeHandle pol s p h = .ok (s, .notClosable) ∧ getHandle s (some p) h = .ok (some (i, e)) ∧
        (isProtected e = true ∨ pol.close e.obj p h = false)) ∨
      ∃ t t' k e, handleIsGlobal h = false ∧ s.table (.proc p) = some t ∧ handleToIndex h = (k : ℕ) ∧ k < t.used ∧
        t.entries k = some e ∧ isProtected e = false ∧ pol.close e.obj p h = true ∧
        clearEntry t k (pol.alloc 1) = .ok t' ∧
        closeHandle pol s p h = ((s.set (.proc p) t').release e.obj).map fun s => (s, .success) := by
  obtain ⟨o, ho, hspec⟩ := getHandle_eq hs
  rw [closeHandle, ho]
  simp only [Except.bind]
  rcases o with _ | ⟨i, e⟩
  · exact .inl ⟨rfl, rfl⟩
  obtain ⟨-, t, k, ht, hk, hlt, hent⟩ := hspec i e rfl
  right
  dsimp only
  cases hprot : isProtected e with
  | true => exact .inl ⟨i, e, rfl, rfl, .inl hprot⟩
  | false =>
    cases hclose : pol.close e.obj p h with
    | false => exact .inl ⟨i, e, rfl, rfl, .inr hclose⟩
    | true =>
      have hlocal : handleIsGlobal h = false := by
        by_contra hg
        exact hc ⟨by simpa using hg, i, e, ho, hprot, hclose⟩
      have hdecode : handleToIndex h = (k : ℕ) := by
        rw [← hk, decode, hlocal]
        rfl
      have href : refOf p h = .proc p := by simp [refOf, hlocal]
      rw [href] at ht ⊢
      obtain ⟨t', ht', -⟩ := clearEntry_eq (hs _ _ ht) hlt
      refine .inr ⟨t, t', k, e, hlocal, ht, hdecode, hlt, hent, hprot, hclose, ht', ?_⟩
      simp only [ht, hdecode, ht', Bool.false_eq_true, Bool.not_true, if_false]

theorem closeHandle_cleared (hs : s.Ok) (hclose : closeHandle pol s p h = .ok (s', .success)) :
    Cleared s s' p h := by
  have hc : ¬ ClearsGlobal pol s p h := by
    intro hc
    rw [closeHandle_global hs hc] at hclose
    cases hclose
  rcases closeHandle_cases hs hc with ⟨heq, -⟩ | ⟨i, e, heq, -⟩ | ⟨t, t', k, e, hlocal, ht, hk, hlt, hent, -, -, ht', heq⟩
  · cases hclose.symm.trans heq
  · cases hclose.symm.trans heq
  rw [hclose] at heq
  cases hrel : (s.set (.proc p) t').release e.obj with
  | error f =>
    rw [hrel] at heq
    cases heq
  | ok u =>
    rw [hrel] at heq
    cases heq
    obtain ⟨t'', ht'', hok, hentries⟩ := clearEntry_eq (hs _ _ ht) hlt
    cases ht'.symm.trans ht''
    have hset := release_table hrel
    have hself : s'.table (.proc p) = some t' := by rw [hset, table_set, if_pos rfl]
    refine ⟨hlocal, ⟨t, t', k, ht, hself, hk, hlt, by simp [hent], hentries, hok⟩, fun r hr => ?_⟩
    rw [hset, table_set, if_neg hr]

end Entries

section Duplicate

variable {s : State} {pol : Policy} {src : ℕ} {srcHandle : Handle} {access : Rights} {inherit : Bool}
  {o : Options}

def State.Room (pol : Policy) (s : State) (r : Ref) : Prop :=
  match s.table r with
  | none => r = .glob ∧ pol.alloc 2 = true
  | some t => t.HasRoom (pol.alloc 0)

/-- A global duplicate does not need the process it is for. -/
def AvoidsTarget (pol : Policy) (s : State) (src : ℕ) (srcHandle : Handle) (access : Rights) (o : Options) :
    Prop :=
  ∀ entry obj, getHandle s (some src) srcHandle = .ok entry → sourceObj pol entry srcHandle = some obj →
    if asksMore pol entry obj access o then checkCurrent pol obj (askedAccess pol entry obj access o) = none
    else o.sameAttributes = true → ¬ s.Room pol .glob

def duplicated (pol : Policy) (s : State) (src : ℕ) (dst : Option ℕ) (srcHandle : Handle)
    (access : Rights) (inherit : Bool) (o : Options) : Except Fault (State × Handle) :=
  if o.makeGlobal ∨ (if o.makeGlobal then none else dst).isSome then
    duplicateHandle pol s src srcHandle (if o.makeGlobal then none else dst) access inherit o
  else .ok (s, 0)

/-- A global source that would be closed is duplicated in place instead. -/
def DupOk (pol : Policy) (s : State) (src : ℕ) (dst : Option ℕ) (srcHandle : Handle) (access : Rights)
    (o : Options) : Prop :=
  (o.makeGlobal = true → AvoidsTarget pol s src srcHandle access o) ∧
    (o.closeSource = true → ClearsGlobal pol s src srcHandle → o.makeGlobal = false ∧ dst = some src ∧
      ∀ entry, getHandle s (some src) srcHandle = .ok (some entry) →
        asksMore pol (some entry) entry.2.obj access o = false)

theorem dupHandle_eq {dst : Option ℕ} :
    dupHandle pol s (some src) dst srcHandle access inherit o =
      (duplicated pol s src dst srcHandle access inherit o).bind fun r =>
        if o.closeSource ∧ ((if o.makeGlobal then none else dst) ≠ some src ∨ srcHandle ≠ r.2) then
          (closeHandle pol r.1 src srcHandle).map fun r' => (r'.1, r.2)
        else .ok r := rfl

end Duplicate

section Inherit

variable {s : State} {parent : ℕ} {h : Handle} {table : Table}

def InheritsGlobal (s : State) (parent : ℕ) (h : Handle) : Prop :=
  handleIsGlobal h = true ∧ ∃ i e, getHandle s (some parent) h = .ok (some (i, e)) ∧ isInheritable e = true

structure Growing (t table : Table) : Prop where
  count : t.count ≤ table.count
  max : table.count ≤ maxHandleEntries
  min : minHandleEntries ≤ table.count
  used : table.used ≤ table.count
  free : table.free = 0
  rest : ∀ i, table.used ≤ i → table.entries i = none

variable {t : Table}

theorem growing_alloc (ht : t.Ok) : Growing t (allocHandleTable t.count) := by
  have hok := allocHandleTable_ok ht.max
  refine ⟨?_, hok.max, hok.min, hok.used_le, rfl, fun _ _ => rfl⟩
  simp only [allocHandleTable]
  split
  · omega
  · exact le_refl _

theorem inheritHandle_global (hg : Growing t table)
    (hi : InheritsGlobal s parent h) : inheritHandle s parent h table = .error .outOfBounds := by
  obtain ⟨hglobal, i, e, he, hinh⟩ := hi
  have hidx := handleToIndex_global hglobal
  have hmax := hg.max
  rw [inheritHandle, he]
  simp only [Except.bind, hinh, Bool.not_true, Bool.false_eq_true, if_false]
  rw [Table.read, if_neg (by omega)]

variable {s' : State} {table' : Table}

theorem getHandle_congr (h : s'.table = s.table) : getHandle s' = getHandle s := by
  funext p handle
  cases p with
  | none => rfl
  | some p => rw [getHandle, getHandle, h]

theorem InheritsGlobal.congr (ht : s'.table = s.table) (hi : InheritsGlobal s' parent h) :
    InheritsGlobal s parent h := by
  rwa [InheritsGlobal, getHandle_congr ht] at hi

/-- The new table has, where the handle is, the entry that the parent has there and that is inheritable,
the object being grabbed if the entry is new. -/
inductive Inherited (s : State) (t table : Table) (h : Handle) : State → Table → Prop
  | same (hsame : ∀ k e, handleToIndex h = (k : ℕ) → k < t.used → t.entries k = some e →
      isInheritable e = true → table.entries k ≠ none) : Inherited s t table h s table
  | grabbed (k : ℕ) (e : Entry) (hk : handleToIndex h = k) (hlt : k < t.used) (he : t.entries k = some e)
      (hinh : isInheritable e = true) (hnone : table.entries k = none) :
      Inherited s t table h (s.grab e.obj)
        { table with entries := update table.entries k (some e), used := max table.used (k + 1) }

theorem Inherited.table_eq (hi : Inherited s t table h s' table') : s'.table = s.table := by
  cases hi with
  | same => rfl
  | grabbed => exact table_grab _ _

theorem Inherited.growing (hi : Inherited s t table h s' table')
    (ht : t.used ≤ t.count) (hg : Growing t table) : Growing t table' := by
  cases hi with
  | same => exact hg
  | grabbed k e hk hlt he hinh hnone =>
    have hcount := hg.count
    have hused := hg.used
    refine { hg with used := ?_, rest := fun i hi => ?_ }
    · dsimp only
      omega
    · dsimp only at hi ⊢
      rw [update_of_ne (by omega)]
      exact hg.rest i (by omega)

theorem inheritHandle_eq (hs : s.Ok) (ht : s.procs parent = some t) (hg : Growing t table)
    (hi : ¬ InheritsGlobal s parent h) :
    ∃ s' table', inheritHandle s parent h table = .ok (s', table') ∧ Inherited s t table h s' table' := by
  have hused := (hs (.proc parent) t ht).used_le
  have hmax := (hs (.proc parent) t ht).max
  have hcount := hg.count
  obtain ⟨o, ho, hspec⟩ := getHandle_eq hs
  -- a global handle that is not inherited decodes to no index of the parent's table
  have hlocal : ∀ k e, handleToIndex h = (k : ℕ) → k < t.used → t.entries k = some e →
      o = some ((k : ℤ), e) := by
    intro k e hk hlt he
    have hnot : handleIsGlobal h = false := by
      by_contra hglob
      have := handleToIndex_global (by simpa using hglob)
      omega
    have hdecode : decode h = (k : ℕ) := by rw [decode, hnot, ← hk]; rfl
    have href : s.table (refOf parent h) = some t := by rw [refOf, hnot]; exact ht
    rw [getHandle, href] at ho
    dsimp only at ho
    rw [hdecode, if_neg (by omega), read_lt (by omega), he] at ho
    exact (ok.inj ho).symm
  rw [inheritHandle, ho]
  simp only [Except.bind]
  rcases o with _ | ⟨i, e⟩
  · exact ⟨s, table, rfl, .same fun k e hk hlt he _ => absurd (hlocal k e hk hlt he) (by simp)⟩
  dsimp only
  cases hinh : isInheritable e with
  | false =>
    refine ⟨s, table, rfl, .same fun k e' hk hlt he hinh' => ?_⟩
    have heq := hlocal k e' hk hlt he
    simp only [Option.some.injEq, Prod.mk.injEq] at heq
    rw [heq.2, hinh'] at hinh
    cases hinh
  | true =>
    obtain ⟨-, t', k, ht', hk, hlt, hent⟩ := hspec i e rfl
    have hlocal' : handleIsGlobal h = false := by
      by_contra hglob
      exact hi ⟨by simpa using hglob, i, e, ho, hinh⟩
    have hdecode : handleToIndex h = (k : ℕ) := by
      rw [← hk, decode, hlocal']
      rfl
    have htt : t' = t := by
      rw [refOf, hlocal'] at ht'
      exact Option.some.inj (ht'.symm.trans ht)
    subst htt
    simp only [Bool.not_true, Bool.false_eq_true, if_false, hdecode]
    rw [read_lt (by omega), write_lt (by omega)]
    cases hnone : table.entries k with
    | some d =>
      refine ⟨s, table, rfl, .same fun j e' hj hjlt he hinh' => ?_⟩
      obtain rfl : j = k := by omega
      simp [hnone]
    | none => exact ⟨_, _, rfl, .grabbed k e hdecode hlt hent hinh hnone⟩

theorem inheritHandles_faults (hs : s.Ok) (ht : s.procs parent = some t) {hl : List Handle}
    (hg : Growing t table) (hi : ∃ h ∈ hl, InheritsGlobal s parent h) :
    inheritHandles parent hl s table = .error .outOfBounds := by
  induction hl generalizing s table with
  | nil => simp at hi
  | cons h hl ih =>
    rw [inheritHandles]
    by_cases hh : InheritsGlobal s parent h
    · rw [inheritHandle_global hg hh]
      rfl
    obtain ⟨s', table', heq, hstep⟩ := inheritHandle_eq hs ht hg hh
    have hsame := hstep.table_eq
    have ht' : s'.procs parent = some t := (congrFun hsame (.proc parent)).trans ht
    have hrest : ∃ h ∈ hl, InheritsGlobal s' parent h := by
      obtain ⟨h', hh', hig⟩ := hi
      rcases List.mem_cons.mp hh' with rfl | hh'
      · exact absurd hig hh
      · exact ⟨h', hh', hig.congr hsame.symm⟩
    rw [heq]
    exact ih (hs.of_table hsame) ht' (hstep.growing (hs (.proc parent) t ht).used_le hg) hrest

def keptEntries (i n : ℕ) (f : ℕ → Option Entry) : ℕ → Option Entry := fun j =>
  if i ≤ j ∧ j < i + n then (f j).filter isInheritable else f j

theorem keptEntries_succ (i n : ℕ) (f : ℕ → Option Entry) :
    keptEntries i (n + 1) f = keptEntries (i + 1) n (update f i ((f i).filter isInheritable)) := by
  funext j
  have hsplit : (i ≤ j ∧ j < i + (n + 1)) ↔ j = i ∨ (i + 1 ≤ j ∧ j < i + 1 + n) := by omega
  rw [keptEntries, keptEntries]
  by_cases hj : j = i
  · subst hj
    rw [if_pos (by omega), if_neg (by omega), update_self]
  · rw [update_of_ne hj]
    simp only [hsplit, hj, false_or]

theorem inheritEntries_eq (s : State) (table : Table) {i n : ℕ} (h : i + n ≤ table.count) :
    ∃ s', inheritEntries i n s table = .ok (s', { table with entries := keptEntries i n table.entries }) ∧
      s'.table = s.table := by
  induction n generalizing i s table with
  | zero =>
    have hnone : keptEntries i 0 table.entries = table.entries := by
      funext j
      rw [keptEntries, if_neg (by omega)]
    exact ⟨s, by rw [hnone, inheritEntries], rfl⟩
  | succ n ih =>
    have hstay (hsame : (table.entries i).filter isInheritable = table.entries i) :
        keptEntries i (n + 1) table.entries = keptEntries (i + 1) n table.entries := by
      rw [keptEntries_succ, hsame, update_eq_self]
    rw [inheritEntries, read_lt (by omega)]
    simp only [Except.bind]
    cases he : table.entries i with
    | none =>
      rw [hstay (by rw [he]; rfl)]
      exact ih s table (by omega)
    | some e =>
      dsimp only
      cases hinh : isInheritable e with
      | true =>
        obtain ⟨s', heq, hsame⟩ := ih (s.grab e.obj) table (i := i + 1) (by omega)
        rw [hstay (by simp [he, hinh])]
        exact ⟨s', heq, hsame.trans (table_grab _ _)⟩
      | false =>
        rw [write_lt (by omega), keptEntries_succ, he]
        simp only [Option.filter_some, hinh, Bool.false_eq_true, if_false]
        exact ih s { table with entries := update table.entries i none } (by dsimp only; omega)

theorem newHandleTable_faults {pol : Policy} (hs : s.Ok) {handles std : List Handle}
    (hp : (s.procs parent).isSome) (hi : ∃ h ∈ handles ++ std, InheritsGlobal s parent h) :
    newHandleTable pol s parent (.list handles) std = .error .outOfBounds := by
  obtain ⟨t, ht⟩ := Option.isSome_iff_exists.mp hp
  rw [newHandleTable, ht]
  dsimp only
  rw [inheritHandles_faults hs ht (growing_alloc (hs (.proc parent) t ht)) hi]
  rfl

end Inherit

def ReqOk (pol : Policy) (s : State) : Req → Prop
  | .dup src dst srcHandle access _ o => ∀ p, src = some p → DupOk pol s p dst srcHandle access o
  | .close p h => ¬ ClearsGlobal pol s p h
  | .start parent child inherit std =>
    s.procs child = none → pol.alloc 3 = true → ∀ handles, inherit = .list handles →
      (s.procs parent).isSome → ∀ h ∈ handles ++ std, ¬ InheritsGlobal s parent h
  | _ => True

end WinePpc64.Handles
