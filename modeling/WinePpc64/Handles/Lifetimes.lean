import WinePpc64.Handles.Refinement

namespace WinePpc64.Handles

open Function Lib State Table

variable {r : Ref} {s : State}

section Updates

variable {t t' : Table} {i : ℕ}

theorem lookup_grow (h : i < t.count) :
    Table.lookup { t with used := i + 1 } = update (Table.lookup { t with used := i }) i (t.entries i) := by
  funext j
  by_cases hj : j = i
  · subst hj
    rw [update_self, lookup, if_pos (by dsimp only; omega)]
  · have hiff : j < i + 1 ↔ j < i := by omega
    rw [update_of_ne hj, lookup, lookup]
    simp only [hiff]

theorem lookup_write_end {e : Option Entry} :
    Table.lookup { t with used := i, entries := update t.entries i e } = Table.lookup { t with used := i } := by
  funext j
  rw [lookup, lookup]
  dsimp only
  by_cases hj : j < i
  · rw [update_of_ne (by omega)]
  · rw [if_neg (by omega), if_neg (by omega)]

theorem State.set_set : (s.set r t).set r t' = s.set r t' := by
  cases r with
  | glob => rfl
  | proc p => simp [set]

theorem State.set_grab {obj : ℕ} : (s.grab obj).set r t = (s.set r t).grab obj := by
  cases r <;> rfl

variable {t' t : Table} {s : State} {e : Entry}

theorem State.slots_set_set {e : Option Entry} (hlook : t'.lookup = update t.lookup i e) :
    (s.set r t').slots = update (s.set r t).slots (r, i) e := by
  rw [← set_set]
  exact slots_set_update slots_set_same hlook

variable (h : (s.set r t).Counted)
include h

theorem State.Counted.grab_set
    (hnone : t.lookup i = none) (hlook : t'.lookup = update t.lookup i (some e)) :
    ((s.grab e.obj).set r t').Counted := by
  rw [set_grab]
  apply h.grab (by rw [slots_set_same, hnone]) (slots_set_set hlook)
  rw [handleCount_set, handleCount_set]

theorem State.Counted.release_set
    (hsome : t.lookup i = some e) (hlook : t'.lookup = update t.lookup i none) :
    ∃ s', s.release e.obj = .ok s' ∧ s'.table = s.table ∧ (s'.set r t').Counted := by
  have hslot : (s.set r t).slots (r, i) = some e := by rw [slots_set_same, hsome]
  rw [State.Counted, handleCount_set] at h
  refine ⟨_, by rw [State.release, if_neg (h.pos hslot)], ?_, ?_⟩
  · funext q
    cases q <;> rfl
  have hrem := h.remove hslot
  rw [← slots_set_set hlook] at hrem
  refine Eq.mp ?_ hrem
  cases r <;> rfl

theorem State.Counted.congr_set (hlook : t'.lookup = t.lookup) : (s.set r t').Counted := by
  have hslots : (s.set r t').slots = (s.set r t).slots := by
    rw [← set_set]
    apply slots_set_eq
    intro j
    rw [slots_set_same, hlook]
  rw [State.Counted, hslots, handleCount_set]
  rw [State.Counted, handleCount_set] at h
  exact h

end Updates

section Inherit

variable {s s' : State} {parent child i n : ℕ} {h : Handle} {t table table' : Table}

theorem Growing.lookup_eq (hg : Growing t table) : table.lookup = table.entries :=
  lookup_eq_entries hg.used hg.rest

theorem Inherited.counted (hi : Inherited s t table h s' table') (ht : t.used ≤ t.count) (hg : Growing t table)
    (hc : (s.set r table).Counted) : (s'.set r table').Counted := by
  have hg' := hi.growing ht hg
  cases hi with
  | same => exact hc
  | grabbed k e hk hlt he hinh hnone =>
    apply hc.grab_set
    · rw [hg.lookup_eq, hnone]
    · rw [hg'.lookup_eq, hg.lookup_eq]

theorem Inherited.lookup_iff (hi : Inherited s t table h s' table') (ht : t.used ≤ t.count) (hg : Growing t table)
    (hsub : ∀ i e, table.lookup i = some e → t.lookup i = some e) (i : ℕ) (e : Entry) :
    table'.lookup i = some e ↔ table.lookup i = some e ∨
      (handleToIndex h = i ∧ t.lookup i = some e ∧ isInheritable e = true) := by
  have hg' := hi.growing ht hg
  cases hi with
  | same hsame =>
    refine ⟨.inl, ?_⟩
    rintro (hin | ⟨hidx, hlook, hinh⟩)
    · exact hin
    have hlt : i < t.used := by
      by_contra hge
      rw [lookup_of_le (by omega)] at hlook
      cases hlook
    rw [lookup_of_lt ht hlt] at hlook
    obtain ⟨d, hd⟩ := Option.ne_none_iff_exists'.mp (hsame i e hidx hlt hlook hinh)
    rw [← hg.lookup_eq] at hd
    have heq := hsub i d hd
    rw [lookup_of_lt ht hlt, hlook] at heq
    cases heq
    exact hd
  | grabbed k e' hk hlt he hinh hnone =>
    rw [hg'.lookup_eq, hg.lookup_eq]
    dsimp only
    by_cases hik : i = k
    · subst hik
      rw [update_self, hnone, lookup_of_lt ht hlt, he]
      constructor
      · rintro hsome
        cases hsome
        exact .inr ⟨hk, rfl, hinh⟩
      · rintro (hno | ⟨-, hsome, -⟩)
        · cases hno
        · exact hsome
    · rw [update_of_ne hik]
      refine ⟨.inl, ?_⟩
      rintro (hin | ⟨hidx, -⟩)
      · exact hin
      · omega

theorem inheritHandles_refines {hl : List Handle} (hs : s.Ok) (ht : s.procs parent = some t) (hg : Growing t table)
    (hi : ∀ h ∈ hl, ¬ InheritsGlobal s parent h) (hc : (s.set r table).Counted)
    (hsub : ∀ i e, table.lookup i = some e → t.lookup i = some e) :
    ∃ s' table', inheritHandles parent hl s table = .ok (s', table') ∧ s'.table = s.table ∧ Growing t table' ∧
      (s'.set r table').Counted ∧ ∀ i e, table'.lookup i = some e ↔ table.lookup i = some e ∨
        ((∃ h ∈ hl, handleToIndex h = (i : ℕ)) ∧ t.lookup i = some e ∧ isInheritable e = true) := by
  have hused := (hs (.proc parent) t ht).used_le
  induction hl generalizing s table with
  | nil => exact ⟨s, table, rfl, rfl, hg, hc, fun i e => by simp⟩
  | cons h hl ih =>
    obtain ⟨s₁, table₁, heq, hstep⟩ := inheritHandle_eq hs ht hg (hi h (by simp))
    have hsame := hstep.table_eq
    have hiff := hstep.lookup_iff hused hg hsub
    have hsub₁ : ∀ i e, table₁.lookup i = some e → t.lookup i = some e := by
      intro i e hie
      rcases (hiff i e).mp hie with hin | ⟨-, hin, -⟩
      · exact hsub i e hin
      · exact hin
    obtain ⟨s', table', heq', htable, hg', hc', hiff'⟩ := ih (hs.of_table hsame)
      ((congrFun hsame (.proc parent)).trans ht) (hstep.growing hused hg)
      (fun h' hh' hig => hi h' (by simp [hh']) (hig.congr hsame)) (hstep.counted hused hg hc) hsub₁
    refine ⟨s', table', ?_, htable.trans hsame, hg', hc', fun i e => ?_⟩
    · rw [inheritHandles, heq]
      exact heq'
    · rw [hiff', hiff]
      simp only [List.mem_cons, exists_eq_or_imp]
      tauto

theorem inheritEntries_counted (hn : i + n ≤ table.count)
    (hc : (s.set r { table with used := i }).Counted) {res : State × Table}
    (hres : inheritEntries i n s table = .ok res) :
    (res.1.set r { res.2 with used := i + n }).Counted := by
  induction n generalizing i s table with
  | zero =>
    cases hres
    exact hc
  | succ n ih =>
    have hshift : i + (n + 1) = i + 1 + n := by omega
    have hnone : lookup { table with used := i } i = none := lookup_of_le (le_refl _)
    have hgrow := lookup_grow (t := table) (i := i) (by omega)
    rw [hshift]
    rw [inheritEntries, read_lt (by omega)] at hres
    simp only [Except.bind] at hres
    cases he : table.entries i with
    | none =>
      rw [he] at hres hgrow
      refine ih (by omega) (hc.congr_set ?_) hres
      rw [hgrow, ← hnone, update_eq_self]
    | some e =>
      rw [he] at hres hgrow
      dsimp only at hres
      split at hres
      · exact ih (by omega) (hc.grab_set hnone hgrow) hres
      rw [write_lt (by omega)] at hres
      refine ih (by dsimp only; omega) (hc.congr_set ?_) hres
      have hgrow' := lookup_grow (t := { table with entries := update table.entries i none }) (i := i)
        (by dsimp only; omega)
      rw [hgrow']
      dsimp only
      rw [lookup_write_end, update_self, ← hnone, update_eq_self]

def keptTable (t : Table) : Table :=
  { allocHandleTable t.count with
    used := t.used
    entries := keptEntries 0 t.used fun i => if i < t.used then t.entries i else none }

theorem keptTable_lookup_iff (ht : t.Ok) {e : Entry} :
    (keptTable t).lookup i = some e ↔ t.lookup i = some e ∧ isInheritable e = true := by
  have hused := ht.used_le
  have hcount := (growing_alloc ht).count
  by_cases hlt : i < t.used
  · have hkept : (keptTable t).lookup i = (t.entries i).filter isInheritable := by
      rw [lookup_of_lt (t := keptTable t) (hused.trans hcount) hlt]
      simp only [keptTable, keptEntries]
      rw [if_pos (by omega), if_pos hlt]
    rw [hkept, lookup_of_lt hused hlt, Option.filter_eq_some_iff]
  · have hnone : (keptTable t).lookup i = none := lookup_of_le (Nat.le_of_not_lt hlt)
    rw [hnone, lookup_of_le (by omega)]
    simp

theorem newHandleTable_refines {pol : Policy} (hs : s.Good) (hchild : s.procs child = none)
    {inherit : Inherit} {std : List Handle} (hparent : inherit ≠ .nothing → (s.procs parent).isSome)
    (hi : ∀ handles, inherit = .list handles → (s.procs parent).isSome →
      ∀ h ∈ handles ++ std, ¬ InheritsGlobal s parent h) :
    ∃ s' table, newHandleTable pol s parent inherit std = .ok (s', table) ∧ s'.table = s.table ∧ table.Ok ∧
      (s'.set (.proc child) table).Counted ∧ ∀ i e, table.lookup i = some e ↔
        inherit.Asks std i ∧ s.slots (.proc parent, i) = some e ∧ isInheritable e = true := by
  have hempty (n : ℕ) : (s.set (.proc child) (allocHandleTable n)).Counted := by
    have hslots : (s.set (.proc child) (allocHandleTable n)).slots = s.slots := by
      apply slots_set_eq
      intro j
      have hnone : s.table (.proc child) = none := hchild
      rw [slots, hnone]
      rfl
    rw [State.Counted, hslots]
    exact hs.counted
  cases inherit with
  | nothing =>
    refine ⟨s, _, rfl, rfl, allocHandleTable_ok (Nat.zero_le _), hempty 0, fun i e => ?_⟩
    rw [allocHandleTable_lookup]
    simp [Inherit.Asks]
  | all =>
    obtain ⟨t, ht⟩ := Option.isSome_iff_exists.mp (hparent (by simp))
    have hok := hs.ok (.proc parent) t ht
    have hused := hok.used_le
    have hg := growing_alloc hok
    have hcount := hg.count
    have hslot := slots_table (s := s) (r := .proc parent) ht
    obtain ⟨s', heq, hsame⟩ := inheritEntries_eq s { allocHandleTable t.count with
      used := t.used
      entries := fun i => if i < t.used then t.entries i else none } (i := 0) (n := t.used)
      (by dsimp only; omega)
    have hcounted := inheritEntries_counted (r := .proc child) (by dsimp only; omega)
      ((hempty t.count).congr_set (by rw [allocHandleTable_lookup]; funext j; exact lookup_of_le (Nat.zero_le _)))
      heq
    rw [Nat.zero_add] at hcounted
    obtain ⟨table, htable, hok', hlook⟩ := shrinkHandleTable_fresh (t := keptTable t) hg.min hg.max
      (hused.trans hcount) rfl
    refine ⟨s', table, ?_, hsame, hok', hcounted.congr_set hlook, fun i e => ?_⟩
    · rw [newHandleTable, ht]
      dsimp only
      rw [if_neg (by omega), heq]
      change (shrinkHandleTable (keptTable t) (pol.alloc 1)).map _ = _
      rw [htable]
      rfl
    · rw [hlook, hslot, keptTable_lookup_iff hok]
      simp only [Inherit.Asks, true_and]
  | list handles =>
    obtain ⟨t, ht⟩ := Option.isSome_iff_exists.mp (hparent (by simp))
    have hok := hs.ok (.proc parent) t ht
    have hslot := slots_table (s := s) (r := .proc parent) ht
    obtain ⟨s', grown, heq, hsame, hgrown, hcounted, hiff⟩ := inheritHandles_refines hs.ok ht (growing_alloc hok)
      (hi handles rfl (hparent (by simp))) (hempty t.count)
      (fun i e he => by rw [allocHandleTable_lookup] at he; cases he)
    obtain ⟨table, htable, hok', hlook⟩ := shrinkHandleTable_fresh hgrown.min hgrown.max hgrown.used hgrown.free
    refine ⟨s', table, ?_, hsame, hok', hcounted.congr_set hlook, fun i e => ?_⟩
    · rw [newHandleTable, ht]
      dsimp only
      rw [heq]
      simp only [Except.bind]
      rw [htable]
      rfl
    · rw [hlook, hiff, allocHandleTable_lookup, hslot]
      simp [Inherit.Asks]

end Inherit

section Exit

variable {s : State} {table : Table}

theorem destroyEntries_refines {i n : ℕ} (hn : i + n ≤ table.used) (hused : table.used ≤ table.count)
    (hc : (s.set r table).Counted) :
    ∃ s' table', destroyEntries i n s table = .ok (s', table') ∧ s'.table = s.table ∧ (s'.set r table').Counted ∧
      table'.lookup = fun j => if i ≤ j ∧ j < i + n then none else table.lookup j := by
  induction n generalizing i s table with
  | zero =>
    refine ⟨s, table, rfl, rfl, hc, ?_⟩
    funext j
    rw [if_neg (by omega)]
  | succ n ih =>
    have hsplit : ∀ j, (i ≤ j ∧ j < i + (n + 1)) ↔ j = i ∨ (i + 1 ≤ j ∧ j < i + 1 + n) := by omega
    have hlook := lookup_of_lt hused (show i < table.used by omega)
    rw [destroyEntries, read_lt (by omega)]
    simp only [Except.bind]
    cases he : table.entries i with
    | none =>
      obtain ⟨s', table', heq, hsame, hc', hlook'⟩ := ih (i := i + 1) (by omega) hused hc
      refine ⟨s', table', heq, hsame, hc', ?_⟩
      rw [hlook']
      funext j
      simp only [hsplit]
      by_cases hj : j = i
      · simp [hj, hlook, he]
      · simp [hj]
    | some e =>
      rw [write_lt (by omega)]
      dsimp only
      have hupd := lookup_update hused (show i < table.used by omega) none
      obtain ⟨u, hu, htable, hcu⟩ := hc.release_set (by rw [hlook, he]) hupd
      obtain ⟨s', table', heq, hsame, hc', hlook'⟩ := @ih u
        { table with entries := update table.entries i none } (i + 1) (by dsimp only; omega) hused hcu
      rw [hu]
      refine ⟨s', table', heq, hsame.trans htable, hc', ?_⟩
      rw [hlook', hupd]
      funext j
      simp only [hsplit]
      by_cases hj : j = i
      · simp [hj]
      · simp [hj]

theorem closeProcessHandles_refines (hs : s.Good) {p : ℕ} :
    ∃ s', closeProcessHandles s p = .ok s' ∧ s'.Good ∧
      s'.slots = fun x => if x.1 = .proc p then none else s.slots x := by
  rw [closeProcessHandles]
  cases ht : s.procs p with
  | none =>
    refine ⟨s, rfl, hs, ?_⟩
    funext x
    split
    · rename_i hx
      have hnone : s.table x.1 = none := by rw [hx]; exact ht
      rw [slots, hnone]
      rfl
    · rfl
  | some t =>
    have hback : set { s with procs := update s.procs p none } (.proc p) t = s := by
      simp only [State.set, update_idem]
      rw [← ht, update_eq_self]
    have hused := (hs.ok (.proc p) t ht).used_le
    obtain ⟨s', table', heq, hsame, hc', hlook⟩ := destroyEntries_refines
      (s := { s with procs := update s.procs p none }) (r := .proc p) (i := 0) (n := t.used) (by omega) hused
      (by rw [hback]; exact hs.counted)
    have htable : s'.table (.proc p) = none := by
      rw [hsame]
      exact update_self _ _ _
    have hempty : (s'.set (.proc p) table').slots = s'.slots := by
      apply slots_set_eq
      intro j
      rw [slots, htable, hlook]
      dsimp only
      split
      · rfl
      · rw [lookup_of_le (by omega)]
        rfl
    have hother : ∀ q, q ≠ .proc p → s'.table q = s.table q := by
      intro q hq
      rw [hsame]
      cases q with
      | glob => rfl
      | proc q =>
        have hqp : q ≠ p := fun hqp => hq (by rw [hqp])
        exact update_of_ne hqp _ _
    dsimp only
    rw [heq]
    refine ⟨s', rfl, ⟨fun q t' ht' => ?_, ?_⟩, ?_⟩
    · have hq : q ≠ .proc p := by
        rintro rfl
        cases htable.symm.trans ht'
      rw [hother q hq] at ht'
      exact hs.ok q t' ht'
    · rwa [State.Counted, hempty] at hc'
    funext x
    split
    · rename_i hx
      rw [slots, hx, htable]
      rfl
    · rename_i hx
      rw [slots, slots, hother x.1 hx]

end Exit

end WinePpc64.Handles
