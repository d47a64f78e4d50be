import WinePpc64.Handles.Conditions
import WinePpc64.Lib.Tally

namespace WinePpc64.Handles

open Function Lib State Table Tallied

abbrev Slots := Ref × ℕ → Option Entry

def State.slots (s : State) : Slots := fun x => (s.table x.1).bind fun t => t.lookup x.2

variable {e : Entry}

section Lookup

variable {t t' : Table} {i n : ℕ}

theorem Table.lookup_eq_entries (h : t.used ≤ t.count) (hrest : ∀ j, t.used ≤ j → t.entries j = none) :
    t.lookup = t.entries := by
  funext j
  by_cases hj : j < t.used
  · exact lookup_of_lt h hj
  · rw [lookup_of_le (by omega), hrest j (by omega)]

theorem Table.FirstFree.isLeast (h : t.FirstFree i) (ht : t.used ≤ t.count) :
    IsLeast {j | t.lookup j = none} i := by
  constructor
  · change t.lookup i = none
    by_cases hi : i < t.used
    · rw [lookup_of_lt ht hi, h.free hi]
    · exact lookup_of_le (by omega)
  · intro j hj
    by_contra hlt
    have hle := h.le
    rw [Set.mem_ofPred_eq, lookup_of_lt ht (by omega)] at hj
    exact h.before j (by omega) hj

theorem lookup_alloc (ht : t.used ≤ t.count) (ht' : t'.used ≤ t'.count) (h : t.FirstFree i)
    (hused : t'.used = max t.used (i + 1)) (hentries : t'.entries = update t.entries i (some e)) :
    t'.lookup = update t.lookup i (some e) := by
  funext j
  have hle := h.le
  by_cases hj : j = i
  · subst hj
    rw [lookup_of_lt ht' (by omega), hentries, update_self, update_self]
  rw [update_of_ne hj]
  by_cases hlt : j < t.used
  · rw [lookup_of_lt ht' (by omega), lookup_of_lt ht hlt, hentries, update_of_ne hj]
  · rw [lookup_of_le (by omega), lookup_of_le (by omega)]

theorem lookup_congr (ht : t.used ≤ t.count) (ht' : t'.used ≤ t'.count) (hle : t'.used ≤ t.used)
    (hentries : t'.entries = t.entries) (hrest : ∀ j, t'.used ≤ j → j < t.used → t.entries j = none) :
    t'.lookup = t.lookup := by
  funext j
  by_cases hj : j < t'.used
  · rw [lookup_of_lt ht' hj, lookup_of_lt ht (by omega), hentries]
  rw [lookup_of_le (by omega)]
  by_cases hj' : j < t.used
  · rw [lookup_of_lt ht hj', hrest j (by omega) hj']
  · rw [lookup_of_le (by omega)]

theorem shrinkHandleTable_lookup (h : t.used ≤ t.count) {realloc : Bool} :
    ∃ t', shrinkHandleTable t realloc = .ok t' ∧ t'.lookup = t.lookup ∧ t'.used ≤ t'.count := by
  obtain ⟨j, hj, hle, -, hrest⟩ := trim_eq h
  rw [shrinkHandleTable, hj]
  simp only [Except.map]
  split
  · refine ⟨_, rfl, lookup_congr h ?_ hle rfl hrest, ?_⟩
    · dsimp only
      omega
    · dsimp only
      omega
  · rename_i hc
    push Not at hc
    refine ⟨_, rfl, lookup_congr h ?_ hle rfl hrest, ?_⟩
    · dsimp only
      omega
    · dsimp only
      omega

theorem shrinkHandleTable_fresh (hmin : minHandleEntries ≤ t.count) (hmax : t.count ≤ maxHandleEntries)
    (hused : t.used ≤ t.count) (hfree : t.free = 0) {realloc : Bool} :
    ∃ t', shrinkHandleTable t realloc = .ok t' ∧ t'.Ok ∧ t'.lookup = t.lookup := by
  obtain ⟨t', ht', hok, -⟩ := shrinkHandleTable_eq hmin hmax hused (hfree.trans_le (Nat.zero_le _))
    (fun i hlt => absurd (hfree ▸ hlt) (Nat.not_lt_zero _))
  obtain ⟨t'', ht'', hlook, -⟩ := shrinkHandleTable_lookup hused
  cases ht'.symm.trans ht''
  exact ⟨t', ht', hok, hlook⟩

theorem lookup_update (h : t.used ≤ t.count) (hi : i < t.used) (e : Option Entry) :
    Table.lookup { t with entries := update t.entries i e } = update t.lookup i e := by
  funext j
  by_cases hj : j = i
  · subst hj
    rw [update_self, lookup, if_pos (by dsimp only; omega)]
    exact update_self _ _ _
  · rw [update_of_ne hj, lookup, lookup]
    dsimp only
    rw [update_of_ne hj]

theorem clearEntry_lookup (h : t.Ok) (hi : i < t.used) {realloc : Bool} :
    ∃ t', clearEntry t i realloc = .ok t' ∧ t'.lookup = update t.lookup i none := by
  have hused := h.used_le
  have hset : (t.clear i).lookup = update t.lookup i none := lookup_update hused hi none
  rw [clearEntry_of_lt (by omega)]
  split
  · obtain ⟨t', heq, hlook, -⟩ := shrinkHandleTable_lookup (t := t.clear i) hused
    exact ⟨t', heq, hlook.trans hset⟩
  · exact ⟨_, rfl, hset⟩

theorem allocHandleTable_lookup : (allocHandleTable n).lookup = fun _ => none := by
  funext i
  exact lookup_of_le (Nat.zero_le _)

end Lookup

section States

variable {s s' : State} {r : Ref} {t t' : Table} {i : ℕ} {x : Ref × ℕ}

theorem State.slots_congr (h : s'.table = s.table) : s'.slots = s.slots := by
  funext x
  rw [slots, slots, h]

@[simp] theorem State.slots_grab {obj : ℕ} : (s.grab obj).slots = s.slots :=
  slots_congr (table_grab s obj)

@[simp] theorem State.handleCount_set : (s.set r t).handleCount = s.handleCount := by
  cases r <;> rfl

theorem State.slots_table (ht : s.table r = some t) (i : ℕ) : s.slots (r, i) = t.lookup i := by
  rw [slots, ht]
  rfl

theorem State.slots_set_same (i : ℕ) : (s.set r t).slots (r, i) = t.lookup i :=
  slots_table (by rw [table_set, if_pos rfl]) i

theorem State.slots_set_other (h : x.1 ≠ r) : (s.set r t).slots x = s.slots x := by
  rw [slots, slots, table_set, if_neg h]

theorem State.slots_set_eq (ht : ∀ j, s.slots (r, j) = t.lookup j) : (s.set r t).slots = s.slots := by
  funext x
  by_cases hx : x.1 = r
  · obtain rfl := hx
    rw [slots_set_same, ht]
  · exact slots_set_other hx

theorem State.slots_set_update {e : Option Entry} (ht : ∀ j, s.slots (r, j) = t.lookup j)
    (hlook : t'.lookup = update t.lookup i e) :
    (s.set r t').slots = update s.slots (r, i) e := by
  funext x
  by_cases hx : x.1 = r
  · obtain ⟨r', j⟩ := x
    obtain rfl := hx
    rw [slots_set_same, hlook]
    by_cases hj : j = i
    · rw [hj, update_self, update_self]
    · rw [update_of_ne hj, update_of_ne (by simpa using hj), ht]
  · rw [slots_set_other hx, update_of_ne]
    rintro rfl
    exact hx rfl

def State.Counted (s : State) : Prop := Tallied Entry.obj s.slots s.handleCount

structure State.Good (s : State) : Prop where
  ok : s.Ok
  counted : s.Counted

theorem State.init_good : State.init.Good := by
  refine ⟨init_ok, ?_⟩
  have hnone : init.slots = fun _ => none := by
    funext ⟨r, i⟩
    cases r <;> rfl
  rw [State.Counted, hnone]
  exact tallied_none

theorem State.Counted.grab (h : s.Counted) (hx : s.slots x = none)
    (hs' : s'.slots = update s.slots x (some e)) (hcount : s'.handleCount = s.handleCount) :
    (s'.grab e.obj).Counted := by
  have hins := insert h hx e
  rw [State.Counted, slots_grab, hs']
  rw [← hcount] at hins
  exact hins

theorem State.Counted.release (h : s.Counted) (hx : s.slots x = some e)
    (hs' : s'.slots = update s.slots x none) (hcount : s'.handleCount = s.handleCount) :
    ∃ u, s'.release e.obj = .ok u ∧ u.table = s'.table ∧ u.Counted := by
  have hpos := pos h hx
  have hrem := remove h hx
  rw [← hcount] at hpos hrem
  have htable : ∀ c, table { s' with handleCount := c } = s'.table := by
    intro c
    funext r
    cases r <;> rfl
  refine ⟨_, by rw [State.release, if_neg hpos], htable _, ?_⟩
  rw [State.Counted, slots_congr (htable _), hs']
  exact hrem

end States

end WinePpc64.Handles
