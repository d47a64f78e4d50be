import Mathlib

/-!
Hash tables with chained buckets that can be rehashed into more buckets. What a table holds is a
list up to permutation; where each element stands is a matter of its bucket.
-/

namespace WinePpc64.Lib

open Function List

structure ChainTable (α : Type) where
  size : ℕ
  chain : ℕ → List α

namespace ChainTable

variable {α : Type}

def elems (t : ChainTable α) : List α := (List.range t.size).flatMap t.chain

def setChain (t : ChainTable α) (b : ℕ) (xs : List α) : ChainTable α :=
  { t with chain := update t.chain b xs }

def empty (size : ℕ) : ChainTable α := ⟨size, fun _ => []⟩

@[simp] theorem setChain_size (t : ChainTable α) (b : ℕ) (xs : List α) :
    (t.setChain b xs).size = t.size := rfl

@[simp] theorem empty_elems {size : ℕ} : (empty size : ChainTable α).elems = [] := by
  simp [elems, empty]

variable {xs : List α} {b : ℕ} {x : α} {t : ChainTable α} {β : Type} {f : α → β}

theorem flatMap_update_perm {f : ℕ → List α} {l : List ℕ}
    (hl : l.Nodup) (hb : b ∈ l) (hxs : xs.Perm (x :: f b)) :
    (l.flatMap (update f b xs)).Perm (x :: l.flatMap f) := by
  induction l with
  | nil => simp at hb
  | cons i l ih =>
    obtain ⟨hi, hl⟩ := nodup_cons.mp hl
    by_cases hbi : b = i
    · subst hbi
      have hrest : l.flatMap (update f b xs) = l.flatMap f :=
        flatMap_congr fun j hj => update_of_ne (ne_of_mem_of_not_mem hj hi) _ _
      rw [flatMap_cons, update_self, hrest]
      exact hxs.append_right _
    · have hbl := (mem_cons.mp hb).resolve_left hbi
      rw [flatMap_cons, update_of_ne (Ne.symm hbi)]
      exact ((ih hl hbl).append_left _).trans perm_middle

theorem elems_setChain_perm (hb : b < t.size)
    (hxs : xs.Perm (x :: t.chain b)) : (t.setChain b xs).elems.Perm (x :: t.elems) :=
  flatMap_update_perm nodup_range (mem_range.mpr hb) hxs

theorem elems_perm_cons_setChain (hb : b < t.size)
    (hxs : (t.chain b).Perm (x :: xs)) : t.elems.Perm (x :: (t.setChain b xs).elems) := by
  have hback : (t.setChain b xs).setChain b (t.chain b) = t := by
    simp [setChain]
  have hchain : (t.chain b).Perm (x :: (t.setChain b xs).chain b) := by
    simpa [setChain] using hxs
  have hperm := elems_setChain_perm (t := t.setChain b xs) hb hchain
  rwa [hback] at hperm

section

variable (bucket : ℕ → α → ℕ)

def Placed (t : ChainTable α) : Prop := ∀ i, ∀ x ∈ t.chain i, bucket t.size x = i

def push (t : ChainTable α) (x : α) : ChainTable α :=
  t.setChain (bucket t.size x) (x :: t.chain (bucket t.size x))

def rehash (t : ChainTable α) (size : ℕ) : ChainTable α := t.elems.foldl (push bucket) (empty size)

variable {bucket} {t : ChainTable α} {x : α}

theorem placed_empty {size : ℕ} : Placed bucket (empty size) := fun _ x hx => by simp [empty] at hx

variable (h : Placed bucket t)
include h

theorem Placed.setChain (hxs : ∀ x ∈ xs, bucket t.size x = b) : Placed bucket (t.setChain b xs) := by
  intro i x hx
  by_cases hi : i = b
  · subst hi
    exact hxs x (by simpa [ChainTable.setChain] using hx)
  · exact h i x (by simpa [ChainTable.setChain, hi] using hx)

theorem Placed.push : Placed bucket (t.push bucket x) := by
  refine h.setChain fun y hy => ?_
  obtain rfl | hy := mem_cons.mp hy
  · rfl
  · exact h _ y hy

theorem Placed.mem_elems (hlt : bucket t.size x < t.size) : x ∈ t.elems ↔ x ∈ t.chain (bucket t.size x) := by
  constructor
  · intro hx
    obtain ⟨i, -, hi⟩ := mem_flatMap.mp hx
    rwa [h i x hi]
  · exact fun hx => mem_flatMap.mpr ⟨_, mem_range.mpr hlt, hx⟩

theorem Placed.find_spec (hb : b < t.size) (key : α → Bool)
    (hkey : ∀ x, key x = true → bucket t.size x = b) :
    (∀ x, (t.chain b).find? key = some x → x ∈ t.elems ∧ key x = true) ∧
      ((t.chain b).find? key = none → ∀ x ∈ t.elems, key x = false) := by
  refine ⟨fun x hx => ⟨?_, find?_some hx⟩, fun hnone x hx => ?_⟩
  · exact mem_flatMap.mpr ⟨b, mem_range.mpr hb, mem_of_find?_eq_some hx⟩
  obtain ⟨i, -, hi⟩ := mem_flatMap.mp hx
  by_contra hk
  have hxb := hkey x (by simpa using hk)
  rw [h i x hi] at hxb
  exact hk (by simpa using find?_eq_none.mp hnone x (hxb ▸ hi))

omit h

theorem elems_push_perm (hlt : bucket t.size x < t.size) : (t.push bucket x).elems.Perm (x :: t.elems) :=
  elems_setChain_perm hlt (.refl _)

theorem nodup_map_push (hlt : bucket t.size x < t.size)
    (h : (t.elems.map f).Nodup) (hx : ∀ y ∈ t.elems, f y ≠ f x) :
    ((t.push bucket x).elems.map f).Nodup := by
  refine ((elems_push_perm hlt).map f).nodup_iff.mpr (nodup_cons.mpr ⟨?_, h⟩)
  simpa using hx

theorem foldl_push_spec (hlt : ∀ x, bucket t.size x < t.size) (h : Placed bucket t) :
    (xs.foldl (push bucket) t).size = t.size ∧ Placed bucket (xs.foldl (push bucket) t) ∧
      (xs.foldl (push bucket) t).elems.Perm (xs ++ t.elems) := by
  induction xs generalizing t with
  | nil => exact ⟨rfl, h, .refl _⟩
  | cons x xs ih =>
    obtain ⟨hsize, hplaced, hperm⟩ := ih (t := t.push bucket x) hlt h.push
    refine ⟨hsize, hplaced, hperm.trans ?_⟩
    exact ((elems_push_perm (hlt x)).append_left xs).trans perm_middle

variable (bucket) in
theorem rehash_spec {size : ℕ} (hlt : ∀ x, bucket size x < size) :
    (t.rehash bucket size).size = size ∧ Placed bucket (t.rehash bucket size) ∧
      (t.rehash bucket size).elems.Perm t.elems := by
  obtain ⟨hsize, hplaced, hperm⟩ := foldl_push_spec hlt
    placed_empty
  rw [empty_elems, append_nil] at hperm
  exact ⟨hsize, hplaced, hperm⟩

end

end ChainTable

end WinePpc64.Lib
