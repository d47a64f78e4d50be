import Mathlib

/-!
Merging queues by key: at each step the head with the smallest key is put out, or a queue is
closed and contributes nothing more.
-/

namespace WinePpc64.Lib

open Function List

structure Merging (ι α : Type) where
  queues : ι → List α
  out : List (ι × α)

namespace Merging

variable {ι α κ : Type} [DecidableEq ι] [LinearOrder κ] {key : α → κ}
variable {m : Merging ι α} {i j : ι} {x : α} {xs : List α}

def taken (out : List (ι × α)) (i : ι) : List α := (out.filter (·.1 = i)).map (·.2)

@[simp] theorem taken_nil : taken ([] : List (ι × α)) i = [] := rfl

@[simp] theorem taken_append (out out' : List (ι × α)) :
    taken (out ++ out') i = taken out i ++ taken out' i := by
  simp [taken]

theorem taken_singleton_self : taken [(i, x)] i = [x] := by
  simp [taken]

theorem taken_singleton_ne (h : j ≠ i) : taken [(i, x)] j = [] := by
  simp [taken, Ne.symm h]

def emit (m : Merging ι α) (i : ι) (x : α) (xs : List α) : Merging ι α :=
  ⟨update m.queues i xs, m.out ++ [(i, x)]⟩

def close (m : Merging ι α) (i : ι) : Merging ι α := ⟨update m.queues i [], m.out⟩

structure Ordered (key : α → κ) (m : Merging ι α) : Prop where
  queues : ∀ i, (m.queues i).Pairwise (key · ≤ key ·)
  out : m.out.Pairwise (key ·.2 ≤ key ·.2)
  below : ∀ p ∈ m.out, ∀ i, ∀ x ∈ m.queues i, key p.2 ≤ key x

theorem Ordered.emit (h : m.Ordered key) (hi : m.queues i = x :: xs)
    (hmin : ∀ j y ys, m.queues j = y :: ys → key x ≤ key y) : (m.emit i x xs).Ordered key := by
  have hx : ∀ j, ∀ y ∈ m.queues j, key x ≤ key y := by
    intro j y hy
    have hj := h.queues j
    cases hq : m.queues j with
    | nil => simp [hq] at hy
    | cons z zs =>
      rw [hq] at hj hy
      obtain rfl | hy := mem_cons.mp hy
      · exact hmin j y zs hq
      · exact (hmin j z zs hq).trans (rel_of_pairwise_cons hj hy)
  have hsub : ∀ j, ∀ y ∈ update m.queues i xs j, y ∈ m.queues j := by
    intro j y hy
    by_cases hj : j = i
    · subst hj
      rw [update_self] at hy
      exact hi ▸ mem_cons_of_mem _ hy
    · rwa [update_of_ne hj] at hy
  refine ⟨fun j => ?_, ?_, ?_⟩
  · by_cases hj : j = i
    · subst hj
      have hq := h.queues j
      rw [hi] at hq
      simpa [Merging.emit] using hq.of_cons
    · simpa [Merging.emit, update_of_ne hj] using h.queues j
  · refine pairwise_append.mpr ⟨h.out, pairwise_singleton _ _, fun p hp q hq => ?_⟩
    rw [mem_singleton] at hq
    subst hq
    exact h.below p hp i x (hi ▸ mem_cons_self)
  · intro p hp j y hy
    obtain hp | hp := mem_append.mp hp
    · exact h.below p hp j y (hsub j y hy)
    · rw [mem_singleton] at hp
      subst hp
      exact hx j y (hsub j y hy)

theorem Ordered.close (h : m.Ordered key) : (m.close i).Ordered key := by
  have hsub : ∀ j, (update m.queues i [] j).Sublist (m.queues j) := by
    intro j
    by_cases hj : j = i
    · subst hj
      simp
    · rw [update_of_ne hj]
  exact ⟨fun j => (h.queues j).sublist (hsub j), h.out,
    fun p hp j y hy => h.below p hp j y ((hsub j).subset hy)⟩

end Merging

end WinePpc64.Lib
