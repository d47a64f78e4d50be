import Mathlib

/-!
Records of varying size stored one after the other in a buffer.
-/

namespace WinePpc64.Lib

class Sized (α : Type) where
  size : α → ℕ
  size_pos : ∀ x, 0 < size x

def Encodes {α : Type} [Sized α] (data : ℕ → Option α) : ℕ → ℕ → List α → Prop
  | a, b, [] => a = b
  | a, b, x :: xs => data a = some x ∧ Encodes data (a + Sized.size x) b xs

namespace Encodes

variable {α : Type} [Sized α] {data data' : ℕ → Option α} {a b c : ℕ} {xs ys : List α} {x : α}

variable (h : Encodes data a b xs)
include h

theorem add_sum : a + (xs.map Sized.size).sum = b := by
  induction xs generalizing a with
  | nil => exact h
  | cons x xs ih =>
    have := ih h.2
    simp only [List.map_cons, List.sum_cons]
    omega

theorem le : a ≤ b :=
  h.add_sum ▸ Nat.le_add_right _ _

omit h in
theorem eq_nil (h : Encodes data a a xs) : xs = [] := by
  cases xs with
  | nil => rfl
  | cons x xs =>
    have hle := le h.2
    have := Sized.size_pos x
    omega

theorem eq_cons (hab : a < b) :
    ∃ x ys, xs = x :: ys ∧ data a = some x ∧ Encodes data (a + Sized.size x) b ys := by
  cases xs with
  | nil => exact absurd h hab.ne
  | cons x ys => exact ⟨x, ys, rfl, h.1, h.2⟩

theorem append (h' : Encodes data b c ys) : Encodes data a c (xs ++ ys) := by
  induction xs generalizing a with
  | nil => cases h; exact h'
  | cons x xs ih => exact ⟨h.1, ih h.2⟩

theorem snoc (hx : data b = some x) : Encodes data a (b + Sized.size x) (xs ++ [x]) :=
  h.append ⟨hx, rfl⟩

theorem congr (hd : ∀ i < b, data' i = data i) : Encodes data' a b xs := by
  induction xs generalizing a with
  | nil => exact h
  | cons x xs ih =>
    have hlt : a < b := by
      have := le h.2
      have := Sized.size_pos x
      omega
    exact ⟨(hd a hlt).trans h.1, ih h.2⟩

theorem le_of_append (h' : Encodes data a c (xs ++ ys)) : b ≤ c := by
  have := h.add_sum
  have := h'.add_sum
  simp only [List.map_append, List.sum_append] at *
  omega

end Encodes

end WinePpc64.Lib
