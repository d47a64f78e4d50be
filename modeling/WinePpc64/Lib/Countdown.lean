import Mathlib

namespace WinePpc64.Lib

open List

variable {α : Type} {l : List α} {x : α} {done done' : α → Bool}

def remaining (l : List α) (done : α → Bool) : ℕ := l.countP fun x => !done x

theorem remaining_eq_zero : remaining l done = 0 ↔ ∀ x ∈ l, done x = true := by
  simp [remaining, countP_eq_zero]

theorem remaining_congr (h : ∀ x ∈ l, done' x = done x) : remaining l done' = remaining l done := by
  apply countP_congr
  intro x hx
  rw [h x hx]

theorem remaining_append {l l' : List α} {done : α → Bool} :
    remaining (l ++ l') done = remaining l done + remaining l' done := countP_append

theorem remaining_singleton {done : α → Bool} : remaining [x] done = if done x then 0 else 1 := by
  cases h : done x <;> simp [remaining, h]

theorem remaining_le_length (l : List α) (done : α → Bool) : remaining l done ≤ l.length := countP_le_length

theorem remaining_eq_length (h : ∀ x ∈ l, done x = false) : remaining l done = l.length := by
  rw [remaining, countP_eq_length]
  intro x hx
  rw [h x hx]
  rfl

theorem remaining_mono (h : ∀ x, done x = true → done' x = true) : remaining l done' ≤ remaining l done := by
  apply countP_mono_left
  intro x _ hx
  rw [Bool.not_eq_true'] at hx ⊢
  rw [← Bool.not_eq_true] at hx ⊢
  exact fun hd => hx (h x hd)

theorem remaining_finish (hl : l.Nodup) (hx : x ∈ l) (hbefore : done x = false) (hafter : done' x = true)
    (hother : ∀ y ∈ l, y ≠ x → done' y = done y) : remaining l done = remaining l done' + 1 := by
  obtain ⟨l₁, l₂, rfl⟩ := append_of_mem hx
  have hx₁ : x ∉ l₁ := fun h => (disjoint_of_nodup_append hl) h mem_cons_self
  have hx₂ : x ∉ l₂ := (nodup_cons.mp (List.Nodup.of_append_right hl)).1
  have h₁ : remaining l₁ done' = remaining l₁ done := by
    apply remaining_congr
    intro y hy
    exact hother y (mem_append_left _ hy) fun heq => hx₁ (heq ▸ hy)
  have h₂ : remaining l₂ done' = remaining l₂ done := by
    apply remaining_congr
    intro y hy
    exact hother y (mem_append_right _ (mem_cons_of_mem _ hy)) fun heq => hx₂ (heq ▸ hy)
  have hsplit (d : α → Bool) : remaining (l₁ ++ x :: l₂) d = remaining l₁ d + (remaining [x] d + remaining l₂ d) := by
    rw [← remaining_append, ← remaining_append]
    rfl
  rw [hsplit, hsplit, h₂, remaining_singleton, remaining_singleton, hbefore, hafter]
  simp only [Bool.false_eq_true, if_false, if_true]
  omega

end WinePpc64.Lib
