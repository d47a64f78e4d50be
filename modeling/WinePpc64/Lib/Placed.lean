import Mathlib

namespace WinePpc64.Lib

variable {X P : Type} {A B : X → P → Prop} {x : X} {p q : P}

def Placed (A : X → P → Prop) : Prop := ∀ x, ∃! p, A x p

variable (h : Placed A)
include h

theorem Placed.unique (hp : A x p) (hq : A x q) : p = q := (h x).unique hp hq

theorem Placed.iff_eq (hp : A x p) (q : P) : A x q ↔ q = p :=
  ⟨fun hq => h.unique hq hp, fun hq => hq ▸ hp⟩

theorem Placed.step (hB : ∀ x, (∀ p, B x p ↔ A x p) ∨ ∃ q, ∀ p, B x p ↔ p = q) : Placed B := by
  intro x
  rcases hB x with hx | ⟨q, hx⟩
  · obtain ⟨p, hp, hu⟩ := h x
    exact ⟨p, (hx p).mpr hp, fun r hr => hu r ((hx r).mp hr)⟩
  · exact ⟨q, (hx q).mpr rfl, fun r hr => (hx r).mp hr⟩

theorem Placed.move (hp : A x p) (hq : B x q) (hleft : ¬ B x p)
    (hother : ∀ r, r ≠ p → r ≠ q → B x r → A x r) (hrest : ∀ y, y ≠ x → ∀ r, B y r ↔ A y r) : Placed B := by
  apply h.step
  intro y
  by_cases hy : y = x
  · subst hy
    refine .inr ⟨q, fun r => ⟨fun hr => ?_, fun hr => hr ▸ hq⟩⟩
    by_contra hrq
    have hrp : r ≠ p := fun e => hleft (e ▸ hr)
    exact hrp (h.unique (hother r hrp hrq hr) hp)
  · exact .inl (hrest y hy)

theorem Placed.between (hrest : ∀ r, r ≠ p → r ≠ q → ∀ x, B x r ↔ A x r)
    (hboth : ∀ x, B x p ∨ B x q ↔ A x p ∨ A x q) (hone : ∀ x, B x p → ¬ B x q) : Placed B := by
  apply h.step
  intro x
  have hother : A x p ∨ A x q → ∀ r, r ≠ p → r ≠ q → ¬ B x r := by
    intro hin r hp hq hr
    rcases hin with hin | hin
    · exact hp (h.unique ((hrest r hp hq x).mp hr) hin)
    · exact hq (h.unique ((hrest r hp hq x).mp hr) hin)
  by_cases hp : B x p
  · refine .inr ⟨p, fun r => ⟨fun hr => ?_, fun hr => hr ▸ hp⟩⟩
    by_contra hne
    refine hother ((hboth x).mp (.inl hp)) r hne ?_ hr
    rintro rfl
    exact hone x hp hr
  · by_cases hq : B x q
    · refine .inr ⟨q, fun r => ⟨fun hr => ?_, fun hr => hr ▸ hq⟩⟩
      by_contra hne
      refine hother ((hboth x).mp (.inr hq)) r ?_ hne hr
      rintro rfl
      exact hp hr
    · have hnone := mt (hboth x).mpr (not_or.mpr ⟨hp, hq⟩)
      refine .inl fun r => ?_
      by_cases hrp : r = p
      · subst hrp
        exact iff_of_false hp (not_or.mp hnone).1
      by_cases hrq : r = q
      · subst hrq
        exact iff_of_false hq (not_or.mp hnone).2
      · exact hrest r hrp hrq x

theorem Placed.congr (hB : ∀ x p, B x p ↔ A x p) : Placed B := h.step fun x => .inl (hB x)

end WinePpc64.Lib
