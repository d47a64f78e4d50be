import Mathlib

namespace WinePpc64.Lib

open Function

variable {α β κ : Type}

noncomputable def tally (key : β → κ) (f : α → Option β) (k : κ) : ℕ∞ :=
  {a | (f a).map key = some k}.encard

def Tallied (key : β → κ) (f : α → Option β) (c : κ → ℕ) : Prop := ∀ k, tally key f k = c k

variable {key : β → κ} {f : α → Option β} {a : α} {b b' : β} {k : κ} {c : κ → ℕ}

theorem tallied_none : Tallied key (fun _ : α => none) fun _ => 0 := by
  intro k
  rw [tally, Nat.cast_zero, Set.encard_eq_zero]
  simp

theorem Tallied.pos (h : Tallied key f c) (ha : f a = some b) : c (key b) ≠ 0 := by
  intro h0
  have hzero := h (key b)
  rw [h0, Nat.cast_zero, tally, Set.encard_eq_zero] at hzero
  have hmem : a ∈ {x | (f x).map key = some (key b)} := by simp [ha]
  rw [hzero] at hmem
  exact hmem

section Updates

variable [DecidableEq α]

theorem tally_update_ne (ha : ∀ d ∈ f a, key d ≠ k) {o : Option β} (ho : ∀ d ∈ o, key d ≠ k) :
    tally key (update f a o) k = tally key f k := by
  rw [tally]
  congr 1
  ext x
  by_cases hx : x = a
  · subst hx
    simp only [Set.mem_ofPred_eq, update_self, Option.map_eq_some_iff]
    constructor
    · rintro ⟨d, hd, rfl⟩
      exact absurd rfl (ho d hd)
    · rintro ⟨d, hd, rfl⟩
      exact absurd rfl (ha d hd)
  · simp [hx]

theorem tally_update_some (ha : f a = none) :
    tally key (update f a (some b)) (key b) = tally key f (key b) + 1 := by
  have hmem : {x | (update f a (some b) x).map key = some (key b)} =
      insert a {x | (f x).map key = some (key b)} := by
    ext x
    by_cases hx : x = a
    · simp [hx]
    · simp [hx]
  have hfresh : a ∉ {x | (f x).map key = some (key b)} := by simp [ha]
  rw [tally, hmem, Set.encard_insert_of_notMem hfresh, tally]

theorem Tallied.replace (h : Tallied key f c) (ha : f a = some b) (hkey : key b' = key b) :
    Tallied key (update f a (some b')) c := by
  intro k
  rw [← h k, tally]
  congr 1
  ext x
  by_cases hx : x = a
  · simp [hx, ha, hkey]
  · simp [hx]

variable [DecidableEq κ]

theorem Tallied.insert (h : Tallied key f c) (ha : f a = none) (b : β) :
    Tallied key (update f a (some b)) (update c (key b) (c (key b) + 1)) := by
  intro k
  by_cases hk : k = key b
  · subst hk
    rw [tally_update_some ha, h, update_self, Nat.cast_add, Nat.cast_one]
  · rw [tally_update_ne (by simp [ha]) (by simpa using Ne.symm hk), h, update_of_ne hk]

theorem Tallied.remove (h : Tallied key f c) (ha : f a = some b) :
    Tallied key (update f a none) (update c (key b) (c (key b) - 1)) := by
  intro k
  by_cases hk : k = key b
  · subst hk
    have hback : update (update f a none) a (some b) = f := by
      rw [update_idem, ← ha, update_eq_self]
    have hone : tally key f (key b) = tally key (update f a none) (key b) + 1 := by
      rw [← tally_update_some (update_self a none f), hback]
    have hpos := h.pos ha
    rw [h, show c (key b) = c (key b) - 1 + 1 by omega, Nat.cast_add] at hone
    rw [update_self]
    exact (ENat.add_left_injective_of_ne_top (by simp) hone).symm
  · rw [tally_update_ne (by simpa [ha] using Ne.symm hk) (by simp), h, update_of_ne hk]

end Updates

end WinePpc64.Lib
