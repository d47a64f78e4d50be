import Mathlib

namespace WinePpc64.Lib

/-- Operations on a state seen through locations: an operation either only writes fixed values to
the set `sets` names, or may read and write anything. `agree C` is equality outside `C`. -/
structure Writes (α σ Loc : Type*) where
  run : α → σ → σ
  sets : α → Option (Set Loc)
  agree : Set Loc → σ → σ → Prop
  agree_refl : ∀ {C s}, agree C s s
  eq_of_agree : ∀ {s t}, agree ∅ s t → s = t
  agree_run : ∀ {a S C s t}, sets a = some S → agree (S ∪ C) s t → agree C (run a s) (run a t)
  agree_skip : ∀ {a S C s t}, sets a = some S → S ⊆ C → agree C s t → agree C (run a s) t

namespace Writes

variable {α σ Loc : Type*} (m : Writes α σ Loc)

def covered (dead : α → Bool) : List α → Set Loc
  | [] => ∅
  | a :: as =>
    match m.sets a with
    | none => ∅
    | some S => if dead a then covered dead as else S ∪ covered dead as

def observe : List α → σ → List (α × σ) × σ
  | [], s => ([], s)
  | a :: as, s =>
    match m.sets a with
    | none => ((a, s) :: (observe as (m.run a s)).1, (observe as (m.run a s)).2)
    | some _ => observe as (m.run a s)

def Skippable (dead : α → Bool) : List α → Prop
  | [] => True
  | a :: as => (dead a = true → ∃ S, m.sets a = some S ∧ S ⊆ m.covered dead as) ∧ Skippable dead as

variable {m}

theorem observe_filter {dead : α → Bool} {as : List α} (h : m.Skippable dead as) {s t : σ}
    (hst : m.agree (m.covered dead as) s t) :
    m.observe (as.filter fun a => !dead a) t = m.observe as s := by
  -- the two runs agree outside what the kept operations are still going to write
  induction as generalizing s t with
  | nil =>
    obtain rfl := m.eq_of_agree hst
    rfl
  | cons a as ih =>
    obtain ⟨ha, has⟩ := h
    rw [covered] at hst
    cases hsets : m.sets a with
    | none =>
      have hkept : dead a = false := by
        by_contra hd
        obtain ⟨S, hS, _⟩ := ha (by simpa using hd)
        simp [hsets] at hS
      rw [hsets] at hst
      obtain rfl := m.eq_of_agree hst
      rw [List.filter_cons_of_pos (by simp [hkept]), observe, observe, ih has m.agree_refl]
    | some S =>
      rw [hsets] at hst
      cases hd : dead a with
      | true =>
        obtain ⟨S', hS', hsub⟩ := ha hd
        obtain rfl : S = S' := by simpa [hsets] using hS'
        rw [List.filter_cons_of_neg (by simp [hd]), observe, hsets]
        exact ih has (m.agree_skip hsets hsub (by simpa [hd] using hst))
      | false =>
        rw [List.filter_cons_of_pos (by simp [hd]), observe, observe, hsets]
        exact ih has (m.agree_run hsets (by simpa [hd] using hst))

end Writes

end WinePpc64.Lib
