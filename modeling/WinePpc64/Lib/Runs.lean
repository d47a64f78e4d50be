import Mathlib

namespace WinePpc64.Lib

variable {S L : Type}

inductive Reaches (step : S → L → Option S) (ok : S → L → Prop) (s : S) : S → Prop
  | refl : Reaches step ok s s
  | tail {u t : S} {l : L} : Reaches step ok s u → ok u l → step u l = some t → Reaches step ok s t

abbrev Free : S → L → Prop := fun _ _ => True

def run (step : S → L → Option S) : S → List L → Option S
  | s, [] => some s
  | s, l :: ls => (step s l).bind fun t => run step t ls

def okRun (step : S → L → Option S) (ok : S → L → Bool) : S → List L → Bool
  | _, [] => true
  | s, l :: ls => ok s l && match step s l with
    | none => false
    | some t => okRun step ok t ls

variable {step : S → L → Option S} {ok ok' : S → L → Prop} {s t u : S} {ls : List L}

variable (h : Reaches step ok s t)
include h

theorem Reaches.invariant {P : S → Prop} (h0 : P s)
    (hstep : ∀ u l v, ok u l → step u l = some v → P u → P v) : P t := by
  induction h with
  | refl => exact h0
  | tail _ hok hs ih => exact hstep _ _ _ hok hs ih

theorem Reaches.trans (h' : Reaches step ok t u) : Reaches step ok s u := by
  induction h' with
  | refl => exact h
  | tail _ hok hs ih => exact ih.tail hok hs

theorem Reaches.mono (hok : ∀ u l, ok u l → ok' u l) : Reaches step ok' s t := by
  induction h with
  | refl => exact .refl
  | tail _ ho hs ih => exact ih.tail (hok _ _ ho) hs

omit h

theorem run_concat {ls ls' : List L} :
    run step s (ls ++ ls') = (run step s ls).bind fun t => run step t ls' := by
  induction ls generalizing s with
  | nil => rfl
  | cons l ls ih =>
    cases h : step s l with
    | none => simp [run, h]
    | some t => simp [run, h, ih]

theorem reaches_of_run (h : run step s ls = some t) : Reaches step Free s t := by
  induction ls generalizing s with
  | nil => cases h; exact .refl
  | cons l ls ih =>
    obtain ⟨v, hv, ht⟩ := Option.bind_eq_some_iff.mp h
    exact (Reaches.refl.tail trivial hv).trans (ih ht)

theorem reaches_of_okRun {b : S → L → Bool} (hb : ∀ u l, b u l = true → ok u l)
    (hok : okRun step b s ls = true) (h : run step s ls = some t) : Reaches step ok s t := by
  induction ls generalizing s with
  | nil => cases h; exact .refl
  | cons l ls ih =>
    obtain ⟨v, hv, ht⟩ := Option.bind_eq_some_iff.mp h
    simp only [okRun, hv, Bool.and_eq_true] at hok
    exact (Reaches.refl.tail (hb _ _ hok.1) hv).trans (ih hok.2 ht)

end WinePpc64.Lib
