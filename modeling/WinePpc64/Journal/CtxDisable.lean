import WinePpc64.Journal.CtxExactlyOnce

namespace WinePpc64.Journal.Ctx

open Lib

def Lossless (g : Ring) : Prop :=
  ∃ rest, g.appended = g.replayed ++ rest ∧ Encodes g.data g.done g.pos rest

variable {recorder : ℕ → ℕ}

theorem step_drops {s s' : State} {l : ℕ × Act} (h : Inv recorder s)
    (hs : step recorder s l = some s') (hdrop : ¬ Undropped s l) :
    ∃ r, ¬ Lossless (s'.rings r) := by
  obtain ⟨t, a⟩ := l
  cases a with
  | go =>
    simp only [Undropped] at hdrop
    split at hdrop
    case h_2 => exact absurd trivial hdrop
    case h_1 o r p n hpc =>
      obtain ⟨hbad, -⟩ := Classical.not_imp.mp hdrop
      obtain ⟨-, -, hcons, -, -⟩ := hpc ▸ h.pc t
      have hs' : s' = (s.setRing r { s.rings r with cons := p, done := p }).setPc t
          (.drain o r (.reset n)) := by
        simpa [step, resume, hpc, wcCtxDrain, hbad, eq_comm] using hs
      subst hs'
      refine ⟨r, ?_⟩
      rintro ⟨rest, happ, henc⟩
      simp only [State.setPc_rings, State.setRing_rings, Function.update_self] at happ henc
      obtain ⟨rest', happ', henc'⟩ := (h.ring r).pending
      obtain rfl := List.append_cancel_left (happ.symm.trans happ')
      -- the same records cannot fill the bytes from two different offsets
      have hsum := henc.add_sum
      have hsum' := henc'.add_sum
      omega
  | _ => exact absurd trivial hdrop

theorem reaches_undropped_inv {s₀ s : State} (h₀ : Attached s₀)
    (h : Reaches (step recorder) Undropped s₀ s) : Inv recorder s :=
  h.invariant h₀.inv fun _ _ _ hok hs hinv => (step_kept hinv hok hs).inv

/-- Nothing committed is lost while no drain's bound check fires on unreplayed bytes. -/
theorem wcCtxJournalDisable_loses_nothing {recorder : ℕ → ℕ} {s₀ s : State} (h₀ : Attached s₀)
    (h : Reaches (step recorder) Undropped s₀ s) :
    (∀ r, Lossless (s.rings r)) ∧
    (∀ t o r d s', s.pc t = .drain o r d → step recorder s (t, .go) = some s' →
      s'.pc t = o.after → ∃ n, d.seen = some n ∧ n ≤ (s'.rings r).replayed.length) ∧
    (∀ t o r d, s.pc t = .drain o r d → (∃ t', t' ≠ t ∧ s.owner = some t') ∨
      ∃ s', step recorder s (t, .go) = some s' ∧
        (s'.pc t = o.after ∨ ∃ d', s'.pc t = .drain o r d' ∧ d'.rank < d.rank)) ∧
    ∀ l s', step recorder s l = some s' → (Undropped s l ↔ ∀ r, Lossless (s'.rings r)) := by
  have hinv := reaches_undropped_inv h₀ h
  refine ⟨fun r => (hinv.ring r).pending, ?_, ?_, fun l s' hs => ⟨fun hok r => ?_, fun hall => ?_⟩⟩
  · intro t o r d s' hpc hs hret
    have hs' : wcCtxDrain s t o r d = some s' := by simpa [step, resume, hpc] using hs
    obtain ⟨hrings, hseen, -⟩ := wcCtxDrain_return hinv hpc hs' hret
    rwa [hrings]
  · intro t o r d hpc
    obtain ⟨s', hs⟩ | hheld := wcCtxDrain_enabled hinv hpc
    · refine .inr ⟨s', by simpa [step, resume, hpc] using hs, ?_⟩
      obtain ⟨d', hp, -, hrank⟩ | ⟨hp, -⟩ := (wcCtxDrain_effect hs).2 <;> rw [hp, Function.update_self]
      · exact .inr ⟨d', rfl, hrank⟩
      · exact .inl rfl
    · exact .inl hheld
  · exact ((step_kept hinv hok hs).inv.ring r).pending
  · by_contra hdrop
    obtain ⟨r, hr⟩ := step_drops hinv hs hdrop
    exact hr (hall r)

instance (s : State) (l : ℕ × Act) : Decidable (Undropped s l) := by
  unfold Undropped
  split
  · split <;> infer_instance
  · infer_instance

namespace Detach

open TwoThreads

def large : CtxRec := ⟨512, 1, by decide, by decide⟩

def losing : List (ℕ × Act) :=
  [(0, Act.append 0 large)] ++ goes 0 5 ++ [(0, Act.append 0 large)] ++ goes 0 4 ++
    [(1, Act.disable)] ++ goes 1 32 ++ [(0, Act.drain 0 true)] ++ goes 0 10

theorem wcCtxJournalDisable_drops : ∃ s, run (step fun _ => 0) pool losing = some s ∧
    (s.pc 0 = .idle ∧ s.pc 1 = .idle) ∧ s.journalOff = true ∧
      (s.rings 0).appended = [large, large] ∧ (s.rings 0).replayed = [] ∧
        (s.rings 0).pos = 0 ∧ (s.rings 0).cons = 0 :=
  ⟨_, rfl, ⟨rfl, rfl⟩, rfl, rfl, rfl, rfl, rfl⟩

def keeping : List (ℕ × Act) :=
  [(0, Act.append 0 draw)] ++ goes 0 5 ++ [(1, Act.disable)] ++ goes 1 16

def drained : State := (run (step fun _ => 0) pool keeping).get (by decide +kernel)

theorem drained_reached : Reaches (step fun _ => 0) Undropped pool drained :=
  reaches_of_okRun (fun _ _ h => of_decide_eq_true h)
    (by decide +kernel) (Option.some_get _).symm

theorem wcCtxJournalDisable_loses_nothing_oneRecord :
    ∃ s', step (fun _ => 0) drained (1, .go) = some s' ∧ (s'.rings 0).appended = [draw] ∧
      (s'.rings 0).cap = 0 ∧ 1 ≤ (s'.rings 0).replayed.length := by
  refine ⟨_, rfl, rfl, rfl, ?_⟩
  obtain ⟨n, hn, hle⟩ := (wcCtxJournalDisable_loses_nothing pool_attached drained_reached).2.1 1
    (.disable 0) 0 (.leave 1) _ rfl rfl rfl
  exact Option.some.inj hn ▸ hle

end Detach

end WinePpc64.Journal.Ctx
