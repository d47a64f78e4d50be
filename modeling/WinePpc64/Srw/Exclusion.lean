import WinePpc64.Srw.Invariant

namespace WinePpc64.Srw

open Finset Lib State Thread

variable {T : Type}

section Runs

variable [Fintype T]

theorem State.init_inv : (State.init : State T).Inv := by
  have hzero (f : Thread → ℕ) (hf : f ⟨.idle, false, 0⟩ = 0) : total f (init : State T).thread = 0 := by
    exact sum_eq_zero fun _ _ => hf
  have hwaiting : (init : State T).waiting = 0 := hzero _ rfl
  have hexclusives : (init : State T).exclusives = 0 := hzero _ rfl
  have hshareds : (init : State T).shareds = 0 := hzero _ rfl
  refine ⟨?_, ?_, .inl hexclusives, fun _ => ok_of_settled rfl, ?_, ?_⟩
  · rw [hwaiting, hexclusives]
    rfl
  · rw [hexclusives, hshareds]
    rfl
  · rintro - ⟨u, hu⟩
    cases hu
  · rintro ⟨u, hu⟩
    cases hu

variable {s : State T}

theorem State.Inv.exclusive_eq_one (h : s.Inv) {t : T} (ht : (s.thread t).exclusive = true) :
    s.exclusives = 1 ∧ s.shareds = 0 := by
  have hle := exclusives_le s t
  have hone : (s.thread t).exclusives = 1 := by rw [Thread.exclusives, if_pos ht]
  have hexcludes := h.excludes
  omega

theorem exclusives_eq_zero (h : ¬ ∃ t, (s.thread t).exclusive = true) : s.exclusives = 0 := by
  apply sum_eq_zero
  intro t _
  rw [Thread.exclusives, if_neg fun ht => h ⟨t, ht⟩]

def State.Quiescent (s : State T) : Prop := ∀ t, (s.thread t).pc = .idle ∨ ∃ mode, (s.thread t).pc = .asleep mode

theorem State.Inv.awake (h : s.Inv) (hfree : s.word.owners = 0) (hquiet : s.Quiescent) (t : T) (mode : Mode) :
    (s.thread t).pc ≠ .asleep mode := by
  have hnoRouse (v : T) : (s.thread v).pc.rouses = false := by
    rcases hquiet v with hv | ⟨mode, hv⟩
    · rw [hv]
      rfl
    · rw [hv]
      cases mode <;> rfl
  have hexclusive : ∀ u, (s.thread u).pc ≠ .asleep .exclusive := by
    intro u hu
    obtain ⟨v, hv⟩ := h.rousing hfree ⟨u, hu⟩
    rw [hnoRouse v] at hv
    cases hv
  intro ht
  cases mode with
  | exclusive => exact hexclusive t ht
  | shared =>
    rcases h.sharing ⟨t, ht⟩ with hwaiters | ⟨v, hv⟩
    · -- nobody waits exclusively, since who does is asleep
      have hwaiting : s.waiting = 0 := by
        apply sum_eq_zero
        intro u _
        rw [Thread.waiting]
        rcases hquiet u with hu | ⟨mode, hu⟩
        · simp [hu, Pc.registered]
        · cases mode with
          | exclusive => exact absurd hu (hexclusive u)
          | shared => simp [hu, Pc.registered]
      have hzero : s.word.waiters.toNat = 0 := by
        rw [h.waiters, hwaiting, (h.free hfree).1]
      exact hwaiters (BitVec.eq_of_toNat_eq hzero)
    · rcases hquiet v with hidle | ⟨mode, hasleep⟩
      · cases hidle.symm.trans hv
      · cases hasleep.symm.trans hv

variable [DecidableEq T] {s' : State T}

theorem State.Inv.exclusive_unique (h : s.Inv) {t u : T} (ht : (s.thread t).exclusive = true) (hu : u ≠ t) :
    (s.thread u).exclusive = false := by
  by_contra hheld
  have htwo : (s.thread t).exclusives + (s.thread u).exclusives ≤ s.exclusives := by
    have hpair := sum_le_sum_of_subset (f := fun v => (s.thread v).exclusives) (subset_univ {t, u})
    rwa [sum_pair hu.symm] at hpair
  have hone : (s.thread t).exclusives = 1 := by rw [Thread.exclusives, if_pos ht]
  have hone' : (s.thread u).exclusives = 1 := by rw [Thread.exclusives, if_pos (by simpa using hheld)]
  have heq := (h.exclusive_eq_one ht).1
  omega

theorem State.Inv.step {e : Event T} (h : s.Inv) (hstep : Srw.step s e = some s') (hw : s'.Within) : s'.Inv := by
  cases e with
  | call t op =>
    obtain ⟨⟨hidle, hmay⟩, hsome⟩ := Option.ite_none_right_eq_some.mp hstep
    cases hsome
    exact h.move (quiet_call hidle hmay)
  | next t woken =>
    simp only [Srw.step] at hstep
    split at hstep
    next => cases hstep
    next hpc =>
      cases hstep
      exact h.enter hpc hw
    next op hpc =>
      cases hstep
      exact h.move (quiet_loop (w := s.word) (.inl hpc) (h.threads t)).1
    next op old hpc =>
      split at hstep
      next hsame =>
        subst hsame
        cases hstep
        exact h.exchange hpc hw
      next =>
        cases hstep
        exact h.move (quiet_loop (v := s.word) (.inr hpc) (h.threads t)).2
    next mode seen hpc =>
      split at hstep
      next hsame =>
        cases hstep
        exact h.move ((quiet_wait hpc (h.threads t)).1 hsame)
      next =>
        cases hstep
        exact h.move (quiet_wait hpc (h.threads t)).2
    next => cases hstep
    next hpc =>
      split at hstep
      next =>
        split at hstep
        next => cases hstep
        next hnone =>
          cases hstep
          exact h.wakeNone hpc hnone
      next u =>
        obtain ⟨hu, hsome⟩ := Option.ite_none_right_eq_some.mp hstep
        cases hsome
        exact h.wakeOne hpc hu
    next hpc =>
      cases hstep
      exact h.wakeAll hpc

abbrev InLimits (u : State T) (e : Event T) : Prop := ∀ v, Srw.step u e = some v → v.Within

/-- In every interleaving an exclusive owner excludes every other, and nobody sleeps at a free lock. -/
theorem srw_lock_correct (s : State T) (hr : Reaches Srw.step InLimits State.init s) :
    (∀ t, (s.thread t).exclusive = true →
      (∀ u, u ≠ t → (s.thread u).exclusive = false) ∧ ∀ u, (s.thread u).shared = 0) ∧
    s.word.owners.toNat = (if ∃ t, (s.thread t).exclusive = true then 1 else ∑ t, (s.thread t).shared) ∧
    s.word.waiters.toNat / 2 = {t | (s.thread t).pc.registered = true}.ncard ∧
    (s.word.waiters.toNat % 2 = 1 ↔ ∃ t, (s.thread t).exclusive = true) ∧
    ((∀ t, (s.thread t).exclusive = false ∧ (s.thread t).shared = 0) → s.Quiescent →
      ∀ t mode, (s.thread t).pc ≠ .asleep mode) := by
  have h : s.Inv := by
    apply hr.invariant (P := State.Inv) init_inv
    intro u e v hlimits hstep hu
    exact hu.step hstep (hlimits v hstep)
  have hwaiters := h.waiters
  have howners := h.owners
  have hbit : (∃ t, (s.thread t).exclusive = true) → s.exclusives = 1 ∧ s.shareds = 0 :=
    fun ⟨t, ht⟩ => h.exclusive_eq_one ht
  have hbit' : (¬ ∃ t, (s.thread t).exclusive = true) → s.exclusives = 0 := exclusives_eq_zero
  refine ⟨fun t ht => ⟨fun u hu => h.exclusive_unique ht hu, fun u => ?_⟩, ?_, ?_, ?_, fun hfree hquiet => ?_⟩
  · have hle := shared_le s u
    have hnone := (h.exclusive_eq_one ht).2
    omega
  · split
    · rename_i hheld
      have := hbit hheld
      omega
    · rename_i hheld
      rw [howners, hbit' hheld, Nat.zero_add]
      rfl
  · have hcard : {t | (s.thread t).pc.registered = true}.ncard = s.waiting := by
      rw [Set.ncard_eq_toFinset_card', Set.toFinset_ofPred, card_filter]
      rfl
    have hle := h.excludes
    omega
  · constructor
    · intro hodd
      by_contra hheld
      have := hbit' hheld
      omega
    · intro hheld
      have := hbit hheld
      omega
  · have hexclusives : s.exclusives = 0 := by
      apply hbit'
      rintro ⟨t, ht⟩
      rw [(hfree t).1] at ht
      cases ht
    have hshareds : s.shareds = 0 := sum_eq_zero fun t _ => (hfree t).2
    have hzero : s.word.owners = 0 := BitVec.eq_of_toNat_eq (by rw [howners, hexclusives, hshareds]; rfl)
    exact h.awake hzero hquiet

end Runs

namespace Contended

def events : List (Event Bool) :=
  [.call false (.acquire .exclusive), .next false none, .next false none, .next false none,
    .call true (.acquire .exclusive), .next true none, .next true none, .next true none, .next true none]

def final : Option (State Bool) := Lib.run Srw.step State.init events

theorem exclusive_owners_one : final.map (fun s => ((s.thread false).exclusive, decide (s.word.owners = -1),
    s.word.owners.toNat)) = some (true, false, 1) := by
  decide +kernel

theorem srw_lock_correct_contended : ∃ s, final = some s ∧
    {t | (s.thread t).pc.registered = true}.ncard = 1 := by
  have hrun : final.isSome = true := by decide +kernel
  have hok : Lib.okRun Srw.step (fun u e => match Srw.step u e with
      | none => true
      | some v => decide v.Within) init events = true := by decide +kernel
  have hword : final.map (fun s => s.word.waiters.toNat / 2) = some 1 := by decide +kernel
  obtain ⟨s, hs⟩ := Option.isSome_iff_exists.mp hrun
  have hreach : Reaches Srw.step InLimits init s := by
    refine reaches_of_okRun (fun u e hb v hv => ?_) hok hs
    rw [hv] at hb
    exact of_decide_eq_true hb
  refine ⟨s, hs, ?_⟩
  rw [hs] at hword
  rw [← (srw_lock_correct s hreach).2.2.1]
  exact Option.some.inj hword

end Contended

end WinePpc64.Srw
