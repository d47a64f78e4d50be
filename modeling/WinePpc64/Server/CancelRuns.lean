import WinePpc64.Server.CancelLoop

namespace WinePpc64.Server.Process

open Option

variable {p p' : Process}

def Fresh (p : Process) : Process.Event → Prop
  | .cancel r lost _ => r.thread.isSome = true → ∀ i ∈ List.range p.ops.length, FreshAt r lost p i
  | _ => True

def Usual (p : Process) : Process.Event → Prop
  | .create a _ _ _ => Start a
  | .io i e => ∀ o, p.ops[i]? = some o → Orderly o.async e
  | _ => True

theorem cancel_iff (h : Sound p) {r : CancelRequest} {lost : List ℕ} {handed : Bool} :
    (Fresh p (.cancel r lost handed) → Sound (p.cancelProcessAsync r lost handed)) ∧
      (¬Fresh p (.cancel r lost handed) → ¬Good (p.cancelProcessAsync r lost handed)) := by
  unfold cancelProcessAsync
  cases hthread : r.thread with
  | none =>
    refine ⟨fun _ => h.visits, fun hbad => absurd (fun hsome => ?_) hbad⟩
    rw [hthread] at hsome
    cases hsome
  | some t =>
    have hfresh : Fresh p (.cancel r lost handed) ↔ ∀ i ∈ List.range p.ops.length, FreshAt r lost p i := by
      have hsome : r.thread.isSome = true := by
        rw [hthread]
        rfl
      exact ⟨fun hall => hall hsome, fun hall _ => hall⟩
    obtain ⟨hgood, hbad⟩ := Building.visits h.linked List.nodup_range h.building
    rw [hfresh]
    constructor
    · intro hall
      have hbuilt := hgood hall
      obtain ⟨k, hk, -⟩ := hbuilt.own
      dsimp only
      rw [hk]
      exact hbuilt.publish hk
    · intro hnot
      have hbroken := hbad hnot
      dsimp only
      split
      next hnone =>
        intro hg
        rcases hbroken.bad with hf | ⟨k, hk, -⟩
        · cases hg.failed.symm.trans hf
        · cases hnone.symm.trans hk
      next k hk => exact hbroken.publish hk

theorem step_iff (h : Sound p) {e : Process.Event} (husual : Usual p e) (hstep : p.step e = some p') :
    (Fresh p e → Sound p') ∧ (¬Fresh p e → ¬Good p') := by
  have always {e : Process.Event} (hok : Fresh p e) (hs : Sound p') :
      (Fresh p e → Sound p') ∧ (¬Fresh p e → ¬Good p') := ⟨fun _ => hs, absurd hok⟩
  obtain ⟨-, hstep⟩ := ite_none_left_eq_some.mp hstep
  cases e with
  | create a thread obj iosb =>
    cases hstep
    exact always trivial (h.create (Start.inv husual))
  | io i e =>
    simp only [handle] at hstep
    split at hstep
    next => cases hstep
    next o ho =>
      obtain ⟨-, hstep⟩ := ite_none_left_eq_some.mp hstep
      have hasserted : o.async.asserted e = true := by
        obtain ⟨a, ha, -⟩ := map_eq_some_iff.mp hstep
        exact (h.linked.asyncs ho).asserted ha
      rw [hasserted, check_true] at hstep
      exact always trivial (h.io ho (husual o ho) hstep)
  | cancel r lost handed =>
    cases hstep
    exact cancel_iff h
  | closeHandle c =>
    simp only [handle] at hstep
    split at hstep
    next => cases hstep
    next k hk =>
      obtain ⟨-, hsome⟩ := ite_none_right_eq_some.mp hstep
      cases hsome
      exact always trivial (h.closeHandle hk)
  | destroy i =>
    simp only [handle] at hstep
    split at hstep
    next => cases hstep
    next o ho =>
      obtain ⟨-, hstep⟩ := ite_none_left_eq_some.mp hstep
      exact always trivial (h.destroy ho hstep)

theorem sound_init : Sound init where
  linked := by
    refine ⟨?_, ?_, ?_, ?_⟩ <;> intros <;> simp_all [init]
  good := ⟨rfl, fun c k hk => by simp [init] at hk⟩

def Careful (p : Process) (e : Process.Event) : Prop := Usual p e ∧ Fresh p e

theorem reaches_sound (h : Lib.Reaches step Careful init p) : Sound p :=
  h.invariant sound_init fun _ _ _ hok hstep hs => (step_iff hs hok.1 hstep).1 hok.2

/-- In every run of careful steps no assertion fails and every cancel object is accounted for. -/
theorem cancellation_accounted_iff {p' : Process} {e : Process.Event} (hrun : Lib.Reaches step Careful init p)
    (husual : Usual p e) (hstep : p.step e = some p') : Good p ∧ (Good p' ↔ Fresh p e) := by
  have hs := reaches_sound hrun
  obtain ⟨hok, hbad⟩ := step_iff hs husual hstep
  refine ⟨hs.good, fun hgood => ?_, fun h => (hok h).good⟩
  by_contra hnot
  exact hbad hnot hgood

def deviceRead : Event := .create Receive.sent 1 2 3

def cancelThread : Event := .cancel ⟨2, some 1, none⟩ [] true

theorem usual_deviceRead : Usual p deviceRead := Receive.start_sent

theorem cancellation_accounted_iff_device : ∃ p p' : Process, (Lib.Reaches step Careful init p ∧
    p.step cancelThread = some p') ∧ Good p ∧ (Good p' ↔ Fresh p cancelThread) := by
  obtain ⟨p, hp⟩ : ∃ p, init.step deviceRead = some p := ⟨_, rfl⟩
  have hrun : Lib.Reaches step Careful init p := Lib.Reaches.refl.tail ⟨usual_deviceRead, trivial⟩ hp
  obtain ⟨p', hp'⟩ : ∃ p', (init.step deviceRead).bind (step · cancelThread) = some p' := ⟨_, rfl⟩
  rw [hp] at hp'
  exact ⟨p, p', ⟨hrun, hp'⟩, cancellation_accounted_iff hrun trivial hp'⟩

theorem cancelled_twice : (∃ p : Process, Lib.Reaches step Usual init p ∧ p.failed = true) ∧
    ∃ p : Process, Lib.Reaches step Usual init p ∧ ∃ k ∈ p.cancels, p.finished k = true ∧ k.covers ≠ [] ∧
      k.signaled = false ∧ k.released = 0 := by
  constructor
  · have hrun : Lib.Reaches step Usual init _ :=
      (((Lib.Reaches.refl.tail usual_deviceRead rfl).tail (l := cancelThread) trivial rfl).tail
        (l := Event.closeHandle 0) trivial rfl).tail (l := cancelThread) trivial rfl
    exact ⟨_, hrun, by decide⟩
  · have hrun : Lib.Reaches step Usual init _ :=
      (Lib.Reaches.refl.tail (l := Event.create Receive.pending 1 2 3) Receive.start_pending rfl).tail
        (l := Event.cancel ⟨2, some 1, none⟩ [0] true) trivial rfl
    exact ⟨_, hrun, _, List.mem_singleton.mpr rfl, by decide⟩

end WinePpc64.Server.Process
