import WinePpc64.Cxx.ExceptionObjects

namespace WinePpc64.Cxx.Objects

open List

/-- The thread's whole `exc_state`: its `processing_throw` word beside what the registrations keep. -/
structure CrtThread where
  exc : ExcState := {}
  processingThrow : ℤ := 0

def uncaughtException (t : CrtThread) : Bool := t.processingThrow ≠ 0

/-- Guest code that asks `__uncaught_exception` and throws: `unwound` is what the unwind funclets
of a throw do between the choice of its catch clause and the clause's own funclet, `caught` what
that funclet does with the frame record of its `call_catch_block` at `frame`. -/
inductive Script
  | done
  | ask (rest : Script)
  | throw (record : Record) (frame : ℕ) (unwound caught rest : Script)

def Script.asks : Script → ℕ
  | .done => 0
  | .ask rest => rest.asks + 1
  | .throw _ _ unwound caught rest => unwound.asks + caught.asks + rest.asks

def Script.silent : Script → Bool
  | .done => true
  | .ask rest => rest.silent
  | .throw _ _ unwound caught rest => unwound.asks = 0 && caught.silent && rest.silent

def CrtThread.register (t : CrtThread) (record : Record) (frame : ℕ) : CrtThread :=
  { t with exc := cxxRegisterExceptionObject t.exc (some (record, 0)) frame }

def CrtThread.unregister (t : CrtThread) (frame : ℕ) : CrtThread :=
  { t with exc := cxxUnregisterExceptionObject t.exc frame false }

/-- The answers the code gives. `_CxxThrowException` only raises and the frame handlers only run
the funclets. -/
def Script.exec : Script → CrtThread → CrtThread × List Bool
  | .done, t => (t, [])
  | .ask rest, t =>
    let (t', answers) := rest.exec t
    (t', uncaughtException t :: answers)
  | .throw record frame unwound caught rest, t =>
    let (t₁, inUnwind) := unwound.exec t
    -- `call_catch_block`
    let (t₂, inCatch) := caught.exec (t₁.register record frame)
    let (t₃, after) := rest.exec (t₂.unregister frame)
    (t₃, inUnwind ++ inCatch ++ after)

/-- The answers that follow the throw, `before` being what is answered ahead of it. -/
def Script.followed (before : Bool) : Script → List Bool
  | .done => []
  | .ask rest => before :: rest.followed before
  | .throw _ _ unwound caught rest =>
    unwound.followed true ++ caught.followed before ++ rest.followed before

variable (p : Script) {b : Bool}

theorem exec_answers (t : CrtThread) :
    uncaughtException (p.exec t).1 = uncaughtException t ∧
    (p.exec t).2 = List.replicate p.asks (uncaughtException t) := by
  induction p generalizing t with
  | done => exact ⟨rfl, rfl⟩
  | ask rest ih =>
    obtain ⟨hp, ha⟩ := ih t
    exact ⟨hp, congrArg (uncaughtException t :: ·) ha⟩
  | throw record frame unwound caught rest ihu ihc ihr =>
    -- neither registering nor unregistering touches `processing_throw`
    have hin : ∀ u, uncaughtException (u.register record frame) = uncaughtException u :=
      fun _ => rfl
    have hout : ∀ u, uncaughtException (u.unregister frame) = uncaughtException u :=
      fun _ => rfl
    simp only [Script.exec, ihr, ihc, ihu, hin, hout, replicate_append_replicate, Script.asks,
      and_self]

theorem mem_followed_true (h : b ∈ p.followed true) : b = true := by
  induction p with
  | done => cases h
  | ask rest ih => exact (mem_cons.mp h).elim id ih
  | throw _ _ _ _ _ ihu ihc ihr =>
    rcases mem_append.mp h with h | h
    · exact (mem_append.mp h).elim ihu ihc
    · exact ihr h

theorem length_followed : (p.followed b).length = p.asks := by
  induction p generalizing b with
  | done => rfl
  | ask rest ih => simp [Script.followed, Script.asks, ih]
  | throw _ _ _ _ _ ihu ihc ihr => simp [Script.followed, Script.asks, ihu, ihc, ihr, add_assoc]

theorem mem_followed_false : (∀ b ∈ p.followed false, b = false) ↔ p.silent = true := by
  induction p with
  | done => exact ⟨fun _ => rfl, nofun⟩
  | ask rest ih => simpa [Script.followed, Script.silent] using ih
  | throw _ _ unwound caught rest _ ihc ihr =>
    have hu : (∀ b ∈ unwound.followed true, b = false) ↔ unwound.asks = 0 := by
      rw [← length_followed unwound, length_eq_zero_iff, eq_nil_iff_forall_not_mem]
      refine forall₂_congr fun b hb => ?_
      simp [mem_followed_true _ hb]
    simp only [Script.followed, mem_append, or_imp, forall_and, hu, ihc, ihr, Script.silent,
      Bool.and_eq_true, decide_eq_true_eq]

theorem uncaught_follows_throw_iff (p : Script) (t : CrtThread) :
    (p.exec t).2 = p.followed (uncaughtException t) ↔ t.processingThrow ≠ 0 ∨ p.silent = true := by
  rw [(exec_answers p t).2, eq_comm, eq_replicate_iff]
  simp only [length_followed, true_and]
  by_cases ht : t.processingThrow = 0
  · simp only [uncaughtException, ht, ne_eq, not_true_eq_false, decide_false, false_or]
    exact mem_followed_false p
  · simp only [uncaughtException, ne_eq, ht, not_false_eq_true, decide_true, true_or, iff_true]
    exact fun b hb => mem_followed_true p hb

def unwoundDestructor : Script := .throw thrown.1 1 (.ask .done) .done .done

theorem unwound_destructor_answered_false : (unwoundDestructor.exec {}).2 = [false] ∧
    unwoundDestructor.followed (uncaughtException {}) = [true] :=
  ⟨rfl, rfl⟩

end WinePpc64.Cxx.Objects
