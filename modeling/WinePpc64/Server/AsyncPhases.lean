import WinePpc64.Server.Async

namespace WinePpc64.Server

open List

namespace Async

variable {a b c : Async} {status : Status} {x : Action}

section Acts

theorem mem_notice :
    x ∈ a.notice ↔ (x = .userApc ∧ a.apcRoutine = true) ∨ (x = .packet ∧ a.wantsPacket = true ∧ a.hasPort = true) := by
  unfold notice
  cases hr : a.apcRoutine with
  | true => simp [wantsPacket, hr]
  | false =>
    cases hw : a.wantsPacket <;> cases hp : a.hasPort <;> simp

theorem mem_target :
    x ∈ a.target ↔ (x = .event ∧ a.event = true) ∨
      (x = .fd ∧ a.event = false ∧ a.fd = true ∧ a.isSystem = false) := by
  unfold target
  cases he : a.event <;> cases hf : a.fd <;> cases hs : a.isSystem <;> simp

theorem mem_acts : x ∈ a.acts status ↔ a.reports status = true ∧ (x ∈ a.notice ∨ x ∈ a.target) := by
  unfold acts
  cases a.reports status <;> simp

theorem acts_nodup : (a.acts status).Nodup := by
  have hnotice : a.notice.Nodup := by
    unfold notice
    split_ifs <;> simp
  have htarget : a.target.Nodup := by
    unfold target
    split_ifs <;> simp
  unfold acts
  split
  · refine hnotice.append htarget ?_
    intro x hx hx'
    rcases mem_notice.mp hx with ⟨rfl, -⟩ | ⟨rfl, -⟩ <;> rcases mem_target.mp hx' with ⟨h, -⟩ | ⟨h, -⟩ <;> cases h
  · exact nodup_nil

theorem wait_not_mem_acts : Action.wait ∉ a.acts status := by
  intro hx
  rcases (mem_acts.mp hx).2 with hx | hx
  · rcases mem_notice.mp hx with ⟨h, -⟩ | ⟨h, -⟩ <;> cases h
  · rcases mem_target.mp hx with ⟨h, -⟩ | ⟨h, -⟩ <;> cases h

theorem acts_subset (hroutine : c.apcRoutine = b.apcRoutine) (hcontext : c.apcContext = b.apcContext)
    (hevent : c.event = b.event) (hskip : c.skipCompletion = b.skipCompletion) (hsystem : c.isSystem = b.isSystem)
    (hpending : c.pending = b.pending) (hport : c.hasPort = true → b.hasPort = true) (hfd : c.fd = true → b.fd = true) :
    ∀ x ∈ c.acts status, x ∈ b.acts status := by
  intro x hx
  obtain ⟨hreports, hx⟩ := mem_acts.mp hx
  refine mem_acts.mpr ⟨by rwa [reports, hpending] at hreports, ?_⟩
  rcases hx with hx | hx
  · left
    rw [mem_notice] at hx ⊢
    rw [wantsPacket, hroutine, hcontext, hpending, hskip] at hx
    exact hx.imp id fun h => ⟨h.1, h.2.1, hport h.2.2⟩
  · right
    rw [mem_target, hevent, hsystem] at hx
    rw [mem_target]
    exact hx.imp id fun h => ⟨h.1, h.2.1, hfd h.2.2.1, h.2.2.2⟩

theorem hasPort_act : (b.act status).hasPort = b.hasPort := by
  unfold hasPort act
  split
  · unfold hasPort
    cases b.completion <;> cases b.fd <;> cases b.fdCompletion <;> rfl
  · rfl

theorem acts_leave : ∀ x ∈ (b.act status).leave.acts status, x ∈ b.acts status := by
  have hport : (b.act status).hasPort = b.hasPort := hasPort_act
  apply acts_subset (b := b) (c := (b.act status).leave) rfl rfl rfl rfl rfl rfl
  · intro h
    rw [← hport]
    rcases Bool.or_eq_true_iff.mp h with h | h
    · exact Bool.or_eq_true_iff.mpr (.inl h)
    · obtain ⟨hfd, hc⟩ := Bool.and_eq_true_iff.mp h
      exact Bool.or_eq_true_iff.mpr (.inr (Bool.and_eq_true_iff.mpr ⟨(Bool.and_eq_true_iff.mp hfd).1, hc⟩))
  · exact fun hfd => (Bool.and_eq_true_iff.mp hfd).1

theorem mem_acts_act : x ∈ (b.act status).acts status ↔ x ∈ b.acts status := by
  have hport : (b.act status).hasPort = b.hasPort := hasPort_act
  constructor
  · exact acts_subset (b := b) (c := b.act status) rfl rfl rfl rfl rfl rfl hport.symm.trans id x
  · exact acts_subset (b := b.act status) (c := b) rfl rfl rfl rfl rfl rfl hport.trans id x

/-- What a completion with this outcome owes to the client. -/
def Due (a : Async) (o : Outcome) : Action → Prop
  | .wait => True
  | .userApc => (a.pending = true ∨ ntError o.status = false) ∧ a.apcRoutine = true
  | .packet => (a.pending = true ∨ ntError o.status = false) ∧ a.apcRoutine = false ∧ a.apcContext = true ∧
      (a.pending = true ∨ a.skipCompletion = false) ∧ o.port = true
  | .event => (a.pending = true ∨ ntError o.status = false) ∧ a.event = true
  | .fd => (a.pending = true ∨ ntError o.status = false) ∧ a.event = false ∧ o.fd = true ∧ a.isSystem = false

/-- The actions carried out are those that are due. -/
def Settled (a : Async) : Prop := ∃ o, a.outcome = some o ∧ ∀ x, x ∈ a.log ↔ a.Due o x

theorem due_iff : a.Due ⟨status, a.fd, a.hasPort⟩ x ↔ x = .wait ∨ x ∈ a.acts status := by
  rw [mem_acts, mem_notice, mem_target]
  cases x with
  | wait => simp [Due]
  | userApc | packet | event | fd => simp [Due, reports, wantsPacket, and_assoc]

end Acts

end Async

structure Waiting (a : Async) : Prop where
  terminated : a.terminated = false
  alerted : a.alerted = false
  fd : a.fd = true
  queue : a.queue = true
  apc : a.apc = none
  owed : a.owed = false
  direct : a.directResult = false
  done : a.done = false
  known : a.unknownStatus = true → a.device = true

structure ApcOut (a : Async) : Prop where
  terminated : a.terminated = true
  apc : a.apc.isSome = true
  owed : a.owed = false
  direct : a.directResult = false
  done : a.done = false
  known : a.alerted = true → a.unknownStatus = false
  call : a.alerted = true → a.apc ≠ some statusPending
  place : a.fd = a.queue

structure DirectOut (a : Async) : Prop where
  terminated : a.terminated = true
  alerted : a.alerted = true
  unknown : a.unknownStatus = true
  direct : a.directResult = true
  owed : a.owed = true
  apc : a.apc = none
  signaled : a.signaled = false
  done : a.done = false
  request : a.iosb.isSome = true
  place : a.fd = a.queue

structure Ready (a : Async) : Prop where
  terminated : a.terminated = true
  direct : a.directResult = true
  owed : a.owed = true
  apc : a.apc = none
  unknown : a.unknownStatus = false
  signaled : a.signaled = true
  done : a.done = false
  result : ∃ status, a.iosb = some status ∧ status ≠ statusPending
  place : a.fd = a.queue

structure Done (a : Async) : Prop where
  terminated : a.terminated = true
  done : a.done = true
  apc : a.apc = none
  owed : a.owed = false
  fd : a.fd = false
  queue : a.queue = false
  signaled : a.signaled = true
  unknown : a.unknownStatus = false
  settled : a.Settled
  again : a.directResult = true → ∃ status, a.iosb = some status ∧ (a.alerted = true → status ≠ statusPending) ∧
    ∀ x ∈ a.acts status, x ∈ a.log

inductive Phase (a : Async) : Prop
  | waiting (h : Waiting a)
  | apcOut (h : ApcOut a)
  | directOut (h : DirectOut a)
  | ready (h : Ready a)
  | done (h : Done a)

structure Logged (a : Async) : Prop where
  nodup : a.log.Nodup
  wait : Action.wait ∈ a.log ↔ a.signaled = true
  early : a.done = false → a.outcome = none ∧ ∀ x ∈ a.log, x = .wait

structure Inv (a : Async) : Prop where
  phase : Phase a
  logged : Logged a
  timeout : ∀ status ∈ a.timeout, status ≠ statusAlerted
  device : a.device = true → a.directResult = false

structure Good (a : Async) : Prop where
  once : a.log.Nodup
  completed : a.fd = false → a.apc = none → a.owed = false → a.Settled
  attached : a.terminated = false → a.fd = true

theorem Inv.waiting_of {a : Async} (h : Inv a) (hterminated : a.terminated = false) : Waiting a := by
  cases h.phase with
  | waiting h => exact h
  | apcOut h => cases h.terminated.symm.trans hterminated
  | directOut h => cases h.terminated.symm.trans hterminated
  | ready h => cases h.terminated.symm.trans hterminated
  | done h => cases h.terminated.symm.trans hterminated

theorem Inv.good {a : Async} (h : Inv a) : Good a where
  once := h.logged.nodup
  completed := by
    intro hfd hapc howed
    cases h.phase with
    | waiting h => cases h.fd.symm.trans hfd
    | apcOut h =>
      have hsome := h.apc
      rw [hapc] at hsome
      cases hsome
    | directOut h => cases h.owed.symm.trans howed
    | ready h => cases h.owed.symm.trans howed
    | done h => exact h.settled
  attached hterminated := (h.waiting_of hterminated).fd

namespace Async

variable {a b : Async} {status : Status}

@[simp] theorem learn_known (h : a.unknownStatus = false) : a.learn status = a := by
  unfold learn
  rw [h]
  rfl

theorem learn_eq (h : b.unknownStatus = true) :
    b.learn status = { b with initialStatus := status, unknownStatus := false } := if_pos h

theorem logged_act (h : Logged b) (hdone : b.done = false) : (b.act status).log.Nodup ∧
    (Action.wait ∈ (b.act status).log ↔ b.signaled = true) := by
  constructor
  · refine h.nodup.append acts_nodup fun x hx hx' => ?_
    rw [(h.early hdone).2 x hx] at hx'
    exact wait_not_mem_acts hx'
  · show Action.wait ∈ b.log ++ b.acts status ↔ _
    rw [mem_append, h.wait, or_iff_left wait_not_mem_acts]

theorem outcome_act (h : Logged b) (hdone : b.done = false) :
    (b.act status).outcome = some ⟨status, b.fd, b.hasPort⟩ := by
  show (b.outcome <|> some (⟨status, b.fd, b.hasPort⟩ : Outcome)) = _
  rw [(h.early hdone).1]
  rfl

theorem due_act (h : Logged b) (hdone : b.done = false) {x : Action} :
    b.Due ⟨status, b.fd, b.hasPort⟩ x ↔ x = .wait ∨ x ∈ (b.act status).log := by
  rw [due_iff]
  show _ ↔ _ ∨ x ∈ b.log ++ b.acts status
  rw [mem_append, ← or_assoc, or_iff_left_of_imp ((h.early hdone).2 x)]

theorem satisfied_none (h : a.directResult = false) : a.satisfied = a := by
  unfold satisfied
  rw [h]
  rfl

theorem satisfied_direct (hdirect : a.directResult = true) (hunknown : a.unknownStatus = false)
    (hiosb : a.iosb = some status) (hfinal : ¬(a.alerted = true ∧ status = statusPending)) :
    a.satisfied = { (a.act status).leave with directResult := false } := by
  unfold satisfied
  rw [if_pos hdirect, hiosb, Option.getD_some]
  unfold setResult
  rw [learn_known hunknown]
  rw [if_neg hfinal]
  rfl

theorem signal_act (h : b.directResult = true → b.signaled = false → b.waiters = 0) :
    (b.act status).signal =
      { b.act status with
        signaled := true
        log := if b.signaled then (b.act status).log else (b.act status).log ++ [.wait]
        waiters := if b.signaled then b.waiters else 0 } := by
  unfold signal
  cases hs : b.signaled with
  | true =>
    have hs' : (b.act status).signaled = true := hs
    simp [act, hs]
  | false =>
    have hs' : (b.act status).signaled = false := hs
    rw [hs', if_neg Bool.false_ne_true]
    split
    next hz =>
      have hz : b.waiters = 0 := hz
      simp [act, mark, hz]
    next hz =>
      have hdirect : (b.act status).mark.directResult = false := by
        by_contra hd
        exact hz (h (Bool.not_eq_false _ ▸ hd) hs)
      rw [satisfied_none hdirect]
      rfl

theorem inv_finish (hlog : Logged b) (hdone : b.done = false) (howed : b.owed = false) (hapc : b.apc = none)
    (hunknown : b.unknownStatus = false) (hplace : b.fd = true → b.queue = true)
    (hdevice : b.device = true → b.directResult = false)
    (hrequest : b.directResult = true → b.iosb.isSome = true ∧ status ≠ statusPending)
    (hwaiters : b.directResult = true → b.signaled = false → b.waiters = 0) : Inv (b.act status).signal.leave := by
  obtain ⟨hnodup, hwait⟩ := logged_act hlog hdone
  rw [signal_act hwaiters]
  have hsub : ∀ x ∈ b.acts status, x ∈ if b.signaled = true then (b.act status).log else (b.act status).log ++ [.wait] := by
    intro x hx
    have hx : x ∈ (b.act status).log := mem_append_right _ hx
    split
    · exact hx
    · exact mem_append_left _ hx
  refine ⟨.done ⟨rfl, rfl, hapc, howed, ?_, rfl, rfl, hunknown, ?_, ?_⟩, ⟨?_, ?_, nofun⟩, nofun, hdevice⟩
  · show (b.fd && !b.queue) = false
    cases hfd : b.fd with
    | false => rfl
    | true => rw [hplace hfd]; rfl
  · refine ⟨_, outcome_act hlog hdone, fun x => ?_⟩
    show x ∈ (if b.signaled = true then (b.act status).log else (b.act status).log ++ [.wait]) ↔ b.Due _ x
    rw [due_act hlog hdone]
    split
    next hs => exact (or_iff_right_of_imp fun hx => hx ▸ hwait.mpr hs).symm
    next => rw [mem_append, mem_singleton, or_comm]
  · intro hdirect
    obtain ⟨hiosb, hne⟩ := hrequest hdirect
    obtain ⟨old, hold⟩ := Option.isSome_iff_exists.mp hiosb
    refine ⟨status, ?_, fun _ => hne, fun x hx => hsub x (acts_leave x hx)⟩
    show b.iosb.map _ = some status
    rw [hold]
    rfl
  · split
    next => exact hnodup
    next hs => exact hnodup.append (nodup_singleton _) (disjoint_singleton.mpr fun h => hs (hwait.mp h))
  · refine iff_of_true ?_ rfl
    show Action.wait ∈ if b.signaled = true then (b.act status).log else (b.act status).log ++ [.wait]
    split
    next hs => exact hwait.mpr hs
    next => simp

theorem signal_act_twice (hdirect : b.directResult = true) (hs : b.signaled = false) (hw : b.waiters ≠ 0)
    (hunknown : b.unknownStatus = false) (hrequest : b.iosb.isSome = true) (hne : status ≠ statusPending) :
    (b.act status).signal = { ((b.act status).mark.act status).leave with directResult := false, waiters := 0 } := by
  obtain ⟨old, hold⟩ := Option.isSome_iff_exists.mp hrequest
  have hiosb : (b.act status).mark.iosb = some status := by
    show b.iosb.map _ = _
    rw [hold]
    rfl
  have hs' : (b.act status).signaled = false := hs
  have hw' : (b.act status).waiters ≠ 0 := hw
  unfold signal
  rw [hs', if_neg Bool.false_ne_true, if_neg hw',
    satisfied_direct (a := (b.act status).mark) hdirect hunknown hiosb fun h => hne h.2]

theorem frame (h : Inv a) (n : ℕ) (c : Bool) (t : Option Status) (ht : ∀ s ∈ t, s ≠ statusAlerted) {port : Bool}
    (hport : port = a.fdCompletion ∨ a.fd = true) :
    Inv { a with waiters := n, canceled := c, timeout := t, fdCompletion := port } := by
  refine ⟨?_, { h.logged with }, ht, h.device⟩
  cases h.phase with
  | waiting h => exact .waiting { h with }
  | apcOut h => exact .apcOut { h with }
  | directOut h => exact .directOut { h with }
  | ready h => exact .ready { h with }
  | done h =>
    obtain rfl | hfd := hport
    · exact .done { h with }
    · cases h.fd.symm.trans hfd

theorem alerted_learn : (b.learn status).alerted = b.alerted := by
  unfold learn
  split <;> rfl

theorem asyncSetResult_final (hfinal : ¬(b.alerted = true ∧ status = statusPending)) :
    b.asyncSetResult status = ((b.learn status).act status).signal.leave := by
  unfold asyncSetResult setResult
  rw [if_neg (by rwa [alerted_learn])]

theorem asyncSetResult_restart (halerted : b.alerted = true) :
    b.asyncSetResult statusPending = (b.learn statusPending).restart := by
  unfold asyncSetResult setResult
  rw [if_pos ⟨by rwa [alerted_learn], rfl⟩]

theorem inv_setResult (hlog : Logged b) (hdone : b.done = false) (howed : b.owed = false) (hapc : b.apc = none)
    (hplace : b.fd = true → b.queue = true) (hdirect : b.directResult = false)
    (hfinal : ¬(b.alerted = true ∧ status = statusPending)) : Inv (b.asyncSetResult status) := by
  have hno {p : Prop} (h : b.directResult = true) : p := by
    cases hdirect.symm.trans h
  rw [asyncSetResult_final hfinal]
  cases hu : b.unknownStatus with
  | false =>
    rw [learn_known hu]
    exact inv_finish hlog hdone howed hapc hu hplace (fun _ => hdirect) hno hno
  | true =>
    rw [learn_eq hu]
    exact inv_finish { hlog with } hdone howed hapc rfl hplace (fun _ => hdirect) hno hno

theorem callStatus_alerted (h : status = statusAlerted) : b.callStatus status ≠ statusPending := by
  unfold callStatus
  split
  · decide
  · rw [h]
    decide

theorem alert_alerted (h : b.alerted = false) : (b.alert status).alerted = true ↔ status = statusAlerted := by
  show (b.alerted || decide (status = statusAlerted)) = true ↔ _
  rw [h, Bool.false_or, decide_eq_true_eq]

theorem asyncTerminate_failed (hterminated : b.terminated = false) (hdirect : b.directResult = false) :
    b.asyncTerminate status false = (b.alert status).asyncSetResult (b.callStatus status) := by
  unfold asyncTerminate
  rw [hterminated, hdirect]
  rfl

theorem inv_terminate_failed (hlog : Logged b) (hterminated : b.terminated = false) (halerted : b.alerted = false)
    (hplace : b.fd = true → b.queue = true) (hapc : b.apc = none) (howed : b.owed = false)
    (hdirect : b.directResult = false) (hdone : b.done = false) :
    Inv (b.asyncTerminate status false) ∧ ∃ c, b.asyncTerminate status false = leave c := by
  have hfinal : ¬((b.alert status).alerted = true ∧ b.callStatus status = statusPending) := by
    rintro ⟨halert, hpending⟩
    exact callStatus_alerted ((alert_alerted halerted).mp halert) hpending
  rw [asyncTerminate_failed hterminated hdirect]
  exact ⟨inv_setResult { hlog with } hdone howed hapc hplace hdirect hfinal,
    _, asyncSetResult_final hfinal⟩

theorem asyncTerminate_delivered (hterminated : b.terminated = false) (hdirect : b.directResult = false) :
    b.asyncTerminate status true = (b.alert status).postApc (b.callStatus status) := by
  unfold asyncTerminate
  rw [hterminated, hdirect]
  rfl

theorem asyncTerminate_again (h : b.terminated = true) {delivered : Bool} : b.asyncTerminate status delivered = b :=
  if_pos h

variable (h : Inv a)
include h

theorem inv_terminate (hst : a.unknownStatus = true → a.terminated = false → status ≠ statusAlerted)
    (delivered : Bool) : Inv (a.asyncTerminate status delivered) := by
  by_cases ht : a.terminated = true
  · rw [asyncTerminate_again ht]
    exact h
  have ht : a.terminated = false := Bool.eq_false_iff.mpr ht
  have hw := h.waiting_of ht
  cases delivered with
  | false =>
    exact (inv_terminate_failed h.logged ht hw.alerted (fun _ => hw.queue) hw.apc hw.owed hw.direct hw.done).1
  | true =>
    rw [asyncTerminate_delivered ht hw.direct]
    refine ⟨.apcOut ⟨rfl, rfl, hw.owed, hw.direct, hw.done, ?_, ?_, hw.fd.trans hw.queue.symm⟩,
      { h.logged with }, h.timeout, h.device⟩
    · intro halert
      by_contra hu
      exact hst (Bool.not_eq_false _ ▸ hu) ht ((alert_alerted hw.alerted).mp halert)
    · intro halert hpending
      exact callStatus_alerted ((alert_alerted hw.alerted).mp halert) (Option.some.inj hpending)

theorem inv_freeAsyncQueue (hqueue : a.queue = true) {delivered : Bool} :
    Inv (a.freeAsyncQueue delivered) := by
  have hlog : Logged a.detach := { h.logged with }
  unfold freeAsyncQueue
  by_cases ht : a.terminated = true
  · rw [asyncTerminate_again (b := a.detach) ht]
    refine ⟨?_, { h.logged with }, h.timeout, h.device⟩
    cases h.phase with
    | waiting h => cases h.terminated.symm.trans ht
    | apcOut h => exact .apcOut { h with place := rfl }
    | directOut h =>
      exact .directOut { h with place := rfl }
    | ready h => exact .ready { h with place := rfl }
    | done h => cases h.queue.symm.trans hqueue
  · have ht : a.terminated = false := Bool.eq_false_iff.mpr ht
    have hw := h.waiting_of ht
    cases delivered with
    | false =>
      obtain ⟨hinv, c, hc⟩ := inv_terminate_failed hlog ht hw.alerted nofun hw.apc hw.owed hw.direct hw.done
      rw [hc] at hinv ⊢
      exact hinv
    | true =>
      rw [asyncTerminate_delivered (b := a.detach) ht hw.direct]
      refine ⟨.apcOut ⟨rfl, rfl, hw.owed, hw.direct, hw.done, ?_, ?_, rfl⟩, { hlog with },
        h.timeout, h.device⟩
      · intro halert
        cases (alert_alerted hw.alerted).mp halert
      · intro halert
        cases (alert_alerted hw.alerted).mp halert

theorem inv_asyncRequestComplete (hqueue : a.queue = true)
    (hst : a.unknownStatus = true → a.terminated = false → status ≠ statusAlerted) {out delivered : Bool} :
    Inv (a.asyncRequestComplete status out delivered) := by
  unfold asyncRequestComplete
  split
  next hpending =>
    apply inv_terminate (a := a.fill status out) _ hst
    refine ⟨?_, { h.logged with }, h.timeout, h.device⟩
    cases h.phase with
    | waiting h => exact .waiting { h with }
    | apcOut h => exact .apcOut { h with }
    | directOut h => exact .directOut { h with request := rfl }
    | ready h =>
      obtain ⟨old, hold, hne⟩ := h.result
      exact absurd (Option.some.inj (hold.symm.trans hpending)) hne
    | done h => cases h.queue.symm.trans hqueue
  next => exact h

theorem inv_signal (hdirect : a.directResult = false) (hdone : a.done = false) : Inv a.signal := by
  have hmark (n : ℕ) (hs : ¬a.signaled = true) : Inv { a.mark with waiters := n } := by
    refine ⟨?_, ⟨?_, iff_of_true (by simp [mark]) rfl, ?_⟩, h.timeout, h.device⟩
    · cases h.phase with
      | waiting h => exact .waiting { h with }
      | apcOut h => exact .apcOut { h with }
      | directOut h => cases h.direct.symm.trans hdirect
      | ready h => cases h.direct.symm.trans hdirect
      | done h => cases h.done.symm.trans hdone
    · exact h.logged.nodup.append (nodup_singleton _)
        (disjoint_singleton.mpr fun hw => hs (h.logged.wait.mp hw))
    · refine fun _ => ⟨(h.logged.early hdone).1, fun x hx => ?_⟩
      rcases mem_append.mp hx with hx | hx
      · exact (h.logged.early hdone).2 x hx
      · exact mem_singleton.mp hx
  unfold signal
  split
  next => exact h
  next hs =>
    split
    · exact hmark a.waiters hs
    · rw [satisfied_none (a := a.mark) hdirect]
      exact hmark 0 hs

theorem inv_deviceReply (hqueue : a.queue = true) (hdevice : a.device = true)
    {pending : Bool} {initial : Status} {result : Option (Status × Bool)} {delivered : Bool} :
    Inv (a.deviceReply pending initial result delivered) := by
  have hdirect := h.device hdevice
  have hanswer : Inv (a.answer pending initial) := by
    refine ⟨?_, { h.logged with }, h.timeout, h.device⟩
    cases h.phase with
    | waiting h => exact .waiting { h with known := nofun }
    | apcOut h => exact .apcOut { h with known := fun _ => rfl }
    | directOut h => cases h.direct.symm.trans hdirect
    | ready h => cases h.direct.symm.trans hdirect
    | done h => cases h.queue.symm.trans hqueue
  unfold deviceReply
  split
  · exact inv_asyncRequestComplete hanswer hqueue nofun
  · unfold asyncWakeObj
    split
    · exact hanswer
    · apply inv_signal hanswer hdirect
      cases h.phase with
      | waiting h => exact h.done
      | apcOut h => exact h.done
      | directOut h => exact h.done
      | ready h => exact h.done
      | done h => cases h.queue.symm.trans hqueue

omit h

theorem inv_restart (hlog : Logged b) (htimeout : ∀ s ∈ b.timeout, s ≠ statusAlerted) (hdone : b.done = false)
    (howed : b.owed = false) (hapc : b.apc = none) (hdirect : b.directResult = false) (hplace : b.fd = b.queue)
    (hfd : b.fd = true) : Inv (b.learn status).restart := by
  unfold learn
  split
  next =>
    exact ⟨.waiting ⟨rfl, rfl, hfd, hplace ▸ hfd, hapc, howed, hdirect, hdone, nofun⟩, { hlog with },
      htimeout, fun _ => hdirect⟩
  next hknown =>
    exact ⟨.waiting ⟨rfl, rfl, hfd, hplace ▸ hfd, hapc, howed, hdirect, hdone, fun hu => absurd hu hknown⟩, { hlog with }, htimeout,
      fun _ => hdirect⟩

theorem not_good_restart (hfd : b.fd = false) : ¬Good (b.learn status).restart := by
  intro hgood
  have hnow : (b.learn status).restart.fd = true := hgood.attached rfl
  have hsame : (b.learn status).restart.fd = b.fd := by
    unfold learn
    split <;> rfl
  rw [hsame, hfd] at hnow
  cases hnow

theorem inv_collect (hlog : Logged a) (hdone : a.done = false) (hapc : a.apc = none) (hunknown : a.unknownStatus = false)
    (hsignaled : a.signaled = true) (hplace : a.fd = a.queue) :
    Inv { (a.act status).leave with directResult := false, owed := false } := by
  obtain ⟨hnodup, hwait⟩ := logged_act hlog hdone
  refine ⟨.done ⟨rfl, rfl, hapc, rfl, ?_, rfl, hsignaled, hunknown, ?_, nofun⟩, ⟨hnodup, hwait, nofun⟩, nofun,
    fun _ => rfl⟩
  · show (a.fd && !a.queue) = false
    rw [hplace, Bool.and_not_self]
  · refine ⟨_, outcome_act hlog hdone, fun x => ?_⟩
    show x ∈ (a.act status).log ↔ a.Due _ x
    rw [due_act hlog hdone]
    exact (or_iff_right_of_imp fun hx => hx ▸ hwait.mpr hsignaled).symm

theorem acts_mark : a.mark.acts = a.acts := rfl

theorem log_twice : ((b.act status).mark.act status).log =
    b.log ++ b.acts status ++ [.wait] ++ (b.act status).acts status := by
  have hact (c : Async) : (c.act status).log = c.log ++ c.acts status := rfl
  have hmark (c : Async) : c.mark.log = c.log ++ [.wait] := rfl
  rw [hact, hmark, hact, acts_mark]

theorem inv_left {c : Async} (hterminated : c.terminated = true) (hapc : c.apc = none) (howed : c.owed = false)
    (hplace : c.fd = c.queue) (hsignaled : c.signaled = true) (hunknown : c.unknownStatus = false)
    (htimeout : c.timeout = none) (hnodup : c.log.Nodup) (hwait : Action.wait ∈ c.log) (hsettled : c.Settled) :
    Inv { c.leave with directResult := false, waiters := 0 }.leave := by
  refine ⟨.done ⟨hterminated, rfl, hapc, howed, ?_, rfl, hsignaled, hunknown, hsettled, nofun⟩,
    ⟨hnodup, iff_of_true hwait hsignaled, nofun⟩, ?_, fun _ => rfl⟩
  · show (c.fd && !c.queue && !false) = false
    rw [hplace, Bool.and_not_self]
    rfl
  · show ∀ s ∈ c.timeout, s ≠ statusAlerted
    rw [htimeout]
    nofun

theorem inv_finish_twice (hlog : Logged b) (hdone : b.done = false) (howed : b.owed = false) (hapc : b.apc = none)
    (hunknown : b.unknownStatus = false) (hplace : b.fd = b.queue) (hdirect : b.directResult = true)
    (hs : b.signaled = false) (hw : b.waiters ≠ 0) (hrequest : b.iosb.isSome = true) (hne : status ≠ statusPending)
    (hacts : b.acts status = []) : Inv (b.act status).signal.leave := by
  have hlog' : ((b.act status).mark.act status).log = b.log ++ [.wait] := by
    have hnone : (b.act status).acts status = [] := by
      rw [eq_nil_iff_forall_not_mem]
      intro x hx
      rw [mem_acts_act, hacts] at hx
      cases hx
    rw [log_twice, hacts, hnone, append_nil, append_nil]
  rw [signal_act_twice hdirect hs hw hunknown hrequest hne]
  apply inv_left (c := (b.act status).mark.act status) rfl hapc howed hplace rfl hunknown rfl
  · rw [hlog']
    refine hlog.nodup.append (nodup_singleton _) (disjoint_singleton.mpr fun hwait => ?_)
    rw [hlog.wait.mp hwait] at hs
    cases hs
  · rw [hlog']
    simp
  · refine ⟨⟨status, b.fd, b.hasPort⟩, ?_, fun x => ?_⟩
    · show ((b.act status).outcome <|> some (⟨status, _, _⟩ : Outcome)) = _
      rw [outcome_act hlog hdone]
      rfl
    · rw [hlog', mem_append, mem_singleton]
      show _ ↔ b.Due _ x
      rw [due_iff, hacts, or_iff_left not_mem_nil, or_iff_right_of_imp ((hlog.early hdone).2 x)]

theorem not_good_twice (hunknown : b.unknownStatus = false) (hdirect : b.directResult = true)
    (hs : b.signaled = false) (hw : b.waiters ≠ 0) (hrequest : b.iosb.isSome = true) (hne : status ≠ statusPending)
    (hacts : b.acts status ≠ []) : ¬Good (b.act status).signal.leave := by
  intro hgood
  have hnodup : ((b.act status).mark.act status).log.Nodup := by
    have := hgood.once
    rw [signal_act_twice hdirect hs hw hunknown hrequest hne] at this
    exact this
  obtain ⟨x, hx⟩ := exists_mem_of_ne_nil _ hacts
  have hagain : x ∈ (b.act status).acts status := mem_acts_act.mpr hx
  exact disjoint_of_nodup_append hnodup (mem_append_left _ (mem_append_right _ hx)) hagain

theorem inv_again (hlog : Logged a) (h : Done a) (hacts : a.acts status = []) :
    Inv { (a.act status).leave with directResult := false, owed := false } := by
  have hsame : (a.act status).log = a.log := by
    show a.log ++ a.acts status = a.log
    rw [hacts, append_nil]
  refine ⟨.done ⟨rfl, rfl, h.apc, rfl, ?_, rfl, h.signaled, h.unknown, ?_, nofun⟩, ⟨?_, ?_, nofun⟩, nofun,
    fun _ => rfl⟩
  · show (a.fd && !a.queue) = false
    rw [h.fd]
    rfl
  · obtain ⟨o, ho, hdue⟩ := h.settled
    refine ⟨o, ?_, fun x => ?_⟩
    · show (a.outcome <|> some (⟨status, _, _⟩ : Outcome)) = _
      rw [ho]
      rfl
    · show x ∈ (a.act status).log ↔ a.Due o x
      rw [hsame]
      exact hdue x
  · show (a.act status).log.Nodup
    rw [hsame]
    exact hlog.nodup
  · show Action.wait ∈ (a.act status).log ↔ _
    rw [hsame]
    exact hlog.wait

theorem deliver_iff (hlog : Logged b) (hdone : b.done = false) (howed : b.owed = false) (hapc : b.apc = none)
    (hplace : b.fd = b.queue) (hdirect : b.directResult = true) (hs : b.signaled = false)
    (hrequest : b.iosb.isSome = true) (hdevice : b.device = true → b.directResult = false)
    (hne : status ≠ statusPending) (hunknown : b.unknownStatus = false) :
    (b.waiters = 0 ∨ b.acts status = [] → Inv (b.act status).signal.leave) ∧
      (¬(b.waiters = 0 ∨ b.acts status = []) → ¬Good (b.act status).signal.leave) := by
  constructor
  · intro hok
    by_cases hw : b.waiters = 0
    · exact inv_finish hlog hdone howed hapc hunknown (fun hfd => hplace ▸ hfd) hdevice (fun _ => ⟨hrequest, hne⟩)
        fun _ _ => hw
    · exact inv_finish_twice hlog hdone howed hapc hunknown hplace hdirect hs hw hrequest hne (hok.resolve_left hw)
  · intro hbad
    rw [not_or] at hbad
    exact not_good_twice hunknown hdirect hs hbad.1 hrequest hne hbad.2

end Async

end WinePpc64.Server
