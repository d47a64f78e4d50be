import WinePpc64.Server.AsyncPhases
import WinePpc64.Lib.Runs

namespace WinePpc64.Server

open List Option Bool Async

/-- What keeps an async in order: an alerted async is not restarted without its fd, and a direct result is
not collected by a wait when its completion was carried out. -/
def Tolerated (a : Async) : Event → Prop
  | .apcResult status => a.alerted = true → status = statusPending → a.fd = true
  | .directResult status markPending => a.unknownStatus = true ∧ a.terminated = true ∧ a.alerted = true →
      (status = statusPending → a.fd = true) ∧
      (status ≠ statusPending → a.waiters = 0 ∨ (a.deliver status markPending).acts status = [])
  | .wait => a.signaled = true → a.directResult = true → a.done = true → a.acts (a.iosb.getD statusPending) = []
  | _ => True

def Expected (a : Async) : Event → Prop
  | .complete status _ _ => a.device = true → a.unknownStatus = true → status ≠ statusAlerted
  | _ => True

variable {a' : Async}

section Steps

variable {a : Async}

variable (h : Inv a)
include h

theorem Inv.apcOut_of (hapc : a.apc.isSome = true) : ApcOut a := by
  cases h.phase with
  | waiting h => rw [h.apc] at hapc; cases hapc
  | apcOut h => exact h
  | directOut h => rw [h.apc] at hapc; cases hapc
  | ready h => rw [h.apc] at hapc; cases hapc
  | done h => rw [h.apc] at hapc; cases hapc

theorem apcResult_iff (hapc : a.apc.isSome = true) {status : Status} :
    (Tolerated a (.apcResult status) → Inv (a.dropApc.asyncSetResult status)) ∧
      (¬Tolerated a (.apcResult status) → ¬Good (a.dropApc.asyncSetResult status)) := by
  have hlog : Logged a.dropApc := { h.logged with }
  have hout := h.apcOut_of hapc
  by_cases hrestart : a.alerted = true ∧ status = statusPending
  · obtain ⟨halerted, rfl⟩ := hrestart
    rw [asyncSetResult_restart (b := a.dropApc) halerted]
    constructor
    · intro hok
      exact inv_restart hlog h.timeout hout.done hout.owed rfl hout.direct hout.place (hok halerted rfl)
    intro hbad
    apply not_good_restart
    by_contra hfd
    exact hbad fun _ _ => not_eq_false _ ▸ hfd
  · constructor
    · intro _
      exact inv_setResult hlog hout.done hout.owed rfl (fun hfd => hout.place ▸ hfd) hout.direct hrestart
    · intro hbad
      exact absurd (fun halerted hpending => absurd ⟨halerted, hpending⟩ hrestart) hbad

theorem directResult_iff {status : Status} {markPending : Bool} :
    (Tolerated a (.directResult status markPending) → Inv (a.setAsyncDirectResult status markPending)) ∧
      (¬Tolerated a (.directResult status markPending) → ¬Good (a.setAsyncDirectResult status markPending)) := by
  unfold setAsyncDirectResult
  split
  next hguard =>
    have hout : DirectOut a := by
      cases h.phase with
      | waiting h => rw [h.terminated] at hguard; cases hguard.2.1
      | apcOut h => rw [h.known hguard.2.2] at hguard; cases hguard.1
      | directOut h => exact h
      | ready h => rw [h.unknown] at hguard; cases hguard.1
      | done h => rw [h.unknown] at hguard; cases hguard.1
    have hlog : Logged (a.deliver status markPending) := { h.logged with }
    by_cases hpending : status = statusPending
    · subst hpending
      rw [asyncSetResult_restart (b := a.deliver statusPending markPending) hout.alerted]
      have hdirect : (a.deliver statusPending markPending).directResult = false := by
        show (a.directResult && decide (statusPending ≠ statusPending)) = false
        simp
      constructor
      · intro hok
        exact inv_restart hlog h.timeout hout.done rfl hout.apc hdirect hout.place ((hok hguard).1 rfl)
      intro hbad
      apply not_good_restart
      by_contra hfd
      exact hbad fun _ => ⟨fun _ => not_eq_false _ ▸ hfd, absurd rfl⟩
    · have hfinal : ¬((a.deliver status markPending).alerted = true ∧ status = statusPending) := fun hp => hpending hp.2
      have hdirect : (a.deliver status markPending).directResult = true := by
        show (a.directResult && decide (status ≠ statusPending)) = true
        rw [hout.direct, Bool.true_and, decide_eq_true_eq]
        exact hpending
      rw [asyncSetResult_final hfinal]
      rw [learn_eq (b := a.deliver status markPending) hout.unknown]
      obtain ⟨hgood, hbad⟩ := deliver_iff
        (b := { a.deliver status markPending with initialStatus := status, unknownStatus := false })
        { hlog with } hout.done rfl hout.apc hout.place hdirect hout.signaled hout.request
        (fun hd => absurd (h.device hd) (by rw [hout.direct]; decide)) hpending rfl
      constructor
      · intro hok
        exact hgood ((hok hguard).2 hpending)
      intro hnot
      apply hbad
      intro hor
      exact hnot fun _ => ⟨fun hp => absurd hp hpending, fun _ => hor⟩
  next hguard => exact ⟨fun _ => h, fun hbad => absurd (fun hg => absurd hg hguard) hbad⟩

theorem wait_iff (hs : a.signaled = true) :
    (Tolerated a .wait → Inv { a.satisfied with owed := false }) ∧
      (¬Tolerated a .wait → ¬Good { a.satisfied with owed := false }) := by
  have hsame (hdirect : a.directResult = false) (howed : a.owed = false) :
      { a.satisfied with owed := false } = a := by
    rw [satisfied_none hdirect, ← howed]
  cases h.phase with
  | waiting hw =>
    rw [hsame hw.direct hw.owed]
    exact ⟨fun _ => h, fun hbad => absurd (fun _ hd => absurd (hw.direct.symm.trans hd) (by decide)) hbad⟩
  | apcOut hw =>
    rw [hsame hw.direct hw.owed]
    exact ⟨fun _ => h, fun hbad => absurd (fun _ hd => absurd (hw.direct.symm.trans hd) (by decide)) hbad⟩
  | directOut hw => cases hw.signaled.symm.trans hs
  | ready hw =>
    obtain ⟨status, hiosb, hne⟩ := hw.result
    rw [satisfied_direct hw.direct hw.unknown hiosb fun hp => hne hp.2]
    refine ⟨fun _ => inv_collect h.logged hw.done hw.apc hw.unknown hs hw.place, fun hbad => ?_⟩
    exact absurd (fun _ _ hd => absurd (hw.done.symm.trans hd) (by decide)) hbad
  | done hw =>
    by_cases hdirect : a.directResult = true
    · obtain ⟨status, hiosb, hne, hsub⟩ := hw.again hdirect
      rw [satisfied_direct hdirect hw.unknown hiosb fun hp => hne hp.1 hp.2]
      constructor
      · intro hok
        have hacts : a.acts status = [] := by
          have := hok hs hdirect hw.done
          rwa [hiosb] at this
        exact inv_again h.logged hw hacts
      · intro hbad hgood
        have hne : a.acts status ≠ [] := by
          intro hnil
          apply hbad
          intro _ _ _
          rw [hiosb]
          exact hnil
        obtain ⟨x, hx⟩ := exists_mem_of_ne_nil _ hne
        have hnodup : (a.log ++ a.acts status).Nodup := hgood.once
        exact disjoint_of_nodup_append hnodup (hsub x hx) hx
    · have hdirect : a.directResult = false := eq_false_iff.mpr hdirect
      rw [hsame hdirect hw.owed]
      exact ⟨fun _ => h, fun hbad => absurd (fun _ hd => absurd (hdirect.symm.trans hd) (by decide)) hbad⟩

theorem inv_apcDropped {status : Status} (hapc : a.apc = some status) :
    Inv (a.dropApc.asyncSetResult status) := by
  have hsome : a.apc.isSome = true := by
    rw [hapc]
    rfl
  refine (apcResult_iff h hsome).1 fun halerted hpending => ?_
  exact absurd (hapc.trans (congrArg some hpending)) ((h.apcOut_of hsome).call halerted)

theorem step_iff {e : Event} (hexp : Expected a e) (hstep : step a e = some a') :
    (Tolerated a e → Inv a') ∧ (¬Tolerated a e → ¬Good a') := by
  have always {e : Event} (hok : Tolerated a e) (hinv : Inv a') : (Tolerated a e → Inv a') ∧ (¬Tolerated a e → ¬Good a') :=
    ⟨fun _ => hinv, absurd hok⟩
  cases e <;> simp only [step, ite_none_right_eq_some, ite_none_left_eq_some,
    Option.some.injEq] at hstep
  case wake status delivered =>
    obtain ⟨hguard, rfl⟩ := hstep
    exact always trivial (inv_terminate h (fun hu ht => hguard.2 ((h.waiting_of ht).known hu)) delivered)
  case complete status out delivered =>
    obtain ⟨hguard, rfl⟩ := hstep
    refine always trivial (inv_asyncRequestComplete h hguard.1 (fun hu ht => ?_))
    exact hexp ((h.waiting_of ht).known hu) hu
  case deviceReply pending initial result delivered =>
    obtain ⟨hguard, rfl⟩ := hstep
    exact always trivial (inv_deviceReply h hguard.1 hguard.2.1)
  case timeout delivered =>
    split at hstep
    next => cases hstep
    next status htimeout =>
      cases hstep
      refine always trivial (inv_terminate (frame h a.waiters a.canceled none nofun (.inl rfl)) (fun _ _ => ?_) delivered)
      exact h.timeout status htimeout
  case cancel delivered =>
    obtain ⟨hguard, rfl⟩ := hstep
    have hframe := frame h a.waiters true a.timeout h.timeout (.inl rfl)
    refine always trivial ?_
    split
    · exact hframe
    · exact inv_terminate hframe (fun _ _ => by decide) delivered
  case port =>
    obtain ⟨hfd, rfl⟩ := hstep
    exact always trivial (frame h a.waiters a.canceled a.timeout h.timeout (.inr hfd))
  case fdDestroyed delivered =>
    obtain ⟨hguard, rfl⟩ := hstep
    exact always trivial (inv_freeAsyncQueue h hguard)
  case apcResult status =>
    obtain ⟨hguard, rfl⟩ := hstep
    exact apcResult_iff h hguard
  case apcDropped =>
    split at hstep
    next => cases hstep
    next status hapc =>
      cases hstep
      exact always trivial (inv_apcDropped h hapc)
  case directResult status markPending =>
    obtain ⟨-, rfl⟩ := hstep
    exact directResult_iff h
  case wait =>
    obtain ⟨-, rfl⟩ := hstep
    split
    next hs => exact wait_iff h hs
    next hs =>
      exact ⟨fun _ => frame h (a.waiters + 1) a.canceled a.timeout h.timeout (.inl rfl),
        fun hbad => absurd (fun hs' => absurd hs' hs) hbad⟩
  case waitOver =>
    obtain ⟨-, rfl⟩ := hstep
    exact always trivial (frame h (a.waiters - 1) a.canceled a.timeout h.timeout (.inl rfl))

end Steps

theorem inv_createAsync {r : Request} (hr : ∀ status ∈ r.timeout, status ≠ statusAlerted) : Inv (createAsync r false) :=
  ⟨.waiting ⟨rfl, rfl, rfl, rfl, rfl, rfl, rfl, rfl, nofun⟩,
    ⟨nodup_nil, by simp [createAsync], fun _ => ⟨rfl, nofun⟩⟩, hr, nofun⟩

structure Queued (a : Async) : Prop where
  fd : a.fd = true
  queue : a.queue = true
  apc : a.apc = none
  owed : a.owed = false
  done : a.done = false
  signaled : a.signaled = false
  log : a.log = []
  outcome : a.outcome = none
  timeout : ∀ status ∈ a.timeout, status ≠ statusAlerted
  unknown : a.unknownStatus = false
  device : a.device = false
  direct : a.directResult = true
  iosb : ∃ status, a.iosb = some status ∧ (a.terminated = true → status ≠ statusPending) ∧
    (a.terminated = false → status = statusPending ∧ a.alerted = false)

variable {a b a₀ : Async}

variable (h : Queued a) {error : Status}
include h

theorem Queued.other {initial : Status} {out blocking : Bool} :
    Queued { a with initialStatus := initial, outData := out, blocking := blocking } :=
  { h with }

theorem Queued.logged (hlog : b.log = a.log) (hs : b.signaled = a.signaled) (ho : b.outcome = a.outcome) :
    Logged b := by
  refine ⟨?_, ?_, ?_⟩
  · simp [hlog, h.log]
  · simp [hlog, h.log, hs, h.signaled]
  · simp [hlog, h.log, ho, h.outcome]

theorem handOver_inv (ha : a.handOver = some a') : Inv a' := by
  obtain ⟨status, hiosb, hdone, hopen⟩ := h.iosb
  unfold handOver at ha
  split at ha
  · cases ha
  · rw [hiosb] at ha
    split at ha
    next hne =>
      cases ha
      have hne : status ≠ statusPending := fun heq => hne (congrArg some heq)
      have hterminated : a.terminated = true := by
        by_contra ht
        exact hne (hopen (eq_false_iff.mpr ht)).1
      refine ⟨.ready ⟨hterminated, h.direct, rfl, h.apc, h.unknown, rfl, h.done, ⟨status, hiosb, hne⟩,
        h.fd.trans h.queue.symm⟩, ⟨?_, iff_of_true ?_ rfl, ?_⟩, h.timeout, ?_⟩
      · show (a.log ++ [Action.wait]).Nodup
        rw [h.log]
        exact nodup_singleton _
      · show Action.wait ∈ a.log ++ [Action.wait]
        simp
      · refine fun _ => ⟨h.outcome, fun x hx => ?_⟩
        have hx : x ∈ a.log ++ [Action.wait] := hx
        rw [h.log] at hx
        exact mem_singleton.mp hx
      · intro hdevice
        exact absurd (h.device.symm.trans hdevice) (by decide)
    next heq =>
      cases ha
      have heq : status = statusPending := Option.some.inj (not_not.mp heq)
      have hterminated : a.terminated = false := by
        by_contra ht
        exact hdone (not_eq_false _ ▸ ht) heq
      refine ⟨.waiting ⟨hterminated, (hopen hterminated).2, h.fd, h.queue, h.apc, h.owed, rfl, h.done,
        fun hu => absurd (h.unknown.symm.trans hu) (by decide)⟩, h.logged rfl rfl rfl, h.timeout,
        fun _ => rfl⟩

theorem queued_answered : Queued (a.answered error) := by
  obtain ⟨status, hiosb, -, hopen⟩ := h.iosb
  unfold answered
  split
  next hne =>
    by_cases ht : a.terminated = true
    · rw [asyncTerminate_again (b := a.begin error) ht]
      exact h.other
    have ht : (a.begin error).terminated = false := eq_false_iff.mpr ht
    have hmark : (a.begin error).asyncTerminate error true = (a.begin error).alert error := by
      have hd : (a.begin error).directResult = true := h.direct
      unfold asyncTerminate
      rw [ht, hd]
      rfl
    rw [hmark]
    refine ⟨h.fd, h.queue, h.apc, h.owed, h.done, h.signaled, h.log, h.outcome, h.timeout, h.unknown, h.device, h.direct,
      error, ?_, fun _ => hne, nofun⟩
    show a.iosb.map _ = some error
    rw [hiosb, (hopen ht).1]
    rfl
  next =>
    split
    · exact h.other
    · exact h.other

theorem asyncHandoff_inv {forceBlocking : Bool}
    (herror : a.terminated = true → error ≠ statusAlerted) (ha : asyncHandoff a error forceBlocking = some a') :
    Inv a' := by
  have hforce : Queued (a.force forceBlocking) := h.other
  unfold asyncHandoff at ha
  rw [hforce.unknown, if_neg Bool.false_ne_true] at ha
  split at ha
  next halert =>
    cases ha
    have ht : (a.force forceBlocking).defer.terminated = false := by
      by_contra ht
      exact herror (not_eq_false _ ▸ ht) halert
    have hmark : (a.force forceBlocking).defer.asyncTerminate statusAlerted true =
        (a.force forceBlocking).defer.alert statusAlerted := by
      have hd : (a.force forceBlocking).defer.directResult = true := h.direct
      unfold asyncTerminate
      rw [ht, hd]
      rfl
    obtain ⟨status, hiosb, -, -⟩ := h.iosb
    rw [hmark]
    refine ⟨.directOut ⟨rfl, ?_, rfl, h.direct, rfl, h.apc, h.signaled, h.done, ?_, h.fd.trans h.queue.symm⟩,
      h.logged rfl rfl rfl, h.timeout, ?_⟩
    · show (a.alerted || decide (statusAlerted = statusAlerted)) = true
      simp
    · show (a.iosb.map _).isSome = true
      rw [hiosb]
      rfl
    · intro hdevice
      exact absurd (h.device.symm.trans hdevice) (by decide)
  next => exact handOver_inv (queued_answered hforce) ha

omit h

theorem Start.inv (h : Start a) : Inv a := by
  cases h with
  | register r hr => exact inv_createAsync hr
  | request r prelude error forceBlocking hr hresult ha =>
    cases prelude with
    | queued =>
      refine asyncHandoff_inv ?_ ?_ ha
      · exact ⟨rfl, rfl, rfl, rfl, rfl, rfl, rfl, rfl, hr, rfl, rfl, rfl, statusPending, rfl, nofun, fun _ => ⟨rfl, rfl⟩⟩
      · nofun
    | markedPending =>
      refine asyncHandoff_inv ?_ ?_ ha
      · exact ⟨rfl, rfl, rfl, rfl, rfl, rfl, rfl, rfl, hr, rfl, rfl, rfl, statusPending, rfl, nofun, fun _ => ⟨rfl, rfl⟩⟩
      · nofun
    | completed status out =>
      obtain ⟨hne, herror⟩ := hresult status out rfl
      refine asyncHandoff_inv ?_ (fun _ => herror) ha
      have hresult : (Prelude.completed status out).apply (createAsync r true) =
          ((createAsync r true).fill status out).alert status := rfl
      refine ⟨rfl, rfl, rfl, rfl, rfl, rfl, rfl, rfl, hr, rfl, rfl, rfl, status, ?_, fun _ => hne, nofun⟩
      show (some status).map _ = some status
      rw [map_some, if_neg hne]
    | device =>
      obtain rfl := Option.some.inj ha
      exact ⟨.waiting ⟨rfl, rfl, rfl, rfl, rfl, rfl, rfl, rfl, fun _ => rfl⟩,
        ⟨nodup_nil, by simp [createAsync, Prelude.apply, force], fun _ => ⟨rfl, nofun⟩⟩, hr, fun _ => rfl⟩

def Orderly (a : Async) (e : Event) : Prop := Expected a e ∧ Tolerated a e

theorem reaches_inv (h₀ : Start a₀) (hrun : Lib.Reaches step Orderly a₀ a) : Inv a :=
  hrun.invariant h₀.inv fun _ _ _ hok hstep hinv => (step_iff hinv hok.1 hstep).1 hok.2

instance (a : Async) (e : Event) : Decidable (Tolerated a e) :=
  match e with
  | .apcResult _ => inferInstanceAs (Decidable (_ → _ → _))
  | .directResult _ _ => inferInstanceAs (Decidable (_ ∧ _ ∧ _ → (_ → _) ∧ (_ → _ ∨ _)))
  | .wait => inferInstanceAs (Decidable (_ → _ → _ → _))
  | .wake _ _ | .complete _ _ _ | .deviceReply _ _ _ _ | .timeout _ | .cancel _ | .port | .fdDestroyed _
  | .apcDropped | .waitOver => inferInstanceAs (Decidable True)

instance (a : Async) (e : Event) : Decidable (Expected a e) :=
  match e with
  | .complete _ _ _ => inferInstanceAs (Decidable (_ → _ → _))
  | .wake _ _ | .deviceReply _ _ _ _ | .timeout _ | .cancel _ | .port | .fdDestroyed _ | .apcResult _ | .apcDropped
  | .directResult _ _ | .wait | .waitOver => inferInstanceAs (Decidable True)

instance (a : Async) (e : Event) : Decidable (Orderly a e) := inferInstanceAs (Decidable (_ ∧ _))

namespace Receive

def request : Request := ⟨true, false, false, false, false, true, false, none⟩

def pending : Async := ((createAsync request true).answered statusPending).park.begin statusPending

def alerted : Async := ((createAsync request true).defer.alert statusAlerted).owe

def sent : Async := Prelude.apply (createAsync request true) .device

theorem start_pending : Start pending := .request request .queued statusPending false nofun nofun rfl

theorem start_sent : Start sent := .request request .device statusPending false nofun nofun rfl

def events : List Event :=
  [.wait, .wake statusAlerted true, .apcResult statusPending, .wake statusAlerted true, .fdDestroyed true]

end Receive

end WinePpc64.Server
