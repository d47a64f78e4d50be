import WinePpc64.Server.Cancel
import WinePpc64.Server.Completion
import WinePpc64.Lib.Countdown

namespace WinePpc64.Server

open List Async

variable {e : Event} {a a' : Async}

namespace Async

structure Keeps (a b : Async) : Prop where
  done : a.done = true → b.done = true
  canceled : a.canceled = true → b.canceled = true

theorem Keeps.refl : Keeps a a := ⟨id, id⟩

theorem Keeps.trans {b c : Async} (h : Keeps a b) (h' : Keeps b c) : Keeps a c :=
  ⟨h'.done ∘ h.done, h'.canceled ∘ h.canceled⟩

variable {a a' : Async} {status : Status}

theorem keeps_leave : Keeps a a.leave := ⟨fun _ => rfl, id⟩

theorem keeps_learn : Keeps a (a.learn status) := by
  unfold learn
  split
  · exact ⟨id, id⟩
  · exact .refl

theorem keeps_setResult {signal : Async → Async} (h : ∀ b, Keeps b (signal b)) : Keeps a (setResult signal a status) := by
  have hlearn : Keeps a (a.learn status) := keeps_learn
  refine hlearn.trans ?_
  unfold setResult
  dsimp only
  split
  · exact ⟨id, id⟩
  · have hact : Keeps (a.learn status) ((a.learn status).act status) := ⟨id, id⟩
    exact (hact.trans (h _)).trans keeps_leave

theorem keeps_satisfied : Keeps a a.satisfied := by
  unfold satisfied
  split
  · have h : Keeps a (setResult id a (a.iosb.getD statusPending)) := keeps_setResult fun b => .refl
    exact { h with }
  · exact .refl

theorem keeps_signal : Keeps a a.signal := by
  unfold signal
  split
  · exact .refl
  · split
    · exact ⟨id, id⟩
    · have h : Keeps a.mark a.mark.satisfied := keeps_satisfied
      exact { h with }

theorem keeps_asyncSetResult : Keeps a (a.asyncSetResult status) := keeps_setResult fun _ => keeps_signal

theorem keeps_asyncTerminate (status : Status) (delivered : Bool) : Keeps a (a.asyncTerminate status delivered) := by
  have halert : Keeps a (a.alert status) := ⟨id, id⟩
  unfold asyncTerminate
  split
  · exact .refl
  · split
    · exact halert
    · split
      · exact ⟨id, id⟩
      · exact halert.trans keeps_asyncSetResult

theorem keeps_asyncRequestComplete {out delivered : Bool} : Keeps a (a.asyncRequestComplete status out delivered) := by
  unfold asyncRequestComplete
  split
  · have hfill : Keeps a (a.fill status out) := ⟨id, id⟩
    exact hfill.trans (keeps_asyncTerminate _ delivered)
  · exact .refl

theorem keeps_step (hstep : step a e = some a') : Keeps a a' := by
  cases e <;> simp only [step, Option.ite_none_right_eq_some, Option.ite_none_left_eq_some,
    Option.some.injEq] at hstep
  case wake status delivered =>
    obtain ⟨-, rfl⟩ := hstep
    exact keeps_asyncTerminate _ delivered
  case complete status out delivered =>
    obtain ⟨-, rfl⟩ := hstep
    exact keeps_asyncRequestComplete
  case deviceReply pending initial result delivered =>
    obtain ⟨-, rfl⟩ := hstep
    have hanswer : Keeps a (a.answer pending initial) := ⟨id, id⟩
    refine hanswer.trans ?_
    unfold deviceReply
    split
    · exact keeps_asyncRequestComplete
    · unfold asyncWakeObj
      split
      · exact .refl
      · exact keeps_signal
  case timeout delivered =>
    split at hstep
    next => cases hstep
    next status _ =>
      cases hstep
      have htimeout : Keeps a { a with timeout := none } := ⟨id, id⟩
      exact htimeout.trans (keeps_asyncTerminate _ delivered)
  case cancel delivered =>
    obtain ⟨-, rfl⟩ := hstep
    have hcancel : Keeps a { a with canceled := true } := ⟨id, fun _ => rfl⟩
    split
    · exact hcancel
    · exact hcancel.trans (keeps_asyncTerminate _ delivered)
  case port =>
    obtain ⟨-, rfl⟩ := hstep
    exact ⟨id, id⟩
  case fdDestroyed delivered =>
    obtain ⟨-, rfl⟩ := hstep
    have hdetach : Keeps a a.detach := ⟨id, id⟩
    have h := hdetach.trans (keeps_asyncTerminate statusHandlesClosed delivered)
    exact { h with }
  case apcResult status =>
    obtain ⟨-, rfl⟩ := hstep
    have hdrop : Keeps a a.dropApc := ⟨id, id⟩
    exact hdrop.trans keeps_asyncSetResult
  case apcDropped =>
    split at hstep
    next => cases hstep
    next status _ =>
      cases hstep
      have hdrop : Keeps a a.dropApc := ⟨id, id⟩
      exact hdrop.trans keeps_asyncSetResult
  case directResult status markPending =>
    obtain ⟨-, rfl⟩ := hstep
    unfold setAsyncDirectResult
    split
    · have hdeliver : Keeps a (a.deliver status markPending) := ⟨id, id⟩
      exact hdeliver.trans keeps_asyncSetResult
    · exact .refl
  case wait =>
    obtain ⟨-, rfl⟩ := hstep
    split
    · have h : Keeps a a.satisfied := keeps_satisfied
      exact { h with }
    · exact ⟨id, id⟩
  case waitOver =>
    obtain ⟨-, rfl⟩ := hstep
    exact ⟨id, id⟩

theorem completes_of_not_done (h : a.done = false) (hstep : step a e = some a') : a.completes e = a'.done := by
  have hsame : { a with done := false } = a := by rw [← h]
  unfold completes
  rw [hsame, hstep]
  rfl

end Async

theorem Inv.asserted (h : Inv a) (hstep : step a e = some a') : a.asserted e = true := by
  cases e with
  | apcResult status => exact (h.apcOut_of (Option.ite_none_right_eq_some.mp hstep).1).terminated
  | apcDropped =>
    simp only [step] at hstep
    split at hstep
    next => cases hstep
    next status hapc => exact (h.apcOut_of (by rw [hapc]; rfl)).terminated
  | wait =>
    show (!(a.signaled && a.directResult) || a.terminated) = true
    cases h.phase with
    | waiting h => rw [h.direct]; simp
    | apcOut h => rw [h.terminated]; simp
    | directOut h => rw [h.terminated]; simp
    | ready h => rw [h.terminated]; simp
    | done h => rw [h.terminated]; simp
  | _ => rfl

theorem Inv.cancel (h : Inv a) (hterminated : a.terminated = false) (hcanceled : a.canceled = false)
    {delivered : Bool} : ∃ a', step a (.cancel delivered) = some a' ∧ Inv a' ∧ a'.canceled = true ∧
      a'.done = !(a.device || delivered) := by
  have hw := h.waiting_of hterminated
  have hframe : Inv { a with canceled := true } := frame h a.waiters true a.timeout h.timeout (.inl rfl)
  have hguard : a.fd = true ∧ ¬a.terminated = true ∧ ¬a.canceled = true := by
    rw [hw.fd, hterminated, hcanceled]
    simp
  refine ⟨_, if_pos hguard, ?_, ?_, ?_⟩
  · split
    · exact hframe
    · exact inv_terminate hframe (fun _ _ => by decide) delivered
  · split
    · rfl
    · exact (keeps_asyncTerminate _ delivered).canceled rfl
  split
  next hdevice => rw [hw.done, hdevice]; rfl
  next hdevice =>
    have hdone : (asyncTerminate { a with canceled := true } statusCancelled delivered).done = !delivered := by
      cases delivered with
      | true =>
        rw [asyncTerminate_delivered (b := { a with canceled := true }) hterminated hw.direct]
        exact hw.done
      | false =>
        obtain ⟨-, c, hc⟩ : Inv (asyncTerminate { a with canceled := true } statusCancelled false) ∧
            ∃ c, asyncTerminate { a with canceled := true } statusCancelled false = leave c :=
          inv_terminate_failed hframe.logged hterminated hw.alerted (fun _ => hw.queue) hw.apc hw.owed hw.direct
            hw.done
        rw [hc]
        rfl
    rw [hdone, Bool.eq_false_iff.mpr hdevice, Bool.false_or]

theorem Cancel.drop_covers {k : Cancel} : k.drop.covers = k.covers := by
  unfold Cancel.drop
  split <;> rfl

namespace Process

variable {p q : Process} {i j c d : ℕ} {o o' : Op} {k k' : Cancel}

theorem getElem?_setOp (h : p.ops[i]? = some o) (j : ℕ) :
    (p.setOp i o').ops[j]? = if j = i then some o' else p.ops[j]? := by
  obtain ⟨hlt, -⟩ := List.getElem?_eq_some_iff.mp h
  show (p.ops.set i o')[j]? = _
  rw [getElem?_set]
  by_cases hj : i = j
  · rw [if_pos hj, if_pos hj.symm, if_pos (hj ▸ hlt)]
  · rw [if_neg hj, if_neg (Ne.symm hj)]

theorem getElem?_setCancel (h : p.cancels[c]? = some k) :
    (p.setCancel c k').cancels[d]? = if d = c then some k' else p.cancels[d]? := by
  obtain ⟨hlt, -⟩ := List.getElem?_eq_some_iff.mp h
  show (p.cancels.set c k')[d]? = _
  rw [getElem?_set]
  by_cases hd : c = d
  · rw [if_pos hd, if_pos hd.symm, if_pos (hd ▸ hlt)]
  · rw [if_neg hd, if_neg (Ne.symm hd)]

theorem getElem?_concat {α : Type} {l : List α} {x : α} (j : ℕ) :
    (l ++ [x])[j]? = if j = l.length then some x else l[j]? := by
  rw [getElem?_append]
  split_ifs with hlt heq heq
  · omega
  · rfl
  · simp [heq]
  · rw [getElem?_eq_none (by simp only [length_singleton]; omega), getElem?_eq_none (by omega)]

def doneAt (p : Process) (i : ℕ) : Bool := (p.ops[i]?).any (·.async.done)

theorem doneAt_eq (h : p.ops[i]? = some o) : p.doneAt i = o.async.done := by
  unfold doneAt
  rw [h]
  rfl

theorem doneAt_setOp (h : p.ops[i]? = some o) :
    (p.setOp i o').doneAt j = if j = i then o'.async.done else p.doneAt j := by
  unfold doneAt
  rw [getElem?_setOp h]
  split <;> rfl

def finished (p : Process) (k : Cancel) : Bool := k.covers.all p.doneAt

theorem finished_iff : p.finished k = true ↔ Lib.remaining k.covers p.doneAt = 0 := by
  rw [Lib.remaining_eq_zero]
  exact all_eq_true

/-- The cancel object counts the asyncs that have not completed, is signalled when the last one completes,
and is released then, or at once if there was nothing to cancel. -/
structure Accounted (p : Process) (k : Cancel) : Prop where
  count : k.count = Lib.remaining k.covers p.doneAt
  signaled : k.signaled = (!k.covers.isEmpty && p.finished k)
  released : k.released = if p.finished k then 1 else 0

structure Good (p : Process) : Prop where
  failed : p.failed = false
  accounted : ∀ (c : ℕ) (k : Cancel), p.cancels[c]? = some k → Accounted p k

structure Linked (p : Process) : Prop where
  asyncs : ∀ {i : ℕ} {o : Op}, p.ops[i]? = some o → Inv o.async
  attached : ∀ {i : ℕ} {o : Op} {c : ℕ}, p.ops[i]? = some o → o.cancel = some c →
    o.async.done = false ∧ o.async.canceled = true ∧ ∃ k, p.cancels[c]? = some k ∧ i ∈ k.covers
  covered : ∀ {c : ℕ} {k : Cancel} {i : ℕ}, p.cancels[c]? = some k → i ∈ k.covers →
    ∃ o, p.ops[i]? = some o ∧ (o.async.done = false → o.cancel = some c)
  nodup : ∀ {c : ℕ} {k : Cancel}, p.cancels[c]? = some k → k.covers.Nodup

structure Sound (p : Process) : Prop where
  linked : Linked p
  good : Good p

theorem Accounted.congr (h : Accounted p k) (hdone : ∀ i ∈ k.covers, q.doneAt i = p.doneAt i) :
    Accounted q k := by
  have hremaining : Lib.remaining k.covers q.doneAt = Lib.remaining k.covers p.doneAt := Lib.remaining_congr hdone
  have hfinished : q.finished k = p.finished k := by
    rw [Bool.eq_iff_iff, finished_iff, finished_iff, hremaining]
  exact ⟨h.count.trans hremaining.symm, by rw [hfinished]; exact h.signaled, by rw [hfinished]; exact h.released⟩

def Covers (p : Process) (d j : ℕ) : Prop := ∃ k, p.cancels[d]? = some k ∧ j ∈ k.covers

theorem covers_setCancel (hk : p.cancels[c]? = some k) :
    (p.setCancel c k').Covers d j ↔ if d = c then j ∈ k'.covers else p.Covers d j := by
  unfold Covers
  rw [getElem?_setCancel hk]
  split <;> simp

/-- An async agrees with the cancel objects that cover it. -/
structure Agrees (p : Process) (j : ℕ) (o : Op) : Prop where
  inv : Inv o.async
  attached : ∀ c, o.cancel = some c → o.async.done = false ∧ o.async.canceled = true ∧ p.Covers c j
  covered : ∀ d, p.Covers d j → o.async.done = false → o.cancel = some d

variable (h : Linked p)
include h

theorem Linked.agrees (ho : p.ops[i]? = some o) : p.Agrees i o := by
  refine ⟨h.asyncs ho, fun c hc => h.attached ho hc, fun d ⟨k, hk, hi⟩ => ?_⟩
  obtain ⟨x, hx, hon⟩ := h.covered hk hi
  cases hx.symm.trans ho
  exact hon

theorem Linked.put (hops : ∀ j, q.ops[j]? = if j = i then some o' else p.ops[j]?)
    (hcov : ∀ d j, j ≠ i → (q.Covers d j ↔ p.Covers d j)) (hagrees : q.Agrees i o')
    (hnodup : ∀ {d : ℕ} {x : Cancel}, q.cancels[d]? = some x → x.covers.Nodup) : Linked q where
  asyncs := by
    intro j x hx
    rw [hops] at hx
    split at hx
    · exact Option.some.inj hx ▸ hagrees.inv
    · exact h.asyncs hx
  attached := by
    intro j x c hx hc
    rw [hops] at hx
    split at hx
    next hj =>
      cases hx
      exact hj ▸ hagrees.attached c hc
    next hj =>
      obtain ⟨hopen, hcanceled, hon⟩ := h.attached hx hc
      exact ⟨hopen, hcanceled, (hcov c j hj).mpr hon⟩
  covered := by
    intro d k j hk hj
    rw [hops]
    split
    next heq => exact ⟨o', rfl, hagrees.covered d ⟨k, hk, heq ▸ hj⟩⟩
    next hne =>
      obtain ⟨y, hy, hj⟩ := (hcov d j hne).mp ⟨k, hk, hj⟩
      exact h.covered hy hj
  nodup := hnodup

theorem Linked.recount (hops : q.ops = p.ops) (hcov : ∀ d j, q.Covers d j ↔ p.Covers d j)
    (hnodup : ∀ {d : ℕ} {x : Cancel}, q.cancels[d]? = some x → x.covers.Nodup) : Linked q where
  asyncs := fun hx => h.asyncs (hops ▸ hx)
  attached := by
    intro j x c hx hc
    obtain ⟨hopen, hcanceled, hon⟩ := h.attached (hops ▸ hx) hc
    exact ⟨hopen, hcanceled, (hcov c j).mpr hon⟩
  covered := by
    intro d k j hk hj
    obtain ⟨y, hy, hj⟩ := (hcov d j).mp ⟨k, hk, hj⟩
    rw [hops]
    exact h.covered hy hj
  nodup := hnodup

theorem Linked.setCancel (hk : p.cancels[c]? = some k) (hcovers : k'.covers = k.covers) :
    Linked (p.setCancel c k') := by
  refine h.recount rfl (fun d j => ?_) fun {d x} hx => ?_
  · rw [covers_setCancel hk, hcovers]
    split
    next hd => simp [Covers, hd, hk]
    next => exact Iff.rfl
  · rw [getElem?_setCancel hk] at hx
    split at hx
    · cases hx
      exact hcovers ▸ h.nodup hk
    · exact h.nodup hx

theorem Linked.setOp (ho : p.ops[i]? = some o) (hinv : Inv o'.async) (hcancel : o'.cancel = o.cancel)
    (hdone : o'.async.done = o.async.done) (hkeeps : o.async.canceled = true → o'.async.canceled = true) :
    Linked (p.setOp i o') := by
  have hold := h.agrees ho
  refine h.put (getElem?_setOp ho) (fun _ _ _ => Iff.rfl) ⟨hinv, fun c hc => ?_, fun d hd hopen => ?_⟩ h.nodup
  · obtain ⟨hopen, hcanceled, hon⟩ := hold.attached c (hcancel.symm.trans hc)
    exact ⟨hdone.trans hopen, hkeeps hcanceled, hon⟩
  · exact hcancel.trans (hold.covered d hd (hdone.symm.trans hopen))

omit h

theorem doneAt_setOp_same (ho : p.ops[i]? = some o) (hdone : o'.async.done = o.async.done) :
    (p.setOp i o').doneAt j = p.doneAt j := by
  rw [doneAt_setOp ho]
  split
  next hj => rw [hj, doneAt_eq ho, hdone]
  next => rfl

theorem Linked.complete_free (h : Linked p) (ho : p.ops[i]? = some o) (hopen : o.async.done = false)
    (hcancel : o.cancel = none) (hinv : Inv o'.async) (hnone : o'.cancel = none) :
    Linked (p.setOp i o') ∧ ∀ (c : ℕ) (k : Cancel), p.cancels[c]? = some k → ∀ j ∈ k.covers, (p.setOp i o').doneAt j = p.doneAt j := by
  -- no cancel object covers it, for an async that is covered and has not completed is on the object
  have hfree (c : ℕ) : ¬p.Covers c i := by
    intro hc
    rw [(h.agrees ho).covered c hc hopen] at hcancel
    cases hcancel
  constructor
  · refine h.put (getElem?_setOp ho) (fun _ _ _ => Iff.rfl) ⟨hinv, fun c hc => ?_, fun d hd => absurd hd (hfree d)⟩
      h.nodup
    cases hnone.symm.trans hc
  · intro c k hk j hmem
    rw [doneAt_setOp ho, if_neg]
    rintro rfl
    exact hfree c ⟨k, hk, hmem⟩

theorem Accounted.drop (h : Accounted p k) (hnodup : k.covers.Nodup) (hmem : i ∈ k.covers)
    (hbefore : p.doneAt i = false) (hafter : q.doneAt i = true)
    (hother : ∀ j ∈ k.covers, j ≠ i → q.doneAt j = p.doneAt j) : Accounted q k.drop := by
  have hstep : Lib.remaining k.covers p.doneAt = Lib.remaining k.covers q.doneAt + 1 :=
    Lib.remaining_finish hnodup hmem hbefore hafter hother
  have hopen : p.finished k = false := by
    rw [← Bool.not_eq_true, finished_iff]
    omega
  have hcount := h.count
  have hsignaled := h.signaled
  have hreleased := h.released
  rw [hopen] at hsignaled hreleased
  have hne : k.covers.isEmpty = false := by
    rw [isEmpty_eq_false_iff]
    exact ne_nil_of_mem hmem
  unfold Cancel.drop
  split
  next hone =>
    have hzero : Lib.remaining k.covers q.doneAt = 0 := by omega
    have hfinished : q.finished k = true := finished_iff.mpr hzero
    refine ⟨hzero.symm, ?_, ?_⟩
    · show true = (!k.covers.isEmpty && q.finished k)
      rw [hne, hfinished]
      rfl
    · show k.released + 1 = if q.finished k then 1 else 0
      rw [hfinished, hreleased]
      rfl
  next hmore =>
    have hfinished : q.finished k = false := by
      rw [← Bool.not_eq_true, finished_iff]
      omega
    refine ⟨?_, ?_, ?_⟩
    · show k.count - 1 = Lib.remaining k.covers q.doneAt
      omega
    · show k.signaled = (!k.covers.isEmpty && q.finished k)
      rw [hfinished, hsignaled]
    · show k.released = if q.finished k then 1 else 0
      rw [hfinished, hreleased]

theorem Sound.complete_attached (h : Sound p) (ho : p.ops[i]? = some o) (hcancel : o.cancel = some c)
    (hk : p.cancels[c]? = some k) (hinv : Inv o'.async) (hdone : o'.async.done = true) (hnone : o'.cancel = none) :
    Sound ((p.setOp i o').setCancel c k.drop) := by
  obtain ⟨hopen, -, k', hk', hmem⟩ := h.linked.attached ho hcancel
  obtain rfl := Option.some.inj (hk.symm.trans hk')
  have hdoneAt (j : ℕ) : ((p.setOp i o').setCancel c k.drop).doneAt j = if j = i then true else p.doneAt j := by
    rw [← hdone]
    exact doneAt_setOp ho
  refine ⟨?_, h.good.failed, ?_⟩
  · have hlinked : Linked (p.setOp i o') := by
      refine h.linked.put (getElem?_setOp ho) (fun _ _ _ => Iff.rfl)
        ⟨hinv, fun d hd => ?_, fun d _ hd => ?_⟩ h.linked.nodup
      · cases hnone.symm.trans hd
      · cases hdone.symm.trans hd
    exact hlinked.setCancel hk Cancel.drop_covers
  · intro d x hx
    rw [getElem?_setCancel (p := p.setOp i o') hk] at hx
    split at hx
    next =>
      cases hx
      apply (h.good.accounted c k hk).drop (h.linked.nodup hk) hmem ((doneAt_eq ho).trans hopen)
      · rw [hdoneAt, if_pos rfl]
      · intro j _ hj
        rw [hdoneAt, if_neg hj]
    next hd =>
      apply (h.good.accounted d x hx).congr
      intro j hj
      rw [hdoneAt, if_neg]
      rintro rfl
      -- it is on no other cancel object
      have hon := (h.linked.agrees ho).covered d ⟨x, hx, hj⟩ hopen
      exact hd (Option.some.inj (hon.symm.trans hcancel))

end Process

end WinePpc64.Server
