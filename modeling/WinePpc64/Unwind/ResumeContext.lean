import WinePpc64.Unwind.FinallyOnce

namespace WinePpc64.Unwind

open Walk

variable {Ctx : Type} (g : Guest Ctx)

def Walk.onward (w : Walk Ctx) : (Status × Walk Ctx) ⊕ Walk Ctx :=
  if w.dispatch.establisherFrame = w.want.frame then .inl (.success, w)
  else
    match w.saveResult.advance g with
    | .error e => .inl (e, w.saveResult)
    | .ok w => .inr w

def Walk.refuses (w : Walk Ctx) (again : UnwindTarget) : Option Status :=
  if again.frame < w.dispatch.establisherFrame then some .invalidUnwindTarget
  else if w.dispatch.establisherFrame = w.collidedFrame ∧ w.dispatch.scopeIndex = w.collidedScope then
    some .notImplemented
  else none

def Walk.answer (w : Walk Ctx) : Option Disposition → (Status × Walk Ctx) ⊕ Walk Ctx
  | none => w.onward g
  | some .continueSearch => w.clearCollided.onward g
  | some (.executeHandler again) =>
    match w.refuses again with
    | some status => .inl (status, w)
    | none => .inr (w.adopt again)
  | some .collidedUnwind =>
    match collidedAdopt g w with
    | none => .inl (.notImplemented, w)
    | some w => .inr w
  | some .refused => .inl (.notImplemented, w)
  | some _ => .inl (.invalidDisposition, w)

/-- What ends the walk before the handler of the frame is looked at. -/
def Walk.blocked (w : Walk Ctx) : Option Status :=
  if w.dispatch.establisherFrame = 0 ∨ g.validFrame w.dispatch.establisherFrame = false then some .badStack
  else if w.want.frame < w.dispatch.establisherFrame then some .invalidUnwindTarget
  else none

/-- One turn of the loop of `guest_unwind_to_target`, from its label `collided` to where it comes to it
again. -/
def Walk.turn (w : Walk Ctx) : (Status × Walk Ctx) ⊕ Walk Ctx :=
  match w.blocked g with
  | some status => .inl (status, w)
  | none => (w.markTarget.enterHandler g).2.answer g (w.markTarget.enterHandler g).1

theorem unwindLoop_succ {n : ℕ} {w : Walk Ctx} :
    unwindLoop g (n + 1) w = Sum.elim id (unwindLoop g n) (w.turn g) := by
  have honward : ∀ w : Walk Ctx, (if w.dispatch.establisherFrame = w.want.frame then (.success, w)
      else match w.saveResult.advance g with
        | .error e => (e, w.saveResult)
        | .ok w => unwindLoop g n w) = Sum.elim id (unwindLoop g n) (w.onward g) := by
    intro w
    unfold onward
    split_ifs
    · rfl
    · split <;> rfl
  rw [unwindLoop, turn, blocked]
  split_ifs
  · rfl
  · rfl
  generalize w.markTarget.enterHandler g = r
  obtain ⟨answer, w⟩ := r
  cases answer with
  | none => exact honward w
  | some answer =>
    cases answer with
    | continueSearch => exact honward w.clearCollided
    | executeHandler again =>
      simp only [answer, refuses]
      split_ifs <;> rfl
    | collidedUnwind =>
      simp only [answer]
      cases collidedAdopt g w <;> rfl
    | _ => rfl

def visits : ℕ → Walk Ctx → List (Walk Ctx)
  | 0, _ => []
  | n + 1, w => w :: Sum.elim (fun _ => []) (visits n) (w.turn g)

def walkEnd (target : UnwindTarget) (start : Ctx) (rsp : Addr) : Status × Walk Ctx :=
  match (startWalk target start rsp).advance g with
  | .error e => (e, startWalk target start rsp)
  | .ok w => unwindLoop g guestSehMaxFrames w

def walkVisits (target : UnwindTarget) (start : Ctx) (rsp : Addr) : List (Walk Ctx) :=
  match (startWalk target start rsp).advance g with
  | .error _ => []
  | .ok w => visits g guestSehMaxFrames w

theorem guestUnwindToTarget_eq {target : UnwindTarget} {start : Ctx} {rsp : Addr} :
    guestUnwindToTarget g target start rsp =
      (walkEnd g target start rsp).2.finish g (walkEnd g target start rsp).1 := by
  unfold guestUnwindToTarget walkEnd
  cases (startWalk target start rsp).advance g <;> rfl

/-- What holds at the label whenever the loop comes to it and is kept up to where the loop ends. -/
theorem walkEnd_of {P : Walk Ctx → Prop} {Q : Status × Walk Ctx → Prop} {target : UnwindTarget} {start : Ctx}
    {rsp : Addr} (herror : ∀ e, (startWalk target start rsp).advance g = .error e → Q (e, startWalk target start rsp))
    (hstart : ∀ w, (startWalk target start rsp).advance g = .ok w → P w) (hdepth : ∀ w, P w → Q (.badStack, w))
    (hturn : ∀ w ∈ walkVisits g target start rsp, P w → Sum.elim Q P (w.turn g)) :
    Q (walkEnd g target start rsp) := by
  have hloop : ∀ n w, (∀ v ∈ visits g n w, P v → Sum.elim Q P (v.turn g)) → P w → Q (unwindLoop g n w) := by
    intro n
    induction n with
    | zero => exact fun w _ hw => hdepth w hw
    | succ n ih =>
      intro w hvisits hw
      have hend := hvisits w List.mem_cons_self hw
      rw [unwindLoop_succ]
      rw [visits] at hvisits
      cases hturn : w.turn g with
      | inl r =>
        rw [hturn] at hend
        exact hend
      | inr w' =>
        rw [hturn] at hend hvisits
        exact ih w' (fun v hv => hvisits v (List.mem_cons_of_mem _ hv)) hend
  unfold walkEnd
  unfold walkVisits at hturn
  split
  next e he => exact herror e he
  next w hw =>
    rw [hw] at hturn
    exact hloop _ w hturn (hstart w hw)

structure SamePosition (d d' : Dispatcher Ctx) : Prop where
  pc : d'.controlPc = d.controlPc
  base : d'.imageBase = d.imageBase
  entry : d'.functionEntry = d.functionEntry
  frame : d'.establisherFrame = d.establisherFrame

def StepsOver (d : Dispatcher Ctx) (c c' : Ctx) : Prop :=
  (∃ f, g.virtualUnwind c = .ok (f, c') ∧ f.establisherFrame = d.establisherFrame) ∨
    ∃ d', SamePosition d d' ∧ g.skipFrame d' c = c'

/-- A handler that does not answer with a collided unwind leaves the position and the context alone. -/
def Tame : Prop := ∀ events record ctx d, match g.handler events record ctx d with
  | .returned a d' c => dispositionOf a = .collidedUnwind ∨ c = ctx ∧ SamePosition d d'
  | .unwind _ _ d' c => c = ctx ∧ SamePosition d d'

/-- If a collided unwind is adopted in this turn, with a context record that is not the walk's own, one step
from the walk's own record leads to the same context. -/
def Walk.AdoptsInStep (w : Walk Ctx) : Prop :=
  let r := w.markTarget.enterHandler g
  r.1 = some .collidedUnwind → collidedAdopt g r.2 ≠ none → ∀ c, r.2.dispatch.contextRecord = .other c →
    StepsOver g r.2.dispatch r.2.result (g.skipFrame r.2.dispatch c)

def Walk.Lags (w : Walk Ctx) : Prop := StepsOver g w.dispatch w.result w.context

variable {g} {w w' : Walk Ctx}

theorem StepsOver.congr {d d' : Dispatcher Ctx} {c c' : Ctx} (h : StepsOver g d c c') (hd : SamePosition d d') :
    StepsOver g d' c c' := by
  rcases h with ⟨f, hf, hest⟩ | ⟨d₀, h₀, hskip⟩
  · exact .inl ⟨f, hf, hest.trans hd.frame.symm⟩
  refine .inr ⟨d₀, ⟨?_, ?_, ?_, ?_⟩, hskip⟩
  · exact h₀.pc.trans hd.pc.symm
  · exact h₀.base.trans hd.base.symm
  · exact h₀.entry.trans hd.entry.symm
  · exact h₀.frame.trans hd.frame.symm

theorem advance_lags (hsame : w.result = w.context) (h : w.advance g = .ok w') : w'.Lags g := by
  unfold advance at h
  split at h
  · cases h
  · rename_i f c hv
    cases h
    exact .inl ⟨f, (congrArg g.virtualUnwind hsame).trans hv, rfl⟩

theorem advance_ne_success {e : Status} (h : w.advance g = .error e) : e ≠ .success := by
  unfold advance at h
  split at h
  · cases h
    nofun
  · cases h

theorem keep_lags {k : Option RunStack} : (w.keep k).Lags g ↔ w.Lags g := by
  cases k <;> simp only [keep]
  split_ifs <;> exact Iff.rfl

theorem enterHandler_lags (ht : Tame g) (h : w.Lags g) :
    (w.enterHandler g).1 = some .collidedUnwind ∨ (w.enterHandler g).2.Lags g := by
  unfold enterHandler
  cases hl : w.dispatch.languageHandler with
  | absent => exact .inr h
  | cSpecific table =>
    refine .inr (keep_lags.mpr ?_)
    unfold guestCSpecificHandler
    cases table with
    | none => exact h
    | some table =>
      dsimp only
      split <;> exact h.congr ⟨rfl, rfl, rfl, rfl⟩
  | guest address =>
    dsimp only
    unfold callGuestLanguageHandler
    split_ifs
    · exact .inr (keep_lags.mpr h)
    have hhandler := ht (.handler w.dispatch.establisherFrame :: w.events) w.unwindRec w.result w.dispatch
    dsimp only
    generalize g.handler _ w.unwindRec w.result w.dispatch = r at hhandler ⊢
    cases r with
    | returned a d c =>
      refine hhandler.imp (congrArg some) fun hsame => keep_lags.mpr ?_
      exact hsame.1 ▸ h.congr hsame.2
    | unwind target kept d c =>
      exact .inr (keep_lags.mpr (hhandler.1 ▸ h.congr hhandler.2))

theorem onward_lags (h : w.Lags g) :
    Sum.elim (fun r : Status × Walk Ctx => r.1 = .success → r.2.Lags g) (Walk.Lags g) (w.onward g) := by
  unfold onward
  split_ifs
  · exact fun _ => h
  · split
    next e he => exact fun hs => absurd hs (advance_ne_success he)
    next w' hw => exact advance_lags rfl hw

theorem turn_lags (ht : Tame g) (h : w.Lags g) (hadopt : w.AdoptsInStep g) :
    Sum.elim (fun r : Status × Walk Ctx => r.1 = .success → r.2.Lags g) (Walk.Lags g) (w.turn g) := by
  unfold turn
  split
  · exact fun _ => h
  · unfold Walk.AdoptsInStep at hadopt
    have hw : w.markTarget.Lags g := h
    have hhandler := enterHandler_lags ht hw
    revert hadopt hhandler
    generalize w.markTarget.enterHandler g = r
    obtain ⟨answer, w⟩ := r
    intro hadopt hhandler
    cases answer with
    | none => exact onward_lags (hhandler.resolve_left nofun)
    | some answer =>
      cases answer with
      | continueSearch => exact onward_lags (hhandler.resolve_left nofun)
      | executeHandler again =>
        have hlags := hhandler.resolve_left nofun
        simp only [answer]
        cases w.refuses again with
        | some status => exact fun _ => hlags
        | none =>
          have hkept : (keep { w with
              collidedFrame := w.dispatch.establisherFrame
              collidedScope := w.dispatch.scopeIndex } again.keptStack).Lags g := keep_lags.mpr hlags
          exact StepsOver.congr hkept ⟨rfl, rfl, rfl, rfl⟩
      | collidedUnwind =>
        simp only [answer]
        cases ha : collidedAdopt g w with
        | none => nofun
        | some w' =>
          have hadopt := hadopt rfl (by rw [ha]; nofun)
          unfold collidedAdopt at ha
          cases hc : w.dispatch.contextRecord with
          | null => simp [hc] at ha
          | result =>
            simp only [hc, Option.ite_none_left_eq_some] at ha
            obtain ⟨-, -, ha⟩ := ha
            cases ha
            exact .inr ⟨w.dispatch, ⟨rfl, rfl, rfl, rfl⟩, rfl⟩
          | other c =>
            simp only [hc, Option.ite_none_left_eq_some] at ha
            obtain ⟨-, -, ha⟩ := ha
            cases ha
            exact hadopt c hc
      | _ => nofun

theorem walkEnd_lags (ht : Tame g) {target : UnwindTarget} {start : Ctx} {rsp : Addr}
    (hadopt : ∀ w ∈ walkVisits g target start rsp, w.AdoptsInStep g)
    (hs : (walkEnd g target start rsp).1 = .success) : (walkEnd g target start rsp).2.Lags g := by
  revert hs
  apply walkEnd_of g (P := Walk.Lags g) (Q := fun r => r.1 = .success → r.2.Lags g)
  · exact fun e he hs => absurd hs (advance_ne_success he)
  · exact fun w hw => advance_lags rfl hw
  · exact fun w _ hs => nomatch hs
  · exact fun w hw h => turn_lags ht h (hadopt w hw)

theorem finish_resumes {status : Status} (h : (w.finish g status).status = .success)
    (hplain : w.unwindRec.code ≠ statusUnwindConsolidate) : status = .success ∧
      (w.finish g status).result = g.withRip (g.withRax w.result w.want.returnValue) w.want.targetIp := by
  unfold finish at h ⊢
  split_ifs at h ⊢ with hne
  · exact absurd h hne
  all_goals exact ⟨not_not.mp hne, rfl⟩

/-- The context resumed with is the target's unless a handler's record was out of step. -/
theorem guestUnwindToTarget_resumes (g : Guest Ctx) (ht : Tame g) (target : UnwindTarget) (start : Ctx) (rsp : Addr)
    (hadopt : ∀ w ∈ walkVisits g target start rsp, w.AdoptsInStep g)
    (hs : (guestUnwindToTarget g target start rsp).status = .success)
    (hplain : (walkEnd g target start rsp).2.unwindRec.code ≠ statusUnwindConsolidate) :
    ∃ c w, walkEnd g target start rsp = (.success, w) ∧
      (guestUnwindToTarget g target start rsp).result =
        g.withRip (g.withRax c w.want.returnValue) w.want.targetIp ∧ StepsOver g w.dispatch c w.context := by
  rw [guestUnwindToTarget_eq] at hs ⊢
  obtain ⟨hend, hresult⟩ := finish_resumes hs hplain
  exact ⟨_, _, Prod.ext hend rfl, hresult, walkEnd_lags ht hadopt hend⟩

namespace Foreign

def guest (record : ContextRecord ℕ) : Guest ℕ where
  virtualUnwind c := .ok (⟨0x401000, 0x400000, true, 0x1000 * (c + 1), .guest 0x402000⟩, c + 1)
  skipFrame _ c := c + 1
  validFrame _ := true
  guestModule _ := true
  onUnwoundStack _ := true
  onRunStack _ := false
  funclet _ _ _ := .returned
  handler _ _ c _ := .returned 3 ⟨0x401100, 0x400000, true, 0x5000, 0x403000, .absent, 0, record⟩ c
  consolidate _ _ := .ok 0
  withRax c _ := c
  withRip c _ := c

def goal : UnwindTarget := ⟨0x5000, 0x403000, 0, 0, none, ⟨0xc0000027, 0⟩⟩

theorem guestUnwindToTarget_resumes_elsewhere : Tame (guest (.other 10)) ∧
    (guestUnwindToTarget (guest (.other 10)) goal 0 0xf00).status = .success ∧
    (walkEnd (guest (.other 10)) goal 0 0xf00).2.unwindRec.code ≠ statusUnwindConsolidate ∧
    ¬ ∃ c w, walkEnd (guest (.other 10)) goal 0 0xf00 = (.success, w) ∧
      (guestUnwindToTarget (guest (.other 10)) goal 0 0xf00).result =
        (guest (.other 10)).withRip ((guest (.other 10)).withRax c w.want.returnValue) w.want.targetIp ∧
      StepsOver (guest (.other 10)) w.dispatch c w.context := by
  refine ⟨fun _ _ _ _ => .inl rfl, by decide +kernel, by decide +kernel, ?_⟩
  rintro ⟨c, w, hend, hresult, hstep⟩
  have hcontext : (walkEnd (guest (.other 10)) goal 0 0xf00).2.context = 11 := by decide +kernel
  have hc : c = 0 := by
    have hzero : (guestUnwindToTarget (guest (.other 10)) goal 0 0xf00).result = 0 := by decide +kernel
    exact hresult.symm.trans hzero
  subst hc
  rw [hend] at hcontext
  rw [hcontext] at hstep
  rcases hstep with ⟨f, hf, -⟩ | ⟨d, -, hskip⟩
  · cases hf
  · cases hskip

theorem adoptsInStep_own {w : Walk ℕ} : w.AdoptsInStep (guest .result) := by
  intro hr _ c hc
  unfold enterHandler at hr hc
  cases hl : w.markTarget.dispatch.languageHandler with
  | absent => simp [hl] at hr
  | cSpecific table =>
    simp only [hl, guestCSpecificHandler] at hr
    cases table with
    | none => cases hr
    | some table =>
      dsimp only at hr
      split at hr <;> cases hr
  | guest address =>
    simp [hl, callGuestLanguageHandler, guest, sweep] at hc

theorem guestUnwindToTarget_resumes_own : ∃ c w, walkEnd (guest .result) goal 0 0xf00 = (.success, w) ∧
    (guestUnwindToTarget (guest .result) goal 0 0xf00).result =
      (guest .result).withRip ((guest .result).withRax c w.want.returnValue) w.want.targetIp ∧
    StepsOver (guest .result) w.dispatch c w.context := by
  apply guestUnwindToTarget_resumes (guest .result)
  · exact fun _ _ _ _ => .inl rfl
  · exact fun w _ => adoptsInStep_own
  · decide +kernel
  · decide +kernel

end Foreign

end WinePpc64.Unwind
