import WinePpc64.Com.Locks

namespace WinePpc64.Com.Locks

open Lib CriticalSection State

def Frame.inWc : Frame → Bool
  | .wcBody _ | .ringRelease _ | .ringEnter _ | .ringDetach _ | .wcLeave => true
  | _ => false

def Frame.entersJr : Frame → Bool
  | .ringEnter _ | .drainEnter _ | .offEnter => true
  | _ => false

def Frame.entersWc : Frame → Bool
  | .wcEnter _ => true
  | _ => false

def top (P : Frame → Bool) : List Frame → Bool
  | [] => false
  | f :: _ => P f

def BlockedOnJr (s : State) (t t' : ℕ) : Prop :=
  top Frame.entersJr (s.stack t) = true ∧ s.jr.owner = some t' ∧ t' ≠ t

def BlockedOnWc (s : State) (t t' : ℕ) : Prop :=
  top Frame.entersWc (s.stack t) = true ∧ s.wc.owner = some t' ∧ t' ≠ t

def Ordered (s : State) : Prop :=
  ∀ t, s.wc.owner = some t → top Frame.entersJr (s.stack t) = false

def RingShared (s : State) : ℕ × Act → Prop
  | (t, .go) => match s.stack t with
    | .ringRelease r :: _ => (s.rings r).refs ≠ 1
    | _ => True
  | _ => True

def Frame.lastRef : Frame → Bool
  | .ringEnter _ | .ringDetach _ => true
  | _ => false

structure StackOk (owns : Prop) (fs : List Frame) : Prop where
  owns_iff : owns ↔ top Frame.inWc fs = true
  below : ∀ f ∈ fs.tail, f.inWc = false
  shared : top Frame.lastRef fs = false

structure Inv (s : State) : Prop where
  stack : ∀ t, StackOk (s.wc.owner = some t) (s.stack t)
  depth : s.wc.owner ≠ none → s.wc.depth = 1
  free : s.wc.owner = none → s.wc.depth = 0

section Stacks

variable {owns : Prop} {f g : Frame} {fs new : List Frame}

theorem Frame.lastRef_of_not_inWc (h : f.inWc = false) : f.lastRef = false := by
  cases f <;> first | rfl | cases h

theorem top_of_forall {P : Frame → Bool} (h : ∀ f ∈ fs, P f = false) : top P fs = false := by
  cases fs with
  | nil => rfl
  | cons f fs => exact h f (List.mem_cons_self ..)

theorem StackOk.replace (h : StackOk owns (f :: fs)) (hin : g.inWc = f.inWc)
    (hg : g.lastRef = false) : StackOk owns (g :: fs) :=
  ⟨h.owns_iff.trans (by simp [top, hin]), h.below, hg⟩

theorem StackOk.all_free (h : StackOk owns fs) (hout : top Frame.inWc fs = false) :
    ∀ f ∈ fs, f.inWc = false := by
  cases fs with
  | nil => nofun
  | cons f fs => exact List.forall_mem_cons.mpr ⟨hout, h.below⟩

theorem StackOk.of_free (howns : ¬ owns) (hfree : ∀ f ∈ fs, f.inWc = false) : StackOk owns fs := by
  refine ⟨⟨fun h => absurd h howns, fun h => ?_⟩, fun f hf => ?_, ?_⟩
  · rw [top_of_forall hfree] at h
    cases h
  · exact hfree f (List.mem_of_mem_tail hf)
  · exact top_of_forall fun f hf => Frame.lastRef_of_not_inWc (hfree f hf)

theorem StackOk.not_owns (h : StackOk owns fs) (hout : top Frame.inWc fs = false) : ¬ owns := by
  simp [h.owns_iff, hout]

theorem StackOk.push (h : StackOk owns fs) (hout : top Frame.inWc fs = false)
    (hnew : ∀ f ∈ new, f.inWc = false) : StackOk owns (new ++ fs) :=
  .of_free (h.not_owns hout) (List.forall_mem_append.mpr ⟨hnew, h.all_free hout⟩)

theorem StackOk.pop (h : StackOk owns (f :: fs)) (hout : f.inWc = false) : StackOk owns fs :=
  .of_free (h.not_owns hout) h.below

theorem Op.frames_free (op : Op) : ∀ f ∈ op.frames, f.inWc = false := by
  cases op <;> simp [Op.frames, Frame.inWc]

end Stacks

section Steps

variable {s s' : State} {t k : ℕ} {f : Frame} {fs gs : List Frame} {l : ℕ × Act} {w : Guarded}

theorem Inv.next (h : Inv s) (hwc : s'.wc = s.wc) (hstack : s'.stack = Function.update s.stack t gs)
    (hgs : StackOk (s.wc.owner = some t) gs) : Inv s' := by
  refine ⟨fun t' => ?_, hwc ▸ h.depth, hwc ▸ h.free⟩
  rw [hwc, hstack]
  by_cases hne : t' = t
  · subst hne; simpa using hgs
  · simpa [hne] using h.stack t'

theorem proxyArmJournal_locks : (s.proxyArmJournal k).wc = s.wc ∧ (s.proxyArmJournal k).stack = s.stack := by
  unfold proxyArmJournal ctxRingAcquire
  split
  case isFalse => exact ⟨rfl, rfl⟩
  case isTrue =>
    cases (List.range ctxRingsMax).find? _ with
    | some r => exact ⟨rfl, rfl⟩
    | none =>
      cases (List.range ctxRingsMax).find? _ with
      | some r => exact ⟨rfl, rfl⟩
      | none => exact ⟨rfl, rfl⟩

theorem guarded_locks : (s.guarded w).1.wc = s.wc ∧ (s.guarded w).1.stack = s.stack := by
  cases w with
  | wrap k memory =>
    simp only [guarded]
    split_ifs
    · exact proxyArmJournal_locks
    · exact ⟨rfl, rfl⟩
    · exact proxyArmJournal_locks
    · exact ⟨rfl, rfl⟩
  | release k =>
    simp only [guarded]
    split_ifs <;> exact ⟨rfl, rfl⟩
  | _ => exact ⟨rfl, rfl⟩

theorem StackOk.congr {P Q : Prop} (h : StackOk P fs) (he : Q ↔ P) : StackOk Q fs :=
  ⟨he.trans h.owns_iff, h.below, h.shared⟩

variable (h : Inv s)
include h

theorem wcEnter_inv (hst : s.stack t = .wcEnter w :: fs)
    (hs : goStep s t fs (.wcEnter w) = some s') : Inv s' := by
  obtain ⟨wc, hwc, rfl⟩ := Option.map_eq_some_iff.mp hs
  have hstack := hst ▸ h.stack t
  have hfree : s.wc.owner = none := by
    by_contra hcon
    unfold enter at hwc
    rw [if_neg (not_or.mpr ⟨hcon, hstack.not_owns rfl⟩)] at hwc
    cases hwc
  have hnew : wc = ⟨some t, 1⟩ := by
    simpa [enter, hfree, h.free hfree, eq_comm] using hwc
  subst hnew
  refine ⟨fun t' => ?_, fun _ => rfl, nofun⟩
  by_cases hne : t' = t
  · subst hne
    simpa [setStack] using
      (⟨⟨fun _ => rfl, fun _ => trivial⟩, hstack.below, rfl⟩ : StackOk True (.wcBody w :: fs))
  · have hother := (h.stack t').congr (Q := False) (by simp [hfree])
    simpa [setStack, hne, Ne.symm hne] using hother

theorem wcLeave_inv (hst : s.stack t = .wcLeave :: fs) (hs : goStep s t fs .wcLeave = some s') : Inv s' := by
  cases hs
  have hstack := hst ▸ h.stack t
  have hown : s.wc.owner = some t := hstack.owns_iff.mpr rfl
  have hleave : s.wc.leave = ⟨none, 0⟩ := by
    simp [leave, h.depth (by simp [hown])]
  refine ⟨fun t' => ?_, fun hn => ?_, fun _ => ?_⟩
  · simp only [setStack, hleave]
    by_cases hne : t' = t
    · subst hne
      simpa using (StackOk.of_free id hstack.below : StackOk False fs)
    · have hother := (h.stack t').congr (Q := False) (by simp [hown, Ne.symm hne])
      simpa [hne] using hother
  · simp [setStack, hleave] at hn
  · simp [setStack, hleave]

theorem goStep_inv (hst : s.stack t = f :: fs) (hok : RingShared s (t, .go))
    (hs : goStep s t fs f = some s') : Inv s' := by
  have hstack := hst ▸ h.stack t
  cases f with
  | wcEnter w => exact wcEnter_inv h hst hs
  | wcBody w =>
    obtain ⟨hwc, hstk⟩ := guarded_locks
    simp only [goStep] at hs
    split at hs <;> cases hs
    all_goals
      rename_i hu
      rw [hu] at hwc hstk
      exact h.next hwc (congrArg (Function.update · t _) hstk) (hstack.replace rfl rfl)
  | ringRelease r =>
    cases hs
    have hne : ¬ (s.rings r).refs - 1 = 0 := by
      have : (s.rings r).refs ≠ 1 := by simpa [RingShared, hst] using hok
      omega
    rw [if_neg hne]
    exact h.next rfl rfl (hstack.replace rfl rfl)
  | ringEnter r | ringDetach r => cases hstack.shared
  | wcLeave => exact wcLeave_inv h hst hs
  | drainTest r | offTest =>
    cases hs
    exact h.next rfl rfl (hstack.replace rfl rfl)
  | drainEnter r | offEnter =>
    obtain ⟨-, -, rfl⟩ := Option.map_eq_some_iff.mp hs
    exact h.next rfl rfl (hstack.replace rfl rfl)
  | drainCheck r =>
    simp only [goStep] at hs
    split at hs <;> cases hs <;>
      exact h.next rfl rfl (hstack.replace rfl rfl)
  | drainLeave =>
    cases hs
    exact h.next rfl rfl (hstack.pop rfl)
  | offLoop i =>
    simp only [goStep] at hs
    split_ifs at hs <;> cases hs
    · exact h.next rfl rfl (hstack.replace rfl rfl)
    · have hloop : StackOk (s.wc.owner = some t) (.offLoop (i + 1) :: fs) :=
        hstack.replace rfl rfl
      exact h.next rfl rfl (.of_free (hloop.not_owns rfl)
        (List.forall_mem_cons.mpr ⟨rfl, hloop.all_free rfl⟩))
    · exact h.next rfl rfl (hstack.replace rfl rfl)
  | replay r => cases hs

theorem doneStep_inv (hst : s.stack t = f :: fs) (hs : doneStep s t fs f = some s') : Inv s' := by
  have hstack := hst ▸ h.stack t
  unfold doneStep at hs
  split at hs
  case h_1 =>
    cases hs
    exact h.next rfl rfl (hstack.pop rfl)
  case h_2 =>
    cases hs
    exact h.next rfl rfl (hstack.replace rfl rfl)
  case h_3 =>
    split at hs <;> cases hs
    exact h.next rfl rfl (hstack.pop rfl)
  case h_4 =>
    split at hs <;> cases hs
    exact h.next rfl rfl (hstack.replace rfl rfl)
  case h_5 => cases hs

theorem callStep_inv {op : Op} (hs : callStep s t op (s.stack t) = some s') : Inv s' := by
  have hstack := h.stack t
  cases hst : s.stack t with
  | nil =>
    rw [hst] at hs hstack
    cases hs
    exact h.next rfl rfl (.of_free (hstack.not_owns rfl) op.frames_free)
  | cons f fs =>
    rw [hst] at hs hstack
    cases f with
    | replay r =>
      cases hs
      exact h.next rfl rfl (hstack.push rfl op.frames_free)
    | _ => cases hs

theorem step_inv (hok : RingShared s l) (hs : step s l = some s') : Inv s' := by
  obtain ⟨t, a⟩ := l
  cases a with
  | call op => exact callStep_inv h hs
  | go =>
    simp only [step] at hs
    split at hs
    case h_1 f fs hst => exact goStep_inv h hst hok hs
    case h_2 => cases hs
  | done =>
    simp only [step] at hs
    split at hs
    case h_1 f fs hst => exact doneStep_inv h hst hs
    case h_2 => cases hs

theorem Inv.ordered : Ordered s := by
  intro t hown
  have hstack := h.stack t
  have htop := hstack.owns_iff.mp hown
  cases hst : s.stack t with
  | nil => rfl
  | cons f fs =>
    have hshared := hstack.shared
    cases f <;> simp_all [top, Frame.inWc, Frame.lastRef, Frame.entersJr]

theorem step_disordered (hs : step s l = some s') (hlast : ¬ RingShared s l) : ¬ Ordered s' := by
  obtain ⟨t, a⟩ := l
  cases a with
  | go =>
    simp only [RingShared] at hlast
    split at hlast
    case h_2 => exact absurd trivial hlast
    case h_1 r fs hst =>
      have hrefs : (s.rings r).refs = 1 := not_not.mp hlast
      have hs' : s' = (s.setRing r { s.rings r with refs := (s.rings r).refs - 1 }).setStack t
          (.ringEnter r :: fs) := by
        simpa [step, hst, goStep, hrefs, eq_comm] using hs
      subst hs'
      intro hord
      have hown : s.wc.owner = some t := (hst ▸ h.stack t).owns_iff.mpr rfl
      have := hord t hown
      simp [setStack, top, Frame.entersJr] at this
  | _ => exact absurd trivial hlast

end Steps

structure AtRest (s : State) : Prop where
  stack : ∀ t, s.stack t = []
  owner : s.wc.owner = none
  depth : s.wc.depth = 0

theorem AtRest.inv {s : State} (h : AtRest s) : Inv s := by
  refine ⟨fun t => ?_, absurd h.owner, fun _ => h.depth⟩
  rw [h.stack]
  exact .of_free (by simp [h.owner]) nofun

/-- No thread waits for `jr_cs` inside `wc_cs` while no release there drops the last one of a ring. -/
theorem jrCs_before_wcCs {s₀ s : State} (h₀ : AtRest s₀) (h : Reaches step RingShared s₀ s) :
    (∀ t t', s.wc.owner = some t → ¬ BlockedOnJr s t t') ∧
    (¬ ∃ t t', BlockedOnJr s t t' ∧ BlockedOnWc s t' t) ∧
    ∀ l s', step s l = some s' → (RingShared s l ↔ Ordered s') := by
  have hinv : Inv s := h.invariant h₀.inv fun _ _ _ hok hs hinv => step_inv hinv hok hs
  have hblocked : ∀ t t', s.wc.owner = some t → ¬ BlockedOnJr s t t' := by
    intro t t' hown hblock
    have := hinv.ordered t hown
    simp [hblock.1] at this
  refine ⟨hblocked, ?_, fun l s' hs => ⟨fun hok => (step_inv hinv hok hs).ordered, fun hord => ?_⟩⟩
  · rintro ⟨t, t', hjr, hwc⟩
    exact hblocked t t' hwc.2.1 hjr
  · by_contra hlast
    exact step_disordered hinv hs hlast hord

namespace Deadlock

def fresh : State :=
  { wc := ⟨none, 0⟩, jr := ⟨none, 0⟩, journalOff := false
    proxies := fun k => ⟨k, decide (k < 2), false, 0, none⟩
    rings := fun _ => ⟨none, 0, false⟩, stack := fun _ => [] }

/-- Each thread wraps a context of its own; thread 1 replays its ring; thread 0 releases its
context; a record that thread 1 replays hands out an object. -/
def trace : List (ℕ × Act) :=
  [(0, .call (.wrap 0 true)), (0, .go), (0, .go), (0, .go),
    (1, .call (.wrap 1 true)), (1, .go), (1, .go), (1, .go),
    (1, .call (.drain 1)), (1, .go), (1, .go), (1, .go),
    (0, .call (.release 0)), (0, .go), (0, .go), (0, .go),
    (1, .call (.wrap 2 true))]

theorem jrCs_wcCs_deadlock : ∃ s, run step fresh trace = some s ∧
    BlockedOnJr s 0 1 ∧ BlockedOnWc s 1 0 ∧ step s (0, .go) = none ∧ step s (1, .go) = none :=
  ⟨_, rfl, ⟨rfl, rfl, by decide⟩, ⟨rfl, rfl, by decide⟩, rfl, rfl⟩

def shared : State := { fresh with proxies := fun _ => ⟨0, true, false, 0, none⟩ }

def sharing : List (ℕ × Act) :=
  [(0, .call (.wrap 0 true)), (0, .go), (0, .go), (0, .go),
    (1, .call (.wrap 1 true)), (1, .go), (1, .go), (1, .go),
    (1, .call (.drain 0)), (1, .go), (1, .go), (1, .go),
    (0, .call (.release 0)), (0, .go), (0, .go), (0, .go),
    (1, .call (.wrap 2 true))]

instance (s : State) (l : ℕ × Act) : Decidable (RingShared s l) := by
  unfold RingShared
  split
  · split <;> infer_instance
  · infer_instance

theorem shared_atRest : AtRest shared := ⟨fun _ => rfl, rfl, rfl⟩

theorem sharing_ok : okRun step (fun s l => decide (RingShared s l)) shared sharing = true := by
  decide +kernel

theorem jrCs_before_wcCs_sharedRing : ∃ s, run step shared sharing = some s ∧
    s.wc.owner = some 0 ∧ s.jr.owner = some 1 ∧
      ¬ ∃ t t', BlockedOnJr s t t' ∧ BlockedOnWc s t' t := by
  refine ⟨_, rfl, rfl, rfl, (jrCs_before_wcCs shared_atRest ?_).2.1⟩
  exact reaches_of_okRun (fun _ _ h => of_decide_eq_true h) sharing_ok rfl

end Deadlock

end WinePpc64.Com.Locks
