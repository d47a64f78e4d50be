import WinePpc64.Unwind.FinallyOnce

namespace WinePpc64.Unwind

open Walk

variable {Ctx : Type} {g : Guest Ctx} {f : FrameInfo}

def Precedes (p q : Addr × ℕ) : Prop := p.1 < q.1 ∨ p.1 = q.1 ∧ p.2 < q.2

theorem Precedes.ne {p q : Addr × ℕ} (h : Precedes p q) : p ≠ q := by
  rintro rfl
  rcases h with h | ⟨_, h⟩
  · exact BitVec.lt_irrefl _ h
  · exact lt_irrefl _ h

theorem mem_all {p : Addr × ℕ} (h : p ∈ f.all) : p.1 = f.establisherFrame := by
  obtain ⟨_, _, rfl⟩ := List.mem_map.mp h
  rfl

theorem all_ordered : f.all.Pairwise Precedes :=
  (terminations_sorted f).map _ fun _ _ h => .inr ⟨rfl, h⟩

variable {frames : List FrameInfo} {w : Walk Ctx}

theorem flatMap_all_ordered (h : frames.Pairwise fun a b => a.establisherFrame < b.establisherFrame) :
    (frames.flatMap FrameInfo.all).Pairwise Precedes := by
  refine List.pairwise_flatMap.mpr ⟨fun f _ => all_ordered, h.imp fun {a b} hab => ?_⟩
  intro p hp q hq
  rw [← mem_all hp, ← mem_all hq] at hab
  exact .inl hab

theorem finish_events {status : Status} : (w.finish g status).events = w.events := by
  unfold finish
  dsimp only
  repeat' split
  all_goals rfl

theorem finish_want {status : Status} : (w.finish g status).want = w.want := by
  unfold finish
  dsimp only
  repeat' split
  all_goals rfl

theorem finish_success {status : Status} (h : (w.finish g status).status = .success) : status = .success := by
  by_contra hne
  rw [finish, if_pos hne] at h
  exact hne h

theorem startWalk_at {c : Ctx} (target : UnwindTarget)
    (start : Ctx) (rsp : Addr) (h : IsStack g c frames) :
    At g (f :: frames) ((startWalk target start rsp).stepOver f c) [] f frames where
  split := rfl
  context := h
  pc := rfl
  base := rfl
  frame := rfl
  handler := rfl
  ip := rfl
  scope := rfl
  ran := by simp [startWalk, Walk.stepOver, FrameInfo.tag]
  fresh := fun _ _ => rfl

theorem guestUnwindToTarget_stopped {start : Ctx}
    (hc : CSpecificStack g start frames) {target : UnwindTarget} {rsp : Addr} :
    ∃ r : Status × Walk Ctx, guestUnwindToTarget g target start rsp = r.2.finish g r.1 ∧ Stopped frames r := by
  have hnil : (entered (startWalk target start rsp).events).Sublist
      (frames.flatMap FrameInfo.all) := List.nil_sublist _
  cases hc.stack with
  | bottom hbottom =>
    rcases advance_bottom (w := startWalk target start rsp) guestSehMaxFrames hbottom with
      ⟨e, hadv⟩ | ⟨w, hadv, hev, hloop⟩
    · refine ⟨(.failed e, startWalk target start rsp), ?_, .of_error (by simp) hnil⟩
      rw [guestUnwindToTarget, hadv]
    · refine ⟨(.badStack, w), ?_, .of_error (by simp) (by simpa [hev] using hnil)⟩
      rw [guestUnwindToTarget, hadv]
      simp only [hloop]
  | frame hx hstack =>
    refine ⟨_, ?_, unwindLoop_stopped hc guestSehMaxFrames
      (startWalk_at target start rsp hstack)⟩
    rw [guestUnwindToTarget, advance, show (startWalk target start rsp).context = start from rfl, hx]

/-- Whatever the `__finally` funclets do, none is entered twice, and they are in stack order. -/
theorem guestUnwindToTarget_finally_once {frames : List FrameInfo} {start : Ctx}
    (hc : CSpecificStack g start frames) (target : UnwindTarget) (rsp : Addr) :
    let o := guestUnwindToTarget g target start rsp
    (entered o.events).Nodup ∧ (entered o.events).Pairwise Precedes ∧
      (o.status = .success → ∃ below f above, frames = below ++ f :: above ∧
        f.establisherFrame = o.want.frame ∧
        entered o.events = below.flatMap FrameInfo.all ++
          f.owed (resumeIndex f.establisherFrame o.events) o.want.targetIp) := by
  obtain ⟨r, hr, hstopped⟩ := guestUnwindToTarget_stopped hc
  dsimp only
  rw [hr, finish_events, finish_want]
  have hordered := (flatMap_all_ordered hc.sorted).sublist hstopped.order
  exact ⟨hordered.imp Precedes.ne, hordered, fun h => hstopped.success (finish_success h)⟩

namespace Collision

def stackGuest (funclet : List Event → Addr → ℕ → FuncletEnd) : Guest (List FrameInfo) where
  virtualUnwind
    | [] => .error 0xc0000028
    | f :: fs => .ok (f, fs)
  skipFrame := fun _ c => c
  validFrame := fun _ => true
  guestModule := fun _ => true
  onUnwoundStack := fun _ => true
  onRunStack := fun _ => false
  funclet := funclet
  handler := fun _ _ c d => .returned 1 d c
  consolidate := fun _ _ => .error 0
  withRax := fun c _ => c
  withRip := fun c _ => c

def base : Addr := 0x140000000

def frame (establisher : Addr) (scopes : List ScopeRecord) : FrameInfo :=
  ⟨base + 0x1050, base, true, establisher, .cSpecific (some scopes)⟩

def inner : FrameInfo :=
  frame 0x1000 [⟨0x1000, 0x1100, 0x2000, 0⟩, ⟨0x1000, 0x1200, 0x2100, 0⟩]

def outer : FrameInfo := frame 0x3000 [⟨0x1000, 0x1100, 0x2200, 0⟩]

def goal (frame ip : Addr) : UnwindTarget := ⟨frame, ip, 0, 0, none, ⟨0xc0000027, 0⟩⟩

def backIntoTry : Guest (List FrameInfo) := stackGuest fun _ _ index =>
  if index = 1 then .unwind (goal 0x1000 (base + 0x1060)) none else .returned

variable (funclet : List Event → Addr → ℕ → FuncletEnd)

theorem isStack {frames : List FrameInfo} : IsStack (stackGuest funclet) frames frames := by
  induction frames with
  | nil => exact .bottom fun _ _ h => by cases h
  | cons f fs ih => exact .frame rfl ih

theorem cSpecificStack : CSpecificStack (stackGuest funclet) [inner, outer] [inner, outer] where
  stack := isStack funclet
  sorted := by decide
  valid := by
    intro f hf
    rcases List.mem_pair.mp hf with rfl | rfl
    · exact ⟨by decide, rfl⟩
    · exact ⟨by decide, rfl⟩
  handlers := by
    intro f hf
    rcases List.mem_pair.mp hf with rfl | rfl
    · exact ⟨_, rfl⟩
    · exact ⟨_, rfl⟩

theorem guestUnwindToTarget_finally_once_backIntoTry :
    (entered (guestUnwindToTarget backIntoTry (goal 0x3000 (base + 0x1300)) [inner, outer]
      0xf00).events).Nodup ∧
    (guestUnwindToTarget backIntoTry (goal 0x3000 (base + 0x1300)) [inner, outer] 0xf00).status =
      .success :=
  ⟨(guestUnwindToTarget_finally_once (cSpecificStack _) _ _).1, by decide +kernel⟩

theorem guestUnwindToTarget_enters_past_targetIp :
    let o := guestUnwindToTarget backIntoTry (goal 0x3000 (base + 0x1300)) [inner, outer] 0xf00
    CSpecificStack backIntoTry [inner, outer] [inner, outer] ∧ o.status = .success ∧
      o.want.frame = inner.establisherFrame ∧
      entered o.events = [(inner.establisherFrame, 0), (inner.establisherFrame, 1)] ∧
      inner.owed 0 o.want.targetIp = [] :=
  ⟨cSpecificStack _, by decide +kernel⟩

end Collision

end WinePpc64.Unwind
