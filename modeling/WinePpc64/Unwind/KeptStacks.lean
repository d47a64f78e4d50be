import WinePpc64.Unwind.ResumeContext

namespace WinePpc64.Unwind

open List Walk

variable {Ctx : Type} (g : Guest Ctx)

/-- The handler of the frame, before `guest_kept_run_stack` is swept. -/
def Walk.handlerEnd (w : Walk Ctx) : Option Disposition × Walk Ctx :=
  match w.dispatch.languageHandler with
  | .absent => (none, w)
  | .cSpecific table => ((guestCSpecificHandler g w table).1, (guestCSpecificHandler g w table).2)
  | .guest address => ((callGuestLanguageHandler g w address).1, (callGuestLanguageHandler g w address).2)

def carried : Option Disposition → List RunStack
  | some (.executeHandler again) => again.keptStack.toList
  | _ => []

/-- The stacks that come to the walk in this turn: the one that is swept and the one a request carries. -/
def Walk.handed (w : Walk Ctx) : List RunStack :=
  match w.blocked g with
  | some _ => []
  | none => carried (w.markTarget.handlerEnd g).1 ++ (w.markTarget.handlerEnd g).2.keptRun.toList

def Walk.refused (w : Walk Ctx) : Option Disposition → List RunStack
  | some (.executeHandler again) => if (w.refuses again).isSome then again.keptStack.toList else []
  | _ => []

def Walk.dropped (w : Walk Ctx) : List RunStack :=
  match w.blocked g with
  | some _ => []
  | none => (w.markTarget.enterHandler g).2.refused (w.markTarget.enterHandler g).1

def Walk.held (w : Walk Ctx) : List RunStack := w.keptStacks ++ w.freed

variable {g} {w w' : Walk Ctx} {n : ℕ} {k : Option RunStack}

@[simp] theorem keep_keptRun (w : Walk Ctx) (k : Option RunStack) : (w.keep k).keptRun = w.keptRun := by
  cases k <;> simp only [keep]; split_ifs <;> rfl

def SameStacks (w w' : Walk Ctx) : Prop := w'.keptStacks = w.keptStacks ∧ w'.freed = w.freed

theorem SameStacks.held (h : SameStacks w w') : w'.held = w.held := by
  rw [Walk.held, h.1, h.2, Walk.held]

variable (hrun : w.keptRun = none)
include hrun

omit hrun

def Room (w : Walk Ctx) (n : ℕ) : Prop := w.freed = [] ∧ w.keptStacks.length ≤ n

theorem Room.same (h : Room w n) (hw : SameStacks w w') : Room w' n :=
  ⟨hw.2.trans h.1, hw.1 ▸ h.2⟩

theorem Room.keep (h : Room w n) (hn : k = none ∨ n < guestSehMaxFrames) :
    Room (w.keep k) (n + k.toList.length) := by
  cases k with
  | none => exact h
  | some k =>
    rw [Walk.keep, if_pos (h.2.trans_lt (hn.resolve_left (by simp)))]
    exact ⟨h.1, Nat.succ_le_succ h.2⟩

namespace Below

def guest (frame : Addr) : Guest ℕ where
  virtualUnwind c := .ok (⟨0x401000, 0x400000, true, 0x2000 * (c + 1), if c = 0 then .guest 0x402000 else .absent⟩, c + 1)
  skipFrame _ c := c + 1
  validFrame _ := true
  guestModule _ := true
  onUnwoundStack _ := true
  onRunStack _ := false
  funclet _ _ _ := .returned
  handler events _ c d :=
    if events.length = 1 then .unwind ⟨frame, 0x403000, 0, 0, none, ⟨0xc0000027, 0⟩⟩ (some 7) d c else .returned 1 d c
  consolidate _ _ := .ok 0
  withRax c _ := c
  withRip c _ := c

def goal : UnwindTarget := ⟨0x6000, 0x404000, 0, 0, some 5, ⟨0xc0000027, 0⟩⟩

end Below

end WinePpc64.Unwind
