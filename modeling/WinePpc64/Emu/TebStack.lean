import WinePpc64.Lib.Runs

namespace WinePpc64.Emu

open Lib

structure TebStack where
  base : ℕ
  limit : ℕ
  dealloc : ℕ
  deriving DecidableEq, Repr

def TebStack.lower (stack : TebStack) (limit : ℕ) : TebStack :=
  { stack with limit := min stack.limit limit }

namespace Teb

/-- Where a run of guest code is: in the bridge, in a full trap out of it, or behind the bridge's
return, where its fault is handled and where it ends. -/
inductive Phase
  | guest
  | trap
  | stopped
  deriving DecidableEq, Repr

/-- One activation of `emu_run_loop`: its locals `native_saved` and `prev_teb_stack`, and the stack its
guest code is on, at the lowest limit it has had there. -/
structure Run where
  saved : TebStack
  prev : TebStack
  phase : Phase
  own : TebStack
  deriving DecidableEq, Repr

/-- One thread: its TEB, `emu_native_teb_stack` and `emu_guest_teb_stack`, the runs it is in, innermost
first, and its native stack at the lowest limit it has had. -/
structure State where
  teb : TebStack
  native : TebStack
  guest : TebStack
  runs : List Run
  ownNative : TebStack
  deriving DecidableEq, Repr

def State.init (stack : TebStack) : State := ⟨stack, ⟨0, 0, 0⟩, ⟨0, 0, 0⟩, [], stack⟩

def emuTebStackInstall (teb stack : TebStack) : TebStack := if stack.base = 0 then teb else stack

def emuCaptureNativeTebStack (s : State) : State :=
  if s.native.base ≠ 0 then s else { s with native := s.teb }

def growThreadStack (hostPage guaranteed page : ℕ) (teb : TebStack) : TebStack :=
  if teb.dealloc + hostPage + guaranteed ≤ page then { teb with limit := page }
  else { teb with limit := teb.dealloc + hostPage }

def fiberStack (base limit dealloc : ℕ) : TebStack :=
  ⟨base, limit, if dealloc = 0 then limit else dealloc⟩

inductive Act
  /-- `unixcall_emu_run_entry`, with the stack `virtual_alloc_thread_stack` gives. -/
  | enter (stack : Option TebStack)
  | trap
  /-- `unixcall_emu_fiber_stack` with `EMU_FIBER_SET_STACK`. -/
  | fiber (base limit dealloc : ℕ)
  | trapReturn
  | stop
  | resume
  | exit
  | grow (hostPage guaranteed page : ℕ)
  deriving DecidableEq, Repr

def State.owner (s : State) : TebStack :=
  match s.runs with
  | [] => s.ownNative
  | r :: _ => if r.phase = .guest then r.own else s.ownNative

def State.lowerOwner (s : State) (limit : ℕ) : State :=
  match s.runs with
  | [] => { s with ownNative := s.ownNative.lower limit }
  | r :: runs =>
    if r.phase = .guest then { s with runs := { r with own := r.own.lower limit } :: runs }
    else { s with ownNative := s.ownNative.lower limit }

def State.onNative (s : State) : Bool :=
  match s.runs with
  | [] => true
  | r :: _ => r.phase ≠ .guest

def enterRun (s : State) (stack : TebStack) : State :=
  { s with
    teb := emuTebStackInstall s.teb stack
    guest := stack
    runs := ⟨s.teb, s.guest, .guest, stack⟩ :: s.runs }

def State.inPhase (s : State) (p : Phase) (f : Run → List Run → State) : Option State :=
  match s.runs with
  | [] => none
  | r :: runs => if r.phase = p then some (f r runs) else none

def step (s : State) : Act → Option State
  | .enter none => if s.onNative then some (emuCaptureNativeTebStack s) else none
  | .enter (some stack) => if s.onNative then some (enterRun (emuCaptureNativeTebStack s) stack) else none
  | .trap => s.inPhase .guest fun r runs =>
    { s with teb := emuTebStackInstall s.teb s.native, runs := { r with phase := .trap } :: runs }
  | .fiber base limit dealloc => s.inPhase .trap fun r runs =>
    if base = 0 ∨ limit = 0 then s
    else
      { s with
        guest := fiberStack base limit dealloc
        runs := { r with own := fiberStack base limit dealloc } :: runs }
  | .trapReturn => s.inPhase .trap fun r runs =>
    { s with teb := emuTebStackInstall s.teb s.guest, runs := { r with phase := .guest } :: runs }
  | .stop => s.inPhase .guest fun r runs =>
    { s with
      teb := emuTebStackInstall s.teb r.saved
      guest := s.teb
      runs := { r with phase := .stopped } :: runs }
  | .resume => s.inPhase .stopped fun r runs =>
    { s with
      teb := emuTebStackInstall s.teb s.guest
      runs := { r with saved := s.teb, phase := .guest } :: runs }
  | .exit => s.inPhase .stopped fun r runs => { s with guest := r.prev, runs := runs }
  | .grow hostPage guaranteed page =>
    let teb := growThreadStack hostPage guaranteed page s.teb
    some ({ s with teb := teb }.lowerOwner teb.limit)

def Valid (s : State) : Act → Prop
  | .enter (some stack) => stack.base ≠ 0
  | .grow hostPage guaranteed page => (growThreadStack hostPage guaranteed page s.teb).limit ≤ s.teb.limit
  | _ => True

instance : ∀ s a, Decidable (Valid s a)
  | _, .enter (some stack) => inferInstanceAs (Decidable (stack.base ≠ 0))
  | s, .grow hostPage guaranteed page => inferInstanceAs
      (Decidable ((growThreadStack hostPage guaranteed page s.teb).limit ≤ s.teb.limit))
  | _, .enter none | _, .trap | _, .fiber .. | _, .trapReturn | _, .stop | _, .resume | _, .exit =>
    .isTrue trivial

end Teb

end WinePpc64.Emu
