import WinePpc64.Lib.Runs

namespace WinePpc64.Emu.Ctx

open Lib

abbrev Word := BitVec 64

abbrev File := Fin 18 → Word

inductive GuestState
  | none
  | running
  | trap
  | fault
  | ended
  deriving DecidableEq, Repr

/-- Where an activation of `emu_run_loop` is: on its way into the bridge for the first time, in it, in
a trap with the trap's frame, behind the trap, behind the bridge's return, on its way into the bridge
again, and restoring what its caller had published. -/
inductive Phase
  | entering
  | guest
  | trap
  | returning
  | stopped
  | resuming
  | leaving
  deriving DecidableEq, Repr

/-- One activation, with the frame of the trap it is in, its locals `prev_guest_state`,
`prev_guest_ptr` and `prev_guest_ctx`, and the registers of its guest's most recent stop. -/
structure Run where
  phase : Phase
  frame : Option (ℕ × File)
  prevState : GuestState
  prevPtr : Option ℕ
  prevCtx : File
  last : Option File

/-- A publication on its way: the words of `emu_guest_ctx` still to be stored, then
`emu_guest_ctx_ptr` if it stores one, then the state; `leave` if it is the last thing a run does. -/
structure Publication where
  words : List (Fin 18 × Word)
  ptr : Option (Option ℕ)
  label : GuestState
  leave : Bool

structure State where
  state : GuestState
  ptr : Option ℕ
  buf : File
  runs : List Run
  pending : Option Publication
  fresh : ℕ

def State.init : State := ⟨.none, none, fun _ => 0, [], none, 0⟩

structure Env where
  noDbgCtx : Bool
  order : List (Fin 18)

def publishCopy (e : Env) (file : File) (label : GuestState) (leave : Bool) : Publication :=
  ⟨e.order.map fun i => (i, file i), none, label, leave⟩

def publishPtr (ptr : Option ℕ) (leave : Bool) : Publication := ⟨[], some ptr, .trap, leave⟩

def publishPrev (e : Env) (r : Run) : Publication :=
  if r.prevState = .trap then publishPtr r.prevPtr true else publishCopy e r.prevCtx r.prevState true

def emuPublish (e : Env) (p : Publication) : Option Publication := if e.noDbgCtx then none else some p

inductive Act
  | store
  | enter (ctx : File)
  | start
  | restart
  /-- The guest traps, with its registers in a frame of the bridge. -/
  | trap (ctx : File)
  /-- The dispatcher stores a word to the frame. -/
  | edit (i : Fin 18) (v : Word)
  | trapReturn
  | leaveTrap
  /-- The bridge returns with this context. -/
  | stop (ctx : File) (fault : Bool)
  /-- A handled fault: the bridge is to be entered again with the edited context. -/
  | resume (ctx : File)
  /-- The run ends, on `STATUS_EMU_GUEST_EXCEPTION` or otherwise. -/
  | exit (exception : Bool)

def State.inPhase (s : State) (p : Phase) (f : Run → List Run → State) : Option State :=
  match s.runs with
  | [] => none
  | r :: runs => if r.phase = p ∧ s.pending.isNone then some (f r runs) else none

def State.mayEnter (s : State) : Bool :=
  s.pending.isNone && match s.runs with
    | [] => true
    | r :: _ => r.phase = .trap || r.phase = .stopped

def storeNext (s : State) (p : Publication) : State :=
  match p.words, p.ptr with
  | (i, v) :: words, _ =>
    { s with buf := Function.update s.buf i v, pending := some { p with words := words } }
  | [], some ptr => { s with ptr := ptr, pending := some { p with ptr := none } }
  | [], none =>
    { s with state := p.label, runs := if p.leave then s.runs.tail else s.runs, pending := none }

def step (e : Env) (s : State) : Act → Option State
  | .store => s.pending.map (storeNext s)
  | .enter ctx =>
    if s.mayEnter then
      some { s with
        runs := ⟨.entering, none, s.state, s.ptr, s.buf, none⟩ :: s.runs
        pending := emuPublish e (publishCopy e ctx .running false) }
    else none
  | .start => s.inPhase .entering fun r runs => { s with runs := { r with phase := .guest } :: runs }
  | .restart => s.inPhase .resuming fun r runs => { s with runs := { r with phase := .guest } :: runs }
  | .trap ctx => s.inPhase .guest fun r runs =>
    { s with
      runs := { r with phase := .trap, frame := some (s.fresh, ctx), last := some ctx } :: runs
      pending := emuPublish e (publishPtr (some s.fresh) false)
      fresh := s.fresh + 1 }
  | .edit i v => s.inPhase .trap fun r runs =>
    { s with runs := { r with frame := r.frame.map fun f => (f.1, Function.update f.2 i v) } :: runs }
  | .trapReturn => s.inPhase .trap fun r runs =>
    { s with
      runs := { r with phase := .returning } :: runs
      pending := emuPublish e ⟨[], none, .running, false⟩ }
  | .leaveTrap => s.inPhase .returning fun r runs =>
    { s with runs := { r with phase := .guest, frame := none } :: runs }
  | .stop ctx fault => s.inPhase .guest fun r runs =>
    { s with
      runs := { r with phase := .stopped, last := some ctx } :: runs
      pending := emuPublish e (publishCopy e ctx (if fault then .fault else .ended) false) }
  | .resume ctx => s.inPhase .stopped fun r runs =>
    { s with
      runs := { r with phase := .resuming } :: runs
      pending := emuPublish e (publishCopy e ctx .running false) }
  | .exit exception => s.inPhase .stopped fun r runs =>
    if exception ∨ e.noDbgCtx then { s with runs := runs }
    else
      { s with
        runs := { r with phase := .leaving } :: runs
        pending := some (publishPrev e r) }

inductive Answer
  | refused
  | file (f : File)
  | dangling

def frameAt (runs : List Run) (id : ℕ) : Option File :=
  ((runs.filterMap Run.frame).find? fun x => x.1 = id).map Prod.snd

def emuGetGuestContext (s : State) : Answer :=
  match s.state with
  | .trap => match s.ptr with
    | none => .refused
    | some id => match frameAt s.runs id with
      | none => .dangling
      | some f => .file f
  | .fault | .ended => .file s.buf
  | .none | .running => .refused

def State.live (s : State) : Option Run :=
  match s.runs with
  | [] => none
  | r :: runs => if r.phase = .entering then runs.head? else some r

def State.lastStop (s : State) : Option File := s.live.bind Run.last

def Exact (s : State) : Prop :=
  emuGetGuestContext s = .refused ∨ ∃ f, emuGetGuestContext s = .file f ∧ s.lastStop = some f

end WinePpc64.Emu.Ctx
