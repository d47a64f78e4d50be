import Mathlib

namespace WinePpc64.Unwind

abbrev Addr := BitVec 64
abbrev RunStack := ℕ

def exceptionUnwinding : BitVec 32 := 0x02
def exceptionExitUnwind : BitVec 32 := 0x04
def exceptionTargetUnwind : BitVec 32 := 0x20
def exceptionCollidedUnwind : BitVec 32 := 0x40
def statusUnwindConsolidate : BitVec 32 := 0x80000029
def guestSehMaxFrames : ℕ := 256

inductive Status
  | success | badStack | invalidUnwindTarget | notImplemented | invalidDisposition
  | failed (code : BitVec 32)
  deriving DecidableEq, Repr

structure ExceptionRecord where
  code : BitVec 32
  flags : BitVec 32
  deriving DecidableEq, Repr

structure UnwindTarget where
  frame : Addr
  targetIp : Addr
  returnValue : Addr
  contextOut : Addr
  keptStack : Option RunStack
  record : ExceptionRecord
  deriving DecidableEq, Repr

structure ScopeRecord where
  beginAddress : BitVec 32
  endAddress : BitVec 32
  handlerAddress : BitVec 32
  jumpTarget : BitVec 32
  deriving DecidableEq, Repr

inductive LanguageHandler
  | absent
  | cSpecific (table : Option (List ScopeRecord))
  | guest (address : Addr)
  deriving DecidableEq, Repr

inductive ContextRecord (Ctx : Type)
  | null | result | other (c : Ctx)

structure Dispatcher (Ctx : Type) where
  controlPc : Addr
  imageBase : Addr
  functionEntry : Bool
  establisherFrame : Addr
  targetIp : Addr
  languageHandler : LanguageHandler
  scopeIndex : ℕ
  contextRecord : ContextRecord Ctx

structure FrameInfo where
  controlPc : Addr
  imageBase : Addr
  functionEntry : Bool
  establisherFrame : Addr
  languageHandler : LanguageHandler
  deriving DecidableEq, Repr

inductive Event
  | scope (frame : Addr) (index : ℕ) (collided : Bool)
  | handler (frame : Addr)
  deriving DecidableEq, Repr

inductive FuncletEnd
  | returned
  | unwind (target : UnwindTarget) (kept : Option RunStack)

inductive Disposition
  | continueExecution | continueSearch | collidedUnwind
  | executeHandler (again : UnwindTarget)
  | refused
  | other (d : BitVec 32)

inductive HandlerEnd (Ctx : Type)
  | returned (d : BitVec 32) (dispatch : Dispatcher Ctx) (result : Ctx)
  | unwind (target : UnwindTarget) (kept : Option RunStack) (dispatch : Dispatcher Ctx) (result : Ctx)

structure Guest (Ctx : Type) where
  virtualUnwind : Ctx → Except (BitVec 32) (FrameInfo × Ctx)
  skipFrame : Dispatcher Ctx → Ctx → Ctx
  validFrame : Addr → Bool
  guestModule : Addr → Bool
  onUnwoundStack : Addr → Bool
  onRunStack : Addr → Bool
  funclet : List Event → Addr → ℕ → FuncletEnd
  handler : List Event → ExceptionRecord → Ctx → Dispatcher Ctx → HandlerEnd Ctx
  consolidate : ExceptionRecord → Ctx → Except (BitVec 32) Addr
  withRax : Ctx → Addr → Ctx
  withRip : Ctx → Addr → Ctx

structure Walk (Ctx : Type) where
  want : UnwindTarget
  unwindRec : ExceptionRecord
  dispatch : Dispatcher Ctx
  context : Ctx
  result : Ctx
  collidedFrame : Addr
  collidedScope : ℕ
  keptStacks : List RunStack
  keptRun : Option RunStack
  freed : List RunStack
  events : List Event

variable {Ctx : Type}

def ScopeRecord.covers (s : ScopeRecord) (base ip : Addr) : Bool :=
  base + s.beginAddress.setWidth 64 ≤ ip && ip < base + s.endAddress.setWidth 64

def dispositionOf (d : BitVec 32) : Disposition :=
  if d = 0 then .continueExecution
  else if d = 1 then .continueSearch
  else if d = 3 then .collidedUnwind
  else if d = 0xdead0001 then .executeHandler ⟨0, 0, 0, 0, none, ⟨0, 0⟩⟩
  else if d = 0xdead0002 then .refused
  else .other d

/-- The road a `__finally` funclet's own RtlUnwindEx takes: a frame on the stack being torn down is
a collided unwind, any other is served inside the funclet's run. -/
def guestRequestUnwind (g : Guest Ctx) (target : UnwindTarget) : Option UnwindTarget :=
  if g.onUnwoundStack target.frame then
    some (if g.onRunStack target.contextOut then { target with contextOut := 0 } else target)
  else none

structure ScopeRun where
  scopeIndex : ℕ
  events : List Event
  kept : Option RunStack
  again : Option UnwindTarget

def runTerminations (g : Guest Ctx) (rec : ExceptionRecord) (d : Dispatcher Ctx) :
    ℕ → List ScopeRecord → ScopeRun → ScopeRun
  | _, [], r => r
  | i, s :: rest, r =>
    if s.covers d.imageBase d.controlPc = false then runTerminations g rec d (i + 1) rest r
    else if s.jumpTarget ≠ 0 then runTerminations g rec d (i + 1) rest r
    else if rec.flags &&& exceptionTargetUnwind ≠ 0 ∧ s.covers d.imageBase d.targetIp then r
    else
      match g.funclet r.events d.establisherFrame i with
      | .returned => runTerminations g rec d (i + 1) rest
          { r with scopeIndex := i + 1, events := .scope d.establisherFrame i false :: r.events }
      | .unwind target kept =>
        match guestRequestUnwind g target with
        | none => runTerminations g rec d (i + 1) rest
            { r with scopeIndex := i + 1, events := .scope d.establisherFrame i false :: r.events }
        | some again =>
          { scopeIndex := i + 1, events := .scope d.establisherFrame i true :: r.events,
            kept := kept, again := some again }

def guestCSpecificHandler (g : Guest Ctx) (w : Walk Ctx) :
    Option (List ScopeRecord) → Disposition × Walk Ctx
  | none => (.continueSearch, w)
  | some table =>
    let r := runTerminations g w.unwindRec w.dispatch w.dispatch.scopeIndex
      (table.drop w.dispatch.scopeIndex) ⟨w.dispatch.scopeIndex, w.events, w.keptRun, none⟩
    let w := { w with
      dispatch := { w.dispatch with scopeIndex := r.scopeIndex }, events := r.events,
      keptRun := r.kept }
    match r.again with
    | none => (.continueSearch, w)
    | some again => (.executeHandler again, w)

def callGuestLanguageHandler (g : Guest Ctx) (w : Walk Ctx) (address : Addr) :
    Disposition × Walk Ctx :=
  if g.guestModule address = false then (.refused, w)
  else
    let w := { w with events := .handler w.dispatch.establisherFrame :: w.events }
    match g.handler w.events w.unwindRec w.result w.dispatch with
    | .returned d dispatch result => (dispositionOf d, { w with dispatch := dispatch, result := result })
    | .unwind target kept dispatch result =>
      (.executeHandler { target with keptStack := kept },
        { w with dispatch := dispatch, result := result })

def Walk.keep (w : Walk Ctx) : Option RunStack → Walk Ctx
  | none => w
  | some k =>
    if w.keptStacks.length < guestSehMaxFrames then { w with keptStacks := k :: w.keptStacks }
    else { w with freed := k :: w.freed }

def Walk.sweep (w : Walk Ctx) : Walk Ctx := { w.keep w.keptRun with keptRun := none }

def Walk.markTarget (w : Walk Ctx) : Walk Ctx :=
  { w with unwindRec := { w.unwindRec with
      flags := if w.dispatch.establisherFrame = w.want.frame then
          w.unwindRec.flags ||| exceptionTargetUnwind
        else w.unwindRec.flags &&& ~~~exceptionTargetUnwind } }

def Walk.clearCollided (w : Walk Ctx) : Walk Ctx :=
  { w with unwindRec := { w.unwindRec with
      flags := w.unwindRec.flags &&& ~~~exceptionCollidedUnwind } }

def Walk.enterHandler (g : Guest Ctx) (w : Walk Ctx) : Option Disposition × Walk Ctx :=
  match w.dispatch.languageHandler with
  | .absent => (none, w)
  | .cSpecific table =>
    let r := guestCSpecificHandler g w table
    (some r.1, r.2.sweep)
  | .guest address =>
    let r := callGuestLanguageHandler g w address
    (some r.1, r.2.sweep)

def Walk.adopt (w : Walk Ctx) (again : UnwindTarget) : Walk Ctx :=
  let w := ({ w with
    collidedFrame := w.dispatch.establisherFrame,
    collidedScope := w.dispatch.scopeIndex }).keep again.keptStack
  { w with
    want := again
    unwindRec := { again.record with
      flags := again.record.flags ||| exceptionUnwinding ||| exceptionCollidedUnwind }
    dispatch := { w.dispatch with targetIp := again.targetIp } }

def collidedAdopt (g : Guest Ctx) (w : Walk Ctx) : Option (Walk Ctx) :=
  let position := match w.dispatch.contextRecord with
    | .null => none
    | .result => some w.result
    | .other c => some c
  match position with
  | none => none
  | some c =>
    if w.dispatch.functionEntry = false then none
    else if w.dispatch.establisherFrame = w.collidedFrame ∧ w.dispatch.scopeIndex = w.collidedScope
    then none
    else some { w with
      collidedFrame := w.dispatch.establisherFrame
      collidedScope := w.dispatch.scopeIndex
      context := g.skipFrame w.dispatch c
      unwindRec := { w.unwindRec with flags := w.unwindRec.flags ||| exceptionCollidedUnwind } }

def Walk.saveResult (w : Walk Ctx) : Walk Ctx := { w with result := w.context }

def Walk.stepOver (w : Walk Ctx) (f : FrameInfo) (c : Ctx) : Walk Ctx :=
  { w with
    context := c
    dispatch := { w.dispatch with
      controlPc := f.controlPc
      imageBase := f.imageBase
      functionEntry := f.functionEntry
      establisherFrame := f.establisherFrame
      languageHandler := f.languageHandler
      scopeIndex := 0 } }

def Walk.advance (g : Guest Ctx) (w : Walk Ctx) : Except Status (Walk Ctx) :=
  match g.virtualUnwind w.context with
  | .error e => .error (.failed e)
  | .ok (f, c) => .ok (w.stepOver f c)

def unwindLoop (g : Guest Ctx) : ℕ → Walk Ctx → Status × Walk Ctx
  | 0, w => (.badStack, w)
  | n + 1, w =>
    if w.dispatch.establisherFrame = 0 ∨ g.validFrame w.dispatch.establisherFrame = false then
      (.badStack, w)
    else if w.want.frame < w.dispatch.establisherFrame then (.invalidUnwindTarget, w)
    else
      let r := w.markTarget.enterHandler g
      let onward (w : Walk Ctx) : Status × Walk Ctx :=
        if w.dispatch.establisherFrame = w.want.frame then (.success, w)
        else
          match w.saveResult.advance g with
          | .error e => (e, w.saveResult)
          | .ok w => unwindLoop g n w
      match r.1 with
      | none => onward r.2
      | some .continueSearch => onward r.2.clearCollided
      | some (.executeHandler again) =>
        if again.frame < r.2.dispatch.establisherFrame then (.invalidUnwindTarget, r.2)
        else if r.2.dispatch.establisherFrame = r.2.collidedFrame ∧
            r.2.dispatch.scopeIndex = r.2.collidedScope then (.notImplemented, r.2)
        else unwindLoop g n (r.2.adopt again)
      | some .collidedUnwind =>
        match collidedAdopt g r.2 with
        | none => (.notImplemented, r.2)
        | some w => unwindLoop g n w
      | some .refused => (.notImplemented, r.2)
      | some _ => (.invalidDisposition, r.2)

structure Outcome (Ctx : Type) where
  status : Status
  want : UnwindTarget
  result : Ctx
  contextOut : Option (Addr × Ctx)
  freed : List RunStack
  events : List Event

def Walk.finish (g : Guest Ctx) (status : Status) (w : Walk Ctx) : Outcome Ctx :=
  let freed := w.keptStacks.reverse ++ w.freed
  if status ≠ .success then ⟨status, w.want, w.result, none, freed, w.events⟩
  else
    let result := g.withRax w.result w.want.returnValue
    let out := if w.want.contextOut = 0 then none else some (w.want.contextOut, result)
    if w.unwindRec.code = statusUnwindConsolidate then
      match g.consolidate w.unwindRec result with
      | .error e => ⟨.failed e, w.want, result, out, freed, w.events⟩
      | .ok rip => ⟨.success, w.want, g.withRip result rip, out, freed, w.events⟩
    else ⟨.success, w.want, g.withRip result w.want.targetIp, out, freed, w.events⟩

def startWalk (target : UnwindTarget) (start : Ctx) (rsp : Addr) : Walk Ctx where
  want := target
  unwindRec := { target.record with flags := target.record.flags ||| exceptionUnwinding }
  dispatch := ⟨0, 0, false, rsp, target.targetIp, .absent, 0, .result⟩
  context := start
  result := start
  collidedFrame := 0
  collidedScope := 0
  keptStacks := target.keptStack.toList
  keptRun := none
  freed := []
  events := []

def guestUnwindToTarget (g : Guest Ctx) (target : UnwindTarget) (start : Ctx) (rsp : Addr) :
    Outcome Ctx :=
  match (startWalk target start rsp).advance g with
  | .error e => (startWalk target start rsp).finish g e
  | .ok w =>
    let r := unwindLoop g guestSehMaxFrames w
    r.2.finish g r.1

end WinePpc64.Unwind
