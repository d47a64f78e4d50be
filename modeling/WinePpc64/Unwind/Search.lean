import WinePpc64.Unwind.Walk

namespace WinePpc64.Unwind

def exceptionNoncontinuable : BitVec 32 := 0x01
def exceptionNestedCall : BitVec 32 := 0x10
def statusUnhandledException : BitVec 32 := 0xc0000144
def statusNoncontinuableException : BitVec 32 := 0xc0000025
def exceptionExecuteHandler : BitVec 32 := 1

/-- The guest resumes where it is, or a scope or a handler has asked for an unwind, or neither. -/
inductive SearchResult
  | resume
  | scope (target : UnwindTarget)
  | handler (target : UnwindTarget)
  | stop (status : Status)
  deriving DecidableEq

structure TebFrame where
  address : Addr
  handler : Addr

/-- What a handler is handed and may write. The dispatcher's own `ContextRecord` is `context`. -/
structure Seen (Ctx : Type) where
  record : ExceptionRecord
  ctx : Ctx
  dispatch : Dispatcher Ctx
  context : Ctx

inductive SearchEnd (Ctx : Type)
  | returned (d : BitVec 32) (seen : Seen Ctx)
  | unwind (target : UnwindTarget) (kept : Option RunStack) (seen : Seen Ctx)

structure Searcher (Ctx : Type) extends Guest Ctx where
  /-- The handler that the unwinder reports with UNW_FLAG_EHANDLER. -/
  searchHandler : Ctx → LanguageHandler
  filter : List Event → Addr → ℕ → ExceptionRecord → Ctx → BitVec 32 × ExceptionRecord × Ctx
  searchRun : List Event → Addr → Seen Ctx → SearchEnd Ctx
  rip : Ctx → Addr
  rsp : Ctx → Addr
  readable : Addr → Bool
  onGuestStack : Addr → Bool

/-- The locals of `dispatch_guest_frames`. `collisions` counts the language handlers'
answers ExceptionCollidedUnwind, adopted or not. -/
structure Search (Ctx : Type) extends Seen Ctx where
  collidedFrame : Addr
  collidedScope : ℕ
  depth : ℕ
  teb : List TebFrame
  events : List Event
  collisions : ℕ

inductive Verdict (Ctx : Type)
  | onward (s : Search Ctx)
  | collided (s : Search Ctx)
  | done (r : SearchResult) (s : Search Ctx)

variable {Ctx : Type} (g : Searcher Ctx)

/-- The search-phase loop of `guest_c_specific_handler`, at table index `i`. -/
def searchScopes (d : Dispatcher Ctx) : ℕ → List ScopeRecord → Search Ctx → Verdict Ctx
  | _, [], s => .onward s
  | i, r :: rest, s =>
    if r.covers d.imageBase d.controlPc = false then searchScopes d (i + 1) rest s
    else if r.jumpTarget = 0 then searchScopes d (i + 1) rest s
    else
      let accept (s : Search Ctx) : Verdict Ctx := .done (.scope ⟨d.establisherFrame,
        d.imageBase + r.jumpTarget.setWidth 64, s.record.code.setWidth 64, 0, none, s.record⟩) s
      if r.handlerAddress = exceptionExecuteHandler then accept s
      else
        let (res, record, ctx) := g.filter s.events d.establisherFrame i s.record s.ctx
        let s := { s with record := record, ctx := ctx }
        if res.msb then .done .resume s
        else if res = 0 then searchScopes d (i + 1) rest s
        else accept s

def Search.enter (s : Search Ctx) (frame : Addr) : Search Ctx := { s with events := .handler frame :: s.events }

def Search.callGuestHandlerRun (s : Search Ctx) (handler frame : Addr) : Disposition × Search Ctx :=
  match g.searchRun (s.enter frame).events handler s.toSeen with
  | .returned d seen => (dispositionOf d, { s.enter frame with toSeen := seen })
  | .unwind target kept seen =>
    (.executeHandler { target with keptStack := kept }, { s.enter frame with toSeen := seen })

def Search.adopt (s : Search Ctx) : Option (Search Ctx) :=
  let position := match s.dispatch.contextRecord with
    | .null => none
    | .result => some s.context
    | .other c => some c
  match position with
  | none => none
  | some c =>
    if s.dispatch.functionEntry = false then none
    else if s.dispatch.establisherFrame = s.collidedFrame ∧ s.dispatch.scopeIndex = s.collidedScope then none
    else some { s with
      collidedFrame := s.dispatch.establisherFrame
      collidedScope := s.dispatch.scopeIndex
      context := g.skipFrame s.dispatch c }

def Search.collide (s : Search Ctx) : Verdict Ctx :=
  match s.adopt g with
  | none => .done (.stop .notImplemented) s
  | some s => .collided s

def Search.continueExecution (s : Search Ctx) : Verdict Ctx :=
  if s.record.flags &&& exceptionNoncontinuable ≠ 0 then
    .done (.stop (.failed statusNoncontinuableException)) s
  else .done .resume s

def Search.mask (s : Search Ctx) : Search Ctx :=
  { s with record := { s.record with flags := s.record.flags &&& exceptionNoncontinuable } }

def Search.languageAnswer (s : Search Ctx) : Disposition → Verdict Ctx
  | .continueExecution => s.mask.continueExecution
  | .continueSearch => .onward s.mask
  | .executeHandler target => .done (.handler target) s.mask
  | .collidedUnwind => Search.collide g { s.mask with collisions := s.collisions + 1 }
  | .refused => .done (.stop .notImplemented) s.mask
  | .other d =>
    if d = 2 then .onward { s.mask with record :=
      { s.mask.record with flags := s.mask.record.flags ||| exceptionNestedCall } }
    else .done (.stop .invalidDisposition) s.mask

/-- The `while` over the TEB frames that are below the walking context's stack pointer. -/
def tebLoop : List TebFrame → Search Ctx → Verdict Ctx
  | [], s => .onward { s with teb := [] }
  | t :: rest, s =>
    if g.onGuestStack t.address = false ∨ ¬ t.address < g.rsp s.context then .onward { s with teb := t :: rest }
    else if g.guestModule t.handler = false then .done (.stop (.failed statusUnhandledException)) s
    else
      let (answer, s) := s.callGuestHandlerRun g t.handler t.address
      match answer with
      | .continueExecution => s.continueExecution
      | .continueSearch => tebLoop rest s
      | .executeHandler target => .done (.handler target) s
      | .collidedUnwind => Search.collide g { s with teb := rest }
      | _ => .done (.stop .invalidDisposition) s

def Search.handlers (s : Search Ctx) : Verdict Ctx :=
  match s.dispatch.languageHandler with
  | .absent => tebLoop g s.teb s
  | .cSpecific none => .onward (s.enter s.dispatch.establisherFrame).mask
  | .cSpecific (some table) =>
    match searchScopes g s.dispatch s.dispatch.scopeIndex (table.drop s.dispatch.scopeIndex)
        (s.enter s.dispatch.establisherFrame) with
    | .onward s => .onward s.mask
    | .collided s => .collided s
    | .done .resume s => s.mask.continueExecution
    | .done r s => .done r s.mask
  | .guest address =>
    if g.guestModule address = false then .done (.stop .notImplemented) s.mask
    else
      let (answer, s) := s.callGuestHandlerRun g address s.dispatch.establisherFrame
      s.languageAnswer g answer

def Search.walkCanContinue (s : Search Ctx) : Bool :=
  s.dispatch.establisherFrame ≠ 0 && s.depth < guestSehMaxFrames &&
    g.validFrame s.dispatch.establisherFrame && g.rip s.context ≠ 0 && g.validFrame (g.rsp s.context)

def Search.stepOver (s : Search Ctx) (f : FrameInfo) (c : Ctx) : Search Ctx :=
  { s with
    context := c
    dispatch := { s.dispatch with
      controlPc := f.controlPc
      imageBase := f.imageBase
      functionEntry := f.functionEntry
      establisherFrame := f.establisherFrame
      languageHandler := g.searchHandler s.context
      scopeIndex := 0 } }

def Search.advance (s : Search Ctx) : Except (BitVec 32) (Search Ctx) :=
  match g.virtualUnwind s.context with
  | .error e => .error e
  | .ok (f, c) => .ok (s.stepOver g f c)

def Search.deeper (s : Search Ctx) : Search Ctx := { s with depth := s.depth + 1 }

/-- One turn of the loop, from its label `collided` to where it comes to it again. -/
def Search.turn (s : Search Ctx) : (SearchResult × Search Ctx) ⊕ Search Ctx :=
  if s.dispatch.establisherFrame = 0 ∨ g.validFrame s.dispatch.establisherFrame = false then
    .inl (.stop (.failed statusUnhandledException), s)
  else
    match s.handlers g with
    | .done r s => .inl (r, s)
    | .collided s => .inr s
    | .onward s =>
      if s.walkCanContinue g = false ∨ g.guestModule (g.rip s.context) = false then
        .inl (.stop (.failed statusUnhandledException), s)
      else
        match s.deeper.advance g with
        | .error e => .inl (.stop (.failed e), s)
        | .ok s => .inr s

end WinePpc64.Unwind
