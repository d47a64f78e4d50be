import Mathlib

namespace WinePpc64.Server

abbrev Status := BitVec 32

def statusPending : Status := 0x103#32

def statusAlerted : Status := 0x101#32

def statusHandlesClosed : Status := 0x8000000A#32

def statusCancelled : Status := 0xC0000120#32

def ntError (status : Status) : Bool := status &&& 0xC0000000#32 == 0xC0000000#32

inductive Action
  | userApc
  | packet
  | event
  | fd
  | wait
  deriving DecidableEq, Repr

/-- With which status the completion is carried out, and if there is an fd and a port to be told. -/
structure Outcome where
  status : Status
  fd : Bool
  port : Bool
  deriving DecidableEq, Repr

structure Async where
  apcRoutine : Bool
  apcContext : Bool
  event : Bool
  /-- `FILE_SKIP_COMPLETION_PORT_ON_SUCCESS` in `comp_flags` -/
  skipCompletion : Bool
  isSystem : Bool
  /-- the requests of a device are its driver's to finish -/
  device : Bool
  blocking : Bool
  fdCompletion : Bool
  completion : Bool
  /-- the status in the I/O status block of a request -/
  iosb : Option Status
  outData : Bool
  fd : Bool
  queue : Bool
  timeout : Option Status
  initialStatus : Status
  signaled : Bool
  pending : Bool
  directResult : Bool
  alerted : Bool
  terminated : Bool
  canceled : Bool
  unknownStatus : Bool
  /-- the APC that carries the result back, with the status of its call -/
  apc : Option Status
  /-- the client was told to deliver or to collect a result directly -/
  owed : Bool
  waiters : ℕ
  done : Bool
  log : List Action
  outcome : Option Outcome
  deriving DecidableEq, Repr

namespace Async

def hasPort (a : Async) : Bool := a.completion || (a.fd && a.fdCompletion)

def wantsPacket (a : Async) : Bool := !a.apcRoutine && a.apcContext && (a.pending || !a.skipCompletion)

def notice (a : Async) : List Action :=
  if a.apcRoutine then [.userApc] else if a.wantsPacket && a.hasPort then [.packet] else []

def target (a : Async) : List Action :=
  if a.event then [.event] else if a.fd && !a.isSystem then [.fd] else []

def reports (a : Async) (status : Status) : Bool := a.pending || !ntError status

def acts (a : Async) (status : Status) : List Action :=
  if a.reports status then a.notice ++ a.target else []

def act (a : Async) (status : Status) : Async :=
  { a with
    timeout := none
    terminated := true
    iosb := a.iosb.map fun _ => status
    log := a.log ++ a.acts status
    outcome := a.outcome <|> some ⟨status, a.fd, a.hasPort⟩
    completion := if a.reports status && a.wantsPacket then a.hasPort else a.completion }

def leave (a : Async) : Async :=
  { a with fd := a.fd && !a.queue, queue := false, done := true }

def restart (a : Async) : Async := { a with terminated := false, alerted := false }

def learn (a : Async) (status : Status) : Async :=
  if a.unknownStatus then { a with initialStatus := status, unknownStatus := false } else a

def setResult (signal : Async → Async) (a : Async) (status : Status) : Async :=
  let a := a.learn status
  if a.alerted ∧ status = statusPending then a.restart
  else (signal (a.act status)).leave

def satisfied (a : Async) : Async :=
  if a.directResult then
    { setResult id a (a.iosb.getD statusPending) with directResult := false }
  else a

def mark (a : Async) : Async := { a with signaled := true, log := a.log ++ [.wait] }

def signal (a : Async) : Async :=
  if a.signaled then a
  else if a.waiters = 0 then a.mark
  else { a.mark.satisfied with waiters := 0 }

def asyncSetResult (a : Async) (status : Status) : Async := setResult signal a status

def callStatus (a : Async) (status : Status) : Status := if a.outData then statusAlerted else status

def alert (a : Async) (status : Status) : Async :=
  { a with
    terminated := true
    iosb := a.iosb.map fun s => if s = statusPending then status else s
    alerted := a.alerted || decide (status = statusAlerted) }

def postApc (a : Async) (status : Status) : Async := { a with apc := some status }

def asyncTerminate (a : Async) (status : Status) (delivered : Bool) : Async :=
  if a.terminated then a
  else if a.directResult then a.alert status
  else if delivered then (a.alert status).postApc (a.callStatus status)
  else (a.alert status).asyncSetResult (a.callStatus status)

def detach (a : Async) : Async := { a with completion := a.completion || a.fdCompletion, fd := false }

def dequeue (a : Async) : Async := { a with queue := false }

def freeAsyncQueue (a : Async) (delivered : Bool) : Async :=
  (a.detach.asyncTerminate statusHandlesClosed delivered).dequeue

def fill (a : Async) (status : Status) (out : Bool) : Async := { a with iosb := some status, outData := out }

def asyncRequestComplete (a : Async) (status : Status) (out delivered : Bool) : Async :=
  if a.iosb = some statusPending then (a.fill status out).asyncTerminate status delivered else a

def asyncWakeObj (a : Async) : Async := if a.blocking then a else a.signal

def answer (a : Async) (pending : Bool) (initial : Status) : Async :=
  { a with
    pending := a.pending || (pending && !a.terminated)
    initialStatus := initial
    unknownStatus := false }

def deviceReply (a : Async) (pending : Bool) (initial : Status) (result : Option (Status × Bool)) (delivered : Bool) :
    Async :=
  match result with
  | some (status, out) => (a.answer pending initial).asyncRequestComplete status out delivered
  | none => (a.answer pending initial).asyncWakeObj

def deliver (a : Async) (status : Status) (markPending : Bool) : Async :=
  { a with
    directResult := a.directResult && decide (status ≠ statusPending)
    pending := a.pending || decide (status = statusPending) || markPending
    owed := false }

def setAsyncDirectResult (a : Async) (status : Status) (markPending : Bool) : Async :=
  if a.unknownStatus ∧ a.terminated ∧ a.alerted then (a.deliver status markPending).asyncSetResult status else a

def dropApc (a : Async) : Async := { a with apc := none }

end Async

structure Request where
  apcRoutine : Bool
  apcContext : Bool
  event : Bool
  skipCompletion : Bool
  isSystem : Bool
  blocking : Bool
  fdCompletion : Bool
  timeout : Option Status
  deriving DecidableEq, Repr

def createAsync (r : Request) (request : Bool) : Async where
  apcRoutine := r.apcRoutine
  apcContext := r.apcContext
  event := r.event
  skipCompletion := request && r.skipCompletion
  isSystem := request && r.isSystem
  device := false
  blocking := r.blocking
  fdCompletion := r.fdCompletion
  completion := r.fdCompletion
  iosb := if request then some statusPending else none
  outData := false
  fd := true
  queue := true
  timeout := r.timeout
  initialStatus := statusPending
  signaled := false
  pending := !request
  directResult := request
  alerted := false
  terminated := false
  canceled := false
  unknownStatus := false
  apc := none
  owed := false
  waiters := 0
  done := false
  log := []
  outcome := none

inductive Prelude
  | queued
  | markedPending
  | completed (status : Status) (out : Bool)
  | device
  deriving DecidableEq, Repr

def Prelude.apply (a : Async) : Prelude → Async
  | queued => a
  | markedPending => { a with pending := true }
  | completed status out => a.asyncRequestComplete status out true
  | device => { a with unknownStatus := true, directResult := false, device := true }

namespace Async

def force (a : Async) (blocking : Bool) : Async := { a with blocking := blocking || a.blocking }

def defer (a : Async) : Async := { a with unknownStatus := true }

def owe (a : Async) : Async := { a with owed := true }

def begin (a : Async) (error : Status) : Async := { a with initialStatus := error }

def takeOutput (a : Async) : Async := { a with outData := false }

def park (a : Async) : Async := { a with directResult := false, pending := true }

def answered (a : Async) (error : Status) : Async :=
  if error ≠ statusPending then (a.begin error).asyncTerminate error true
  else if a.iosb ≠ some statusPending then (a.begin error).takeOutput
  else a.begin error

def handOver (a : Async) : Option Async :=
  if !a.pending && ntError (a.iosb.getD statusPending) then none
  else if a.iosb ≠ some statusPending then some (a.mark.owe.begin (a.iosb.getD statusPending))
  else some (a.park.begin (a.iosb.getD statusPending))

end Async

def asyncHandoff (a : Async) (error : Status) (forceBlocking : Bool) : Option Async :=
  if (a.force forceBlocking).unknownStatus then some (a.force forceBlocking)
  else if error = statusAlerted then some ((a.force forceBlocking).defer.asyncTerminate statusAlerted true).owe
  else ((a.force forceBlocking).answered error).handOver

/-- The asyncs as they are left in the queue of an fd by the request that creates them. The timeouts of
the server have a status of their own, and a result that is there at once is not "pending". -/
inductive Start : Async → Prop
  | register (r : Request) (h : ∀ status ∈ r.timeout, status ≠ statusAlerted) : Start (createAsync r false)
  | request (r : Request) (prelude : Prelude) (error : Status) (forceBlocking : Bool) {a : Async}
      (h : ∀ status ∈ r.timeout, status ≠ statusAlerted)
      (hresult : ∀ status out, prelude = .completed status out → status ≠ statusPending ∧ error ≠ statusAlerted)
      (ha : asyncHandoff (prelude.apply (createAsync r true)) error forceBlocking = some a) : Start a

inductive Event
  /-- `async_wake_up` or `async_terminate` by the owner of the fd; a device is not polled -/
  | wake (status : Status) (delivered : Bool)
  | complete (status : Status) (out delivered : Bool)
  | deviceReply (pending : Bool) (initial : Status) (result : Option (Status × Bool)) (delivered : Bool)
  | timeout (delivered : Bool)
  /-- `cancel_async`; a device leaves the async to its driver -/
  | cancel (delivered : Bool)
  | port
  | fdDestroyed (delivered : Bool)
  /-- the APC is destroyed with the client's result -/
  | apcResult (status : Status)
  /-- the APC is destroyed without one, as by the death of its thread -/
  | apcDropped
  | directResult (status : Status) (markPending : Bool)
  | wait
  | waitOver
  deriving DecidableEq, Repr

def step (a : Async) : Event → Option Async
  | .wake status delivered =>
    if a.queue ∧ (a.device → status ≠ statusAlerted) then some (a.asyncTerminate status delivered) else none
  | .complete status out delivered =>
    if a.queue ∧ a.iosb.isSome then some (a.asyncRequestComplete status out delivered) else none
  | .deviceReply pending initial result delivered =>
    if a.queue ∧ a.device ∧ a.unknownStatus then some (a.deviceReply pending initial result delivered) else none
  | .timeout delivered =>
    match a.timeout with
    | none => none
    | some status => some (Async.asyncTerminate { a with timeout := none } status delivered)
  | .cancel delivered =>
    if a.fd ∧ ¬a.terminated ∧ ¬a.canceled then
      some (if a.device then { a with canceled := true }
        else Async.asyncTerminate { a with canceled := true } statusCancelled delivered)
    else none
  | .port => if a.fd then some { a with fdCompletion := true } else none
  | .fdDestroyed delivered => if a.queue then some (a.freeAsyncQueue delivered) else none
  | .apcResult status => if a.apc.isSome then some (a.dropApc.asyncSetResult status) else none
  | .apcDropped =>
    match a.apc with
    | none => none
    | some status => some (a.dropApc.asyncSetResult status)
  | .directResult status markPending =>
    if a.iosb.isSome then some (a.setAsyncDirectResult status markPending) else none
  | .wait =>
    if a.iosb.isSome then
      some (if a.signaled then { a.satisfied with owed := false } else { a with waiters := a.waiters + 1 })
    else none
  | .waitOver => if a.waiters = 0 then none else some { a with waiters := a.waiters - 1 }

end WinePpc64.Server
