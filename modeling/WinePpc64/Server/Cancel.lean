import WinePpc64.Server.Async

namespace WinePpc64.Server

namespace Async

def completes (a : Async) (e : Event) : Bool := (step { a with done := false } e).any (·.done)

def asserted (a : Async) : Event → Bool
  | .apcResult _ | .apcDropped => a.terminated
  | .wait => !(a.signaled && a.directResult) || a.terminated
  | _ => true

end Async

structure Op where
  async : Async
  thread : ℕ
  obj : ℕ
  iosb : ℕ
  cancel : Option ℕ
  gone : Bool
  deriving DecidableEq, Repr

structure Cancel where
  covers : List ℕ
  count : ℕ
  signaled : Bool
  released : ℕ
  handle : Bool
  deriving DecidableEq, Repr

namespace Cancel

def create : Cancel := ⟨[], 0, false, 0, false⟩

def cover (k : Cancel) (i : ℕ) : Cancel := { k with covers := k.covers ++ [i], count := k.count + 1 }

def drop (k : Cancel) : Cancel :=
  if k.count = 1 then { k with count := 0, signaled := true, released := k.released + 1 }
  else { k with count := k.count - 1 }

def publish (k : Cancel) (handed : Bool) : Cancel :=
  if k.count = 0 then { k with released := k.released + 1 } else { k with handle := handed }

end Cancel

structure Process where
  ops : List Op
  cancels : List Cancel
  /-- an assertion has failed, or a null pointer was used -/
  failed : Bool
  deriving DecidableEq, Repr

structure CancelRequest where
  obj : ℕ
  thread : Option ℕ
  iosb : Option ℕ
  deriving DecidableEq, Repr

def CancelRequest.selects (r : CancelRequest) (o : Op) : Bool :=
  o.obj == r.obj && r.thread.all (· == o.thread) && r.iosb.all (· == o.iosb)

def Op.active (o : Op) : Bool := !o.gone && !o.async.terminated && !o.async.isSystem

namespace Process

def init : Process := ⟨[], [], false⟩

def setOp (p : Process) (i : ℕ) (o : Op) : Process := { p with ops := p.ops.set i o }

def setCancel (p : Process) (c : ℕ) (k : Cancel) : Process := { p with cancels := p.cancels.set c k }

def addCancel (p : Process) : Process := { p with cancels := p.cancels ++ [Cancel.create] }

def check (p : Process) (ok : Bool) : Process := { p with failed := p.failed || !ok }

def asyncCompleteCancel (p : Process) (i : ℕ) (o : Op) : Process :=
  match o.cancel with
  | none => p
  | some c =>
    match p.cancels[c]? with
    | none => p
    | some k => (p.setOp i { o with cancel := none }).setCancel c k.drop

def io (p : Process) (i : ℕ) (o : Op) (e : Event) : Option Process :=
  (Server.step o.async e).map fun a =>
    if o.async.completes e then (p.setOp i { o with async := a }).asyncCompleteCancel i { o with async := a }
    else p.setOp i { o with async := a }

def cancelAsync (p : Process) (i : ℕ) (o : Op) (delivered : Bool) : Process :=
  if o.async.canceled then p else (p.io i o (.cancel delivered)).getD p

def attach (p : Process) (c : Option ℕ) (i : ℕ) : Process :=
  match c, p.ops[i]? with
  | some c, some o =>
    match o.cancel, p.cancels[c]? with
    | none, some k => (p.setOp i { o with cancel := some c }).setCancel c (k.cover i)
    | _, _ => p.check o.cancel.isNone
  | _, _ => p

def visit (r : CancelRequest) (lost : List ℕ) (c : Option ℕ) (p : Process) (i : ℕ) : Process :=
  match p.ops[i]? with
  | none => p
  | some o =>
    if !o.active then p
    else if !o.async.fd then p.check false
    else if r.selects o then (p.cancelAsync i o (!lost.contains i)).attach c i
    else p

/-- `cancel_process_async`. The source begins again at the head of the list when it has cancelled an async;
as it takes that one out, and does not change the others, it meets them in the same order. -/
def cancelProcessAsync (p : Process) (r : CancelRequest) (lost : List ℕ) (handed : Bool) : Process :=
  match r.thread with
  | none => (List.range p.ops.length).foldl (visit r lost none) p
  | some _ =>
    let q := (List.range p.ops.length).foldl (visit r lost (some p.cancels.length)) p.addCancel
    match q.cancels[p.cancels.length]? with
    | none => q
    | some k => q.setCancel p.cancels.length (k.publish handed)

end Process

inductive Process.Event
  | create (a : Async) (thread obj iosb : ℕ)
  | io (i : ℕ) (e : Server.Event)
  /-- `lost` are the asyncs whose APC cannot be queued -/
  | cancel (r : CancelRequest) (lost : List ℕ) (handed : Bool)
  | closeHandle (c : ℕ)
  | destroy (i : ℕ)
  deriving DecidableEq, Repr

namespace Process

def destroy (p : Process) (i : ℕ) (o : Op) : Option Process :=
  if o.async.queue ∨ o.async.apc.isSome ∨ o.async.owed then none
  else some ((p.check o.cancel.isNone).setOp i { o with gone := true })

def handle (p : Process) : Process.Event → Option Process
  | .create a thread obj iosb => some { p with ops := p.ops ++ [⟨a, thread, obj, iosb, none, false⟩] }
  | .io i e =>
    match p.ops[i]? with
    | none => none
    | some o => if o.gone then none else ((p.check (o.async.asserted e)).io i o e)
  | .cancel r lost handed => some (p.cancelProcessAsync r lost handed)
  | .closeHandle c =>
    match p.cancels[c]? with
    | none => none
    | some k => if k.handle then some (p.setCancel c { k with handle := false }) else none
  | .destroy i =>
    match p.ops[i]? with
    | none => none
    | some o => if o.gone then none else p.destroy i o

def step (p : Process) (e : Process.Event) : Option Process := if p.failed then none else p.handle e

end Process

end WinePpc64.Server
