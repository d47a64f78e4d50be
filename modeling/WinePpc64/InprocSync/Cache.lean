import WinePpc64.Lib.Runs

namespace WinePpc64.InprocSync

open Function

inductive SyncType
  | unknown
  | internal
  | event
  | mutex
  | semaphore
  deriving DecidableEq, Repr

structure Sync where
  refcount : ℤ
  fd : ℕ
  access : ℕ
  type : SyncType
  closed : Bool
  shm : Option ℕ
  deriving DecidableEq, Repr

inductive Caller
  | first
  | second
  | close
  deriving DecidableEq, Repr

inductive Ref
  | cached (i : ℕ)
  | stack (d : Sync)
  deriving DecidableEq, Repr

inductive After
  /-- Of `get_cached_inproc_sync`, which then returns `NULL`. -/
  | missed (c : Caller) (i : ℕ)
  | done
  /-- The first and the second one of `close_inproc_sync`. -/
  | handle (i : ℕ)
  | server (i : ℕ)
  deriving DecidableEq, Repr

inductive Field
  | fd
  | access
  | type
  | closed
  | shm
  deriving DecidableEq, Repr

def Field.store (e d : Sync) : Field → Sync
  | .fd => { e with fd := d.fd }
  | .access => { e with access := d.access }
  | .type => { e with type := d.type }
  | .closed => { e with closed := d.closed }
  | .shm => { e with shm := d.shm }

inductive Pc
  | idle
  /-- `interlocked_inc_if_nonzero`: before the load, and before the compare-and-exchange with `val`. -/
  | load (c : Caller) (i : ℕ)
  | increment (c : Caller) (i : ℕ) (val : ℤ)
  /-- Before `get_cached_inproc_sync` reads `closed`. -/
  | look (c : Caller) (i : ℕ)
  | enter (i : ℕ)
  /-- `get_server_inproc_sync`, `map_inproc_sync` and the parts of `cache_inproc_sync`. -/
  | request (i : ℕ)
  | map (i : ℕ) (d : Sync)
  | test (i : ℕ) (d : Sync)
  | store (i : ℕ) (d : Sync) (f : Field)
  | publish (i : ℕ) (d : Sync)
  | leave (h : Ref)
  | leaveFailed
  | checkType (h : Ref)
  | checkAccess (h : Ref)
  | held (h : Ref)
  | saveFd (k : After) (h : Ref)
  | saveShm (k : After) (h : Ref) (fd : ℕ)
  | decrement (k : After) (h : Ref) (fd : ℕ) (shm : Option ℕ)
  | unmap (k : After) (fd shm : ℕ)
  | closeFd (k : After) (fd : ℕ)
  | enterClose (i : ℕ)
  | mark (i : ℕ)
  | closeHandle (i : ℕ)
  | leaveClose (q : Option ℕ)
  | aborted
  deriving DecidableEq, Repr

def Caller.missed (i : ℕ) : Caller → Pc
  | .first => .enter i
  | .second => .request i
  | .close => .closeHandle i

def Caller.found (i : ℕ) : Caller → Pc
  | .first => .checkType (.cached i)
  | .second => .leave (.cached i)
  | .close => .mark i

def Caller.tried (c : Caller) (i : ℕ) (val : ℤ) : Pc :=
  if val = 0 then c.missed i else .increment c i val

def After.next : After → Pc
  | .missed c i => c.missed i
  | .done => .idle
  | .handle i => .saveFd (.server i) (.cached i)
  | .server i => .closeHandle i

def After.dispose (k : After) (fd : ℕ) : Option ℕ → Pc
  | some m => .unmap k fd m
  | none => .closeFd k fd

def After.dropped (k : After) (fd : ℕ) (shm : Option ℕ) (ref : ℤ) : Pc :=
  if ref < 0 then .aborted else if ref = 0 then k.dispose fd shm else k.next

def Field.next (i : ℕ) (d : Sync) : Field → Pc
  | .fd => .store i d .access
  | .access => .store i d .type
  | .type => .store i d .closed
  | .closed => .store i d .shm
  | .shm => .publish i d

structure Agent where
  pc : Pc
  type : SyncType
  access : ℕ
  /-- The openings whose close had completed before the running `get_inproc_sync` started. -/
  seen : List ℕ

def Agent.goto (x : Agent) (pc : Pc) : Agent := { x with pc := pc }

@[simp] theorem Agent.goto_pc {x : Agent} {pc : Pc} : (x.goto pc).pc = pc := rfl

structure State (T : Type) where
  /-- The entries of all blocks by index; a block that is not there is one of zeros. -/
  cache : ℕ → Sync
  agent : T → Agent
  mutex : Option T
  /-- The server's handles: each opening of a handle has a number of its own. -/
  server : ℕ → Option ℕ
  opened : ℕ
  /-- The opening that each received descriptor is for. -/
  received : List ℕ
  mapped : ℕ
  closes : List ℕ
  unmaps : List ℕ
  /-- The openings whose `NtClose` has completed. -/
  ended : List ℕ

inductive Mapping
  | without
  | kept
  | refused
  deriving DecidableEq, Repr

structure Answer where
  /-- Access and type for the request of a descriptor, unless it fails. -/
  reply : Option (ℕ × SyncType)
  mapping : Mapping
  room : Bool
  closes : Bool

inductive Event (T : Type)
  | get (t : T) (i : ℕ) (type : SyncType) (access : ℕ)
  | release (t : T)
  | close (t : T) (i : ℕ)
  | opens (i : ℕ)
  | next (t : T) (a : Answer)

variable {T : Type} [DecidableEq T]

namespace State

def init : State T where
  cache _ := ⟨0, 0, 0, .unknown, false, none⟩
  agent _ := ⟨.idle, .unknown, 0, []⟩
  mutex := none
  server _ := none
  opened := 0
  received := []
  mapped := 0
  closes := []
  unmaps := []
  ended := []

variable (s : State T)

def sync : Ref → Sync
  | .cached i => s.cache i
  | .stack d => d

def goto (t : T) (pc : Pc) : State T :=
  { s with agent := update s.agent t ((s.agent t).goto pc) }

def begin (t : T) (i : ℕ) (type : SyncType) (access : ℕ) : State T :=
  { s with agent := update s.agent t ⟨.load .first i, type, access, s.ended⟩ }

def setEntry (i : ℕ) (e : Sync) : State T := { s with cache := update s.cache i e }

def setCount (i : ℕ) (n : ℤ) : State T := s.setEntry i { s.cache i with refcount := n }

def setMutex (m : Option T) : State T := { s with mutex := m }

def opens (i : ℕ) : State T :=
  { s with server := update s.server i (some s.opened), opened := s.opened + 1 }

def shuts (i : ℕ) : State T := { s with server := update s.server i none }

def receive (q : ℕ) : State T := { s with received := s.received ++ [q] }

def mapFd : State T := { s with mapped := s.mapped + 1 }

def unmapShm (m : ℕ) : State T := { s with unmaps := m :: s.unmaps }

def closeFd (fd : ℕ) : State T := { s with closes := fd :: s.closes }

def finish (q : Option ℕ) : State T := { s with ended := q.toList ++ s.ended }

def answer (access : ℕ) (type : SyncType) : Sync := ⟨1, s.received.length, access, type, false, none⟩

def next (t : T) (a : Answer) : Option (State T) :=
  match (s.agent t).pc with
  | .idle | .held _ | .aborted => none
  | .load c i => some (s.goto t (c.tried i (s.cache i).refcount))
  | .increment c i val =>
    if (s.cache i).refcount = val then some ((s.setCount i (val + 1)).goto t (.look c i))
    else some (s.goto t (c.tried i (s.cache i).refcount))
  | .look c i =>
    some (s.goto t (if (s.cache i).closed then .saveFd (.missed c i) (.cached i) else c.found i))
  | .enter i => if s.mutex = none then some ((s.setMutex (some t)).goto t (.load .second i)) else none
  | .enterClose i => if s.mutex = none then some ((s.setMutex (some t)).goto t (.load .close i)) else none
  | .request i =>
    match s.server i, a.reply with
    | some q, some (access, type) => some ((s.receive q).goto t (.map i (s.answer access type)))
    | _, _ => some (s.goto t .leaveFailed)
  | .map i d =>
    if d.type = .semaphore then
      match a.mapping with
      | .without => some (s.goto t (.test i d))
      | .kept => some (s.mapFd.goto t (.test i { d with shm := some s.mapped }))
      | .refused => some ((s.mapFd.unmapShm s.mapped).goto t (.test i d))
    else some (s.goto t (.test i d))
  | .test i d =>
    some (s.goto t (if a.room = false ∨ (s.cache i).refcount ≠ 0 then .leave (.stack d) else .store i d .fd))
  | .store i d f => some ((s.setEntry i (f.store (s.cache i) d)).goto t (f.next i d))
  | .publish i d =>
    some ((s.setCount i 2).goto t
      (if (s.cache i).refcount = 0 ∧ d.refcount = 1 then .leave (.cached i) else .aborted))
  | .leave h => some ((s.setMutex none).goto t (.checkType h))
  | .leaveFailed => some ((s.setMutex none).goto t .idle)
  | .checkType h =>
    some (s.goto t (if (s.agent t).type ≠ .unknown ∧ (s.agent t).type ≠ (s.sync h).type
      then .saveFd .done h else .checkAccess h))
  | .checkAccess h =>
    some (s.goto t (if (s.sync h).access &&& (s.agent t).access ≠ (s.agent t).access
      then .saveFd .done h else .held h))
  | .saveFd k h => some (s.goto t (.saveShm k h (s.sync h).fd))
  | .saveShm k h fd => some (s.goto t (.decrement k h fd (s.sync h).shm))
  | .decrement k (.cached i) fd shm =>
    some ((s.setCount i ((s.cache i).refcount - 1)).goto t (k.dropped fd shm ((s.cache i).refcount - 1)))
  | .decrement k (.stack d) fd shm => some (s.goto t (k.dropped fd shm (d.refcount - 1)))
  | .unmap k fd m => some ((s.unmapShm m).goto t (.closeFd k fd))
  | .closeFd k fd => some ((s.closeFd fd).goto t k.next)
  | .mark i =>
    some ((s.setEntry i { s.cache i with closed := true }).goto t (.saveFd (.handle i) (.cached i)))
  | .closeHandle i =>
    match s.server i, a.closes with
    | some q, true => some ((s.shuts i).goto t (.leaveClose (some q)))
    | _, _ => some (s.goto t (.leaveClose none))
  | .leaveClose q => some (((s.setMutex none).finish q).goto t .idle)

def step : Event T → Option (State T)
  | .get t i type access => if (s.agent t).pc = .idle then some (s.begin t i type access) else none
  | .release t =>
    match (s.agent t).pc with
    | .held h => some (s.goto t (.saveFd .done h))
    | _ => none
  | .close t i => if (s.agent t).pc = .idle then some (s.goto t (.enterClose i)) else none
  | .opens i => if s.server i = none then some (s.opens i) else none
  | .next t a => s.next t a

end State

end WinePpc64.InprocSync
