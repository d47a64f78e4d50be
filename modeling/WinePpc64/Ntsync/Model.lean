import WinePpc64.Lib.Runs
import WinePpc64.Ntsync.Word

namespace WinePpc64.Ntsync

open Function

structure Queue (Sem : Type) where
  objs : List Sem
  all : Bool
  signaled : Option ℕ

/-- What a task does with one semaphore while it has it locked: `NTSYNC_IOC_SEM_RELEASE`, or one round
of a loop of `ntsync_wait_any`, for entry `i` of wait `q`. -/
inductive Body
  | release (n : ℕ)
  | queue (q i : ℕ)
  | scan (q i : ℕ)
  | unqueue (q i : ℕ)

inductive ScanPc
  | take (rest : List (ℕ × ℕ))
  | offer (rest : List (ℕ × ℕ))
  | done (rest : List (ℕ × ℕ))

inductive TryPc (Sem : Type)
  | lock (todo : List Sem)
  | check (rest : List Sem)
  | claim
  | take (rest : List Sem)
  | unlock (todo : List Sem)

inductive SectPc (Sem : Type)
  | lock
  | hint
  | mutex
  | devLock
  | body (all : Bool)
  | wakeAll (qs : List ℕ)
  | tryAll (q : ℕ) (p : TryPc Sem) (qs : List ℕ)
  | scan (all : Bool) (p : ScanPc)
  | unlock (all : Bool)
  | unlockMutex

inductive AnyPc
  | queue (i : ℕ)
  | check (i : ℕ)
  | sleep
  | unqueue (i : ℕ)

inductive AllPc (Sem : Type)
  | lock
  | inc (rest : List Sem)
  | flag (x : Sem) (rest : List Sem)
  | add (x : Sem) (rest : List Sem)
  | tryAll (p : TryPc Sem)
  | unlock
  | sleep
  | relock
  | del (rest : List Sem)
  | dec (x : Sem) (rest : List Sem)
  | clear (x : Sem) (rest : List Sem)
  | finish

inductive Pc (Sem : Type)
  | idle
  | acquire (x : Sem)
  | release (x : Sem) (n : ℕ)
  | walk (objs : List Sem) (i : ℕ)
  | spin (objs : List Sem) (i : ℕ)
  | spinTry (objs : List Sem) (i : ℕ)
  | sect (x : Sem) (b : Body) (p : SectPc Sem)
  | waitAny (q : ℕ) (p : AnyPc)
  | waitAll (q : ℕ) (p : AllPc Sem)

inductive Receiver (Tid : Type)
  | thread (t : Tid)
  | wait (q : ℕ)
  deriving DecidableEq

structure Env (Sem : Type) where
  max : Sem → ℕ
  initial : Sem → ℕ
  initial_le : ∀ x, initial x ≤ max x
  max_lt : ∀ x, max x < 2 ^ 32

/-- `owner` is who has an object locked, by its lock or by `dev_locked`, and `mutex` is
`wait_all_lock`. The last four fields are the history: the units on loan, those released, those
delivered, and if a take of `try_wake_all` has failed. -/
structure State (Sem Tid : Type) where
  word : Sem → Word
  owner : Sem → Option Tid
  mutex : Option Tid
  allHint : Sem → ℕ
  anyWaiters : Sem → List (ℕ × ℕ)
  allWaiters : Sem → List ℕ
  queue : ℕ → Queue Sem
  fresh : ℕ
  pc : Tid → Pc Sem
  loan : Sem → Bool
  released : Sem → ℕ
  log : List (Sem × Receiver Tid)
  warned : Bool

inductive Eff (Sem : Type)
  | skip
  | lockObj (x : Sem)
  | unlockObj (x : Sem)
  | lockMutex
  | unlockMutex
  | fastAcquire (x : Sem)
  | addCount (x : Sem) (n : ℕ)
  | takeHold (x : Sem)
  | place (x : Sem) (q i : ℕ)
  | holdDone (x : Sem)
  | giveBack (x : Sem)
  | claimAll (q : ℕ)
  | takeAll (x : Sem) (q : ℕ)
  | warn
  | queueAny (x : Sem) (q i : ℕ)
  | unqueueAny (x : Sem) (q i : ℕ)
  | incHint (x : Sem)
  | setFlag (x : Sem)
  | queueAll (x : Sem) (q : ℕ)
  | unqueueAll (x : Sem) (q : ℕ)
  | decHint (x : Sem)
  | clearFlag (x : Sem)
  | newQueue (objs : List Sem) (all : Bool)

section

variable {Sem Tid : Type} [DecidableEq Sem] [DecidableEq Tid]

def State.init (e : Env Sem) : State Sem Tid where
  word x := BitVec.ofNat 64 (e.initial x)
  owner _ := none
  mutex := none
  allHint _ := 0
  anyWaiters _ := []
  allWaiters _ := []
  queue _ := ⟨[], false, none⟩
  fresh := 0
  pc _ := .idle
  loan _ := false
  released _ := 0
  log := []
  warned := false

namespace Eff

def enabled (s : State Sem Tid) : Eff Sem → Bool
  | .lockObj x => (s.owner x).isNone
  | .lockMutex => s.mutex.isNone
  | _ => true

def apply (t : Tid) (s : State Sem Tid) : Eff Sem → State Sem Tid
  | .skip => s
  | .lockObj x => { s with owner := update s.owner x (some t) }
  | .unlockObj x => { s with owner := update s.owner x none }
  | .lockMutex => { s with mutex := some t }
  | .unlockMutex => { s with mutex := none }
  | .fastAcquire x => { s with
      word := update s.word x (s.word x).take
      log := (x, .thread t) :: s.log }
  | .addCount x n => { s with
      word := update s.word x ((s.word x).addCount n)
      released := update s.released x (s.released x + n) }
  | .takeHold x => { s with
      word := update s.word x (s.word x).takeHold
      loan := update s.loan x true }
  | .place x q i => { s with
      queue := update s.queue q { s.queue q with signaled := some i }
      loan := update s.loan x false
      log := (x, .wait q) :: s.log }
  | .holdDone x => { s with word := update s.word x (s.word x).holdDone }
  | .giveBack x => { s with
      word := update s.word x (s.word x).giveBack
      loan := update s.loan x false }
  | .claimAll q => { s with queue := update s.queue q { s.queue q with signaled := some 0 } }
  | .takeAll x q => { s with
      word := update s.word x (s.word x).take
      log := (x, .wait q) :: s.log }
  | .warn => { s with warned := true }
  | .queueAny x q i => { s with
      word := update s.word x (s.word x).addWaiter
      anyWaiters := update s.anyWaiters x (s.anyWaiters x ++ [(q, i)]) }
  | .unqueueAny x q i => { s with
      word := update s.word x (s.word x).delWaiter
      anyWaiters := update s.anyWaiters x ((s.anyWaiters x).erase (q, i)) }
  | .incHint x => { s with allHint := update s.allHint x (s.allHint x + 1) }
  | .setFlag x => { s with word := update s.word x (s.word x).setWaitAll }
  | .queueAll x q => { s with
      word := update s.word x (s.word x).addWaiter
      allWaiters := update s.allWaiters x (s.allWaiters x ++ [q]) }
  | .unqueueAll x q => { s with
      word := update s.word x (s.word x).delWaiter
      allWaiters := update s.allWaiters x ((s.allWaiters x).erase q) }
  | .decHint x => { s with allHint := update s.allHint x (s.allHint x - 1) }
  | .clearFlag x => { s with word := update s.word x (s.word x).clearWaitAll }
  | .newQueue objs all => { s with
      queue := update s.queue s.fresh ⟨objs, all, none⟩
      fresh := s.fresh + 1 }

end Eff

def Body.after : Body → Pc Sem
  | .release _ => .idle
  | .queue q i => .waitAny q (.queue (i + 1))
  | .scan q i => .waitAny q (.check (i + 1))
  | .unqueue q i => .waitAny q (.unqueue (i + 1))

def State.unlocked (s : State Sem Tid) (q : ℕ) (locked : Option Sem) : List Sem :=
  (s.queue q).objs.filter fun x => locked ≠ some x

def tryNext (s : State Sem Tid) (q : ℕ) (locked : Option Sem) : TryPc Sem → Eff Sem × Option (TryPc Sem)
  | .lock [] => (.skip, some (.check (s.queue q).objs))
  | .lock (x :: todo) => (.lockObj x, some (.lock todo))
  | .check [] => (.skip, some .claim)
  | .check (x :: rest) =>
    if s.word x &&& countMask = 0 then (.skip, some (.unlock (s.unlocked q locked)))
    else (.skip, some (.check rest))
  | .claim =>
    if (s.queue q).signaled.isNone then (.claimAll q, some (.take (s.queue q).objs))
    else (.skip, some (.unlock (s.unlocked q locked)))
  | .take [] => (.skip, some (.unlock (s.unlocked q locked)))
  | .take (x :: rest) =>
    if s.word x &&& countMask = 0 then (.warn, some (.take rest)) else (.takeAll x q, some (.take rest))
  | .unlock [] => (.skip, none)
  | .unlock (x :: todo) => (.unlockObj x, some (.unlock todo))

def scanNext (s : State Sem Tid) (x : Sem) : ScanPc → Eff Sem × Option ScanPc
  | .take [] => (.skip, none)
  | .take (entry :: rest) =>
    if s.word x &&& countMask = 0 then (.skip, none) else (.takeHold x, some (.offer (entry :: rest)))
  | .offer [] => (.giveBack x, none)
  | .offer ((q, i) :: rest) =>
    if (s.queue q).signaled.isNone then (.place x q i, some (.done rest)) else (.skip, some (.offer rest))
  | .done rest => (.holdDone x, some (.take rest))

def bodyNext (e : Env Sem) (s : State Sem Tid) (x : Sem) (all : Bool) : Body → Eff Sem × SectPc Sem
  | .release n =>
    if (s.word x).count + n ≥ 2 ^ 32 ∨ (s.word x).count + n > e.max x then (.skip, .unlock all)
    else (.addCount x n,
      if all then .wakeAll (s.allWaiters x) else .scan false (.take (s.anyWaiters x)))
  | .queue q i => (.queueAny x q i, .unlock all)
  | .scan _ _ => (.skip, .scan all (.take (s.anyWaiters x)))
  | .unqueue q i => (.unqueueAny x q i, .unlock all)

def sectNext (e : Env Sem) (s : State Sem Tid) (x : Sem) (b : Body) : SectPc Sem → Eff Sem × Pc Sem
  | .lock => (.lockObj x, .sect x b .hint)
  | .hint =>
    if s.allHint x = 0 then (.skip, .sect x b (.body false)) else (.unlockObj x, .sect x b .mutex)
  | .mutex => (.lockMutex, .sect x b .devLock)
  | .devLock => (.lockObj x, .sect x b (.body true))
  | .body all => ((bodyNext e s x all b).1, .sect x b (bodyNext e s x all b).2)
  | .wakeAll [] => (.skip, .sect x b (.scan true (.take (s.anyWaiters x))))
  | .wakeAll (q :: qs) => (.skip, .sect x b (.tryAll q (.lock (s.unlocked q (some x))) qs))
  | .tryAll q p qs => match tryNext s q (some x) p with
    | (eff, some p') => (eff, .sect x b (.tryAll q p' qs))
    | (eff, none) => (eff, .sect x b (.wakeAll qs))
  | .scan all p => match scanNext s x p with
    | (eff, some p') => (eff, .sect x b (.scan all p'))
    | (eff, none) => (eff, .sect x b (.unlock all))
  | .unlock all => (.unlockObj x, if all then .sect x b .unlockMutex else b.after)
  | .unlockMutex => (.unlockMutex, b.after)

def anyNext (s : State Sem Tid) (q : ℕ) : AnyPc → Eff Sem × Pc Sem
  | .queue i => match (s.queue q).objs[i]? with
    | some x => (.skip, .sect x (.queue q i) .lock)
    | none => (.skip, .waitAny q (.check 0))
  | .check i => match (s.queue q).objs[i]?, (s.queue q).signaled with
    | some x, none => (.skip, .sect x (.scan q i) .lock)
    | _, _ => (.skip, .waitAny q .sleep)
  | .sleep => (.skip, .waitAny q (.unqueue 0))
  | .unqueue i => match (s.queue q).objs[i]? with
    | some x => (.skip, .sect x (.unqueue q i) .lock)
    | none => (.skip, .idle)

def allNext (s : State Sem Tid) (q : ℕ) : AllPc Sem → Eff Sem × Pc Sem
  | .lock => (.lockMutex, .waitAll q (.inc (s.queue q).objs))
  | .inc [] => (.skip, .waitAll q (.tryAll (.lock (s.unlocked q none))))
  | .inc (x :: rest) => (.incHint x,
      if s.allHint x + 1 = 1 then .waitAll q (.flag x rest) else .waitAll q (.add x rest))
  | .flag x rest => (.setFlag x, .waitAll q (.add x rest))
  | .add x rest => (.queueAll x q, .waitAll q (.inc rest))
  | .tryAll p => match tryNext s q none p with
    | (eff, some p') => (eff, .waitAll q (.tryAll p'))
    | (eff, none) => (eff, .waitAll q .unlock)
  | .unlock => (.unlockMutex, .waitAll q .sleep)
  | .sleep => (.skip, .waitAll q .relock)
  | .relock => (.lockMutex, .waitAll q (.del (s.queue q).objs))
  | .del [] => (.skip, .waitAll q .finish)
  | .del (x :: rest) => (.unqueueAll x q, .waitAll q (.dec x rest))
  | .dec x rest => (.decHint x,
      if s.allHint x - 1 = 0 then .waitAll q (.clear x rest) else .waitAll q (.del rest))
  | .clear x rest => (.clearFlag x, .waitAll q (.del rest))
  | .finish => (.unlockMutex, .idle)

inductive FastResult
  | took
  | empty
  | keepout
  deriving DecidableEq

def fastAcquireSemaphore (w : Word) : FastResult :=
  if w &&& fNoTouch ≠ 0 then .keepout else if w &&& countMask = 0 then .empty else .took

def enterKernel (s : State Sem Tid) (objs : List Sem) : Eff Sem × Pc Sem :=
  (.newQueue objs false, .waitAny s.fresh (.queue 0))

def fastReleaseNext (e : Env Sem) (s : State Sem Tid) (x : Sem) (n : ℕ) : Eff Sem × Pc Sem :=
  if n = 0 ∨ s.word x &&& fNoRelease ≠ 0 ∨ (s.word x).count + n > e.max x then
    (.skip, .sect x (.release n) .lock)
  else (.addCount x n, if s.word x &&& waiterMask ≠ 0 then .sect x (.release 0) .lock else .idle)

def next (e : Env Sem) (s : State Sem Tid) : Pc Sem → Option (Eff Sem × Pc Sem)
  | .idle => none
  | .acquire x => match fastAcquireSemaphore (s.word x) with
    | .took => some (.fastAcquire x, .idle)
    | .empty | .keepout => some (.skip, .idle)
  | .release x n => some (fastReleaseNext e s x n)
  | .walk objs i => match objs[i]? with
    | none => some (.skip, .spin objs 0)
    | some x => match fastAcquireSemaphore (s.word x) with
      | .took => some (.fastAcquire x, .idle)
      | .empty => some (.skip, .walk objs (i + 1))
      | .keepout => some (enterKernel s objs)
  | .spin objs i => match objs[i]? with
    | none => some (.skip, .spin objs 0)
    | some x =>
      if s.word x &&& fNoTouch ≠ 0 then some (enterKernel s objs)
      else if s.word x &&& countMask = 0 then some (.skip, .spin objs (i + 1))
      else some (.skip, .spinTry objs i)
  | .spinTry objs i => match objs[i]? with
    | none => some (.skip, .spin objs (i + 1))
    | some x => match fastAcquireSemaphore (s.word x) with
      | .took => some (.fastAcquire x, .idle)
      | .empty | .keepout => some (.skip, .spin objs (i + 1))
  | .sect x b p => some (sectNext e s x b p)
  | .waitAny q p => some (anyNext s q p)
  | .waitAll q p => some (allNext s q p)

inductive Op (Sem : Type)
  | acquire (x : Sem)
  | release (x : Sem) (n : ℕ)
  | inprocWait (objs : List Sem)
  | semRelease (x : Sem) (n : ℕ)
  | waitAny (objs : List Sem)
  | waitAll (objs : List Sem)

def Op.begin (s : State Sem Tid) : Op Sem → Option (Eff Sem × Pc Sem)
  | .acquire x => some (.skip, .acquire x)
  | .release x n => some (.skip, .release x n)
  | .inprocWait objs => some (.skip, .walk objs 0)
  | .semRelease x n => some (.skip, .sect x (.release n) .lock)
  | .waitAny objs => some (enterKernel s objs)
  | .waitAll objs =>
    if objs.Nodup then some (.newQueue objs true, .waitAll s.fresh .lock) else none

inductive Act (Sem Tid : Type)
  | start (t : Tid) (op : Op Sem)
  | run (t : Tid)
  | leave (t : Tid)
  | alert (q : ℕ)

def State.move (s : State Sem Tid) (t : Tid) (r : Eff Sem × Pc Sem) : Option (State Sem Tid) :=
  if r.1.enabled s then some { r.1.apply t s with pc := update s.pc t r.2 } else none

def step (e : Env Sem) (s : State Sem Tid) : Act Sem Tid → Option (State Sem Tid)
  | .start t op => match s.pc t with
    | .idle => (op.begin s).bind (s.move t)
    | _ => none
  | .run t => (next e s (s.pc t)).bind (s.move t)
  | .leave t => match s.pc t with
    | .walk objs i | .spin objs i => if objs.length ≤ i then s.move t (enterKernel s objs) else none
    | _ => none
  | .alert q =>
    if q < s.fresh ∧ (s.queue q).signaled = none then
      some { s with
        queue := update s.queue q ⟨(s.queue q).objs, (s.queue q).all,
          some (s.queue q).objs.length⟩ }
    else none

end

end WinePpc64.Ntsync
