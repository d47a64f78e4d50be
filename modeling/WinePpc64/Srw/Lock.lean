import WinePpc64.Lib.Runs

namespace WinePpc64.Srw

structure Word where
  waiters : BitVec 16
  owners : BitVec 16
  deriving DecidableEq, Repr

inductive Mode
  | exclusive
  | shared
  deriving DecidableEq, Repr

inductive Op
  | acquire (mode : Mode)
  | tryAcquire (mode : Mode)
  | release (mode : Mode)
  deriving DecidableEq, Repr

inductive Outcome
  | taken
  | wait
  | refused
  | released
  deriving DecidableEq, Repr

def attempt (old : Word) : Op → Word × Outcome
  | .acquire .exclusive =>
    if old.owners = 0 then ({ owners := 1, waiters := (old.waiters - 2) ||| 1 }, .taken) else (old, .wait)
  | .acquire .shared =>
    if old.waiters = 0 then ({ old with owners := old.owners + 1 }, .taken) else (old, .wait)
  | .tryAcquire .exclusive =>
    if old.owners = 0 then ({ owners := 1, waiters := old.waiters ||| 1 }, .taken) else (old, .refused)
  | .tryAcquire .shared =>
    if old.waiters = 0 then ({ old with owners := old.owners + 1 }, .taken) else (old, .refused)
  | .release .exclusive => ({ owners := 0, waiters := old.waiters &&& ~~~1 }, .released)
  | .release .shared => ({ old with owners := old.owners - 1 }, .released)

inductive Pc
  | idle
  /-- Before the exclusive waiter is counted. -/
  | enter
  | read (op : Op)
  | exchange (op : Op) (old : Word)
  /-- Before `RtlWaitOnAddress` with the value that was seen. -/
  | wait (mode : Mode) (seen : Word)
  | asleep (mode : Mode)
  | wakeSingle
  | wakeAll
  deriving DecidableEq, Repr

structure Thread where
  pc : Pc
  exclusive : Bool
  shared : ℕ
  deriving DecidableEq, Repr

def Thread.goto (x : Thread) (pc : Pc) : Thread := { x with pc := pc }

def Thread.takeExclusive (x : Thread) : Thread := { x with pc := .idle, exclusive := true }

def Thread.takeShared (x : Thread) : Thread := { x with pc := .idle, shared := x.shared + 1 }

def Thread.leaveExclusive (x : Thread) (pc : Pc) : Thread := { x with pc := pc, exclusive := false }

def Thread.leaveShared (x : Thread) (pc : Pc) : Thread := { x with pc := pc, shared := x.shared - 1 }

def Thread.commit (x : Thread) (op : Op) (new : Word) : Outcome → Thread
  | .taken =>
    match op with
    | .acquire .exclusive | .tryAcquire .exclusive => x.takeExclusive
    | _ => x.takeShared
  | .wait =>
    match op with
    | .acquire mode => x.goto (.wait mode new)
    | _ => x.goto .idle
  | .refused => x.goto .idle
  | .released =>
    match op with
    | .release .exclusive => x.leaveExclusive (if new.waiters ≠ 0 then .wakeSingle else .wakeAll)
    | _ => x.leaveShared (if new.owners = 0 then .wakeSingle else .idle)

variable {T : Type} [Fintype T] [DecidableEq T]

structure State (T : Type) where
  word : Word
  thread : T → Thread

def State.init : State T := ⟨⟨0, 0⟩, fun _ => ⟨.idle, false, 0⟩⟩

def State.put (s : State T) (t : T) (x : Thread) (w : Word) : State T := ⟨w, Function.update s.thread t x⟩

def State.move (s : State T) (t : T) (pc : Pc) : State T := s.put t ((s.thread t).goto pc) s.word

def State.rouseShared (s : State T) : State T :=
  ⟨s.word, fun u => if (s.thread u).pc = .asleep .shared then (s.thread u).goto (.read (.acquire .shared))
    else s.thread u⟩

def same (mode : Mode) (seen w : Word) : Bool :=
  match mode with
  | .exclusive => decide (w.owners = seen.owners)
  | .shared => decide (w = seen)

def Thread.may (x : Thread) : Op → Bool
  | .release .exclusive => x.exclusive
  | .release .shared => decide (0 < x.shared)
  | _ => true

inductive Event (T : Type)
  | call (t : T) (op : Op)
  /-- The next access of the thread to the lock, with the sleeper it wakes if it is to wake one. -/
  | next (t : T) (woken : Option T)

def start : Op → Pc
  | .acquire .exclusive => .enter
  | op => .read op

def step (s : State T) : Event T → Option (State T)
  | .call t op =>
    if (s.thread t).pc = .idle ∧ (s.thread t).may op then some (s.move t (start op)) else none
  | .next t woken =>
    match (s.thread t).pc with
    | .idle => none
    | .enter =>
      some (s.put t ((s.thread t).goto (.read (.acquire .exclusive)))
        { s.word with waiters := s.word.waiters + 2 })
    | .read op => some (s.move t (.exchange op s.word))
    | .exchange op old =>
      if s.word = old then
        let r := attempt old op
        some (s.put t ((s.thread t).commit op r.1 r.2) r.1)
      else some (s.move t (.read op))
    | .wait mode seen =>
      if same mode seen s.word then some (s.move t (.asleep mode)) else some (s.move t (.read (.acquire mode)))
    | .asleep _ => none
    | .wakeSingle =>
      match woken with
      | none => if ∃ u, (s.thread u).pc = .asleep .exclusive then none else some (s.move t .idle)
      | some u =>
        if (s.thread u).pc = .asleep .exclusive then
          some ((s.move u (.read (.acquire .exclusive))).move t .idle)
        else none
    | .wakeAll => some (s.rouseShared.move t .idle)

end WinePpc64.Srw
