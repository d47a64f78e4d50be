import WinePpc64.Lib.Runs

/-!
The two critical sections of the forward runtime, `jr_cs` (context-ring replay) and `wc_cs`
(the interning tables), and every path that takes them: `winecom_wrap`, a proxy's AddRef and
Release with the ring reference it may drop, reverse proxies, `wc_ctx_drain` with the calls
its replay makes, and `wc_ctx_journal_disable`. Each thread has a stack of activations.
-/

namespace WinePpc64.Com.Locks

def ctxRingsMax : ℕ := 16

structure CriticalSection where
  owner : Option ℕ
  depth : ℕ

def CriticalSection.enter (c : CriticalSection) (t : ℕ) : Option CriticalSection :=
  if c.owner = none ∨ c.owner = some t then some ⟨some t, c.depth + 1⟩ else none

def CriticalSection.leave (c : CriticalSection) : CriticalSection :=
  if c.depth ≤ 1 then ⟨none, 0⟩ else ⟨c.owner, c.depth - 1⟩

structure Proxy where
  host : ℕ
  ctxJournaled : Bool
  interned : Bool
  refs : ℕ
  ring : Option ℕ

structure CtxRing where
  host : Option ℕ
  refs : ℤ
  draining : Bool

inductive Guarded
  | wrap (k : ℕ) (memory : Bool)
  | addref (k : ℕ)
  | release (k : ℕ)
  | reverse

inductive Frame
  | wcEnter (w : Guarded)
  | wcBody (w : Guarded)
  | ringRelease (r : ℕ)
  | ringEnter (r : ℕ)
  | ringDetach (r : ℕ)
  | wcLeave
  | drainTest (r : ℕ)
  | drainEnter (r : ℕ)
  | drainCheck (r : ℕ)
  | replay (r : ℕ)
  | drainLeave
  | offTest
  | offEnter
  | offLoop (i : ℕ)

inductive Op
  | wrap (k : ℕ) (memory : Bool)
  | wrapReverse
  | addref (k : ℕ)
  | release (k : ℕ)
  | reverse
  | drain (r : ℕ)
  | disable

def Op.frames : Op → List Frame
  | .wrap k memory => [.wcEnter (.wrap k memory)]
  | .wrapReverse => [.wcEnter .reverse, .wcEnter .reverse]
  | .addref k => [.wcEnter (.addref k)]
  | .release k => [.wcEnter (.release k)]
  | .reverse => [.wcEnter .reverse]
  | .drain r => [.drainTest r]
  | .disable => [.offTest]

structure State where
  wc : CriticalSection
  jr : CriticalSection
  journalOff : Bool
  proxies : ℕ → Proxy
  rings : ℕ → CtxRing
  stack : ℕ → List Frame

/-- `call` enters an operation, from the top of a thread or from the replay loop; `done`
leaves a loop or takes an early exit; `go` is any other step. -/
inductive Act
  | call (op : Op)
  | done
  | go

namespace State

def setStack (s : State) (t : ℕ) (fs : List Frame) : State :=
  { s with stack := Function.update s.stack t fs }

def setProxy (s : State) (k : ℕ) (p : Proxy) : State :=
  { s with proxies := Function.update s.proxies k p }

def setRing (s : State) (r : ℕ) (g : CtxRing) : State :=
  { s with rings := Function.update s.rings r g }

def ctxRingAcquire (s : State) (host : ℕ) : Option (ℕ × State) :=
  match (List.range ctxRingsMax).find? fun r =>
      (s.rings r).host = some host && decide (0 < (s.rings r).refs) with
  | some r => some (r, s.setRing r { s.rings r with refs := (s.rings r).refs + 1 })
  | none => match (List.range ctxRingsMax).find? fun r => (s.rings r).host = none with
    | some r => some (r, s.setRing r { s.rings r with host := some host, refs := 1 })
    | none => none

def proxyArmJournal (s : State) (k : ℕ) : State :=
  if (s.proxies k).ctxJournaled && !s.journalOff then
    match s.ctxRingAcquire (s.proxies k).host with
    | some (r, s') => s'.setProxy k { s'.proxies k with ring := some r }
    | none => s
  else s

def guarded (s : State) : Guarded → State × Option ℕ
  | .wrap k memory =>
    let p := s.proxies k
    if p.interned then
      let s' := s.setProxy k { p with refs := p.refs + 1 }
      (if p.refs = 0 then s'.proxyArmJournal k else s', none)
    else if memory then
      ((s.setProxy k { p with interned := true, refs := 1, ring := none }).proxyArmJournal k, none)
    else (s, none)
  | .addref k => (s.setProxy k { s.proxies k with refs := (s.proxies k).refs + 1 }, none)
  | .release k =>
    let p := s.proxies k
    if p.refs = 1 then (s.setProxy k { p with refs := 0, ring := none }, p.ring)
    else (s.setProxy k { p with refs := p.refs - 1 }, none)
  | .reverse => (s, none)

end State

def CtxRing.detach (g : CtxRing) : CtxRing := { g with host := none }

def goStep (s : State) (t : ℕ) (fs : List Frame) : Frame → Option State
  | .wcEnter w => (s.wc.enter t).map fun wc => { s with wc := wc }.setStack t (.wcBody w :: fs)
  | .wcBody w => match s.guarded w with
    | (s', some r) => some (s'.setStack t (.ringRelease r :: fs))
    | (s', none) => some (s'.setStack t (.wcLeave :: fs))
  | .ringRelease r =>
    let g := s.rings r
    some ((s.setRing r { g with refs := g.refs - 1 }).setStack t
      (if g.refs - 1 = 0 then .ringEnter r :: fs else .wcLeave :: fs))
  | .ringEnter r =>
    (s.jr.enter t).map fun jr => { s with jr := jr }.setStack t (.ringDetach r :: fs)
  | .ringDetach r =>
    some ({ s.setRing r (s.rings r).detach with jr := s.jr.leave }.setStack t (.wcLeave :: fs))
  | .wcLeave => some ({ s with wc := s.wc.leave }.setStack t fs)
  | .drainTest r => some (s.setStack t (.drainEnter r :: fs))
  | .drainEnter r =>
    (s.jr.enter t).map fun jr => { s with jr := jr }.setStack t (.drainCheck r :: fs)
  | .drainCheck r =>
    if (s.rings r).host = none ∨ (s.rings r).draining = true then
      some (s.setStack t (.drainLeave :: fs))
    else some ((s.setRing r { s.rings r with draining := true }).setStack t (.replay r :: fs))
  | .drainLeave => some ({ s with jr := s.jr.leave }.setStack t fs)
  | .offTest => some (s.setStack t (.offEnter :: fs))
  | .offEnter => (s.jr.enter t).map fun jr => { s with jr := jr }.setStack t (.offLoop 0 :: fs)
  | .offLoop i =>
    if i < ctxRingsMax then
      if (s.rings i).host = none then some (s.setStack t (.offLoop (i + 1) :: fs))
      else some (s.setStack t (.drainTest i :: .offLoop (i + 1) :: fs))
    else some ({ s with journalOff := true }.setStack t (.drainLeave :: fs))
  | .replay _ => none

def doneStep (s : State) (t : ℕ) (fs : List Frame) : Frame → Option State
  | .drainTest _ => some (s.setStack t fs)
  | .replay r =>
    some ((s.setRing r { s.rings r with draining := false }).setStack t (.drainLeave :: fs))
  | .offTest => if s.journalOff then some (s.setStack t fs) else none
  | .offLoop 0 => if s.journalOff then some (s.setStack t (.drainLeave :: fs)) else none
  | _ => none

def callStep (s : State) (t : ℕ) (op : Op) : List Frame → Option State
  | [] => some (s.setStack t op.frames)
  | .replay r :: fs => some (s.setStack t (op.frames ++ .replay r :: fs))
  | _ => none

def step (s : State) : ℕ × Act → Option State
  | (t, .call op) => callStep s t op (s.stack t)
  | (t, .go) => match s.stack t with
    | f :: fs => goStep s t fs f
    | [] => none
  | (t, .done) => match s.stack t with
    | f :: fs => doneStep s t fs f
    | [] => none

end WinePpc64.Com.Locks
