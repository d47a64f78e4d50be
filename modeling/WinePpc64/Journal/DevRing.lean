import WinePpc64.Lib.RecordRing
import WinePpc64.Lib.Runs

/-!
The device journal: one ring per recording thread, all rings merged by stamp. The emitted
snippet and `wc_dev_drain`, one shared-memory access at a time; what only the holder of
`dev_cs` touches is read and written in one step. Records are well formed, so the merge holds
none back.
-/

namespace WinePpc64.Journal.Dev

open Function Lib

def devRecBytes : ℕ := 56

structure DevRec where
  stamp : ℕ
  call : ℕ
deriving DecidableEq

instance : Sized DevRec where
  size _ := devRecBytes
  size_pos _ := by decide

/-- `struct dev_ring`, with the records at the offsets where they start. The last three
fields are history: the records published by a `pos` store, the records whose replayed call
has returned, and the number of appends that have completed, dirty byte included. -/
structure DevRing where
  pos : ℕ
  cap : ℕ
  cons : ℕ
  snap : ℕ
  data : ℕ → Option DevRec
  appended : List DevRec
  replayed : List DevRec
  completed : ℕ

inductive Pc
  | idle
  | room (call : ℕ)
  | rdtsc (call pos : ℕ)
  | bytes (x : DevRec) (pos : ℕ)
  | commit (x : DevRec) (pos : ℕ)
  | dirtyStore
  | test (need : ℕ → ℕ)
  | enter (need : ℕ → ℕ)
  | fuse (need : ℕ → ℕ)
  | clear (need : ℕ → ℕ)
  | takeCut (need cover : ℕ → ℕ)
  | snapshot (i cut : ℕ) (need cover : ℕ → ℕ)
  | merge (cut : ℕ) (need cover : ℕ → ℕ)
  | rearm (need cover : ℕ → ℕ)
  | reclaim (i : ℕ) (need cover : ℕ → ℕ)
  | reclaimDirty (i : ℕ) (need cover : ℕ → ℕ)
  | leave (need cover : ℕ → ℕ)

structure State where
  rings : ℕ → DevRing
  owner : Option ℕ
  draining : Bool
  dirty : Bool
  clock : ℕ
  pc : ℕ → Pc

inductive Act
  | append (call : ℕ)
  | drain
  | go

namespace State

@[simps -fullyApplied] def setPc (s : State) (t : ℕ) (p : Pc) : State := { s with pc := update s.pc t p }

@[simps -fullyApplied] def setRing (s : State) (r : ℕ) (g : DevRing) : State :=
  { s with rings := update s.rings r g }

def completed (s : State) : ℕ → ℕ := fun r => (s.rings r).completed

end State

def DevRing.takeSnap (g : DevRing) : DevRing :=
  { g with snap := if g.cap < g.pos ∨ g.pos % devRecBytes ≠ 0 then g.cons else g.pos }

def DevRing.head (g : DevRing) : Option DevRec :=
  if g.cons < g.snap then g.data g.cons else none

def DevRing.replayHead (g : DevRing) (x : DevRec) : DevRing :=
  { g with replayed := g.replayed ++ [x], cons := g.cons + devRecBytes }

def DevRing.commit (g : DevRing) (pos : ℕ) (x : DevRec) : DevRing :=
  { g with pos := pos + devRecBytes, appended := g.appended ++ [x] }

def DevRing.complete (g : DevRing) : DevRing := { g with completed := g.appended.length }

def best (rings : ℕ → DevRing) : ℕ → Option (ℕ × DevRec)
  | 0 => none
  | n + 1 => match best rings n, (rings n).head with
    | b, none => b
    | none, some x => some (n, x)
    | some (r, y), some x => if x.stamp < y.stamp then some (n, x) else some (r, y)

def wcDevDrain (n : ℕ) (s : State) (t : ℕ) : Pc → Option State
  | .test need => some (s.setPc t (if s.dirty then .enter need else .idle))
  | .enter need =>
    if s.owner = none then some ({ s with owner := some t }.setPc t (.fuse need)) else none
  | .fuse need =>
    if s.draining then some ({ s with owner := none }.setPc t .idle)
    else some ({ s with draining := true }.setPc t (.clear need))
  | .clear need => some ({ s with dirty := false }.setPc t (.takeCut need s.completed))
  | .takeCut need cover =>
    some ({ s with clock := s.clock + 1 }.setPc t (.snapshot 0 s.clock need cover))
  | .snapshot i cut need cover =>
    if i < n then
      some ((s.setRing i (s.rings i).takeSnap).setPc t (.snapshot (i + 1) cut need cover))
    else some (s.setPc t (.merge cut need cover))
  | .merge cut need cover => match best s.rings n with
    | none => some (s.setPc t (.reclaim 0 need cover))
    | some (r, x) =>
      -- every remaining head is younger than the cut
      if cut ≤ x.stamp then some (s.setPc t (.rearm need cover))
      else some ((s.setRing r ((s.rings r).replayHead x)).setPc t (.merge cut need cover))
  | .rearm need cover => some ({ s with dirty := true }.setPc t (.reclaim 0 need cover))
  | .reclaim i need cover =>
    if i < n then
      if i = t ∧ (s.rings i).cons = (s.rings i).pos then
        -- the writer is this thread and it is here, not appending
        some ((s.setRing i { s.rings i with pos := 0, cons := 0 }).setPc t
          (.reclaim (i + 1) need cover))
      else if (s.rings i).cons < (s.rings i).pos then
        some (s.setPc t (.reclaimDirty i need cover))
      else some (s.setPc t (.reclaim (i + 1) need cover))
    else some ({ s with draining := false }.setPc t (.leave need cover))
  | .reclaimDirty i need cover =>
    some ({ s with dirty := true }.setPc t (.reclaim (i + 1) need cover))
  | .leave _ _ => some ({ s with owner := none }.setPc t .idle)
  | _ => none

/-- The snippet on thread `t`: room check, stamp, bytes, `pos`, then the dirty byte. Without
room it falls back to the trap, whose dispatch drains. -/
def snippet (s : State) (t : ℕ) : Pc → Option State
  | .room call =>
    if (s.rings t).pos + devRecBytes ≤ (s.rings t).cap then
      some (s.setPc t (.rdtsc call (s.rings t).pos))
    else some (s.setPc t (.test s.completed))
  | .rdtsc call pos =>
    some ({ s with clock := s.clock + 1 }.setPc t (.bytes ⟨s.clock, call⟩ pos))
  | .bytes x pos =>
    some ((s.setRing t { s.rings t with
      data := update (s.rings t).data pos (some x) }).setPc t (.commit x pos))
  | .commit x pos => some ((s.setRing t ((s.rings t).commit pos x)).setPc t .dirtyStore)
  | .dirtyStore => some ({ s.setRing t (s.rings t).complete with dirty := true }.setPc t .idle)
  | _ => none

def step (n : ℕ) (s : State) : ℕ × Act → Option State
  | (t, .go) => (snippet s t (s.pc t)).or (wcDevDrain n s t (s.pc t))
  | (t, .append call) => match s.pc t with
    | .idle => if t < n then some (s.setPc t (.room call)) else none
    | _ => none
  | (t, .drain) => match s.pc t with
    | .idle => some (s.setPc t (.test s.completed))
    | _ => none

end WinePpc64.Journal.Dev
