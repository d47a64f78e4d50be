import WinePpc64.Journal.Record
import WinePpc64.Lib.Runs

/-!
The context rings of the journal and every thread that touches them: the
emitted snippet of a recording thread, `wc_ctx_drain`, `wc_ctx_drain_all` and
`wc_ctx_journal_disable`, one shared-memory access at a time. Fields that only
the holder of `jr_cs` touches are read and written in one step.
-/

namespace WinePpc64.Journal.Ctx

open Function

structure CtxRec where
  size : ℕ
  payload : ℕ
  size_ge : 8 ≤ size
  size_le : size ≤ journalGenMaxRec
deriving DecidableEq

def ctxRingsMax : ℕ := 16

/-- `struct ctx_ring`, with the records at the offsets where they start. The last four
fields are history: the offset up to which records were handed to replay, the records
committed by a `pos` store, the records replayed, and the number of appends that have
completed, dirty byte included. -/
structure Ring where
  pos : ℕ
  cap : ℕ
  cons : ℕ
  host : Bool
  draining : Bool
  data : ℕ → Option CtxRec
  done : ℕ
  appended : List CtxRec
  replayed : List CtxRec
  completed : ℕ

/-- Who called `wc_ctx_drain`: a trap or a crossing argument, the loop of
`wc_ctx_drain_all` at ring `i`, or the loop of `wc_ctx_journal_disable`. For the first
loop, `need` and `cover` are the completed appends per ring when the function was entered
and when the dirty byte was cleared. -/
inductive Caller
  | direct (onProxy : Bool)
  | all (i : ℕ) (need cover : ℕ → ℕ)
  | disable (i : ℕ)

def Caller.onProxy : Caller → Bool
  | .direct b => b
  | _ => false

inductive DrainPc
  | loadPos
  | loadCons (pos n : ℕ)
  | enter (n : ℕ)
  | check (n : ℕ)
  | reload (n : ℕ)
  | bound (pos n : ℕ)
  | replay (pos off n : ℕ)
  | setCons (pos n : ℕ)
  | reset (n : ℕ)
  | resetPos (n : ℕ)
  | undrain (n : ℕ)
  | leave (n : ℕ)

def DrainPc.seen : DrainPc → Option ℕ
  | .loadPos => none
  | .loadCons _ n | .enter n | .check n | .reload n | .bound _ n | .replay _ _ n
  | .setCons _ n | .reset n | .resetPos n | .undrain n | .leave n => some n

def DrainPc.phase : DrainPc → ℕ
  | .loadPos => 11
  | .loadCons _ _ => 10
  | .enter _ => 9
  | .check _ => 8
  | .reload _ => 7
  | .bound _ _ => 6
  | .replay _ _ _ => 5
  | .setCons _ _ => 4
  | .reset _ => 3
  | .resetPos _ => 2
  | .undrain _ => 1
  | .leave _ => 0

def DrainPc.rank (d : DrainPc) : ℕ ×ₗ ℕ :=
  toLex (d.phase, match d with
    | .replay pos off _ => pos - off
    | _ => 0)

inductive Pc
  | idle
  | room (r : ℕ) (x : CtxRec)
  | bytes (r : ℕ) (x : CtxRec) (pos : ℕ)
  | commit (r : ℕ) (x : CtxRec) (pos : ℕ)
  | dirtyLoad (r : ℕ)
  | dirtyStore (r : ℕ)
  | drain (o : Caller) (r : ℕ) (d : DrainPc)
  | allTest (need : ℕ → ℕ)
  | allClear (need : ℕ → ℕ)
  | allLoop (i : ℕ) (need cover : ℕ → ℕ)
  | allCons (i pos n : ℕ) (need cover : ℕ → ℕ)
  | offTest
  | offEnter
  | offRecheck
  | offLoop (i : ℕ)
  | offCap (i : ℕ)
  | offStore
  | offLeave

structure State where
  rings : ℕ → Ring
  owner : Option ℕ
  depth : ℕ
  dirty : Bool
  journalOff : Bool
  pc : ℕ → Pc

inductive Act
  | append (r : ℕ) (x : CtxRec)
  | drain (r : ℕ) (onProxy : Bool)
  | drainAll
  | disable
  | go

namespace State

@[simps -fullyApplied] def setPc (s : State) (t : ℕ) (p : Pc) : State := { s with pc := update s.pc t p }

@[simps -fullyApplied] def setRing (s : State) (r : ℕ) (g : Ring) : State :=
  { s with rings := update s.rings r g }

def enterCs (s : State) (t : ℕ) : Option State :=
  if s.owner = none ∨ s.owner = some t then
    some { s with owner := some t, depth := s.depth + 1 }
  else none

def leaveCs (s : State) : State :=
  if s.depth = 1 then { s with owner := none, depth := 0 } else { s with depth := s.depth - 1 }

def completed (s : State) : ℕ → ℕ := fun r => (s.rings r).completed

variable (s : State)

@[simp] theorem leaveCs_rings : s.leaveCs.rings = s.rings := by
  unfold leaveCs
  split <;> rfl

@[simp] theorem leaveCs_pc : s.leaveCs.pc = s.pc := by
  unfold leaveCs
  split <;> rfl

@[simp] theorem leaveCs_dirty : s.leaveCs.dirty = s.dirty := by
  unfold leaveCs
  split <;> rfl

theorem setRing_self (r : ℕ) : s.setRing r (s.rings r) = s := by
  simp [setRing]

end State

def Caller.after : Caller → Pc
  | .direct _ => .idle
  | .all i need cover => .allLoop (i + 1) need cover
  | .disable i => .offLoop (i + 1)

def Ring.replayOne (g : Ring) (off : ℕ) (x : CtxRec) : Ring :=
  { g with replayed := g.replayed ++ [x], done := off + x.size }

def Ring.commit (g : Ring) (pos : ℕ) (x : CtxRec) : Ring :=
  { g with pos := pos + x.size, appended := g.appended ++ [x] }

def Ring.corrupt (g : Ring) (pos : ℕ) : Prop :=
  g.cap + journalGenMaxRec < pos ∨ pos < g.cons

instance (g : Ring) (pos : ℕ) : Decidable (g.corrupt pos) :=
  inferInstanceAs (Decidable (_ ∨ _))

def wcCtxDrain (s : State) (t : ℕ) (o : Caller) (r : ℕ) : DrainPc → Option State
  | .loadPos =>
    some (s.setPc t (.drain o r (.loadCons (s.rings r).pos (s.rings r).appended.length)))
  | .loadCons pos n =>
    if pos = (s.rings r).cons ∧ ¬ (o.onProxy = true ∧ pos ≠ 0) then some (s.setPc t o.after)
    else some (s.setPc t (.drain o r (.enter n)))
  | .enter n => (s.enterCs t).map fun s' => s'.setPc t (.drain o r (.check n))
  | .check n =>
    -- released under us, or our own outer drain
    if (s.rings r).host = false ∨ (s.rings r).draining = true then
      some (s.setPc t (.drain o r (.leave n)))
    else some ((s.setRing r { s.rings r with draining := true }).setPc t
      (.drain o r (.reload n)))
  | .reload n => some (s.setPc t (.drain o r (.bound (s.rings r).pos n)))
  | .bound pos n =>
    if (s.rings r).corrupt pos then
      some ((s.setRing r { s.rings r with cons := pos, done := pos }).setPc t
        (.drain o r (.reset n)))
    else if (s.rings r).cons < pos then
      some (s.setPc t (.drain o r (.replay pos (s.rings r).cons n)))
    else some (s.setPc t (.drain o r (.reset n)))
  | .replay pos off n =>
    if off < pos then
      ((s.rings r).data off).map fun x => (s.setRing r ((s.rings r).replayOne off x)).setPc t
        (.drain o r (.replay pos (off + x.size) n))
    else some (s.setPc t (.drain o r (.setCons pos n)))
  | .setCons pos n =>
    some ((s.setRing r { s.rings r with cons := pos }).setPc t (.drain o r (.reset n)))
  | .reset n =>
    if o.onProxy then
      some ((s.setRing r { s.rings r with cons := 0 }).setPc t (.drain o r (.resetPos n)))
    else some (s.setPc t (.drain o r (.undrain n)))
  | .resetPos n =>
    some ((s.setRing r { s.rings r with pos := 0, done := 0 }).setPc t (.drain o r (.undrain n)))
  | .undrain n =>
    some ((s.setRing r { s.rings r with draining := false }).setPc t (.drain o r (.leave n)))
  | .leave _ => some (s.leaveCs.setPc t o.after)

def Ring.complete (g : Ring) : Ring := { g with completed := g.appended.length }

/-- The snippet on the recording thread: room check, bytes, `pos`, then the dirty byte. A
record that does not fit falls back to the slot's trap, which drains on the proxy. -/
def snippet (s : State) (t : ℕ) : Pc → Option State
  | .room r x =>
    if (s.rings r).pos + x.size ≤ (s.rings r).cap then
      some (s.setPc t (.bytes r x (s.rings r).pos))
    else some (s.setPc t (.drain (.direct true) r .loadPos))
  | .bytes r x pos =>
    some ((s.setRing r { s.rings r with
      data := update (s.rings r).data pos (some x) }).setPc t (.commit r x pos))
  | .commit r x pos =>
    some ((s.setRing r ((s.rings r).commit pos x)).setPc t (.dirtyLoad r))
  | .dirtyLoad r =>
    if s.dirty then some ((s.setRing r (s.rings r).complete).setPc t .idle)
    else some (s.setPc t (.dirtyStore r))
  | .dirtyStore r =>
    some ({ s.setRing r (s.rings r).complete with dirty := true }.setPc t .idle)
  | _ => none

def wcCtxDrainAll (s : State) (t : ℕ) : Pc → Option State
  | .allTest need => some (s.setPc t (if s.dirty then .allClear need else .idle))
  | .allClear need =>
    some ({ s with dirty := false }.setPc t (.allLoop 0 need s.completed))
  | .allLoop i need cover =>
    if i < ctxRingsMax then
      if (s.rings i).host then
        some (s.setPc t (.allCons i (s.rings i).pos (s.rings i).appended.length need cover))
      else some (s.setPc t (.allLoop (i + 1) need cover))
    else some (s.setPc t .idle)
  | .allCons i pos _ need cover =>
    if pos = (s.rings i).cons then some (s.setPc t (.allLoop (i + 1) need cover))
    else some (s.setPc t (.drain (.all i need cover) i .loadPos))
  | _ => none

def wcCtxJournalDisable (s : State) (t : ℕ) : Pc → Option State
  | .offTest => some (s.setPc t (if s.journalOff then .idle else .offEnter))
  | .offEnter => (s.enterCs t).map fun s' => s'.setPc t .offRecheck
  | .offRecheck => some (s.setPc t (if s.journalOff then .offLeave else .offLoop 0))
  | .offLoop i =>
    if i < ctxRingsMax then
      some (s.setPc t (if (s.rings i).host then .offCap i else .offLoop (i + 1)))
    else some (s.setPc t .offStore)
  | .offCap i =>
    -- every snippet falls back from here
    some ((s.setRing i { s.rings i with cap := 0 }).setPc t (.drain (.disable i) i .loadPos))
  | .offStore => some ({ s with journalOff := true }.setPc t .offLeave)
  | .offLeave => some (s.leaveCs.setPc t .idle)
  | _ => none

def start (recorder : ℕ → ℕ) (s : State) (t : ℕ) : Act → Option State
  | .append r x =>
    if t = recorder r ∧ (s.rings r).host = true then some (s.setPc t (.room r x)) else none
  | .drain r onProxy =>
    if (onProxy = true → t = recorder r) ∧ (s.rings r).host = true then
      some (s.setPc t (.drain (.direct onProxy) r .loadPos))
    else none
  | .drainAll => some (s.setPc t (.allTest s.completed))
  | .disable => some (s.setPc t .offTest)
  | .go => none

def resume (s : State) (t : ℕ) : Pc → Option State
  | .drain o r d => wcCtxDrain s t o r d
  | p => (snippet s t p).or ((wcCtxDrainAll s t p).or (wcCtxJournalDisable s t p))

def step (recorder : ℕ → ℕ) (s : State) : ℕ × Act → Option State
  | (t, .go) => resume s t (s.pc t)
  | (t, a) => match s.pc t with
    | .idle => start recorder s t a
    | _ => none

end WinePpc64.Journal.Ctx
