import WinePpc64.Com.Surface
import WinePpc64.Lib.Runs

/-!
The merge of the device rings with the records as the drain reads them: a record may not be
whole yet when its `pos` is visible, so every record is validated, and one that fails holds its
ring back for this drain. The appends of other threads stand between any two steps of a drain;
the holder of `dev_cs` is the only one to drain or to register a ring.
-/

namespace WinePpc64.Journal.Merge

open Com Function List

def devRecBytes : ℕ := 56
def devShapeCbv : ℕ := 8
def devRingSize : ℕ := 0x8000

structure DevRec where
  key : ℕ
  sizesh : ℕ
  stamp : ℕ
  proxy : ℕ
  desc : ℕ
  handle : ℕ
  location : ℕ
  size : ℕ
  deriving DecidableEq, Repr

def DevRec.iface (x : DevRec) : ℕ := x.key >>> 16

def DevRec.slot (x : DevRec) : ℕ := x.key &&& 0xffff

structure Call where
  proxy : ℕ
  iface : ℕ
  slot : ℕ
  desc : Option (ℕ × ℕ)
  handle : ℕ
  deriving DecidableEq, Repr

def DevRec.call (x : DevRec) : Call where
  proxy := x.proxy
  iface := x.iface
  slot := x.slot
  desc := if x.desc = 0 then none else some (x.location, x.size)
  handle := x.handle

structure Entry where
  serial : ℕ
  bytes : DevRec
  deriving DecidableEq, Repr

def Entry.stamp (e : Entry) : ℕ := e.bytes.stamp

/-- `struct dev_ring` and the records at the offsets where they start. The last three fields are
history: the appends so far, an append whose dirty byte is still to be stored, and a drop of the
ring as corrupt. -/
structure DevRing where
  pos : ℕ
  cap : ℕ
  cons : ℕ
  ownerTid : ℕ
  badCons : ℕ
  badSince : BitVec 64
  snap : ℕ
  data : ℕ → Entry
  appended : ℕ
  unmarked : Bool
  dropped : Bool

def noBadCons : ℕ := 2 ^ 32 - 1

structure Replay where
  ring : ℕ
  serial : ℕ
  stamp : ℕ
  call : Call
  deriving DecidableEq, Repr

def Entry.replay (r : ℕ) (e : Entry) : Replay := ⟨r, e.serial, e.stamp, e.bytes.call⟩

inductive Phase
  | idle
  | snapshot (tid cut : ℕ) (todo : List ℕ)
  | merge (tid cut : ℕ)
  | reclaim (tid : ℕ) (todo : List ℕ)
  deriving DecidableEq

structure State where
  registry : List ℕ
  ring : ℕ → DevRing
  proxies : List ℕ
  dirty : Bool
  phase : Phase
  log : List Replay

inductive Act
  | arm (r tid : ℕ)
  | intern (p : ℕ)
  | publish (r : ℕ) (x : DevRec)
  | mark (r : ℕ)
  | land (r o : ℕ) (x : DevRec)
  | call (tid cut : ℕ)
  | enter (tid cut : ℕ)
  | drain (now : BitVec 64)

namespace DevRing

def armed (tid : ℕ) : DevRing where
  pos := 0
  cap := devRingSize
  cons := 0
  ownerTid := tid
  badCons := noBadCons
  badSince := 0
  snap := 0
  data := fun _ => ⟨0, ⟨0, 0, 0, 0, 0, 0, 0, 0⟩⟩
  appended := 0
  unmarked := false
  dropped := false

def takeSnap (g : DevRing) : DevRing :=
  { g with snap := if g.cap < g.pos ∨ g.pos % devRecBytes ≠ 0 then g.cons else g.pos }

def head (g : DevRing) : Entry := g.data g.cons

def hold (g : DevRing) : DevRing := { g with snap := g.cons }

def noteBad (g : DevRing) (now : BitVec 64) : DevRing :=
  { g with badCons := g.cons % 2 ^ 32, badSince := now }

def drop (g : DevRing) : DevRing :=
  { g with badCons := noBadCons, cons := g.snap, dropped := true }

def reject (g : DevRing) (now : BitVec 64) : DevRing :=
  if g.badCons ≠ g.cons % 2 ^ 32 then (g.noteBad now).hold
  else if 512000 < (now - g.badSince).toNat then g.drop
  else g.hold

def advance (g : DevRing) : DevRing :=
  { g with
    badCons := if g.badCons = g.cons % 2 ^ 32 then noBadCons else g.badCons
    cons := g.cons + devRecBytes }

def reset (g : DevRing) : DevRing := { g with pos := 0, cons := 0 }

def append (g : DevRing) (x : DevRec) : DevRing :=
  { g with
    data := update g.data g.pos ⟨g.appended, x⟩
    pos := g.pos + devRecBytes
    appended := g.appended + 1
    unmarked := true }

def mark (g : DevRing) : DevRing := { g with unmarked := false }

def land (g : DevRing) (o : ℕ) (x : DevRec) : DevRing :=
  { g with data := update g.data o ⟨(g.data o).serial, x⟩ }

end DevRing

namespace State

@[simps -fullyApplied] def setRing (s : State) (r : ℕ) (g : DevRing) : State :=
  { s with ring := update s.ring r g }

@[simps -fullyApplied] def setPhase (s : State) (p : Phase) : State := { s with phase := p }

@[simps -fullyApplied] def setDirty (s : State) (b : Bool) : State := { s with dirty := b }

@[simps -fullyApplied] def addLog (s : State) (x : Replay) : State := { s with log := s.log ++ [x] }

def register (s : State) (r : ℕ) (g : DevRing) : State :=
  { s with registry := r :: s.registry, ring := update s.ring r g }

end State

def wellFormed (sf : Surface) (devSlotMap : ℕ → ℕ → Bool) (proxies : List ℕ) (x : DevRec) : Bool :=
  match sf.ifaces[x.iface]? with
  | none => false
  | some itf =>
    x.sizesh == devRecBytes ||| devShapeCbv <<< 24 && decide (x.slot < itf.slotCount) &&
      devSlotMap x.iface x.slot && proxies.contains x.proxy

def older (ring : ℕ → DevRing) (best : Option ℕ) (r : ℕ) : Option ℕ :=
  if (ring r).snap ≤ (ring r).cons then best
  else match best with
    | none => some r
    | some b => if (ring r).head.stamp < (ring b).head.stamp then some r else some b

def best (ring : ℕ → DevRing) (registry : List ℕ) : Option ℕ := registry.foldl (older ring) none

def Oldest (ring : ℕ → DevRing) (seen : List ℕ) : Option ℕ → Prop
  | none => ∀ r ∈ seen, (ring r).snap ≤ (ring r).cons
  | some b => b ∈ seen ∧ (ring b).cons < (ring b).snap ∧
      ∀ r ∈ seen, (ring r).cons < (ring r).snap → (ring b).head.stamp ≤ (ring r).head.stamp

theorem Oldest.snoc {ring : ℕ → DevRing} {seen : List ℕ} {o : Option ℕ} (h : Oldest ring seen o)
    {r : ℕ} : Oldest ring (seen ++ [r]) (older ring o r) := by
  simp only [older]
  split_ifs with hr
  · cases o with
    | none =>
      intro q hq
      obtain hq | hq := mem_append.mp hq
      · exact h q hq
      · rwa [mem_singleton.mp hq]
    | some b =>
      refine ⟨mem_append_left _ h.1, h.2.1, fun q hq hlt => ?_⟩
      obtain hq | hq := mem_append.mp hq
      · exact h.2.2 q hq hlt
      · rw [mem_singleton.mp hq] at hlt
        omega
  · push Not at hr
    cases o with
    | none =>
      refine ⟨by simp, hr, fun q hq hlt => ?_⟩
      obtain hq | hq := mem_append.mp hq
      · exact absurd (h q hq) (by omega)
      · rw [mem_singleton.mp hq]
    | some b =>
      dsimp only
      split_ifs with hlt
      · refine ⟨by simp, hr, fun q hq hq' => ?_⟩
        obtain hq | hq := mem_append.mp hq
        · exact hlt.le.trans (h.2.2 q hq hq')
        · rw [mem_singleton.mp hq]
      · refine ⟨mem_append_left _ h.1, h.2.1, fun q hq hq' => ?_⟩
        obtain hq | hq := mem_append.mp hq
        · exact h.2.2 q hq hq'
        · rw [mem_singleton.mp hq]
          omega

theorem best_oldest {ring : ℕ → DevRing} {registry : List ℕ} : Oldest ring registry (best ring registry) := by
  induction registry using List.reverseRecOn with
  | nil => exact fun r hr => absurd hr (not_mem_nil)
  | append_singleton rs r ih =>
    rw [best, foldl_append]
    exact ih.snoc

theorem best_eq_some {ring : ℕ → DevRing} {registry : List ℕ} {b : ℕ}
    (h : best ring registry = some b) : Oldest ring registry (some b) :=
  h ▸ best_oldest

section

variable (sf : Surface) (devSlotMap : ℕ → ℕ → Bool)

def visit (s : State) (b : ℕ) (now : BitVec 64) : State :=
  if wellFormed sf devSlotMap s.proxies (s.ring b).head.bytes then
    (s.setRing b (s.ring b).advance).addLog ((s.ring b).head.replay b)
  else s.setRing b ((s.ring b).reject now)

def wcDevDrain (s : State) (now : BitVec 64) : Option State :=
  match s.phase with
  | .idle => none
  | .snapshot tid cut [] => some (s.setPhase (.merge tid cut))
  | .snapshot tid cut (r :: rs) =>
    some ((s.setRing r (s.ring r).takeSnap).setPhase (.snapshot tid cut rs))
  | .merge tid cut => match best s.ring s.registry with
    | none => some (s.setPhase (.reclaim tid s.registry))
    | some b =>
      if cut ≤ (s.ring b).head.stamp then
        -- every remaining head is younger than the cut
        some ((s.setDirty true).setPhase (.reclaim tid s.registry))
      else some (visit sf devSlotMap s b now)
  | .reclaim _ [] => some (s.setPhase .idle)
  | .reclaim tid (r :: rs) =>
    if (s.ring r).ownerTid = tid ∧ (s.ring r).cons = (s.ring r).pos then
      -- the writer is this thread and it is here, not appending
      some ((s.setRing r (s.ring r).reset).setPhase (.reclaim tid rs))
    else if (s.ring r).cons < (s.ring r).pos then
      some ((s.setDirty true).setPhase (.reclaim tid rs))
    else some (s.setPhase (.reclaim tid rs))

def State.begin (s : State) (tid cut : ℕ) : State :=
  (s.setDirty false).setPhase (.snapshot tid cut s.registry)

def Phase.tid : Phase → Option ℕ
  | .idle => none
  | .snapshot tid _ _ | .merge tid _ | .reclaim tid _ => some tid

def State.trapped (s : State) (tid : ℕ) : Bool :=
  s.registry.all fun r => (s.ring r).ownerTid != tid || !(s.ring r).unmarked

def step (s : State) : Act → Option State
  | .arm r tid =>
    if s.phase = .idle ∧ r ∉ s.registry then
      some (s.register r (.armed tid))
    else none
  | .intern p => some { s with proxies := p :: s.proxies }
  | .publish r x =>
    if r ∈ s.registry ∧ (s.ring r).unmarked = false ∧
        s.phase.tid ≠ some (s.ring r).ownerTid ∧
        (s.ring r).pos + devRecBytes ≤ (s.ring r).cap then
      some (s.setRing r ((s.ring r).append x))
    else none
  | .mark r =>
    if r ∈ s.registry ∧ (s.ring r).unmarked then
      some ((s.setRing r (s.ring r).mark).setDirty true)
    else none
  | .land r o x => if r ∈ s.registry then some (s.setRing r ((s.ring r).land o x)) else none
  | .call tid cut =>
    if s.phase = .idle ∧ s.trapped tid then
      some (if s.dirty then s.begin tid cut else s)
    else none
  | .enter tid cut =>
    if s.phase = .idle ∧ s.trapped tid then some (s.begin tid cut) else none
  | .drain now => wcDevDrain sf devSlotMap s now

end

end WinePpc64.Journal.Merge
