import WinePpc64.Lib.Placed
import WinePpc64.Lib.Runs

namespace WinePpc64.Heap.Lfh

open Function Lib

abbrev Group := ℕ

abbrev Tid := ℕ

abbrev Affinity := Fin 32

def groupBlockCount : ℕ := 31

def groupFlagFree : BitVec 32 := .twoPow 32 groupBlockCount

def bitScanForward (bits : BitVec 32) : Option ℕ := (List.range 32).find? fun i => bits.getLsbD i

inductive Pc
  | idle
  /-- `heap_acquire_bin_group` -/
  | exchange (a : Affinity)
  | pop (a : Affinity)
  | allocate (a : Affinity)
  /-- `find_free_bin_block` with the group it has acquired -/
  | setAffinity (a : Affinity) (g : Group)
  | readBits (a : Affinity) (g : Group)
  | clearBit (a : Affinity) (g : Group) (i : ℕ)
  | checkBits (a : Affinity) (g : Group) (i : ℕ)
  | setFlag (a : Affinity) (g : Group) (i : ℕ)
  | putBack (a : Affinity) (g : Group) (i : ℕ)
  | pushOld (old : Group) (g : Group) (i : ℕ)
  | noFreeBit
  /-- `heap_free_block_lfh` -/
  | orBit (g : Group) (i : ℕ)
  | reset (g : Group)
  | readAffinity (g : Group)
  | casSlot (a : Affinity) (g : Group)
  | queryDepth (g : Group)
  | release (g : Group)
  | detach (a : Affinity)
  | push (g : Group)
  deriving DecidableEq, Repr

structure State where
  slots : Affinity → Option Group
  shared : List Group
  bits : Group → BitVec 32
  affinity : Group → Affinity
  allocated : Group → Bool
  live : Group × ℕ → Bool
  pcs : Tid → Pc

inductive Act
  | alloc (a : Affinity)
  | free (g : Group) (i : ℕ)
  | exit (a : Affinity)
  /-- `group_allocate` gets this memory, or none -/
  | grow (g : Option Group)
  | run

namespace State

def init : State where
  slots := fun _ => none
  shared := []
  bits := fun _ => 0
  affinity := fun _ => 0
  allocated := fun _ => false
  live := fun _ => false
  pcs := fun _ => .idle

def goto (s : State) (t : Tid) (pc : Pc) : State := { s with pcs := update s.pcs t pc }

def setSlot (s : State) (a : Affinity) (g : Option Group) : State :=
  { s with slots := update s.slots a g }

def setBits (s : State) (g : Group) (bits : BitVec 32) : State := { s with bits := update s.bits g bits }

def setLive (s : State) (b : Group × ℕ) (v : Bool) : State := { s with live := update s.live b v }

def setAllocated (s : State) (g : Group) (v : Bool) : State :=
  { s with allocated := update s.allocated g v }

def handOut (s : State) (t : Tid) (g : Group) (i : ℕ) : State := (s.setLive (g, i) true).goto t .idle

end State

def step (s : State) : Tid × Act → Option State
  | (t, act) =>
    match s.pcs t, act with
    | .idle, .alloc a => some (s.goto t (.exchange a))
    | .idle, .free g i => if s.live (g, i) then some ((s.setLive (g, i) false).goto t (.orBit g i)) else none
    | .idle, .exit a => some (s.goto t (.detach a))
    | .exchange a, .run =>
      match s.slots a with
      | some g => some ((s.setSlot a none).goto t (.setAffinity a g))
      | none => some (s.goto t (.pop a))
    | .pop a, .run =>
      match s.shared with
      | g :: rest => some ({ s with shared := rest }.goto t (.setAffinity a g))
      | [] => some (s.goto t (.allocate a))
    | .allocate _, .grow none => some (s.goto t .idle)
    | .allocate a, .grow (some g) =>
      if s.allocated g then none
      else some (((s.setAllocated g true).setBits g (~~~groupFlagFree)).goto t (.setAffinity a g))
    | .setAffinity a g, .run =>
      some ({ s with affinity := update s.affinity g a }.goto t (.readBits a g))
    | .readBits a g, .run =>
      match bitScanForward (s.bits g) with
      | some i => some (s.goto t (.clearBit a g i))
      | none => some (s.goto t .noFreeBit)
    | .clearBit a g i, .run =>
      some ((s.setBits g (s.bits g &&& ~~~BitVec.twoPow 32 i)).goto t (.checkBits a g i))
    | .checkBits a g i, .run =>
      if s.bits g ≠ 0 then some (s.goto t (.putBack a g i)) else some (s.goto t (.setFlag a g i))
    | .setFlag a g i, .run =>
      if s.bits g = 0 then some ((s.setBits g groupFlagFree).handOut t g i)
      else some (s.goto t (.putBack a g i))
    | .putBack a g i, .run =>
      match s.slots a with
      | none => some ((s.setSlot a (some g)).handOut t g i)
      | some old => some ((s.setSlot a (some g)).goto t (.pushOld old g i))
    | .pushOld old g i, .run => some ({ s with shared := old :: s.shared }.handOut t g i)
    | .orBit g i, .run =>
      let old := s.bits g
      some ((s.setBits g (old ||| BitVec.twoPow 32 i)).goto t
        (if old = ~~~BitVec.twoPow 32 i then .reset g else .idle))
    | .reset g, .run => some ((s.setBits g (~~~groupFlagFree)).goto t (.readAffinity g))
    | .readAffinity g, .run => some (s.goto t (.casSlot (s.affinity g) g))
    | .casSlot a g, .run =>
      match s.slots a with
      | none => some ((s.setSlot a (some g)).goto t .idle)
      | some _ => some (s.goto t (.queryDepth g))
    | .queryDepth g, .run =>
      if s.shared.length ≤ 32 then some (s.goto t (.push g)) else some (s.goto t (.release g))
    | .release g, .run => some ((s.setAllocated g false).goto t .idle)
    | .detach a, .run =>
      match s.slots a with
      | some g => some ((s.setSlot a none).goto t (.push g))
      | none => some (s.goto t .idle)
    | .push g, .run => some ({ s with shared := g :: s.shared }.goto t .idle)
    | _, _ => none

namespace Pc

def holds : Pc → Option Group
  | setAffinity _ g | readBits _ g | clearBit _ g _ | checkBits _ g _ | setFlag _ g _ | putBack _ g _
  | reset g | readAffinity g | casSlot _ g | queryDepth g | release g | push g => some g
  | pushOld old _ _ => some old
  | _ => none

def taking : Pc → Option (Group × ℕ)
  | checkBits _ g i | setFlag _ g i | putBack _ g i | pushOld _ g i => some (g, i)
  | _ => none

def giving : Pc → Option (Group × ℕ)
  | orBit g i => some (g, i)
  | _ => none

end Pc

inductive Place
  | owned (t : Tid)
  | slot (a : Affinity)
  | shared
  | full
  | gone
  deriving DecidableEq, Repr

def GroupAt (s : State) (g : Group) : Place → Prop
  | .owned t => (s.pcs t).holds = some g
  | .slot a => s.slots a = some g
  | .shared => g ∈ s.shared
  | .full => s.allocated g = true ∧ (s.bits g).getLsbD groupBlockCount = true ∧ ∀ t, s.pcs t ≠ .reset g
  | .gone => s.allocated g = false

inductive Use
  | free
  | live
  | taken (t : Tid)
  | given (t : Tid)
  | absent
  deriving DecidableEq, Repr

def BlockAt (s : State) (b : Group × ℕ) : Use → Prop
  | .free => s.allocated b.1 = true ∧ b.2 < groupBlockCount ∧ (s.bits b.1).getLsbD b.2 = true
  | .live => s.live b = true
  | .taken t => (s.pcs t).taking = some b
  | .given t => (s.pcs t).giving = some b
  | .absent => s.allocated b.1 = false ∨ groupBlockCount ≤ b.2

def HasBit (bits : BitVec 32) : Prop := ∃ i < groupBlockCount, bits.getLsbD i = true

def Pc.Stage : Pc → BitVec 32 → Prop
  | setAffinity _ _, v | readBits _ _, v | putBack _ _ _, v | pushOld _ _ _, v | push _, v => HasBit v
  | clearBit _ _ i, v => i < groupBlockCount ∧ v.getLsbD i = true
  | reset _, v => ∀ i < groupBlockCount, v.getLsbD i = true
  | readAffinity _, v | casSlot _ _, v | queryDepth _, v | release _, v => v = ~~~groupFlagFree
  | noFreeBit, _ => False
  | _, _ => True

structure Inv (s : State) : Prop where
  groups : Placed (GroupAt s)
  blocks : Placed (BlockAt s)
  nodup : s.shared.Nodup
  ready : ∀ t g, (s.pcs t).holds = some g → (s.pcs t).Stage (s.bits g)
  found : ∀ t, s.pcs t ≠ .noFreeBit
  slotted : ∀ a g, s.slots a = some g → HasBit (s.bits g)
  listed : ∀ g ∈ s.shared, HasBit (s.bits g)

end WinePpc64.Heap.Lfh
