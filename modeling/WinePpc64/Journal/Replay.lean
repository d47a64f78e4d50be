import WinePpc64.Journal.Record

namespace WinePpc64.Journal

structure Levers where
  batchOff : Bool
  batchSabotage : Bool
  lwwOff : Bool
  lwwSabotage : Bool
  deriving DecidableEq, Repr

structure Call where
  iface : ℕ
  slot : ℕ
  proxy : Option Word
  rawargs : List Word
  off : ℕ
  deriving DecidableEq, Repr

/-- What the replay asks of the rest of the runtime: where the range is, which interface a word is a
live proxy of, and whether `batch_add` takes a call. -/
structure Runtime where
  start : Word
  proxyFromPointer : Word → Option ℕ
  hasInvokeBatch : Bool
  batchAdd : List Call → Call → Bool

inductive Drop
  | corrupt | noSlot | layout
  deriving DecidableEq, Repr

variable (lev : Levers) (t : Tables) (rt : Runtime) (b : Bytes) (len : ℕ)

abbrev Bitmap := ℕ → BitVec 8

def markDead (dead : Bitmap) (victim : ℕ) : Bitmap := fun i =>
  if i = victim / 64 then dead i ||| 1#8 <<< (victim / 8 % 8) else dead i

def isDead (dead : Bitmap) (off : ℕ) : Bool := dead (off / 64) &&& 1#8 <<< (off / 8 % 8) != 0

def Tables.rowAt (off : ℕ) : Option (ℕ × JgDef) :=
  if b.shape off = jshGen ∧ (t.surface.ifaces[b.iface off]?).any (b.slot off < ·.slotCount) then
    (t.gen (b.iface off) (b.slot off)).filter fun r => b.recSize off == (jgLayoutCompute r.2).recBytes
  else none

def Tables.setterAt (off : ℕ) : Option (ℕ × JgDef) :=
  (t.rowAt b off).filter fun r => r.2.lww != .none

structure Lww where
  lastOff : ℕ → ℕ
  lastGen : ℕ → ℕ
  gen : ℕ
  nDead : ℕ
  dead : Bitmap

def Lww.init : Lww := ⟨fun _ => 0, fun _ => 0, 1, 0, fun _ => 0⟩

def Lww.setLast (st : Lww) (g off : ℕ) : Lww :=
  { st with
    lastOff := Function.update st.lastOff g off
    lastGen := Function.update st.lastGen g st.gen }

def Lww.kill (st : Lww) (victim : ℕ) : Lww :=
  { st with dead := markDead st.dead victim, nDead := st.nDead + 1 }

def lwwRecord (off : ℕ) (st : Lww) : Lww :=
  match t.setterAt b off with
  | none => { st with gen := st.gen + 1 }
  | some (g, d) =>
    if st.lastGen g = st.gen ∧ (d.lww = .any ∨
        b.word (st.lastOff g) 0 = b.word off 0 ∧ b.word (st.lastOff g) 1 = b.word off 1) then
      if lev.lwwSabotage then st.kill off
      else (st.kill (st.lastOff g)).setLast g off
    else st.setLast g off

def lwwLoop : ℕ → ℕ → Lww → Lww
  | 0, _, st => st
  | n + 1, off, st =>
    if off + 8 ≤ len then
      if b.recSize off < 8 ∨ len < off + b.recSize off then st
      else lwwLoop n (off + b.recSize off) (lwwRecord lev t b off st)
    else st

def journalLww : Lww := lwwLoop lev t b len len 0 .init

def checkRecord (off : ℕ) : Option Drop :=
  if t.surface.ifaces.length ≤ b.iface off ∨ b.recSize off < 8 ∨ journalGenMaxRec < b.recSize off ∨
      len < off + b.recSize off ∨ b.shape off ≠ jshGen ∧ (b.recSize off < 16 ∨
        journalMaxRec < b.recSize off ∨ b.recSize off ≠ journalRecBytes (b.shape off)) then
    some .corrupt
  else if t.surface.slotAt (b.iface off) (b.slot off) = none then some .noSlot
  else if b.shape off = jshGen then
    match t.gen (b.iface off) (b.slot off) with
    | none => some .layout
    | some (_, d) => if b.recSize off = (jgLayoutCompute d).recBytes then none else some .layout
  else none

def genArgs (d : JgDef) (off : ℕ) : List Word :=
  0 :: (d.params.zip (jgLayoutCompute d).off).zipIdx.map fun p =>
    if p.1.1.kind = .v ∨ b.word off p.2 = 0 then b.word off p.2
    else rt.start + BitVec.ofNat 64 (off + p.1.2)

def shapeArgs (off : ℕ) : ℕ → List Word
  | 1 => [0, b.word off 0]
  | 2 => [0, b.word off 0, b.word off 1]
  | 3 => [0, b.word off 0, b.word off 1, b.word off 2]
  | 4 => [0, b.word off 0, b.word off 1, b.word off 2, b.word off 3]
  | 5 => [0, b.word off 0, b.word off 1, b.word off 2, b.word off 3, b.word off 4]
  | 6 => [0, if b.word off 0 = 0 then 0 else rt.start + BitVec.ofNat 64 (off + 16)]
  | 7 => [0, b.word off 0, b.word off 1,
      if b.word off 2 = 0 then 0 else rt.start + BitVec.ofNat 64 (off + 32)]
  | _ => [0]

/-- The call a checked record decodes to while `p` is the proxy of the record replayed last; none for
a record whose proxy word names no live proxy of its interface. -/
def recordCall (p : Option Word) (off : ℕ) : Option Call :=
  if b.shape off = jshGen then
    (t.gen (b.iface off) (b.slot off)).bind fun r =>
      let self := b.read64 (off + (jgLayoutCompute r.2).self)
      if rt.proxyFromPointer self = some (b.iface off) then
        some ⟨b.iface off, b.slot off, some self, genArgs rt b r.2 off, off⟩
      else none
  else some ⟨b.iface off, b.slot off, p, shapeArgs rt b off (b.shape off), off⟩

def batchCalls : ℕ := 32

structure Replay where
  proxy : Option Word
  batch : List Call
  ran : List Call
  deriving DecidableEq, Repr

def batchFlush (st : Replay) : Replay :=
  { st with batch := [], ran := st.ran ++ if lev.batchSabotage then [] else st.batch }

def Replay.invoke (st : Replay) (c : Call) : Replay :=
  { st with proxy := c.proxy, ran := st.ran ++ [c] }

def batchRoom (st : Replay) : Replay :=
  if st.batch.length = batchCalls then batchFlush lev st else st

def batchOrInvoke (c : Call) (st : Replay) : Replay :=
  if rt.batchAdd st.batch c then { st with proxy := c.proxy, batch := st.batch ++ [c] }
  else (batchFlush lev st).invoke c

def dispatchGen (c : Call) (st : Replay) : Replay :=
  if rt.hasInvokeBatch && !lev.batchOff then batchOrInvoke lev rt c (batchRoom lev st)
  else st.invoke c

def skipped (scan : Lww) (off : ℕ) : Bool :=
  b.shape off == jshGen && scan.nDead != 0 && isDead scan.dead off

def replayRecord (scan : Lww) (off : ℕ) (st : Replay) : Replay :=
  if skipped b scan off then st
  else
    match recordCall t rt b st.proxy off with
    | none => st
    | some c => if b.shape off = jshGen then dispatchGen lev rt c st else (batchFlush lev st).invoke c

structure Replayed where
  stop : ℕ
  drop : Option Drop
  state : Replay
  deriving DecidableEq, Repr

def replayLoop (scan : Lww) : ℕ → ℕ → Replay → Replayed
  | 0, off, st => ⟨off, none, st⟩
  | n + 1, off, st =>
    if off + 8 ≤ len then
      match checkRecord t b len off with
      | some e => ⟨off, some e, st⟩
      | none => replayLoop scan n (off + b.recSize off) (replayRecord lev t rt b scan off st)
    else ⟨off, none, st⟩

def lwwScan : Lww :=
  if !lev.lwwOff && t.genMap.isSome && decide (len ≤ journalCtxRingSize) then journalLww lev t b len
  else .init

def journalReplayRange (p : Option Word) : Replayed :=
  let r := replayLoop lev t rt b len (lwwScan lev t b len) len 0 ⟨p, [], []⟩
  { r with state := batchFlush lev r.state }

end WinePpc64.Journal
