import WinePpc64.Lib.Runs

namespace WinePpc64.Thunk.RipCache

open Function

abbrev Word := BitVec 64
abbrev Tid := ℕ
abbrev Index := Fin 1024

inductive Field
  | rip | proc | sig | override | cbMask | cbWide | cbArgc | fp | widths | signs | geom32 | lane32
  | leaf | comDispatch | comIface | comSlot | statRow
  deriving DecidableEq, Repr

abbrev Fields := Field → Word

structure Entry where
  seq : BitVec 32
  field : Fields

def thunkRipCacheSlot (rip : Word) : Index :=
  let h := rip >>> 3
  let h := h ^^^ (h >>> 17)
  let h := h ^^^ (h >>> 31)
  Fin.ofNat 1024 (h &&& 1023).toNat

def entryFields : List Field :=
  [.rip, .proc, .sig, .override, .cbMask, .cbWide, .cbArgc, .fp, .widths, .signs, .geom32,
    .lane32, .leaf, .comDispatch, .comIface, .comSlot, .statRow]

def flushFields : List Field := [.rip, .proc, .override, .comDispatch]

def putValue (rip : Word) (val : Fields) : Fields := update val .rip rip

inductive Writer
  | held
  | putLoad (rip : Word) (val : Fields)
  | putOdd (rip : Word) (val : Fields) (s : BitVec 32)
  | putField (rip : Word) (val : Fields) (s : BitVec 32) (rest : List Field)
  | flushTest (i : ℕ)
  | flushLoad (i : Index)
  | flushOdd (i : Index) (s : BitVec 32)
  | flushField (i : Index) (s : BitVec 32) (rest : List Field)

inductive Reader
  | idle
  | loadSeq (rip : Word)
  | loadField (rip : Word) (s1 : BitVec 32) (rest : List Field) (out : Fields)

inductive Event
  | odd (i : Index)
  | put (rip : Word) (val : Fields)
  | flushSlot (i : Index)
  | flush
  | getStart (t : Tid) (rip : Word)
  | getTrue (t : Tid) (rip : Word) (out : Fields)
  | getFalse (t : Tid) (rip : Word)

structure State where
  table : Index → Entry
  writer : Option (Tid × Writer)
  reader : Tid → Reader
  log : List Event

inductive Act
  | lock | unlock
  | put (rip : Word) (val : Fields)
  | flush
  | get (rip : Word)
  | write
  | read

@[simps -fullyApplied writer reader log] def State.setSeq (s : State) (i : Index) (v : BitVec 32) : State :=
  { s with table := update s.table i { s.table i with seq := v } }

def Entry.setField (e : Entry) (f : Field) (v : Word) : Entry :=
  { e with field := update e.field f v }

@[simps -fullyApplied reader log] def State.setField (s : State) (i : Index) (f : Field) (v : Word) : State :=
  { s with table := update s.table i ((s.table i).setField f v) }

@[simps -fullyApplied table reader log] def State.setWriter (s : State) (t : Tid) (w : Writer) : State := { s with writer := some (t, w) }

@[simps -fullyApplied table writer log] def State.setReader (s : State) (t : Tid) (r : Reader) : State :=
  { s with reader := update s.reader t r }

@[simps -fullyApplied table writer reader log] def State.emit (s : State) (e : Event) : State := { s with log := e :: s.log }

section Setters

variable (s : State) (i j : Index) (f : Field) (v : Word) (n : BitVec 32)

@[simp] theorem setSeq_field : ((s.setSeq i n).table j).field = (s.table j).field := by
  by_cases h : j = i
  · subst h; simp [State.setSeq]
  · simp [State.setSeq, h]

@[simp] theorem setSeq_seq : ((s.setSeq i n).table j).seq = if j = i then n else (s.table j).seq := by
  by_cases h : j = i <;> simp [State.setSeq, h]

@[simp] theorem setField_seq : ((s.setField i f v).table j).seq = (s.table j).seq := by
  by_cases h : j = i
  · subst h; simp [State.setField, Entry.setField]
  · simp [State.setField, h]

theorem setField_field_ne (h : j ≠ i) : ((s.setField i f v).table j).field = (s.table j).field := by
  simp [State.setField, h]

theorem setField_field_self {g : Field} :
    ((s.setField i f v).table i).field g = if g = f then v else (s.table i).field g := by
  simp [State.setField, Entry.setField, update_apply]

end Setters

def isOdd (s : BitVec 32) : Bool := s &&& 1 == 1

def thunkRipCachePut (s : State) (t : Tid) : Writer → Option State
  | .putLoad rip val =>
    let seq := (s.table (thunkRipCacheSlot rip)).seq
    if isOdd seq then some (s.setWriter t .held)
    else some (s.setWriter t (.putOdd rip val seq))
  | .putOdd rip val seq =>
    let i := thunkRipCacheSlot rip
    some (((s.setSeq i (seq + 1)).emit (.odd i)).setWriter t (.putField rip val seq entryFields))
  | .putField rip val seq (f :: rest) =>
    some ((s.setField (thunkRipCacheSlot rip) f (putValue rip val f)).setWriter t
      (.putField rip val seq rest))
  | .putField rip val seq [] =>
    some (((s.setSeq (thunkRipCacheSlot rip) (seq + 2)).emit (.put rip val)).setWriter t .held)
  | _ => none

def flushGuestThunkCache (s : State) (t : Tid) : Writer → Option State
  | .flushTest n =>
    if h : n < 1024 then
      if (s.table ⟨n, h⟩).field .rip = 0 then some (s.setWriter t (.flushTest (n + 1)))
      else some (s.setWriter t (.flushLoad ⟨n, h⟩))
    else some ((s.emit .flush).setWriter t .held)
  | .flushLoad i => some (s.setWriter t (.flushOdd i (s.table i).seq))
  | .flushOdd i seq =>
    some (((s.setSeq i (seq + 1)).emit (.odd i)).setWriter t (.flushField i seq flushFields))
  | .flushField i seq (f :: rest) =>
    some ((s.setField i f 0).setWriter t (.flushField i seq rest))
  | .flushField i seq [] =>
    some (((s.setSeq i (seq + 2)).emit (.flushSlot i)).setWriter t (.flushTest (i + 1)))
  | _ => none

def thunkRipCacheGet (s : State) (t : Tid) : Reader → Option State
  | .idle => none
  | .loadSeq rip =>
    let s1 := (s.table (thunkRipCacheSlot rip)).seq
    if isOdd s1 then some ((s.emit (.getFalse t rip)).setReader t .idle)
    else some (s.setReader t (.loadField rip s1 entryFields fun _ => 0))
  | .loadField rip s1 (f :: rest) out =>
    some (s.setReader t (.loadField rip s1 rest
      (update out f ((s.table (thunkRipCacheSlot rip)).field f))))
  | .loadField rip s1 [] out =>
    let s2 := (s.table (thunkRipCacheSlot rip)).seq
    if s1 ≠ s2 ∨ out .rip ≠ rip ∨ out .rip = 0 then
      some ((s.emit (.getFalse t rip)).setReader t .idle)
    else some ((s.emit (.getTrue t rip out)).setReader t .idle)

def step (s : State) : Tid × Act → Option State
  | (t, .lock) => if s.writer.isNone then some (s.setWriter t .held) else none
  | (t, .unlock) => match s.writer with
    | some (u, .held) => if u = t then some { s with writer := none } else none
    | _ => none
  | (t, .put rip val) => match s.writer with
    | some (u, .held) => if u = t then some (s.setWriter t (.putLoad rip val)) else none
    | _ => none
  | (t, .flush) => match s.writer with
    | some (u, .held) => if u = t then some (s.setWriter t (.flushTest 0)) else none
    | _ => none
  | (t, .get rip) => match s.reader t with
    | .idle => some ((s.emit (.getStart t rip)).setReader t (.loadSeq rip))
    | _ => none
  | (t, .write) => match s.writer with
    | some (u, w) => if u = t then (thunkRipCachePut s t w).or (flushGuestThunkCache s t w) else none
    | none => none
  | (t, .read) => thunkRipCacheGet s t (s.reader t)

def init : State where
  table := fun _ => ⟨0, fun _ => 0⟩
  writer := none
  reader := fun _ => .idle
  log := []

abbrev Reachable (s : State) : Prop := Lib.Reaches step Lib.Free init s

end WinePpc64.Thunk.RipCache
