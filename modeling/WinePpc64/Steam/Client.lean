import WinePpc64.Lib.ByteMem

namespace WinePpc64.Steam

open Lib

def maxFrame : ℕ := 16 * 1024 * 1024

def tmppathLen : ℕ := 4096

def reqMagic : ℕ := 0x31524353

def repMagic : ℕ := 0x31504353

def statusNoHelper : ℕ := 0xe0005c01

def statusRefused : ℕ := 0xe0005c02

def statusProtocol : ℕ := 0xe0005c03

def statusTooBig : ℕ := 0xe0005c04

def statusOverflow : ℕ := 0xe0005c05

def ptrSize : ℕ := 8

def unixSteamclientInit : ℕ := 0

inductive Kind
  | fixed
  | str
  | sized
  | expr
  | nested
  deriving DecidableEq, Repr

structure Field where
  offset : ℕ
  input : Bool
  output : Bool
  kind : Kind
  elem : ℕ
  lenOff : ℕ
  lenWidth : ℕ
  deriving DecidableEq, Repr

def Field.nested (f : Field) : Bool := decide (f.kind = .nested)

structure Method where
  paramsSize : ℕ
  fields : List Field
  refuse : Bool
  lenfn : Option (List Octet → ℕ → ℕ)

def readNat (mem : ByteMem) (a w : ℕ) : ℕ := leNat (mem.load a w)

def readPtr (mem : ByteMem) (a : ℕ) : ℕ := readNat mem a ptrSize

def strlen (mem : ByteMem) : ℕ → ℕ → ℕ
  | _, 0 => 0
  | a, fuel + 1 => if mem a = 0 then 0 else strlen mem (a + 1) fuel + 1

def readCount (mem : ByteMem) (a width : ℕ) : ℕ :=
  if width = 1 ∨ width = 2 ∨ width = 4 ∨ width = 8 then readNat mem a width else 0

def noLen : ℕ := 2 ^ 32 - 1

def fieldLen (m : Method) (f : Field) (idx : ℕ) (mem : ByteMem) (params ptr : ℕ) : ℕ :=
  match f.kind with
  | .fixed => f.elem
  | .str => (strlen mem ptr (2 ^ 64) + 1) % 2 ^ 32
  | .sized =>
    let count := readCount mem (params + f.lenOff) f.lenWidth
    if maxFrame < count then noLen else count * f.elem % 2 ^ 32
  | .expr =>
    match m.lenfn with
    | some fn => fn (mem.load params m.paramsSize) idx % 2 ^ 32
    | none => 0
  | .nested =>
    let count := readCount mem (ptr + f.lenOff) f.lenWidth
    if maxFrame < count then noLen else count

def fieldPtr (f : Field) (mem : ByteMem) (params : ℕ) : ℕ × ℕ :=
  let p := readPtr mem (params + f.offset)
  if f.kind ≠ .nested ∨ p = 0 then (p, p) else (readPtr mem (p + f.elem), p)

structure Slot where
  field : Field
  saved : ℕ
  outer : ℕ
  len : ℕ
  deriving DecidableEq, Repr

def measure (m : Method) (mem : ByteMem) (params : ℕ) : List Field → ℕ → ℕ → Option (List Slot × ℕ)
  | [], _, need => some ([], need)
  | f :: fs, i, need =>
    let p := if m.paramsSize ≠ 0 then fieldPtr f mem params else (0, 0)
    if p.1 = 0 then
      (measure m mem params fs (i + 1) need).map fun r => (⟨f, p.1, p.2, 0⟩ :: r.1, r.2)
    else
      let len := fieldLen m f i mem params (if f.nested then p.2 else p.1)
      if len = noLen ∨ maxFrame < need + len + 16 then none
      else
        (measure m mem params fs (i + 1) (need + (16 + len))).map fun r =>
          (⟨f, p.1, p.2, len⟩ :: r.1, r.2)

structure BlobHdr where
  offset : ℕ
  len : ℕ
  flags : ℕ
  inner : ℕ
  deriving DecidableEq, Repr

def BlobHdr.bytes (h : BlobHdr) : List Octet := pack [(4, h.offset), (4, h.len), (4, h.flags), (4, h.inner)]

def BlobHdr.ofBytes (l : List Octet) : BlobHdr :=
  match unpack [4, 4, 4, 4] l with
  | [offset, len, flags, inner] => ⟨offset, len, flags, inner⟩
  | _ => ⟨0, 0, 0, 0⟩

def BlobHdr.isOut (h : BlobHdr) : Bool := h.flags.testBit 1

def BlobHdr.isNested (h : BlobHdr) : Bool := h.flags.testBit 2

def Field.flags (f : Field) : ℕ := f.input.toNat + 2 * f.output.toNat + 4 * f.nested.toNat

def Slot.hdr (s : Slot) : BlobHdr :=
  ⟨s.field.offset, s.len, s.field.flags, if s.field.nested then s.field.elem else 0⟩

structure ReqHdr where
  magic : ℕ
  code : ℕ
  paramsLen : ℕ
  nblobs : ℕ
  deriving DecidableEq, Repr

def ReqHdr.bytes (h : ReqHdr) : List Octet :=
  pack [(4, h.magic), (4, h.code), (4, h.paramsLen), (4, h.nblobs)]

def ReqHdr.ofBytes (l : List Octet) : ReqHdr :=
  match unpack [4, 4, 4, 4] l with
  | [magic, code, paramsLen, nblobs] => ⟨magic, code, paramsLen, nblobs⟩
  | _ => ⟨0, 0, 0, 0⟩

structure RepHdr where
  magic : ℕ
  status : ℕ
  paramsLen : ℕ
  nblobs : ℕ
  tmppathBase : ℕ
  tmppathLen : ℕ
  detail : ℕ
  deriving DecidableEq, Repr

def RepHdr.bytes (h : RepHdr) : List Octet :=
  pack [(4, h.magic), (4, h.status), (4, h.paramsLen), (4, h.nblobs), (8, h.tmppathBase),
    (4, h.tmppathLen), (4, h.detail)]

def RepHdr.ofBytes (l : List Octet) : RepHdr :=
  match unpack [4, 4, 4, 4, 8, 4, 4] l with
  | [magic, status, paramsLen, nblobs, base, len, detail] =>
    ⟨magic, status, paramsLen, nblobs, base, len, detail⟩
  | _ => ⟨0, 0, 0, 0, 0, 0, 0⟩

def present (slots : List Slot) : List Slot := slots.filter fun s => s.saved ≠ 0

def frame (code : ℕ) (m : Method) (mem : ByteMem) (params : ℕ) (slots : List Slot) : List Octet :=
  ReqHdr.bytes ⟨reqMagic, code, m.paramsSize, (present slots).length⟩ ++ mem.load params m.paramsSize ++
    (present slots).flatMap fun s => s.hdr.bytes ++ mem.load s.saved s.len

def restoreParams (params : ℕ) (slots : List Slot) (mem : ByteMem) : ByteMem :=
  slots.foldl (fun mem s =>
    if s.field.nested then mem else mem.store (params + s.field.offset) (leBytes ptrSize s.saved)) mem

def restoreNested (slots : List Slot) (mem : ByteMem) : ByteMem :=
  slots.foldl (fun mem s =>
    if s.field.nested ∧ s.outer ≠ 0 then
      mem.store (s.outer + s.field.elem) (leBytes ptrSize s.saved)
    else mem) mem

def Slot.matches (bh : BlobHdr) (s : Slot) : Bool :=
  decide (s.field.offset = bh.offset) && decide (s.saved ≠ 0) && (s.field.nested == bh.isNested) &&
    (!s.field.nested || decide (s.field.elem = bh.inner))

def copyBack (slots : List Slot) (bh : BlobHdr) (bytes : List Octet) (mem : ByteMem) : ByteMem :=
  match slots.find? (·.matches bh) with
  | some s => mem.store s.saved (bytes.take s.len)
  | none => mem

def recvBlobs (slots : List Slot) (frameSize : ℕ) :
    ℕ → ByteMem → List Octet → ByteMem × Except ℕ (List Octet)
  | 0, mem, stream => (mem, .ok stream)
  | n + 1, mem, stream =>
    match recvAll 16 stream with
    | none => (mem, .error statusNoHelper)
    | some (hdr, stream) =>
      if frameSize < (BlobHdr.ofBytes hdr).len then (mem, .error statusProtocol)
      else match recvAll (BlobHdr.ofBytes hdr).len stream with
        | none => (mem, .error statusNoHelper)
        | some (bytes, stream) =>
          recvBlobs slots frameSize n (copyBack slots (BlobHdr.ofBytes hdr) bytes mem) stream

structure Client where
  frameSize : ℕ
  tmppath : Option ℕ

structure Return where
  mem : ByteMem
  status : ℕ
  stream : List Octet
  up : Bool

def recvTmppath (c : Client) (rep : RepHdr) (mem : ByteMem) (stream : List Octet) : Return :=
  if rep.tmppathLen = 0 then ⟨mem, rep.status, stream, true⟩
  else if tmppathLen < rep.tmppathLen then ⟨mem, statusNoHelper, stream, false⟩
  else match recvAll rep.tmppathLen stream with
    | none => ⟨mem, statusNoHelper, [], false⟩
    | some (bytes, stream) =>
      ⟨match c.tmppath with
        | some a => mem.store a bytes
        | none => mem, rep.status, stream, true⟩

def recvBody (c : Client) (params : ℕ) (slots : List Slot) (rep : RepHdr) (mem : ByteMem)
    (stream : List Octet) : Return :=
  match recvAll rep.paramsLen stream with
  | none => ⟨mem, statusNoHelper, [], false⟩
  | some (block, stream) =>
    let mem := if rep.paramsLen ≠ 0 then restoreParams params slots (mem.store params block) else mem
    match recvBlobs slots c.frameSize rep.nblobs mem stream with
    | (mem, .error status) => ⟨mem, status, [], false⟩
    | (mem, .ok stream) => recvTmppath c rep (restoreNested slots mem) stream

def receive (c : Client) (m : Method) (params : ℕ) (slots : List Slot) (mem : ByteMem)
    (stream : List Octet) : Return :=
  match recvAll 32 stream with
  | none => ⟨mem, statusNoHelper, [], false⟩
  | some (hdr, stream) =>
    let rep := RepHdr.ofBytes hdr
    if rep.magic ≠ repMagic ∨ rep.paramsLen ≠ m.paramsSize then ⟨mem, statusProtocol, stream, false⟩
    else recvBody c params slots rep mem stream

def rpcReserve (frameSize need : ℕ) : Option ℕ :=
  if need ≤ frameSize then some frameSize
  else if maxFrame < need then none
  else some ((need + 0xffff) / 0x10000 * 0x10000)

inductive Prepared
  | refused (status : ℕ)
  | sent (frame : List Octet) (slots : List Slot) (frameSize : ℕ)
  deriving DecidableEq

def prepare (c : Client) (code : ℕ) (m : Method) (mem : ByteMem) (params : ℕ) : Prepared :=
  if m.refuse then .refused statusRefused
  else if 32 < m.fields.length then .refused statusProtocol
  else match measure m mem params m.fields 0 (16 + m.paramsSize) with
    | none => .refused statusTooBig
    | some (slots, need) =>
      match rpcReserve c.frameSize need with
      | none => .refused statusTooBig
      | some frameSize => .sent (frame code m mem params slots) slots frameSize

end WinePpc64.Steam
