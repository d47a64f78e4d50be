import WinePpc64.Steam.Client

namespace WinePpc64.Steam

open Lib Lib.ByteMem

def blobGuard : ℕ := 256

def guardByte : Octet := 0x5c

def tmppathOffset : ℕ := 0

def isLocalCode (code : ℕ) : Bool := decide (0xfffffff0 ≤ code)

structure Blob where
  hdr : BlobHdr
  addr : ℕ
  bytes : ByteMem

structure Helper where
  mem : ByteMem
  tmppath : ℕ
  sent : List Octet

def guarded (bytes : List Octet) : ByteMem := fun k => bytes.getD k guardByte

def patchOuter (bh : BlobHdr) (p : ℕ) : List Blob → Option (List Blob)
  | [] => none
  | b :: blobs =>
    if b.hdr.offset = bh.offset ∧ b.hdr.isNested = false then
      if b.hdr.len < bh.inner + ptrSize then none
      else some ({ b with bytes := b.bytes.store bh.inner (leBytes ptrSize p) } :: blobs)
    else (patchOuter bh p blobs).map (b :: ·)

/-- The loop of `serve_one_call` over the blobs of a request, on the parameter block and the blobs read
so far; the `i`-th allocation of the call is at `alloc i`, the first one being the block's. -/
def readBlobs (alloc : ℕ → ℕ) (paramsLen : ℕ) :
    ℕ → ByteMem → List Blob → List Octet → Option (ByteMem × List Blob × List Octet)
  | 0, params, blobs, stream => some (params, blobs, stream)
  | n + 1, params, blobs, stream =>
    match recvAll 16 stream with
    | none => none
    | some (hdr, stream) =>
      let bh := BlobHdr.ofBytes hdr
      if maxFrame < bh.len ∨ paramsLen < bh.offset + ptrSize then none
      else match recvAll bh.len stream with
        | none => none
        | some (bytes, stream) =>
          let blob : Blob := ⟨bh, alloc (blobs.length + 1), guarded bytes⟩
          if bh.isNested then
            match patchOuter bh blob.addr blobs with
            | none => none
            | some blobs => readBlobs alloc paramsLen n params (blobs ++ [blob]) stream
          else
            readBlobs alloc paramsLen n (params.store bh.offset (leBytes ptrSize blob.addr))
              (blobs ++ [blob]) stream

def place (mem : ByteMem) (a len : ℕ) (bytes : ByteMem) : ByteMem := fun x =>
  if a ≤ x ∧ x < a + len then bytes (x - a) else mem x

def assemble (mem : ByteMem) (paramsAddr paramsLen : ℕ) (params : ByteMem) (blobs : List Blob) : ByteMem :=
  blobs.foldl (fun mem b => place mem b.addr (b.hdr.len + blobGuard) b.bytes)
    (place mem paramsAddr paramsLen params)

def redirectTmppath (h : Helper) (paramsAddr : ℕ) (blobs : List Blob) (mem : ByteMem) : ByteMem :=
  let mem := match blobs.find? fun b => decide (b.hdr.offset = tmppathOffset) with
    | some b => mem.store h.tmppath (mem.load b.addr (min b.hdr.len tmppathLen))
    | none => mem
  mem.store (paramsAddr + tmppathOffset) (leBytes ptrSize h.tmppath)

def blobOverrun (mem : ByteMem) (b : Blob) : Bool :=
  decide (mem.load (b.addr + b.hdr.len) blobGuard ≠ List.replicate blobGuard guardByte)

def replyHdr (bh : BlobHdr) : BlobHdr := ⟨bh.offset, bh.len, 2 + 4 * bh.isNested.toNat, bh.inner⟩

def reply (h : Helper) (paramsAddr paramsLen : ℕ) (blobs : List Blob) (mem : ByteMem) (status : ℕ) :
    List Octet × List Octet :=
  let outs := blobs.filter fun b => b.hdr.isOut
  let tmppath := mem.load h.tmppath tmppathLen
  let tlen := if tmppath = h.sent then 0 else tmppathLen
  let rep : RepHdr := match blobs.find? (blobOverrun mem) with
    | some b => ⟨repMagic, statusOverflow, paramsLen, 0, h.tmppath, tlen, b.hdr.offset⟩
    | none => ⟨repMagic, status, paramsLen, outs.length, h.tmppath, tlen, 0⟩
  (rep.bytes ++ mem.load paramsAddr paramsLen ++
      (if rep.nblobs = 0 then []
        else outs.flatMap fun b => (replyHdr b.hdr).bytes ++ mem.load b.addr b.hdr.len) ++
      (if tlen = 0 then [] else tmppath),
    tmppath)

def serveOneCall (h : Helper) (alloc : ℕ → ℕ) (funcCount : ℕ)
    (call : ℕ → ByteMem → ℕ → ByteMem × BitVec 32) (stream : List Octet) :
    Option (Helper × List Octet × List Octet) :=
  match recvAll 16 stream with
  | none => none
  | some (hdr, stream) =>
    let req := ReqHdr.ofBytes hdr
    if req.magic ≠ reqMagic ∨ maxFrame < req.paramsLen ∨ 32 < req.nblobs ∨
        (funcCount ≤ req.code ∧ !isLocalCode req.code) then none
    else match recvAll req.paramsLen stream with
      | none => none
      | some (block, stream) =>
        let paramsAddr := if req.paramsLen = 0 then 0 else alloc 0
        match readBlobs alloc req.paramsLen req.nblobs (guarded block) [] stream with
        | none => none
        | some (params, blobs, stream) =>
          let mem := assemble h.mem paramsAddr req.paramsLen params blobs
          let mem := if req.code = unixSteamclientInit ∧ req.paramsLen ≠ 0 then
              redirectTmppath h paramsAddr blobs mem else mem
          let (mem, status) := call req.code mem paramsAddr
          let (bytes, sent) := reply h paramsAddr req.paramsLen blobs mem status.toNat
          some ({ h with mem := mem, sent := sent }, bytes, stream)

end WinePpc64.Steam
