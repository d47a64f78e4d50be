import WinePpc64.Steam.Client

namespace WinePpc64.Steam

open Lib Lib.ByteMem List Option RepHdr

def BlockCell (m : Method) (params : ℕ) (slots : List Slot) (x : ℕ) : Prop :=
  m.paramsSize ≠ 0 ∧ ∃ s ∈ slots, s.field.nested = false ∧
    Within (params + s.field.offset, leBytes ptrSize s.saved) x

def NestedCell (slots : List Slot) (x : ℕ) : Prop :=
  ∃ s ∈ slots, (s.field.nested = true ∧ s.outer ≠ 0) ∧
    Within (s.outer + s.field.elem, leBytes ptrSize s.saved) x

instance (m : Method) (params : ℕ) (slots : List Slot) (x : ℕ) :
    Decidable (BlockCell m params slots x) := inferInstanceAs (Decidable (_ ∧ _))

instance (slots : List Slot) (x : ℕ) : Decidable (NestedCell slots x) :=
  inferInstanceAs (Decidable (∃ s ∈ slots, _))

def MayChange (c : Client) (m : Method) (params : ℕ) (slots : List Slot) (x : ℕ) : Prop :=
  (params ≤ x ∧ x < params + m.paramsSize) ∨
  (∃ s ∈ slots, s.field.output = true ∧ s.saved ≠ 0 ∧ s.saved ≤ x ∧ x < s.saved + s.len) ∨
  ∃ a, c.tmppath = some a ∧ a ≤ x ∧ x < a + tmppathLen

structure Kept (c : Client) (m : Method) (params : ℕ) (slots : List Slot) (mem mem' : ByteMem) :
    Prop where
  block : ∀ x, BlockCell m params slots x → mem' x = mem x
  nested : ∀ x, NestedCell slots x → mem' x = mem x
  rest : ∀ x, ¬ MayChange c m params slots x → mem' x = mem x

variable {c : Client} {m : Method} {rep : RepHdr} {f : Field}

section Measured

variable {m : Method} {mem : ByteMem} {params a : ℕ}

structure Slot.Measured (m : Method) (mem : ByteMem) (params : ℕ) (s : Slot) : Prop where
  block : m.paramsSize ≠ 0 → s.field.nested = false →
    leBytes ptrSize s.saved = mem.load (params + s.field.offset) ptrSize
  nested : s.field.nested = true → s.outer ≠ 0 →
    leBytes ptrSize s.saved = mem.load (s.outer + s.field.elem) ptrSize

theorem leBytes_readPtr {mem : ByteMem} : leBytes ptrSize (readPtr mem a) = mem.load a ptrSize := by
  have h := leBytes_leNat (mem.load a ptrSize)
  rwa [length_load] at h

theorem getD_cell {mem : ByteMem} {v off k : ℕ} (h : leBytes ptrSize v = mem.load (a + off) ptrSize)
    (hk : off ≤ k ∧ k < off + ptrSize) : (leBytes ptrSize v).getD (k - off) 0 = mem (a + k) := by
  rw [h, getD_load (by omega)]
  congr 1
  omega

theorem measured_fieldPtr {len : ℕ} :
    Slot.Measured m mem params ⟨f, (fieldPtr f mem params).1, (fieldPtr f mem params).2, len⟩ := by
  constructor
  · intro _ hn
    have hkind : f.kind ≠ .nested := by simpa [Field.nested] using hn
    simp [fieldPtr, hkind, leBytes_readPtr]
  intro hn ho
  have hkind : f.kind = .nested := by simpa [Field.nested] using hn
  by_cases hp : readPtr mem (params + f.offset) = 0
  · simp [fieldPtr, hp] at ho
  · simp [fieldPtr, hp, hkind, leBytes_readPtr]

variable {fs : List Field} {i need need' : ℕ} {slots : List Slot}

theorem measure_cons (h : measure m mem params (f :: fs) i need = some (slots, need')) :
    ∃ len rest n, measure m mem params fs (i + 1) n = some (rest, need') ∧ need ≤ n ∧
      slots = ⟨f, (if m.paramsSize ≠ 0 then fieldPtr f mem params else (0, 0)).1,
        (if m.paramsSize ≠ 0 then fieldPtr f mem params else (0, 0)).2, len⟩ :: rest ∧
      ((if m.paramsSize ≠ 0 then fieldPtr f mem params else (0, 0)).1 ≠ 0 →
        (∃ ptr, len = fieldLen m f i mem params ptr) ∧ len ≠ noLen ∧ len ≤ maxFrame ∧ len ≤ n) := by
  simp only [measure] at h
  generalize (if m.paramsSize ≠ 0 then fieldPtr f mem params else (0, 0)) = p at h ⊢
  split at h
  · rename_i hnull
    obtain ⟨⟨rest, n⟩, hrest, heq⟩ := map_eq_some_iff.mp h
    cases heq
    exact ⟨0, rest, need, hrest, le_rfl, rfl, absurd hnull⟩
  · rw [ite_none_left_eq_some] at h
    obtain ⟨hlen, h⟩ := h
    obtain ⟨⟨rest, n⟩, hrest, heq⟩ := map_eq_some_iff.mp h
    cases heq
    push Not at hlen
    exact ⟨_, rest, _, hrest, by omega, rfl, fun _ => ⟨⟨_, rfl⟩, by omega⟩⟩

theorem measured_of_measure
    (h : measure m mem params fs i need = some (slots, need')) :
    slots.map Slot.field = fs ∧ ∀ s ∈ slots, s.Measured m mem params := by
  induction fs generalizing i need slots with
  | nil =>
    cases h
    simp
  | cons f fs ih =>
    obtain ⟨-, rest, n, hrest, -, rfl, -⟩ := measure_cons h
    obtain ⟨hf, hm⟩ := ih hrest
    refine ⟨by simp [hf], forall_mem_cons.mpr ⟨?_, hm⟩⟩
    split
    · exact measured_fieldPtr
    · rename_i hsize
      exact ⟨fun hs _ => absurd hs hsize, fun _ ho => absurd rfl ho⟩

theorem of_prepare {code frameSize : ℕ} {request : List Octet}
    (h : prepare c code m mem params = .sent request slots frameSize) :
    m.fields.length ≤ 32 ∧ request = frame code m mem params slots ∧
      ∃ need, measure m mem params m.fields 0 (16 + m.paramsSize) = some (slots, need) ∧
        need ≤ frameSize := by
  simp only [prepare] at h
  split at h
  · cases h
  split at h
  · cases h
  split at h
  · cases h
  rename_i hlen _ _ n hmeasure
  split at h
  · cases h
  rename_i hreserve
  cases h
  refine ⟨by omega, rfl, n, hmeasure, ?_⟩
  rw [rpcReserve] at hreserve
  split at hreserve
  · cases hreserve
    omega
  · rw [ite_none_left_eq_some] at hreserve
    cases hreserve.2
    omega

end Measured

section Writes

variable {slots : List Slot} {frameSize n : ℕ}

def blobCopies (slots : List Slot) (frameSize : ℕ) :
    ℕ → List Octet → List (Slot × List Octet) × Except ℕ (List Octet)
  | 0, stream => ([], .ok stream)
  | n + 1, stream =>
    match recvAll 16 stream with
    | none => ([], .error statusNoHelper)
    | some (hdr, stream) =>
      if frameSize < (BlobHdr.ofBytes hdr).len then ([], .error statusProtocol)
      else match recvAll (BlobHdr.ofBytes hdr).len stream with
        | none => ([], .error statusNoHelper)
        | some (bytes, stream) =>
          let rest := blobCopies slots frameSize n stream
          match slots.find? (·.matches (BlobHdr.ofBytes hdr)) with
          | some s => ((s, bytes) :: rest.1, rest.2)
          | none => rest

def copyOf (w : Slot × List Octet) : ℕ × List Octet := (w.1.saved, w.2.take w.1.len)

theorem recvBlobs_eq {mem : ByteMem} {stream : List Octet} :
    recvBlobs slots frameSize n mem stream =
      (mem.storeAll ((blobCopies slots frameSize n stream).1.map copyOf),
        (blobCopies slots frameSize n stream).2) := by
  induction n generalizing mem stream with
  | zero => rfl
  | succ n ih =>
    rw [recvBlobs, blobCopies]
    cases recvAll 16 stream with
    | none => rfl
    | some r =>
      obtain ⟨hdr, stream⟩ := r
      dsimp only
      split
      · rfl
      cases recvAll (BlobHdr.ofBytes hdr).len stream with
      | none => rfl
      | some r =>
        dsimp only
        rw [ih, copyBack]
        cases slots.find? (·.matches (BlobHdr.ofBytes hdr)) with
        | none => rfl
        | some s => simp only [map_cons, storeAll_cons, copyOf]

def blockCells (params : ℕ) (slots : List Slot) : List (ℕ × List Octet) :=
  (slots.filter fun s => !s.field.nested).map fun s => (params + s.field.offset, leBytes ptrSize s.saved)

def nestedCells (slots : List Slot) : List (ℕ × List Octet) :=
  (slots.filter fun s => s.field.nested && decide (s.outer ≠ 0)).map fun s =>
    (s.outer + s.field.elem, leBytes ptrSize s.saved)

theorem restoreParams_eq {params : ℕ} {slots : List Slot} {mem : ByteMem} :
    restoreParams params slots mem = mem.storeAll (blockCells params slots) := by
  induction slots generalizing mem with
  | nil => rfl
  | cons s slots ih =>
    rw [restoreParams, foldl_cons, ← restoreParams, ih]
    cases h : s.field.nested <;> simp [blockCells, h, storeAll_cons]

theorem restoreNested_eq {slots : List Slot} {mem : ByteMem} :
    restoreNested slots mem = mem.storeAll (nestedCells slots) := by
  induction slots generalizing mem with
  | nil => rfl
  | cons s slots ih =>
    rw [restoreNested, foldl_cons, ← restoreNested, ih]
    cases hn : s.field.nested
    · simp [nestedCells, hn]
    · by_cases ho : s.outer = 0
      · simp [nestedCells, ho]
      · simp [nestedCells, hn, ho, storeAll_cons]

variable {m : Method} {mem mem' : ByteMem} {params x : ℕ}

theorem storeAll_restore {ws : List (ℕ × List Octet)} {P : Prop}
    (hws : ∀ w ∈ ws, w.2 = mem.load w.1 ptrSize) (hP : P ↔ ∃ w ∈ ws, Within w x) [Decidable P] :
    mem'.storeAll ws x = if P then mem x else mem' x := by
  split
  · rename_i h
    apply storeAll_eq
    · intro w hw hx
      have hlen : w.2.length = ptrSize := by rw [hws w hw, length_load]
      obtain ⟨h₁, h₂⟩ := hx
      rw [hws w hw, getD_load (by omega)]
      congr 1
      omega
    · exact .inl (hP.mp h)
  · rename_i h
    apply storeAll_out
    intro w hw hx
    exact h (hP.mpr ⟨w, hw, hx⟩)

variable (hslots : ∀ s ∈ slots, s.Measured m mem params)
include hslots

theorem restoreParams_apply (hsize : m.paramsSize ≠ 0) :
    restoreParams params slots mem' x = if BlockCell m params slots x then mem x else mem' x := by
  rw [restoreParams_eq]
  apply storeAll_restore
  · intro w hw
    obtain ⟨s, hs, rfl⟩ := mem_map.mp hw
    obtain ⟨hs, hn⟩ := mem_filter.mp hs
    exact (hslots s hs).block hsize (by simpa using hn)
  · simp [BlockCell, blockCells, hsize, and_assoc]

theorem restoreNested_apply : restoreNested slots mem' x = if NestedCell slots x then mem x else mem' x := by
  rw [restoreNested_eq]
  apply storeAll_restore
  · intro w hw
    obtain ⟨s, hs, rfl⟩ := mem_map.mp hw
    obtain ⟨hs, hn⟩ := mem_filter.mp hs
    simp only [Bool.and_eq_true, decide_eq_true_eq] at hn
    exact (hslots s hs).nested hn.1 hn.2
  · simp [NestedCell, nestedCells, and_assoc]

end Writes

def tmppathCopy (c : Client) (rep : RepHdr) (stream : List Octet) : List (ℕ × List Octet) :=
  if rep.tmppathLen = 0 ∨ tmppathLen < rep.tmppathLen then []
  else match recvAll rep.tmppathLen stream, c.tmppath with
    | some (bytes, _), some a => [(a, bytes)]
    | _, _ => []

def blobsOf (c : Client) (m : Method) (slots : List Slot) (stream : List Octet) :
    Option (RepHdr × List Octet × List (Slot × List Octet) × Except ℕ (List Octet)) :=
  match recvAll 32 stream with
  | none => none
  | some (hdr, stream) =>
    let rep := RepHdr.ofBytes hdr
    if rep.magic ≠ repMagic ∨ rep.paramsLen ≠ m.paramsSize then none
    else match recvAll rep.paramsLen stream with
      | none => none
      | some (block, stream) => some (rep, block, blobCopies slots c.frameSize rep.nblobs stream)

/-- The byte of the reply that is left at an address: one of the temp path, or else, unless the address
is in a nested cell and the reply came to its end, one of the last blob that was copied there, or else,
unless it is in a cell of the block, one of the block. -/
def leftByte (c : Client) (m : Method) (params : ℕ) (slots : List Slot) (stream : List Octet) (x : ℕ) :
    Option Octet :=
  match blobsOf c m slots stream with
  | none => none
  | some (rep, block, copies, out) =>
    let before := match lastByte (copies.map copyOf) x with
      | some b => some b
      | none => if BlockCell m params slots x then none else lastByte [(params, block)] x
    match out with
    | .error _ => before
    | .ok stream => match lastByte (tmppathCopy c rep stream) x with
      | some b => some b
      | none => if NestedCell slots x then none else before

theorem recvTmppath_mem {mem : ByteMem} {stream : List Octet} :
    (recvTmppath c rep mem stream).mem = mem.storeAll (tmppathCopy c rep stream) := by
  by_cases h₀ : rep.tmppathLen = 0
  · simp [recvTmppath, tmppathCopy, h₀, storeAll]
  by_cases h₁ : tmppathLen < rep.tmppathLen
  · simp [recvTmppath, tmppathCopy, h₀, h₁, storeAll]
  rw [recvTmppath, if_neg h₀, if_neg h₁, tmppathCopy, if_neg (not_or.mpr ⟨h₀, h₁⟩)]
  cases recvAll rep.tmppathLen stream with
  | none => rfl
  | some r =>
    cases c.tmppath <;> rfl

theorem receive_mem {mem : ByteMem} {params : ℕ} {slots : List Slot}
    (hslots : ∀ s ∈ slots, s.Measured m mem params) (c : Client) (stream : List Octet) (x : ℕ) :
    (receive c m params slots mem stream).mem x = (leftByte c m params slots stream x).getD (mem x) := by
  rw [receive, leftByte, blobsOf]
  cases recvAll 32 stream with
  | none => rfl
  | some r =>
    obtain ⟨hdr, stream⟩ := r
    dsimp only
    split
    · rfl
    rename_i hrep
    push Not at hrep
    rw [recvBody]
    cases hblock : recvAll (ofBytes hdr).paramsLen stream with
    | none => rfl
    | some r =>
      obtain ⟨block, stream⟩ := r
      -- the memory before the blobs
      have hbefore : (if (ofBytes hdr).paramsLen ≠ 0 then
            restoreParams params slots (mem.store params block) else mem) x =
          (if BlockCell m params slots x then none else lastByte [(params, block)] x).getD (mem x) := by
        have hstore : mem.store params block x = (lastByte [(params, block)] x).getD (mem x) :=
          storeAll_apply mem [(params, block)] x
        have hlen := (recvAll_length hblock).1
        rw [hrep.2] at hlen ⊢
        by_cases hsize : m.paramsSize = 0
        · have hempty : block = [] := length_eq_zero_iff.mp (hlen.trans hsize)
          have hno : ¬ BlockCell m params slots x := fun hc => hc.1 hsize
          have hout : ¬ Within (params, ([] : List Octet)) x := by
            simp only [Within, length_nil]
            omega
          simp [hsize, hempty, lastByte, hno, hout]
        · rw [if_pos hsize, restoreParams_apply hslots hsize, hstore]
          split <;> rfl
      dsimp only
      rw [recvBlobs_eq]
      cases (blobCopies slots c.frameSize (ofBytes hdr).nblobs stream).2 with
      | error status =>
        dsimp only
        rw [storeAll_apply, hbefore]
        cases lastByte _ x <;> rfl
      | ok rest =>
        dsimp only
        rw [recvTmppath_mem, storeAll_apply]
        cases lastByte (tmppathCopy c (ofBytes hdr) rest) x with
        | some b => rfl
        | none =>
          rw [restoreNested_apply hslots, storeAll_apply, hbefore]
          split
          · rfl
          · cases lastByte ((blobCopies slots c.frameSize (ofBytes hdr).nblobs stream).1.map
              copyOf) x <;> rfl

/-- The parameter block, the described buffers and the temp-path buffer have no byte in common, and
the cells lie in the block and in their outer buffers. -/
structure Separate (c : Client) (m : Method) (params : ℕ) (slots : List Slot) : Prop where
  blockCell : ∀ x, BlockCell m params slots x → params ≤ x ∧ x < params + m.paramsSize
  nestedCell : ∀ x, NestedCell slots x → ∃ s ∈ slots, s.saved ≠ 0 ∧ s.saved ≤ x ∧ x < s.saved + s.len
  block : ∀ s ∈ slots, s.saved ≠ 0 → ∀ x, params ≤ x ∧ x < params + m.paramsSize →
    ¬ (s.saved ≤ x ∧ x < s.saved + s.len)
  apart : ∀ s ∈ slots, s.saved ≠ 0 → ∀ t ∈ slots, t.saved ≠ 0 → ∀ x, s.saved ≤ x ∧ x < s.saved + s.len →
    t.saved ≤ x ∧ x < t.saved + t.len → s = t
  tmppath : ∀ a, c.tmppath = some a → ∀ x, a ≤ x ∧ x < a + tmppathLen →
    ¬ (params ≤ x ∧ x < params + m.paramsSize) ∧
      ∀ s ∈ slots, s.saved ≠ 0 → ¬ (s.saved ≤ x ∧ x < s.saved + s.len)

/-- A byte that a call has to leave as it was. -/
def Guarded (c : Client) (m : Method) (params : ℕ) (slots : List Slot) (x : ℕ) : Prop :=
  ¬ MayChange c m params slots x ∨ BlockCell m params slots x ∨ NestedCell slots x

/-- The byte at a place of a buffer in the last blob for it that is long enough. -/
def received (s : Slot) (k : ℕ) : List (Slot × List Octet) → Option Octet
  | [] => none
  | w :: ws => (received s k ws).or (if w.1 = s then w.2[k]? else none)

/-- The blobs bring the caller's own bytes for the buffers that are not OUT and, if the reply breaks off,
for the nested cells; cells of a whole reply are put back. -/
def Faithful (c : Client) (m : Method) (slots : List Slot) (mem : ByteMem) (stream : List Octet) : Prop :=
  match blobsOf c m slots stream with
  | none => True
  | some (_, _, copies, out) => ∀ s ∈ slots, ∀ k < s.len,
    (s.field.output = false ∨ NestedCell slots (s.saved + k)) →
    (NestedCell slots (s.saved + k) → out.toOption = none) →
    ∀ b, received s k copies = some b → b = mem (s.saved + k)

theorem tmppathCopy_within {stream : List Octet} {w : ℕ × List Octet}
    (hw : w ∈ tmppathCopy c rep stream) {x : ℕ} (hx : Within w x) :
    ∃ a, c.tmppath = some a ∧ a ≤ x ∧ x < a + tmppathLen := by
  rw [tmppathCopy] at hw
  split at hw
  · cases hw
  split at hw
  · rename_i bytes rest a hr ha
    rw [mem_singleton] at hw
    subst hw
    have := (recvAll_length hr).1
    obtain ⟨h₁, h₂⟩ := hx
    dsimp only at h₁ h₂
    exact ⟨a, ha, h₁, by omega⟩
  · cases hw

section Reply

variable {params : ℕ} {slots : List Slot} {mem : ByteMem} {stream : List Octet} {copies : List (Slot × List Octet)}
  {x : ℕ} {b : Octet}

variable (hsep : Separate c m params slots)
include hsep

theorem Guarded.blockCell (hx : Guarded c m params slots x) (hin : params ≤ x ∧ x < params + m.paramsSize) :
    BlockCell m params slots x := by
  rcases hx with hx | hx | hx
  · exact absurd (.inl hin) hx
  · exact hx
  · obtain ⟨s, hs, hsaved, hxs⟩ := hsep.nestedCell x hx
    exact absurd hxs (hsep.block s hs hsaved x hin)

end Reply

namespace OneNested

def method : Method :=
  ⟨8, [⟨0, true, true, .fixed, 16, 0, 0⟩, ⟨0, true, true, .nested, 8, 0, 4⟩], false, none⟩

def params : ℕ := 0x1000

def memory : ByteMem :=
  (store (fun _ => 0) 0x1000 (leBytes 8 0x2000)).store 0x2000 (pack [(4, 4), (4, 0), (8, 0x3000)])

def client : Client := ⟨0x10000, none⟩

def slots : List Slot :=
  [⟨⟨0, true, true, .fixed, 16, 0, 0⟩, 0x2000, 0x2000, 16⟩,
    ⟨⟨0, true, true, .nested, 8, 0, 4⟩, 0x3000, 0x2000, 4⟩]

theorem prepare_sent : prepare client 7 method memory params =
    .sent (frame 7 method memory params slots) slots 0x10000 := by decide +kernel

def reply : List Octet :=
  RepHdr.bytes ⟨repMagic, 0, 8, 2, 0, 0, 0⟩ ++ leBytes 8 0x7f0000001000 ++
    BlobHdr.bytes ⟨0, 16, 3, 0⟩ ++ pack [(4, 4), (4, 0), (8, 0x7f0000002000)]

def replyRest : List Octet := BlobHdr.bytes ⟨0, 4, 7, 8⟩ ++ [1, 2, 3, 4]

theorem separate : Separate client method params slots := by
  have hblock : ∀ x, BlockCell method params slots x → 0x1000 ≤ x ∧ x < 0x1008 := by
    rintro x ⟨-, s, hs, hn, h₁, h₂⟩
    simp only [slots, mem_cons, not_mem_nil, or_false] at hs
    rcases hs with rfl | rfl
    · simp only [params, length_leBytes, ptrSize] at h₁ h₂
      omega
    · simp [Field.nested] at hn
  refine ⟨hblock, ?_, ?_, ?_, by simp [client]⟩
  · rintro x ⟨s, hs, ⟨hn, -⟩, h₁, h₂⟩
    simp only [slots, mem_cons, not_mem_nil, or_false] at hs
    rcases hs with rfl | rfl
    · simp [Field.nested] at hn
    simp only [length_leBytes, ptrSize] at h₁ h₂
    refine ⟨⟨⟨0, true, true, .fixed, 16, 0, 0⟩, 0x2000, 0x2000, 16⟩, by simp [slots], by decide, ?_, ?_⟩
    · dsimp only
      omega
    · omega
  · intro s hs _ x hx
    simp only [slots, mem_cons, not_mem_nil, or_false] at hs
    simp only [params, method] at hx
    rcases hs with rfl | rfl
    · dsimp only
      omega
    · dsimp only
      omega
  · intro s hs _ t ht _ x hxs hxt
    simp only [slots, mem_cons, not_mem_nil, or_false] at hs ht
    rcases hs with rfl | rfl <;> rcases ht with rfl | rfl <;> first | rfl | (dsimp only at hxs hxt; omega)

/-- The whole reply, and one that ends before the first blob. -/
theorem faithful : Faithful client method slots memory (reply ++ replyRest) ∧
    Faithful client method slots memory (reply.take 40) := by
  have hall : ∀ s ∈ slots, s.field.output = true := by decide
  constructor
  · obtain ⟨⟨rep, block, copies, out⟩, hof, hout⟩ := map_eq_some_iff.mp
      (show (blobsOf client method slots (reply ++ replyRest)).map (fun r => r.2.2.2.toOption) = some (some []) by
        decide +kernel)
    simp only [Faithful, hof]
    intro s hs k _ hguard hbroken
    rcases hguard with hin | hcell
    · cases (hall s hs).symm.trans hin
    · cases hout.symm.trans (hbroken hcell)
  · obtain ⟨⟨rep, block, copies, out⟩, hof, hnone⟩ := map_eq_some_iff.mp
      (show (blobsOf client method slots (reply.take 40)).map (fun r => r.2.2.1) = some [] by decide +kernel)
    simp only [Faithful, hof]
    intro s _ k _ _ _ b hb
    rw [show copies = [] from hnone] at hb
    cases hb

end OneNested

end WinePpc64.Steam
