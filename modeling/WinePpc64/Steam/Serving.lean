import WinePpc64.Steam.Helper
import WinePpc64.Steam.Placement

namespace WinePpc64.Steam

open Lib Lib.ByteMem List BlobHdr Slot

variable {s : Slot} {i : Slot × ℕ} {h : BlobHdr} {p : ℕ}

section Headers

theorem BlobHdr.ofBytes_bytes (h₁ : h.offset < 2 ^ 32) (h₂ : h.len < 2 ^ 32)
    (h₃ : h.flags < 2 ^ 32) (h₄ : h.inner < 2 ^ 32) : BlobHdr.ofBytes h.bytes = h := by
  have hfs : ∀ f ∈ [(4, h.offset), (4, h.len), (4, h.flags), (4, h.inner)], f.2 < 256 ^ f.1 := by
    simpa using ⟨h₁, h₂, h₃, h₄⟩
  have hp := unpack_pack hfs
  simp only [map_cons, map_nil] at hp
  simp only [ofBytes, bytes, hp]

theorem ReqHdr.ofBytes_bytes {h : ReqHdr} (h₁ : h.magic < 2 ^ 32) (h₂ : h.code < 2 ^ 32)
    (h₃ : h.paramsLen < 2 ^ 32) (h₄ : h.nblobs < 2 ^ 32) : ReqHdr.ofBytes h.bytes = h := by
  have hfs : ∀ f ∈ [(4, h.magic), (4, h.code), (4, h.paramsLen), (4, h.nblobs)], f.2 < 256 ^ f.1 := by
    simpa using ⟨h₁, h₂, h₃, h₄⟩
  have hp := unpack_pack hfs
  simp only [map_cons, map_nil] at hp
  simp only [ReqHdr.ofBytes, ReqHdr.bytes, hp]

@[simp]
theorem BlobHdr.length_bytes : h.bytes.length = 16 := by
  simp [bytes, length_pack]

@[simp]
theorem ReqHdr.length_bytes {h : ReqHdr} : h.bytes.length = 16 := by
  simp [ReqHdr.bytes, length_pack]

@[simp]
theorem RepHdr.length_bytes {h : RepHdr} : h.bytes.length = 32 := by
  simp [RepHdr.bytes, length_pack]

theorem Field.flags_lt (f : Field) : f.flags < 8 := by
  rw [Field.flags]
  have := Bool.toNat_le f.input
  have := Bool.toNat_le f.output
  have := Bool.toNat_le f.nested
  omega

@[simp]
theorem Slot.offset_hdr : s.hdr.offset = s.field.offset := rfl

@[simp]
theorem Slot.len_hdr : s.hdr.len = s.len := rfl

theorem Slot.inner_hdr (h : s.field.nested = true) : s.hdr.inner = s.field.elem := if_pos h

@[simp]
theorem Slot.isNested_hdr : s.hdr.isNested = s.field.nested := by
  simp only [isNested, hdr, Field.flags]
  cases s.field.input <;> cases s.field.output <;> cases s.field.nested <;> decide

@[simp]
theorem Slot.isOut_hdr (s : Slot) : s.hdr.isOut = s.field.output := by
  simp only [isOut, hdr, Field.flags]
  cases s.field.input <;> cases s.field.output <;> cases s.field.nested <;> decide

end Headers

section Loop

variable {m : Method} {mem : ByteMem} {alloc : ℕ → ℕ}

def slotPtrs (l : List (Slot × ℕ)) : List (ℕ × List Octet) :=
  (l.filter fun i => !i.1.field.nested).map fun i => (i.1.field.offset, leBytes ptrSize i.2)

def slotInner (offset : ℕ) (l : List (Slot × ℕ)) : List (ℕ × List Octet) :=
  (l.filter fun i => i.1.field.nested && decide (i.1.field.offset = offset)).map fun i =>
    (i.1.field.elem, leBytes ptrSize i.2)

def blobFor (mem : ByteMem) (l : List (Slot × ℕ)) (i : Slot × ℕ) : Blob :=
  ⟨i.1.hdr, i.2, if i.1.field.nested then guarded (mem.load i.1.saved i.1.len)
    else (guarded (mem.load i.1.saved i.1.len)).storeAll (slotInner i.1.field.offset l)⟩

def placed (alloc : ℕ → ℕ) : List Slot → ℕ → List (Slot × ℕ)
  | [], _ => []
  | s :: slots, k => (s, alloc (k + 1)) :: placed alloc slots (k + 1)

theorem patchOuter_eq (bh : BlobHdr) (p : ℕ) (blobs : List Blob)
    (hone : blobs.Pairwise fun b b' => b.hdr.isNested = false → b'.hdr.isNested = false →
      b.hdr.offset ≠ b'.hdr.offset)
    (hex : ∃ b ∈ blobs, b.hdr.offset = bh.offset ∧ b.hdr.isNested = false)
    (hlen : ∀ b ∈ blobs, b.hdr.offset = bh.offset → b.hdr.isNested = false →
      bh.inner + ptrSize ≤ b.hdr.len) :
    patchOuter bh p blobs = some (blobs.map fun b =>
      if b.hdr.offset = bh.offset ∧ b.hdr.isNested = false then
        { b with bytes := b.bytes.store bh.inner (leBytes ptrSize p) } else b) := by
  induction blobs with
  | nil => simp at hex
  | cons b blobs ih =>
    obtain ⟨hb, hone⟩ := pairwise_cons.mp hone
    rw [patchOuter, map_cons]
    by_cases hm : b.hdr.offset = bh.offset ∧ b.hdr.isNested = false
    · have hl := hlen b (by simp) hm.1 hm.2
      rw [if_pos hm, if_pos hm, if_neg (by omega)]
      have hrest : blobs.map (fun b => if b.hdr.offset = bh.offset ∧ b.hdr.isNested = false then
          { b with bytes := b.bytes.store bh.inner (leBytes ptrSize p) } else b) = blobs := by
        rw [map_congr_left (g := id)]
        · simp
        · intro b' hb'
          exact if_neg fun hm' => hb b' hb' hm.2 hm'.2 (hm.1.trans hm'.1.symm)
      rw [hrest]
    · have hex' : ∃ b ∈ blobs, b.hdr.offset = bh.offset ∧ b.hdr.isNested = false := by
        obtain ⟨b', hb', hm'⟩ := hex
        rcases mem_cons.mp hb' with rfl | hb'
        · exact absurd hm' hm
        · exact ⟨b', hb', hm'⟩
      rw [if_neg hm, if_neg hm, ih hone hex' fun b' hb' => hlen b' (by simp [hb'])]
      rfl

@[simp]
theorem blobFor_hdr {l : List (Slot × ℕ)} : (blobFor mem l i).hdr = i.1.hdr := rfl

theorem blobFor_nested (hn : s.field.nested = true) {done : List (Slot × ℕ)} :
    blobFor mem (done ++ [(s, p)]) i =
      if (blobFor mem done i).hdr.offset = s.hdr.offset ∧ (blobFor mem done i).hdr.isNested = false then
        { blobFor mem done i with
          bytes := (blobFor mem done i).bytes.store s.hdr.inner (leBytes ptrSize p) }
      else blobFor mem done i := by
  simp only [blobFor_hdr, offset_hdr, isNested_hdr, inner_hdr hn]
  cases hni : i.1.field.nested with
  | true => simp [blobFor, hni]
  | false =>
    by_cases ho : i.1.field.offset = s.field.offset
    · simp [blobFor, hni, ho, slotInner, hn, storeAll]
    · have ho' : ¬ s.field.offset = i.1.field.offset := fun h => ho h.symm
      simp [blobFor, hni, ho, ho', slotInner, hn]

theorem blobFor_outer (hn : s.field.nested = false) {done : List (Slot × ℕ)} :
    blobFor mem (done ++ [(s, p)]) i = blobFor mem done i := by
  simp [blobFor, slotInner, hn]

structure Sendable (m : Method) (slots : List Slot) : Prop where
  offset : ∀ s ∈ slots, s.field.offset + ptrSize ≤ m.paramsSize
  len : ∀ s ∈ slots, s.len ≤ maxFrame
  elem : ∀ s ∈ slots, s.field.elem < 2 ^ 32
  one : slots.Pairwise fun a b => a.field.nested = false → b.field.nested = false →
    a.field.offset ≠ b.field.offset
  outer : ∀ pre s post, slots = pre ++ s :: post → s.field.nested = true →
    ∃ o ∈ pre, o.field.nested = false ∧ o.field.offset = s.field.offset
  inner : ∀ s ∈ slots, ∀ o ∈ slots, s.field.nested = true → o.field.nested = false →
    o.field.offset = s.field.offset → s.field.elem + ptrSize ≤ o.len

theorem Sendable.hdr_ofBytes {slots : List Slot} (h : Sendable m slots) (hsize : m.paramsSize ≤ maxFrame)
    (hs : s ∈ slots) : BlobHdr.ofBytes s.hdr.bytes = s.hdr := by
  have h₁ := h.offset s hs
  have h₂ := h.len s hs
  have h₃ := h.elem s hs
  have h₄ := s.field.flags_lt
  have hmax : maxFrame < 2 ^ 32 := by decide
  apply ofBytes_bytes
  · simp only [hdr]; omega
  · simp only [hdr]; omega
  · simp only [hdr]; omega
  · simp only [hdr]; split <;> omega

theorem readBlobs_eq {rest : List Octet} (hsize : m.paramsSize ≤ maxFrame) {block : ByteMem}
    {todo : List Slot} : ∀ done : List (Slot × ℕ), Sendable m (done.map Prod.fst ++ todo) →
    readBlobs alloc m.paramsSize todo.length (block.storeAll (slotPtrs done))
        (done.map (blobFor mem done))
        (todo.flatMap (fun s => s.hdr.bytes ++ mem.load s.saved s.len) ++ rest) =
      some (block.storeAll (slotPtrs (done ++ placed alloc todo done.length)),
        (done ++ placed alloc todo done.length).map (blobFor mem (done ++ placed alloc todo done.length)),
        rest) := by
  induction todo with
  | nil =>
    intro done _
    simp [readBlobs, placed]
  | cons s todo ih =>
    intro done hsend
    have hs : s ∈ done.map Prod.fst ++ s :: todo := by simp
    have hhdr := hsend.hdr_ofBytes hsize hs
    have hmem : ∀ i ∈ done, i.1 ∈ done.map Prod.fst ++ s :: todo := by
      intro i hi
      exact mem_append_left _ (mem_map_of_mem hi)
    have hone := hsend.one
    rw [pairwise_append, pairwise_map] at hone
    have hlen := hsend.len s hs
    have hoff := hsend.offset s hs
    -- the fields with the next one
    have hih := ih (done ++ [(s, alloc (done.length + 1))]) (by simpa using hsend)
    simp only [append_assoc, singleton_append, length_append, length_singleton] at hih
    rw [length_cons, readBlobs, flatMap_cons, append_assoc, append_assoc,
      recvAll_append length_bytes]
    dsimp only
    rw [hhdr, if_neg (by simp only [hdr]; omega)]
    have hrecv : recvAll s.hdr.len (mem.load s.saved s.len ++
        (todo.flatMap (fun s => s.hdr.bytes ++ mem.load s.saved s.len) ++ rest)) =
        some (mem.load s.saved s.len,
          todo.flatMap (fun s => s.hdr.bytes ++ mem.load s.saved s.len) ++ rest) :=
      recvAll_append (by simp [hdr])
    rw [hrecv]
    rw [isNested_hdr, placed]
    cases hn : s.field.nested with
    | true =>
      have hpatch := patchOuter_eq s.hdr (alloc (done.length + 1)) (done.map (blobFor mem done))
        (by
          rw [pairwise_map]
          exact hone.1.imp fun {a b} hab => by simpa using hab)
        (by
          obtain ⟨o, ho, hon, hoo⟩ := hsend.outer (done.map Prod.fst) s todo rfl hn
          obtain ⟨i, hi, rfl⟩ := mem_map.mp ho
          exact ⟨blobFor mem done i, mem_map_of_mem hi, hoo, by simpa using hon⟩)
        (by
          intro b hb hbo hbn
          obtain ⟨i, hi, rfl⟩ := mem_map.mp hb
          rw [inner_hdr hn]
          exact hsend.inner s hs i.1 (hmem i hi) hn (by simpa using hbn) hbo)
      simp only [if_true, length_map, hpatch]
      convert hih using 2
      · simp [slotPtrs, hn]
      rw [map_append, map_map]
      congr 1
      · apply map_congr_left
        intro i hi
        exact (blobFor_nested hn).symm
      · simp [blobFor, hn]
    | false =>
      simp only [Bool.false_eq_true, if_false, length_map]
      convert hih using 2
      · simp [slotPtrs, hn, storeAll]
      rw [map_append]
      congr 1
      · apply map_congr_left
        intro i hi
        exact (blobFor_outer hn).symm
      -- no field before this one is nested in it
      have hnone : slotInner s.field.offset done = [] := by
        simp only [slotInner, map_eq_nil_iff, filter_eq_nil_iff]
        intro i hi hin
        simp only [Bool.and_eq_true, decide_eq_true_eq] at hin
        obtain ⟨l₁, l₂, hsplit⟩ := append_of_mem hi
        obtain ⟨o, ho, hon, hoo⟩ := hsend.outer (l₁.map Prod.fst) i.1
          (l₂.map Prod.fst ++ s :: todo) (by simp [hsplit]) hin.1
        have hod : o ∈ done.map Prod.fst := by
          rw [hsplit, map_append]
          exact mem_append_left _ ho
        exact hone.2.2 o hod s (by simp) hon hn (hoo.trans hin.2)
      simp only [map_cons, map_nil, blobFor_outer hn]
      simp [blobFor, hn, hnone, storeAll]

end Loop

end WinePpc64.Steam
