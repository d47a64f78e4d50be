import WinePpc64.Steam.CallerArgs

namespace WinePpc64.Steam

open Lib Lib.ByteMem List ReqHdr

section Assemble

variable {mem params : ByteMem} {addr len x k : ℕ} {blobs : List Blob}

def Blob.region (b : Blob) : ℕ × ℕ := (b.addr, b.hdr.len + blobGuard)

theorem foldl_place_out {base : ByteMem} (h : ∀ b ∈ blobs, ¬ InRegion b.region x) :
    blobs.foldl (fun mem b => place mem b.addr (b.hdr.len + blobGuard) b.bytes) base x = base x := by
  induction blobs generalizing base with
  | nil => rfl
  | cons b blobs ih =>
    rw [foldl_cons, ih fun b' hb' => h b' (by simp [hb'])]
    exact if_neg (h b (by simp))

theorem assemble_block (h : ∀ b ∈ blobs, Disjoint (addr, len) b.region) (hk : k < len) :
    assemble mem addr len params blobs (addr + k) = params k := by
  have hin : InRegion (addr, len) (addr + k) := ⟨by simp, by simpa using hk⟩
  rw [assemble, foldl_place_out fun b hb => h b hb _ hin]
  exact (if_pos hin).trans (by simp)

theorem assemble_blob (h : blobs.Pairwise fun b b' => Disjoint b.region b'.region) {b : Blob}
    (hb : b ∈ blobs) (hk : k < b.hdr.len + blobGuard) :
    assemble mem addr len params blobs (b.addr + k) = b.bytes k := by
  have hin : InRegion b.region (b.addr + k) := ⟨by simp [Blob.region], by simpa [Blob.region] using hk⟩
  obtain ⟨pre, post, rfl⟩ := append_of_mem hb
  rw [pairwise_append, pairwise_cons] at h
  rw [assemble, foldl_append, foldl_cons,
    foldl_place_out fun b' hb' => h.2.1.1 b' hb' _ hin]
  exact (if_pos hin).trans (by simp)

end Assemble

def assign (alloc : ℕ → ℕ) : List Slot → ℕ → List ℕ
  | [], _ => []
  | s :: slots, k =>
    if s.saved = 0 then 0 :: assign alloc slots k else alloc (k + 1) :: assign alloc slots (k + 1)

structure Fresh (alloc : ℕ → ℕ) (addr : ℕ) (m : Method) (slots : List Slot) : Prop where
  apart : ((addr, m.paramsSize) :: (placed alloc (present slots) 0).map fun i =>
    (i.2, i.1.len + blobGuard)).Pairwise Disjoint
  pointer : ∀ i ∈ placed alloc (present slots) 0, i.2 ≠ 0 ∧ i.2 < 2 ^ 64

variable {i : Slot × ℕ} {k : ℕ} {mem' : ByteMem} {h : Helper}

section Assign

variable {alloc : ℕ → ℕ} {slots : List Slot}

theorem length_assign (alloc : ℕ → ℕ) (slots : List Slot) (k : ℕ) : (assign alloc slots k).length = slots.length := by
  induction slots generalizing k with
  | nil => rfl
  | cons s slots ih =>
    rw [assign]
    split
    · simp [ih]
    · simp [ih]

theorem zip_assign (slots : List Slot) (k : ℕ) :
    (slots.zip (assign alloc slots k)).filter (fun i => decide (i.1.saved ≠ 0)) =
      placed alloc (present slots) k := by
  induction slots generalizing k with
  | nil => rfl
  | cons s slots ih =>
    rw [assign]
    by_cases hs : s.saved = 0
    · simpa [hs, present] using ih k
    · simpa [hs, present, placed] using ih (k + 1)

theorem assign_null (hi : i ∈ slots.zip (assign alloc slots k)) (hs : i.1.saved = 0) : i.2 = 0 := by
  induction slots generalizing k with
  | nil => simp at hi
  | cons s slots ih =>
    rw [assign] at hi
    split at hi
    · rcases mem_cons.mp hi with rfl | hi
      · rfl
      · exact ih hi
    rename_i hne
    rcases mem_cons.mp hi with rfl | hi
    · exact absurd hs hne
    · exact ih hi

theorem mem_placed (hi : i ∈ slots.zip (assign alloc slots 0)) (hs : i.1.saved ≠ 0) :
    i ∈ placed alloc (present slots) 0 := by
  rw [← zip_assign]
  exact mem_filter.mpr ⟨hi, by simpa using hs⟩

theorem of_mem_placed (hi : i ∈ placed alloc (present slots) 0) :
    i ∈ slots.zip (assign alloc slots 0) ∧ i.1.saved ≠ 0 := by
  rw [← zip_assign] at hi
  simpa using mem_filter.mp hi

theorem zip_items {mem : ByteMem} {slots : List Slot} {ps : List ℕ} :
    (slots.map (itemOf mem)).zip ps = (slots.zip ps).map fun i => (itemOf mem i.1, i.2) :=
  zip_map_left

end Assign

section Helper

variable {m : Method} {mem hmem : ByteMem} {params addr need : ℕ} {slots : List Slot} {alloc : ℕ → ℕ}
  {c : Client}

def blobsFor (alloc : ℕ → ℕ) (mem : ByteMem) (slots : List Slot) : List Blob :=
  (placed alloc (present slots) 0).map (blobFor mem (placed alloc (present slots) 0))

def blockFor (alloc : ℕ → ℕ) (m : Method) (mem : ByteMem) (params : ℕ) (slots : List Slot) : ByteMem :=
  (guarded (mem.load params m.paramsSize)).storeAll (slotPtrs (placed alloc (present slots) 0))

theorem guarded_lt {a n : ℕ} (hk : k < n) : guarded (mem.load a n) k = mem (a + k) := by
  simp [guarded, load, getD_eq_getElem?_getD, hk]

theorem guarded_ge {a n : ℕ} (hk : n ≤ k) : guarded (mem.load a n) k = guardByte := by
  have hlen : (mem.load a n).length ≤ k := by simpa using hk
  rw [guarded, getD_eq_getElem?_getD, getElem?_eq_none hlen]
  rfl

theorem Fresh.block_apart (h : Fresh alloc addr m slots) :
    ∀ b ∈ blobsFor alloc mem slots, Disjoint (addr, m.paramsSize) b.region := by
  intro b hb
  obtain ⟨i, hi, rfl⟩ := mem_map.mp hb
  exact (pairwise_cons.mp h.apart).1 _ (mem_map.mpr ⟨i, hi, rfl⟩)

theorem Fresh.blobs_apart (h : Fresh alloc addr m slots) :
    (blobsFor alloc mem slots).Pairwise fun b b' => Disjoint b.region b'.region := by
  have hp := (pairwise_cons.mp h.apart).2
  rw [pairwise_map] at hp
  rw [blobsFor, pairwise_map]
  exact hp

variable (hwf : WellFormed m) (hfields : slots.map Slot.field = m.fields)
  (htaken : ∀ s ∈ slots, s.Taken m mem params need) (hmeas : ∀ s ∈ slots, s.Measured m mem params)
  (hlay : Layout c m params slots) (hfresh : Fresh alloc addr m slots)

include hfields in
theorem zip_fields (ps : List ℕ) (hlen : ps.length = slots.length) :
    (slots.zip ps).map (fun i => i.1.field) = m.fields := by
  have h : (slots.zip ps).map (fun i => i.1.field) = ((slots.zip ps).map Prod.fst).map Slot.field := by
    simp
  rw [h, map_fst_zip (by omega), hfields]

include hwf hfields hmeas in
theorem blockFor_apply (hk : k < m.paramsSize) :
    blockFor alloc m mem params slots k =
      storeAll (fun k => mem (params + k))
        (blockPtrs ((slots.map (itemOf mem)).zip (assign alloc slots 0))) k := by
  have hptrs : blockPtrs ((slots.map (itemOf mem)).zip (assign alloc slots 0)) =
      slotPtrs (slots.zip (assign alloc slots 0)) := by
    rw [zip_items, blockPtrs, slotPtrs, filter_map, map_map]
    rfl
  have hzip := zip_fields hfields (assign alloc slots 0) (length_assign alloc slots 0)
  rw [hptrs, blockFor, ← zip_assign, storeAll_congr _ (fun k => mem (params + k)) _ (guarded_lt hk),
    slotPtrs, filter_comm, slotPtrs]
  apply storeAll_filter
  · intro i hi j hj hix hjx
    obtain ⟨hi, hin⟩ := mem_filter.mp hi
    obtain ⟨hj, hjn⟩ := mem_filter.mp hj
    simp only [Within, length_leBytes] at hix hjx
    exact hwf.block_unique hzip hi hj (by simpa using hin) (by simpa using hjn) hix hjx
  · intro i hi hnull hix
    obtain ⟨hi, hin⟩ := mem_filter.mp hi
    have hsaved : i.1.saved = 0 := by simpa using hnull
    have hs : i.1 ∈ slots := (of_mem_zip hi).1
    simp only [Within, length_leBytes] at hix
    dsimp only
    rw [assign_null hi hsaved, ← hsaved]
    exact getD_cell ((hmeas i.1 hs).block (by omega) (by simpa using hin)) hix

include hwf hfields htaken hmeas in
theorem blobFor_apply (hi : i ∈ slots.zip (assign alloc slots 0)) (hs : i.1.saved ≠ 0)
    (hk : k < i.1.len) :
    (blobFor mem (placed alloc (present slots) 0) i).bytes k =
      (itemOf mem i.1).content ((slots.map (itemOf mem)).zip (assign alloc slots 0)) k := by
  rw [Item.content, blobFor]
  cases hn : i.1.field.nested with
  | true =>
    rw [if_pos rfl, if_pos (by exact hn)]
    exact guarded_lt hk
  | false =>
    rw [if_neg Bool.false_ne_true, if_neg (by simpa [itemOf] using hn)]
    have hptrs : innerPtrs i.1.field.offset ((slots.map (itemOf mem)).zip (assign alloc slots 0)) =
        slotInner i.1.field.offset (slots.zip (assign alloc slots 0)) := by
      rw [zip_items, innerPtrs, slotInner, filter_map, map_map]
      rfl
    have hzip := zip_fields hfields (assign alloc slots 0) (length_assign alloc slots 0)
    have hsi : i.1 ∈ slots := (of_mem_zip hi).1
    change _ = storeAll (fun k => mem (i.1.saved + k))
      (innerPtrs i.1.field.offset ((slots.map (itemOf mem)).zip (assign alloc slots 0))) k
    rw [hptrs, ← zip_assign]
    dsimp only
    rw [storeAll_congr (guarded (mem.load i.1.saved i.1.len))
      (fun k => mem (i.1.saved + k)) _ (guarded_lt hk), slotInner, filter_comm, slotInner]
    apply storeAll_filter
    · intro j hj j' hj' hjx hjx'
      obtain ⟨hj, hjn⟩ := mem_filter.mp hj
      obtain ⟨hj', hjn'⟩ := mem_filter.mp hj'
      simp only [Bool.and_eq_true, decide_eq_true_eq] at hjn hjn'
      simp only [Within, length_leBytes] at hjx hjx'
      exact hwf.inner_unique hzip hj hj' hjn.1 hjn'.1 (hjn.2.trans hjn'.2.symm) hjx hjx'
    · intro j hj hnull hjx
      obtain ⟨hj, hjn⟩ := mem_filter.mp hj
      simp only [Bool.and_eq_true, decide_eq_true_eq] at hjn
      have hsaved : j.1.saved = 0 := by simpa using hnull
      have hsj : j.1 ∈ slots := (of_mem_zip hj).1
      have houter := (htaken j.1 hsj).outer_eq (htaken i.1 hsi) hn hjn.2.symm
      simp only [Within, length_leBytes] at hjx
      dsimp only
      rw [assign_null hj hsaved, ← hsaved]
      exact getD_cell (houter ▸ (hmeas j.1 hsj).nested hjn.1 (houter ▸ hs)) hjx

include hwf hfields htaken hmeas hfresh in
theorem realizes_helper :
    Realizes m.paramsSize
      (assemble hmem addr m.paramsSize (blockFor alloc m mem params slots) (blobsFor alloc mem slots))
      addr (argsOf mem params slots) (assign alloc slots 0) := by
  refine ⟨by simp [argsOf, length_assign], ?_, ?_, ?_, ?_⟩
  · intro k hk
    rw [assemble_block hfresh.block_apart hk]
    exact blockFor_apply hwf hfields hmeas hk
  · simp only [argsOf, zip_items, forall_mem_map]
    intro i hi
    simp only [itemOf, decide_eq_true_eq]
    refine ⟨assign_null hi, fun h0 => ?_⟩
    by_contra hs
    exact (hfresh.pointer i (mem_placed hi hs)).1 h0
  · intro p hp
    obtain ⟨n, hn⟩ := mem_iff_getElem?.mp hp
    have hlt : n < slots.length := by
      rw [← length_assign alloc slots 0]
      exact (List.getElem?_eq_some_iff.mp hn).1
    have hi : (slots[n], p) ∈ slots.zip (assign alloc slots 0) := by
      apply mem_iff_getElem?.mpr
      exact ⟨n, getElem?_zip_eq_some.mpr ⟨getElem?_eq_getElem hlt, hn⟩⟩
    by_cases hs : slots[n].saved = 0
    · have h0 : p = 0 := assign_null hi hs
      rw [h0]
      decide
    · exact (hfresh.pointer _ (mem_placed hi hs)).2
  · simp only [argsOf, zip_items, forall_mem_map]
    intro i hi hnull k hk
    have hs : i.1.saved ≠ 0 := by simpa [itemOf] using hnull
    have hb : blobFor mem (placed alloc (present slots) 0) i ∈ blobsFor alloc mem slots :=
      mem_map_of_mem (mem_placed hi hs)
    have hk' : k < i.1.len := hk
    have hplace : assemble hmem addr m.paramsSize (blockFor alloc m mem params slots)
        (blobsFor alloc mem slots) (i.2 + k) = (blobFor mem (placed alloc (present slots) 0) i).bytes k :=
      assemble_blob hfresh.blobs_apart hb (by rw [blobFor_hdr, Slot.len_hdr]; omega)
    rw [← zip_items]
    exact hplace.trans (blobFor_apply hwf hfields htaken hmeas hi hs hk')

theorem regions_helper :
    regions m.paramsSize addr ((argsOf mem params slots).items.zip (assign alloc slots 0)) =
      (addr, m.paramsSize) :: (placed alloc (present slots) 0).map fun i => (i.2, i.1.len) := by
  have hnull : (fun i : Slot × ℕ => !decide (i.1.saved = 0)) = fun i => decide (i.1.saved ≠ 0) := by
    simp
  rw [regions, argsOf, zip_items, filter_map, map_map, ← zip_assign]
  simp only [itemOf, Function.comp_def, hnull]

theorem Fresh.regions_apart (h : Fresh alloc addr m slots) :
    ((addr, m.paramsSize) :: (placed alloc (present slots) 0).map fun i =>
      (i.2, i.1.len)).Pairwise Disjoint := by
  have hsub : ∀ {p len : ℕ} {x : ℕ}, InRegion (p, len) x → InRegion (p, len + blobGuard) x := by
    intro p len x hx
    exact ⟨hx.1, Nat.lt_of_lt_of_le hx.2 (by dsimp only; omega)⟩
  obtain ⟨hblock, hblobs⟩ := pairwise_cons.mp h.apart
  refine pairwise_cons.mpr ⟨?_, ?_⟩
  · intro r hr
    obtain ⟨i, hi, rfl⟩ := mem_map.mp hr
    intro x hx hx'
    exact hblock _ (mem_map_of_mem hi) x hx (hsub hx')
  · rw [pairwise_map] at hblobs ⊢
    exact hblobs.imp fun hd x hx hx' => hd x (hsub hx) (hsub hx')

theorem not_overrun (hsend : Sendable m (present slots)) (hfresh : Fresh alloc addr m slots)
    (hrest : ∀ x, ¬ InRegion (addr, m.paramsSize) x →
      (∀ i ∈ placed alloc (present slots) 0, ¬ InRegion (i.2, i.1.len) x) →
      mem' x = assemble hmem addr m.paramsSize (blockFor alloc m mem params slots)
        (blobsFor alloc mem slots) x)
    {b : Blob} (hb : b ∈ blobsFor alloc mem slots) : blobOverrun mem' b = false := by
  obtain ⟨i, hi, rfl⟩ := mem_map.mp hb
  rw [blobOverrun, decide_eq_false_iff_not, not_not, eq_replicate_iff]
  refine ⟨length_load, ?_⟩
  intro v hv
  obtain ⟨k, hk, rfl⟩ := mem_map.mp hv
  rw [mem_range] at hk
  change mem' (i.2 + i.1.len + k) = guardByte
  have hin : InRegion (i.2, i.1.len + blobGuard) (i.2 + i.1.len + k) :=
    ⟨by dsimp only; omega, by dsimp only; omega⟩
  have happart := (pairwise_cons.mp hfresh.apart).2
  rw [pairwise_map] at happart
  rw [hrest]
  · rw [Nat.add_assoc]
    have hplace : assemble hmem addr m.paramsSize (blockFor alloc m mem params slots)
        (blobsFor alloc mem slots) (i.2 + (i.1.len + k)) =
        (blobFor mem (placed alloc (present slots) 0) i).bytes (i.1.len + k) :=
      assemble_blob hfresh.blobs_apart hb (by rw [blobFor_hdr, Slot.len_hdr]; omega)
    rw [hplace, blobFor]
    dsimp only
    split
    · exact guarded_ge (by omega)
    rename_i hn
    rw [storeAll_out, guarded_ge (by omega)]
    -- the nested pointers are within the blob
    intro w hw hx
    obtain ⟨j, hj, rfl⟩ := mem_map.mp hw
    obtain ⟨hj, hjn⟩ := mem_filter.mp hj
    simp only [Bool.and_eq_true, decide_eq_true_eq] at hjn
    simp only [Within, length_leBytes] at hx
    have hmem : ∀ j ∈ placed alloc (present slots) 0, j.1 ∈ present slots := by
      intro j hj
      obtain ⟨hz, hs⟩ := of_mem_placed hj
      exact mem_filter.mpr ⟨(of_mem_zip hz).1, by simpa using hs⟩
    have := hsend.inner j.1 (hmem j hj) i.1 (hmem i hi) hjn.1 (by simpa using hn) hjn.2.symm
    omega
  · intro hx
    exact (pairwise_cons.mp hfresh.apart).1 _ (mem_map_of_mem hi) _ hx hin
  · intro j hj hx
    have hxj : InRegion (j.2, j.1.len + blobGuard) (i.2 + i.1.len + k) :=
      ⟨hx.1, Nat.lt_of_lt_of_le hx.2 (by dsimp only; omega)⟩
    have heq : i = j := eq_of_pairwise happart hi hj (fun hd => hd _ hin hxj) fun hd => hd _ hxj hin
    subst heq
    have := hx.2
    omega

end Helper

section Reply

variable {m : Method} {mem : ByteMem} {params : ℕ} {slots : List Slot} {alloc : ℕ → ℕ}

def image (h : Helper) (mem' : ByteMem) : List Octet :=
  if mem'.load h.tmppath tmppathLen = h.sent then [] else mem'.load h.tmppath tmppathLen

def repFor (h : Helper) (m : Method) (outs : List (Slot × ℕ)) (mem' : ByteMem) (status : ℕ) : RepHdr :=
  ⟨repMagic, status, m.paramsSize, outs.length, h.tmppath, (image h mem').length, 0⟩

def replyFor (h : Helper) (addr : ℕ) (m : Method) (outs : List (Slot × ℕ)) (mem' : ByteMem) (status : ℕ) :
    List Octet :=
  (repFor h m outs mem' status).bytes ++ mem'.load addr m.paramsSize ++
    outs.flatMap (fun i => (replyHdr i.1.hdr).bytes ++ mem'.load i.2 i.1.len) ++ image h mem'

def outsFor (alloc : ℕ → ℕ) (slots : List Slot) : List (Slot × ℕ) :=
  (placed alloc (present slots) 0).filter fun i => i.1.field.output

theorem reply_eq {addr : ℕ} {status : ℕ}
    (hno : ∀ b ∈ blobsFor alloc mem slots, blobOverrun mem' b = false) :
    (reply h addr m.paramsSize (blobsFor alloc mem slots) mem' status).1 =
      replyFor h addr m (outsFor alloc slots) mem' status := by
  have hfind : (blobsFor alloc mem slots).find? (blobOverrun mem') = none := by
    rw [find?_eq_none]
    intro b hb
    simp [hno b hb]
  have houts : (blobsFor alloc mem slots).filter (fun b => b.hdr.isOut) =
      (outsFor alloc slots).map (blobFor mem (placed alloc (present slots) 0)) := by
    rw [blobsFor, filter_map, outsFor]
    simp [Function.comp_def]
  have hlen : (if mem'.load h.tmppath tmppathLen = h.sent then 0 else tmppathLen) =
      (image h mem').length := by
    rw [image]
    split
    · rfl
    · simp
  have himage : (if (image h mem').length = 0 then [] else mem'.load h.tmppath tmppathLen) =
      image h mem' := by
    rw [image]
    split
    · rfl
    · rw [if_neg (by rw [length_load]; decide)]
  have hblobs : (if (outsFor alloc slots).length = 0 then [] else
      ((outsFor alloc slots).map (blobFor mem (placed alloc (present slots) 0))).flatMap fun b =>
        (replyHdr b.hdr).bytes ++ mem'.load b.addr b.hdr.len) =
      (outsFor alloc slots).flatMap fun i => (replyHdr i.1.hdr).bytes ++ mem'.load i.2 i.1.len := by
    split
    · rename_i h0
      rw [length_eq_zero_iff.mp h0]
      rfl
    · rw [flatMap_map]
      rfl
  rw [reply, hfind, houts, hlen]
  rw [length_map, hblobs, himage]
  rfl

def callMem (h : Helper) (alloc : ℕ → ℕ) (addr code : ℕ) (m : Method) (mem : ByteMem) (params : ℕ)
    (slots : List Slot) : ByteMem :=
  if code = unixSteamclientInit ∧ m.paramsSize ≠ 0 then
    redirectTmppath h addr (blobsFor alloc mem slots)
      (assemble h.mem addr m.paramsSize (blockFor alloc m mem params slots) (blobsFor alloc mem slots))
  else assemble h.mem addr m.paramsSize (blockFor alloc m mem params slots) (blobsFor alloc mem slots)

theorem serveOneCall_eq {code funcCount : ℕ}
    {call : ℕ → ByteMem → ℕ → ByteMem × BitVec 32} {rest : List Octet} (hcode : code < 2 ^ 32)
    (hserve : code < funcCount ∨ isLocalCode code = true) (hsize : m.paramsSize ≤ maxFrame)
    (hn : (present slots).length ≤ 32) (hsend : Sendable m (present slots)) {r : ByteMem × BitVec 32}
    (hr : call code (callMem h alloc (if m.paramsSize = 0 then 0 else alloc 0) code m mem params slots)
      (if m.paramsSize = 0 then 0 else alloc 0) = r)
    (hno : ∀ b ∈ blobsFor alloc mem slots, blobOverrun r.1 b = false) :
    ∃ h', serveOneCall h alloc funcCount call (frame code m mem params slots ++ rest) =
      some (h', replyFor h (if m.paramsSize = 0 then 0 else alloc 0) m (outsFor alloc slots) r.1
        r.2.toNat, rest) := by
  have hmax : maxFrame < 2 ^ 32 := by decide
  have hhdr : ofBytes (bytes ⟨reqMagic, code, m.paramsSize, (present slots).length⟩) =
      ⟨reqMagic, code, m.paramsSize, (present slots).length⟩ :=
    ofBytes_bytes (show reqMagic < 2 ^ 32 by decide) hcode
      (show m.paramsSize < 2 ^ 32 by omega) (show (present slots).length < 2 ^ 32 by omega)
  have hread : readBlobs alloc m.paramsSize (present slots).length
      (guarded (mem.load params m.paramsSize)) []
      ((present slots).flatMap (fun s => s.hdr.bytes ++ mem.load s.saved s.len) ++ rest) =
      some (blockFor alloc m mem params slots, blobsFor alloc mem slots, rest) :=
    readBlobs_eq hsize [] hsend
  have haccept : ¬ (funcCount ≤ code ∧ !isLocalCode code) := by
    rintro ⟨hle, hlocal⟩
    rcases hserve with hlt | hl
    · omega
    · simp [hl] at hlocal
  have hmagic : ¬ (reqMagic ≠ reqMagic ∨ maxFrame < m.paramsSize ∨ 32 < (present slots).length ∨
      (funcCount ≤ code ∧ !isLocalCode code)) := by
    rintro (h₁ | h₂ | h₃ | h₄)
    · exact h₁ rfl
    · omega
    · omega
    · exact haccept h₄
  rw [serveOneCall, frame, append_assoc, append_assoc, recvAll_append length_bytes]
  dsimp only
  rw [hhdr]
  rw [if_neg hmagic, recvAll_append length_load]
  dsimp only
  rw [hread]
  dsimp only
  rw [← callMem, hr, ← reply_eq hno]
  exact ⟨_, rfl⟩

end Reply

end WinePpc64.Steam
