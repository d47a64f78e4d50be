import WinePpc64.Steam.HelperCall

namespace WinePpc64.Steam

open Bool Lib Lib.ByteMem List Option BlobHdr Function Item RepHdr Slot

variable {s : Slot} {rep h : RepHdr} {ps : List ℕ} {outs : List (Slot × ℕ)} {c : Client}

section Parse

variable {m : Method} {slots : List Slot}

theorem RepHdr.ofBytes_bytes (h₁ : h.magic < 2 ^ 32) (h₂ : h.status < 2 ^ 32)
    (h₃ : h.paramsLen < 2 ^ 32) (h₄ : h.nblobs < 2 ^ 32) (h₅ : h.tmppathBase < 2 ^ 64)
    (h₆ : h.tmppathLen < 2 ^ 32) (h₇ : h.detail < 2 ^ 32) : RepHdr.ofBytes h.bytes = h := by
  let fs := [(4, h.magic), (4, h.status), (4, h.paramsLen), (4, h.nblobs), (8, h.tmppathBase),
    (4, h.tmppathLen), (4, h.detail)]
  have hfs : ∀ f ∈ fs, f.2 < 256 ^ f.1 := by
    simpa [fs] using ⟨h₁, h₂, h₃, h₄, h₅, h₆, h₇⟩
  have hp := unpack_pack hfs
  simp only [fs, map_cons, map_nil] at hp
  simp only [ofBytes, bytes, hp]

@[simp]
theorem replyHdr_isNested {bh : BlobHdr} : (replyHdr bh).isNested = bh.isNested := by
  simp only [isNested, replyHdr]
  cases bh.flags.testBit 2 <;> decide

theorem Sendable.replyHdr_ofBytes (h : Sendable m (present slots)) (hsize : m.paramsSize ≤ maxFrame)
    (hs : s ∈ present slots) :
    BlobHdr.ofBytes (replyHdr s.hdr).bytes = replyHdr s.hdr := by
  have h₁ := h.offset s hs
  have h₂ := h.len s hs
  have h₃ := h.elem s hs
  have h₄ := toNat_le s.hdr.isNested
  have hmax : maxFrame < 2 ^ 32 := by decide
  apply BlobHdr.ofBytes_bytes
  · simp only [replyHdr, hdr]; omega
  · simp only [replyHdr, hdr]; omega
  · simp only [replyHdr]; omega
  · simp only [replyHdr, hdr]; split <;> omega

theorem find_matches (hwf : WellFormed m) (hfields : slots.map Slot.field = m.fields)
    (hs : s ∈ slots) (hsaved : s.saved ≠ 0) :
    slots.find? (·.matches (replyHdr s.hdr)) = some s := by
  have hself : s.matches (replyHdr s.hdr) = true := by
    simp only [Slot.matches, replyHdr_isNested, Slot.isNested_hdr, and_eq_true, decide_eq_true_eq,
      beq_self_eq_true, or_eq_true, not_eq_true']
    refine ⟨⟨⟨rfl, hsaved⟩, trivial⟩, ?_⟩
    cases hn : s.field.nested with
    | false => exact .inl rfl
    | true => exact .inr (inner_hdr hn).symm
  cases hf : slots.find? (·.matches (replyHdr s.hdr)) with
  | none => exact absurd hself (find?_eq_none.mp hf s hs)
  | some s' =>
    have hm : s'.matches (replyHdr s.hdr) = true := find?_some hf
    have hs' : s' ∈ slots := mem_of_find?_eq_some hf
    simp only [Slot.matches, replyHdr_isNested, Slot.isNested_hdr, and_eq_true, decide_eq_true_eq,
      beq_iff_eq, or_eq_true, not_eq_true'] at hm
    obtain ⟨⟨⟨hoff, -⟩, hnested⟩, hinner⟩ := hm
    have hpos : 0 < ptrSize := by decide
    congr 1
    cases hn : s.field.nested with
    | false => exact hwf.outer_unique hfields hs' hs (hnested.trans hn) hn hoff
    | true =>
      have hn' := hnested.trans hn
      have helem : s'.field.elem = s.field.elem := by
        rcases hinner with h | h
        · rw [hn'] at h
          exact absurd h (by decide)
        · exact h.trans (inner_hdr hn)
      exact hwf.inner_unique hfields hs' hs hn' hn hoff (k := s.field.elem) (by omega) (by omega)

variable {frameSize : ℕ} {mem' mem₁ : ByteMem}

theorem blobCopies_eq (hwf : WellFormed m) (hfields : slots.map Slot.field = m.fields)
    (hsend : Sendable m (present slots)) (hsize : m.paramsSize ≤ maxFrame) {rest : List Octet}
    (hframe : ∀ s ∈ present slots, s.len ≤ frameSize)
    (houts : ∀ i ∈ outs, i.1 ∈ present slots) :
    blobCopies slots frameSize outs.length
        (outs.flatMap (fun i => (replyHdr i.1.hdr).bytes ++ mem'.load i.2 i.1.len) ++ rest) =
      (outs.map fun i => (i.1, mem'.load i.2 i.1.len), .ok rest) := by
  induction outs with
  | nil => rfl
  | cons i outs ih =>
    have hi := houts i (by simp)
    obtain ⟨hmem, hsaved⟩ := mem_filter.mp hi
    have hlen := hframe i.1 hi
    have hrecv : recvAll (replyHdr i.1.hdr).len (mem'.load i.2 i.1.len ++
        (outs.flatMap (fun i => (replyHdr i.1.hdr).bytes ++ mem'.load i.2 i.1.len) ++ rest)) =
        some (mem'.load i.2 i.1.len,
          outs.flatMap (fun i => (replyHdr i.1.hdr).bytes ++ mem'.load i.2 i.1.len) ++ rest) :=
      recvAll_append length_load
    rw [length_cons, blobCopies, flatMap_cons, append_assoc, append_assoc,
      recvAll_append BlobHdr.length_bytes]
    dsimp only
    rw [hsend.replyHdr_ofBytes hsize hi, if_neg (show ¬ frameSize < (replyHdr i.1.hdr).len from
      Nat.not_lt.mpr hlen), hrecv]
    dsimp only
    rw [find_matches hwf hfields hmem (by simpa using hsaved), ih fun j hj => houts j (by simp [hj])]
    rfl

theorem receive_of_blobsOf {params : ℕ} {mem : ByteMem} {stream block rest : List Octet}
    {copies : List (Slot × List Octet)}
    (h : blobsOf c m slots stream = some (rep, block, copies, .ok rest)) :
    ∃ mem₁, receive c m params slots mem stream = recvTmppath c rep mem₁ rest := by
  rw [blobsOf] at h
  split at h
  · cases h
  rename_i hhdr
  rw [ite_none_left_eq_some] at h
  obtain ⟨hfits, h⟩ := h
  split at h
  · cases h
  rename_i hblock
  simp only [Option.some.injEq, Prod.mk.injEq] at h
  obtain ⟨rfl, -, hcopies⟩ := h
  rw [receive, hhdr]
  dsimp only
  rw [if_neg hfits, recvBody, hblock]
  dsimp only
  rw [recvBlobs_eq, hcopies]
  exact ⟨_, rfl⟩

theorem length_image_le (h : Helper) (mem' : ByteMem) : (image h mem').length ≤ tmppathLen := by
  rw [image]
  split <;> simp

theorem recvTmppath_image {h : Helper} {status : ℕ} {rest : List Octet} :
    ∃ mem₂, recvTmppath c (repFor h m outs mem' status) mem₁ (image h mem' ++ rest) =
      ⟨mem₂, status, rest, true⟩ := by
  have hlen := length_image_le h mem'
  have hrep : (repFor h m outs mem' status).tmppathLen = (image h mem').length := by
    simp only [repFor]
  have hstatus : (repFor h m outs mem' status).status = status := rfl
  rw [recvTmppath, hrep]
  split
  · rename_i h0
    rw [length_eq_zero_iff.mp h0]
    exact ⟨_, rfl⟩
  · rw [if_neg (by omega), recvAll_append rfl]
    exact ⟨_, rfl⟩

end Parse

theorem placed_fst (alloc : ℕ → ℕ) (slots : List Slot) (k : ℕ) :
    (placed alloc slots k).map Prod.fst = slots := by
  induction slots generalizing k with
  | nil => rfl
  | cons s slots ih => simp [placed, ih]

theorem outsFor_mem {alloc : ℕ → ℕ} {slots : List Slot} {i : Slot × ℕ} (hi : i ∈ outsFor alloc slots) :
    i ∈ placed alloc (present slots) 0 ∧ i.1 ∈ present slots ∧ i.1.field.output = true := by
  obtain ⟨hi, ho⟩ := mem_filter.mp hi
  refine ⟨hi, ?_, ho⟩
  rw [← placed_fst alloc (present slots) 0]
  exact mem_map_of_mem hi

theorem blobsOf_replyFor {m : Method} {slots : List Slot} {frameSize : ℕ} {h : Helper} {status : ℕ}
    (addr : ℕ) (alloc : ℕ → ℕ) (mem' : ByteMem) (tmppath : Option ℕ) (hwf : WellFormed m)
    (hfields : slots.map Slot.field = m.fields) (hsend : Sendable m (present slots))
    (hsize : m.paramsSize ≤ maxFrame) (hn : (present slots).length ≤ 32)
    (hframe : ∀ s ∈ present slots, s.len ≤ frameSize) (htmp : h.tmppath < 2 ^ 64)
    (hstatus : status < 2 ^ 32) (rest : List Octet) :
    blobsOf ⟨frameSize, tmppath⟩ m slots
        (replyFor h addr m (outsFor alloc slots) mem' status ++ rest) =
      some (repFor h m (outsFor alloc slots) mem' status, mem'.load addr m.paramsSize,
        (outsFor alloc slots).map (fun i => (i.1, mem'.load i.2 i.1.len)), .ok (image h mem' ++ rest)) := by
  have hmax : maxFrame < 2 ^ 32 := by decide
  have hlast : tmppathLen < 2 ^ 32 := by decide
  have himage := length_image_le h mem'
  have houts : (outsFor alloc slots).length ≤ 32 := by
    have hle : (outsFor alloc slots).length ≤ (placed alloc (present slots) 0).length :=
      length_filter_le _ _
    have hfst := congrArg List.length (placed_fst alloc (present slots) 0)
    rw [length_map] at hfst
    omega
  have hmem : ∀ i ∈ outsFor alloc slots, i.1 ∈ present slots := fun i hi => (outsFor_mem hi).2.1
  generalize outsFor alloc slots = outs at houts hmem ⊢
  have hhdr : RepHdr.ofBytes (repFor h m outs mem' status).bytes = repFor h m outs mem' status := by
    rw [repFor]
    apply RepHdr.ofBytes_bytes (by decide : repMagic < 2 ^ 32) hstatus
    · exact hsize.trans_lt hmax
    · exact houts.trans_lt (by decide)
    · exact htmp
    · dsimp only
      omega
    · exact (by decide : 0 < 2 ^ 32)
  have hlen : (repFor h m outs mem' status).paramsLen = m.paramsSize := rfl
  have hcount : (repFor h m outs mem' status).nblobs = outs.length := rfl
  have hok : ¬ ((repFor h m outs mem' status).magic ≠ repMagic ∨
      (repFor h m outs mem' status).paramsLen ≠ m.paramsSize) := by
    simp [repFor]
  rw [blobsOf, replyFor, append_assoc, append_assoc, append_assoc,
    recvAll_append RepHdr.length_bytes]
  dsimp only
  rw [hhdr, if_neg hok, hlen, recvAll_append length_load]
  dsimp only
  rw [hcount, blobCopies_eq hwf hfields hsend hsize hframe hmem]

section Memory

variable {m : Method} {mem : ByteMem} {params addr need : ℕ} {slots : List Slot} {alloc : ℕ → ℕ}
  {c : Client} {a' : Args}

variable (hshape : a'.items.map (fun i => (i.field, i.len, i.null)) =
  (argsOf mem params slots).items.map fun i => (i.field, i.len, i.null))

include hshape

theorem item_at (ps : List ℕ) (hlen : ps.length = slots.length) (hs : s ∈ slots) :
    ∃ it p, (s, p) ∈ slots.zip ps ∧ (it, p) ∈ a'.items.zip ps ∧
      (it, s.saved) ∈ a'.items.zip (slots.map Slot.saved) ∧ it.field = s.field ∧ it.len = s.len ∧
      it.null = decide (s.saved = 0) := by
  obtain ⟨n, hn⟩ := mem_iff_getElem?.mp hs
  have hlt : n < ps.length := by
    rw [hlen]
    exact (List.getElem?_eq_some_iff.mp hn).1
  have hat := congrArg (fun l => l[n]?) hshape
  simp only [argsOf, List.map_map, List.getElem?_map, hn, Option.map_some] at hat
  obtain ⟨it, hit, heq⟩ := map_eq_some_iff.mp hat
  simp only [comp, itemOf, Prod.mk.injEq] at heq
  have hp : ps[n]? = some ps[n] := getElem?_eq_getElem hlt
  refine ⟨it, ps[n], ?_, ?_, ?_, heq⟩
  · exact mem_iff_getElem?.mpr ⟨n, getElem?_zip_eq_some.mpr ⟨hn, hp⟩⟩
  · exact mem_iff_getElem?.mpr ⟨n, getElem?_zip_eq_some.mpr ⟨hit, hp⟩⟩
  · refine mem_iff_getElem?.mpr ⟨n, getElem?_zip_eq_some.mpr ⟨hit, ?_⟩⟩
    rw [getElem?_map, hn]
    rfl

theorem shape_fields (hfields : slots.map Slot.field = m.fields) (hlen : ps.length = a'.items.length) :
    (a'.items.zip ps).map (fun i => i.1.field) = m.fields := by
  have h₁ : (a'.items.zip ps).map (fun i => i.1.field) =
      ((a'.items.zip ps).map Prod.fst).map Item.field := by simp
  have h₂ := congrArg (fun l => l.map Prod.fst) hshape
  simp only [argsOf, List.map_map, comp_def, itemOf] at h₂
  rw [h₁, map_fst_zip (by omega), ← hfields]
  exact h₂

theorem shape_mem {i : Item × ℕ} (hi : i ∈ a'.items.zip ps) : ∃ s ∈ slots, s.field = i.1.field := by
  have h := congrArg (fun l => l.map Prod.fst) hshape
  simp only [argsOf, List.map_map, comp_def, itemOf] at h
  have hmem : i.1.field ∈ a'.items.map Item.field := mem_map_of_mem (of_mem_zip hi).1
  rw [h] at hmem
  exact mem_map.mp hmem

omit hshape

variable {x k : ℕ}

theorem Layout.placed_unique (hlay : Layout c m params slots) {i j : Slot × ℕ}
    (hi : i ∈ placed alloc (present slots) 0) (hj : j ∈ placed alloc (present slots) 0)
    (hxi : InRegion (i.1.saved, i.1.len) x) (hxj : InRegion (j.1.saved, j.1.len) x) : i = j := by
  have hp := (pairwise_cons.mp hlay.apart).2
  rw [pairwise_map, ← placed_fst alloc (present slots) 0, pairwise_map] at hp
  exact eq_of_pairwise hp hi hj (fun hd => hd x hxi hxj) fun hd => hd x hxj hxi

theorem Layout.block_apart (hlay : Layout c m params slots) (hs : s ∈ present slots) :
    Disjoint (params, m.paramsSize) (s.saved, s.len) :=
  (pairwise_cons.mp hlay.apart).1 _ (mem_map.mpr ⟨s, hs, rfl⟩)

theorem nestedCell_outer (hwf : WellFormed m) (hfields : slots.map Slot.field = m.fields)
    (htaken : ∀ s ∈ slots, s.Taken m mem params need) (hlay : Layout c m params slots)
    (hx : NestedCell slots x) : ∃ s ∈ slots, ∃ o ∈ slots, s.field.nested = true ∧ o.field.nested = false ∧
      o.field.offset = s.field.offset ∧ s.outer = o.saved ∧ o.saved ≠ 0 ∧
      ∃ k, x = o.saved + k ∧ k < o.len ∧ s.field.elem ≤ k ∧ k < s.field.elem + ptrSize := by
  obtain ⟨s, hs, ⟨hn, hne⟩, h₁, h₂⟩ := hx
  obtain ⟨pre, post, hsplit⟩ := append_of_mem hs
  obtain ⟨f, hf, hfn, hfo⟩ := hwf.outerFirst (pre.map Slot.field) s.field (post.map Slot.field)
    (by rw [← hfields, hsplit]; simp) hn
  obtain ⟨o, ho, rfl⟩ := mem_map.mp hf
  have ho' : o ∈ slots := by simp [hsplit, ho]
  have houter := (htaken s hs).outer_eq (htaken o ho') hfn hfo
  have hinner := hlay.inner s hs o ho' hn hfn hfo (houter ▸ hne)
  rw [length_leBytes] at h₂
  exact ⟨s, hs, o, ho', hn, hfn, hfo, houter, houter ▸ hne, x - o.saved, by omega, by omega, by omega,
    by omega⟩

section Direct

variable {direct mem' : ByteMem}

section Loads

variable {α : Type} {l : List α} {d a n : α → ℕ}

theorem lastByte_loads_none (h : ∀ i ∈ l, ¬ InRegion (d i, n i) x) :
    lastByte (l.map fun i => (d i, mem'.load (a i) (n i))) x = none := by
  rw [lastByte_eq_none, List.forall_mem_map]
  intro i hi
  simp only [Within, length_load]
  exact h i hi

theorem lastByte_loads {i : α} (hi : i ∈ l) (hk : k < n i)
    (hone : ∀ j ∈ l, InRegion (d j, n j) (d i + k) → j = i) :
    lastByte (l.map fun i => (d i, mem'.load (a i) (n i))) (d i + k) = some (mem' (a i + k)) := by
  apply lastByte_eq_some
  · simp only [List.forall_mem_map, Within, length_load]
    intro j hj hjx
    rw [hone j hj hjx, Nat.add_sub_cancel_left, getD_load hk]
  · exact ⟨_, mem_map_of_mem hi, by simpa [Within] using hk⟩

end Loads

theorem leftByte_reply (params : ℕ) {stream rest : List Octet}
    {block : List Octet} (hof : blobsOf c m slots stream =
      some (rep, block, outs.map (fun i => (i.1, mem'.load i.2 i.1.len)), .ok rest))
    (hx : ∀ a, c.tmppath = some a → ¬ InRegion (a, tmppathLen) x) : leftByte c m params slots stream x =
      if NestedCell slots x then none
      else (lastByte (outs.map fun i => (i.1.saved, mem'.load i.2 i.1.len)) x).or
        (if BlockCell m params slots x then none else lastByte [(params, block)] x) := by
  have hcopies : (outs.map (fun i => (i.1, mem'.load i.2 i.1.len))).map copyOf =
      outs.map fun i => (i.1.saved, mem'.load i.2 i.1.len) := by
    rw [List.map_map]
    apply map_congr_left
    intro i _
    have htake : (mem'.load i.2 i.1.len).take i.1.len = mem'.load i.2 i.1.len :=
      take_of_length_le (by simp)
    simp only [comp, copyOf, htake]
  have htmp : lastByte (tmppathCopy c rep rest) x = none := by
    rw [lastByte_eq_none]
    intro w hw hwx
    obtain ⟨a, ha, h₁, h₂⟩ := tmppathCopy_within hw hwx
    exact hx a ha ⟨h₁, h₂⟩
  simp only [leftByte, hof, htmp, hcopies]
  cases lastByte (outs.map fun i => (i.1.saved, mem'.load i.2 i.1.len)) x <;> rfl

variable (hwf : WellFormed m) (hfields : slots.map Slot.field = m.fields)
  (htaken : ∀ s ∈ slots, s.Taken m mem params need) (hmeas : ∀ s ∈ slots, s.Measured m mem params)
  (hlay : Layout c m params slots)
  (hdirect : Realizes m.paramsSize direct params a' (slots.map Slot.saved))

include hwf hfields hmeas hshape hdirect in
theorem direct_blockCell (hk : k < m.paramsSize) (hx : BlockCell m params slots (params + k)) :
    direct (params + k) = mem (params + k) := by
  obtain ⟨hsize, s, hs, hn, h₁, h₂⟩ := hx
  rw [length_leBytes] at h₂
  dsimp only at h₁ h₂
  obtain ⟨it, p, -, -, hit, hf, -⟩ := item_at hshape (slots.map saved) (by simp) hs
  have hcell : a'.block.storeAll (blockPtrs (a'.items.zip (slots.map saved))) k =
      (leBytes ptrSize s.saved).getD (k - it.field.offset) 0 :=
    block_cell hwf (shape_fields hshape hfields hdirect.length) hit (hf ▸ hn) (by rw [hf]; omega)
  rw [hdirect.block k hk, hcell, hf]
  exact getD_cell ((hmeas s hs).block hsize hn) (by omega)

include hwf hfields htaken hmeas hlay hshape hdirect in
theorem direct_nestedCell (hx : NestedCell slots x) : direct x = mem x := by
  obtain ⟨s, hs, o, ho, hn, hon, hoff, houter, hne, k, rfl, hk, h₁, h₂⟩ :=
    nestedCell_outer hwf hfields htaken hlay hx
  obtain ⟨it, p, -, -, hit, hf, -⟩ := item_at hshape (slots.map saved) (by simp) hs
  obtain ⟨ot, q, -, -, hot, hof, hol, honull⟩ :=
    item_at hshape (slots.map saved) (by simp) ho
  have hval := hdirect.item _ hot (by simpa [honull] using hne) k (by dsimp only; omega)
  have hcell : ot.bytes.storeAll (innerPtrs it.field.offset (a'.items.zip (slots.map saved))) k =
      (leBytes ptrSize s.saved).getD (k - it.field.elem) 0 :=
    inner_cell hwf (shape_fields hshape hfields hdirect.length) hit (hf ▸ hn) (by rw [hf]; omega)
  rw [hf, ← hoff, ← hof] at hcell
  rw [hval, content, if_neg (by rw [hof, hon]; decide), hcell]
  exact getD_cell (houter ▸ (hmeas s hs).nested hn (houter ▸ hne)) ⟨h₁, h₂⟩

include hwf hfields htaken hmeas hlay hshape hdirect in
theorem receive_eq_direct {stream rest : List Octet}
    (hhelper : Realizes m.paramsSize mem' addr a' (assign alloc slots 0))
    (hrest : ∀ x, ¬ InRegion (params, m.paramsSize) x →
      (∀ s ∈ present slots, s.field.output = true → ¬ InRegion (s.saved, s.len) x) → direct x = mem x)
    (hof : blobsOf c m slots stream = some (rep, mem'.load addr m.paramsSize,
      (outsFor alloc slots).map (fun i => (i.1, mem'.load i.2 i.1.len)), .ok rest))
    (hx : ∀ a, c.tmppath = some a → ¬ InRegion (a, tmppathLen) x) :
    (receive c m params slots mem stream).mem x = direct x := by
  rw [receive_mem hmeas, leftByte_reply params hof hx]
  by_cases hnc : NestedCell slots x
  · rw [if_pos hnc]
    exact (direct_nestedCell hshape hwf hfields htaken hmeas hlay hdirect hnc).symm
  rw [if_neg hnc]
  by_cases hblock : InRegion (params, m.paramsSize) x
  · obtain ⟨k, rfl⟩ := Nat.exists_eq_add_of_le hblock.1
    have hk : k < m.paramsSize := by
      have := hblock.2
      dsimp only at this
      omega
    rw [lastByte_loads_none fun i hi => hlay.block_apart (outsFor_mem hi).2.1 _ hblock, none_or]
    by_cases hbc : BlockCell m params slots (params + k)
    · rw [if_pos hbc]
      exact (direct_blockCell hshape hwf hfields hmeas hdirect hk hbc).symm
    have hother : ∀ i ∈ slots, i.field.nested = false →
        ¬ (i.field.offset ≤ k ∧ k < i.field.offset + ptrSize) := by
      intro s hs hn hc
      exact hbc ⟨by omega, s, hs, hn, by dsimp only; omega, by rw [length_leBytes]; dsimp only; omega⟩
    -- no field of what the function leaves has a cell there
    have hitems : ∀ (ps : List ℕ), ∀ i ∈ a'.items.zip ps, i.1.field.nested = false →
        ¬ (i.1.field.offset ≤ k ∧ k < i.1.field.offset + ptrSize) := by
      intro ps i hi hn
      obtain ⟨s, hs, hf⟩ := shape_mem hshape hi
      rw [← hf] at hn ⊢
      exact hother s hs hn
    have hlast : lastByte [(params, mem'.load addr m.paramsSize)] (params + k) =
        some (mem' (addr + k)) :=
      lastByte_loads (l := [(params, addr, m.paramsSize)]) (d := (·.1)) (a := (·.2.1)) (n := (·.2.2)) mem_cons_self hk
        fun _ hj _ => mem_singleton.mp hj
    rw [if_neg hbc, hlast, getD_some, hhelper.block k hk, hdirect.block k hk,
      block_other (hitems _), block_other (hitems _)]
  · have hlast : lastByte [(params, mem'.load addr m.paramsSize)] x = none :=
      lastByte_loads_none (l := [()]) (d := fun _ => params) (a := fun _ => addr) (n := fun _ => m.paramsSize)
        fun _ _ => hblock
    rw [hlast, ite_self, or_none]
    by_cases hbuf : ∃ s ∈ present slots, s.field.output = true ∧ InRegion (s.saved, s.len) x
    · obtain ⟨s, hs, hso, hsx⟩ := hbuf
      obtain ⟨hs', hsaved⟩ := mem_filter.mp hs
      have hne : s.saved ≠ 0 := by simpa using hsaved
      obtain ⟨it, p, hsp, hitp, hits, hf, hl, hnull⟩ :=
        item_at hshape (assign alloc slots 0) (length_assign alloc slots 0) hs'
      have hplaced := mem_placed hsp hne
      obtain ⟨k, rfl⟩ := Nat.exists_eq_add_of_le hsx.1
      have hk : k < s.len := by
        have := hsx.2
        dsimp only at this
        omega
      have hlast : lastByte ((outsFor alloc slots).map fun i => (i.1.saved, mem'.load i.2 i.1.len))
          (s.saved + k) = some (mem' (p + k)) :=
        lastByte_loads (mem_filter.mpr ⟨hplaced, hso⟩) hk fun i hi hix =>
          hlay.placed_unique (outsFor_mem hi).1 hplaced hix hsx
      have hnull' : it.null = false := by simpa [hnull] using hne
      rw [hlast, getD_some, hhelper.item _ hitp hnull' k (by dsimp only; omega),
        hdirect.item _ hits hnull' k (by dsimp only; omega)]
      dsimp only
      rw [content, content]
      split
      · rfl
      rename_i hn
      have hn' : s.field.nested = false := by simpa [hf] using hn
      -- outside the nested cells the pointers do not matter
      have hitems : ∀ (ps : List ℕ), ∀ i ∈ a'.items.zip ps, i.1.field.nested = true →
          i.1.field.offset = it.field.offset →
          ¬ (i.1.field.elem ≤ k ∧ k < i.1.field.elem + ptrSize) := by
        intro ps i hi hin hio hc
        obtain ⟨j, hj, hjf⟩ := shape_mem hshape hi
        rw [← hjf] at hin hio hc
        have houter := (htaken j hj).outer_eq (htaken s hs') hn' (by rw [hio, hf])
        refine hnc ⟨j, hj, ⟨hin, houter ▸ hne⟩, ?_, ?_⟩
        · dsimp only
          omega
        · rw [length_leBytes]
          dsimp only
          omega
      rw [inner_other (hitems _), inner_other (hitems _)]
    · have hbuf' : ∀ s ∈ present slots, s.field.output = true → ¬ InRegion (s.saved, s.len) x :=
        fun s hs ho hsx => hbuf ⟨s, hs, ho, hsx⟩
      rw [lastByte_loads_none fun i hi => hbuf' i.1 (outsFor_mem hi).2.1 (outsFor_mem hi).2.2]
      exact (hrest x hblock hbuf').symm

end Direct

end Memory

/-- The reply leaves the caller's memory as a direct call would. -/
theorem steamrpc_call_as_direct (c : Client) (code : ℕ) (m : Method) (mem : ByteMem) (params : ℕ)
    (request : List Octet) (slots : List Slot) (frameSize : ℕ)
    (hsent : prepare c code m mem params = .sent request slots frameSize) (hwf : WellFormed m)
    (hlay : Layout c m params slots) (hcap : 16 + m.paramsSize ≤ maxFrame) (hcode : code < 2 ^ 32)
    (funcCount : ℕ) (hserve : code < funcCount ∨ isLocalCode code = true)
    (hinit : code ≠ unixSteamclientInit) (h : Helper) (htmp : h.tmppath < 2 ^ 64) (alloc : ℕ → ℕ)
    (hfresh : Fresh alloc (if m.paramsSize = 0 then 0 else alloc 0) m slots)
    (call : ℕ → ByteMem → ℕ → ByteMem × BitVec 32) (a' : Args) (status : BitVec 32)
    (hacts : Acts m.paramsSize (call code) (argsOf mem params slots) a' status)
    (restIn restOut : List Octet) :
    ∃ h' bytes, serveOneCall h alloc funcCount call (request ++ restIn) = some (h', bytes, restIn) ∧
      (receive ⟨frameSize, c.tmppath⟩ m params slots mem (bytes ++ restOut)).status =
        (call code mem params).2.toNat ∧
      (receive ⟨frameSize, c.tmppath⟩ m params slots mem (bytes ++ restOut)).stream = restOut ∧
      (receive ⟨frameSize, c.tmppath⟩ m params slots mem (bytes ++ restOut)).up = true ∧
      (∀ x, (∀ a, c.tmppath = some a → ¬ InRegion (a, tmppathLen) x) →
        (receive ⟨frameSize, c.tmppath⟩ m params slots mem (bytes ++ restOut)).mem x =
          (call code mem params).1 x) ∧
      ∀ r ∈ (params, m.paramsSize) :: (present slots).map (fun s => (s.saved, s.len)),
        ∀ x, InRegion r x →
          (receive ⟨frameSize, c.tmppath⟩ m params slots mem (bytes ++ restOut)).mem x =
            (call code mem params).1 x := by
  obtain ⟨hcount, rfl, need, hmeasure, hneed⟩ := of_prepare hsent
  obtain ⟨hfields, hmeas⟩ := measured_of_measure hmeasure
  have htaken := (taken_of_measure hmeasure).2
  have hsend := sendable_present hwf hfields htaken hlay
  have hsize : m.paramsSize ≤ maxFrame := by omega
  have hn : (present slots).length ≤ 32 := by
    have hle : (present slots).length ≤ slots.length := length_filter_le _ _
    have hlen := congrArg List.length hfields
    rw [length_map] at hlen
    omega
  generalize haddr : (if m.paramsSize = 0 then 0 else alloc 0) = addr at hfresh
  -- the call in the helper
  obtain ⟨hstatus₁, hreal₁, hrest₁⟩ := hacts.run
    (assemble h.mem addr m.paramsSize (blockFor alloc m mem params slots) (blobsFor alloc mem slots))
    addr (assign alloc slots 0) (realizes_helper hwf hfields htaken hmeas hfresh)
    (by rw [regions_helper]; exact hfresh.regions_apart)
  -- the direct call
  obtain ⟨hstatus₂, hreal₂, hrest₂⟩ := hacts.run mem params (slots.map saved)
    (realizes_caller htaken hmeas)
    (by rw [argsOf, zip_saved, regions_caller]; exact hlay.apart)
  generalize hr : call code (assemble h.mem addr m.paramsSize (blockFor alloc m mem params slots)
    (blobsFor alloc mem slots)) addr = r at hstatus₁ hreal₁ hrest₁
  have hno : ∀ b ∈ blobsFor alloc mem slots, blobOverrun r.1 b = false := by
    intro b hb
    refine not_overrun hsend hfresh (fun x hblock hbuf => hrest₁ x hblock ?_) hb
    simp only [argsOf, zip_items, List.forall_mem_map]
    intro i hi _ hnull
    exact hbuf i (mem_placed hi (by simpa [itemOf] using hnull))
  obtain ⟨h', hserved⟩ := serveOneCall_eq hcode hserve hsize hn hsend
    (by rw [haddr, callMem, if_neg fun hc => hinit hc.1]; exact hr) hno
  rw [haddr] at hserved
  have hframe : ∀ s ∈ present slots, s.len ≤ frameSize := by
    intro s hs
    obtain ⟨hs, hsaved⟩ := mem_filter.mp hs
    exact ((htaken s hs).len (by simpa using hsaved)).2.trans hneed
  have hof := blobsOf_replyFor addr alloc r.1 c.tmppath hwf hfields hsend hsize hn hframe htmp r.2.isLt
    restOut
  have hlay' : Layout ⟨frameSize, c.tmppath⟩ m params slots := { hlay with }
  have hmem := fun x => receive_eq_direct (x := x) hacts.shape hwf hfields htaken hmeas hlay' hreal₂
    hreal₁ (fun x hblock hbuf => hrest₂ x hblock (by
      simp only [argsOf, zip_saved, List.forall_mem_map]
      intro s hs ho hnull
      exact hbuf s (List.mem_filter.mpr ⟨hs, by simpa [itemOf] using hnull⟩) ho)) hof
  obtain ⟨mem₁, hreceive⟩ := receive_of_blobsOf hof
  obtain ⟨mem₂, himage⟩ := recvTmppath_image
  rw [himage] at hreceive
  refine ⟨h', _, hserved, ?_, by rw [hreceive], by rw [hreceive], hmem, ?_⟩
  · rw [hreceive, hstatus₂, ← hstatus₁]
  · intro p hp x hx
    exact hmem x fun a ha hxa => hlay.tmppath a ha p hp x hxa hx

namespace OneBuffer

def field : Field := ⟨0, true, true, .fixed, 4, 0, 0⟩

def method : Method := ⟨8, [field], false, none⟩

def params : ℕ := 0x1000

def slots : List Slot := [⟨field, 0x2000, 0x2000, 4⟩]

def memory : ByteMem := store (fun _ => 0) 0x1000 (leBytes 8 0x2000)

def client : Client := ⟨0x10000, none⟩

def helper : Helper := ⟨fun _ => 0, 0x100000, []⟩

def alloc (k : ℕ) : ℕ := (k + 2) * 0x100000

def setFirst (_ : ℕ) (mem : ByteMem) (params : ℕ) : ByteMem × BitVec 32 :=
  (mem.store (readPtr mem params) [1], 0)

def left : Args :=
  ⟨fun k => memory (params + k), [⟨field, 4, false, store (fun k => memory (0x2000 + k)) 0 [1]⟩]⟩

theorem prepare_sent (code : ℕ) : prepare client code method memory params =
    .sent (frame code method memory params slots) slots 0x10000 := by
  have hmeasure : measure method memory params method.fields 0 (16 + method.paramsSize) =
      some (slots, 44) := by decide +kernel
  have hreserve : rpcReserve client.frameSize 44 = some 0x10000 := by decide
  rfl

theorem wellFormed : WellFormed method := by
  refine ⟨by decide, ?_, ?_, ?_, by decide⟩
  · simp [method]
  · simp [method]
  intro pre f post hsplit hn
  have hf : f ∈ method.fields := by simp [hsplit]
  rw [method, mem_singleton] at hf
  subst hf
  exact absurd hn (by decide)

theorem layout : Layout client method params slots := by
  refine ⟨?_, ?_, ?_⟩
  · simp only [present, slots, method, params, pairwise_cons]
    refine ⟨?_, by simp⟩
    intro r hr x hx hx'
    simp only [ne_eq, OfNat.ofNat_ne_zero, not_false_eq_true, decide_true, filter_cons_of_pos,
      filter_nil, map_cons, map_nil, mem_singleton] at hr
    subst hr
    simp only [InRegion] at hx hx'
    omega
  · simp [client]
  · simp [slots, field, Field.nested]

theorem fresh : Fresh alloc (if method.paramsSize = 0 then 0 else alloc 0) method slots := by
  have hplaced : placed alloc (present slots) 0 = [(⟨field, 0x2000, 0x2000, 4⟩, 0x300000)] := by decide
  constructor
  · rw [hplaced]
    simp only [method, alloc, map_cons, map_nil, pairwise_cons, mem_singleton]
    refine ⟨?_, by simp⟩
    rintro r rfl x hx hx'
    simp only [InRegion, blobGuard, OfNat.ofNat_ne_zero, if_false] at hx hx'
    omega
  · decide

theorem setFirst_acts (code : ℕ) :
    Acts method.paramsSize (setFirst code) (argsOf memory params slots) left 0 := by
  refine ⟨by decide, ?_⟩
  intro mem addr ps hreal happart
  obtain ⟨p, rfl⟩ := length_eq_one_iff.mp hreal.length
  have hitem : ((argsOf memory params slots).items.zip [p]) =
      [(itemOf memory ⟨field, 0x2000, 0x2000, 4⟩, p)] := rfl
  have hp : p < 2 ^ 64 := hreal.bound p (by simp)
  have hptrs : ∀ it : Item, it.field = field → blockPtrs [(it, p)] = [(0, leBytes ptrSize p)] := by
    intro it hit
    simp [blockPtrs, hit, field, Field.nested]
  -- the pointer in the block is the buffer's
  have hread : readPtr mem addr = p := by
    have hload : mem.load addr ptrSize = leBytes ptrSize p := by
      apply ext_getElem (by simp)
      intro k h₁ h₂
      have hk := hreal.block k h₁
      change mem (addr + k) = store _ 0 (leBytes ptrSize p) k at hk
      rw [store_in_zero (by simpa using h₁)] at hk
      rw [getD_eq_getElem?_getD, getElem?_eq_getElem h₂] at hk
      simpa [load] using hk
    rw [readPtr, readNat, hload]
    exact leNat_leBytes hp
  have hout : ∀ x, x ≠ p → (setFirst code mem addr).1 x = mem x := by
    intro x hx
    rw [setFirst, hread]
    exact store_out (by simp only [length_singleton]; omega)
  have hregions : Disjoint (addr, 8) (p, 4) := by
    rw [hitem] at happart
    exact (pairwise_cons.mp happart).1 (p, 4) (by simp [itemOf])
  have hnotblock : ∀ k < 8, addr + k ≠ p := by
    intro k hk heq
    exact hregions p ⟨by dsimp only; omega, by dsimp only; omega⟩ ⟨le_refl _, by dsimp only; omega⟩
  refine ⟨rfl, ⟨rfl, ?_, ?_, hreal.bound, ?_⟩, ?_⟩
  · intro k hk
    rw [hout _ (hnotblock k hk), hreal.block k hk, hitem]
    change _ = left.block.storeAll (blockPtrs [(⟨field, 4, false, _⟩, p)]) k
    rfl
  · intro i hi
    have hnull := hreal.null (itemOf memory ⟨field, 0x2000, 0x2000, 4⟩, p) (by rw [hitem]; simp)
    rw [show left.items.zip [p] = [(⟨field, 4, false, _⟩, p)] from rfl, mem_singleton] at hi
    subst hi
    simpa [itemOf] using hnull
  · intro i hi _ k hk
    rw [show left.items.zip [p] = [(⟨field, 4, false, _⟩, p)] from rfl, mem_singleton] at hi
    subst hi
    have hbytes := hreal.item (itemOf memory ⟨field, 0x2000, 0x2000, 4⟩, p) (by rw [hitem]; simp)
      rfl k hk
    have hcontent : ∀ (it : Item) (l : List (Item × ℕ)), it.field = field → (∀ i ∈ l, i.1.field = field) →
        it.content l k = it.bytes k := by
      intro it l hit hl
      rw [content, if_neg (by rw [hit]; decide), inner_other]
      intro i hi hn
      rw [hl i hi] at hn
      exact absurd hn (by decide)
    rw [hcontent _ _ rfl (by
      rw [show left.items.zip [p] = [(⟨field, 4, false, _⟩, p)] from rfl]
      simp)]
    dsimp only at hk ⊢
    rcases Nat.eq_zero_or_pos k with rfl | hk0
    · rw [setFirst, hread]
      simp [store]
    · rw [hout _ (by omega), hbytes, store_out (by simp only [length_singleton]; omega)]
      rfl
  · intro x _ hx
    apply hout
    rintro rfl
    exact hx _ (by rw [hitem]; exact mem_singleton.mpr rfl) rfl rfl
      ⟨le_refl _, by simp [itemOf]⟩

theorem init_buffer_not_returned :
    (prepare client unixSteamclientInit method memory params =
      .sent (frame unixSteamclientInit method memory params slots) slots 0x10000 ∧
      WellFormed method ∧ Layout client method params slots ∧
      Fresh alloc (if method.paramsSize = 0 then 0 else alloc 0) method slots ∧
      Acts method.paramsSize (setFirst unixSteamclientInit) (argsOf memory params slots) left 0) ∧
    (∃ h' bytes, serveOneCall helper alloc 1 setFirst
        (frame unixSteamclientInit method memory params slots ++ []) = some (h', bytes, []) ∧
      (receive client method params slots memory (bytes ++ [])).mem 0x2000 = 0) ∧
    (setFirst unixSteamclientInit memory params).1 0x2000 = 1 := by
  refine ⟨⟨prepare_sent _, wellFormed, layout, fresh, setFirst_acts _⟩, ?_, by decide +kernel⟩
  obtain ⟨-, -, need, hmeasure, -⟩ := of_prepare (prepare_sent unixSteamclientInit)
  obtain ⟨hfields, hmeas⟩ := measured_of_measure hmeasure
  have hsend := sendable_present wellFormed hfields (taken_of_measure hmeasure).2 layout
  -- the function stores to the helper's temp path
  generalize hr : setFirst unixSteamclientInit
    (callMem helper alloc 0x200000 unixSteamclientInit method memory params slots) 0x200000 = r
  have hno : ∀ b ∈ blobsFor alloc memory slots, blobOverrun r.1 b = false := by
    subst hr
    decide +kernel
  have hbyte : r.1 0x300000 = 0 := by
    subst hr
    decide +kernel
  obtain ⟨h', hserved⟩ : ∃ h', serveOneCall helper alloc 1 setFirst
      (frame unixSteamclientInit method memory params slots ++ []) =
      some (h', replyFor helper 0x200000 method (outsFor alloc slots) r.1 r.2.toNat, []) :=
    serveOneCall_eq (by decide) (.inl (by decide)) (by decide) (by decide) hsend hr hno
  have hframe : ∀ s ∈ present slots, s.len ≤ 0x10000 := by decide
  have hof := blobsOf_replyFor 0x200000 alloc r.1 none wellFormed hfields hsend (by decide) (by decide)
    hframe (by decide : helper.tmppath < 2 ^ 64) r.2.isLt []
  refine ⟨h', _, hserved, ?_⟩
  have hleft := leftByte_reply params hof (x := 0x2000) (by simp)
  have hcell : ¬ NestedCell slots 0x2000 := by decide
  have houts : outsFor alloc slots = [(⟨field, 0x2000, 0x2000, 4⟩, 0x300000)] := by decide
  have hlast : lastByte ((outsFor alloc slots).map fun i => (i.1.saved, r.1.load i.2 i.1.len)) 0x2000 =
      some 0 := by
    rw [← hbyte]
    exact lastByte_loads (k := 0) mem_cons_self (by decide) fun _ hj _ => mem_singleton.mp hj
  rw [hlast] at hleft
  rw [client, receive_mem hmeas, hleft]
  rfl

theorem steamrpc_call_as_direct_set : ∃ h' bytes,
    serveOneCall helper alloc 8 setFirst (frame 7 method memory params slots ++ []) =
      some (h', bytes, []) ∧
    (receive client method params slots memory (bytes ++ [])).mem 0x2000 =
      (setFirst 7 memory params).1 0x2000 := by
  obtain ⟨h', bytes, hserved, -, -, -, -, hmem⟩ :=
    steamrpc_call_as_direct client 7 method memory params _ slots 0x10000 (prepare_sent 7) wellFormed
      layout (by decide) (by decide) 8 (.inl (by decide)) (by decide) helper (by decide) alloc fresh
      setFirst left 0 (setFirst_acts 7) [] []
  exact ⟨h', bytes, hserved, hmem (0x2000, 4) (by decide) 0x2000 ⟨le_refl _, by decide⟩⟩

end OneBuffer

end WinePpc64.Steam
