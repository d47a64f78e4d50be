import Mathlib

namespace WinePpc64.Lib

open BitVec Function List

structure Block (α : Type) where
  base : BitVec 64
  slot : ℕ → α

/-- Blocks of `cap` slots of `size` bytes each, chained as they fill up. Slots are handed out by
address, `count` of them so far from the last block. -/
structure BlockPool (α : Type) (cap size : ℕ) where
  blocks : List (Block α)
  count : ℕ

namespace Block

variable {α : Type} (size : ℕ)

def addr (blk : Block α) (i : ℕ) : BitVec 64 := blk.base + BitVec.ofNat 64 (i * size)

def holds (blk : Block α) (n : ℕ) (a : BitVec 64) : Bool :=
  blk.base.toNat ≤ a.toNat && a.toNat < (blk.addr size n).toNat

def listed (n : ℕ) (blk : Block α) : List (BitVec 64 × α) :=
  (List.range n).map fun i => (blk.addr size i, blk.slot i)

structure Fits (blk : Block α) (n : ℕ) : Prop where
  pos : 0 < blk.base.toNat
  lt : blk.base.toNat + n * size < 2 ^ 64

def Outside (n : ℕ) (a : BitVec 64) (blk : Block α) : Prop :=
  a.toNat < blk.base.toNat ∨ blk.base.toNat + n * size ≤ a.toNat

def Disjoint (n : ℕ) (b c : Block α) : Prop :=
  b.base.toNat + n * size ≤ c.base.toNat ∨ c.base.toNat + n * size ≤ b.base.toNat

variable {size} {blk b c : Block α} {n i j : ℕ} {a : BitVec 64}

variable (h : blk.Fits size n)
include h

theorem Fits.toNat_addr (hi : i ≤ n) : (blk.addr size i).toNat = blk.base.toNat + i * size := by
  have hle : i * size ≤ n * size := Nat.mul_le_mul_right size hi
  have hlt := h.lt
  rw [addr, toNat_add, toNat_ofNat, Nat.mod_eq_of_lt (by omega : i * size < 2 ^ 64),
    Nat.mod_eq_of_lt (by omega)]

theorem Fits.addr_ne_zero (hi : i ≤ n) : blk.addr size i ≠ 0 := by
  intro h0
  have haddr := h.toNat_addr hi
  have hpos := h.pos
  rw [h0] at haddr
  simp only [ofNat_eq_ofNat, toNat_ofNat, Nat.zero_mod] at haddr
  omega

omit h in
theorem mul_add_le (hi : i < n) : i * size + size ≤ n * size := by
  rw [← Nat.succ_mul]
  exact Nat.mul_le_mul_right size hi

theorem Fits.holds_iff (hi : i ≤ n) :
    blk.holds size i a = true ↔ blk.base.toNat ≤ a.toNat ∧ a.toNat < blk.base.toNat + i * size := by
  rw [holds, Bool.and_eq_true, decide_eq_true_iff, decide_eq_true_iff, h.toNat_addr hi]

theorem Fits.holds_addr (hs : 0 < size) (hj : j ≤ n) (hi : i < j) :
    blk.holds size j (blk.addr size i) = true := by
  have hle : i * size + size ≤ j * size := mul_add_le hi
  rw [h.holds_iff hj, h.toNat_addr (by omega)]
  omega

theorem Fits.not_holds (hi : i ≤ n) (ha : blk.Outside size n a) : blk.holds size i a = false := by
  have hle : i * size ≤ n * size := Nat.mul_le_mul_right size hi
  rw [Bool.eq_false_iff, ne_eq, h.holds_iff hi]
  intro hin
  obtain ha | ha := ha <;> omega

theorem Fits.addr_inj (hs : 0 < size) (hi : i ≤ n) (hj : j ≤ n)
    (heq : blk.addr size i = blk.addr size j) : i = j := by
  have hnat := congrArg BitVec.toNat heq
  rw [h.toNat_addr hi, h.toNat_addr hj] at hnat
  exact Nat.eq_of_mul_eq_mul_right hs (by omega)

omit h

theorem Disjoint.symm (h : b.Disjoint size n c) : c.Disjoint size n b := Or.symm h

theorem Disjoint.outside_addr (h : b.Disjoint size n c) (hb : b.Fits size n) (hs : 0 < size)
    (hi : i < n) : c.Outside size n (b.addr size i) := by
  have hle : i * size + size ≤ n * size := mul_add_le hi
  rw [Outside, hb.toNat_addr (by omega)]
  obtain h | h := h
  · exact .inl (by omega)
  · exact .inr (by omega)

theorem mem_listed {x : α} : (a, x) ∈ blk.listed size n ↔ ∃ i < n, blk.addr size i = a ∧ blk.slot i = x := by
  simp [listed]

theorem listed_update {x : α} : ({ blk with slot := update blk.slot n x } : Block α).listed size
    (n + 1) = blk.listed size n ++ [(blk.addr size n, x)] := by
  have hkeep : ∀ i ∈ List.range n,
      (blk.addr size i, update blk.slot n x i) = (blk.addr size i, blk.slot i) := fun i hi => by
    rw [update_of_ne (mem_range.mp hi).ne]
  have hlast : (blk.addr size n, update blk.slot n x n) = (blk.addr size n, x) := by
    rw [update_self]
  rw [listed, range_succ, map_append]
  exact congrArg₂ (· ++ [·]) (map_congr_left hkeep) hlast

theorem Fits.nodup_listed (h : blk.Fits size n) (hs : 0 < size) (hi : i ≤ n) :
    ((blk.listed size i).map Prod.fst).Nodup := by
  rw [listed, map_map]
  refine nodup_range.map_on fun j hj k hk heq => ?_
  rw [mem_range] at hj hk
  exact h.addr_inj hs (by omega) (by omega) heq

end Block

namespace BlockPool

variable {α : Type} {cap size : ℕ}

def spans (p : BlockPool α cap size) : List (Block α × ℕ) :=
  p.blocks.mapIdx fun b blk => (blk, if b + 1 = p.blocks.length then p.count else cap)

def entries (p : BlockPool α cap size) : List (BitVec 64 × α) :=
  p.spans.flatMap fun s => s.1.listed size s.2

def owns (p : BlockPool α cap size) (a : BitVec 64) : Bool := p.spans.any fun s => s.1.holds size s.2 a

def target (p : BlockPool α cap size) (a : BitVec 64) : Option α :=
  match p.spans.find? fun s => s.1.holds size s.2 a with
  | none => none
  | some s =>
    if (a - s.1.base).toNat % size = 0 then some (s.1.slot ((a - s.1.base).toNat / size)) else none

def grow (p : BlockPool α cap size) (base : BitVec 64) (blank : α) : BlockPool α cap size :=
  ⟨p.blocks ++ [⟨base, fun _ => blank⟩], 0⟩

def next (p : BlockPool α cap size) : Option (BitVec 64) :=
  p.blocks.getLast?.map fun blk => blk.addr size p.count

def push (p : BlockPool α cap size) (x : α) : BlockPool α cap size :=
  ⟨p.blocks.modifyLast fun blk => { blk with slot := update blk.slot p.count x },
    p.count + 1⟩

structure Ok (p : BlockPool α cap size) : Prop where
  fits : ∀ blk ∈ p.blocks, blk.Fits size cap
  disjoint : p.blocks.Pairwise (Block.Disjoint size cap)
  count_le : p.count ≤ cap
  empty : p.blocks = [] → p.count = 0

structure Free (p : BlockPool α cap size) (base : BitVec 64) : Prop where
  fits : ∀ x : ℕ → α, (Block.mk base x).Fits size cap
  disjoint : ∀ blk ∈ p.blocks, ∀ x : ℕ → α, blk.Disjoint size cap ⟨base, x⟩

def Outside (p : BlockPool α cap size) (a : BitVec 64) : Prop :=
  ∀ blk ∈ p.blocks, blk.Outside size cap a

variable {p : BlockPool α cap size} {init : List (Block α)} {last blk : Block α} {n i : ℕ}
  {x blank : α} {a : BitVec 64}

theorem spans_concat :
    (⟨init ++ [last], n⟩ : BlockPool α cap size).spans = init.map (·, cap) ++ [(last, n)] := by
  rw [spans, mapIdx_concat, if_pos (by simp)]
  congr 1
  refine ext_getElem (by simp) fun i hi _ => ?_
  rw [length_mapIdx] at hi
  have hne : i ≠ init.length := hi.ne
  simp [hne]

theorem entries_concat : (⟨init ++ [last], n⟩ : BlockPool α cap size).entries =
    init.flatMap (Block.listed size cap) ++ last.listed size n := by
  rw [entries, spans_concat, flatMap_append, flatMap_map, flatMap_singleton]

theorem exists_concat (h : p.blocks ≠ []) : ∃ init last, p = ⟨init ++ [last], p.count⟩ :=
  ⟨p.blocks.dropLast, p.blocks.getLast h, by rw [dropLast_append_getLast]⟩

theorem entries_grow {base : BitVec 64} (hfull : p.blocks = [] ∨ p.count = cap) :
    (p.grow base blank).entries = p.entries := by
  have hgrow : (p.grow base blank).entries = p.blocks.flatMap (Block.listed size cap) := by
    rw [grow, entries_concat]
    simp [Block.listed]
  rw [hgrow]
  obtain h0 | hne := eq_or_ne p.blocks []
  · rw [entries, spans, h0]
    rfl
  · obtain ⟨init, last, hp⟩ := exists_concat hne
    rw [hfull.resolve_left hne] at hp
    rw [hp, entries_concat, flatMap_append, flatMap_singleton]

theorem push_concat : (⟨init ++ [last], n⟩ : BlockPool α cap size).push x =
    ⟨init ++ [{ last with slot := update last.slot n x }], n + 1⟩ := by
  rw [push, modifyLast_concat]

theorem entries_push (h : p.next = some a) : (p.push x).entries = p.entries ++ [(a, x)] := by
  have hne : p.blocks ≠ [] := by
    rintro h0
    simp [next, h0] at h
  obtain ⟨init, last, hp⟩ := exists_concat hne
  rw [hp] at h ⊢
  have ha : last.addr size p.count = a := by simpa [next] using h
  rw [push_concat, entries_concat, entries_concat, Block.listed_update, ha, List.append_assoc]

theorem Ok.mem_spans (h : p.Ok) {s : Block α × ℕ} (hs : s ∈ p.spans) : s.1 ∈ p.blocks ∧ s.2 ≤ cap := by
  obtain ⟨i, hi, rfl⟩ := mem_mapIdx.mp hs
  refine ⟨getElem_mem hi, ?_⟩
  have hle := h.count_le
  split_ifs <;> omega

theorem Ok.owns_outside (h : p.Ok) (ha : p.Outside a) : p.owns a = false := by
  rw [owns, any_eq_false]
  intro s hs
  obtain ⟨hmem, hle⟩ := h.mem_spans hs
  rw [(h.fits _ hmem).not_holds hle (ha _ hmem)]
  decide

theorem Ok.target_outside (h : p.Ok) (ha : p.Outside a) : p.target a = none := by
  have hnone : p.spans.find? (fun s => s.1.holds size s.2 a) = none :=
    find?_eq_none.mpr (by simpa [owns] using h.owns_outside ha)
  rw [target, hnone]

theorem mem_entries : (a, x) ∈ p.entries ↔
    ∃ s ∈ p.spans, ∃ i < s.2, s.1.addr size i = a ∧ s.1.slot i = x := by
  simp only [entries, mem_flatMap, Block.mem_listed]

theorem Ok.ne_zero_of_mem (h : p.Ok) (hx : (a, x) ∈ p.entries) : a ≠ 0 := by
  obtain ⟨s, hs, i, hi, rfl, -⟩ := mem_entries.mp hx
  obtain ⟨hmem, hle⟩ := h.mem_spans hs
  exact (h.fits _ hmem).addr_ne_zero (by omega)

theorem mem_entries_of_dropLast (h : blk ∈ p.blocks.dropLast) (hi : i < cap) :
    (blk.addr size i, blk.slot i) ∈ p.entries := by
  have hne : p.blocks ≠ [] := by
    rintro h0
    simp [h0] at h
  have hp : p = ⟨p.blocks.dropLast ++ [p.blocks.getLast hne], p.count⟩ := by
    rw [dropLast_append_getLast]
  rw [hp, entries_concat]
  refine mem_append_left _ (mem_flatMap.mpr ⟨blk, h, ?_⟩)
  exact Block.mem_listed.mpr ⟨i, hi, rfl, rfl⟩

theorem Ok.pairwise_spans (h : p.Ok) : p.spans.Pairwise fun s t => s.1.Disjoint size cap t.1 := by
  have hfst : p.spans.map Prod.fst = p.blocks := by
    refine ext_getElem (by simp [spans]) fun i hi _ => ?_
    simp [spans]
  exact pairwise_map.mp (hfst.symm ▸ h.disjoint)

theorem outside_push (hne : p.blocks ≠ []) (h : p.Outside a) : (p.push x).Outside a := by
  obtain ⟨init, last, hp⟩ := exists_concat hne
  rw [hp] at h ⊢
  rw [push_concat]
  intro blk hblk
  obtain hblk | hblk := mem_append.mp hblk
  · exact h blk (mem_append_left _ hblk)
  · rw [mem_singleton.mp hblk]
    exact h last (by simp)

theorem Ok.grow (h : p.Ok) {base : BitVec 64} (hfree : p.Free base) : (p.grow base blank).Ok := by
  refine ⟨fun blk hblk => ?_, ?_, Nat.zero_le _, fun h0 => by simp [BlockPool.grow] at h0⟩
  · obtain hblk | hblk := mem_append.mp hblk
    · exact h.fits blk hblk
    · rw [mem_singleton.mp hblk]
      exact hfree.fits _
  · refine pairwise_append.mpr ⟨h.disjoint, pairwise_singleton _ _, fun blk hblk c hc => ?_⟩
    rw [mem_singleton.mp hc]
    exact hfree.disjoint blk hblk _

theorem Ok.push (h : p.Ok) (hne : p.blocks ≠ []) (hlt : p.count < cap) : (p.push x).Ok := by
  obtain ⟨init, last, hp⟩ := exists_concat hne
  have hfits := h.fits
  have hdis := h.disjoint
  rw [hp] at hfits hdis ⊢
  rw [push_concat]
  obtain ⟨hinit, -, hcross⟩ := pairwise_append.mp hdis
  refine ⟨fun blk hblk => ?_, ?_, hlt, fun h0 => by simp at h0⟩
  · obtain hblk | hblk := mem_append.mp hblk
    · exact hfits blk (mem_append_left _ hblk)
    · rw [mem_singleton.mp hblk]
      obtain ⟨hpos, hl⟩ := hfits last (by simp)
      exact ⟨hpos, hl⟩
  · refine pairwise_append.mpr ⟨hinit, pairwise_singleton _ _, fun blk hblk c hc => ?_⟩
    rw [mem_singleton.mp hc]
    exact hcross blk hblk last (by simp)

section

variable (hsize : 0 < size)

include hsize

theorem Ok.owns_of_mem (h : p.Ok) (hx : (a, x) ∈ p.entries) : p.owns a = true := by
  obtain ⟨s, hs, i, hi, rfl, -⟩ := mem_entries.mp hx
  obtain ⟨hmem, hle⟩ := h.mem_spans hs
  exact any_eq_true.mpr ⟨s, hs, (h.fits _ hmem).holds_addr hsize hle hi⟩

theorem Ok.eq_of_holds (h : p.Ok) {s t : Block α × ℕ} (hs : s ∈ p.spans) (ht : t ∈ p.spans)
    (hi : i < s.2) (hholds : t.1.holds size t.2 (s.1.addr size i) = true) : t = s := by
  obtain ⟨hsm, hsle⟩ := h.mem_spans hs
  obtain ⟨htm, htle⟩ := h.mem_spans ht
  by_contra hne
  have : Std.Symm fun s t : Block α × ℕ => s.1.Disjoint size cap t.1 := ⟨fun _ _ => .symm⟩
  have hdis := h.pairwise_spans.forall hs ht (Ne.symm hne)
  have hout := hdis.outside_addr (h.fits _ hsm) hsize (hi.trans_le hsle)
  rw [(h.fits _ htm).not_holds htle hout] at hholds
  cases hholds

theorem Ok.target_of_mem (h : p.Ok) (hx : (a, x) ∈ p.entries) : p.target a = some x := by
  obtain ⟨s, hs, i, hi, rfl, hslot⟩ := mem_entries.mp hx
  obtain ⟨hmem, hle⟩ := h.mem_spans hs
  have hholds := (h.fits _ hmem).holds_addr hsize hle hi
  have hsome : (p.spans.find? fun t => t.1.holds size t.2 (s.1.addr size i)).isSome :=
    find?_isSome.mpr ⟨s, hs, hholds⟩
  obtain ⟨t, hfind⟩ := Option.isSome_iff_exists.mp hsome
  have hfound : t.1.holds size t.2 (s.1.addr size i) = true := by
    simpa using find?_some hfind
  obtain rfl := h.eq_of_holds hsize hs (mem_of_find?_eq_some hfind) hi hfound
  have hoff : (t.1.addr size i - t.1.base).toNat = i * size := by
    rw [Block.addr, BitVec.add_comm, BitVec.add_sub_cancel]
    have hlt := (h.fits _ hmem).lt
    have hmul : i * size + size ≤ cap * size := Block.mul_add_le (hi.trans_le hle)
    exact Nat.mod_eq_of_lt (by omega)
  rw [target, hfind]
  dsimp only
  rw [hoff, Nat.mul_mod_left, Nat.mul_div_cancel _ hsize, if_pos rfl, hslot]

theorem Ok.nodup_addrs (h : p.Ok) : (p.entries.map Prod.fst).Nodup := by
  rw [entries, map_flatMap, nodup_flatMap]
  refine ⟨fun s hs => ?_, h.pairwise_spans.imp_of_mem fun {s t} hs ht hdis => ?_⟩
  · obtain ⟨hmem, hle⟩ := h.mem_spans hs
    exact (h.fits _ hmem).nodup_listed hsize hle
  obtain ⟨hsm, hsle⟩ := h.mem_spans hs
  obtain ⟨htm, htle⟩ := h.mem_spans ht
  intro a ha ha'
  obtain ⟨⟨_, x⟩, hx, rfl⟩ := mem_map.mp ha
  obtain ⟨⟨_, y⟩, hy, heq⟩ := mem_map.mp ha'
  obtain ⟨i, hi, hia, -⟩ := Block.mem_listed.mp hx
  obtain ⟨j, hj, hja, -⟩ := Block.mem_listed.mp hy
  dsimp only at heq hia hja
  have hout := hdis.outside_addr (h.fits _ hsm) hsize (hi.trans_le hsle)
  have hin := (h.fits _ htm).holds_addr hsize htle hj
  rw [hja, heq, ← hia, (h.fits _ htm).not_holds htle hout] at hin
  cases hin

end

end BlockPool

end WinePpc64.Lib
