import WinePpc64.Steam.Restore

namespace WinePpc64.Steam

open Lib Lib.ByteMem List

structure Item where
  field : Field
  len : ℕ
  null : Bool
  bytes : ByteMem

structure Args where
  block : ByteMem
  items : List Item

def blockPtrs (l : List (Item × ℕ)) : List (ℕ × List Octet) :=
  (l.filter fun i => !i.1.field.nested).map fun i => (i.1.field.offset, leBytes ptrSize i.2)

def innerPtrs (offset : ℕ) (l : List (Item × ℕ)) : List (ℕ × List Octet) :=
  (l.filter fun i => i.1.field.nested && decide (i.1.field.offset = offset)).map fun i =>
    (i.1.field.elem, leBytes ptrSize i.2)

def Item.content (it : Item) (l : List (Item × ℕ)) : ByteMem :=
  if it.field.nested then it.bytes else it.bytes.storeAll (innerPtrs it.field.offset l)

def InRegion (r : ℕ × ℕ) (x : ℕ) : Prop := r.1 ≤ x ∧ x < r.1 + r.2

def Disjoint (r r' : ℕ × ℕ) : Prop := ∀ x, InRegion r x → ¬ InRegion r' x

def regions (size params : ℕ) (l : List (Item × ℕ)) : List (ℕ × ℕ) :=
  (params, size) :: (l.filter fun i => !i.1.null).map fun i => (i.2, i.1.len)

structure Realizes (size : ℕ) (mem : ByteMem) (params : ℕ) (a : Args) (ps : List ℕ) : Prop where
  length : ps.length = a.items.length
  block : ∀ k < size, mem (params + k) = a.block.storeAll (blockPtrs (a.items.zip ps)) k
  null : ∀ i ∈ a.items.zip ps, i.1.null = true ↔ i.2 = 0
  bound : ∀ p ∈ ps, p < 2 ^ 64
  item : ∀ i ∈ a.items.zip ps, i.1.null = false →
    ∀ k < i.1.len, mem (i.2 + k) = i.1.content (a.items.zip ps) k

/-- The function turns the arguments into `a'` and returns `status` wherever the arguments are, reading
nothing but them, and writes to the block and the OUT buffers only. -/
structure Acts (size : ℕ) (f : ByteMem → ℕ → ByteMem × BitVec 32) (a a' : Args) (status : BitVec 32) :
    Prop where
  shape : a'.items.map (fun i => (i.field, i.len, i.null)) = a.items.map fun i => (i.field, i.len, i.null)
  run : ∀ mem params ps, Realizes size mem params a ps →
    (regions size params (a.items.zip ps)).Pairwise Disjoint →
    (f mem params).2 = status ∧ Realizes size (f mem params).1 params a' ps ∧
      ∀ x, ¬ InRegion (params, size) x →
        (∀ i ∈ a.items.zip ps, i.1.field.output = true → i.1.null = false →
          ¬ InRegion (i.2, i.1.len) x) → (f mem params).1 x = mem x

structure WellFormed (m : Method) : Prop where
  inBlock : ∀ f ∈ m.fields, f.offset + ptrSize ≤ m.paramsSize
  blockApart : m.fields.Pairwise fun a b => a.nested = false → b.nested = false →
    a.offset + ptrSize ≤ b.offset ∨ b.offset + ptrSize ≤ a.offset
  innerApart : m.fields.Pairwise fun a b => a.nested = true → b.nested = true → a.offset = b.offset →
    a.elem + ptrSize ≤ b.elem ∨ b.elem + ptrSize ≤ a.elem
  outerFirst : ∀ pre f post, m.fields = pre ++ f :: post → f.nested = true →
    ∃ o ∈ pre, o.nested = false ∧ o.offset = f.offset
  elem_lt : ∀ f ∈ m.fields, f.elem < 2 ^ 32

section Unique

variable {α : Type} {l : List α} {R : α → α → Prop}

theorem eq_of_pairwise (h : l.Pairwise R) {a b : α} (ha : a ∈ l) (hb : b ∈ l) (hab : ¬ R a b)
    (hba : ¬ R b a) : a = b := by
  induction h with
  | nil => cases ha
  | cons hall _ ih =>
    rcases mem_cons.mp ha with rfl | ha' <;> rcases mem_cons.mp hb with rfl | hb'
    · rfl
    · exact absurd (hall b hb') hab
    · exact absurd (hall a ha') hba
    · exact ih ha' hb'

variable {m : Method} {F : α → Field} {k : ℕ}

theorem WellFormed.block_unique (h : WellFormed m) (hl : l.map F = m.fields) {a b : α} (ha : a ∈ l)
    (hb : b ∈ l) (hna : (F a).nested = false) (hnb : (F b).nested = false)
    (hka : (F a).offset ≤ k ∧ k < (F a).offset + ptrSize)
    (hkb : (F b).offset ≤ k ∧ k < (F b).offset + ptrSize) : a = b := by
  have hp := h.blockApart
  rw [← hl, pairwise_map] at hp
  apply eq_of_pairwise hp ha hb
  · intro hr
    have := hr hna hnb
    omega
  · intro hr
    have := hr hnb hna
    omega

theorem WellFormed.inner_unique (h : WellFormed m) (hl : l.map F = m.fields) {a b : α} (ha : a ∈ l)
    (hb : b ∈ l) (hna : (F a).nested = true) (hnb : (F b).nested = true)
    (ho : (F a).offset = (F b).offset) (hka : (F a).elem ≤ k ∧ k < (F a).elem + ptrSize)
    (hkb : (F b).elem ≤ k ∧ k < (F b).elem + ptrSize) : a = b := by
  have hp := h.innerApart
  rw [← hl, pairwise_map] at hp
  apply eq_of_pairwise hp ha hb
  · intro hr
    have := hr hna hnb ho
    omega
  · intro hr
    have := hr hnb hna ho.symm
    omega

theorem WellFormed.outer_unique (h : WellFormed m) (hl : l.map F = m.fields) {a b : α} (ha : a ∈ l)
    (hb : b ∈ l) (hna : (F a).nested = false) (hnb : (F b).nested = false)
    (ho : (F a).offset = (F b).offset) : a = b := by
  have hpos : 0 < ptrSize := by decide
  exact h.block_unique hl ha hb hna hnb (k := (F a).offset) (by omega) (by omega)

end Unique

section Cells

variable {α : Type} {l : List α} {p : α → Bool} {off ptr : α → ℕ} {base : ByteMem} {k : ℕ}

theorem cells_at {b : Octet} (hb : ∀ i ∈ l, p i = true → off i ≤ k ∧ k < off i + ptrSize →
      (leBytes ptrSize (ptr i)).getD (k - off i) 0 = b)
    (hex : (∃ i ∈ l, p i = true ∧ off i ≤ k ∧ k < off i + ptrSize) ∨ base k = b) :
    base.storeAll ((l.filter p).map fun i => (off i, leBytes ptrSize (ptr i))) k = b := by
  apply storeAll_eq
  · simp only [forall_mem_map, mem_filter, Within, length_leBytes]
    exact fun i hi hk => hb i hi.1 hi.2 hk
  · refine hex.imp_left ?_
    rintro ⟨i, hi, hp, hk⟩
    exact ⟨_, mem_map_of_mem (mem_filter.mpr ⟨hi, hp⟩), by simpa [Within] using hk⟩

variable {m : Method} {l : List (Item × ℕ)} {i : Item × ℕ}

theorem block_cell (h : WellFormed m) (hl : l.map (fun i => i.1.field) = m.fields)
    (hi : i ∈ l) (hn : i.1.field.nested = false)
    (hk : i.1.field.offset ≤ k ∧ k < i.1.field.offset + ptrSize) :
    base.storeAll (blockPtrs l) k = (leBytes ptrSize i.2).getD (k - i.1.field.offset) 0 := by
  refine cells_at (fun j hj hjn hx => ?_) (.inl ⟨i, hi, by simpa using hn, hk⟩)
  rw [h.block_unique hl hi hj hn (by simpa using hjn) hk hx]

theorem block_other (hk : ∀ i ∈ l, i.1.field.nested = false →
    ¬ (i.1.field.offset ≤ k ∧ k < i.1.field.offset + ptrSize)) :
    base.storeAll (blockPtrs l) k = base k :=
  cells_at (fun i hi hn hx => absurd hx (hk i hi (by simpa using hn))) (.inr rfl)

theorem inner_cell (h : WellFormed m) (hl : l.map (fun i => i.1.field) = m.fields)
    (hi : i ∈ l) (hn : i.1.field.nested = true)
    (hk : i.1.field.elem ≤ k ∧ k < i.1.field.elem + ptrSize) :
    base.storeAll (innerPtrs i.1.field.offset l) k =
      (leBytes ptrSize i.2).getD (k - i.1.field.elem) 0 := by
  refine cells_at (fun j hj hjn hx => ?_) (.inl ⟨i, hi, by simpa using hn, hk⟩)
  simp only [Bool.and_eq_true, decide_eq_true_eq] at hjn
  rw [h.inner_unique hl hi hj hn hjn.1 hjn.2.symm hk hx]

theorem inner_other {offset : ℕ} (hk : ∀ i ∈ l, i.1.field.nested = true → i.1.field.offset = offset →
    ¬ (i.1.field.elem ≤ k ∧ k < i.1.field.elem + ptrSize)) :
    base.storeAll (innerPtrs offset l) k = base k := by
  refine cells_at (fun i hi hn hx => ?_) (.inr rfl)
  simp only [Bool.and_eq_true, decide_eq_true_eq] at hn
  exact absurd hx (hk i hi hn.1 hn.2)

end Cells

end WinePpc64.Steam
