import WinePpc64.Steam.Serving

namespace WinePpc64.Steam

open Lib Lib.ByteMem List

section Taken

variable {m : Method} {mem : ByteMem} {params : ℕ} {slots : List Slot}

structure Slot.Taken (m : Method) (mem : ByteMem) (params need : ℕ) (s : Slot) : Prop where
  ptr : (s.saved, s.outer) = if m.paramsSize ≠ 0 then fieldPtr s.field mem params else (0, 0)
  len : s.saved ≠ 0 → s.len ≤ maxFrame ∧ s.len ≤ need

theorem taken_of_measure {fs : List Field} {i need need' : ℕ}
    (h : measure m mem params fs i need = some (slots, need')) :
    need ≤ need' ∧ ∀ s ∈ slots, s.Taken m mem params need' := by
  induction fs generalizing i need slots with
  | nil =>
    cases h
    simp
  | cons f fs ih =>
    obtain ⟨len, rest, n, hrest, hn, rfl, hlen⟩ := measure_cons h
    obtain ⟨hle, hrest⟩ := ih hrest
    refine ⟨hn.trans hle, forall_mem_cons.mpr ⟨⟨rfl, fun hs => ?_⟩, hrest⟩⟩
    exact (hlen hs).2.2.imp_right fun h => h.trans hle

variable {need : ℕ} {s o : Slot}

theorem Slot.Taken.saved_lt (h : s.Taken m mem params need) : s.saved < 2 ^ 64 := by
  have hread : ∀ a, readPtr mem a < 2 ^ 64 := by
    intro a
    have := leNat_lt (mem.load a ptrSize)
    rw [length_load] at this
    exact this
  have hp : s.saved = _ := congrArg Prod.fst h.ptr
  rw [hp]
  split
  · rw [fieldPtr]
    split <;> exact hread _
  · decide

theorem Slot.Taken.outer_eq (hs : s.Taken m mem params need) (ho : o.Taken m mem params need)
    (hon : o.field.nested = false) (hoff : o.field.offset = s.field.offset) : s.outer = o.saved := by
  have h₁ : s.outer = _ := congrArg Prod.snd hs.ptr
  have h₂ : o.saved = _ := congrArg Prod.fst ho.ptr
  have hkind : o.field.kind ≠ .nested := by simpa [Field.nested] using hon
  rw [h₁, h₂]
  split
  · simp only [fieldPtr, hkind, hoff, ne_eq, not_false_eq_true, true_or, if_true]
    split <;> rfl
  · rfl

theorem Slot.Taken.outer_ne (h : s.Taken m mem params need) (hs : s.saved ≠ 0) : s.outer ≠ 0 := by
  have hptr := h.ptr
  rw [fieldPtr] at hptr
  split at hptr
  · split at hptr
    · obtain ⟨h₁, h₂⟩ := Prod.mk.inj hptr
      rwa [h₂, ← h₁]
    · rename_i hp
      rw [(Prod.mk.inj hptr).2]
      exact fun h0 => hp (.inr h0)
  · exact absurd (Prod.mk.inj hptr).1 hs

end Taken

def itemOf (mem : ByteMem) (s : Slot) : Item :=
  ⟨s.field, s.len, decide (s.saved = 0), fun k => mem (s.saved + k)⟩

def argsOf (mem : ByteMem) (params : ℕ) (slots : List Slot) : Args :=
  ⟨fun k => mem (params + k), slots.map (itemOf mem)⟩

/-- The caller's memory: the block and the buffers are apart, the temp-path buffer is apart from them,
and nested pointers are within their outer buffers. -/
structure Layout (c : Client) (m : Method) (params : ℕ) (slots : List Slot) : Prop where
  apart : ((params, m.paramsSize) :: (present slots).map fun s => (s.saved, s.len)).Pairwise Disjoint
  tmppath : ∀ a, c.tmppath = some a →
    ∀ r ∈ (params, m.paramsSize) :: (present slots).map (fun s => (s.saved, s.len)),
      Disjoint (a, tmppathLen) r
  inner : ∀ s ∈ slots, ∀ o ∈ slots, s.field.nested = true → o.field.nested = false →
    o.field.offset = s.field.offset → o.saved ≠ 0 → s.field.elem + ptrSize ≤ o.len

section Caller

variable {m : Method} {mem : ByteMem} {params need : ℕ} {slots : List Slot}

theorem zip_saved {mem : ByteMem} {slots : List Slot} :
    (slots.map (itemOf mem)).zip (slots.map Slot.saved) = slots.map fun s => (itemOf mem s, s.saved) :=
  zip_map'

theorem realizes_caller (htaken : ∀ s ∈ slots, s.Taken m mem params need)
    (hmeas : ∀ s ∈ slots, s.Measured m mem params) :
    Realizes m.paramsSize mem params (argsOf mem params slots) (slots.map Slot.saved) := by
  refine ⟨by simp [argsOf], ?_, ?_, ?_, ?_⟩
  · intro k hk
    simp only [argsOf, zip_saved]
    symm
    refine cells_at (fun i hi hn hx => ?_) (.inr rfl)
    obtain ⟨s, hs, rfl⟩ := mem_map.mp hi
    exact getD_cell ((hmeas s hs).block (by omega) (by simpa [itemOf] using hn)) hx
  · simp only [argsOf, zip_saved, forall_mem_map]
    intro s _
    simp [itemOf]
  · simp only [forall_mem_map]
    intro s hs
    exact (htaken s hs).saved_lt
  · simp only [argsOf, zip_saved, forall_mem_map]
    intro s hs hnull k hk
    have hsaved : s.saved ≠ 0 := by simpa [itemOf] using hnull
    rw [Item.content]
    split
    · rfl
    rename_i hn
    have hn' : s.field.nested = false := by simpa [itemOf] using hn
    symm
    refine cells_at (fun i hi hin hx => ?_) (.inr rfl)
    obtain ⟨s', hs', rfl⟩ := mem_map.mp hi
    rw [Bool.and_eq_true, decide_eq_true_eq] at hin
    have houter := (htaken s' hs').outer_eq (htaken s hs) hn' hin.2.symm
    exact getD_cell (houter ▸ (hmeas s' hs').nested hin.1 (houter ▸ hsaved)) hx

theorem regions_caller {size : ℕ} :
    regions size params (slots.map fun s => (itemOf mem s, s.saved)) =
      (params, size) :: (present slots).map fun s => (s.saved, s.len) := by
  simp [regions, present, itemOf, filter_map, Function.comp_def]

theorem sendable_present (hwf : WellFormed m) (hfields : slots.map Slot.field = m.fields)
    (htaken : ∀ s ∈ slots, s.Taken m mem params need) {c : Client} (hlay : Layout c m params slots) :
    Sendable m (present slots) := by
  have hmem : ∀ s ∈ present slots, s ∈ slots ∧ s.saved ≠ 0 := by
    intro s hs
    simpa [present] using hs
  have hfield : ∀ s ∈ slots, s.field ∈ m.fields := by
    intro s hs
    rw [← hfields]
    exact mem_map_of_mem hs
  refine ⟨?_, ?_, ?_, ?_, ?_, ?_⟩
  · intro s hs
    exact hwf.inBlock _ (hfield s (hmem s hs).1)
  · intro s hs
    exact ((htaken s (hmem s hs).1).len (hmem s hs).2).1
  · intro s hs
    exact hwf.elem_lt _ (hfield s (hmem s hs).1)
  · have hp := hwf.blockApart
    rw [← hfields, pairwise_map] at hp
    refine (hp.sublist filter_sublist).imp fun {a b} hab hna hnb heq => ?_
    have hpos : 0 < ptrSize := by decide
    have := hab hna hnb
    omega
  · intro pre s post hsplit hn
    obtain ⟨pre', post', hslots, hpre, hpost⟩ := filter_eq_append_iff.mp hsplit
    obtain ⟨mid, post'', hpost', hmid, hs, -⟩ := filter_eq_cons_iff.mp hpost
    have hs' : s ∈ slots := by simp [hslots, hpost']
    have hsaved : s.saved ≠ 0 := by simpa using hs
    obtain ⟨f, hf, hfn, hfo⟩ := hwf.outerFirst ((pre' ++ mid).map Slot.field) s.field
      (post''.map Slot.field) (by rw [← hfields, hslots, hpost']; simp) hn
    obtain ⟨o, ho, rfl⟩ := mem_map.mp hf
    have ho' : o ∈ slots := by
      rw [hslots, hpost']
      rcases mem_append.mp ho with h | h <;> simp [h]
    have hosaved : o.saved ≠ 0 := by
      rw [← (htaken s hs').outer_eq (htaken o ho') hfn hfo]
      exact (htaken s hs').outer_ne hsaved
    refine ⟨o, ?_, hfn, hfo⟩
    rw [← hpre]
    rcases mem_append.mp ho with h | h
    · exact mem_filter.mpr ⟨h, by simpa using hosaved⟩
    · exact absurd (by simpa using hosaved) (hmid o h)
  · intro s hs o ho hsn hon heq
    exact hlay.inner s (hmem s hs).1 o (hmem o ho).1 hsn hon heq (hmem o ho).2

end Caller

end WinePpc64.Steam
