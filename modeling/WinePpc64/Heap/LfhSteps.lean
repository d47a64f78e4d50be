import WinePpc64.Heap.LfhOwners

namespace WinePpc64.Heap.Lfh

open Function Lib State

variable {s s' : State} {t : Tid} {g : Group} {b : Group × ℕ} {q pc : Pc} {i : ℕ}

section Blocks

variable (h : Placed (BlockAt s)) (hm : Moves s s' t q pc)
include h hm

theorem blocks_same (ht : pc.taking = q.taking) (hg : pc.giving = q.giving)
    (hl : s'.live = s.live) (ha : s'.allocated = s.allocated)
    (hb : ∀ g, ∀ i < groupBlockCount, (s'.bits g).getLsbD i = (s.bits g).getLsbD i) : Placed (BlockAt s') := by
  apply h.congr
  intro b
  apply blockAt_congr hm
  · rw [ht]
  · rw [hg]
  · rw [hl]
  · rw [ha]
  · exact hb b.1 b.2

theorem blocks_handOut (ht : q.taking = some b) (ht' : pc.taking = none)
    (hg : pc.giving = q.giving) (hl : s'.live = update s.live b true)
    (ha : s'.allocated = s.allocated)
    (hb : ∀ g, ∀ i < groupBlockCount, (s'.bits g).getLsbD i = (s.bits g).getLsbD i) : Placed (BlockAt s') := by
  have htaken : BlockAt s b (.taken t) := by simp only [BlockAt, hm.old, ht]
  have hlive : BlockAt s' b .live := by simp [BlockAt, hl]
  refine h.move htaken hlive (by simp [BlockAt, hm.new, ht']) (fun r hr hr' => ?_) (fun c hc => ?_)
  · apply blockAt_imp hm (fun e => absurd e hr) ?_ (fun e => absurd e hr') (by rw [ha]) fun _ => hb b.1 b.2
    rw [hg]
    exact fun _ => id
  apply blockAt_congr hm
  · rw [ht', ht]
    simp [Ne.symm hc]
  · rw [hg]
  · rw [hl, update_of_ne hc]
  · rw [ha]
  · exact hb c.1 c.2

theorem blocks_give (hlive : s.live b = true) (hg : pc.giving = some b) (hg' : q.giving = none)
    (ht : pc.taking = q.taking) (hl : s'.live = update s.live b false)
    (ha : s'.allocated = s.allocated) (hb : s'.bits = s.bits) : Placed (BlockAt s') := by
  have hlive : BlockAt s b .live := hlive
  have hgiven : BlockAt s' b (.given t) := by simp only [BlockAt, hm.new, hg]
  refine h.move hlive hgiven (by simp [BlockAt, hl]) (fun r hr hr' => ?_) (fun c hc => ?_)
  · apply blockAt_imp hm ?_ (fun e => absurd e hr') (fun e => absurd e hr) (by rw [ha]) (by rw [hb]; simp)
    rw [ht]
    exact fun _ => id
  apply blockAt_congr hm
  · rw [ht]
  · rw [hg, hg']
    simp [Ne.symm hc]
  · rw [hl, update_of_ne hc]
  · rw [ha]
  · exact fun _ => by rw [hb]

theorem blocks_take (hfree : BlockAt s (g, i) .free) (ht : q.taking = none)
    (ht' : pc.taking = some (g, i)) (hg : pc.giving = q.giving) (hl : s'.live = s.live)
    (ha : s'.allocated = s.allocated)
    (hb : s'.bits = update s.bits g (s.bits g &&& ~~~BitVec.twoPow 32 i)) : Placed (BlockAt s') := by
  have hi : i < groupBlockCount := hfree.2.1
  have hi' : i < 32 := Nat.lt_of_lt_of_le hi (by decide)
  have htaken : BlockAt s' (g, i) (.taken t) := by simp only [BlockAt, hm.new, ht']
  refine h.move hfree htaken ?_ (fun r hr hr' => ?_) (fun c hc => ?_)
  · simp [BlockAt, hb, getLsbD_clear_self, -BitVec.getLsbD_and]
  · apply blockAt_imp hm (fun e => absurd e hr') ?_ (by rw [hl]; simp) (by rw [ha]) fun e => absurd e hr
    rw [hg]
    exact fun _ => id
  apply blockAt_congr hm
  · rw [ht', ht]
    simp [Ne.symm hc]
  · rw [hg]
  · rw [hl]
  · rw [ha]
  · intro hlt
    rw [hb]
    by_cases hcg : c.1 = g
    · have hci : i ≠ c.2 := fun e => hc (Prod.ext hcg e.symm)
      have hlt' : c.2 < 32 := Nat.lt_of_lt_of_le hlt (by decide)
      rw [hcg, update_self, getLsbD_clear hi' hlt' hci]
    · rw [update_of_ne hcg]

theorem blocks_free (hg : q.giving = some (g, i)) (hg' : pc.giving = none)
    (ht : pc.taking = q.taking) (hl : s'.live = s.live) (ha : s'.allocated = s.allocated)
    (hin : s.allocated g = true ∧ i < groupBlockCount)
    (hb : s'.bits = update s.bits g (s.bits g ||| BitVec.twoPow 32 i)) : Placed (BlockAt s') := by
  have hi' : i < 32 := Nat.lt_of_lt_of_le hin.2 (by decide)
  have hgiven : BlockAt s (g, i) (.given t) := by simp only [BlockAt, hm.old, hg]
  have hfree : BlockAt s' (g, i) .free := by
    simp [BlockAt, hb, ha, hin, getLsbD_set_self hi', -BitVec.getLsbD_or]
  refine h.move hgiven hfree (by simp [BlockAt, hm.new, hg']) (fun r hr hr' => ?_) (fun c hc => ?_)
  · apply blockAt_imp hm ?_ (fun e => absurd e hr) (by rw [hl]; simp) (by rw [ha]) fun e => absurd e hr'
    rw [ht]
    exact fun _ => id
  apply blockAt_congr hm
  · rw [ht]
  · rw [hg', hg]
    simp [Ne.symm hc]
  · rw [hl]
  · rw [ha]
  · intro hlt
    rw [hb]
    by_cases hcg : c.1 = g
    · have hci : i ≠ c.2 := fun e => hc (Prod.ext hcg e.symm)
      rw [hcg, update_self, getLsbD_set hci]
    · rw [update_of_ne hcg]

theorem blocks_group {v : Bool} (ht : pc.taking = q.taking) (hg : pc.giving = q.giving)
    (hl : s'.live = s.live) (ha : s'.allocated = update s.allocated g v)
    (hall : ∀ i < groupBlockCount, BlockAt s (g, i) (if v then .absent else .free))
    (hb : ∀ g', g' ≠ g → s'.bits g' = s.bits g')
    (hfull : v = true → ∀ i < groupBlockCount, (s'.bits g).getLsbD i = true) : Placed (BlockAt s') := by
  apply h.step
  rintro ⟨g', i⟩
  -- who takes and gives is as before, for every block
  have htaken : ∀ u c, BlockAt s' c (.taken u) ↔ BlockAt s c (.taken u) := by
    intro u c
    by_cases hu : u = t
    · simp [BlockAt, hu, hm.old, hm.new, ht]
    · simp [BlockAt, hm.others u hu]
  have hgiven : ∀ u c, BlockAt s' c (.given u) ↔ BlockAt s c (.given u) := by
    intro u c
    by_cases hu : u = t
    · simp [BlockAt, hu, hm.old, hm.new, hg]
    · simp [BlockAt, hm.others u hu]
  have hlive : ∀ c, BlockAt s' c .live ↔ BlockAt s c .live := by simp [BlockAt, hl]
  by_cases hgg : g' = g
  · subst hgg
    by_cases hi : i < groupBlockCount
    · have hold := h.iff_eq (hall i hi)
      refine .inr ⟨if v then .free else .absent, fun r => ?_⟩
      cases v with
      | true =>
        cases r with
        | free => simp [BlockAt, ha, hi, hfull rfl i hi]
        | absent => simp [BlockAt, ha, hi]
        | live => simp [hlive, hold]
        | taken u => simp [htaken, hold]
        | given u => simp [hgiven, hold]
      | false =>
        cases r with
        | free => simp [BlockAt, ha]
        | absent => simp [BlockAt, ha]
        | live => simp [hlive, hold]
        | taken u => simp [htaken, hold]
        | given u => simp [hgiven, hold]
    · refine .inl fun r => ?_
      cases r with
      | free => simp [BlockAt, hi]
      | absent => simp [BlockAt, Nat.le_of_not_lt hi]
      | live => exact hlive _
      | taken u => exact htaken u _
      | given u => exact hgiven u _
  · apply Or.inl
    apply blockAt_congr hm
    · rw [ht]
    · rw [hg]
    · rw [hl]
    · simp [ha, hgg]
    · exact fun _ => by rw [hb g' hgg]

end Blocks

end WinePpc64.Heap.Lfh
