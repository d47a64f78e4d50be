import WinePpc64.Heap.LfhMoves

namespace WinePpc64.Heap.Lfh

open Lib State

variable {s s' : State} {t : Tid} {g : Group}

theorem Inv.step (h : Inv s) {act : Act} (hs : step s (t, act) = some s') : Inv s' := by
  unfold Lfh.step at hs
  dsimp only at hs
  split at hs
  next a hpc =>
    cases hs
    exact h.goto hpc rfl rfl rfl nofun nofun nofun nofun
  next g i hpc =>
    split at hs
    next hlive =>
      cases hs
      exact h.give hpc hlive
    next => cases hs
  next a hpc =>
    cases hs
    exact h.goto hpc rfl rfl rfl nofun nofun nofun nofun
  next a hpc =>
    split at hs
    next g hslot =>
      cases hs
      exact h.take_slot hslot hpc rfl rfl rfl rfl (fun _ hv => hv) nofun
    next =>
      cases hs
      exact h.goto hpc rfl rfl rfl nofun nofun nofun nofun
  next a hpc =>
    split at hs
    next g rest hshared =>
      cases hs
      exact h.pop hpc hshared
    next =>
      cases hs
      exact h.goto hpc rfl rfl rfl nofun nofun nofun nofun
  next a hpc =>
    cases hs
    exact h.goto hpc rfl rfl rfl nofun nofun nofun nofun
  next a g hpc =>
    split at hs
    next => cases hs
    next hnew =>
      cases hs
      exact h.grow hpc (by simpa using hnew)
  next a g hpc =>
    cases hs
    -- the affinity word is read by the owner only
    have hgo : Inv (s.goto t (.readBits a g)) := h.goto hpc rfl rfl rfl nofun nofun nofun fun _ _ hst => hst
    exact { hgo with }
  next a g hpc =>
    obtain ⟨i, hi, hlt, hbit⟩ := bitScanForward_of_hasBit (h.stage hpc rfl)
    rw [hi] at hs
    cases hs
    refine h.goto hpc rfl rfl rfl nofun nofun nofun fun x hx _ => ?_
    cases hx
    exact ⟨hlt, hbit⟩
  next a g i hpc =>
    cases hs
    exact h.clear hpc
  next a g i hpc =>
    have hflag := h.flag_of_owned (by rw [hpc]; rfl) (by simp [hpc])
    split at hs
    next hne =>
      cases hs
      refine h.goto hpc rfl rfl rfl nofun nofun nofun fun x hx _ => ?_
      cases hx
      exact hasBit_of_ne_zero hne hflag
    next =>
      cases hs
      exact h.goto hpc rfl rfl rfl nofun nofun nofun fun _ _ _ => trivial
  next a g i hpc =>
    have hflag := h.flag_of_owned (by rw [hpc]; rfl) (by simp [hpc])
    split at hs
    next hzero =>
      cases hs
      exact h.fill hpc hzero
    next hne =>
      cases hs
      refine h.goto hpc rfl rfl rfl nofun nofun nofun fun x hx _ => ?_
      cases hx
      exact hasBit_of_ne_zero hne hflag
  next a g i hpc =>
    split at hs
    next hslot =>
      cases hs
      exact h.fill_slot hslot hpc rfl nofun (h.stage hpc rfl)
        (blocks_handOut h.blocks (moves_goto rfl hpc) rfl rfl rfl rfl rfl fun _ _ _ => rfl)
    next old hslot =>
      cases hs
      exact h.swap hpc hslot
  next old g i hpc =>
    cases hs
    exact h.push_shared hpc rfl nofun (h.stage hpc rfl)
      (blocks_handOut h.blocks (moves_goto rfl hpc) rfl rfl rfl rfl rfl fun _ _ _ => rfl)
  next g i hpc =>
    cases hs
    split
    next hlast => exact h.or_last hpc hlast
    next => exact h.or_some hpc
  next g hpc =>
    cases hs
    exact h.reset hpc
  next g hpc =>
    cases hs
    exact h.goto hpc rfl rfl rfl nofun nofun nofun fun _ _ hst => hst
  next a g hpc =>
    have hst : s.bits g = ~~~groupFlagFree := h.stage hpc rfl
    split at hs
    next hslot =>
      cases hs
      exact h.fill_slot hslot hpc rfl nofun (hst ▸ hasBit_not_flag)
        (blocks_same h.blocks (moves_goto rfl hpc) rfl rfl rfl rfl fun _ _ _ => rfl)
    next =>
      cases hs
      exact h.goto hpc rfl rfl rfl nofun nofun nofun fun _ _ hst => hst
  next g hpc =>
    split at hs
    · cases hs
      refine h.goto hpc rfl rfl rfl nofun nofun nofun fun x _ hst => ?_
      exact hst ▸ hasBit_not_flag
    · cases hs
      exact h.goto hpc rfl rfl rfl nofun nofun nofun fun _ _ hst => hst
  next g hpc =>
    cases hs
    exact h.release hpc
  next a hpc =>
    split at hs
    next g hslot =>
      cases hs
      exact h.take_slot hslot hpc rfl rfl rfl rfl (fun _ hv => hv) nofun
    next =>
      cases hs
      exact h.goto hpc rfl rfl rfl nofun nofun nofun nofun
  next g hpc =>
    cases hs
    exact h.push_shared hpc rfl nofun (h.stage hpc rfl)
      (blocks_same h.blocks (moves_goto rfl hpc) rfl rfl rfl rfl fun _ _ _ => rfl)
  next => cases hs

theorem Inv.init : Inv State.init where
  groups := by
    intro g
    refine ⟨.gone, rfl, fun p hp => ?_⟩
    cases p with
    | gone => rfl
    | full => cases hp.1
    | shared => cases hp
    | slot a => cases hp
    | owned t => cases hp
  blocks := by
    intro b
    refine ⟨.absent, .inl rfl, fun p hp => ?_⟩
    cases p with
    | absent => rfl
    | free => cases hp.1
    | live => cases hp
    | taken t => cases hp
    | given t => cases hp
  nodup := List.nodup_nil
  ready := fun _ _ h => by cases h
  found := fun _ h => by cases h
  slotted := fun _ _ h => by cases h
  listed := fun _ h => by cases h

theorem Inv.of_reaches (hr : Reaches Lfh.step Free State.init s) : Inv s := by
  apply hr.invariant (P := Inv) Inv.init
  rintro u ⟨t, act⟩ v - hstep hu
  exact hu.step hstep

theorem Inv.unreachable (h : Inv s) (hpc : s.pcs t = .release g) :
    (∀ i, s.live (g, i) = false ∧ ∀ u, (s.pcs u).taking ≠ some (g, i) ∧ (s.pcs u).giving ≠ some (g, i)) ∧
    (∀ u, u ≠ t → (s.pcs u).holds ≠ some g) ∧ (∀ a, s.slots a ≠ some g) ∧ g ∉ s.shared := by
  have hholds : (s.pcs t).holds = some g := by rw [hpc]; rfl
  have hbits : s.bits g = ~~~groupFlagFree := h.stage hpc rfl
  refine ⟨fun i => ?_, fun u hu e => hu (h.owner_unique hholds u e), h.not_slot_of_owned hholds,
    h.not_shared_of_owned hholds⟩
  obtain ⟨p, hp, hne⟩ : ∃ p, BlockAt s (g, i) p ∧ (p = .free ∨ p = .absent) := by
    by_cases hi : i < groupBlockCount
    · refine ⟨.free, ⟨h.allocated_of_owned hholds, hi, ?_⟩, .inl rfl⟩
      rw [hbits, getLsbD_not_flag_of_lt hi]
    · exact ⟨.absent, .inr (Nat.le_of_not_lt hi), .inr rfl⟩
  have hno : ∀ q, q ≠ .free → q ≠ .absent → ¬ BlockAt s (g, i) q := by
    intro q h₁ h₂ hq
    obtain rfl := h.blocks.unique hp hq
    rcases hne with rfl | rfl
    · exact h₁ rfl
    · exact h₂ rfl
  refine ⟨?_, fun u => ⟨hno (.taken u) (by simp) (by simp), hno (.given u) (by simp) (by simp)⟩⟩
  simpa [BlockAt] using hno .live (by simp) (by simp)

/-- In every interleaving a group is in one place and a block about to be returned is nobody else's. -/
theorem groups_have_one_owner (s : State) (hr : Reaches step Free State.init s) :
    (∀ t b, (s.pcs t).taking = some b →
      s.live b = false ∧ (∀ u, (s.pcs u).taking = some b → u = t) ∧ ∀ u, (s.pcs u).giving ≠ some b) ∧
    (∀ g, s.allocated g = true → ∃! p, GroupAt s g p) ∧
    (∀ t a g, s.pcs t = .readBits a g → ∃ i < groupBlockCount, bitScanForward (s.bits g) = some i) ∧
    ∀ t g, s.pcs t = .release g →
      (∀ i, s.live (g, i) = false ∧ ∀ u, (s.pcs u).taking ≠ some (g, i) ∧ (s.pcs u).giving ≠ some (g, i)) ∧
      (∀ u, u ≠ t → (s.pcs u).holds ≠ some g) ∧ (∀ a, s.slots a ≠ some g) ∧ g ∉ s.shared := by
  have h : Inv s := Inv.of_reaches hr
  refine ⟨fun t b ht => ?_, fun g _ => h.groups g, fun t a g hpc => ?_, fun t g hpc => h.unreachable hpc⟩
  · have ht : BlockAt s b (.taken t) := ht
    refine ⟨?_, fun u hu => ?_, fun u hu => ?_⟩
    · by_contra hlive
      have hlive : BlockAt s b .live := by simpa [BlockAt] using hlive
      cases h.blocks.unique ht hlive
    · exact Use.taken.inj (h.blocks.unique hu ht)
    · have hu : BlockAt s b (.given u) := hu
      cases h.blocks.unique ht hu
  · obtain ⟨i, hi, hlt, -⟩ := bitScanForward_of_hasBit (h.stage hpc rfl)
    exact ⟨i, hlt, hi⟩

/-- A block is in one place, and every group that is handed out has a free block. -/
theorem blocks_have_one_use (s : State) (hr : Reaches step Free State.init s) :
    (∀ b, ∃! u, BlockAt s b u) ∧ s.shared.Nodup ∧ (∀ g ∈ s.shared, HasBit (s.bits g)) ∧
      (∀ a g, s.slots a = some g → HasBit (s.bits g)) ∧ ∀ t, s.pcs t ≠ .noFreeBit := by
  have h : Inv s := Inv.of_reaches hr
  exact ⟨h.blocks, h.nodup, h.listed, h.slotted, h.found⟩

namespace TwoThreads

def acts : List (Tid × Act) :=
  [(0, .alloc (.last 31)), (0, .run), (0, .run), (0, .grow (some 7)), (0, .run), (0, .run), (0, .run), (0, .run),
    (0, .run), (1, .alloc (.last 31)), (1, .run), (1, .run)]

theorem groups_have_one_owner_second : ∃ s, Lib.run step State.init acts = some s ∧
    s.live (7, 0) = true ∧ s.pcs 1 = .readBits (.last 31) 7 ∧
    ∃ i < groupBlockCount, bitScanForward (s.bits 7) = some i := by
  have hrun : (Lib.run step State.init acts).map (fun s => (s.live (7, 0), s.pcs 1)) =
      some (true, .readBits (.last 31) 7) := by decide +kernel
  obtain ⟨s, hs, h⟩ := Option.map_eq_some_iff.mp hrun
  obtain ⟨hlive, hpc⟩ := Prod.mk.inj h
  exact ⟨s, hs, hlive, hpc, (groups_have_one_owner s (reaches_of_run hs)).2.2.1 1 (.last 31) 7 hpc⟩

theorem blocks_have_one_use_second : ∃ s, Lib.run step State.init acts = some s ∧ ∃! u, BlockAt s (7, 0) u := by
  have hrun : (Lib.run step State.init acts).isSome := by decide +kernel
  obtain ⟨s, hs⟩ := Option.isSome_iff_exists.mp hrun
  exact ⟨s, hs, (blocks_have_one_use s (reaches_of_run hs)).1 (7, 0)⟩

end TwoThreads

end WinePpc64.Heap.Lfh
