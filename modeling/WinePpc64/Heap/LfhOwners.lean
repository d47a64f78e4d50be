import WinePpc64.Heap.LfhGroups

namespace WinePpc64.Heap.Lfh

open BitVec Lib State

variable {s s' s₁ : State} {t u : Tid} {g x : Group} {b : Group × ℕ} {q pc : Pc} {i j : ℕ}
  {v : BitVec 32}

variable (hi : i < 32)
include hi

theorem getLsbD_twoPow : (BitVec.twoPow 32 i).getLsbD j = decide (i = j) := by
  simp [hi]

omit hi in
theorem getLsbD_clear_self : (v &&& ~~~BitVec.twoPow 32 i).getLsbD i = false := by
  simp

theorem getLsbD_clear (hj : j < 32) (hne : i ≠ j) :
    (v &&& ~~~BitVec.twoPow 32 i).getLsbD j = v.getLsbD j := by
  rw [getLsbD_and, getLsbD_not, getLsbD_twoPow hi]
  simp [hj, hne]

theorem getLsbD_set_self : (v ||| BitVec.twoPow 32 i).getLsbD i = true := by
  rw [getLsbD_or, getLsbD_twoPow hi]
  simp

omit hi in
theorem getLsbD_set (hne : i ≠ j) : (v ||| BitVec.twoPow 32 i).getLsbD j = v.getLsbD j := by
  simp [hne]

omit hi

theorem getLsbD_not_flag (hj : j < 32) : (~~~groupFlagFree).getLsbD j = decide (j ≠ groupBlockCount) := by
  rw [groupFlagFree]
  simp [hj]

theorem hasBit_not_flag : HasBit (~~~groupFlagFree) := ⟨0, by decide, by decide⟩

theorem hasBit_of_ne_zero (hv : v ≠ 0) (hflag : v.getLsbD groupBlockCount = false) : HasBit v := by
  by_contra hno
  apply hv
  apply eq_of_getLsbD_eq
  intro i hi
  by_contra hset
  have hbit : v.getLsbD i = true := by simpa using hset
  have hne : i ≠ groupBlockCount := by
    rintro rfl
    cases hflag.symm.trans hbit
  exact hno ⟨i, by unfold groupBlockCount at *; omega, hbit⟩

theorem bitScanForward_of_hasBit (h : HasBit v) :
    ∃ i, bitScanForward v = some i ∧ i < groupBlockCount ∧ v.getLsbD i = true := by
  obtain ⟨j, hj, hbit⟩ := h
  cases hscan : bitScanForward v with
  | none =>
    have := List.find?_eq_none.mp hscan j (List.mem_range.mpr (by unfold groupBlockCount at hj; omega))
    exact absurd hbit this
  | some i =>
    obtain ⟨hi, -, hleast⟩ := List.find?_range_eq_some.mp hscan
    refine ⟨i, rfl, ?_, hi⟩
    by_contra hge
    have := hleast j (by omega)
    simp [hbit] at this

structure Moves (s s' : State) (t : Tid) (q pc : Pc) : Prop where
  others : ∀ u, u ≠ t → s'.pcs u = s.pcs u
  old : s.pcs t = q
  new : s'.pcs t = pc

theorem moves_goto (hp : s₁.pcs = s.pcs) (hq : s.pcs t = q) : Moves s (s₁.goto t pc) t q pc := by
  refine ⟨fun u hu => ?_, hq, Function.update_self _ _ _⟩
  rw [← hp]
  exact Function.update_of_ne hu _ _

variable (hm : Moves s s' t q pc) {a : Affinity}
include hm

theorem Moves.symm : Moves s' s t pc q :=
  ⟨fun u hu => (hm.others u hu).symm, hm.new, hm.old⟩

theorem groupAt_congr (hh : pc.holds = some g ↔ q.holds = some g)
    (hr : pc = .reset g ↔ q = .reset g)
    (hs : ∀ a, s'.slots a = some g ↔ s.slots a = some g) (hl : g ∈ s'.shared ↔ g ∈ s.shared)
    (ha : s'.allocated g = s.allocated g)
    (hb : (s'.bits g).getLsbD groupBlockCount = (s.bits g).getLsbD groupBlockCount) (p : Place) :
    GroupAt s' g p ↔ GroupAt s g p := by
  have hreset : ∀ u, s'.pcs u = .reset g ↔ s.pcs u = .reset g := by
    intro u
    by_cases hu : u = t
    · rw [hu, hm.old, hm.new, hr]
    · rw [hm.others u hu]
  cases p with
  | owned u =>
    by_cases hu : u = t
    · simp only [GroupAt, hu, hm.old, hm.new, hh]
    · simp only [GroupAt, hm.others u hu]
  | slot a => exact hs a
  | shared => exact hl
  | full => simp only [GroupAt, ha, hb, ne_eq, hreset]
  | gone => simp only [GroupAt, ha]

theorem blockAt_imp {r : Use} (ht : r = .taken t → pc.taking = some b → q.taking = some b)
    (hg : r = .given t → pc.giving = some b → q.giving = some b)
    (hl : r = .live → s'.live b = s.live b) (ha : s'.allocated b.1 = s.allocated b.1)
    (hb : r = .free → b.2 < groupBlockCount → (s'.bits b.1).getLsbD b.2 = (s.bits b.1).getLsbD b.2)
    (h : BlockAt s' b r) : BlockAt s b r := by
  cases r with
  | free => exact ⟨ha ▸ h.1, h.2.1, hb rfl h.2.1 ▸ h.2.2⟩
  | live => exact (hl rfl).symm.trans h
  | taken u =>
    by_cases hu : u = t
    · subst hu
      simp only [BlockAt, hm.old, hm.new] at h ⊢
      exact ht rfl h
    · exact (congrArg Pc.taking (hm.others u hu)).symm.trans h
  | given u =>
    by_cases hu : u = t
    · subst hu
      simp only [BlockAt, hm.old, hm.new] at h ⊢
      exact hg rfl h
    · exact (congrArg Pc.giving (hm.others u hu)).symm.trans h
  | absent => simpa only [BlockAt, ha] using h

theorem blockAt_congr (ht : pc.taking = some b ↔ q.taking = some b)
    (hg : pc.giving = some b ↔ q.giving = some b) (hl : s'.live b = s.live b)
    (ha : s'.allocated b.1 = s.allocated b.1)
    (hb : b.2 < groupBlockCount → (s'.bits b.1).getLsbD b.2 = (s.bits b.1).getLsbD b.2) (p : Use) :
    BlockAt s' b p ↔ BlockAt s b p := by
  constructor
  · exact blockAt_imp hm (fun _ => ht.mp) (fun _ => hg.mp) (fun _ => hl) ha fun _ => hb
  · exact blockAt_imp hm.symm (fun _ => ht.mpr) (fun _ => hg.mpr) (fun _ => hl.symm) ha.symm
      fun _ hi => (hb hi).symm

omit hm in
theorem holds_reset (h : s.pcs u = .reset g) : (s.pcs u).holds = some g := by rw [h]; rfl

theorem groupAt_put {r : Place} (hh : pc.holds ≠ some g)
    (hown : ∀ u, (s.pcs u).holds = some g → u = t) (hslots : ∀ a, s'.slots a = some g ↔ r = .slot a)
    (hshared : g ∈ s'.shared ↔ r = .shared)
    (hfull : s'.allocated g = true ∧ (s'.bits g).getLsbD groupBlockCount = true ↔ r = .full)
    (hgone : s'.allocated g = false ↔ r = .gone) (hr : ∀ u, r ≠ .owned u) (p : Place) :
    GroupAt s' g p ↔ p = r := by
  have hnone : ∀ u, (s'.pcs u).holds ≠ some g := by
    intro u hu
    by_cases hut : u = t
    · exact hh (hm.new ▸ hut ▸ hu)
    · rw [hm.others u hut] at hu
      exact hut (hown u hu)
  cases p with
  | owned u => exact ⟨fun h => absurd h (hnone u), fun h => absurd h.symm (hr u)⟩
  | slot a => exact (hslots a).trans eq_comm
  | shared => exact hshared.trans eq_comm
  | full =>
    rw [eq_comm, ← hfull]
    exact ⟨fun h => ⟨h.1, h.2.1⟩, fun h => ⟨h.1, h.2, fun u hu => hnone u (holds_reset hu)⟩⟩
  | gone => exact hgone.trans eq_comm

theorem groupAt_take (hh : pc.holds = some g)
    (hown : ∀ u, u ≠ t → (s.pcs u).holds ≠ some g) (hslots : ∀ a, s'.slots a ≠ some g) (hshared : g ∉ s'.shared)
    (hall : s'.allocated g = true)
    (hfull : (s'.bits g).getLsbD groupBlockCount = true → pc = .reset g) (p : Place) :
    GroupAt s' g p ↔ p = .owned t := by
  cases p with
  | owned u =>
    by_cases hut : u = t
    · simp only [GroupAt, hut, hm.new, hh]
    · simp only [GroupAt, hm.others u hut, Place.owned.injEq, hut, iff_false]
      exact hown u hut
  | slot a => exact ⟨fun h => absurd h (hslots a), fun h => by cases h⟩
  | shared => exact ⟨fun h => absurd h hshared, fun h => by cases h⟩
  | full => exact ⟨fun h => absurd (hm.new.trans (hfull h.2.1)) (h.2.2 t), fun h => by cases h⟩
  | gone =>
    simp only [GroupAt, hall, reduceCtorEq]

omit hm

namespace Inv

variable (h : Inv s)
include h

variable {p : Place}

variable (hp : GroupAt s g p)
include hp

theorem allocated_of_at (hne : p ≠ .gone) : s.allocated g = true := by
  by_contra hno
  exact hne (h.groups.unique hp (by simpa [GroupAt] using hno : GroupAt s g .gone))

theorem flag_of_at (hne : p ≠ .full) (hng : p ≠ .gone)
    (hr : ∀ t, p = .owned t → s.pcs t ≠ .reset g) : (s.bits g).getLsbD groupBlockCount = false := by
  by_contra hflag
  by_cases hreset : ∃ u, s.pcs u = .reset g
  · obtain ⟨u, hu⟩ := hreset
    exact hr u (h.groups.unique hp (holds_reset hu)) hu
  · exact hne (h.groups.unique hp
      ⟨h.allocated_of_at hp hng, by simpa using hflag, fun u hu => hreset ⟨u, hu⟩⟩)

theorem not_owned_of_at (hne : p ≠ .owned u) : (s.pcs u).holds ≠ some g := by
  intro hu
  exact hne (h.groups.unique hp hu)

theorem not_slot_of_at (hne : p ≠ .slot a) : s.slots a ≠ some g := by
  intro ha
  exact hne (h.groups.unique hp ha)

theorem not_shared_of_at (hne : p ≠ .shared) : g ∉ s.shared := by
  intro hg
  exact hne (h.groups.unique hp hg)

omit hp

variable (ht : (s.pcs t).holds = some g)
include ht

theorem owner_unique (u : Tid) (hu : (s.pcs u).holds = some g) : u = t := by
  exact Place.owned.inj (h.groups.unique hu ht)

theorem not_slot_of_owned (a : Affinity) : s.slots a ≠ some g := by
  have ht : GroupAt s g (.owned t) := ht
  exact h.not_slot_of_at ht (by simp)

theorem not_shared_of_owned : g ∉ s.shared := by
  have ht : GroupAt s g (.owned t) := ht
  exact h.not_shared_of_at ht (by simp)

theorem allocated_of_owned : s.allocated g = true := by
  have ht : GroupAt s g (.owned t) := ht
  exact h.allocated_of_at ht (by simp)

theorem flag_of_owned (hr : s.pcs t ≠ .reset g) : (s.bits g).getLsbD groupBlockCount = false := by
  have ht : GroupAt s g (.owned t) := ht
  apply h.flag_of_at ht (by simp) (by simp)
  intro u hu
  cases hu
  exact hr

theorem ne_of_slot (hx : s.slots a = some x) : x ≠ g := by
  rintro rfl
  exact h.not_slot_of_owned ht a hx

omit ht

theorem stage (hpc : s.pcs t = pc) (hh : pc.holds = some g) : pc.Stage (s.bits g) :=
  hpc ▸ h.ready t g (hpc ▸ hh)

end Inv

theorem Inv.of (h : Inv s) (hm : Moves s s' t q pc) (groups : Placed (GroupAt s'))
    (blocks : Placed (BlockAt s')) (nodup : s'.shared.Nodup)
    (hst : ∀ g, pc.holds = some g → pc.Stage (s'.bits g))
    (hbits : ∀ u, u ≠ t → ∀ g, (s.pcs u).holds = some g → (s.pcs u).Stage (s'.bits g))
    (hf : pc ≠ .noFreeBit) (slotted : ∀ a g, s'.slots a = some g → HasBit (s'.bits g))
    (listed : ∀ g ∈ s'.shared, HasBit (s'.bits g)) : Inv s' := by
  refine ⟨groups, blocks, nodup, fun u g hu => ?_, fun u => ?_, slotted, listed⟩
  · by_cases hut : u = t
    · subst hut
      rw [hm.new] at hu ⊢
      exact hst g hu
    · rw [hm.others u hut] at hu ⊢
      exact hbits u hut g hu
  · by_cases hut : u = t
    · rw [hut, hm.new]
      exact hf
    · rw [hm.others u hut]
      exact h.found u

theorem Inv.goto (h : Inv s) (hpc : s.pcs t = q) (hh : pc.holds = q.holds) (ht : pc.taking = q.taking)
    (hg : pc.giving = q.giving) (hr : ∀ g, pc ≠ .reset g) (hr' : ∀ g, q ≠ .reset g) (hf : pc ≠ .noFreeBit)
    (hst : ∀ g, q.holds = some g → q.Stage (s.bits g) → pc.Stage (s.bits g)) : Inv (s.goto t pc) := by
  have hm : Moves s (s.goto t pc) t q pc := moves_goto rfl hpc
  apply h.of hm
  · apply h.groups.congr
    intro g
    exact groupAt_congr hm (by rw [hh]) ⟨fun e => absurd e (hr g), fun e => absurd e (hr' g)⟩
      (fun _ => Iff.rfl) Iff.rfl rfl rfl
  · apply h.blocks.congr
    intro b
    exact blockAt_congr hm (by rw [ht]) (by rw [hg]) rfl rfl fun _ => rfl
  · exact h.nodup
  · intro g hp
    rw [hh] at hp
    exact hst g hp (h.stage hpc hp)
  · exact fun u _ g hu => h.ready u g hu
  · exact hf
  · exact h.slotted
  · exact h.listed

end WinePpc64.Heap.Lfh
