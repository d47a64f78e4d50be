import WinePpc64.Heap.LfhSteps

namespace WinePpc64.Heap.Lfh

open Function Lib State Pc

variable {s s' : State} {t : Tid} {g : Group} {q pc : Pc} {a : Affinity} {i : ℕ}
  {slots : Affinity → Option Group} {shared : List Group} {bits : Group → BitVec 32}
  {allocated : Group → Bool} {live : Group × ℕ → Bool} {r p : Place} {v : BitVec 32}

structure OnlyGroup (s s' : State) (t : Tid) (q pc : Pc) (g : Group) : Prop where
  moves : Moves s s' t q pc
  before : ∀ x, q.holds = some x → x = g
  after : ∀ x, pc.holds = some x → x = g
  slots : ∀ x, x ≠ g → ∀ a, s'.slots a = some x ↔ s.slots a = some x
  shared : ∀ x, x ≠ g → (x ∈ s'.shared ↔ x ∈ s.shared)
  allocated : ∀ x, x ≠ g → s'.allocated x = s.allocated x
  bits : ∀ x, x ≠ g → s'.bits x = s.bits x

variable (h : Inv s)
include h

theorem Inv.only (ho : OnlyGroup s s' t q pc g) (hr : ∀ p, GroupAt s' g p ↔ p = r)
    (hrt : ∀ u, r = .owned u → u = t) (hblocks : Placed (BlockAt s')) (hnd : s'.shared.Nodup)
    (hst : pc.holds = some g → pc.Stage (s'.bits g)) (hf : pc ≠ .noFreeBit)
    (hbit : (∃ a, r = .slot a) ∨ r = .shared → HasBit (s'.bits g)) : Inv s' := by
  have hreset : ∀ p : Pc, (∀ x, p.holds = some x → x = g) → ∀ x, x ≠ g → p ≠ .reset x := by
    rintro _ hp x hx rfl
    exact hx (hp x rfl)
  apply h.of ho.moves
  · apply h.groups.step
    intro x
    by_cases hx : x = g
    · exact .inr ⟨r, hx ▸ hr⟩
    refine .inl (groupAt_congr ho.moves ?_ ?_ (ho.slots x hx) (ho.shared x hx) (ho.allocated x hx) ?_)
    · exact iff_of_false (fun e => hx (ho.after x e)) fun e => hx (ho.before x e)
    · exact iff_of_false (hreset pc ho.after x hx) (hreset q ho.before x hx)
    · rw [ho.bits x hx]
  · exact hblocks
  · exact hnd
  · intro x hx
    obtain rfl := ho.after x hx
    exact hst hx
  · intro u hu x hx
    have hne : x ≠ g := by
      rintro rfl
      have hat : GroupAt s' x (.owned u) := (congrArg holds (ho.moves.others u hu)).trans hx
      exact hu (hrt u ((hr _).mp hat).symm)
    rw [ho.bits x hne]
    exact h.ready u x hx
  · exact hf
  · intro a x hx
    by_cases hxg : x = g
    · subst hxg
      exact hbit (.inl ⟨a, ((hr (.slot a)).mp hx).symm⟩)
    · rw [ho.bits x hxg]
      exact h.slotted a x ((ho.slots x hxg a).mp hx)
  · intro x hx
    by_cases hxg : x = g
    · subst hxg
      exact hbit (.inr ((hr .shared).mp hx).symm)
    · rw [ho.bits x hxg]
      exact h.listed x ((ho.shared x hxg).mp hx)

theorem Inv.own (ho : OnlyGroup s s' t q pc g) (hh : pc.holds = some g)
    (hown : ∀ u, u ≠ t → (s.pcs u).holds ≠ some g) (hslots : ∀ a, s'.slots a ≠ some g)
    (hshared : g ∉ s'.shared) (hall : s'.allocated g = true)
    (hfull : (s'.bits g).getLsbD groupBlockCount = true → pc = .reset g)
    (hblocks : Placed (BlockAt s')) (hnd : s'.shared.Nodup) (hst : pc.Stage (s'.bits g))
    (hf : pc ≠ .noFreeBit) : Inv s' :=
  h.only ho (groupAt_take ho.moves hh hown hslots hshared hall hfull) (by simp) hblocks hnd (fun _ => hst) hf
    (by simp)

theorem Inv.acquire (hp : GroupAt s g p) (hplace : p = .shared ∨ ∃ a, p = .slot a)
    (hq : s.pcs t = q) (hnone : q.holds = none) (hh : pc.holds = some g) (ht : pc.taking = q.taking)
    (hg : pc.giving = q.giving) (hst : ∀ v, HasBit v → pc.Stage v) (hf : pc ≠ .noFreeBit)
    (hslots : ∀ a x, slots a = some x ↔ s.slots a = some x ∧ x ≠ g)
    (hshared : ∀ x, x ∈ shared ↔ x ∈ s.shared ∧ x ≠ g) (hnd : shared.Nodup) :
    Inv ({ s with slots := slots, shared := shared }.goto t pc) := by
  have hbit : HasBit (s.bits g) := by
    rcases hplace with rfl | ⟨a, rfl⟩
    · exact h.listed g hp
    · exact h.slotted a g hp
  have hne : p ≠ .full ∧ p ≠ .gone ∧ ∀ u, p ≠ .owned u := by
    rcases hplace with rfl | ⟨a, rfl⟩ <;> simp
  have hm : Moves s ({ s with slots := slots, shared := shared }.goto t pc) t q pc := moves_goto rfl hq
  apply h.own (g := g)
  · refine ⟨hm, by simp [hnone], by simp [hh, eq_comm], fun x hx a => ?_, fun x hx => ?_, fun _ _ => rfl,
      fun _ _ => rfl⟩
    · exact (hslots a x).trans (and_iff_left hx)
    · exact (hshared x).trans (and_iff_left hx)
  · exact hh
  · exact fun u _ => h.not_owned_of_at hp (hne.2.2 u)
  · exact fun a hs => ((hslots a g).mp hs).2 rfl
  · exact fun hs => ((hshared g).mp hs).2 rfl
  · exact h.allocated_of_at hp hne.2.1
  · intro hflag
    have hclear := h.flag_of_at hp hne.1 hne.2.1 fun u hu => absurd hu (hne.2.2 u)
    exact absurd hflag (Bool.eq_false_iff.mp hclear)
  · exact blocks_same h.blocks hm ht hg rfl rfl fun _ _ _ => rfl
  · exact hnd
  · exact hst _ hbit
  · exact hf

theorem Inv.putAway (hr : r = .shared ∨ ∃ a, r = .slot a) (hq : s.pcs t = q)
    (hholds : q.holds = some g) (hnr : q ≠ .reset g) (hbit : HasBit (s.bits g))
    (hblocks : Placed (BlockAt ({ s with slots := slots, shared := shared, live := live }.goto t .idle)))
    (hslots : ∀ a x, slots a = some x ↔ s.slots a = some x ∨ x = g ∧ r = .slot a)
    (hshared : ∀ x, x ∈ shared ↔ x ∈ s.shared ∨ x = g ∧ r = .shared) (hnd : shared.Nodup) :
    Inv ({ s with slots := slots, shared := shared, live := live }.goto t .idle) := by
  subst hq
  have hm : Moves s ({ s with slots := slots, shared := shared, live := live }.goto t .idle) t (s.pcs t) .idle :=
    moves_goto rfl rfl
  apply h.only (g := g) (r := r)
  · refine ⟨hm, by simp [hholds, eq_comm], nofun, fun x hx a => ?_, fun x hx => ?_, fun _ _ => rfl, fun _ _ => rfl⟩
    · simp [State.goto, hslots, hx]
    · simp [State.goto, hshared, hx]
  · apply groupAt_put hm nofun (h.owner_unique hholds)
    · simp [State.goto, hslots, h.not_slot_of_owned hholds]
    · simp [State.goto, hshared, h.not_shared_of_owned hholds]
    · simp only [State.goto, h.flag_of_owned hholds hnr]
      rcases hr with rfl | ⟨a, rfl⟩ <;> simp
    · simp only [State.goto, h.allocated_of_owned hholds]
      rcases hr with rfl | ⟨a, rfl⟩ <;> simp
    · rcases hr with rfl | ⟨a, rfl⟩ <;> simp
  · rcases hr with rfl | ⟨a, rfl⟩ <;> simp
  · exact hblocks
  · exact hnd
  · nofun
  · nofun
  · exact fun _ => hbit

theorem Inv.ownBits (hq : s.pcs t = q) (hholds : q.holds = some g)
    (hpc : pc.holds = some g) (hf : pc ≠ .noFreeBit)
    (hblocks : Placed (BlockAt ((s.setBits g v).goto t pc)))
    (hv : v.getLsbD groupBlockCount = false) (hst : pc.Stage v) : Inv ((s.setBits g v).goto t pc) := by
  have hm : Moves s ((s.setBits g v).goto t pc) t q pc := moves_goto rfl hq
  subst hq
  have hself : ((s.setBits g v).goto t pc).bits g = v := update_self _ _ _
  apply h.own
  · exact ⟨hm, by simp [hholds, eq_comm], by simp [hpc, eq_comm], fun _ _ _ => Iff.rfl, fun _ _ => Iff.rfl,
      fun _ _ => rfl, fun x hx => update_of_ne hx _ _⟩
  · exact hpc
  · exact fun u hu e => hu (h.owner_unique hholds u e)
  · exact h.not_slot_of_owned hholds
  · exact h.not_shared_of_owned hholds
  · exact h.allocated_of_owned hholds
  · rw [hself, hv]
    simp
  · exact hblocks
  · exact h.nodup
  · exact hself.symm ▸ hst
  · exact hf

theorem Inv.unlink (hr : r = .full ∨ r = .gone) (hholds : (s.pcs t).holds = some g)
    (hblocks : Placed (BlockAt ({ s with bits := bits, allocated := allocated, live := live }.goto t .idle)))
    (hfull : allocated g = true ∧ (bits g).getLsbD groupBlockCount = true ↔ r = .full)
    (hgone : allocated g = false ↔ r = .gone) (hb : ∀ x, x ≠ g → bits x = s.bits x)
    (ha : ∀ x, x ≠ g → allocated x = s.allocated x) :
    Inv ({ s with bits := bits, allocated := allocated, live := live }.goto t .idle) := by
  have hm : Moves s ({ s with bits := bits, allocated := allocated, live := live }.goto t .idle) t (s.pcs t) .idle :=
    moves_goto rfl rfl
  apply h.only (g := g) (r := r)
  · exact ⟨hm, by simp [hholds, eq_comm], nofun, fun _ _ _ => Iff.rfl, fun _ _ => Iff.rfl, ha, hb⟩
  · apply groupAt_put hm nofun (h.owner_unique hholds)
    · simp only [State.goto, h.not_slot_of_owned hholds, false_iff]
      rcases hr with rfl | rfl <;> simp
    · simp only [State.goto, h.not_shared_of_owned hholds, false_iff]
      rcases hr with rfl | rfl <;> simp
    · exact hfull
    · exact hgone
    · rcases hr with rfl | rfl <;> simp
  · rcases hr with rfl | rfl <;> simp
  · exact hblocks
  · exact h.nodup
  · nofun
  · nofun
  · rcases hr with rfl | rfl <;> simp

theorem Inv.swap {old : Group} (hpc : s.pcs t = .putBack a g i)
    (hold : s.slots a = some old) : Inv ((s.setSlot a (some g)).goto t (.pushOld old g i)) := by
  have hholds : (s.pcs t).holds = some g := by rw [hpc]; rfl
  have hne : old ≠ g := h.ne_of_slot hholds hold
  have hslot : GroupAt s old (.slot a) := hold
  have hown : ∀ u, (s.pcs u).holds ≠ some old := fun u => h.not_owned_of_at hslot (by simp)
  set s' := (s.setSlot a (some g)).goto t (.pushOld old g i) with hs'
  have hm : Moves s s' t (.putBack a g i) (.pushOld old g i) := moves_goto rfl hpc
  have hslots : ∀ a' x, s'.slots a' = some x ↔ if a' = a then x = g else s.slots a' = some x := by
    intro a' x
    simp only [hs', State.goto, State.setSlot, update_apply]
    split
    · simp [eq_comm]
    · rfl
  apply h.of hm
  · apply h.groups.step
    intro x
    by_cases hx : x = g
    · subst hx
      refine .inr ⟨.slot a, groupAt_put hm ?_ (h.owner_unique hholds) ?_ ?_ ?_ ?_ ?_⟩
      · simp [Pc.holds, hne]
      · intro a'
        rw [hslots]
        split
        next ha => simp [ha]
        next ha => simp [h.not_slot_of_owned hholds, Ne.symm ha]
      · exact ⟨fun e => absurd e (h.not_shared_of_owned hholds), nofun⟩
      · have hclear := h.flag_of_owned hholds (by simp [hpc])
        exact ⟨fun e => absurd e.2 (Bool.eq_false_iff.mp hclear), nofun⟩
      · have hall := h.allocated_of_owned hholds
        exact ⟨fun e => absurd hall (Bool.eq_false_iff.mp e), nofun⟩
      · simp
    · by_cases hxo : x = old
      · subst hxo
        refine .inr ⟨.owned t, groupAt_take hm rfl (fun u _ => hown u) ?_ ?_ ?_ ?_⟩
        · intro a'
          rw [Ne, hslots]
          split
          · exact hne
          next ha => exact h.not_slot_of_at hslot (by simpa using Ne.symm ha)
        · exact h.not_shared_of_at hslot (by simp)
        · exact h.allocated_of_at hslot (by simp)
        · intro hflag
          have hclear := h.flag_of_at hslot (by simp) (by simp) (by simp)
          rw [show s'.bits = s.bits from rfl, hclear] at hflag
          cases hflag
      · refine .inl (groupAt_congr hm ?_ (by simp) (fun a' => ?_) Iff.rfl rfl rfl)
        · simp [holds, Ne.symm hx, Ne.symm hxo]
        rw [hslots]
        split
        next ha => simp [ha, hold, hx, Ne.symm hxo]
        next => rfl
  · exact blocks_same h.blocks hm rfl rfl rfl rfl fun _ _ _ => rfl
  · exact h.nodup
  · intro x hx
    cases hx
    exact h.slotted a old hold
  · exact fun u _ x hx => h.ready u x hx
  · nofun
  · intro a' x hx
    rw [hslots] at hx
    split at hx
    · subst hx
      exact h.stage hpc rfl
    · exact h.slotted a' x hx
  · exact h.listed

omit h

theorem getLsbD_not_flag_of_lt (hi : i < groupBlockCount) : (~~~groupFlagFree).getLsbD i = true := by
  rw [getLsbD_not_flag (Nat.lt_of_lt_of_le hi (by decide))]
  simpa using Nat.ne_of_lt hi

theorem Inv.grow (h : Inv s) (hpc : s.pcs t = .allocate a) (hg : s.allocated g = false) :
    Inv (((s.setAllocated g true).setBits g (~~~groupFlagFree)).goto t (.setAffinity a g)) := by
  have hgone : GroupAt s g .gone := hg
  set s' := ((s.setAllocated g true).setBits g (~~~groupFlagFree)).goto t (.setAffinity a g) with hs'
  have hb : ∀ x, x ≠ g → s'.bits x = s.bits x := fun x hx => update_of_ne hx _ _
  have hself : s'.bits g = ~~~groupFlagFree := update_self _ _ _
  have hm : Moves s s' t (.allocate a) (.setAffinity a g) := moves_goto rfl hpc
  apply h.own
  · exact ⟨hm, nofun, by simp [holds, eq_comm], fun _ _ _ => Iff.rfl, fun _ _ => Iff.rfl,
      fun x hx => update_of_ne hx _ _, hb⟩
  · rfl
  · exact fun u _ => h.not_owned_of_at hgone (by simp)
  · exact fun a => h.not_slot_of_at hgone (by simp)
  · exact h.not_shared_of_at hgone (by simp)
  · exact update_self _ _ _
  · rw [hself, getLsbD_not_flag (by decide)]
    simp
  · apply blocks_group h.blocks hm rfl rfl rfl rfl (fun _ _ => .inl hg) hb
    intro _ i hi
    rw [hself, getLsbD_not_flag_of_lt hi]
  · exact h.nodup
  · exact hself.symm ▸ hasBit_not_flag
  · nofun

theorem hasBit_set (hi : i < groupBlockCount) : HasBit (v ||| BitVec.twoPow 32 i) :=
  ⟨i, hi, getLsbD_set_self (Nat.lt_of_lt_of_le hi (by decide))⟩

theorem Pc.Stage.set (h : pc.Stage v) (hi : i < groupBlockCount)
    (hclear : v.getLsbD i = false) : pc.Stage (v ||| BitVec.twoPow 32 i) := by
  have hi' : i < 32 := Nat.lt_of_lt_of_le hi (by decide)
  have hnot : v ≠ ~~~groupFlagFree := by
    rintro rfl
    simp [getLsbD_not_flag_of_lt hi] at hclear
  cases pc with
  | setAffinity | readBits | putBack | pushOld | push => exact hasBit_set hi
  | clearBit _ _ j =>
    refine ⟨h.1, ?_⟩
    by_cases hij : i = j
    · exact hij ▸ getLsbD_set_self hi'
    · rw [getLsbD_set hij]
      exact h.2
  | reset =>
    have := h i hi
    cases hclear.symm.trans this
  | readAffinity | casSlot | queryDepth | release => exact absurd h hnot
  | noFreeBit => exact h
  | idle | exchange | pop | allocate | checkBits | setFlag | orBit | detach => trivial

section OrBit

variable (h : Inv s) (hpc : s.pcs t = .orBit g i)
include h hpc

theorem Inv.giving_block : s.allocated g = true ∧ i < groupBlockCount ∧ (s.bits g).getLsbD i = false := by
  have hgiven : BlockAt s (g, i) (.given t) := by simp [BlockAt, hpc, giving]
  have habsent : ¬ BlockAt s (g, i) .absent := fun ha => by cases h.blocks.unique hgiven ha
  simp only [BlockAt, not_or, not_le] at habsent
  have hall : s.allocated g = true := by simpa using habsent.1
  refine ⟨hall, habsent.2, ?_⟩
  by_contra hset
  have hfree : BlockAt s (g, i) .free := ⟨hall, habsent.2, by simpa using hset⟩
  cases h.blocks.unique hgiven hfree

theorem Inv.freed_blocks (ht : pc.taking = none) (hg : pc.giving = none) :
    Placed (BlockAt ((s.setBits g (s.bits g ||| BitVec.twoPow 32 i)).goto t pc)) := by
  obtain ⟨hall, hi, -⟩ := h.giving_block hpc
  exact blocks_free h.blocks (moves_goto rfl hpc) rfl hg ht rfl rfl ⟨hall, hi⟩ rfl

theorem Inv.or_some : Inv ((s.setBits g (s.bits g ||| BitVec.twoPow 32 i)).goto t .idle) := by
  obtain ⟨-, hi, hclear⟩ := h.giving_block hpc
  have hi' : i < 32 := Nat.lt_of_lt_of_le hi (by decide)
  set s' := (s.setBits g (s.bits g ||| BitVec.twoPow 32 i)).goto t .idle with hs'
  have hm : Moves s s' t (.orBit g i) .idle := moves_goto rfl hpc
  have hb : ∀ x, x ≠ g → s'.bits x = s.bits x := fun x hx => update_of_ne hx _ _
  have hself : s'.bits g = s.bits g ||| BitVec.twoPow 32 i := update_self _ _ _
  have hbit : ∀ x, HasBit (s.bits x) → HasBit (s'.bits x) := by
    intro x hx
    by_cases hxg : x = g
    · rw [hxg, hself]
      exact hasBit_set hi
    · rwa [hb x hxg]
  apply h.of hm
  · apply h.groups.congr
    intro x
    apply groupAt_congr hm (by simp [holds]) (by simp) (fun _ => Iff.rfl) Iff.rfl rfl
    by_cases hxg : x = g
    · rw [hxg, hself, getLsbD_set (Nat.ne_of_lt hi)]
    · rw [hb x hxg]
  · exact h.freed_blocks hpc rfl rfl
  · exact h.nodup
  · nofun
  · intro u _ x hx
    by_cases hxg : x = g
    · rw [hxg, hself]
      exact Pc.Stage.set (hxg ▸ h.ready u x hx) hi hclear
    · rw [hb x hxg]
      exact h.ready u x hx
  · nofun
  · exact fun a x hx => hbit x (h.slotted a x hx)
  · exact fun x hx => hbit x (h.listed x hx)

theorem Inv.or_last (hold : s.bits g = ~~~BitVec.twoPow 32 i) :
    Inv ((s.setBits g (s.bits g ||| BitVec.twoPow 32 i)).goto t (.reset g)) := by
  obtain ⟨hall, hi, hclear⟩ := h.giving_block hpc
  have hi' : i < 32 := Nat.lt_of_lt_of_le hi (by decide)
  have hflag : (s.bits g).getLsbD groupBlockCount = true := by
    rw [hold, BitVec.getLsbD_not, getLsbD_twoPow hi']
    simp [Nat.ne_of_lt hi, (by decide : groupBlockCount < 32)]
  have hfull : GroupAt s g .full := by
    refine ⟨hall, hflag, fun u hu => ?_⟩
    have := h.stage hu rfl i hi
    cases hclear.symm.trans this
  set s' := (s.setBits g (s.bits g ||| BitVec.twoPow 32 i)).goto t (.reset g) with hs'
  have hself : s'.bits g = s.bits g ||| BitVec.twoPow 32 i := update_self _ _ _
  have hm : Moves s s' t (.orBit g i) (.reset g) := moves_goto rfl hpc
  apply h.own
  · exact ⟨hm, nofun, by simp [holds, eq_comm], fun _ _ _ => Iff.rfl, fun _ _ => Iff.rfl, fun _ _ => rfl,
      fun x hx => update_of_ne hx _ _⟩
  · rfl
  · exact fun u _ => h.not_owned_of_at hfull (by simp)
  · exact fun a => h.not_slot_of_at hfull (by simp)
  · exact h.not_shared_of_at hfull (by simp)
  · exact hall
  · exact fun _ => rfl
  · exact h.freed_blocks hpc rfl rfl
  · exact h.nodup
  · rw [hself]
    intro j hj
    by_cases hij : i = j
    · exact hij ▸ getLsbD_set_self hi'
    · rw [getLsbD_set hij, hold, BitVec.getLsbD_not, getLsbD_twoPow hi']
      simp [hij, Nat.lt_of_lt_of_le hj (by decide : groupBlockCount ≤ 32)]
  · nofun

end OrBit

variable (h : Inv s)
include h

theorem Inv.give (hpc : s.pcs t = .idle) (hlive : s.live (g, i) = true) :
    Inv ((s.setLive (g, i) false).goto t (.orBit g i)) := by
  have hm : Moves s ((s.setLive (g, i) false).goto t (.orBit g i)) t .idle (.orBit g i) := moves_goto rfl hpc
  apply h.of hm
  · apply h.groups.congr
    intro x
    exact groupAt_congr hm Iff.rfl (by simp) (fun _ => Iff.rfl) Iff.rfl rfl rfl
  · exact blocks_give h.blocks hm hlive rfl rfl rfl rfl rfl rfl
  · exact h.nodup
  · nofun
  · exact fun u _ x hx => h.ready u x hx
  · nofun
  · exact h.slotted
  · exact h.listed

theorem Inv.take_slot (hslot : s.slots a = some g) (hq : s.pcs t = q) (hnone : q.holds = none)
    (hh : pc.holds = some g) (ht : pc.taking = q.taking) (hg : pc.giving = q.giving)
    (hst : ∀ v, HasBit v → pc.Stage v) (hf : pc ≠ .noFreeBit) : Inv ((s.setSlot a none).goto t pc) := by
  have hat : GroupAt s g (.slot a) := hslot
  apply h.acquire hat (.inr ⟨a, rfl⟩) hq hnone hh ht hg hst hf
  · intro a' x
    by_cases ha : a' = a
    · subst ha
      simp [hslot, eq_comm]
    · rw [update_of_ne ha, iff_self_and]
      rintro hx rfl
      exact h.not_slot_of_at hat (by simpa using Ne.symm ha) hx
  · intro x
    rw [iff_self_and]
    rintro hx rfl
    exact h.not_shared_of_at hat (by simp) hx
  · exact h.nodup

theorem Inv.pop {rest : List Group} (hpc : s.pcs t = .pop a) (hshared : s.shared = g :: rest) :
    Inv ({ s with shared := rest }.goto t (.setAffinity a g)) := by
  have hat : GroupAt s g .shared := by simp [GroupAt, hshared]
  have hnd := h.nodup
  rw [hshared, List.nodup_cons] at hnd
  refine h.acquire hat (.inl rfl) hpc rfl rfl rfl rfl (fun _ hv => hv) (by simp) ?_ ?_ ?_
  · intro a' x
    rw [iff_self_and]
    rintro hx rfl
    exact h.not_slot_of_at hat (by simp) hx
  · intro x
    rw [hshared, List.mem_cons, or_and_right, and_not_self_iff, false_or, iff_self_and]
    rintro hx rfl
    exact hnd.1 hx
  · exact hnd.2

theorem Inv.fill_slot (hslot : s.slots a = none) (hq : s.pcs t = q) (hholds : q.holds = some g)
    (hnr : q ≠ .reset g) (hbit : HasBit (s.bits g))
    (hblocks : Placed (BlockAt ({ s.setSlot a (some g) with live := live }.goto t .idle))) :
    Inv ({ s.setSlot a (some g) with live := live }.goto t .idle) := by
  apply h.putAway (.inr ⟨a, rfl⟩) hq hholds hnr hbit hblocks
  · intro a' x
    by_cases haa : a' = a
    · simp [setSlot, haa, hslot, eq_comm]
    · simp [setSlot, haa, Ne.symm haa]
  · simp [setSlot]
  · exact h.nodup

theorem Inv.push_shared (hq : s.pcs t = q) (hholds : q.holds = some g)
    (hnr : q ≠ .reset g) (hbit : HasBit (s.bits g))
    (hblocks : Placed (BlockAt ({ s with shared := g :: s.shared, live := live }.goto t .idle))) :
    Inv ({ s with shared := g :: s.shared, live := live }.goto t .idle) := by
  apply h.putAway (.inl rfl) hq hholds hnr hbit hblocks
  · simp
  · simp [or_comm]
  · subst hq
    exact List.nodup_cons.mpr ⟨h.not_shared_of_owned hholds, h.nodup⟩

theorem Inv.clear (hpc : s.pcs t = .clearBit a g i) :
    Inv ((s.setBits g (s.bits g &&& ~~~BitVec.twoPow 32 i)).goto t (.checkBits a g i)) := by
  have hholds : (s.pcs t).holds = some g := by rw [hpc]; rfl
  obtain ⟨hi, hbit⟩ := h.stage hpc rfl
  refine h.ownBits hpc rfl rfl nofun ?_ ?_ ?_
  · exact blocks_take h.blocks (moves_goto rfl hpc) ⟨h.allocated_of_owned hholds, hi, hbit⟩ rfl rfl rfl rfl rfl rfl
  · rw [getLsbD_clear (Nat.lt_of_lt_of_le hi (by decide)) (by decide) (Nat.ne_of_lt hi)]
    exact h.flag_of_owned hholds (by simp [hpc])
  · trivial

theorem Inv.reset (hpc : s.pcs t = .reset g) :
    Inv ((s.setBits g (~~~groupFlagFree)).goto t (.readAffinity g)) := by
  refine h.ownBits hpc rfl rfl nofun ?_ ?_ ?_
  · refine blocks_same h.blocks (moves_goto rfl hpc) rfl rfl rfl rfl fun x i hi => ?_
    simp only [State.goto, State.setBits]
    by_cases hx : x = g
    · rw [hx, update_self, getLsbD_not_flag_of_lt hi, h.stage hpc rfl i hi]
    · rw [update_of_ne hx]
  · rw [getLsbD_not_flag (by decide)]
    simp
  · rfl

theorem Inv.fill (hpc : s.pcs t = .setFlag a g i) (hzero : s.bits g = 0) :
    Inv ((s.setBits g groupFlagFree).handOut t g i) := by
  have hholds : (s.pcs t).holds = some g := by rw [hpc]; rfl
  have hall : s.allocated g = true := h.allocated_of_owned hholds
  apply h.unlink (.inl rfl) hholds
  · refine blocks_handOut h.blocks (moves_goto rfl hpc) rfl rfl rfl rfl rfl fun x j hj => ?_
    simp only [State.goto, State.setBits]
    by_cases hx : x = g
    · rw [hx, update_self, hzero, groupFlagFree, getLsbD_twoPow (by decide)]
      simpa using (Nat.ne_of_lt hj).symm
    · rw [update_of_ne hx]
  · simp only [hall, State.setBits, update_self, true_and, iff_true]
    decide
  · exact ⟨fun e => absurd hall (Bool.eq_false_iff.mp e), by simp⟩
  · exact fun x hx => update_of_ne hx _ _
  · exact fun _ _ => rfl

theorem Inv.release (hpc : s.pcs t = .release g) : Inv ((s.setAllocated g false).goto t .idle) := by
  have hholds : (s.pcs t).holds = some g := by rw [hpc]; rfl
  have hbits : s.bits g = ~~~groupFlagFree := h.stage hpc rfl
  apply h.unlink (.inr rfl) hholds
  · refine blocks_group h.blocks (moves_goto rfl hpc) rfl rfl rfl rfl (fun i hi => ?_)
      (fun _ _ => rfl) nofun
    exact ⟨h.allocated_of_owned hholds, hi, by rw [hbits, getLsbD_not_flag_of_lt hi]⟩
  · simp
  · simp
  · exact fun _ _ => rfl
  · exact fun x hx => update_of_ne hx _ _

end WinePpc64.Heap.Lfh
