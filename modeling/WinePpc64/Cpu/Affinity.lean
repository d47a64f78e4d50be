import WinePpc64.Cpu.Sound

namespace WinePpc64.Cpu

open List

def cpuSetSize : ℕ := 1024

abbrev Mask := BitVec 64

structure Thread where
  unixTid : Option ℕ
  affinity : Mask
  cpus : ℕ → Bool

variable (disabled : Bool) (t : Topology)

def affinityBitToUnixCpu (bit : ℕ) : Option ℕ :=
  if disabled then (if bit < cpuSetSize then some bit else none)
  else match t.procs[bit]? with
    | none => none
    | some r =>
      if r.group ≠ 0 then none
      else if r.index ≠ bit then none
      else if cpuSetSize ≤ r.unix then none
      else some r.unix

def affinityIsUnrestricted (mask : Mask) : Bool := mask = BitVec.allOnes 64

def namedCpus (mask : Mask) : List ℕ :=
  if affinityIsUnrestricted mask && !disabled then
    (t.procs.map Proc.unix).filter (· < cpuSetSize)
  else
    (List.range 64).filterMap fun i => if mask.getLsbD i then affinityBitToUnixCpu disabled t i else none

def setThreadAffinity (th : Thread) (mask : Mask) : Option Thread :=
  match th.unixTid with
  | none => some { th with affinity := mask }
  | some _ =>
    let named := namedCpus disabled t mask
    if named.length = 0 then none
    else some { th with cpus := fun c => named.contains c, affinity := mask }

def collectBits (p : ℕ → Bool) : Mask :=
  (List.range 64).foldl (fun mask i => if p i then mask ||| (1#64 <<< i) else mask) 0#64

def getThreadAffinity (th : Thread) : Mask :=
  let mask := match th.unixTid with
    | none => 0#64
    | some _ =>
      if t.procs.length ≠ 0 ∧ t.procs.countP (fun r => r.unix < cpuSetSize && th.cpus r.unix) = t.procs.length then
        BitVec.allOnes 64
      else collectBits fun i => ((affinityBitToUnixCpu disabled t i).map th.cpus).getD false
  if mask = 0#64 then BitVec.allOnes 64 else mask

def Names (i : ℕ) (r : Proc) : Prop := r ∈ t.procs ∧ r.group = 0 ∧ r.index = i

def ReadsBack : Prop :=
  ∀ (th th' : Thread) (mask : Mask), th.unixTid.isSome → (∃ i r, mask.getLsbD i = true ∧ Names t i r) →
    setThreadAffinity false t th mask = some th' →
    (∀ i r, Names t i r → (getThreadAffinity false t th').getLsbD i = mask.getLsbD i) ∧
    (mask = BitVec.allOnes 64 → getThreadAffinity false t th' = BitVec.allOnes 64) ∧
    (mask ≠ BitVec.allOnes 64 → ∀ c, th'.cpus c = true → ∃ i r, mask.getLsbD i = true ∧ Names t i r ∧ r.unix = c)

variable {t} {r r' : Proc} {i c : ℕ}

structure GroupZero (t : Topology) : Prop where
  first : ∀ k (r : Proc), t.procs[k]? = some r → r.group = 0 → r.index = k
  bit : ∀ r ∈ t.procs, r.group = 0 → r.index < 64

theorem Numbered.groupZero {p : Packing} (h : Numbered p) : GroupZero p.finish where
  first := fun _ _ hk hr => h.first hk hr
  bit := by
    intro r hr hz
    have hmem : r.index ∈ (p.procs.filter (·.group = 0)).map Proc.index :=
      mem_map_of_mem (mem_filter.mpr ⟨hr, by simpa using hz⟩)
    rw [h.members, mem_range] at hmem
    exact hmem.trans_le (h.small 0)

theorem groupZero_build (sys : Sysfs) : GroupZero (topologyBuild sys) := by
  by_cases hnil : onlineCpus sys = []
  · have hone : topologyBuild sys = oneCpu := by
      exact if_pos hnil
    rw [hone]
    refine ⟨fun k r hk _ => ?_, fun r hr _ => ?_⟩
    · obtain ⟨hlt, rfl⟩ := List.getElem?_eq_some_iff.mp hk
      obtain rfl := Nat.lt_one_iff.mp hlt
      rfl
    · obtain rfl := mem_singleton.mp hr
      decide
  · rw [topologyBuild_eq hnil]
    exact (packing_numbered _ _).groupZero

namespace GroupZero

variable (h : GroupZero t)
include h

theorem names_iff : Names t i r ↔ t.procs[i]? = some r ∧ r.group = 0 := by
  constructor
  · rintro ⟨hr, hz, rfl⟩
    obtain ⟨k, hk⟩ := mem_iff_getElem?.mp hr
    rw [h.first k r hk hz]
    exact ⟨hk, hz⟩
  · rintro ⟨hi, hz⟩
    exact ⟨mem_of_getElem? hi, hz, h.first i r hi hz⟩

theorem names_unique (hr : Names t i r) (hr' : Names t i r') : r = r' := by
  have hi := (h.names_iff.mp hr).1
  rw [(h.names_iff.mp hr').1] at hi
  exact (Option.some.inj hi).symm

theorem names_lt (hr : Names t i r) : i < 64 := by
  rw [← hr.2.2]
  exact h.bit r hr.1 hr.2.1

theorem bit_iff :
    affinityBitToUnixCpu false t i = some c ↔ ∃ r, Names t i r ∧ r.unix = c ∧ c < cpuSetSize := by
  simp only [h.names_iff, affinityBitToUnixCpu, Bool.false_eq_true, ↓reduceIte]
  split
  next hnone => simp [hnone]
  next r hr =>
    constructor
    · intro hc
      split at hc
      next => cases hc
      next hz =>
        split at hc
        · cases hc
        · split at hc
          next => cases hc
          next hlt =>
            cases hc
            exact ⟨r, ⟨hr, not_not.mp hz⟩, rfl, not_le.mp hlt⟩
    · rintro ⟨r', ⟨hr', hz⟩, rfl, hlt⟩
      cases hr.symm.trans hr'
      rw [if_neg (not_not.mpr hz), if_neg (not_not.mpr (h.first i r hr hz)), if_neg (not_le.mpr hlt)]

theorem mem_namedCpus {mask : Mask} (hmask : mask ≠ BitVec.allOnes 64) :
    c ∈ namedCpus false t mask ↔ ∃ i r, mask.getLsbD i = true ∧ Names t i r ∧ r.unix = c ∧ c < cpuSetSize := by
  have hexplicit : affinityIsUnrestricted mask = false := decide_eq_false hmask
  simp only [namedCpus, hexplicit, Bool.false_and, Bool.false_eq_true, ↓reduceIte, mem_filterMap]
  constructor
  · rintro ⟨i, -, hi⟩
    split at hi
    next hbit =>
      obtain ⟨r, hr⟩ := h.bit_iff.mp hi
      exact ⟨i, r, hbit, hr⟩
    next => cases hi
  · rintro ⟨i, r, hbit, hr⟩
    refine ⟨i, mem_range.mpr (h.names_lt hr.1), ?_⟩
    rw [if_pos hbit]
    exact h.bit_iff.mpr ⟨r, hr⟩

end GroupZero

theorem mem_namedCpus_allOnes :
    c ∈ namedCpus false t (BitVec.allOnes 64) ↔ ∃ r ∈ t.procs, r.unix = c ∧ c < cpuSetSize := by
  have hall : affinityIsUnrestricted (BitVec.allOnes 64) = true := decide_eq_true rfl
  simp only [namedCpus, hall, Bool.not_false, Bool.and_self, ↓reduceIte, mem_filter, mem_map, decide_eq_true_eq]
  constructor
  · rintro ⟨⟨r, hr, hc⟩, hlt⟩
    exact ⟨r, hr, hc, hlt⟩
  · rintro ⟨r, hr, hc, hlt⟩
    exact ⟨⟨r, hr, hc⟩, hlt⟩

variable {th th' : Thread} {mask : Mask}

theorem setThreadAffinity_some (htid : th.unixTid.isSome = true)
    (h : setThreadAffinity false t th mask = some th') :
    th'.unixTid.isSome = true ∧ namedCpus false t mask ≠ [] ∧ ∀ c, th'.cpus c = true ↔ c ∈ namedCpus false t mask := by
  unfold setThreadAffinity at h
  split at h
  next hnone =>
    rw [hnone] at htid
    cases htid
  next =>
    dsimp only at h
    split at h
    next => cases h
    next hne =>
      cases h
      refine ⟨htid, fun hnil => hne (by rw [hnil]; rfl), fun c => ?_⟩
      exact contains_iff_mem

theorem setThreadAffinity_isSome (th : Thread) (hc : c ∈ namedCpus false t mask) :
    ∃ th', setThreadAffinity false t th mask = some th' := by
  unfold setThreadAffinity
  split
  · exact ⟨_, rfl⟩
  · rw [if_neg fun hlen => ne_nil_of_mem hc (length_eq_zero_iff.mp hlen)]
    exact ⟨_, rfl⟩

theorem collectBits_foldl {p : ℕ → Bool} {l : List ℕ} {mask : Mask} (hi : i < 64) :
    (l.foldl (fun mask j => if p j then mask ||| (1#64 <<< j) else mask) mask).getLsbD i =
      (mask.getLsbD i || (decide (i ∈ l) && p i)) := by
  induction l generalizing mask with
  | nil => simp
  | cons j l ih =>
    rw [foldl_cons, ih]
    by_cases hj : p j = true
    · rw [if_pos hj, BitVec.getLsbD_or, ← BitVec.twoPow_eq, BitVec.getLsbD_twoPow]
      by_cases hij : j = i
      · subst hij
        simp [hi, hj]
      · simp [hij, Ne.symm hij]
    · rw [if_neg hj]
      by_cases hij : j = i
      · subst hij
        simp [Bool.eq_false_iff.mpr hj]
      · simp [Ne.symm hij]

variable {i i₀ j i' : ℕ} {r₀ s : Proc}

theorem getLsbD_collectBits (p : ℕ → Bool) (hi : i < 64) : (collectBits p).getLsbD i = p i := by
  rw [collectBits, collectBits_foldl hi]
  simp [hi]

def Everywhere (t : Topology) (th : Thread) : Prop :=
  t.procs ≠ [] ∧ ∀ r ∈ t.procs, r.unix < cpuSetSize ∧ th.cpus r.unix = true

theorem everywhere_iff :
    (t.procs.length ≠ 0 ∧ t.procs.countP (fun r => r.unix < cpuSetSize && th.cpus r.unix) = t.procs.length) ↔
      Everywhere t th := by
  rw [countP_eq_length, Everywhere, Ne, length_eq_zero_iff]
  simp only [Bool.and_eq_true, decide_eq_true_eq]

theorem getThreadAffinity_everywhere (htid : th.unixTid.isSome = true) (h : Everywhere t th) :
    getThreadAffinity false t th = BitVec.allOnes 64 := by
  obtain ⟨tid, htid⟩ := Option.isSome_iff_exists.mp htid
  unfold getThreadAffinity
  rw [htid]
  rw [if_pos (everywhere_iff.mpr h)]
  rfl

theorem getThreadAffinity_eq (htid : th.unixTid.isSome = true) (h : ¬Everywhere t th) :
    getThreadAffinity false t th =
      if collectBits (fun i => ((affinityBitToUnixCpu false t i).map th.cpus).getD false) = 0#64 then BitVec.allOnes 64
      else collectBits fun i => ((affinityBitToUnixCpu false t i).map th.cpus).getD false := by
  obtain ⟨tid, htid⟩ := Option.isSome_iff_exists.mp htid
  unfold getThreadAffinity
  rw [htid]
  rw [if_neg fun hall => h (everywhere_iff.mp hall)]

namespace GroupZero

variable (h : GroupZero t)
include h

theorem reads_iff : ((affinityBitToUnixCpu false t i).map th.cpus).getD false = true ↔
    ∃ r, Names t i r ∧ r.unix < cpuSetSize ∧ th.cpus r.unix = true := by
  constructor
  · intro hi
    cases hcpu : affinityBitToUnixCpu false t i with
    | none =>
      rw [hcpu] at hi
      cases hi
    | some c =>
      rw [hcpu] at hi
      obtain ⟨r, hr, rfl, hlt⟩ := h.bit_iff.mp hcpu
      exact ⟨r, hr, hlt, hi⟩
  · rintro ⟨r, hr, hlt, hset⟩
    rw [h.bit_iff.mpr ⟨r, hr, rfl, hlt⟩]
    exact hset

theorem getThreadAffinity_bit (htid : th.unixTid.isSome = true) (hnot : ¬Everywhere t th)
    (hs : Names t j s) (hlt : s.unix < cpuSetSize) (hset : th.cpus s.unix = true) (hi : i < 64) :
    (getThreadAffinity false t th).getLsbD i = true ↔
      ∃ r, Names t i r ∧ r.unix < cpuSetSize ∧ th.cpus r.unix = true := by
  have hne : collectBits (fun i => ((affinityBitToUnixCpu false t i).map th.cpus).getD false) ≠ 0#64 := by
    intro hzero
    have hj := getLsbD_collectBits (fun i => ((affinityBitToUnixCpu false t i).map th.cpus).getD false) (h.names_lt hs)
    rw [hzero, h.reads_iff.mpr ⟨s, hs, hlt, hset⟩] at hj
    simp at hj
  rw [getThreadAffinity_eq htid hnot, if_neg hne, getLsbD_collectBits _ hi]
  exact h.reads_iff

theorem getThreadAffinity_outside (htid : th.unixTid.isSome = true) (hnot : ¬Everywhere t th)
    (hnone : ∀ i r, Names t i r → r.unix < cpuSetSize → th.cpus r.unix = false) :
    getThreadAffinity false t th = BitVec.allOnes 64 := by
  rw [getThreadAffinity_eq htid hnot, if_pos]
  apply BitVec.eq_of_getLsbD_eq
  intro i hi
  rw [getLsbD_collectBits _ hi, BitVec.getLsbD_zero, ← Bool.not_eq_true, h.reads_iff]
  rintro ⟨r, hr, hlt, hset⟩
  rw [hnone i r hr hlt] at hset
  cases hset

end GroupZero

def Expressible (t : Topology) : Prop :=
  (∀ i r, Names t i r → cpuSetSize ≤ r.unix) ∨
    ((∀ i r, Names t i r → r.unix < cpuSetSize) ∧
      (∀ i r i' r', Names t i r → Names t i' r' → r.unix = r'.unix → i = i') ∧
      ((∀ r ∈ t.procs, r.unix < cpuSetSize) ∨ ∀ i < 64, ∃ r, Names t i r))

theorem exists_mask (i j : ℕ) : ∃ mask : Mask, mask ≠ BitVec.allOnes 64 ∧
    ∀ k < 64, mask.getLsbD k = true ↔ k = i ∨ k = j := by
  have hbits (k : ℕ) (hk : k < 64) : (collectBits fun k => k = i || k = j).getLsbD k = true ↔ k = i ∨ k = j := by
    rw [getLsbD_collectBits _ hk]
    simp
  refine ⟨_, fun hall => ?_, hbits⟩
  rw [hall] at hbits
  have h₀ := (hbits 0 (by decide)).mp (by decide)
  have h₁ := (hbits 1 (by decide)).mp (by decide)
  have h₂ := (hbits 2 (by decide)).mp (by decide)
  omega

namespace GroupZero

variable (h : GroupZero t)
include h

theorem cpus_explicit (htid : th.unixTid.isSome = true)
    (hmask : mask ≠ BitVec.allOnes 64) (hset : setThreadAffinity false t th mask = some th') :
    th'.cpus c = true ↔ ∃ i r, mask.getLsbD i = true ∧ Names t i r ∧ r.unix = c ∧ c < cpuSetSize := by
  rw [(setThreadAffinity_some htid hset).2.2, h.mem_namedCpus hmask]

variable (hback : ReadsBack t)
include hback

theorem pinned (h₀ : Names t i₀ r₀) (hlt₀ : r₀.unix < cpuSetSize) :
    ∃ th' : Thread, th'.unixTid.isSome = true ∧ th'.cpus r₀.unix = true ∧
      ∀ k r, Names t k r → ((getThreadAffinity false t th').getLsbD k = true ↔ k = i₀ ∨ k = j) := by
  obtain ⟨mask, hmask, hbits⟩ := exists_mask i₀ j
  have hbit : mask.getLsbD i₀ = true := (hbits i₀ (h.names_lt h₀)).mpr (.inl rfl)
  have hnamed := (h.mem_namedCpus hmask).mpr ⟨i₀, r₀, hbit, h₀, rfl, hlt₀⟩
  obtain ⟨th', hset⟩ := setThreadAffinity_isSome ⟨some 1, 0, fun _ => false⟩ hnamed
  obtain ⟨htid, -, hcpus⟩ := setThreadAffinity_some rfl hset
  refine ⟨th', htid, (hcpus _).mpr hnamed, fun k r hr => ?_⟩
  rw [(hback _ _ mask rfl ⟨i₀, r₀, hbit, h₀⟩ hset).1 k r hr, hbits k (h.names_lt hr)]

theorem expressible_of_readsBack (h₀ : Names t i₀ r₀)
    (hlt₀ : r₀.unix < cpuSetSize) (hr : Names t i r) : r.unix < cpuSetSize := by
  by_contra hge
  obtain ⟨th', htid, hon, hread⟩ := h.pinned hback h₀ hlt₀
  have hbit := (hread i r hr).mpr (.inr rfl)
  rw [h.getThreadAffinity_bit htid (fun hall => hge (hall.2 r hr.1).1) h₀ hlt₀ hon (h.names_lt hr)] at hbit
  obtain ⟨s, hs, hlt, -⟩ := hbit
  rw [h.names_unique hr hs] at hge
  exact hge hlt

theorem injective_of_readsBack (hr : Names t i r)
    (hlt : r.unix < cpuSetSize) (hr' : Names t i' r') (heq : r.unix = r'.unix) : i = i' := by
  obtain ⟨th', htid, hon, hread⟩ := h.pinned hback hr hlt
  have hi' := h.names_lt hr'
  refine ((hread i' r' hr').mp ?_).elim Eq.symm Eq.symm
  by_cases hall : Everywhere t th'
  · rw [getThreadAffinity_everywhere htid hall, BitVec.getLsbD_allOnes]
    exact decide_eq_true hi'
  · exact (h.getThreadAffinity_bit htid hall hr hlt hon hi').mpr ⟨r', hr', heq ▸ hlt, heq ▸ hon⟩

theorem complete_of_readsBack (h₀ : Names t i₀ r₀)
    (hlt₀ : r₀.unix < cpuSetSize) : (∀ r ∈ t.procs, r.unix < cpuSetSize) ∨ ∀ i < 64, ∃ r, Names t i r := by
  by_contra hnot
  rw [not_or] at hnot
  have hmem := mem_namedCpus_allOnes.mpr ⟨r₀, h₀.1, rfl, hlt₀⟩
  obtain ⟨th', hset⟩ := setThreadAffinity_isSome ⟨some 1, 0, fun _ => false⟩ hmem
  obtain ⟨htid, -, hcpus⟩ := setThreadAffinity_some rfl hset
  have hbit₀ : (BitVec.allOnes 64).getLsbD i₀ = true := by
    rw [BitVec.getLsbD_allOnes]
    exact decide_eq_true (h.names_lt h₀)
  have hones := (hback _ _ _ rfl ⟨i₀, r₀, hbit₀, h₀⟩ hset).2.1 rfl
  refine hnot.2 fun i hi => ?_
  have hbit : (getThreadAffinity false t th').getLsbD i = true := by
    rw [hones, BitVec.getLsbD_allOnes]
    exact decide_eq_true hi
  have hpart : ¬Everywhere t th' := fun hall => hnot.1 fun r hr => (hall.2 r hr).1
  obtain ⟨r, hr, -⟩ := (h.getThreadAffinity_bit htid hpart h₀ hlt₀ ((hcpus _).mpr hmem) hi).mp hbit
  exact ⟨r, hr⟩

omit hback

theorem agree_explicit (hplace : ∀ i r, Names t i r → r.unix < cpuSetSize)
    (hinj : ∀ i r i' r', Names t i r → Names t i' r' → r.unix = r'.unix → i = i')
    (htid : th.unixTid.isSome = true) (hmask : mask ≠ BitVec.allOnes 64)
    (hset : setThreadAffinity false t th mask = some th') (hj : mask.getLsbD j = true)
    (hs : Names t j s) (hr : Names t i r) :
    (getThreadAffinity false t th').getLsbD i = mask.getLsbD i := by
  have htid' := (setThreadAffinity_some htid hset).1
  have hcpus : th'.cpus r.unix = true ↔ mask.getLsbD i = true := by
    rw [h.cpus_explicit htid hmask hset]
    constructor
    · rintro ⟨k, s, hk, hs, heq, -⟩
      rw [← hinj k s i r hs hr heq]
      exact hk
    · intro hi
      exact ⟨i, r, hi, hr, rfl, hplace i r hr⟩
  rw [Bool.eq_iff_iff, ← hcpus]
  by_cases hall : Everywhere t th'
  · rw [getThreadAffinity_everywhere htid' hall, BitVec.getLsbD_allOnes]
    exact iff_of_true (decide_eq_true (h.names_lt hr)) (hall.2 r hr.1).2
  have hon := (h.cpus_explicit htid hmask hset).mpr ⟨j, s, hj, hs, rfl, hplace j s hs⟩
  rw [h.getThreadAffinity_bit htid' hall hs (hplace j s hs) hon (h.names_lt hr)]
  constructor
  · rintro ⟨r', hr', -, hset⟩
    rwa [h.names_unique hr hr']
  · intro hset
    exact ⟨r, hr, hplace i r hr, hset⟩

theorem reads_allOnes (hexp : Expressible t) (htid : th.unixTid.isSome = true)
    (hset : setThreadAffinity false t th (BitVec.allOnes 64) = some th') (hs : Names t j s) :
    getThreadAffinity false t th' = BitVec.allOnes 64 := by
  obtain ⟨htid', -, hcpus⟩ := setThreadAffinity_some htid hset
  have hon (r : Proc) (hr : r ∈ t.procs) (hlt : r.unix < cpuSetSize) : th'.cpus r.unix = true :=
    (hcpus _).mpr (mem_namedCpus_allOnes.mpr ⟨r, hr, rfl, hlt⟩)
  by_cases hall : Everywhere t th'
  · exact getThreadAffinity_everywhere htid' hall
  rcases hexp with hnone | ⟨hplace, -, hfull | hbits⟩
  · exact h.getThreadAffinity_outside htid' hall fun i r hr hlt => absurd hlt (not_lt.mpr (hnone i r hr))
  · exact absurd ⟨ne_nil_of_mem hs.1, fun r hr => ⟨hfull r hr, hon r hr (hfull r hr)⟩⟩ hall
  apply BitVec.eq_of_getLsbD_eq
  intro i hi
  obtain ⟨r, hr⟩ := hbits i hi
  have hread := (h.getThreadAffinity_bit htid' hall hs (hplace j s hs) (hon s hs.1 (hplace j s hs)) hi).mpr
    ⟨r, hr, hplace i r hr, hon r hr.1 (hplace i r hr)⟩
  rw [hread, BitVec.getLsbD_allOnes]
  exact (decide_eq_true hi).symm

theorem readsBack_iff : ReadsBack t ↔ Expressible t := by
  constructor
  · intro hback
    by_cases hnone : ∀ i r, Names t i r → cpuSetSize ≤ r.unix
    · exact .inl hnone
    push Not at hnone
    obtain ⟨i₀, r₀, h₀, hlt₀⟩ := hnone
    have hplace (i : ℕ) (r : Proc) (hr : Names t i r) := h.expressible_of_readsBack hback h₀ hlt₀ hr
    exact .inr ⟨hplace, fun i r i' r' hr hr' => h.injective_of_readsBack hback hr (hplace i r hr) hr',
      h.complete_of_readsBack hback h₀ hlt₀⟩
  · rintro hexp th th' mask htid ⟨j, s, hj, hs⟩ hset
    by_cases hmask : mask = BitVec.allOnes 64
    · subst hmask
      have hones := h.reads_allOnes hexp htid hset hs
      exact ⟨fun i r _ => by rw [hones], fun _ => hones, absurd rfl⟩
    refine ⟨?_, fun hones => absurd hones hmask, ?_⟩
    · intro i r hr
      rcases hexp with hnone | ⟨hplace, hinj, -⟩
      · -- no bit of the mask was translated, so the call failed
        obtain ⟨-, hne, -⟩ := setThreadAffinity_some htid hset
        obtain ⟨c, hc⟩ := exists_mem_of_ne_nil _ hne
        obtain ⟨k, s, -, hs, rfl, hlt⟩ := (h.mem_namedCpus hmask).mp hc
        exact absurd hlt (not_lt.mpr (hnone k s hs))
      · exact h.agree_explicit hplace hinj htid hmask hset hj hs hr
    · intro _ c hc
      obtain ⟨k, s, hk, hs, heq, -⟩ := (h.cpus_explicit htid hmask hset).mp hc
      exact ⟨k, s, hk, hs, heq⟩

end GroupZero

theorem Kernel.expressible {sys : Sysfs} {online : List ℕ} {nodes : List (ℕ × List ℕ)} (h : Kernel sys online nodes)
    (hne : online ≠ []) (hlt : ∀ c ∈ online, c < cpuSetSize) : Expressible (topologyBuild sys) := by
  have hmap := (h.numbers hne).mapping
  have hplace (r : Proc) (hr : r ∈ (topologyBuild sys).procs) : r.unix < cpuSetSize := hlt _ (hmap.online r hr)
  refine .inr ⟨fun _ r hr => hplace r hr.1, ?_, .inl hplace⟩
  intro i r i' r' hr hr' heq
  have hi := ((groupZero_build sys).names_iff.mp hr).1
  have hi' := ((groupZero_build sys).names_iff.mp hr').1
  have hfrom := (hmap.inverse r.unix i).mpr (by rw [hi]; rfl)
  rw [heq, (hmap.inverse r'.unix i').mpr (by rw [hi']; rfl)] at hfrom
  exact (Option.some.inj hfrom).symm

/-- Affinity reads back if the CPUs of group 0 each have a place in a `cpu_set_t`. -/
theorem affinity_reads_back_iff (sys : Sysfs) :
    (ReadsBack (topologyBuild sys) ↔ Expressible (topologyBuild sys)) ∧
    (∀ online nodes, Kernel sys online nodes → online ≠ [] → (∀ c ∈ online, c < cpuSetSize) →
      ReadsBack (topologyBuild sys)) ∧
    ∀ (th th' : Thread) (mask : Mask), th.unixTid.isSome → mask ≠ BitVec.allOnes 64 →
      setThreadAffinity false (topologyBuild sys) th mask = some th' →
      ∀ c, th'.cpus c = true → ∃ i r, mask.getLsbD i = true ∧ Names (topologyBuild sys) i r ∧ r.unix = c := by
  have hzero := groupZero_build sys
  refine ⟨hzero.readsBack_iff, fun online nodes h hne hlt => ?_, fun th th' mask htid hmask hset c hc => ?_⟩
  · exact hzero.readsBack_iff.mpr (h.expressible hne hlt)
  · obtain ⟨k, s, hk, hs, heq, -⟩ := (hzero.cpus_explicit htid hmask hset).mp hc
    exact ⟨k, s, hk, hs, heq⟩

theorem affinity_reads_back_iff_pair : ReadsBack (topologyBuild (twoNodes [0, 8] [0, 4] [8])) :=
  (affinity_reads_back_iff _).2.1 _ _ (kernel_twoNodes (by decide) (by decide) (by decide) (by decide) (by decide)
    (by decide) (by simp) (by decide +kernel)) (by decide) (by decide)

theorem affinity_of_large_cpu_lost : ∃ (sys : Sysfs) (th th' th'' : Thread), th.unixTid.isSome = true ∧
    setThreadAffinity false (topologyBuild sys) th 3#64 = some th' ∧
    getThreadAffinity false (topologyBuild sys) th' = 1#64 ∧ Names (topologyBuild sys) 1 ⟨2000, 0, 1, 1⟩ ∧
    setThreadAffinity false (topologyBuild sys) th (BitVec.allOnes 64) = some th'' ∧
    getThreadAffinity false (topologyBuild sys) th'' = 1#64 := by
  have hprocs : (topologyBuild (twoNodes [0, 2000] [0] [2000])).procs = [⟨0, 0, 0, 0⟩, ⟨2000, 0, 1, 1⟩] := by
    decide +kernel
  refine ⟨twoNodes [0, 2000] [0] [2000], ⟨some 1, 0, fun _ => false⟩, ⟨some 1, 3#64, fun c => [0].contains c⟩,
    ⟨some 1, BitVec.allOnes 64, [0].contains⟩, rfl, ?_, ?_, ⟨?_, rfl, rfl⟩, ?_, ?_⟩
  · rfl
  · decide +kernel
  · rw [hprocs]
    simp
  · rfl
  · decide +kernel

end WinePpc64.Cpu
