import WinePpc64.Cpu.Topology

namespace WinePpc64.Cpu

open List Nat Packing

def Packing.units (p : Packing) : List ℕ := p.procs.map Proc.unix

@[simp] theorem Packing.units_newGroup (p : Packing) : p.newGroup.units = p.units := rfl

@[simp] theorem Packing.length_units {p : Packing} : p.units.length = p.procs.length := length_map _

variable {p : Packing} {c : ℕ}

theorem Packing.mem_units : c ∈ p.units ↔ ∃ r ∈ p.procs, r.unix = c := mem_map

section Share

theorem nodeShare_pos {placed : ℕ} (h : placed ≠ 0) : 0 < nodeShare placed := by
  apply Nat.div_pos
  · omega
  · exact Nat.lt_of_lt_of_le Nat.zero_lt_one (Nat.le_max_left _ _)

theorem nodeShare_fits {placed : ℕ} (h : placed ≤ cpusPerGroup) : nodeShare placed = placed := by
  have hg : nodeGroups placed = 1 := by
    unfold nodeGroups cpusPerGroup at *
    omega
  simp [nodeShare, hg]

theorem nodeShare_le (placed : ℕ) : nodeShare placed ≤ cpusPerGroup := by
  have hpos : 0 < nodeGroups placed := Nat.lt_of_lt_of_le Nat.zero_lt_one (Nat.le_max_left _ _)
  have hcover : placed ≤ cpusPerGroup * nodeGroups placed := by
    unfold nodeGroups cpusPerGroup
    omega
  apply Nat.lt_succ_iff.mp
  apply (Nat.div_lt_iff_lt_mul hpos).mpr
  rw [succ_mul]
  omega

theorem half_lt_nodeShare {placed : ℕ} (h : cpusPerGroup < placed) : cpusPerGroup < 2 * nodeShare placed := by
  have hgroups : nodeGroups placed = (placed + 63) / 64 := by
    unfold nodeGroups cpusPerGroup at *
    omega
  have hpos : 0 < nodeGroups placed := by omega
  have hcover : placed ≤ nodeShare placed * nodeGroups placed := by
    have := lt_div_mul_add (a := placed + nodeGroups placed - 1) hpos
    unfold nodeShare
    omega
  -- with half a group a share, the groups would not hold the node
  by_contra hle
  have hmul := Nat.mul_le_mul_right (nodeGroups placed) (show nodeShare placed ≤ 32 by
    unfold cpusPerGroup at hle
    omega)
  unfold cpusPerGroup at h
  omega

theorem pred_share {share k : ℕ} (hk : k ≠ 0) :
    (k % share = 0 → k / share = (k - 1) / share + 1) ∧
      (k % share ≠ 0 → k / share = (k - 1) / share ∧ k % share = (k - 1) % share + 1) := by
  obtain ⟨j, rfl⟩ := exists_eq_succ_of_ne_zero hk
  have hdiv := Nat.succ_div (a := j) (b := share)
  have hj := div_add_mod j share
  have hj' := div_add_mod (j + 1) share
  rw [succ_sub_one]
  constructor
  · intro hmod
    rw [hdiv, if_pos (dvd_of_mod_eq_zero hmod)]
  intro hmod
  have hsame : (j + 1) / share = j / share := by
    rw [hdiv, if_neg fun hdvd => hmod (mod_eq_zero_of_dvd hdvd), Nat.add_zero]
  refine ⟨hsame, ?_⟩
  rw [hsame] at hj'
  linarith

end Share

structure Stands (placed g₀ in₀ k : ℕ) (p : Packing) : Prop where
  fits : in₀ = 0 ∨ in₀ + placed ≤ cpusPerGroup
  upTo : k ≤ placed
  group : p.g = g₀ + (k - 1) / nodeShare placed
  inGroup : p.inG = if k = 0 then in₀ else in₀ + (k - 1) % nodeShare placed + 1

variable {placed in₀ g₀ k : ℕ}

variable (h : Stands placed g₀ in₀ k p)
include h

theorem Stands.whole (hin : in₀ ≠ 0) : in₀ + placed ≤ cpusPerGroup ∧ nodeShare placed = placed := by
  rcases h.fits with hz | hfit
  · exact absurd hz hin
  · exact ⟨hfit, nodeShare_fits (by omega)⟩

theorem Stands.split_iff (hk : k < placed) :
    (p.inG = cpusPerGroup ∨ (k ≠ 0 ∧ k % nodeShare placed = 0 ∧ k < placed)) ↔ k ≠ 0 ∧ k % nodeShare placed = 0 := by
  constructor
  · rintro (hfull | ⟨hk₀, hmod, -⟩)
    · have hfits := h.fits
      have hin := h.inGroup
      have hshare := nodeShare_le placed
      have hpos := nodeShare_pos (show placed ≠ 0 by omega)
      split at hin
      next h₀ =>
        omega
      next h₀ =>
        refine ⟨h₀, ?_⟩
        by_cases hz : in₀ = 0
        · by_contra hmod
          have hnext := (pred_share h₀).2 hmod
          have := mod_lt k hpos
          omega
        · obtain ⟨-, hwhole⟩ := h.whole hz
          rw [mod_eq_of_lt (by omega)] at hin
          omega
    · exact ⟨hk₀, hmod⟩
  · rintro ⟨hk₀, hmod⟩
    exact .inr ⟨hk₀, hmod, hk⟩

omit h in
theorem Stands.begin (h : p.inG = 0 ∨ p.inG + placed ≤ cpusPerGroup) : Stands placed p.g p.inG 0 p where
  fits := h
  upTo := Nat.zero_le _
  group := by simp
  inGroup := rfl

theorem Stands.join (hk : k < placed)
    (hsplit : ¬(k ≠ 0 ∧ k % nodeShare placed = 0)) (cpu node : ℕ) : Stands placed g₀ in₀ (k + 1) (p.place cpu node) := by
  refine ⟨h.fits, hk, ?_, ?_⟩
  · show p.g = _
    rw [h.group, Nat.add_sub_cancel]
    by_cases hz : k = 0
    · rw [hz]
    · rw [((pred_share hz).2 fun hmod => hsplit ⟨hz, hmod⟩).1]
  · show p.inG + 1 = _
    rw [h.inGroup, if_neg (succ_ne_zero k), Nat.add_sub_cancel]
    by_cases hz : k = 0
    · rw [if_pos hz, hz, zero_mod]
    · rw [if_neg hz, ((pred_share hz).2 fun hmod => hsplit ⟨hz, hmod⟩).2]
      omega

theorem Stands.open (hk : k < placed) (hsplit : k ≠ 0 ∧ k % nodeShare placed = 0) (cpu node : ℕ) :
    Stands placed g₀ in₀ (k + 1) (p.newGroup.place cpu node) := by
  have hempty : in₀ = 0 := by
    by_contra hin
    rw [(h.whole hin).2, mod_eq_of_lt hk] at hsplit
    exact hsplit.1 hsplit.2
  refine ⟨h.fits, hk, ?_, ?_⟩
  · show p.g + 1 = _
    rw [h.group, Nat.add_sub_cancel, (pred_share hsplit.1).1 hsplit.2, Nat.add_assoc]
  · show 0 + 1 = _
    rw [if_neg (succ_ne_zero k), Nat.add_sub_cancel, hsplit.2, hempty]

/-- What the loop over a node's CPUs does: the first `m` of the CPUs `todo` get the next indices, in even
shares, and it stops early only for want of an index or of a group. -/
structure NodePlaced (placed g₀ in₀ k : ℕ) (todo : List ℕ) (p q : Packing) : Prop where
  extra : ∃ m extra, m ≤ todo.length ∧ q.procs = p.procs ++ extra ∧ extra.map Proc.unix = todo.take m ∧
    extra.map Proc.group = (List.range' k m).map (g₀ + · / nodeShare placed) ∧
    Stands placed g₀ in₀ (k + m) q ∧
    (m = todo.length ∨ maxCpus ≤ q.procs.length ∨
      (maxCpuGroups ≤ q.g + 1 ∧ k + m ≠ 0 ∧ (k + m) % nodeShare placed = 0 ∧ k + m < placed))

theorem NodePlaced.nothing {todo : List ℕ} (hstop : todo = [] ∨ maxCpus ≤ p.procs.length ∨
      (maxCpuGroups ≤ p.g + 1 ∧ k ≠ 0 ∧ k % nodeShare placed = 0 ∧ k < placed)) :
    NodePlaced placed g₀ in₀ k todo p p := by
  refine ⟨0, [], Nat.zero_le _, (append_nil _).symm, rfl, rfl, h, ?_⟩
  rcases hstop with rfl | hstop
  · exact .inl rfl
  · exact .inr hstop

omit h

variable {q p' : Packing} {r : Proc}

theorem NodePlaced.cons {todo : List ℕ}
    (hp : p'.procs = p.procs ++ [r]) (hr : r.unix = c) (hg : r.group = g₀ + k / nodeShare placed)
    (h : NodePlaced placed g₀ in₀ (k + 1) todo p' q) : NodePlaced placed g₀ in₀ k (c :: todo) p q := by
  obtain ⟨m, extra, hm, hq, hunix, hgroup, hstands, hstop⟩ := h
  have hkm : k + (m + 1) = k + 1 + m := by omega
  refine ⟨m + 1, r :: extra, succ_le_succ hm, ?_, ?_, ?_, hkm ▸ hstands, ?_⟩
  · rw [hq, hp, append_assoc]
    rfl
  · rw [map_cons, hunix, hr, take_succ_cons]
  · rw [map_cons, hgroup, hg, range'_succ, map_cons]
  · rw [hkm]
    rcases hstop with rfl | hstop
    · exact .inl rfl
    · exact .inr hstop

theorem placeNode_spec {online : List ℕ} (hsmall : ∀ c ∈ online, c < maxUnixCpu)
    (node : ℕ) (cpus : List ℕ) (k : ℕ) (p : Packing) (hstands : Stands placed g₀ in₀ k p)
    (hcount : k + (cpus.filter (· ∈ online)).length = placed) :
    NodePlaced placed g₀ in₀ k (cpus.filter (· ∈ online)) p (placeNode online placed (nodeShare placed) node k cpus p) := by
  induction cpus generalizing k p with
  | nil => exact .nothing hstands (.inl rfl)
  | cons c cs ih =>
    unfold placeNode
    split
    next hoff =>
      rw [filter_cons_of_neg (by simpa using hoff)] at hcount ⊢
      exact ih k p hstands hcount
    next hon =>
      have hc : c ∈ online := not_not.mp hon
      rw [filter_cons_of_pos (by simpa using hc)] at hcount ⊢
      rw [length_cons] at hcount
      rw [if_neg (not_le.mpr (hsmall c hc))]
      have hk : k < placed := by omega
      split
      next hmax => exact .nothing hstands (.inr (.inl hmax))
      next =>
        split
        next hsplit =>
          have hsplit := (hstands.split_iff hk).mp hsplit
          split
          next hlast => exact .nothing hstands (.inr (.inr ⟨hlast, hsplit.1, hsplit.2, hk⟩))
          next =>
            have hstep := hstands.open hk hsplit c node
            exact .cons rfl rfl hstep.group (ih (k + 1) _ hstep (by omega))
        next hjoin =>
          have hstep := hstands.join hk (fun h => hjoin ((hstands.split_iff hk).mpr h)) c node
          exact .cons rfl rfl hstep.group (ih (k + 1) _ hstep (by omega))

def GroupsNeeded (p : Packing) : Prop := p.g = 0 ∨ cpusPerGroup < p.procs.length

def Filled (p : Packing) : Prop := p.inG ≠ 0 ∨ p.procs = []

structure Swept (cpus : List ℕ) (p q : Packing) : Prop where
  extra : ∃ extra, q.procs = p.procs ++ extra ∧ (∀ r ∈ extra, r.unix ∈ cpus ∧ p.g ≤ r.group) ∧
    (maxCpus ≤ p.procs.length → extra = [])
  nodup : p.units.Nodup → q.units.Nodup
  needed : GroupsNeeded p → GroupsNeeded q
  filled : Filled p → Filled q
  stop : (∀ c ∈ cpus, c < maxUnixCpu → c ∈ q.units) ∨ maxCpus ≤ q.procs.length ∨ maxCpuGroups ≤ q.g + 1

variable {cpus : List ℕ}

theorem Swept.nothing (h : cpus = [] ∨ maxCpus ≤ p.procs.length ∨ maxCpuGroups ≤ p.g + 1) : Swept cpus p p := by
  refine ⟨⟨[], by simp, by simp, fun _ => rfl⟩, id, id, id, ?_⟩
  rcases h with rfl | h
  · exact .inl (by simp)
  · exact .inr h

theorem Swept.mem_units (h : Swept cpus p q) (hc : c ∈ p.units) : c ∈ q.units := by
  obtain ⟨extra, hq, -⟩ := h.extra
  rw [units, hq, map_append]
  exact mem_append_left _ hc

theorem Swept.skip (hc : c < maxUnixCpu → c ∈ p.units) (h : Swept cpus p q) : Swept (c :: cpus) p q := by
  obtain ⟨extra, hq, hextra, hfull⟩ := h.extra
  refine { h with extra := ⟨extra, hq, fun r hr => ⟨mem_cons_of_mem _ (hextra r hr).1, (hextra r hr).2⟩, hfull⟩, stop := ?_ }
  rcases h.stop with hall | hstop
  · left
    intro d hd hlt
    rcases mem_cons.mp hd with rfl | hd
    · exact h.mem_units (hc hlt)
    · exact hall d hd hlt
  · exact .inr hstop

theorem Swept.cons (h : Swept cpus p' q)
    (hp : p'.procs = p.procs ++ [r]) (hr : r.unix = c) (hg : r.group = p'.g) (hle : p.g ≤ p'.g) (hc : c ∉ p.units)
    (hmax : p.procs.length < maxCpus) (hin : p'.inG ≠ 0) (hneeded : GroupsNeeded p → GroupsNeeded p') :
    Swept (c :: cpus) p q := by
  have hunits : p'.units = p.units ++ [c] := by rw [units, hp, map_append, ← hr]; rfl
  obtain ⟨extra, hq, hextra, -⟩ := h.extra
  refine ⟨⟨r :: extra, ?_, ?_, fun hge => absurd hmax (not_lt.mpr hge)⟩, ?_, fun hn => h.needed (hneeded hn),
    fun _ => h.filled (.inl hin), ?_⟩
  · rw [hq, hp, append_assoc]
    rfl
  · intro s hs
    rcases mem_cons.mp hs with rfl | hs
    · exact ⟨hr ▸ mem_cons_self, hg ▸ hle⟩
    · exact ⟨mem_cons_of_mem _ (hextra s hs).1, hle.trans (hextra s hs).2⟩
  · intro hnd
    apply h.nodup
    rw [hunits]
    exact hnd.append (nodup_singleton c) (disjoint_singleton.mpr hc)
  · rcases h.stop with hall | hstop
    · left
      intro d hd hlt
      rcases mem_cons.mp hd with rfl | hd
      · exact h.mem_units (by simp [hunits])
      · exact hall d hd hlt
    · exact .inr hstop

theorem Numbered.mem_units (h : Numbered p) : c ∈ p.units ↔ (p.fromUnix c).isSome := by
  rw [Packing.mem_units]
  constructor
  · rintro ⟨r, hr, rfl⟩
    exact h.covered r hr
  intro hc
  obtain ⟨k, hk⟩ := Option.isSome_iff_exists.mp hc
  obtain ⟨r, hr, hu⟩ := h.mapped c k hk
  exact ⟨r, mem_of_getElem? hr, hu⟩

theorem sweep_spec (cpus : List ℕ) (p : Packing) (h : Numbered p) : Swept cpus p (sweep cpus p) := by
  induction cpus generalizing p with
  | nil => exact .nothing (.inl rfl)
  | cons c cs ih =>
    unfold sweep
    split
    next hskip =>
      apply (ih p h).skip
      intro hlt
      rcases hskip with hge | hsome
      · exact absurd hlt (not_lt.mpr hge)
      · exact h.mem_units.mpr hsome
    next hc =>
      have hnew : c ∉ p.units := fun hmem => hc (.inr (h.mem_units.mp hmem))
      split
      next hmax => exact .nothing (.inr (.inl hmax))
      next hmax =>
        have hmax := not_le.mp hmax
        split
        next hfull =>
          split
          next hlast => exact .nothing (.inr (.inr hlast))
          next hg =>
            have hn := (h.newGroup (not_le.mp hg) (by rw [hfull]; decide)).place (show 0 < cpusPerGroup by decide) hmax
              c (p.nodeIds.headD 0)
            apply Swept.cons (p := p) (ih _ hn) rfl rfl rfl (le_succ _) hnew hmax (succ_ne_zero _)
            -- the full group is among the processors
            intro _
            right
            have := countP_le_length (p := fun r => decide (r.group = p.g)) (l := p.procs)
            rw [← h.size, h.current] at this
            simp only [place, newGroup, length_append, length_singleton]
            omega
        next hjoin =>
          have hroom : p.inG < cpusPerGroup := lt_of_le_of_ne h.room hjoin
          have hn := h.place hroom hmax c (p.nodeIds.headD 0)
          apply (ih _ hn).cons rfl rfl rfl (Nat.le_refl _) hnew hmax (succ_ne_zero _)
          rintro (hz | hlt)
          · exact .inl hz
          · right
            simp only [place, length_append, length_singleton]
            omega

end WinePpc64.Cpu
