import WinePpc64.Cpu.Nodes

namespace WinePpc64.Cpu

open List Packing

abbrev onlineOf (online cpus : List ℕ) : List ℕ := cpus.filter (· ∈ online)

variable (online : List ℕ) {p : Packing}

def Fits (online cpus : List ℕ) : Prop := (onlineOf online cpus).length ≤ cpusPerGroup

structure Walk (online : List ℕ) (done : List (ℕ × List ℕ)) (p : Packing) : Prop where
  nodup : p.units.Nodup
  origin : ∀ c ∈ p.units, c ∈ online ∧ ∃ w ∈ done, c ∈ w.2
  needed : GroupsNeeded p
  filled : Filled p
  together : ∀ w ∈ done, Fits online w.2 → ∃ γ, ∀ r ∈ p.procs, r.unix ∈ w.2 → r.group = γ
  complete : ∀ w ∈ done, Fits online w.2 → (∀ c ∈ w.2, c ∈ online → c ∈ p.units) ∨ maxCpus ≤ p.procs.length

theorem Walk.start : Walk online [] Packing.start where
  nodup := nodup_nil
  origin := fun _ h => by cases h
  needed := .inl rfl
  filled := .inr rfl
  together := fun _ h => by cases h
  complete := fun _ h => by cases h

variable {p : Packing} {online : List ℕ} {w : ℕ × List ℕ}

theorem Walk.skip {done : List (ℕ × List ℕ)} (h : Walk online done p)
    (hw : ∀ c ∈ w.2, c ∉ online) : Walk online (done ++ [w]) p where
  nodup := h.nodup
  origin := by
    intro c hc
    obtain ⟨hon, v, hv, hcv⟩ := h.origin c hc
    exact ⟨hon, v, mem_append_left _ hv, hcv⟩
  needed := h.needed
  filled := h.filled
  together := by
    intro v hv hfits
    rcases mem_append.mp hv with hv | hv
    · exact h.together v hv hfits
    · obtain rfl := mem_singleton.mp hv
      refine ⟨0, fun r hr hrv => ?_⟩
      exact absurd (h.origin r.unix (mem_units.mpr ⟨r, hr, rfl⟩)).1 (hw _ hrv)
  complete := by
    intro v hv hfits
    rcases mem_append.mp hv with hv | hv
    · exact h.complete v hv hfits
    · obtain rfl := mem_singleton.mp hv
      exact .inl fun c hc hon => absurd hon (hw c hc)

theorem forNode_fits (p : Packing) (placed : ℕ) :
    (p.forNode placed).inG = 0 ∨ (p.forNode placed).inG + placed ≤ cpusPerGroup := by
  unfold forNode
  split
  next => exact .inl rfl
  next h =>
    by_contra hcon
    rw [not_or, not_le] at hcon
    exact h hcon

@[simp] theorem forNode_procs {placed : ℕ} : (p.forNode placed).procs = p.procs := by
  unfold forNode
  split <;> rfl

theorem forNode_g_le (p : Packing) (placed : ℕ) : (p.forNode placed).g ≤ p.g + 1 := by
  unfold forNode
  split
  · exact Nat.le_refl _
  · exact Nat.le_succ _

theorem GroupsNeeded.of_full (h : maxCpus ≤ p.procs.length) : GroupsNeeded p :=
  .inr (Nat.lt_of_lt_of_le (show cpusPerGroup < maxCpus by decide) h)

variable {placed m : ℕ} {q : Packing}

theorem not_stopped_fits (hfits : placed ≤ cpusPerGroup) (hm : m ≠ 0) (hmod : m % nodeShare placed = 0) :
    ¬m < placed := by
  intro hlt
  rw [nodeShare_fits hfits, Nat.mod_eq_of_lt hlt] at hmod
  exact hm hmod

theorem Numbered.inG_le (h : Numbered p) : p.inG ≤ p.procs.length := by
  rw [← h.current, h.size]
  exact countP_le_length

theorem NodePlaced.needed {todo : List ℕ} (hp : Numbered p) (h : GroupsNeeded p)
    (hq : NodePlaced placed (p.forNode placed).g (p.forNode placed).inG 0 todo (p.forNode placed) q)
    (htodo : todo.length = placed) (hpos : placed ≠ 0) : GroupsNeeded q := by
  obtain ⟨m, extra, hm, hprocs, hunix, -, hstands, hstop⟩ := hq
  have hlen : q.procs.length = p.procs.length + m := by
    have := congrArg List.length hunix
    rw [length_map, length_take, min_eq_left hm] at this
    rw [hprocs, length_append, this, forNode_procs]
  rw [Nat.zero_add] at hstands hstop
  have hgroup := hstands.group
  rcases Nat.lt_or_ge cpusPerGroup placed with hbig | hfits
  · -- a node of more than a group: what is placed is all of it, or many shares
    rcases hstop with hall | hmax | ⟨hlast, hm₀, hmod, -⟩
    · exact .inr (by omega)
    · exact .of_full hmax
    have hshare := half_lt_nodeShare hbig
    have hprev := (pred_share hm₀).1 hmod
    have hle := forNode_g_le p placed
    right
    rcases h with hz | hlt
    · have htwo : 2 ≤ m / nodeShare placed := by
        unfold maxCpuGroups at hlast
        omega
      have := (Nat.le_div_iff_mul_le (nodeShare_pos hpos)).mp htwo
      omega
    · omega
  · rcases hstop with hall | hmax | ⟨-, hm₀, hmod, hlt⟩
    · have hsame : (m - 1) / nodeShare placed = 0 := by
        rw [nodeShare_fits hfits]
        exact Nat.div_eq_of_lt (by omega)
      rw [hsame] at hgroup
      unfold forNode at hgroup
      split at hgroup
      next hneeds =>
        have := hp.inG_le
        right
        unfold needsGroup at hneeds
        omega
      next =>
        rcases h with hz | hlt
        · exact .inl (hgroup.trans hz)
        · exact .inr (by omega)
    · exact .of_full hmax
    · exact absurd hlt (not_stopped_fits hfits hm₀ hmod)

theorem NodePlaced.filled {g₀ in₀ : ℕ} {todo : List ℕ} (hq : Numbered q)
    (h : NodePlaced placed g₀ in₀ 0 todo p q) (hpos : todo.length ≠ 0) : Filled q := by
  obtain ⟨m, extra, hm, -, -, -, hstands, hstop⟩ := h
  left
  rw [Nat.zero_add] at hstands hstop
  by_cases hz : m = 0
  · rcases hstop with hall | hmax | ⟨-, hm₀, -⟩
    · exact absurd (hall.symm.trans hz) hpos
    · have hpacked := hq.packed
      have hlast := hq.last
      unfold maxCpus cpusPerGroup maxCpuGroups at *
      omega
    · exact absurd hz hm₀
  · rw [hstands.inGroup, if_neg hz]
    exact Nat.succ_ne_zero _

theorem Walk.node (hsmall : ∀ c ∈ online, c < maxUnixCpu) {done : List (ℕ × List ℕ)}
    (hp : Numbered p) (h : Walk online done p) (hw : w.2.Nodup)
    (hdisjoint : ∀ v ∈ done, List.Disjoint v.2 w.2) (hplaced : placed = w.2.countP (· ∈ online))
    (hpos : placed ≠ 0) (ids : List ℕ)
    (hq : Numbered (placeNode online placed (nodeShare placed) w.1 0 w.2 (p.forNode placed))) :
    Walk online (done ++ [w])
      { placeNode online placed (nodeShare placed) w.1 0 w.2 (p.forNode placed) with nodeIds := ids } := by
  have hlen : (onlineOf online w.2).length = placed := by rw [hplaced, countP_eq_length_filter]
  have hspec := placeNode_spec hsmall w.1 w.2 0 _ (Stands.begin (forNode_fits p placed)) (by
    rw [Nat.zero_add]
    exact hlen)
  have hneeded := hspec.needed hp h.needed hlen hpos
  have hfilled := hspec.filled hq (hlen ▸ hpos)
  obtain ⟨m, extra, hm, hprocs, hunix, hgroup, -, hstop⟩ := hspec
  generalize placeNode online placed (nodeShare placed) w.1 0 w.2 (p.forNode placed) = q at *
  rw [forNode_procs] at hprocs
  have hextra : ∀ r ∈ extra, r.unix ∈ online ∧ r.unix ∈ w.2 := by
    intro r hr
    have hmem : r.unix ∈ (onlineOf online w.2).take m := hunix ▸ mem_map_of_mem hr
    have := mem_filter.mp (mem_of_mem_take hmem)
    exact ⟨by simpa using this.2, this.1⟩
  have hold : ∀ r ∈ p.procs, r.unix ∉ w.2 := by
    intro r hr hrw
    obtain ⟨-, v, hv, hrv⟩ := h.origin r.unix (mem_units.mpr ⟨r, hr, rfl⟩)
    exact hdisjoint v hv hrv hrw
  have hunits : q.units = p.units ++ (onlineOf online w.2).take m := by
    rw [units, hprocs, map_append, hunix]
    rfl
  refine ⟨?_, ?_, hneeded, hfilled, ?_, ?_⟩
  · show q.units.Nodup
    rw [hunits]
    refine h.nodup.append ((hw.filter _).sublist (take_sublist _ _)) ?_
    intro c hc hc'
    obtain ⟨r, hr, rfl⟩ := mem_units.mp hc
    exact hold r hr (mem_filter.mp (mem_of_mem_take hc')).1
  · intro c hc
    obtain ⟨r, hr, rfl⟩ := mem_units.mp hc
    rcases mem_append.mp (hprocs ▸ hr) with hr | hr
    · obtain ⟨hon, v, hv, hrv⟩ := h.origin r.unix (mem_units.mpr ⟨r, hr, rfl⟩)
      exact ⟨hon, v, mem_append_left _ hv, hrv⟩
    · exact ⟨(hextra r hr).1, w, by simp, (hextra r hr).2⟩
  · intro v hv hfits
    rw [hprocs]
    rcases mem_append.mp hv with hv | hv
    · obtain ⟨γ, hγ⟩ := h.together v hv hfits
      refine ⟨γ, fun r hr hrv => ?_⟩
      rcases mem_append.mp hr with hr | hr
      · exact hγ r hr hrv
      · exact absurd (hextra r hr).2 (hdisjoint v hv hrv)
    · obtain rfl := mem_singleton.mp hv
      refine ⟨(p.forNode placed).g, fun r hr hrv => ?_⟩
      rcases mem_append.mp hr with hr | hr
      · exact absurd hrv (hold r hr)
      -- all of them within the first share
      have hmem : r.group ∈ extra.map Proc.group := mem_map_of_mem hr
      rw [hgroup] at hmem
      obtain ⟨i, hi, hri⟩ := mem_map.mp hmem
      have hi := (mem_range'_1.mp hi).2
      have hfits : placed ≤ cpusPerGroup := hlen ▸ hfits
      have hm : m ≤ placed := hm.trans hlen.le
      rw [← hri, nodeShare_fits hfits, Nat.div_eq_of_lt (by omega), Nat.add_zero]
  · intro v hv hfits
    show (∀ c ∈ v.2, c ∈ online → c ∈ q.units) ∨ maxCpus ≤ q.procs.length
    rcases mem_append.mp hv with hv | hv
    · rcases h.complete v hv hfits with hall | hmax
      · exact .inl fun c hc hon => hunits ▸ mem_append_left _ (hall c hc hon)
      · rw [hprocs, length_append]
        omega
    · obtain rfl := mem_singleton.mp hv
      rcases hstop with hall | hmax | ⟨-, hm₀, hmod, hlt⟩
      · left
        intro c hc hon
        rw [hunits, hall, take_length]
        exact mem_append_right _ (mem_filter.mpr ⟨hc, by simpa using hon⟩)
      · exact .inr hmax
      · exact absurd hlt (not_stopped_fits (hlen ▸ hfits) hm₀ hmod)

theorem placeNodes_walk (hsmall : ∀ c ∈ online, c < maxUnixCpu) (ws done : List (ℕ × List ℕ))
    (p : Packing) (hp : Numbered p) (h : Walk online done p) (hnodup : ∀ w ∈ ws, w.2.Nodup)
    (hdisjoint : (done ++ ws).Pairwise fun v w => List.Disjoint v.2 w.2) :
    ∃ ws₁ ws₂, ws = ws₁ ++ ws₂ ∧ Walk online (done ++ ws₁) (placeNodes online ws p) ∧
      (ws₂ = [] ∨ maxCpuGroups ≤ (placeNodes online ws p).g + 1) := by
  induction ws generalizing done p with
  | nil => exact ⟨[], [], rfl, by simpa [placeNodes] using h, .inl rfl⟩
  | cons w ws ih =>
    have hrest := fun v hv => hnodup v (mem_cons_of_mem w hv)
    have happ : done ++ w :: ws = (done ++ [w]) ++ ws := by simp
    have hdone : ∀ v ∈ done, List.Disjoint v.2 w.2 := fun v hv =>
      (pairwise_append.mp hdisjoint).2.2 v hv w mem_cons_self
    unfold placeNodes
    dsimp only
    split
    next hzero =>
      have hoff : ∀ c ∈ w.2, c ∉ online := by
        intro c hc hon
        exact absurd (by simpa using hon) (countP_eq_zero.mp hzero c hc)
      obtain ⟨ws₁, ws₂, rfl, hwalk, hstop⟩ := ih (done ++ [w]) p hp (h.skip hoff) hrest (happ ▸ hdisjoint)
      exact ⟨w :: ws₁, ws₂, rfl, by simpa using hwalk, hstop⟩
    next hpos =>
      split
      next hbreak => exact ⟨[], w :: ws, rfl, by simpa using h, .inr hbreak.2⟩
      next hgo =>
        have hstart := forNode_grows hgo
        have hnode (placed share : ℕ) : Numbered (placeNode online placed share w.1 0 w.2 (p.forNode _)) :=
          (hstart.trans (placeNode_grows w.2 0 _ (absurd rfl) (hstart.room hp.room))).numbered hp
        obtain ⟨ws₁, ws₂, rfl, hwalk, hstop⟩ := ih (done ++ [w]) _ ((Grows.refl.note _).numbered (hnode _ _))
          (h.node hsmall hp (hnodup w mem_cons_self) hdone rfl hpos _ (hnode _ _)) hrest (happ ▸ hdisjoint)
        exact ⟨w :: ws₁, ws₂, rfl, by simpa using hwalk, hstop⟩

end WinePpc64.Cpu
