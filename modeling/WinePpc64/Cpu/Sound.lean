import WinePpc64.Cpu.Numbering

namespace WinePpc64.Cpu

open List Packing

structure Layout (online : List ℕ) (ws : List (ℕ × List ℕ)) : Prop where
  nodup : online.Nodup
  small : ∀ c ∈ online, c < maxUnixCpu
  few : online.length ≤ maxCpus
  lists : ∀ w ∈ ws, w.2.Nodup
  disjoint : ws.Pairwise fun v w => List.Disjoint v.2 w.2

variable {ws : List (ℕ × List ℕ)}

theorem packing_swept {online : List ℕ} :
    Swept online (placeNodes online ws Packing.start) (packing online ws) :=
  sweep_spec online _ placeNodes_numbered

variable {w : ℕ × List ℕ} {p : Packing} {c k n : ℕ}

namespace Layout

variable {online : List ℕ} {ws : List (ℕ × List ℕ)} (h : Layout online ws)
include h

theorem walk : ∃ ws₁ ws₂, ws = ws₁ ++ ws₂ ∧ Walk online ws₁ (placeNodes online ws Packing.start) ∧
    (ws₂ = [] ∨ maxCpuGroups ≤ (placeNodes online ws Packing.start).g + 1) :=
  placeNodes_walk h.small ws [] start .start (.start online) h.lists (by simpa using h.disjoint)

theorem packing_nodup : (packing online ws).units.Nodup := by
  obtain ⟨ws₁, -, -, hwalk, -⟩ := h.walk
  exact packing_swept.nodup hwalk.nodup

theorem packing_needed : GroupsNeeded (packing online ws) := by
  obtain ⟨ws₁, -, -, hwalk, -⟩ := h.walk
  exact packing_swept.needed hwalk.needed

theorem packing_filled : Filled (packing online ws) := by
  obtain ⟨ws₁, -, -, hwalk, -⟩ := h.walk
  exact packing_swept.filled hwalk.filled

theorem packing_online : ∀ c ∈ (packing online ws).units, c ∈ online := by
  intro c hc
  obtain ⟨ws₁, -, -, hwalk, -⟩ := h.walk
  obtain ⟨extra, hprocs, hextra, -⟩ := packing_swept.extra
  obtain ⟨r, hr, rfl⟩ := mem_units.mp hc
  rcases mem_append.mp (hprocs ▸ hr) with hr | hr
  · exact (hwalk.origin r.unix (mem_units.mpr ⟨r, hr, rfl⟩)).1
  · exact (hextra r hr).1

theorem packing_complete : (∀ c ∈ online, c ∈ (packing online ws).units) ∨ maxCpuGroups ≤ (packing online ws).g + 1 := by
  rcases packing_swept.stop with hall | hmax | hlast
  · exact .inl fun c hc => hall c hc (h.small c hc)
  · -- there are no more online CPUs than indices
    left
    have hsub := subperm_of_subset h.packing_nodup h.packing_online
    have hperm := hsub.perm_of_length_le (by
      rw [length_units]
      exact h.few.trans hmax)
    exact fun c hc => hperm.mem_iff.mpr hc
  · exact .inr hlast

theorem packing_together (hw : w ∈ ws) (hfits : Fits online w.2) :
    ∃ γ, ∀ r ∈ (packing online ws).procs, r.unix ∈ w.2 → r.group = γ := by
  obtain ⟨ws₁, ws₂, hws, hwalk, hstop⟩ := h.walk
  obtain ⟨extra, hprocs, hextra, hfull⟩ := packing_swept.extra
  have hnodup := h.packing_nodup
  have hdisjoint := h.disjoint
  rw [hws] at hw hdisjoint
  rcases mem_append.mp hw with hw | hw
  · -- the walk placed it whole, so the sweep does not touch it
    obtain ⟨γ, hγ⟩ := hwalk.together w hw hfits
    refine ⟨γ, fun r hr hrw => ?_⟩
    rcases mem_append.mp (hprocs ▸ hr) with hr | hr
    · exact hγ r hr hrw
    rcases hwalk.complete w hw hfits with hall | hmax
    · have hmem := hall r.unix hrw (hextra r hr).1
      rw [units, hprocs, map_append] at hnodup
      exact absurd (mem_map_of_mem hr) (disjoint_of_nodup_append hnodup hmem)
    · rw [hfull hmax] at hr
      cases hr
  · -- the walk ended before it, in the last group
    have hlast : maxCpuGroups ≤ (placeNodes online ws start).g + 1 := by
      rcases hstop with hnil | hlast
      · rw [hnil] at hw
        cases hw
      · exact hlast
    refine ⟨(placeNodes online ws start).g, fun r hr hrw => ?_⟩
    rcases mem_append.mp (hprocs ▸ hr) with hr' | hr'
    · obtain ⟨-, v, hv, hrv⟩ := hwalk.origin r.unix (mem_units.mpr ⟨r, hr', rfl⟩)
      exact absurd hrw ((pairwise_append.mp hdisjoint).2.2 v hv w hw hrv)
    have hle := (hextra r hr').2
    have hbound := (packing_numbered online ws).bound r hr
    have := (packing_numbered online ws).last
    omega

end Layout

structure Mapping (online : List ℕ) (t : Topology) : Prop where
  online : ∀ r ∈ t.procs, r.unix ∈ online
  inverse : ∀ c k, t.fromUnix c = some k ↔ (t.procs[k]?).map Proc.unix = some c

structure Groups (t : Topology) : Prop where
  size : ∀ γ, t.groupSize γ = t.procs.countP (·.group = γ)
  small : ∀ γ, t.groupSize γ ≤ cpusPerGroup
  ascending : t.procs.Pairwise fun a b => a.group ≤ b.group
  used : ∀ γ, t.groupSize γ ≠ 0 ↔ γ < t.groupCount
  members : ∀ γ, (t.procs.filter (·.group = γ)).map Proc.index = List.range (t.groupSize γ)
  first : ∀ k (r : Proc), t.procs[k]? = some r → r.group = 0 → r.index = k

def Together (t : Topology) (cpus cpus' : List ℕ) : Prop :=
  ∀ r ∈ t.procs, ∀ r' ∈ t.procs, r.unix ∈ cpus → r'.unix ∈ cpus' → r.group = r'.group

structure Numbers (online : List ℕ) (t : Topology) : Prop where
  mapping : Mapping online t
  groups : Groups t
  needed : 1 < t.groupCount → cpusPerGroup < t.procs.length
  complete : t.groupCount = maxCpuGroups ∨ ∀ c ∈ online, (t.fromUnix c).isSome

theorem Numbered.inverse (h : Numbered p) (hnodup : p.units.Nodup) (c k : ℕ) :
    p.fromUnix c = some k ↔ (p.procs[k]?).map Proc.unix = some c := by
  constructor
  · intro hc
    obtain ⟨r, hr, hu⟩ := h.mapped c k hc
    rw [hr, ← hu]
    rfl
  · intro hk
    obtain ⟨r, hr, rfl⟩ := Option.map_eq_some_iff.mp hk
    obtain ⟨j, hj⟩ := Option.isSome_iff_exists.mp (h.covered r (mem_of_getElem? hr))
    obtain ⟨s, hs, hsr⟩ := h.mapped r.unix j hj
    -- the two indices name one CPU
    have hku : p.units[k]? = some r.unix := by rw [units, getElem?_map, hr]; rfl
    have hju : p.units[j]? = some r.unix := by rw [units, getElem?_map, hs, ← hsr]; rfl
    have hlt := (List.getElem?_eq_some_iff.mp hku).1
    rw [hj, (getElem?_inj hlt hnodup).mp (hku.trans hju.symm)]

theorem Numbered.first (h : Numbered p) {r : Proc} (hk : p.procs[k]? = some r)
    (hr : r.group = 0) : r.index = k := by
  obtain ⟨hlt, rfl⟩ := List.getElem?_eq_some_iff.mp hk
  have hall : ∀ s ∈ p.procs.take k, s.group = p.procs[k].group := by
    intro s hs
    obtain ⟨i, -, rfl⟩ := mem_take_iff_getElem.mp hs
    have := pairwise_iff_getElem.mp h.sorted i k (by omega) hlt (by omega)
    omega
  rw [h.index k _ hk, countP_eq_length.mpr (by simpa using hall), length_take]
  omega

theorem Numbered.groups (h : Numbered p) (hfilled : Filled p) : Groups p.finish where
  size := h.size
  small := h.small
  ascending := h.sorted
  used := by
    intro γ
    show p.groupSize γ ≠ 0 ↔ γ < if p.procs.length = 0 then 0 else p.g + 1
    split
    next hnone =>
      rw [h.size, length_eq_zero_iff.mp hnone]
      simp
    next hsome =>
      have hin : p.inG ≠ 0 := hfilled.resolve_right fun hnil => hsome (length_eq_zero_iff.mpr hnil)
      rcases Nat.lt_trichotomy γ p.g with hγ | rfl | hγ
      · exact iff_of_true (h.opened γ hγ) (by omega)
      · exact iff_of_true (h.current ▸ hin) (Nat.lt_succ_self _)
      · exact iff_of_false (fun hne => hne (h.later hγ)) (by omega)
  members := h.members
  first := fun _ _ hk hr => h.first hk hr

theorem Layout.numbers {online : List ℕ} (h : Layout online ws) :
    Numbers online (packing online ws).finish where
  mapping :=
    { online := fun r hr => h.packing_online r.unix (mem_units.mpr ⟨r, hr, rfl⟩)
      inverse := (packing_numbered online ws).inverse h.packing_nodup }
  groups := (packing_numbered online ws).groups h.packing_filled
  needed := by
    intro hmany
    rcases h.packing_needed with hz | hlt
    · simp only [finish, hz] at hmany
      split at hmany <;> omega
    · exact hlt
  complete := by
    rcases h.packing_complete with hall | hlast
    · exact .inr fun c hc => (packing_numbered online ws).mem_units.mp (hall c hc)
    have hlt := (packing_numbered online ws).last
    have hsome : (packing online ws).procs.length ≠ 0 := by
      rcases h.packing_needed with hz | hlt
      · unfold maxCpuGroups at hlast
        omega
      · omega
    simp only [finish, if_neg hsome]
    omega

structure Kernel (sys : Sysfs) (online : List ℕ) (nodes : List (ℕ × List ℕ)) : Prop where
  onlineText : sys.online = some (kernelList online)
  nodesText : sys.nodes = some (kernelList (nodes.map Prod.fst)) ∨ (nodes = [] ∧ sys.nodes = none)
  cpuText : ∀ w ∈ nodes, sys.cpulist w.1 = some (kernelList w.2)
  noText : ∀ n ∉ nodes.map Prod.fst, sys.cpulist n = none
  noLimit : sys.limit = none
  onlineAscending : online.Pairwise (· < ·)
  onlineFew : online.length ≤ maxCpus
  onlineSmall : ∀ c ∈ online, c < maxUnixCpu
  idsAscending : (nodes.map Prod.fst).Pairwise (· < ·)
  idsFew : nodes.length ≤ 4 * maxCpuGroups
  idsInt : ∀ n ∈ nodes.map Prod.fst, n < 2 ^ 31
  listsAscending : ∀ w ∈ nodes, w.2.Pairwise (· < ·)
  listsInt : ∀ w ∈ nodes, ∀ c ∈ w.2, c < 2 ^ 31
  disjoint : nodes.Pairwise fun v w => List.Disjoint v.2 w.2
  onlineLine : (kernelList online).length < 8192
  nodesLine : (kernelList (nodes.map Prod.fst)).length < 8192
  cpuLine : ∀ w ∈ nodes, (kernelList w.2).length < 8192

namespace Kernel

variable {sys : Sysfs} {online : List ℕ} {nodes : List (ℕ × List ℕ)} (h : Kernel sys online nodes)
include h

theorem onlineCpus_eq : onlineCpus sys = online := by
  have hparse : parseList sys.online = some online := by
    rw [h.onlineText]
    refine parseList_kernelList (fun c hc => (h.onlineSmall c hc).trans ?_) h.onlineLine
    decide
  simp only [onlineCpus, h.noLimit, hparse, Option.getD_some, take_of_length_le h.onlineFew]

theorem nodeList_eq : nodeList sys = if nodes = [] then [0] else nodes.map Prod.fst := by
  have hparse : (parseList sys.nodes).getD [] = nodes.map Prod.fst := by
    rcases h.nodesText with htext | ⟨hnil, hnone⟩
    · rw [htext, parseList_kernelList (fun n hn => (h.idsInt n hn).trans (by decide)) h.nodesLine]
      rfl
    · rw [hnone, hnil]
      rfl
  have hlen : (nodes.map Prod.fst).length ≤ 4 * maxCpuGroups := by
    rw [length_map]
    exact h.idsFew
  unfold nodeList
  rw [hparse, take_of_length_le hlen]
  cases nodes with
  | nil => rfl
  | cons w ws => rfl

theorem parse_cpulist (hw : w ∈ nodes) : parseList (sys.cpulist w.1) = some w.2 := by
  rw [h.cpuText w hw]
  exact parseList_kernelList (fun c hc => (h.listsInt w hw c hc).trans (by decide)) (h.cpuLine w hw)

theorem nodeCpus_some {cpus : List ℕ} (hw : (n, cpus) ∈ nodes) (hne : cpus ≠ []) :
    nodeCpus sys online n = some (cpus.take maxCpus) := by
  unfold nodeCpus
  rw [h.parse_cpulist hw]
  split
  next heq =>
    exact absurd ((take_eq_nil_iff.mp heq).resolve_left (by decide)) hne
  next => rfl

theorem nodeCpus_nil (hw : w ∈ nodes) (hnil : w.2 = []) :
    nodeCpus sys online w.1 = if nodes.length = 1 then some online else none := by
  unfold nodeCpus
  rw [h.parse_cpulist hw, h.nodeList_eq, if_neg (ne_nil_of_mem hw), length_map, hnil]
  rfl

theorem nodeWalk_cases : (∃ n, nodeWalk sys online = [(n, online)] ∧ ∀ w ∈ nodes, w.2 = []) ∨
    nodeWalk sys online = nodes.filterMap fun w => if w.2 = [] then none else some (w.1, w.2.take maxCpus) := by
  cases nodes with
  | nil =>
    left
    refine ⟨0, ?_, fun _ hw => by cases hw⟩
    have hnone : nodeCpus sys online 0 = some online := by
      unfold nodeCpus
      rw [h.noText 0 (by simp), h.nodeList_eq]
      rfl
    rw [nodeWalk, h.nodeList_eq, if_pos rfl, filterMap_cons, hnone]
    rfl
  | cons v vs =>
    by_cases hone : vs = [] ∧ v.2 = []
    · left
      obtain ⟨rfl, hv⟩ := hone
      refine ⟨v.1, ?_, fun w hw => by rw [mem_singleton.mp hw, hv]⟩
      rw [nodeWalk, h.nodeList_eq, if_neg (cons_ne_nil _ _), map_singleton, filterMap_cons,
        h.nodeCpus_nil mem_cons_self hv]
      rfl
    · right
      rw [nodeWalk, h.nodeList_eq, if_neg (cons_ne_nil _ _), filterMap_map]
      apply filterMap_congr
      intro w hw
      show (nodeCpus sys online w.1).map (w.1, ·) = _
      by_cases hnil : w.2 = []
      · rw [h.nodeCpus_nil hw hnil, if_pos hnil, if_neg]
        · rfl
        intro hlen
        have hvs : vs = [] := length_eq_zero_iff.mp (Nat.succ.inj hlen)
        subst hvs
        exact hone ⟨rfl, mem_singleton.mp hw ▸ hnil⟩
      · rw [h.nodeCpus_some hw hnil, if_neg hnil]
        rfl

theorem layout : Layout online (nodeWalk sys online) where
  nodup := h.onlineAscending.imp Nat.ne_of_lt
  small := h.onlineSmall
  few := h.onlineFew
  lists := by
    intro w hw
    rcases h.nodeWalk_cases with ⟨n, heq, -⟩ | heq
    · rw [heq, mem_singleton] at hw
      rw [hw]
      exact h.onlineAscending.imp Nat.ne_of_lt
    rw [heq] at hw
    obtain ⟨v, hv, hvw⟩ := mem_filterMap.mp hw
    split at hvw
    · cases hvw
    · cases hvw
      exact ((h.listsAscending v hv).imp Nat.ne_of_lt).sublist (take_sublist _ _)
  disjoint := by
    rcases h.nodeWalk_cases with ⟨n, heq, -⟩ | heq
    · rw [heq]
      exact pairwise_singleton _ _
    rw [heq]
    refine List.Pairwise.filterMap _ ?_ h.disjoint
    intro a a' haa' b hb b' hb'
    split at hb
    · cases hb
    · split at hb'
      · cases hb'
      · cases hb
        cases hb'
        intro c hc hc'
        exact haa' (mem_of_mem_take hc) (mem_of_mem_take hc')

theorem build_eq (hne : online ≠ []) : topologyBuild sys = (packing online (nodeWalk sys online)).finish := by
  rw [topologyBuild_eq (by rwa [h.onlineCpus_eq]), h.onlineCpus_eq]

theorem read_together (hne : online ≠ []) (hw : w ∈ nodes) (hfits : Fits online w.2) :
    Together (topologyBuild sys) (w.2.take maxCpus) (w.2.take maxCpus) := by
  rw [h.build_eq hne]
  rcases h.nodeWalk_cases with ⟨n, -, hnil⟩ | heq
  · intro r _ r' _ hr
    rw [hnil w hw] at hr
    cases hr
  by_cases hnil : w.2 = []
  · intro r _ r' _ hr
    rw [hnil] at hr
    cases hr
  have hmem : (w.1, w.2.take maxCpus) ∈ nodeWalk sys online := by
    rw [heq, mem_filterMap]
    exact ⟨w, hw, if_neg hnil⟩
  have hfits : Fits online (w.2.take maxCpus) :=
    (((take_sublist _ _).filter _).length_le).trans hfits
  obtain ⟨γ, hγ⟩ := h.layout.packing_together hmem hfits
  intro r hr r' hr' hrw hrw'
  rw [hγ r hr hrw, hγ r' hr' hrw']

theorem numbers (hne : online ≠ []) : Numbers online (topologyBuild sys) := by
  rw [h.build_eq hne]
  exact h.layout.numbers

end Kernel

def twoNodes (online cpus cpus' : List ℕ) : Sysfs where
  online := some (kernelList online)
  nodes := some (kernelList [0, 1])
  cpulist := fun n => if n = 0 then some (kernelList cpus) else if n = 1 then some (kernelList cpus') else none
  limit := none

theorem kernel_twoNodes {online cpus cpus' : List ℕ} (ho : online.Pairwise (· < ·)) (hfew : online.length ≤ maxCpus)
    (hsmall : ∀ c ∈ online, c < maxUnixCpu) (hc : cpus.Pairwise (· < ·)) (hc' : cpus'.Pairwise (· < ·))
    (hint : ∀ c ∈ cpus ++ cpus', c < 2 ^ 31) (hdisjoint : List.Disjoint cpus cpus')
    (hline : (kernelList online).length < 8192 ∧ (kernelList cpus).length < 8192 ∧ (kernelList cpus').length < 8192) :
    Kernel (twoNodes online cpus cpus') online [(0, cpus), (1, cpus')] where
  onlineText := rfl
  nodesText := .inl rfl
  cpuText := by simp [twoNodes]
  noText := by
    intro n hn
    simp only [map_cons, map_nil, mem_cons, not_mem_nil, or_false, not_or] at hn
    simp [twoNodes, hn]
  noLimit := rfl
  onlineAscending := ho
  onlineFew := hfew
  onlineSmall := hsmall
  idsAscending := by simp
  idsFew := by
    simp only [length_cons, length_nil]
    decide
  idsInt := by simp
  listsAscending := by simp [hc, hc']
  listsInt := by
    intro w hw c hcw
    simp only [mem_cons, not_mem_nil, or_false] at hw
    rcases hw with rfl | rfl
    · exact hint c (mem_append_left _ hcw)
    · exact hint c (mem_append_right _ hcw)
  disjoint := by simpa using hdisjoint
  onlineLine := hline.1
  nodesLine := show (kernelList [0, 1]).length < 8192 by decide +kernel
  cpuLine := by simp [hline]

/-- The numbering is a bijection and respects groups; it respects a node if the entries kept of the node's list
cover its online CPUs. -/
theorem numbering_sound {sys : Sysfs} {online : List ℕ} {nodes : List (ℕ × List ℕ)} (h : Kernel sys online nodes)
    (hne : online ≠ []) :
    Numbers online (topologyBuild sys) ∧
    ∀ w ∈ nodes, Fits online w.2 → (∀ c ∈ w.2.drop maxCpus, c ∉ online) → Together (topologyBuild sys) w.2 w.2 := by
  have hnum := h.numbers hne
  refine ⟨hnum, fun w hw hfits hoff r hr r' hr' hrw hrw' => ?_⟩
  have hkept (q : Proc) (hq : q ∈ (topologyBuild sys).procs) (hqw : q.unix ∈ w.2) : q.unix ∈ w.2.take maxCpus := by
    rw [← take_append_drop maxCpus w.2] at hqw
    exact (mem_append.mp hqw).resolve_right fun hlate => hoff q.unix hlate (hnum.mapping.online q hq)
  exact h.read_together hne hw hfits r hr r' hr' (hkept r hr hrw) (hkept r' hr' hrw')

theorem kernel_pair : Kernel (twoNodes [0, 8] [0, 4] [8]) [0, 8] [(0, [0, 4]), (1, [8])] :=
  kernel_twoNodes (by decide) (by decide) (by decide) (by decide) (by decide) (by decide) (by simp) (by decide +kernel)

theorem numbering_sound_pair : Numbers [0, 8] (topologyBuild (twoNodes [0, 8] [0, 4] [8])) ∧
    Together (topologyBuild (twoNodes [0, 8] [0, 4] [8])) [0, 4] [0, 4] :=
  ⟨(numbering_sound kernel_pair (by decide)).1,
    (numbering_sound kernel_pair (by decide)).2 (0, [0, 4]) (by decide) (by rw [Fits]; decide) (by decide)⟩

@[irreducible] def fullNode : List ℕ := (List.range 64).map (2000 + ·)

@[irreducible] def longNode : List ℕ := List.range 1281

def spreadOnline : List ℕ := 0 :: 1280 :: fullNode

def spread : Sysfs := twoNodes spreadOnline longNode fullNode

theorem mem_fullNode : c ∈ fullNode ↔ 2000 ≤ c ∧ c < 2064 := by
  simp only [fullNode, mem_map, mem_range]
  constructor
  · rintro ⟨i, hi, rfl⟩
    omega
  · rintro ⟨hle, hlt⟩
    exact ⟨c - 2000, by omega, by omega⟩

theorem mem_longNode : c ∈ longNode ↔ c < 1281 := by
  unfold longNode
  exact mem_range

theorem mem_spreadOnline (hc : c ∈ spreadOnline) (hlt : c < 2000) : c = 0 ∨ c = 1280 := by
  rcases mem_cons.mp hc with rfl | hc
  · exact .inl rfl
  rcases mem_cons.mp hc with rfl | hc
  · exact .inr rfl
  · have := mem_fullNode.mp hc
    omega

theorem kernel_spread : Kernel spread spreadOnline [(0, longNode), (1, fullNode)] := by
  refine kernel_twoNodes ?_ ?_ ?_ ?_ ?_ ?_ ?_ ?_
  · decide +kernel
  · decide +kernel
  · decide +kernel
  · unfold longNode
    exact pairwise_lt_range
  · decide +kernel
  · intro c hc
    rcases mem_append.mp hc with hc | hc
    · have := mem_longNode.mp hc
      omega
    · have := mem_fullNode.mp hc
      omega
  · intro c hc hc'
    have := mem_longNode.mp hc
    have := mem_fullNode.mp hc'
    omega
  · decide +kernel

theorem long_node_spans_groups : ∃ sys online nodes, Kernel sys online nodes ∧ online ≠ [] ∧
    ∃ w ∈ nodes, Fits online w.2 ∧ ¬Together (topologyBuild sys) w.2 w.2 := by
  refine ⟨spread, spreadOnline, _, kernel_spread, cons_ne_nil _ _, (0, longNode), mem_cons_self, ?_, ?_⟩
  · have hsub : onlineOf spreadOnline longNode ⊆ [0, 1280] := by
      intro c hc
      have hlong := mem_longNode.mp (mem_filter.mp hc).1
      have := mem_spreadOnline (of_decide_eq_true (mem_filter.mp hc).2) (by omega)
      simpa using this
    have hnodup : longNode.Nodup := by
      unfold longNode
      exact nodup_range
    exact (subperm_of_subset (hnodup.filter _) hsub).length_le.trans (by decide)
  · intro htogether
    have hprocs : (topologyBuild spread).procs.filter (·.unix ≤ 1280) = [⟨0, 0, 0, 0⟩, ⟨1280, 2, 0, 0⟩] := by
      decide +kernel
    have hmem (r : Proc) (hr : r ∈ [(⟨0, 0, 0, 0⟩ : Proc), ⟨1280, 2, 0, 0⟩]) : r ∈ (topologyBuild spread).procs :=
      mem_of_mem_filter (hprocs ▸ hr)
    have hgroups := htogether ⟨0, 0, 0, 0⟩ (hmem _ (by simp)) ⟨1280, 2, 0, 0⟩ (hmem _ (by simp))
      (mem_longNode.mpr (by decide)) (mem_longNode.mpr (by decide))
    cases hgroups

end WinePpc64.Cpu
