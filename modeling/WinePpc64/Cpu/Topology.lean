import WinePpc64.Cpu.ParseList

namespace WinePpc64.Cpu

open Function List

def cpusPerGroup : ℕ := 64

def maxCpuGroups : ℕ := 20

def maxCpus : ℕ := cpusPerGroup * maxCpuGroups

def maxUnixCpu : ℕ := 4096

structure Proc where
  unix : ℕ
  group : ℕ
  index : ℕ
  node : ℕ
  deriving DecidableEq, Repr

structure Topology where
  procs : List Proc
  groupCount : ℕ
  groupSize : ℕ → ℕ
  fromUnix : ℕ → Option ℕ
  nodeIds : List ℕ

structure Sysfs where
  online : Option Text
  nodes : Option Text
  cpulist : ℕ → Option Text
  limit : Option Text

structure Packing where
  procs : List Proc
  groupSize : ℕ → ℕ
  fromUnix : ℕ → Option ℕ
  nodeIds : List ℕ
  g : ℕ
  inG : ℕ

namespace Packing

def start : Packing := ⟨[], fun _ => 0, fun _ => none, [], 0, 0⟩

def newGroup (p : Packing) : Packing := { p with g := p.g + 1, inG := 0 }

def place (p : Packing) (cpu node : ℕ) : Packing :=
  { p with
    procs := p.procs ++ [⟨cpu, p.g, p.inG, node⟩]
    fromUnix := update p.fromUnix cpu (some p.procs.length)
    groupSize := update p.groupSize p.g (p.inG + 1)
    inG := p.inG + 1 }

end Packing

def placeNode (online : List ℕ) (placed share node : ℕ) : ℕ → List ℕ → Packing → Packing
  | _, [], p => p
  | k, cpu :: cpus, p =>
    if cpu ∉ online then placeNode online placed share node k cpus p
    else if maxUnixCpu ≤ cpu then placeNode online placed share node k cpus p
    else if maxCpus ≤ p.procs.length then p
    else if p.inG = cpusPerGroup ∨ (k ≠ 0 ∧ k % share = 0 ∧ k < placed) then
      if maxCpuGroups ≤ p.g + 1 then p
      else placeNode online placed share node (k + 1) cpus (p.newGroup.place cpu node)
    else placeNode online placed share node (k + 1) cpus (p.place cpu node)

def nodeGroups (placed : ℕ) : ℕ := max 1 ((placed + cpusPerGroup - 1) / cpusPerGroup)

def nodeShare (placed : ℕ) : ℕ := (placed + nodeGroups placed - 1) / nodeGroups placed

def needsGroup (p : Packing) (placed : ℕ) : Prop := p.inG ≠ 0 ∧ cpusPerGroup < p.inG + placed

instance (p : Packing) (placed : ℕ) : Decidable (needsGroup p placed) := inferInstanceAs (Decidable (_ ∧ _))

def Packing.forNode (p : Packing) (placed : ℕ) : Packing := if needsGroup p placed then p.newGroup else p

def placeNodes (online : List ℕ) : List (ℕ × List ℕ) → Packing → Packing
  | [], p => p
  | (node, cpus) :: rest, p =>
    let placed := cpus.countP (· ∈ online)
    if placed = 0 then placeNodes online rest p
    else if needsGroup p placed ∧ maxCpuGroups ≤ p.g + 1 then p
    else
      let q := placeNode online placed (nodeShare placed) node 0 cpus (p.forNode placed)
      placeNodes online rest
        { q with nodeIds := if q.nodeIds.length < 4 * maxCpuGroups then q.nodeIds ++ [node] else q.nodeIds }

def sweep : List ℕ → Packing → Packing
  | [], p => p
  | cpu :: cpus, p =>
    if maxUnixCpu ≤ cpu ∨ (p.fromUnix cpu).isSome then sweep cpus p
    else if maxCpus ≤ p.procs.length then p
    else if p.inG = cpusPerGroup then
      if maxCpuGroups ≤ p.g + 1 then p
      else sweep cpus (p.newGroup.place cpu (p.nodeIds.headD 0))
    else sweep cpus (p.place cpu (p.nodeIds.headD 0))

def onlineCpus (sys : Sysfs) : List ℕ :=
  let online := ((parseList sys.online).getD []).take maxCpus
  match sys.limit with
  | none => online
  | some text =>
    let limit := ((strtoul text).map Prod.fst).getD 0
    if 1 ≤ limit ∧ limit < online.length then online.take limit else online

def nodeList (sys : Sysfs) : List ℕ :=
  match ((parseList sys.nodes).getD []).take (4 * maxCpuGroups) with
  | [] => [0]
  | nodes => nodes

def nodeCpus (sys : Sysfs) (online : List ℕ) (node : ℕ) : Option (List ℕ) :=
  match ((parseList (sys.cpulist node)).getD []).take maxCpus with
  | [] => if (nodeList sys).length = 1 then some online else none
  | cpus => some cpus

def nodeWalk (sys : Sysfs) (online : List ℕ) : List (ℕ × List ℕ) :=
  (nodeList sys).filterMap fun node => (nodeCpus sys online node).map (node, ·)

def oneCpu : Topology where
  procs := [⟨0, 0, 0, 0⟩]
  groupCount := 1
  groupSize := update (fun _ => 0) 0 1
  fromUnix := update (fun _ => none) 0 (some 0)
  nodeIds := [0]

def Packing.finish (p : Packing) : Topology where
  procs := p.procs
  groupCount := if p.procs.length = 0 then 0 else p.g + 1
  groupSize := p.groupSize
  fromUnix := p.fromUnix
  nodeIds := if p.nodeIds = [] then [0] else p.nodeIds

def topologyBuild (sys : Sysfs) : Topology :=
  let online := onlineCpus sys
  if online = [] then oneCpu
  else (sweep online (placeNodes online (nodeWalk sys online) Packing.start)).finish

inductive Grows (p : Packing) : Packing → Prop
  | refl : Grows p p
  | place {q : Packing} (cpu node : ℕ) : Grows p q → q.inG < cpusPerGroup → q.procs.length < maxCpus →
      Grows p (q.place cpu node)
  | fresh {q : Packing} : Grows p q → q.g + 1 < maxCpuGroups → q.inG ≠ 0 → Grows p q.newGroup
  | note {q : Packing} (ids : List ℕ) : Grows p q → Grows p { q with nodeIds := ids }

variable {p q r : Packing}

theorem Grows.trans (h : Grows p q) (h' : Grows q r) : Grows p r := by
  induction h' with
  | refl => exact h
  | place cpu node _ h₁ h₂ ih => exact ih.place cpu node h₁ h₂
  | fresh _ h₁ h₂ ih => exact ih.fresh h₁ h₂
  | note ids _ ih => exact ih.note ids

theorem Grows.room (h : Grows p q) (hp : p.inG ≤ cpusPerGroup) : q.inG ≤ cpusPerGroup := by
  induction h with
  | refl => exact hp
  | place cpu node _ h₁ _ _ => exact h₁
  | fresh _ _ _ _ => exact Nat.zero_le _
  | note ids _ ih => exact ih

structure Numbered (p : Packing) : Prop where
  last : p.g < maxCpuGroups
  total : p.procs.length ≤ maxCpus
  size : ∀ γ, p.groupSize γ = p.procs.countP (·.group = γ)
  small : ∀ γ, p.groupSize γ ≤ cpusPerGroup
  current : p.groupSize p.g = p.inG
  packed : p.procs.length ≤ cpusPerGroup * p.g + p.inG
  bound : ∀ r ∈ p.procs, r.group ≤ p.g
  opened : ∀ γ < p.g, p.groupSize γ ≠ 0
  sorted : p.procs.Pairwise fun a b => a.group ≤ b.group
  members : ∀ γ, (p.procs.filter (·.group = γ)).map Proc.index = List.range (p.groupSize γ)
  index : ∀ k r, p.procs[k]? = some r → r.index = (p.procs.take k).countP (·.group = r.group)
  mapped : ∀ c k, p.fromUnix c = some k → ∃ r, p.procs[k]? = some r ∧ r.unix = c
  covered : ∀ r ∈ p.procs, (p.fromUnix r.unix).isSome

theorem Numbered.start : Numbered Packing.start where
  last := by decide
  total := by decide
  size := fun _ => rfl
  small := fun _ => Nat.zero_le _
  current := rfl
  packed := Nat.le_refl _
  bound := fun _ h => by cases h
  opened := fun _ h => by cases h
  sorted := .nil
  members := fun _ => rfl
  index := fun _ _ h => by cases h
  mapped := fun _ _ h => by cases h
  covered := fun _ h => by cases h

namespace Numbered

variable {p : Packing} (h : Numbered p)
include h

theorem later {γ : ℕ} (hγ : p.g < γ) : p.groupSize γ = 0 := by
  rw [h.size, countP_eq_zero]
  intro r hr hrγ
  have := h.bound r hr
  have : r.group = γ := by simpa using hrγ
  omega

theorem newGroup (hg : p.g + 1 < maxCpuGroups) (hne : p.inG ≠ 0) : Numbered p.newGroup where
  last := hg
  total := h.total
  size := h.size
  small := h.small
  current := h.later (Nat.lt_succ_self _)
  packed := by
    have hpacked := h.packed
    have hroom := h.small p.g
    rw [h.current] at hroom
    show p.procs.length ≤ cpusPerGroup * (p.g + 1) + 0
    rw [Nat.mul_succ]
    omega
  bound := fun r hr => Nat.le_succ_of_le (h.bound r hr)
  opened := by
    intro γ hγ
    rcases Nat.lt_succ_iff_lt_or_eq.mp hγ with hγ | rfl
    · exact h.opened γ hγ
    · show p.groupSize p.g ≠ 0
      rw [h.current]
      exact hne
  sorted := h.sorted
  members := h.members
  index := h.index
  mapped := h.mapped
  covered := h.covered

theorem place (hroom : p.inG < cpusPerGroup) (hmax : p.procs.length < maxCpus) (cpu node : ℕ) :
    Numbered (p.place cpu node) where
  last := h.last
  total := by
    simp only [Packing.place, length_append, length_singleton]
    exact hmax
  size := by
    intro γ
    simp only [Packing.place, countP_append, countP_singleton]
    by_cases hγ : γ = p.g
    · subst hγ
      rw [← h.size, h.current]
      simp
    · rw [update_of_ne hγ, h.size γ]
      simp [Ne.symm hγ]
  small := by
    intro γ
    simp only [Packing.place]
    by_cases hγ : γ = p.g
    · subst hγ
      rw [update_self]
      exact hroom
    · rw [update_of_ne hγ]
      exact h.small γ
  current := update_self _ _ _
  packed := by
    simp only [Packing.place, length_append, length_singleton]
    exact Nat.succ_le_succ h.packed
  bound := by
    intro r hr
    rcases mem_append.mp hr with hr | hr
    · exact h.bound r hr
    · obtain rfl := mem_singleton.mp hr
      exact Nat.le_refl _
  opened := by
    intro γ hγ
    have hγ : γ < p.g := hγ
    simp only [Packing.place, update_of_ne (Nat.ne_of_lt hγ)]
    exact h.opened γ hγ
  sorted := by
    rw [Packing.place, pairwise_append]
    refine ⟨h.sorted, pairwise_singleton _ _, fun a ha b hb => ?_⟩
    obtain rfl := mem_singleton.mp hb
    exact h.bound a ha
  members := by
    intro γ
    simp only [Packing.place, filter_append, map_append]
    by_cases hγ : γ = p.g
    · subst hγ
      rw [update_self, h.members, h.current, range_succ]
      simp
    · rw [update_of_ne hγ, h.members]
      simp [Ne.symm hγ]
  index := by
    intro k r hk
    simp only [Packing.place] at hk ⊢
    rcases Nat.lt_or_ge k p.procs.length with hlt | hge
    · rw [getElem?_append_left hlt] at hk
      rw [take_append_of_le_length (Nat.le_of_lt hlt)]
      exact h.index k r hk
    obtain ⟨rfl, rfl⟩ : k = p.procs.length ∧ ⟨cpu, p.g, p.inG, node⟩ = r := by
      rw [getElem?_append_right hge, getElem?_singleton] at hk
      split at hk
      next hz => exact ⟨by omega, Option.some.inj hk⟩
      next => cases hk
    rw [take_left', ← h.size, h.current]
    rfl
  mapped := by
    intro c k hc
    simp only [Packing.place] at hc ⊢
    by_cases hcc : c = cpu
    · subst hcc
      rw [update_self] at hc
      cases hc
      exact ⟨⟨c, p.g, p.inG, node⟩, by simp, rfl⟩
    · rw [update_of_ne hcc] at hc
      obtain ⟨r, hk, hu⟩ := h.mapped c k hc
      have hlt := (List.getElem?_eq_some_iff.mp hk).1
      exact ⟨r, by rw [getElem?_append_left hlt]; exact hk, hu⟩
  covered := by
    intro r hr
    simp only [Packing.place] at hr ⊢
    by_cases hcc : r.unix = cpu
    · rw [hcc, update_self]
      rfl
    rw [update_of_ne hcc]
    rcases mem_append.mp hr with hr | hr
    · exact h.covered r hr
    · obtain rfl := mem_singleton.mp hr
      exact absurd rfl hcc

end Numbered

theorem Grows.numbered (h : Grows p q) (hp : Numbered p) : Numbered q := by
  induction h with
  | refl => exact hp
  | place cpu node _ h₁ h₂ ih => exact ih.place h₁ h₂ cpu node
  | fresh _ h₁ h₂ ih => exact ih.newGroup h₁ h₂
  | note ids _ ih =>
    exact { ih with }

section Loops

variable {online : List ℕ}

theorem Grows.open (cpu node : ℕ) (hg : p.g + 1 < maxCpuGroups) (hne : p.inG ≠ 0)
    (hmax : p.procs.length < maxCpus) : Grows p (p.newGroup.place cpu node) :=
  (Grows.refl.fresh hg hne).place cpu node (show 0 < cpusPerGroup by decide) hmax

theorem placeNode_grows {placed share node : ℕ} (cpus : List ℕ) (k : ℕ) (p : Packing)
    (hk : k ≠ 0 → p.inG ≠ 0) (hroom : p.inG ≤ cpusPerGroup) :
    Grows p (placeNode online placed share node k cpus p) := by
  induction cpus generalizing k p with
  | nil => exact .refl
  | cons c cs ih =>
    unfold placeNode
    split
    · exact ih k p hk hroom
    · split
      · exact ih k p hk hroom
      · split
        next => exact .refl
        next hmax =>
          split
          next hsplit =>
            split
            next => exact .refl
            next hg =>
              have hne : p.inG ≠ 0 := by
                rcases hsplit with h | h
                · rw [h]
                  decide
                · exact hk h.1
              have hstep := Grows.open c node (not_le.mp hg) hne (not_le.mp hmax)
              exact hstep.trans (ih (k + 1) _ (fun _ => Nat.succ_ne_zero _) (hstep.room hroom))
          next hjoin =>
            have hlt : p.inG < cpusPerGroup := lt_of_le_of_ne hroom fun e => hjoin (.inl e)
            have hstep : Grows p (p.place c node) := Grows.refl.place c node hlt (not_le.mp hmax)
            exact hstep.trans (ih (k + 1) _ (fun _ => Nat.succ_ne_zero _) hlt)

theorem sweep_grows (cpus : List ℕ) (p : Packing) (hroom : p.inG ≤ cpusPerGroup) : Grows p (sweep cpus p) := by
  induction cpus generalizing p with
  | nil => exact .refl
  | cons c cs ih =>
    unfold sweep
    split
    · exact ih p hroom
    · split
      next => exact .refl
      next hmax =>
        split
        next hfull =>
          split
          next => exact .refl
          next hg =>
            have hstep := Grows.open c (p.nodeIds.headD 0) (not_le.mp hg) (by rw [hfull]; decide) (not_le.mp hmax)
            exact hstep.trans (ih _ (hstep.room hroom))
        next hjoin =>
          have hlt : p.inG < cpusPerGroup := lt_of_le_of_ne hroom hjoin
          exact (Grows.refl.place c _ hlt (not_le.mp hmax)).trans (ih _ hlt)

theorem forNode_grows {placed : ℕ} (h : ¬(needsGroup p placed ∧ maxCpuGroups ≤ p.g + 1)) :
    Grows p (p.forNode placed) := by
  unfold Packing.forNode
  split
  next hneeds => exact Grows.refl.fresh (not_le.mp fun hle => h ⟨hneeds, hle⟩) hneeds.1
  next => exact .refl

theorem placeNodes_grows (ws : List (ℕ × List ℕ)) (p : Packing) (hroom : p.inG ≤ cpusPerGroup) :
    Grows p (placeNodes online ws p) := by
  induction ws generalizing p with
  | nil => exact .refl
  | cons w ws ih =>
    unfold placeNodes
    dsimp only
    split
    · exact ih p hroom
    · split
      next => exact .refl
      next hbreak =>
        have hstart := forNode_grows hbreak
        have hnode (placed share : ℕ) : Grows p (placeNode online placed share w.1 0 w.2 (p.forNode _)) :=
          hstart.trans (placeNode_grows w.2 0 _ (absurd rfl) (hstart.room hroom))
        exact ((hnode _ _).note _).trans (ih _ ((hnode _ _).room hroom))

end Loops

def packing (online : List ℕ) (ws : List (ℕ × List ℕ)) : Packing :=
  sweep online (placeNodes online ws Packing.start)

theorem placeNodes_numbered {online : List ℕ} {ws : List (ℕ × List ℕ)} :
    Numbered (placeNodes online ws Packing.start) :=
  (placeNodes_grows ws Packing.start (Nat.zero_le _)).numbered .start

theorem Numbered.room (h : Numbered p) : p.inG ≤ cpusPerGroup := by
  rw [← h.current]
  exact h.small p.g

theorem packing_numbered (online : List ℕ) (ws : List (ℕ × List ℕ)) : Numbered (packing online ws) :=
  (sweep_grows online _ placeNodes_numbered.room).numbered placeNodes_numbered

theorem topologyBuild_eq {sys : Sysfs} (h : onlineCpus sys ≠ []) :
    topologyBuild sys = (packing (onlineCpus sys) (nodeWalk sys (onlineCpus sys))).finish := by
  exact if_neg h

end WinePpc64.Cpu
