import WinePpc64.Journal.DevMergeDrain

/-!
The journal over runs of appends, late bytes and drains in any interleaving: of each ring, the
replayed records and the waiting ones are the appended ones, in order, except for what a drop
skipped.
-/

namespace WinePpc64.Journal.Merge

open Com Lib List Option DevRing Entry Phase State

variable {sf : Surface} {devSlotMap : ℕ → ℕ → Bool} {s t : State} {r o c : ℕ} {g : DevRing}
  {p : Phase} {b : Bool} {x : DevRec}

def State.init : State where
  registry := []
  ring := fun _ => .armed 0
  proxies := []
  dirty := false
  phase := .idle
  log := []

def State.replayed (s : State) (r : ℕ) : List ℕ := (s.log.filter (·.ring = r)).map (·.serial)

@[simp] theorem State.replayed_setRing (s : State) (q : ℕ) (g : DevRing) (r : ℕ) :
    (s.setRing q g).replayed r = s.replayed r := rfl

structure DevRing.History (g : DevRing) (replayed : List ℕ) : Prop where
  formed : g.Formed
  increasing : (replayed ++ g.pending.map Entry.serial).Pairwise (· < ·)
  appended : ∀ i ∈ replayed ++ g.pending.map Entry.serial, i < g.appended
  complete : g.dropped = false →
    replayed ++ g.pending.map Entry.serial = List.range g.appended

def Phase.snapped (r : ℕ) : Phase → Prop
  | .snapshot _ _ todo => r ∉ todo
  | .merge _ _ => True
  | _ => False

def Phase.looks (r : ℕ) : Phase → Prop
  | .idle => False
  | .snapshot _ _ _ | .merge _ _ => True
  | .reclaim _ todo => r ∈ todo

structure Inv (s : State) : Prop where
  logged : ∀ x ∈ s.log, x.ring ∈ s.registry
  history : ∀ r ∈ s.registry, (s.ring r).History (s.replayed r)
  snapped : ∀ r ∈ s.registry, s.phase.snapped r → (s.ring r).Snapped
  announced : ∀ r ∈ s.registry, (s.ring r).cons < (s.ring r).pos →
    s.dirty = true ∨ (s.ring r).unmarked = true ∨ s.phase.looks r

namespace DevRing

variable {a b : ℕ} {replayed : List ℕ} {x : DevRec}

theorem records_append_of_le (h : b ≤ g.pos) : (g.append x).records a b = g.records a b := by
  refine map_congr_left fun k hk => Function.update_of_ne ?_ _ _
  rw [mem_range] at hk
  simp only [devRecBytes] at *
  omega

theorem records_land_serial (g : DevRing) :
    ((g.land o x).records a b).map Entry.serial = (g.records a b).map Entry.serial := by
  simp only [records, List.map_map]
  refine List.map_congr_left fun k _ => ?_
  simp only [Function.comp_apply, land]
  by_cases ho : a + devRecBytes * k = o
  · simp [ho]
  · simp [ho]

theorem Formed.append (h : g.Formed) (hroom : g.pos + devRecBytes ≤ g.cap) : (g.append x).Formed where
  le := h.le.trans (Nat.le_add_right _ _)
  fits := hroom
  cons_dvd := h.cons_dvd
  pos_dvd := Nat.dvd_add_self_right.mpr h.pos_dvd

theorem Formed.pending_append (h : g.Formed) : (g.append x).pending = g.pending ++ [⟨g.appended, x⟩] := by
  have hsplit := records_append (g := g.append x) h.le (Nat.le_add_right g.pos devRecBytes)
    h.cons_dvd h.pos_dvd
  rw [records_append_of_le le_rfl, records_one] at hsplit
  rw [pending, pending]
  refine hsplit.trans ?_
  simp [DevRing.append]

namespace History

variable (h : g.History replayed)
include h

theorem append (hroom : g.pos + devRecBytes ≤ g.cap) : (g.append x).History replayed := by
  have hp := h.formed.pending_append (x := x)
  have hlist : replayed ++ (g.append x).pending.map serial =
      (replayed ++ g.pending.map serial) ++ [g.appended] := by
    simp [hp]
  refine ⟨h.formed.append hroom, ?_, ?_, fun hd => ?_⟩
  · rw [hlist]
    refine pairwise_append.mpr ⟨h.increasing, pairwise_singleton _ _, fun i hi j hj => ?_⟩
    rw [mem_singleton.mp hj]
    exact h.appended i hi
  · rw [hlist]
    intro i hi
    obtain hi | hi := mem_append.mp hi
    · exact (h.appended i hi).trans (Nat.lt_succ_self _)
    · rw [mem_singleton.mp hi]
      exact Nat.lt_succ_self _
  · rw [hlist, h.complete hd]
    exact range_succ.symm

theorem land : (g.land o x).History replayed := by
  have hp : (g.land o x).pending.map serial = g.pending.map serial :=
    g.records_land_serial
  exact ⟨{ h.formed with }, hp ▸ h.increasing,
    hp ▸ h.appended, hp ▸ h.complete⟩

theorem advance (hlt : g.cons < g.pos) : g.advance.History (replayed ++ [g.head.serial]) := by
  obtain ⟨hle, hp⟩ := records_cons hlt h.formed.cons_dvd h.formed.pos_dvd
  have hlist : replayed ++ [g.head.serial] ++ g.advance.pending.map serial =
      replayed ++ g.pending.map serial := by
    rw [append_assoc, pending, pending, hp]
    rfl
  exact ⟨⟨hle, h.formed.fits, Nat.dvd_add_self_right.mpr h.formed.cons_dvd, h.formed.pos_dvd⟩,
    hlist ▸ h.increasing, hlist ▸ h.appended, hlist ▸ h.complete⟩

theorem same {since : BitVec 64} {snap : ℕ} {unmarked : Bool} :
    DevRing.History { g with badCons := c, badSince := since, snap := snap, unmarked := unmarked }
      replayed :=
  { h with formed := ⟨h.formed.le, h.formed.fits, h.formed.cons_dvd, h.formed.pos_dvd⟩ }

theorem drop (hs : g.Snapped) : g.drop.History replayed := by
  have hp : g.pending = g.records g.cons g.snap ++ g.drop.pending :=
    records_append hs.le_snap hs.le_pos hs.cons_dvd hs.snap_dvd
  have hsub : (replayed ++ g.drop.pending.map serial).Sublist
      (replayed ++ g.pending.map serial) := by
    rw [hp, map_append]
    exact (sublist_append_right _ _).append_left replayed
  exact ⟨⟨hs.le_pos, h.formed.fits, hs.snap_dvd, h.formed.pos_dvd⟩, h.increasing.sublist hsub,
    fun i hi => h.appended i (hsub.subset hi), fun hd => absurd hd (by simp [DevRing.drop])⟩

theorem reject (hs : g.Snapped) {now : BitVec 64} : (g.reject now).History replayed := by
  obtain ⟨c, since, hk⟩ | hk := g.reject_cases
  · exact hk ▸ h.same
  · exact hk ▸ h.drop hs

theorem reclaim {tid : ℕ} : (g.reclaim tid).History replayed := by
  rw [DevRing.reclaim]
  split_ifs with hown
  · have hp : g.pending = [] := pending_eq_nil h.formed hown.2.ge
    have hreset : g.reset.pending = g.pending := by
      rw [hp]
      exact records_self
    exact ⟨⟨le_rfl, Nat.zero_le _, dvd_zero _, dvd_zero _⟩, hreset ▸ h.increasing,
      hreset ▸ h.appended, hreset ▸ h.complete⟩
  · exact h

end History

end DevRing

theorem inv_init : Inv State.init := by
  refine ⟨?_, ?_, ?_, ?_⟩ <;> simp [init]

theorem State.replayed_addLog {x : Replay} :
    (s.addLog x).replayed r = s.replayed r ++ if x.ring = r then [x.serial] else [] := by
  simp only [replayed, addLog_log, filter_append, map_append]
  split_ifs with h <;> simp [h]

variable (h : Inv s)
include h

theorem Inv.setRing (hist : r ∈ s.registry → g.History (s.replayed r))
    (hsnap : r ∈ s.registry → p.snapped r → g.Snapped)
    (hann : g.cons < g.pos → b = true ∨ g.unmarked = true ∨ p.looks r)
    (hdirty : s.dirty = true → b = true)
    (hphase : ∀ q, q ≠ r → (p.snapped q → s.phase.snapped q) ∧ (s.phase.looks q → p.looks q)) :
    Inv (((s.setRing r g).setDirty b).setPhase p) := by
  refine ⟨h.logged, fun q hq => ?_, fun q hq => ?_, fun q hq => ?_⟩ <;> by_cases hqr : q = r
  · subst hqr
    simpa [replayed] using hist hq
  · simpa [replayed, hqr] using h.history q hq
  · subst hqr
    simpa using hsnap hq
  · simpa [hqr] using fun hp => h.snapped q hq ((hphase q hqr).1 hp)
  · subst hqr
    simpa using hann
  · simpa [hqr] using fun hlt => (h.announced q hq hlt).imp hdirty (Or.imp_right (hphase q hqr).2)

theorem Inv.setPhase (hsnap : ∀ r ∈ s.registry, p.snapped r → (s.ring r).Snapped)
    (hann : ∀ r ∈ s.registry, (s.ring r).cons < (s.ring r).pos →
      b = true ∨ (s.ring r).unmarked = true ∨ p.looks r) :
    Inv ((s.setDirty b).setPhase p) :=
  ⟨h.logged, h.history, hsnap, hann⟩

theorem Inv.arm (hidle : s.phase = .idle) (hr : r ∉ s.registry) {tid : ℕ} :
    Inv (s.register r (.armed tid)) := by
  have hnone : s.replayed r = [] := by
    rw [replayed, map_eq_nil_iff, filter_eq_nil_iff]
    intro x hx hxr
    exact hr (of_decide_eq_true hxr ▸ h.logged x hx)
  have hne : ∀ q ∈ s.registry, q ≠ r := fun q hq hqr => hr (hqr ▸ hq)
  have hp : (armed tid).pending = [] := records_self
  refine ⟨fun x hx => mem_cons_of_mem _ (h.logged x hx), fun q hq => ?_, fun q _ hp => ?_,
    fun q hq => ?_⟩
  · obtain rfl | hq := mem_cons.mp hq
    · have hist : (armed tid).History (s.replayed q) := by
        rw [hnone]
        exact ⟨⟨le_rfl, Nat.zero_le _, dvd_zero _, dvd_zero _⟩, by simp [hp], by simp [hp],
          fun _ => hp ▸ rfl⟩
      simpa [replayed, register] using hist
    · simpa [replayed, register, hne q hq] using h.history q hq
  · simp [State.register, hidle, Phase.snapped] at hp
  · obtain rfl | hq := mem_cons.mp hq
    · simp [register, armed]
    · simpa [register, hne q hq] using h.announced q hq

theorem Inv.begin {tid cut : ℕ} : Inv (s.begin tid cut) :=
  h.setPhase (fun _ hr hp => absurd hr hp) fun _ _ _ => .inr (.inr trivial)

theorem Inv.visit {tid cut b : ℕ} (hp : s.phase = .merge tid cut)
    (hbest : best s.ring s.registry = some b) {now : BitVec 64} :
    Inv (visit sf devSlotMap s b now) := by
  obtain ⟨hmem, hlt, -⟩ := best_eq_some hbest
  have hsnap := h.snapped b hmem (by simp [hp, Phase.snapped])
  have hlooks : s.phase.looks b := by simp [hp, looks]
  have hist := h.history b hmem
  rw [Merge.visit]
  split_ifs
  · refine ⟨fun x hx => ?_, fun q hq => ?_, fun q hq => ?_, fun q hq _ =>
      .inr (.inr (by simp [hp, looks]))⟩
    · obtain hx | hx := mem_append.mp hx
      · exact h.logged x hx
      · rw [mem_singleton.mp hx]
        exact hmem
    · rw [replayed_addLog]
      by_cases hqb : q = b
      · subst hqb
        simpa [replay] using hist.advance (hlt.trans_le hsnap.le_pos)
      · simpa [replay, hqb, Ne.symm hqb] using h.history q hq
    · by_cases hqb : q = b
      · subst hqb
        simpa using fun _ => hsnap.advance hlt
      · simpa [hqb] using h.snapped q hq
  · refine h.setRing (fun _ => hist.reject hsnap)
      (fun _ _ => ?_) (fun _ => .inr (.inr hlooks)) id fun _ _ => ⟨id, id⟩
    obtain ⟨c, since, hk⟩ | hk := (s.ring b).reject_cases
    · exact hk ▸ hsnap.hold
    · exact hk ▸ hsnap.drop

theorem Inv.snapshot {tid cut : ℕ} {todo : List ℕ} (hp : s.phase = .snapshot tid cut (r :: todo)) :
    Inv ((s.setRing r (s.ring r).takeSnap).setPhase (.snapshot tid cut todo)) := by
  refine h.setRing (fun hr => (h.history r hr).same)
    (fun hr _ => (h.history r hr).formed.snapped) (fun _ => .inr (.inr trivial)) id
    fun q hqr => ⟨fun hns => ?_, fun _ => trivial⟩
  simpa [hp, Phase.snapped, hqr] using hns

theorem Inv.reclaim {tid : ℕ} {todo : List ℕ} (hp : s.phase = .reclaim tid (r :: todo)) :
    Inv (((s.setRing r ((s.ring r).reclaim tid)).setDirty
      (s.dirty || decide ((s.ring r).cons < (s.ring r).pos))).setPhase (.reclaim tid todo)) := by
  refine h.setRing (fun hr => (h.history r hr).reclaim) (fun _ hns => hns.elim)
    (fun hlt => .inl ?_) (fun hd => by simp [hd]) fun q hqr => ⟨False.elim, fun hl => ?_⟩
  · simp [reclaim_cons_lt.mp hlt]
  · simpa [hp, looks, hqr] using hl

theorem Inv.drain {now : BitVec 64} (hd : wcDevDrain sf devSlotMap s now = some t) : Inv t := by
  cases hp : s.phase with
  | idle => simp [wcDevDrain, hp] at hd
  | snapshot tid cut todo =>
    cases todo with
    | nil =>
      obtain rfl : s.setPhase (.merge tid cut) = t := by simpa [wcDevDrain, hp] using hd
      exact h.setPhase
        (fun r hr _ => h.snapped r hr (by simp [hp, Phase.snapped])) fun _ _ _ => .inr (.inr trivial)
    | cons r rs =>
      obtain rfl : (s.setRing r (s.ring r).takeSnap).setPhase (.snapshot tid cut rs) = t := by
        simpa [wcDevDrain, hp] using hd
      exact h.snapshot hp
  | merge tid cut =>
    cases hbest : best s.ring s.registry with
    | none =>
      obtain rfl : s.setPhase (.reclaim tid s.registry) = t := by
        simpa [wcDevDrain, hp, hbest] using hd
      exact h.setPhase (fun _ _ hp => hp.elim) fun _ hr _ => .inr (.inr hr)
    | some b =>
      by_cases hcut : cut ≤ (s.ring b).head.stamp
      · obtain rfl : (s.setDirty true).setPhase (.reclaim tid s.registry) = t := by
          simpa [wcDevDrain, hp, hbest, hcut] using hd
        exact h.setPhase (fun _ _ hp => hp.elim) fun _ _ _ => .inl rfl
      · obtain rfl : Merge.visit sf devSlotMap s b now = t := by
          simpa [wcDevDrain, hp, hbest, hcut] using hd
        exact h.visit hp hbest
  | reclaim tid todo =>
    cases todo with
    | nil =>
      obtain rfl : s.setPhase .idle = t := by simpa [wcDevDrain, hp] using hd
      refine h.setPhase (fun _ _ hp => hp.elim) fun r hr hlt => ?_
      simpa [hp, looks] using h.announced r hr hlt
    | cons r rs =>
      rw [wcDevDrain_reclaim hp] at hd
      cases hd
      exact h.reclaim hp

theorem Inv.publish (hr : r ∈ s.registry) (hroom : (s.ring r).pos + devRecBytes ≤ (s.ring r).cap) :
    Inv (s.setRing r ((s.ring r).append x)) := by
  refine h.setRing (fun _ => (h.history r hr).append hroom)
    (fun _ hp => ?_) (fun _ => .inr (.inl rfl)) id fun _ _ => ⟨id, id⟩
  have hs := h.snapped r hr hp
  exact { hs with le_pos := hs.le_pos.trans (Nat.le_add_right _ _), pos_dvd := Nat.dvd_add_self_right.mpr hs.pos_dvd }

theorem Inv.land (hr : r ∈ s.registry) : Inv (s.setRing r ((s.ring r).land o x)) :=
  h.setRing (fun _ => (h.history r hr).land)
    (fun _ hp => let hs := h.snapped r hr hp
      { hs with }) (h.announced r hr) id
    fun _ _ => ⟨id, id⟩

theorem Inv.mark : Inv ((s.setRing r (s.ring r).mark).setDirty true) := by
  refine h.setRing (fun hr => (h.history r hr).same) (fun hr hp => ?_)
    (fun _ => .inl rfl) (fun _ => rfl) fun _ _ => ⟨id, id⟩
  have hs := h.snapped r hr hp
  exact { hs with }

theorem inv_step {a : Act} (hs : step sf devSlotMap s a = some t) : Inv t := by
  cases a with
  | arm r tid =>
    obtain ⟨⟨hidle, hr⟩, ht⟩ := ite_none_right_eq_some.mp hs
    cases ht
    exact h.arm hidle hr
  | intern p =>
    cases hs
    exact { h with }
  | publish r x =>
    obtain ⟨⟨hr, -, -, hroom⟩, ht⟩ := ite_none_right_eq_some.mp hs
    cases ht
    exact h.publish hr hroom
  | mark r =>
    obtain ⟨-, ht⟩ := ite_none_right_eq_some.mp hs
    cases ht
    exact h.mark
  | land r o x =>
    obtain ⟨hr, ht⟩ := ite_none_right_eq_some.mp hs
    cases ht
    exact h.land hr
  | call tid cut =>
    obtain ⟨-, ht⟩ := ite_none_right_eq_some.mp hs
    cases ht
    split_ifs
    · exact h.begin
    · exact h
  | enter tid cut =>
    obtain ⟨-, ht⟩ := ite_none_right_eq_some.mp hs
    cases ht
    exact h.begin
  | drain now => exact h.drain hs

omit h

theorem inv_of_reaches (h : Reaches (step sf devSlotMap) Free State.init s) : Inv s :=
  h.invariant inv_init fun _ _ _ _ hs hi => inv_step hi hs

theorem Inv.formed (h : Inv s) (hidle : s.phase = .idle) (hq : s.Quiet) : s.Formed where
  idle := hidle
  ring r hr := (h.history r hr).formed
  announced r hr hlt := by simpa [hq r hr, hidle, Phase.looks] using h.announced r hr hlt

namespace TwoRings

def surface : Surface := ⟨[⟨4, none, 0, false⟩]⟩

def bytes (whole : Bool) (stamp : ℕ) : DevRec :=
  ⟨3, if whole then 0x8000038 else 0, stamp, 500, 1, 7, 8, 9⟩

def ring (tid : ℕ) (first second : DevRec) : DevRing :=
  ((DevRing.armed tid).append first |>.mark.append second).mark

def state : State where
  registry := [2, 1]
  ring := fun r => if r = 1 then ring 8 (bytes true 10) (bytes false 30)
    else ring 9 (bytes true 20) (bytes true 60)
  proxies := [500]
  dirty := true
  phase := .idle
  log := []

end TwoRings

end WinePpc64.Journal.Merge
