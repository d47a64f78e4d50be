import WinePpc64.Journal.CtxInvariant

namespace WinePpc64.Journal.Ctx

open Function Lib DrainPc State

def DrainPc.inSection : DrainPc → Bool
  | .reload _ | .bound _ _ | .replay _ _ _ | .setCons _ _ | .reset _ | .resetPos _
  | .undrain _ => true
  | _ => false

def DrainPc.locked : DrainPc → Bool
  | .check _ | .leave _ => true
  | d => d.inSection

def Caller.depth : Caller → ℕ
  | .disable _ => 1
  | _ => 0

def Pc.inSection : Pc → ℕ → Bool
  | .drain _ r d, r' => r = r' && d.inSection
  | _, _ => false

def Pc.lockDepth : Pc → ℕ
  | .drain o _ d => o.depth + d.locked.toNat
  | .offRecheck | .offLoop _ | .offCap _ | .offStore | .offLeave => 1
  | _ => 0

@[simp] theorem Pc.inSection_drain (o : Caller) (r r' : ℕ) (d : DrainPc) :
    (Pc.drain o r d).inSection r' = (decide (r = r') && d.inSection) := rfl

@[simp] theorem Pc.lockDepth_drain (o : Caller) (r : ℕ) (d : DrainPc) :
    (Pc.drain o r d).lockDepth = o.depth + d.locked.toNat := rfl

theorem Pc.inSection_loadPos {o : Caller} {r : ℕ} :
    (Pc.drain o r .loadPos).inSection = Pc.idle.inSection := by
  funext r'
  simp [Pc.inSection, DrainPc.inSection]

def DrainOk (g : Ring) (onProxy : Bool) : DrainPc → Prop
  | .loadPos => True
  | .loadCons p n => Seen g n p ∧ (onProxy = true → p = g.pos)
  | .enter n | .check n => n ≤ g.appended.length
  | .reload n => g.cons = g.done ∧ n ≤ g.appended.length
  | .bound p n => g.cons = g.done ∧ Ahead g n p ∧ (onProxy = true → p = g.pos)
  | .replay p off n => g.done = off ∧ Ahead g n p ∧ (onProxy = true → p = g.pos)
  | .setCons p n =>
    g.done = p ∧ n ≤ g.replayed.length ∧ (onProxy = true → p = g.pos)
  | .reset n =>
    g.cons = g.done ∧ n ≤ g.replayed.length ∧ (onProxy = true → g.done = g.pos)
  | .resetPos n => onProxy = true ∧ g.cons = 0 ∧ g.done = g.pos ∧ n ≤ g.replayed.length
  | .undrain n => g.cons = g.done ∧ n ≤ g.replayed.length ∧ (onProxy = true → g.pos = 0)
  | .leave n => n ≤ g.replayed.length ∧ (onProxy = true → g.pos = 0)

def PcOk (recorder : ℕ → ℕ) (rings : ℕ → Ring) (t : ℕ) : Pc → Prop
  | .room r _ => t = recorder r ∧ (rings r).host = true
  | .bytes r _ p => t = recorder r ∧ p = (rings r).pos
  | .commit r x p => t = recorder r ∧ p = (rings r).pos ∧ (rings r).data p = some x
  | .drain o r d =>
    (o.onProxy = true → t = recorder r) ∧ (rings r).host = true ∧
      DrainOk (rings r) o.onProxy d
  | .allCons i p n _ _ => (rings i).host = true ∧ Seen (rings i) n p
  | .offCap i => (rings i).host = true
  | _ => True

structure LockOk (s : State) : Prop where
  held : ∀ t, 0 < (s.pc t).lockDepth → s.owner = some t
  depth : ∀ t, s.owner = some t → s.depth = (s.pc t).lockDepth ∧ 0 < s.depth
  free : s.owner = none → s.depth = 0
  draining : ∀ r, (s.rings r).draining = true ↔ ∃ t, (s.pc t).inSection r = true

structure Inv (recorder : ℕ → ℕ) (s : State) : Prop where
  ring : ∀ r, RingOk (s.rings r)
  pc : ∀ t, PcOk recorder s.rings t (s.pc t)
  lock : LockOk s

structure Frame (g g' : Ring) (mine locked : Prop) : Prop where
  host : g'.host = g.host
  seen : ∀ n p, Seen g n p → Seen g' n p
  replayed : g.replayed.length ≤ g'.replayed.length
  appended : g.appended.length ≤ g'.appended.length
  completed : g.completed ≤ g'.completed
  mine : mine → g'.pos = g.pos ∧ g'.data = g.data
  locked : locked → g'.cons = g.cons ∧ g'.done = g.done ∧ ∀ n p, Ahead g n p → Ahead g' n p

theorem Frame.drainOk {g g' : Ring} {mine : Prop} {onProxy : Bool} {d : DrainPc}
    (hf : Frame g g' mine (d.inSection = true)) (hmine : onProxy = true → mine)
    (h : DrainOk g onProxy d) : DrainOk g' onProxy d := by
  have hpos : onProxy = true → g'.pos = g.pos := fun ho => (hf.mine (hmine ho)).1
  cases d with
  | loadPos => trivial
  | loadCons p n => exact ⟨hf.seen _ _ h.1, fun ho => (h.2 ho).trans (hpos ho).symm⟩
  | enter n => exact le_trans h hf.appended
  | check n => exact le_trans h hf.appended
  | reload n =>
    obtain ⟨hcons, hdone, -⟩ := hf.locked rfl
    exact ⟨by rw [hcons, hdone, h.1], h.2.trans hf.appended⟩
  | bound p n =>
    obtain ⟨hcons, hdone, hahead⟩ := hf.locked rfl
    exact ⟨by rw [hcons, hdone, h.1], hahead _ _ h.2.1,
      fun ho => (h.2.2 ho).trans (hpos ho).symm⟩
  | replay p off n =>
    obtain ⟨-, hdone, hahead⟩ := hf.locked rfl
    exact ⟨hdone.trans h.1, hahead _ _ h.2.1, fun ho => (h.2.2 ho).trans (hpos ho).symm⟩
  | setCons p n =>
    obtain ⟨-, hdone, -⟩ := hf.locked rfl
    exact ⟨hdone.trans h.1, h.2.1.trans hf.replayed,
      fun ho => (h.2.2 ho).trans (hpos ho).symm⟩
  | reset n =>
    obtain ⟨hcons, hdone, -⟩ := hf.locked rfl
    exact ⟨by rw [hcons, hdone, h.1], h.2.1.trans hf.replayed,
      fun ho => by rw [hdone, hpos ho, h.2.2 ho]⟩
  | resetPos n =>
    obtain ⟨hcons, hdone, -⟩ := hf.locked rfl
    obtain ⟨ho, hc, hd, hn⟩ := h
    exact ⟨ho, hcons.trans hc, by rw [hdone, hpos ho, hd], hn.trans hf.replayed⟩
  | undrain n =>
    obtain ⟨hcons, hdone, -⟩ := hf.locked rfl
    exact ⟨by rw [hcons, hdone, h.1], h.2.1.trans hf.replayed,
      fun ho => (hpos ho).trans (h.2.2 ho)⟩
  | leave n => exact ⟨h.1.trans hf.replayed, fun ho => (hpos ho).trans (h.2 ho)⟩

theorem Frame.mono {g g' : Ring} {mine mine' locked locked' : Prop} (h : Frame g g' mine locked)
    (hm : mine' → mine) (hl : locked' → locked) : Frame g g' mine' locked' :=
  { h with mine := fun m => h.mine (hm m), locked := fun l => h.locked (hl l) }

theorem Frame.refl {g : Ring} {mine locked : Prop} : Frame g g mine locked :=
  ⟨rfl, fun _ _ h => h, le_rfl, le_rfl, le_rfl, fun _ => ⟨rfl, rfl⟩,
    fun _ => ⟨rfl, rfl, fun _ _ h => h⟩⟩

theorem PcOk.frame {recorder : ℕ → ℕ} {rings rings' : ℕ → Ring} {t : ℕ} {p : Pc}
    (h : PcOk recorder rings t p)
    (hf : ∀ r, Frame (rings r) (rings' r) (t = recorder r) (p.inSection r = true)) :
    PcOk recorder rings' t p := by
  cases p with
  | bytes r x pos => exact ⟨h.1, h.2.trans ((hf r).mine h.1).1.symm⟩
  | commit r x pos =>
    obtain ⟨hpos, hdata⟩ := (hf r).mine h.1
    exact ⟨h.1, h.2.1.trans hpos.symm, hdata ▸ h.2.2⟩
  | drain o r d =>
    have hf' : Frame (rings r) (rings' r) (t = recorder r) (d.inSection = true) :=
      (hf r).mono id (by simp)
    exact ⟨h.1, hf'.host.trans h.2.1, hf'.drainOk h.1 h.2.2⟩
  | allCons i pos n need cover => exact ⟨(hf i).host.trans h.1, (hf i).seen _ _ h.2⟩
  | offCap i => exact (hf i).host.trans h
  | room r x => exact ⟨h.1, (hf r).host.trans h.2⟩
  | _ => trivial

variable {b : Bool}

section RingChanges

variable {g : Ring} {x : CtxRec} {mine locked : Prop} {c : ℕ}

theorem frame_replayOne (hx : g.data g.done = some x) : Frame g (g.replayOne g.done x) mine False :=
  ⟨rfl, fun _ _ h => h.replayOne hx, by simp [Ring.replayOne], le_rfl, le_rfl, fun _ => ⟨rfl, rfl⟩,
    False.elim⟩

theorem frame_cons : Frame g { g with cons := c } mine False :=
  ⟨rfl, fun _ _ h => h, le_rfl, le_rfl, le_rfl, fun _ => ⟨rfl, rfl⟩, False.elim⟩

theorem frame_draining : Frame g { g with draining := b } mine locked :=
  ⟨rfl, fun _ _ h => h, le_rfl, le_rfl, le_rfl, fun _ => ⟨rfl, rfl⟩, fun _ => ⟨rfl, rfl, fun _ _ h => h⟩⟩

theorem frame_cap : Frame g { g with cap := c } mine locked :=
  ⟨rfl, fun _ _ h => h, le_rfl, le_rfl, le_rfl, fun _ => ⟨rfl, rfl⟩, fun _ => ⟨rfl, rfl, fun _ _ h => h⟩⟩

theorem frame_complete (hg : RingOk g) : Frame g g.complete mine locked :=
  ⟨rfl, fun _ _ h => h, le_rfl, le_rfl, hg.completed_le, fun _ => ⟨rfl, rfl⟩, fun _ => ⟨rfl, rfl, fun _ _ h => h⟩⟩

theorem frame_resetPos (hg : RingOk g) (hdone : g.done = g.pos) :
    Frame g { g with pos := 0, done := 0 } False False := by
  refine ⟨rfl, fun n p h => .inl ?_, le_rfl, le_rfl, le_rfl, False.elim, False.elim⟩
  obtain h | h := h
  · exact h
  · exact h.le_of_done (hdone ▸ h.le_pos hg)

theorem Ahead.bytes {n p : ℕ} (h : Ahead g n p) (hg : RingOk g) :
    Ahead { g with data := update g.data g.pos (some x) } n p := by
  have hle := h.le_pos hg
  obtain ⟨front, back, happ, henc, hn⟩ := h
  refine ⟨front, back, happ, henc.congr fun i hi => ?_, hn⟩
  exact update_of_ne (hi.trans_le hle).ne _ _

theorem frame_bytes (hg : RingOk g) : Frame g { g with data := update g.data g.pos (some x) } False locked :=
  ⟨rfl, fun _ _ h => h.imp_right fun h => h.bytes hg, le_rfl, le_rfl, le_rfl, False.elim,
    fun _ => ⟨rfl, rfl, fun _ _ h => h.bytes hg⟩⟩

theorem Ahead.commit {n p : ℕ} (h : Ahead g n p) : Ahead (g.commit g.pos x) n p := by
  obtain ⟨front, back, happ, henc, hn⟩ := h
  exact ⟨front, back ++ [x], by simp [Ring.commit, happ], henc, hn⟩

theorem frame_commit : Frame g (g.commit g.pos x) False locked :=
  ⟨rfl, fun _ _ h => h.imp_right Ahead.commit, le_rfl, by simp [Ring.commit], le_rfl, False.elim,
    fun _ => ⟨rfl, rfl, fun _ _ h => h.commit⟩⟩

variable (h : RingOk g)
include h

theorem RingOk.bytes : RingOk { g with data := update g.data g.pos (some x) } := by
  obtain ⟨rest, happ, henc⟩ := h.pending
  refine { h with pending := ⟨rest, happ, henc.congr fun i hi => ?_⟩ }
  exact update_of_ne hi.ne _ _

theorem RingOk.commit (hx : g.data g.pos = some x) : RingOk (g.commit g.pos x) := by
  obtain ⟨rest, happ, henc⟩ := h.pending
  refine ⟨h.le, ⟨rest ++ [x], by simp [Ring.commit, happ], henc.snoc hx⟩, h.quiet, ?_⟩
  exact h.completed_le.trans (by simp [Ring.commit])

theorem RingOk.complete : RingOk g.complete :=
  ⟨h.le, h.pending, h.quiet, le_rfl⟩

theorem RingOk.setCons (hc : c ≤ g.done) (hd : g.draining = true) : RingOk { g with cons := c } :=
  ⟨hc, h.pending, fun hq => absurd (hd.symm.trans hq) (by simp), h.completed_le⟩

theorem RingOk.setDraining (hc : g.cons = g.done) : RingOk { g with draining := b } :=
  { h with quiet := fun _ => hc }

theorem RingOk.resetPos (hc : g.cons = 0) (hdone : g.done = g.pos) : RingOk { g with pos := 0, done := 0 } :=
  ⟨hc.le, ⟨[], by simp [h.replayed_eq hdone], rfl⟩, fun _ => hc, h.completed_le⟩

end RingChanges

namespace LockOk

variable {s s' : State} {t r t' r' : ℕ} {p : Pc}

theorem lockDepth_pos_of_inSection (h : p.inSection r = true) : 0 < p.lockDepth := by
  cases p with
  | drain o r' d =>
    have hl : d.locked = true := by cases d <;> simp_all [inSection, locked]
    simp [Pc.lockDepth, hl]
  | _ => cases h

theorem section_unique (h : LockOk s) (ht : (s.pc t).inSection r = true)
    (ht' : (s.pc t').inSection r' = true) : t = t' := by
  have := h.held t (lockDepth_pos_of_inSection ht)
  have := h.held t' (lockDepth_pos_of_inSection ht')
  simp_all

theorem lockDepth_update (hd : p.lockDepth = (s.pc t).lockDepth) (t' : ℕ) :
    (update s.pc t p t').lockDepth = (s.pc t').lockDepth := by
  by_cases ht : t' = t
  · subst ht; simpa using hd
  · simp [ht]

variable (h : LockOk s)
include h

theorem draining_update (hsec : p.inSection = (s.pc t).inSection) (r : ℕ) :
    (s.rings r).draining = true ↔ ∃ t', (update s.pc t p t').inSection r = true := by
  have hsection : ∀ t', (update s.pc t p t').inSection = (s.pc t').inSection := by
    intro t'
    by_cases ht : t' = t
    · subst ht; simpa using hsec
    · simp [ht]
  simpa only [hsection] using h.draining r

theorem setPc (hd : p.lockDepth = (s.pc t).lockDepth)
    (hsec : p.inSection = (s.pc t).inSection) : LockOk (s.setPc t p) := by
  have hdepth := lockDepth_update hd
  exact ⟨fun t' ht => h.held t' (hdepth t' ▸ ht), fun t' ht => hdepth t' ▸ h.depth t' ht, h.free,
    h.draining_update hsec⟩

theorem setRing {g' : Ring} (hd : g'.draining = (s.rings r).draining) : LockOk (s.setRing r g') := by
  refine { h with draining := fun r' => ?_ }
  by_cases hr : r' = r
  · subst hr
    simpa [hd] using h.draining r'
  · simpa [hr] using h.draining r'

theorem setDraining (hd : p.lockDepth = (s.pc t).lockDepth)
    (hp : p.inSection r = b) (hsec : ∀ r', r' ≠ r → p.inSection r' = (s.pc t).inSection r')
    (hother : ∀ t', t' ≠ t → ¬ (s.pc t').inSection r = true) :
    LockOk ((s.setRing r { s.rings r with draining := b }).setPc t p) := by
  have hdepth := lockDepth_update hd
  refine ⟨fun t' ht => h.held t' (hdepth t' ▸ ht), fun t' ht => hdepth t' ▸ h.depth t' ht, h.free,
    fun r' => ?_⟩
  by_cases hr : r' = r
  · subst hr
    simp only [setPc_rings, setRing_rings, update_self, setPc_pc, setRing_pc]
    refine ⟨fun hb => ⟨t, by simp [hp, hb]⟩, fun ⟨t', ht'⟩ => ?_⟩
    by_cases hne : t' = t
    · subst hne
      simpa [hp] using ht'
    · exact absurd (by simpa [hne] using ht') (hother t' hne)
  · have hsection : ∀ t', (update s.pc t p t').inSection r' = (s.pc t').inSection r' := by
      intro t'
      by_cases ht : t' = t
      · subst ht; simpa using hsec r' hr
      · simp [ht]
    simpa [hr, hsection] using h.draining r'

theorem other_depth (hown : s.owner = none ∨ s.owner = some t) (hne : t' ≠ t) : (s.pc t').lockDepth = 0 := by
  by_contra hpos
  have := h.held t' (Nat.pos_of_ne_zero hpos)
  simp_all

theorem enterCs (hs : s.enterCs t = some s')
    (hd : p.lockDepth = (s.pc t).lockDepth + 1) (hsec : p.inSection = (s.pc t).inSection) :
    LockOk (s'.setPc t p) := by
  unfold State.enterCs at hs
  split at hs
  case isFalse => cases hs
  case isTrue hown =>
    cases hs
    refine ⟨fun t' ht => ?_, fun t' ht => ?_, fun hn => by simp at hn, fun r => ?_⟩
    · by_cases hne : t' = t
      · subst hne; rfl
      · simp [hne, h.other_depth hown hne] at ht
    · obtain rfl : t = t' := by simpa using ht
      refine ⟨?_, by simp⟩
      obtain hn | hn := hown
      · have hz : (s.pc t).lockDepth = 0 := by
          by_contra hpos
          have := h.held t (Nat.pos_of_ne_zero hpos)
          simp_all
        simp [hd, hz, h.free hn]
      · simp [hd, (h.depth t hn).1]
    · exact h.draining_update hsec r

theorem leaveCs (hown : 0 < (s.pc t).lockDepth)
    (hd : p.lockDepth + 1 = (s.pc t).lockDepth) (hsec : p.inSection = (s.pc t).inSection) :
    LockOk (s.leaveCs.setPc t p) := by
  have howner := h.held t hown
  have hdepth := (h.depth t howner).1
  unfold State.leaveCs
  split
  case isTrue hone =>
    refine ⟨fun t' ht => ?_, fun t' ht => by simp at ht, fun _ => rfl, h.draining_update hsec⟩
    by_cases hne : t' = t
    · subst hne
      simp at ht
      omega
    · simp [hne, h.other_depth (.inr howner) hne] at ht
  case isFalse hone =>
    refine ⟨fun t' ht => ?_, fun t' ht => ?_, fun hn => ?_, h.draining_update hsec⟩
    · by_cases hne : t' = t
      · subst hne; exact howner
      · simp [hne, h.other_depth (.inr howner) hne] at ht
    · obtain rfl : t = t' := by simpa [howner] using ht
      simp only [setPc_depth, setPc_pc, update_self]
      omega
    · simp [howner] at hn

end LockOk

structure Kept (recorder : ℕ → ℕ) (s s' : State) : Prop where
  inv : Inv recorder s'
  frame : ∀ r, Frame (s.rings r) (s'.rings r) False False

section StateChanges

variable {recorder : ℕ → ℕ} {s s' : State} {t r : ℕ} {p q : Pc} {g' : Ring}

variable (h : Inv recorder s)
include h

theorem Inv.move (hrings : s'.rings = s.rings)
    (hpc : s'.pc = update s.pc t p) (hp : PcOk recorder s.rings t p)
    (hlock : LockOk s') : Kept recorder s s' := by
  refine ⟨⟨hrings ▸ h.ring, fun t' => ?_, hlock⟩, fun r => hrings ▸ .refl⟩
  rw [hrings, hpc]
  by_cases hne : t' = t
  · subst hne; simpa using hp
  · simpa [hne] using h.pc t'

theorem Inv.setPc (hpc : s.pc t = q) (hp : PcOk recorder s.rings t p)
    (hd : p.lockDepth = q.lockDepth) (hsec : p.inSection = q.inSection) :
    Kept recorder s (s.setPc t p) := by
  subst hpc
  exact h.move rfl rfl hp (h.lock.setPc hd hsec)

theorem Inv.enterCs (hpc : s.pc t = q) (hs : s.enterCs t = some s')
    (hp : PcOk recorder s.rings t p) (hd : p.lockDepth = q.lockDepth + 1)
    (hsec : p.inSection = q.inSection) : Kept recorder s (s'.setPc t p) := by
  subst hpc
  have hlock := h.lock.enterCs hs hd hsec
  unfold enterCs at hs
  split at hs
  case isFalse => cases hs
  case isTrue =>
    cases hs
    exact h.move rfl rfl hp hlock

theorem Inv.leaveCs (hpc : s.pc t = q) (hp : PcOk recorder s.rings t p)
    (hd : p.lockDepth + 1 = q.lockDepth) (hsec : p.inSection = q.inSection) :
    Kept recorder s (s.leaveCs.setPc t p) := by
  subst hpc
  have hlock := h.lock.leaveCs (by omega) hd hsec
  exact h.move (by simp) (by simp) hp hlock

theorem Inv.setRing (hg : RingOk g') (hf : ∀ t', t' ≠ t →
      Frame (s.rings r) g' (t' = recorder r) ((s.pc t').inSection r = true))
    (hp : PcOk recorder (update s.rings r g') t p)
    (hlock : LockOk ((s.setRing r g').setPc t p)) :
    Kept recorder s ((s.setRing r g').setPc t p) := by
  refine ⟨⟨fun r' => ?_, fun t' => ?_, hlock⟩, fun r' => ?_⟩
  · by_cases hr : r' = r
    · subst hr; simpa using hg
    · simpa [hr] using h.ring r'
  · by_cases hne : t' = t
    · subst hne; simpa using hp
    simp only [setPc_rings, setRing_rings, setPc_pc, setRing_pc,
      update_of_ne hne]
    refine (h.pc t').frame fun r' => ?_
    by_cases hr : r' = r
    · subst hr; simpa using hf t' hne
    · simpa [hr] using Frame.refl
  · by_cases hr : r' = r
    · subst hr
      simpa using (hf (t + 1) (by omega)).mono False.elim False.elim
    · simpa [hr] using Frame.refl

end StateChanges

end WinePpc64.Journal.Ctx
