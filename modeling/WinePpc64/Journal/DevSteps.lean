import WinePpc64.Journal.DevInvariant

namespace WinePpc64.Journal.Dev

open Function Lib List DevRing

section RingChanges

variable {g : DevRing} {clock c clock' : ℕ} {x : DevRec} {mine locked : Prop}

theorem RingOk.mono (h : RingOk clock g) (hc : clock ≤ clock') : RingOk clock' g :=
  { h with stamped := fun x hx => (h.stamped x hx).trans_le hc }

theorem Snapped.snap_le (h : Snapped g c) (hg : RingOk clock g) : g.snap ≤ g.pos := by
  obtain ⟨front, back, happ, henc, -⟩ := h
  obtain ⟨rest, happ', henc'⟩ := hg.pending
  obtain rfl := append_cancel_left (happ.symm.trans happ')
  exact henc.le_of_append henc'

theorem Snapped.le_of_snap_le (h : Snapped g c) (hle : g.snap ≤ g.cons) : c ≤ g.replayed.length := by
  obtain ⟨front, -, -, henc, hc⟩ := h
  rw [le_antisymm hle henc.le] at henc
  simpa [henc.eq_nil] using hc

theorem RingOk.takeSnap (h : RingOk clock g) : RingOk clock g.takeSnap :=
  { h with }

theorem RingOk.snapped (h : RingOk clock g) (hc : c ≤ g.completed) : Snapped g.takeSnap c := by
  obtain ⟨rest, happ, henc⟩ := h.pending
  have hsnap : g.takeSnap.snap = g.pos := by
    simp [DevRing.takeSnap, h.whole, h.fits.not_gt]
  refine ⟨rest, [], by simpa [DevRing.takeSnap] using happ, by rw [hsnap]; exact henc, ?_⟩
  have := hc.trans h.completed_le
  simpa [DevRing.takeSnap, happ] using this

theorem frame_takeSnap : Frame g g.takeSnap mine False :=
  ⟨le_rfl, prefix_rfl, le_rfl, fun _ => ⟨rfl, rfl, rfl⟩, False.elim⟩

theorem frame_replayHead : Frame g (g.replayHead x) mine False :=
  ⟨le_rfl, prefix_rfl, by simp [replayHead], fun _ => ⟨rfl, rfl, rfl⟩, False.elim⟩

theorem DevRing.head_eq_some (h : g.head = some x) : g.cons < g.snap ∧ g.data g.cons = some x := by
  unfold head at h
  split at h
  case isTrue hlt => exact ⟨hlt, h⟩
  case isFalse => cases h

theorem Snapped.head_mem (h : Snapped g c) (hlt : g.cons < g.snap) :
    ∃ y, g.head = some y ∧ ∀ k, g.replayed.length < k → y ∈ g.appended.take k := by
  obtain ⟨front, back, happ, henc, -⟩ := h
  obtain ⟨y, front, rfl, hy, -⟩ := henc.eq_cons hlt
  refine ⟨y, by simp [DevRing.head, hlt, hy], fun k hk => ?_⟩
  obtain ⟨m, rfl⟩ := Nat.exists_eq_add_of_lt hk
  rw [happ, show g.replayed.length + m + 1 = g.replayed.length + (m + 1) by omega,
    take_length_add_append]
  simp

theorem Snapped.replayHead (h : Snapped g c) (hx : g.head = some x) : Snapped (g.replayHead x) c := by
  obtain ⟨hlt, hdata⟩ := head_eq_some hx
  obtain ⟨front, back, happ, henc, hc⟩ := h
  obtain ⟨y, front, rfl, hy, henc⟩ := henc.eq_cons hlt
  obtain rfl := Option.some.inj (hy.symm.trans hdata)
  refine ⟨front, back, by simpa [replayHead] using happ, henc, ?_⟩
  simp only [replayHead, length_append, length_cons, length_nil] at hc ⊢
  omega

theorem RingOk.replayHead (h : RingOk clock g) (hs : Snapped g c) (hx : g.head = some x) :
    RingOk clock (g.replayHead x) := by
  obtain ⟨hlt, hdata⟩ := head_eq_some hx
  obtain ⟨rest, happ, henc⟩ := h.pending
  obtain ⟨y, rest, rfl, hy, henc⟩ := henc.eq_cons (hlt.trans_le (hs.snap_le h))
  obtain rfl := Option.some.inj (hy.symm.trans hdata)
  exact { h with pending := ⟨rest, by simpa [replayHead] using happ, henc⟩ }

theorem RingOk.reset (h : RingOk clock g) (hc : g.cons = g.pos) :
    RingOk clock { g with pos := 0, cons := 0 } := by
  obtain ⟨rest, happ, henc⟩ := h.pending
  rw [hc] at henc
  obtain rfl := henc.eq_nil
  exact ⟨⟨[], happ, rfl⟩, Nat.zero_le _, rfl, h.completed_le, h.stamped⟩

theorem frame_reset : Frame g { g with pos := 0, cons := 0 } False False :=
  ⟨le_rfl, prefix_rfl, le_rfl, False.elim, False.elim⟩

theorem RingOk.bytes (h : RingOk clock g) : RingOk clock { g with data := update g.data g.pos (some x) } := by
  obtain ⟨rest, happ, henc⟩ := h.pending
  refine { h with pending := ⟨rest, happ, henc.congr fun i hi => ?_⟩ }
  exact update_of_ne hi.ne _ _

theorem frame_bytes (hg : RingOk clock g) :
    Frame g { g with data := update g.data g.pos (some x) } False locked := by
  refine ⟨le_rfl, prefix_rfl, le_rfl, False.elim, fun _ c hs => ?_⟩
  have hle := hs.snap_le hg
  obtain ⟨front, back, happ, henc, hc⟩ := hs
  refine ⟨front, back, happ, henc.congr fun i hi => ?_, hc⟩
  exact update_of_ne (hi.trans_le hle).ne _ _

theorem RingOk.commit (h : RingOk clock g) (hroom : g.pos + devRecBytes ≤ g.cap)
    (hx : x.stamp < clock) (hdata : g.data g.pos = some x) : RingOk clock (g.commit g.pos x) := by
  obtain ⟨rest, happ, henc⟩ := h.pending
  refine ⟨⟨rest ++ [x], by simp [DevRing.commit, happ], henc.snoc hdata⟩, hroom, ?_, ?_, ?_⟩
  · simpa [DevRing.commit] using h.whole
  · exact h.completed_le.trans (by simp [DevRing.commit])
  intro y hy
  obtain hy | rfl : y ∈ g.appended ∨ y = x := by simpa [DevRing.commit] using hy
  · exact h.stamped y hy
  · exact hx

theorem frame_commit : Frame g (g.commit g.pos x) False locked := by
  refine ⟨le_rfl, prefix_append _ _, le_rfl, False.elim, fun _ c hs => ?_⟩
  obtain ⟨front, back, happ, henc, hc⟩ := hs
  exact ⟨front, back ++ [x], by simp [commit, happ], henc, hc⟩

theorem RingOk.complete (h : RingOk clock g) : RingOk clock g.complete :=
  { h with completed_le := le_rfl }

theorem frame_complete (hg : RingOk clock g) : Frame g g.complete mine locked :=
  ⟨hg.completed_le, prefix_rfl, le_rfl, fun _ => ⟨rfl, rfl, rfl⟩, fun _ _ h => h⟩

end RingChanges

theorem best_eq_none {rings : ℕ → DevRing} {n : ℕ} (h : best rings n = none) :
    ∀ r < n, (rings r).head = none := by
  induction n with
  | zero => nofun
  | succ n ih =>
    intro r hr
    simp only [best] at h
    split at h
    case h_1 hhead =>
      obtain hlt | rfl := Nat.lt_succ_iff_lt_or_eq.mp hr
      · exact ih h r hlt
      · exact hhead
    case h_2 => cases h
    case h_3 => split at h <;> cases h

theorem best_eq_some {rings : ℕ → DevRing} {n r : ℕ} {x : DevRec}
    (h : best rings n = some (r, x)) : r < n ∧ (rings r).head = some x ∧
      ∀ q < n, ∀ y, (rings q).head = some y → x.stamp ≤ y.stamp := by
  induction n generalizing r x with
  | zero => cases h
  | succ n ih =>
    simp only [best] at h
    split at h
    case h_1 hnone =>
      obtain ⟨hr, hx, hmin⟩ := ih h
      refine ⟨hr.trans (Nat.lt_succ_self n), hx, fun q hq y hy => ?_⟩
      obtain hlt | rfl := Nat.lt_succ_iff_lt_or_eq.mp hq
      · exact hmin q hlt y hy
      · simp [hnone] at hy
    case h_2 y hbest hhead =>
      obtain ⟨rfl, rfl⟩ : n = r ∧ y = x := by simpa using h
      refine ⟨Nat.lt_succ_self n, hhead, fun q hq z hz => ?_⟩
      obtain hlt | rfl := Nat.lt_succ_iff_lt_or_eq.mp hq
      · simp [best_eq_none hbest q hlt] at hz
      · exact (Option.some.inj (hhead.symm.trans hz)) ▸ le_rfl
    case h_3 q y z hbest hhead =>
      obtain ⟨hq, hy, hmin⟩ := ih hbest
      split at h
      case isTrue hlt =>
        obtain ⟨rfl, rfl⟩ : n = r ∧ z = x := by simpa using h
        refine ⟨Nat.lt_succ_self n, hhead, fun q' hq' w hw => ?_⟩
        obtain hlt' | rfl := Nat.lt_succ_iff_lt_or_eq.mp hq'
        · exact hlt.le.trans (hmin q' hlt' w hw)
        · exact (Option.some.inj (hhead.symm.trans hw)) ▸ le_rfl
      case isFalse hge =>
        obtain ⟨rfl, rfl⟩ : q = r ∧ y = x := by simpa using h
        refine ⟨hq.trans (Nat.lt_succ_self n), hy, fun q' hq' w hw => ?_⟩
        obtain hlt' | rfl := Nat.lt_succ_iff_lt_or_eq.mp hq'
        · exact hmin q' hlt' w hw
        · exact (Option.some.inj (hhead.symm.trans hw)) ▸ not_lt.mp hge

section StateChanges

variable {n r c : ℕ} {s s' : State} {t : ℕ} {p q : Pc} {g' : DevRing}

theorem Announced.next (h : Announced n s) (hpc : s'.pc = update s.pc t p)
    (hdirty : s'.dirty = s.dirty) (hcomp : ∀ r, (s'.rings r).completed = (s.rings r).completed)
    (hrep : ∀ r, (s.rings r).replayed.length ≤ (s'.rings r).replayed.length)
    (hcov : ∀ r < n, (s.pc t).covers r (s.rings r).completed →
      p.covers r (s.rings r).completed ∨
        (s.rings r).completed ≤ (s'.rings r).replayed.length) : Announced n s' := by
  refine h.imp hdirty.trans fun hall r hr => ?_
  rw [hcomp r, hpc]
  obtain hle | ⟨t', ht'⟩ := hall r hr
  · exact .inl (hle.trans (hrep r))
  by_cases hne : t' = t
  · subst hne
    obtain hp | hle := hcov r hr ht'
    · exact .inr ⟨t', by simpa using hp⟩
    · exact .inl hle
  · exact .inr ⟨t', by simpa [hne] using ht'⟩

theorem Inv.next (h : Inv n s) (hpc : s'.pc = update s.pc t p)
    (hclock : s.clock ≤ s'.clock) (hring : ∀ r, RingOk s'.clock (s'.rings r))
    (hf : ∀ t', t' ≠ t → ∀ r,
      Frame (s.rings r) (s'.rings r) (t' = r) ((s.pc t').holds = true))
    (hp : PcOk n s'.rings s'.clock t p)
    (hheld : ∀ t', t' ≠ t → (s.pc t').holds = true → s'.owner = some t')
    (hmine : p.holds = true → s'.owner = some t)
    (hdrain : s'.draining = true →
      p.inSection = true ∨ s.draining = true ∧ (s.pc t).inSection = false)
    (hann : Announced n s') : Inv n s' := by
  refine ⟨hring, fun t' => ?_, fun t' ht' => ?_, fun hd => ?_, hann⟩
  · rw [hpc]
    by_cases hne : t' = t
    · subst hne; simpa using hp
    · simpa [hne] using (h.pc t').frame h.ring (hf t' hne) hclock
  · rw [hpc] at ht'
    by_cases hne : t' = t
    · subst hne; exact hmine (by simpa using ht')
    · exact hheld t' hne (by simpa [hne] using ht')
  · rw [hpc]
    obtain hp' | ⟨hs, hout⟩ := hdrain hd
    · exact ⟨t, by simpa using hp'⟩
    · obtain ⟨t', ht'⟩ := h.draining hs
      have hne : t' ≠ t := by rintro rfl; simp [hout] at ht'
      exact ⟨t', by simpa [hne] using ht'⟩

theorem Inv.setPc (h : Inv n s) (hpc : s.pc t = q) (hp : PcOk n s.rings s.clock t p)
    (hhold : p.holds = q.holds) (hsec : p.inSection = q.inSection)
    (hcov : ∀ r < n, q.covers r (s.rings r).completed → p.covers r (s.rings r).completed ∨
      (s.rings r).completed ≤ (s.rings r).replayed.length) : Inv n (s.setPc t p) := by
  subst hpc
  refine h.next rfl le_rfl h.ring (fun _ _ _ => .refl) hp (fun t' _ => h.held t')
    (fun hh => h.held t (hhold ▸ hh)) (fun hd => ?_)
    (h.announced.next rfl rfl (fun _ => rfl) (fun _ => le_rfl) hcov)
  rw [hsec]
  cases hin : (s.pc t).inSection with
  | true => exact .inl rfl
  | false => exact .inr ⟨hd, rfl⟩

theorem frame_update {M L : ℕ → Prop} (hf : Frame (s.rings r) g' (M r) (L r)) (r' : ℕ) :
    Frame (s.rings r') (update s.rings r g' r') (M r') (L r') := by
  by_cases hr : r' = r
  · subst hr; simpa using hf
  · simpa [hr] using Frame.refl

variable (h : Inv n s)
include h

theorem Inv.setRingDirty {b : Bool} (hpc : s.pc t = q) (hg : RingOk s.clock g')
    (hf : ∀ t', t' ≠ t → Frame (s.rings r) g' (t' = r) ((s.pc t').holds = true))
    (hp : PcOk n (update s.rings r g') s.clock t p)
    (hhold : p.holds = q.holds) (hsec : p.inSection = q.inSection)
    (hann : Announced n ({ s.setRing r g' with dirty := b }.setPc t p)) :
    Inv n ({ s.setRing r g' with dirty := b }.setPc t p) := by
  subst hpc
  refine h.next rfl le_rfl (fun r' => ?_) (fun t' hne r' => ?_) hp (fun t' _ => h.held t')
    (fun hh => h.held t (hhold ▸ hh)) (fun hd => ?_) hann
  · by_cases hr : r' = r
    · subst hr; simpa using hg
    · simpa [hr] using h.ring r'
  · exact frame_update (M := fun r => t' = r) (L := fun _ => (s.pc t').holds = true)
      (hf t' hne) r'
  rw [hsec]
  cases hin : (s.pc t).inSection with
  | true => exact .inl rfl
  | false => exact .inr ⟨hd, rfl⟩

theorem Inv.setRing (hpc : s.pc t = q)
    (hg : RingOk s.clock g') (hcomp : g'.completed = (s.rings r).completed)
    (hf : ∀ t', t' ≠ t → Frame (s.rings r) g' (t' = r) ((s.pc t').holds = true))
    (hp : PcOk n (update s.rings r g') s.clock t p)
    (hhold : p.holds = q.holds) (hsec : p.inSection = q.inSection)
    (hcov : ∀ r c, q.covers r c → p.covers r c) : Inv n ((s.setRing r g').setPc t p) := by
  refine h.setRingDirty hpc hg hf hp hhold hsec
    (h.announced.next rfl rfl (fun r' => ?_) (fun r' => ?_)
      fun r' _ hc => .inl (hcov r' _ (hpc ▸ hc)))
  · by_cases hr : r' = r
    · subst hr; simpa using hcomp
    · simp [hr]
  · exact (frame_update (M := fun _ => False) (L := fun _ => False)
      ((hf (t + 1) (by omega)).mono False.elim False.elim) r').replayed

theorem Inv.setClock (hc : s.clock ≤ c) : Inv n { s with clock := c } :=
  { h with ring := fun r => (h.ring r).mono hc, pc := fun t => (h.pc t).frame h.ring (fun _ => .refl) hc }

theorem Inv.setDirty : Inv n { s with dirty := true } :=
  { h with announced := .inl rfl }

end StateChanges

end WinePpc64.Journal.Dev
