import WinePpc64.Journal.DevSteps

namespace WinePpc64.Journal.Dev

open Lib Pc

theorem Pc.holds_of_inSection {p : Pc} (h : p.inSection = true) : p.holds = true := by
  cases p <;> first | rfl | cases h

section Steps

variable {n t' r : ℕ} {s s' : State} {t : ℕ} {p q : Pc}

variable (h : Inv n s)
include h

theorem Inv.not_holds (ht : (s.pc t).holds = true) (hne : t' ≠ t) : ¬ (s.pc t').holds = true := by
  intro ht'
  have := (h.held t ht).symm.trans (h.held t' ht')
  exact hne (Option.some.inj this).symm

theorem Inv.not_draining_of_fuse {need : ℕ → ℕ} (hpc : s.pc t = .fuse need) : s.draining = false := by
  by_contra hcon
  obtain ⟨t', ht'⟩ := h.draining (by simpa using hcon)
  have hne : t' ≠ t := by
    rintro rfl
    rw [hpc] at ht'
    cases ht'
  exact h.not_holds (by rw [hpc]; rfl) hne (holds_of_inSection ht')

theorem snippet_inv (hpc : s.pc t = p) (hs : snippet s t p = some s') : Inv n s' := by
  have hok := hpc ▸ h.pc t
  cases p with
  | room call =>
    simp only [snippet] at hs
    split at hs <;> obtain rfl := Option.some.inj hs
    case isTrue hroom => exact h.setPc hpc ⟨rfl, hroom⟩ rfl rfl nofun
    case isFalse => exact h.setPc hpc (fun _ => le_rfl) rfl rfl nofun
  | rdtsc call pos =>
    cases hs
    exact (h.setClock (Nat.le_succ _)).setPc hpc ⟨hok.1, hok.2, Nat.lt_succ_self _⟩ rfl rfl nofun
  | bytes x pos =>
    cases hs
    obtain ⟨rfl, hroom, hx⟩ := hok
    refine h.setRing hpc (h.ring t).bytes rfl (fun t' hne => ?_) ?_ rfl rfl nofun
    · exact (frame_bytes (h.ring t)).mono hne id
    · exact ⟨by simp, by simpa using hroom, hx, by simp⟩
  | commit x pos =>
    cases hs
    obtain ⟨rfl, hroom, hx, hdata⟩ := hok
    refine h.setRing hpc ((h.ring t).commit hroom hx hdata) rfl (fun t' hne => ?_) trivial
      rfl rfl nofun
    exact frame_commit.mono hne id
  | dirtyStore =>
    cases hs
    exact h.setRingDirty hpc (h.ring t).complete (fun _ _ => frame_complete (h.ring t)) trivial
      rfl rfl (.inl rfl)
  | _ => cases hs

omit h in
theorem Cut.replayed {rings : ℕ → DevRing} {cut : ℕ} {cover : ℕ → ℕ} (h : Cut rings cut cover)
    (hsnap : ∀ r < n, Snapped (rings r) (cover r))
    (hheads : ∀ r < n, ∀ y, (rings r).head = some y → cut ≤ y.stamp) :
    ∀ r < n, cover r ≤ (rings r).replayed.length := by
  intro r hr
  by_contra hlt
  by_cases hc : (rings r).cons < (rings r).snap
  · obtain ⟨y, hy, hmem⟩ := (hsnap r hr).head_mem hc
    have hyoung := hheads r hr y hy
    have hold := h r y (hmem _ (not_le.mp hlt))
    omega
  · exact hlt ((hsnap r hr).le_of_snap_le (not_lt.mp hc))

theorem Inv.drainRing (hpc : s.pc t = q) (hq : q.holds = true)
    {g' : DevRing} (hg : RingOk s.clock g') (hcomp : g'.completed = (s.rings r).completed)
    (hf : Frame (s.rings r) g' (t ≠ r) False)
    (hp : (∀ r', Frame (s.rings r') (Function.update s.rings r g' r') False False) →
      PcOk n (Function.update s.rings r g') s.clock t p)
    (hhold : p.holds = q.holds) (hsec : p.inSection = q.inSection)
    (hcov : ∀ r c, q.covers r c → p.covers r c) : Inv n ((s.setRing r g').setPc t p) := by
  refine h.setRing hpc hg hcomp (fun t' hne => ?_) (hp ?_) hhold hsec hcov
  · exact hf.mono (fun hm ht => hne (hm.trans ht.symm)) (h.not_holds (hpc ▸ hq) hne)
  · exact frame_update (M := fun _ => False) (L := fun _ => False)
      (hf.mono False.elim False.elim)

theorem wcDevDrain_inv (hpc : s.pc t = p) (hs : wcDevDrain n s t p = some s') : Inv n s' := by
  have hok := hpc ▸ h.pc t
  cases p with
  | test need =>
    cases hs
    split
    · exact h.setPc hpc hok rfl rfl nofun
    · exact h.setPc hpc trivial rfl rfl nofun
  | enter need =>
    simp only [wcDevDrain] at hs
    split at hs
    case isTrue hfree =>
      cases hs
      refine h.next rfl le_rfl h.ring (fun _ _ _ => .refl) hok (fun t' _ ht' => ?_)
        (fun _ => rfl) (fun hd => .inr ⟨hd, by rw [hpc]; rfl⟩)
        (h.announced.next rfl rfl (fun _ => rfl) (fun _ => le_rfl) (by simp [hpc, covers]))
      simp [h.held t' ht'] at hfree
    case isFalse => cases hs
  | fuse need =>
    rw [wcDevDrain, h.not_draining_of_fuse hpc] at hs
    cases hs
    exact h.next rfl le_rfl h.ring (fun _ _ _ => .refl) hok (fun t' _ => h.held t')
      (fun _ => h.held t (by rw [hpc]; rfl)) (fun _ => .inl rfl)
      (h.announced.next rfl rfl (fun _ => rfl) (fun _ => le_rfl) (by simp [hpc, covers]))
  | clear need =>
    cases hs
    -- from here on this thread answers for everything that is complete
    refine h.next rfl le_rfl h.ring (fun _ _ _ => .refl)
      ⟨⟨hok, fun _ => le_rfl⟩, fun r x hx => (h.ring r).stamped x (List.mem_of_mem_take hx)⟩
      (fun t' _ => h.held t') (fun _ => h.held t (by rw [hpc]; rfl)) (fun _ => .inl rfl)
      (.inr fun r _ => .inr ⟨t, ?_⟩)
    simp [covers, State.completed]
  | takeCut need cover =>
    cases hs
    exact (h.setClock (Nat.le_succ _)).setPc hpc ⟨hok.1, hok.2, nofun⟩ rfl rfl
      fun r _ hc => .inl hc
  | snapshot i cut need cover =>
    obtain ⟨howes, hcut, hsnap⟩ := hok
    simp only [wcDevDrain] at hs
    split at hs <;> obtain rfl := Option.some.inj hs
    case isTrue hi =>
      refine h.drainRing hpc rfl (h.ring i).takeSnap rfl frame_takeSnap (fun hf => ?_) rfl rfl
        fun _ _ hc => hc
      refine ⟨howes.frame hf, hcut.frame howes h.ring hf, fun r hr => ?_⟩
      obtain hlt | rfl := Nat.lt_succ_iff_lt_or_eq.mp hr
      · simpa [hlt.ne] using hsnap r hlt
      · simpa using (h.ring r).snapped (howes.cover_le r)
    case isFalse hi =>
      exact h.setPc hpc ⟨howes, hcut, fun r hr => hsnap r (hr.trans_le (not_lt.mp hi))⟩ rfl rfl
        fun r _ hc => .inl hc
  | merge cut need cover =>
    obtain ⟨howes, hcut, hsnap⟩ := hok
    simp only [wcDevDrain] at hs
    split at hs
    case h_1 hbest =>
      cases hs
      have hdone := hcut.replayed hsnap fun r hr y hy => by simp [best_eq_none hbest r hr] at hy
      exact h.setPc hpc ⟨howes, hdone⟩ rfl rfl fun r hr hc => .inr (hc.trans (hdone r hr))
    case h_2 r x hbest =>
      obtain ⟨hr, hx, hmin⟩ := best_eq_some hbest
      split at hs <;> cases hs
      case isTrue hyoung =>
        have hdone := hcut.replayed hsnap fun q hq y hy => hyoung.trans (hmin q hq y hy)
        exact h.setPc hpc ⟨howes, hdone⟩ rfl rfl fun r hr hc => .inr (hc.trans (hdone r hr))
      case isFalse =>
        refine h.drainRing hpc rfl ((h.ring r).replayHead (hsnap r hr) hx) rfl frame_replayHead
          (fun hf => ?_) rfl rfl fun _ _ hc => hc
        refine ⟨howes.frame hf, hcut.frame howes h.ring hf, fun q hq => ?_⟩
        by_cases hqr : q = r
        · subst hqr; simpa using (hsnap q hq).replayHead hx
        · simpa [hqr] using hsnap q hq
  | rearm need cover =>
    cases hs
    exact h.setDirty.setPc hpc hok rfl rfl nofun
  | reclaim i need cover =>
    simp only [wcDevDrain] at hs
    split_ifs at hs with hi hown hlt <;> cases hs
    · obtain ⟨rfl, hempty⟩ := hown
      exact h.drainRing hpc rfl ((h.ring i).reset hempty) rfl
        (frame_reset.mono (fun hne => hne rfl) id)
        (fun hf => ⟨hok.1.frame hf, fun r hr => (hok.2 r hr).trans (hf r).replayed⟩) rfl rfl
        (fun _ _ hc => hc)
    · exact h.setPc hpc hok rfl rfl nofun
    · exact h.setPc hpc hok rfl rfl nofun
    · exact h.next rfl le_rfl h.ring (fun _ _ _ => .refl) hok (fun t' _ => h.held t')
        (fun _ => h.held t (by rw [hpc]; rfl)) nofun
        (h.announced.next rfl rfl (fun _ => rfl) (fun _ => le_rfl) (by simp [hpc, covers]))
  | reclaimDirty i need cover =>
    cases hs
    exact h.setDirty.setPc hpc hok rfl rfl nofun
  | leave need cover =>
    cases hs
    refine h.next rfl le_rfl h.ring (fun _ _ _ => .refl) trivial (fun t' hne ht' => ?_) nofun
      (fun hd => .inr ⟨hd, by rw [hpc]; rfl⟩)
      (h.announced.next rfl rfl (fun _ => rfl) (fun _ => le_rfl) (by simp [hpc, covers]))
    exact absurd ht' (h.not_holds (by rw [hpc]; rfl) hne)
  | _ => cases hs

theorem step_inv {l : ℕ × Act} (hs : step n s l = some s') : Inv n s' := by
  obtain ⟨t, a⟩ := l
  cases a with
  | go =>
    simp only [step, Option.or_eq_some_iff] at hs
    obtain hs | ⟨-, hs⟩ := hs
    · exact snippet_inv h rfl hs
    · exact wcDevDrain_inv h rfl hs
  | append call =>
    simp only [step] at hs
    split at hs
    case h_1 hpc =>
      split at hs
      case isTrue =>
        cases hs
        exact h.setPc hpc trivial rfl rfl nofun
      case isFalse => cases hs
    case h_2 => cases hs
  | drain =>
    simp only [step] at hs
    split at hs
    case h_1 hpc =>
      cases hs
      exact h.setPc hpc (fun _ => le_rfl) rfl rfl nofun
    case h_2 => cases hs

end Steps

def Pc.need : Pc → Option (ℕ → ℕ)
  | .test need | .enter need | .fuse need | .clear need | .takeCut need _
  | .snapshot _ _ need _ | .merge _ need _ | .rearm need _ | .reclaim _ need _
  | .reclaimDirty _ need _ | .leave need _ => some need
  | _ => none

def Pc.inFlight : Pc → Bool
  | .takeCut _ _ | .snapshot _ _ _ _ | .merge _ _ _ | .rearm _ _ | .reclaim _ _ _
  | .reclaimDirty _ _ _ | .leave _ _ => true
  | _ => false

theorem Pc.inFlight_of_covers {p : Pc} {r c : ℕ} (h : p.covers r c) : p.inFlight = true := by
  cases p <;> first | rfl | exact h.elim

def NoneInFlight (s : State) : ℕ × Act → Prop
  | (t, .go) => match s.pc t with
    | .test _ => s.dirty = true ∨ ∀ t', t' ≠ t → (s.pc t').inFlight = false
    | _ => True
  | _ => True

structure Rest (n : ℕ) (s : State) : Prop where
  idle : ∀ t, s.pc t = .idle
  owner : s.owner = none
  draining : s.draining = false
  ring : ∀ r, RingOk s.clock (s.rings r)
  announced : s.dirty = true ∨
    ∀ r < n, (s.rings r).completed ≤ (s.rings r).replayed.length

variable {n t : ℕ} {s s₀ s' : State}

theorem Rest.inv (h : Rest n s) : Inv n s := by
  refine ⟨h.ring, fun t => ?_, fun t ht => ?_, fun hd => ?_, ?_⟩
  · rw [h.idle]
    trivial
  · simp [h.idle, holds] at ht
  · simp [h.draining] at hd
  · exact h.announced.imp_right fun hall r hr => .inl (hall r hr)

theorem reaches_inv {ok : State → ℕ × Act → Prop} (h₀ : Rest n s₀) (h : Reaches (step n) ok s₀ s) : Inv n s :=
  h.invariant h₀.inv fun _ _ _ _ hs hinv => step_inv hinv hs

theorem wcDevDrain_return {need : ℕ → ℕ}
    (hneed : (s.pc t).need = some need) (hs : step n s (t, .go) = some s')
    (hret : s'.pc t = .idle) : s'.rings = s.rings ∧
      ((s.pc t = .test need ∧ s.dirty = false) ∨ (s.pc t = .fuse need ∧ s.draining = true) ∨
        ∃ cover, s.pc t = .leave need cover) := by
  simp only [step] at hs
  cases hpc : s.pc t <;> rw [hpc] at hneed hs
  case test need' =>
    cases hneed
    cases hs
    refine ⟨rfl, .inl ⟨rfl, ?_⟩⟩
    cases hd : s.dirty with
    | true => simp [hd] at hret
    | false => rfl
  case fuse need' =>
    cases hneed
    simp only [snippet, wcDevDrain, Option.none_or] at hs
    split at hs <;> obtain rfl := Option.some.inj hs
    case isTrue hd => exact ⟨rfl, .inr (.inl ⟨rfl, hd⟩)⟩
    case isFalse => simp at hret
  case leave need' cover =>
    cases hneed
    cases hs
    exact ⟨rfl, .inr (.inr ⟨cover, rfl⟩)⟩
  case merge cut need' cover =>
    simp only [snippet, wcDevDrain, Option.none_or] at hs
    split at hs
    case h_1 => cases hs; simp at hret
    case h_2 => split at hs <;> cases hs <;> simp at hret
  case enter need' | snapshot i cut need' cover | reclaim i need' cover =>
    simp only [snippet, wcDevDrain, Option.none_or] at hs
    split_ifs at hs <;> cases hs <;> simp at hret
  case clear need' | takeCut need' cover | rearm need' cover | reclaimDirty i need' cover =>
    cases hs
    simp at hret
  all_goals cases hneed

theorem wcDevDrain_replayed {need : ℕ → ℕ} (h₀ : Rest n s₀)
    (h : Reaches (step n) NoneInFlight s₀ s) (hneed : (s.pc t).need = some need)
    (hwait : NoneInFlight s (t, .go)) (hs : step n s (t, .go) = some s')
    (hret : s'.pc t = .idle) {r : ℕ} (hr : r < n) :
    need r ≤ (s'.rings r).replayed.length := by
  have hinv := reaches_inv h₀ h
  have hok := hinv.pc t
  obtain ⟨hrings, ⟨hpc, hdirty⟩ | ⟨hpc, hdrain⟩ | ⟨cover, hpc⟩⟩ := wcDevDrain_return hneed hs hret
    <;> rw [hpc] at hok <;> rw [hrings]
  · have hidle : ∀ t', t' ≠ t → (s.pc t').inFlight = false := by
      simpa [NoneInFlight, hpc, hdirty] using hwait
    obtain hd | hall := hinv.announced
    · simp [hdirty] at hd
    obtain hdone | ⟨t', ht'⟩ := hall r hr
    · exact (hok r).trans hdone
    by_cases hne : t' = t
    · subst hne
      rw [hpc] at ht'
      exact ht'.elim
    · have := inFlight_of_covers ht'
      simp [hidle t' hne] at this
  · simp [hinv.not_draining_of_fuse hpc] at hdrain
  · exact (hok.1.need_le r).trans (hok.2 r hr)

end WinePpc64.Journal.Dev
