import WinePpc64.Journal.CtxExactlyOnce

/-!
What a dispatching thread may rely on when `wc_ctx_drain_all` comes back. A completed append
is announced by the dirty byte until some thread clears it, and from then on by the thread
that cleared it: its loop still has the ring ahead of it, and the count of completed appends
it took at the clear covers the record.
-/

namespace WinePpc64.Journal.Ctx

open Function Lib Pc

def Pc.need : Pc → Option (ℕ → ℕ)
  | .allTest need | .allClear need | .allLoop _ need _ | .allCons _ _ _ need _
  | .drain (.all _ need _) _ _ => some need
  | _ => none

def Pc.inFlight : Pc → Bool
  | .allLoop _ _ _ | .allCons _ _ _ _ _ | .drain (.all _ _ _) _ _ => true
  | _ => false

def Pc.covers (r c : ℕ) : Pc → Prop
  | .allLoop i _ cover | .allCons i _ _ _ cover | .drain (.all i _ cover) _ _ =>
    i ≤ r ∧ c ≤ cover r
  | _ => False

structure Passed (rings : ℕ → Ring) (i : ℕ) (need cover : ℕ → ℕ) : Prop where
  need_le : ∀ r, need r ≤ cover r
  cover_le : ∀ r, cover r ≤ (rings r).completed
  replayed : ∀ r < i, (rings r).host = true → cover r ≤ (rings r).replayed.length

def CoverOk (rings : ℕ → Ring) : Pc → Prop
  | .allTest need | .allClear need => ∀ r, need r ≤ (rings r).completed
  | .allLoop i need cover => Passed rings i need cover
  | .allCons i _ n need cover => Passed rings i need cover ∧ cover i ≤ n
  | .drain (.all i need cover) r d =>
    Passed rings i need cover ∧ r = i ∧ ∀ n, d.seen = some n → cover i ≤ n
  | _ => True

structure Tracked (s : State) : Prop where
  pool : ∀ r, (s.rings r).host = true → r < ctxRingsMax
  pc : ∀ t, CoverOk s.rings (s.pc t)
  announced : s.dirty = true ∨ ∀ r, (s.rings r).host = true →
    (s.rings r).completed ≤ (s.rings r).replayed.length ∨
      ∃ t, (s.pc t).covers r (s.rings r).completed

variable {need : ℕ → ℕ} {r i : ℕ} {p : Pc}

theorem Passed.mono {rings rings' : ℕ → Ring} {cover : ℕ → ℕ}
    (h : Passed rings i need cover) (hf : ∀ r, Frame (rings r) (rings' r) False False) :
    Passed rings' i need cover :=
  ⟨h.need_le, fun r => (h.cover_le r).trans (hf r).completed,
    fun r hr hhost => (h.replayed r hr ((hf r).host ▸ hhost)).trans (hf r).replayed⟩

theorem CoverOk.mono {rings rings' : ℕ → Ring} (h : CoverOk rings p)
    (hf : ∀ r, Frame (rings r) (rings' r) False False) : CoverOk rings' p := by
  cases p with
  | allTest need => exact fun r => (h r).trans (hf r).completed
  | allClear need => exact fun r => (h r).trans (hf r).completed
  | allLoop i need cover => exact Passed.mono h hf
  | allCons i pos n need cover => exact ⟨h.1.mono hf, h.2⟩
  | drain o r d =>
    cases o with
    | all i need cover => exact ⟨h.1.mono hf, h.2⟩
    | _ => trivial
  | _ => trivial

section Steps

variable {recorder : ℕ → ℕ} {s s' : State} {t : ℕ} {p : Pc}

variable (h : Tracked s) (hf : ∀ r, Frame (s.rings r) (s'.rings r) False False)
  (hpc : s'.pc = update s.pc t p) (hp : CoverOk s'.rings p)
include h hf hpc hp

theorem Tracked.pc_update (t' : ℕ) : CoverOk s'.rings (s'.pc t') := by
  rw [hpc]
  by_cases hne : t' = t
  · subst hne; simpa using hp
  · simpa [hne] using (h.pc t').mono hf

theorem Tracked.announce (hdirty : s'.dirty = true) : Tracked s' :=
  ⟨fun r hr => h.pool r ((hf r).host ▸ hr), h.pc_update hf hpc hp, .inl hdirty⟩

theorem Tracked.move (hdirty : s'.dirty = s.dirty) (hcomp : s'.completed = s.completed)
    (hcov : ∀ r, (s.rings r).host = true → (s.pc t).covers r (s.rings r).completed →
      p.covers r (s.rings r).completed ∨
        (s.rings r).completed ≤ (s'.rings r).replayed.length) : Tracked s' := by
  refine ⟨fun r hr => h.pool r ((hf r).host ▸ hr), h.pc_update hf hpc hp, ?_⟩
  have hcomp' : ∀ r, (s'.rings r).completed = (s.rings r).completed := congrFun hcomp
  refine h.announced.imp hdirty.trans fun hall r hhost => ?_
  rw [(hf r).host] at hhost
  rw [hcomp' r, hpc]
  obtain hle | ⟨t', ht'⟩ := hall r hhost
  · exact .inl (hle.trans (hf r).replayed)
  by_cases hne : t' = t
  · subst hne
    obtain hp' | hle := hcov r hhost ht'
    · exact .inr ⟨t', by simpa using hp'⟩
    · exact .inl hle
  · exact .inr ⟨t', by simpa [hne] using ht'⟩

omit hp hpc

theorem Tracked.advance {cover : ℕ → ℕ} (hpc : s'.pc = update s.pc t (.allLoop (i + 1) need cover))
    (hp : Passed s'.rings i need cover) (hdirty : s'.dirty = s.dirty)
    (hcomp : s'.completed = s.completed)
    (hcov : ∀ r c, (s.pc t).covers r c → i ≤ r ∧ c ≤ cover r)
    (hdone : (s'.rings i).host = true → cover i ≤ (s'.rings i).replayed.length) : Tracked s' := by
  refine h.move hf hpc ⟨hp.need_le, hp.cover_le, fun r hr hhost => ?_⟩ hdirty hcomp ?_
  · obtain hlt | rfl := Nat.lt_succ_iff_lt_or_eq.mp hr
    · exact hp.replayed r hlt hhost
    · exact hdone hhost
  intro r hhost hc
  obtain ⟨hle, hle'⟩ := hcov r _ hc
  obtain hlt | rfl := Nat.lt_or_eq_of_le hle
  · exact .inl ⟨hlt, hle'⟩
  · exact .inr (hle'.trans (hdone ((hf i).host.trans hhost)))

omit hf

theorem wcCtxDrain_tracked {o : Caller} {d : DrainPc}
    (hinv : Inv recorder s) (hk : Kept recorder s s') (hpc : s.pc t = .drain o r d)
    (hs : wcCtxDrain s t o r d = some s') : Tracked s' := by
  obtain ⟨⟨hdirty, -, hcomp, -⟩, hdrained⟩ := wcCtxDrain_effect hs
  have hcov : CoverOk s'.rings (.drain o r d) := CoverOk.mono (hpc ▸ h.pc t) hk.frame
  obtain ⟨d', hpc', hseen, -⟩ | ⟨hpc', -⟩ := hdrained
  · refine h.move hk.frame hpc' ?_ hdirty hcomp ?_
    · cases o with
      | all i need cover =>
        obtain ⟨hpassed, rfl, hn⟩ := hcov
        refine ⟨hpassed, rfl, fun n hn' => ?_⟩
        cases hd : d.seen with
        | some m =>
          obtain rfl : m = n := by simpa [hseen, hd] using hn'
          exact hn m hd
        | none =>
          obtain rfl : (s.rings r).appended.length = n := by simpa [hseen, hd] using hn'
          have hcomp' : (s'.rings r).completed = (s.rings r).completed := congrFun hcomp r
          exact (hpassed.cover_le r).trans (hcomp' ▸ (hinv.ring r).completed_le)
      | _ => trivial
    · intro r' _ hcovers
      rw [hpc] at hcovers
      left
      cases o with
      | all i need cover => exact hcovers
      | _ => exact hcovers
  · have hret : s'.pc t = o.after := by rw [hpc', update_self]
    obtain ⟨hrings, ⟨n, hn, hle⟩, -⟩ := wcCtxDrain_return hinv hpc hs hret
    cases o with
    | all i need cover =>
      obtain ⟨hpassed, rfl, hcn⟩ := hcov
      refine h.advance hk.frame hpc' hpassed hdirty hcomp ?_ fun _ => ?_
      · rw [hpc]
        exact fun _ _ hc => hc
      · exact (hcn n hn).trans (hrings ▸ hle)
    | _ =>
      refine h.move hk.frame hpc' trivial hdirty hcomp ?_
      rw [hpc]
      exact fun _ _ hc => hc.elim

theorem snippet_tracked (hk : Kept recorder s s') (hpc : s.pc t = p)
    (hs : snippet s t p = some s') : Tracked s' := by
  cases p with
  | room r x =>
    simp only [snippet] at hs
    split at hs <;> cases hs <;>
      exact h.move hk.frame rfl trivial rfl rfl (by simp [hpc, covers])
  | bytes r x pos | commit r x pos =>
    cases hs
    exact h.move hk.frame rfl trivial rfl (setRing_completed rfl) (by simp [hpc, covers])
  | dirtyLoad r =>
    simp only [snippet] at hs
    split at hs <;> obtain rfl := Option.some.inj hs
    case isTrue hdirty => exact h.announce hk.frame rfl trivial hdirty
    case isFalse => exact h.move hk.frame rfl trivial rfl rfl (by simp [hpc, covers])
  | dirtyStore r =>
    cases hs
    exact h.announce hk.frame rfl trivial rfl
  | _ => cases hs

theorem wcCtxDrainAll_tracked (hinv : Inv recorder s) (hk : Kept recorder s s')
    (hpc : s.pc t = p) (hs : wcCtxDrainAll s t p = some s') : Tracked s' := by
  have hcov := hpc ▸ h.pc t
  cases p with
  | allTest need =>
    cases hs
    refine h.move hk.frame rfl ?_ rfl rfl (by simp [hpc, covers])
    split
    · exact hcov
    · trivial
  | allClear need =>
    cases hs
    -- from here on this thread answers for everything that is complete
    refine ⟨h.pool, h.pc_update hk.frame rfl ⟨hcov, fun _ => le_rfl, by simp⟩, .inr ?_⟩
    intro r _
    exact .inr ⟨t, by simp [covers, State.completed]⟩
  | allLoop i need cover =>
    simp only [wcCtxDrainAll] at hs
    split_ifs at hs with hi hhost <;> cases hs
    · refine h.move hk.frame rfl ⟨hcov, ?_⟩ rfl rfl fun r' _ hc => .inl ?_
      · exact (hcov.cover_le i).trans (hinv.ring i).completed_le
      · rw [hpc] at hc
        exact hc
    · refine h.advance hk.frame rfl hcov rfl rfl ?_ fun hhost' => absurd hhost' hhost
      rw [hpc]
      exact fun _ _ hc => hc
    · refine h.move hk.frame rfl trivial rfl rfl fun r' hhost' hc => ?_
      rw [hpc] at hc
      exact absurd (hc.1.trans_lt (h.pool r' hhost')) hi
  | allCons i pos n need cover =>
    obtain ⟨hpassed, hn⟩ := hcov
    obtain ⟨-, hseen⟩ := hpc ▸ hinv.pc t
    simp only [wcCtxDrainAll] at hs
    split at hs <;> obtain rfl := Option.some.inj hs
    case isTrue hidle =>
      have hle := hn.trans (hseen.le_of_cons (hinv.ring i) hidle)
      refine h.advance hk.frame rfl hpassed rfl rfl ?_ fun _ => hle
      rw [hpc]
      exact fun _ _ hc => hc
    case isFalse =>
      refine h.move hk.frame rfl ⟨hpassed, rfl, by simp [DrainPc.seen]⟩ rfl rfl fun r' _ hc => .inl ?_
      rw [hpc] at hc
      exact hc
  | _ => cases hs

theorem start_tracked (hk : Kept recorder s s') (hpc : s.pc t = .idle) {a : Act}
    (hs : start recorder s t a = some s') : Tracked s' := by
  have hidle : ∀ r, (s.rings r).host = true → (s.pc t).covers r (s.rings r).completed → False := by
    simp [hpc, covers]
  cases a with
  | drainAll =>
    cases hs
    exact h.move hk.frame rfl (fun _ => le_rfl) rfl rfl fun r hr hc => (hidle r hr hc).elim
  | disable =>
    cases hs
    exact h.move hk.frame rfl trivial rfl rfl fun r hr hc => (hidle r hr hc).elim
  | go => cases hs
  | _ =>
    simp only [start] at hs
    split at hs
    case isTrue =>
      cases hs
      exact h.move hk.frame rfl trivial rfl rfl fun r hr hc => (hidle r hr hc).elim
    case isFalse => cases hs

theorem step_tracked {l : ℕ × Act} (hinv : Inv recorder s) (hfits : Fits s)
    (hs : step recorder s l = some s') : Tracked s' := by
  have hk := step_kept hinv (hinv.undropped hfits) hs
  obtain ⟨hp, hs⟩ | ⟨-, o, r, d, hp, hs⟩ | ⟨-, hs | hs | hs⟩ := step_cases hs
  · exact start_tracked h hk hp hs
  · exact wcCtxDrain_tracked h hinv hk hp hs
  · exact snippet_tracked h hk rfl hs
  · exact wcCtxDrainAll_tracked h hinv hk rfl hs
  · have hp := hfits.pc l.1
    cases hpc : s.pc l.1 <;> rw [hpc] at hs hp <;> first | exact False.elim hp | cases hs

end Steps

def NoneInFlight (s : State) : ℕ × Act → Prop
  | (t, .go) => match s.pc t with
    | .allTest _ => s.dirty = true ∨ ∀ t', t' ≠ t → (s.pc t').inFlight = false
    | _ => True
  | _ => True

def Waits (s : State) (l : ℕ × Act) : Prop := NoDisable s l ∧ NoneInFlight s l

structure Announced (s : State) : Prop extends Attached s where
  pool : ∀ r, (s.rings r).host = true → r < ctxRingsMax
  announced : s.dirty = true ∨ ∀ r, (s.rings r).host = true →
    (s.rings r).completed ≤ (s.rings r).replayed.length

variable {recorder : ℕ → ℕ} {t c : ℕ}

theorem reaches_tracked {s₀ s : State} (h₀ : Announced s₀)
    (h : Reaches (step recorder) NoDisable s₀ s) : Tracked s := by
  have hall : (Inv recorder s ∧ Fits s) ∧ Tracked s := by
    refine h.invariant (P := fun s => (Inv recorder s ∧ Fits s) ∧ Tracked s)
      ⟨reaches_inv h₀.toAttached .refl, h₀.pool, fun t => ?_, ?_⟩ ?_
    · rw [h₀.idle]
      trivial
    · exact h₀.announced.imp_right fun hall r hr => .inl (hall r hr)
    · rintro u l v hok hs ⟨⟨hinv, hfits⟩, htr⟩
      exact ⟨⟨(step_kept hinv (hinv.undropped hfits) hs).inv, step_fits hfits hok hs⟩,
        step_tracked htr hinv hfits hs⟩
  exact hall.2

theorem Pc.inFlight_of_covers (h : p.covers r c) : p.inFlight = true := by
  cases p with
  | drain o r' d =>
    cases o with
    | all i need cover => rfl
    | _ => exact h.elim
  | allLoop i need cover => rfl
  | allCons i pos n need cover => rfl
  | _ => exact h.elim

theorem wcCtxDrainAll_return {s s' : State}
    (hneed : (s.pc t).need = some need) (hs : step recorder s (t, .go) = some s')
    (hret : s'.pc t = .idle) : s' = s.setPc t .idle ∧ ((s.pc t = .allTest need ∧ s.dirty = false) ∨
        ∃ i cover, s.pc t = .allLoop i need cover ∧ ctxRingsMax ≤ i) := by
  change resume s t (s.pc t) = some s' at hs
  cases hpc : s.pc t with
  | allTest need' =>
    rw [hpc] at hneed hs
    cases hneed
    cases hs
    cases hd : s.dirty with
    | true => simp [hd] at hret
    | false => exact ⟨by simp, .inl ⟨rfl, rfl⟩⟩
  | allClear need' =>
    rw [hpc] at hs
    cases hs
    simp at hret
  | allLoop i need' cover =>
    rw [hpc] at hneed hs
    cases hneed
    simp only [resume, snippet, wcCtxDrainAll, Option.none_or] at hs
    split_ifs at hs with hi hhost <;> cases hs
    · simp at hret
    · simp at hret
    · exact ⟨rfl, .inr ⟨i, cover, rfl, not_lt.mp hi⟩⟩
  | allCons i pos n need' cover =>
    rw [hpc] at hs
    simp only [resume, snippet, wcCtxDrainAll, Option.none_or] at hs
    split at hs <;> cases hs <;> simp at hret
  | drain o r d =>
    rw [hpc] at hneed hs
    obtain ⟨d', hp, -⟩ | ⟨hp, -⟩ := (wcCtxDrain_effect hs).2 <;>
      rw [hp, update_self] at hret
    · cases hret
    · cases o with
      | all i need' cover => cases hret
      | _ => cases hneed
  | _ => rw [hpc] at hneed; cases hneed

theorem wcCtxDrainAll_replayed {s₀ s s' : State}
    (h₀ : Announced s₀) (h : Reaches (step recorder) Waits s₀ s)
    (hneed : (s.pc t).need = some need) (hwait : Waits s (t, .go))
    (hs : step recorder s (t, .go) = some s') (hret : s'.pc t = .idle)
    (hr : (s'.rings r).host = true) : need r ≤ (s'.rings r).replayed.length := by
  have htr := reaches_tracked h₀ (h.mono fun _ _ hok => hok.1)
  have hcov := htr.pc t
  obtain ⟨rfl, ⟨hpc, hdirty⟩ | ⟨i, cover, hpc, hi⟩⟩ := wcCtxDrainAll_return hneed hs hret <;>
    rw [hpc] at hcov
  · have hle : need r ≤ (s.rings r).completed := hcov r
    have hidle : ∀ t', t' ≠ t → (s.pc t').inFlight = false := by
      simpa [NoneInFlight, hpc, hdirty] using hwait.2
    obtain hd | hall := htr.announced
    · simp [hdirty] at hd
    obtain hdone | ⟨t', ht'⟩ := hall r hr
    · exact hle.trans hdone
    by_cases hne : t' = t
    · subst hne
      rw [hpc] at ht'
      exact ht'.elim
    · have := inFlight_of_covers ht'
      simp [hidle t' hne] at this
  · exact (hcov.need_le r).trans (hcov.replayed r ((htr.pool r hr).trans_le hi) hr)

end WinePpc64.Journal.Ctx
