import WinePpc64.Journal.CtxSteps

namespace WinePpc64.Journal.Ctx

open Function Option DrainPc Pc State

variable (o : Caller)

@[simp] theorem Caller.after_lockDepth : o.after.lockDepth = o.depth := by
  cases o <;> rfl

theorem Caller.after_inSection {r : ℕ} : o.after.inSection r = false := by
  cases o <;> rfl

theorem Caller.after_ok {recorder : ℕ → ℕ} {rings : ℕ → Ring} {t : ℕ} : PcOk recorder rings t o.after := by
  cases o <;> trivial

theorem Caller.after_ne_drain {o' : Caller} {r : ℕ} {d : DrainPc} : o.after ≠ .drain o' r d := by
  cases o <;> nofun

def Undropped (s : State) : ℕ × Act → Prop
  | (t, .go) => match s.pc t with
    | .drain _ r (.bound p _) => (s.rings r).corrupt p → (s.rings r).cons = p
    | _ => True
  | _ => True

variable {g' : Ring} {recorder : ℕ → ℕ} {a : Act} {p q : Pc}

section Drain

variable {recorder : ℕ → ℕ} {s s' : State} {t r n : ℕ} {o : Caller} {d d' : DrainPc}

variable (h : Inv recorder s) (hin : (s.pc t).inSection r = true)
include h hin

theorem Inv.notInSection {t' r' : ℕ} (hne : t' ≠ t) : ¬ (s.pc t').inSection r' = true :=
  fun h' => hne (h.lock.section_unique h' hin)

theorem Inv.draining_of_inSection : (s.rings r).draining = true :=
  (h.lock.draining r).mpr ⟨t, hin⟩

omit hin

theorem Inv.not_draining_of_check (hpc : s.pc t = .drain o r (.check n)) : (s.rings r).draining = false := by
  by_contra hcon
  obtain ⟨t', ht'⟩ := (h.lock.draining r).mp (by simpa using hcon)
  have hown := h.lock.held t (by simp [hpc, lockDepth, locked])
  have hown' := h.lock.held t' (LockOk.lockDepth_pos_of_inSection ht')
  obtain rfl : t = t' := by simpa [hown] using hown'
  simp [hpc, Pc.inSection, DrainPc.inSection] at ht'

variable (hpc : s.pc t = .drain o r d)
include hpc

theorem Inv.moveDrain (hok : DrainOk (s.rings r) o.onProxy d') (hl : d'.locked = d.locked)
    (hin : d'.inSection = d.inSection) : Kept recorder s (s.setPc t (.drain o r d')) := by
  obtain ⟨hrec, hhost, -⟩ := hpc ▸ h.pc t
  refine h.setPc hpc ⟨hrec, hhost, hok⟩ (by simp [hl]) ?_
  funext r'
  simp [hin]

theorem Inv.writeDrain (hin : d.inSection = true) (hin' : d'.inSection = true) (hg : RingOk g')
    (hdr : g'.draining = (s.rings r).draining)
    (hf : Frame (s.rings r) g' (t ≠ recorder r) False) (hok : DrainOk g' o.onProxy d') :
    Kept recorder s ((s.setRing r g').setPc t (.drain o r d')) := by
  obtain ⟨hrec, hhost, -⟩ := hpc ▸ h.pc t
  have hlocked : ∀ d : DrainPc, d.inSection = true → d.locked = true := by
    intro d hd
    cases d <;> simp_all [DrainPc.inSection, DrainPc.locked]
  refine h.setRing hg (fun t' hne => hf.mono (fun hm ht => hne (hm.trans ht.symm)) ?_)
    ⟨hrec, by simpa using hf.host.trans hhost, by simpa using hok⟩ ?_
  · exact h.notInSection (r := r) (by simp [hpc, hin]) hne
  refine (h.lock.setRing hdr).setPc ?_ ?_
  · simp [hpc, hlocked, hin, hin']
  · funext r'
    simp [hpc, hin, hin']

theorem wcCtxDrain_inv
    (hdrop : Undropped s (t, .go)) (hs : wcCtxDrain s t o r d = some s') : Kept recorder s s' := by
  obtain ⟨hrec, hhost, hd⟩ := hpc ▸ h.pc t
  have hring := h.ring r
  cases d with
  | loadPos =>
    cases hs
    exact h.moveDrain hpc ⟨.inr (hring.ahead le_rfl), fun _ => rfl⟩ rfl rfl
  | loadCons p n =>
    simp only [wcCtxDrain] at hs
    split at hs <;> cases hs
    · refine h.setPc hpc o.after_ok (by simp [DrainPc.locked, DrainPc.inSection]) ?_
      funext r'
      simp [o.after_inSection, DrainPc.inSection]
    · exact h.moveDrain hpc (hd.1.le_appended hring) rfl rfl
  | enter n =>
    obtain ⟨s1, hs1, rfl⟩ := map_eq_some_iff.mp hs
    exact h.enterCs hpc hs1 ⟨hrec, hhost, hd⟩ (by simp [DrainPc.locked, DrainPc.inSection]) rfl
  | check n =>
    have hquiet := h.not_draining_of_check hpc
    have hcons := hring.quiet hquiet
    rw [wcCtxDrain, if_neg (by simp [hhost, hquiet])] at hs
    cases hs
    refine h.setRing (hring.setDraining hcons) (fun _ _ => frame_draining)
      ⟨hrec, by simpa using hhost, by simpa using ⟨hcons, hd⟩⟩ (h.lock.setDraining ?_ ?_ ?_ ?_)
    · simp [hpc, DrainPc.locked, DrainPc.inSection]
    · simp [DrainPc.inSection]
    · simp +contextual [hpc, DrainPc.inSection, eq_comm]
    · exact fun t' _ ht' => absurd (h.draining_of_inSection ht') (by simp [hquiet])
  | reload n =>
    cases hs
    exact h.moveDrain hpc ⟨hd.1, hring.ahead hd.2, fun _ => rfl⟩ rfl rfl
  | bound p n =>
    obtain ⟨hcons, hahead, hpos⟩ := hd
    simp only [wcCtxDrain] at hs
    split_ifs at hs with hbad hlt <;> cases hs
    · have hp : (s.rings r).cons = p := by
        simpa [Undropped, hpc, hbad] using hdrop
      rw [Ring.drop_self hp (hcons.symm.trans hp), setRing_self]
      exact h.moveDrain hpc ⟨hcons, hahead.le_of_done (hp ▸ hcons.le), fun ho =>
        (hcons.symm.trans hp).trans (hpos ho)⟩ rfl rfl
    · exact h.moveDrain hpc ⟨hcons.symm, hahead, hpos⟩ rfl rfl
    · have hp : (s.rings r).done = p := le_antisymm hahead.done_le (hcons ▸ not_lt.mp hlt)
      exact h.moveDrain hpc ⟨hcons, hahead.le_of_done hp.ge, fun ho => hp.trans (hpos ho)⟩
        rfl rfl
  | replay p off n =>
    obtain ⟨rfl, hahead, hpos⟩ := hd
    simp only [wcCtxDrain] at hs
    split at hs
    case isTrue hlt =>
      obtain ⟨x, hx, rfl⟩ := map_eq_some_iff.mp hs
      obtain ⟨y, hy, hahead'⟩ := hahead.replayOne hlt
      cases hy.symm.trans hx
      refine h.writeDrain hpc rfl rfl (hring.replayOne hx ?_ ?_) rfl (frame_replayOne hx)
        ⟨rfl, hahead', hpos⟩
      · exact h.draining_of_inSection (t := t) (by simp [hpc, DrainPc.inSection])
      · exact hlt.trans_le (hahead.le_pos hring)
    case isFalse hge =>
      cases hs
      have hdone := le_antisymm hahead.done_le (not_lt.mp hge)
      exact h.moveDrain hpc ⟨hdone, hahead.le_of_done hdone.ge, hpos⟩ rfl rfl
  | setCons p n =>
    cases hs
    obtain ⟨rfl, hn, hpos⟩ := hd
    refine h.writeDrain hpc rfl rfl (hring.setCons le_rfl ?_) rfl frame_cons ⟨rfl, hn, hpos⟩
    exact h.draining_of_inSection (t := t) (by simp [hpc, DrainPc.inSection])
  | reset n =>
    obtain ⟨hcons, hn, hpos⟩ := hd
    simp only [wcCtxDrain] at hs
    split at hs <;> obtain rfl := Option.some.inj hs
    case isTrue ho =>
      refine h.writeDrain hpc rfl rfl (hring.setCons (Nat.zero_le _) ?_) rfl frame_cons
        ⟨ho, rfl, hpos ho, hn⟩
      exact h.draining_of_inSection (t := t) (by simp [hpc, DrainPc.inSection])
    case isFalse ho =>
      exact h.moveDrain hpc ⟨hcons, hn, fun ho' => absurd ho' ho⟩ rfl rfl
  | resetPos n =>
    cases hs
    obtain ⟨ho, hcons, hdone, hn⟩ := hd
    exact h.writeDrain hpc rfl rfl (hring.resetPos hcons hdone) rfl
      ((frame_resetPos hring hdone).mono (fun hne => hne (hrec ho)) id) ⟨hcons, hn, fun _ => rfl⟩
  | undrain n =>
    cases hs
    obtain ⟨hcons, hn, hpos⟩ := hd
    refine h.setRing (hring.setDraining hcons) (fun _ _ => frame_draining)
      ⟨hrec, by simpa using hhost, by simpa using ⟨hn, hpos⟩⟩ (h.lock.setDraining ?_ ?_ ?_ ?_)
    · simp [hpc, DrainPc.locked, DrainPc.inSection]
    · simp [DrainPc.inSection]
    · simp +contextual [hpc, DrainPc.inSection, eq_comm]
    · exact fun t' hne => h.notInSection (r := r) (by simp [hpc, DrainPc.inSection]) hne
  | leave n =>
    cases hs
    refine h.leaveCs hpc o.after_ok (by simp [locked]) ?_
    funext r'
    simp [o.after_inSection, DrainPc.inSection]

omit hpc h

structure Shrinks (s s' : State) : Prop where
  dirty : s'.dirty = s.dirty
  cap : ∀ r, (s'.rings r).cap = (s.rings r).cap
  completed : s'.completed = s.completed
  pos : ∀ r, (s'.rings r).pos ≤ (s.rings r).pos

theorem shrinks_setPc : Shrinks s (s.setPc t p) :=
  ⟨rfl, fun _ => rfl, rfl, fun _ => le_rfl⟩

theorem setRing_completed (hg : g'.completed = (s.rings r).completed) :
    (s.setRing r g').completed = s.completed := by
  funext r'
  by_cases hr : r' = r
  · subst hr; simpa [completed] using hg
  · simp [completed, hr]

theorem shrinks_setRing (hcap : g'.cap = (s.rings r).cap)
    (hcomp : g'.completed = (s.rings r).completed) (hpos : g'.pos ≤ (s.rings r).pos) :
    Shrinks s ((s.setRing r g').setPc t p) := by
  refine ⟨rfl, fun r' => ?_, setRing_completed hcomp, fun r' => ?_⟩ <;> by_cases hr : r' = r
  · subst hr; simpa using hcap
  · simp [hr]
  · subst hr; simpa using hpos
  · simp [hr]

/-- A step of a drain: it goes on at a lower rank, or it returns. -/
inductive Drained (s s' : State) (t : ℕ) (o : Caller) (r : ℕ) (d : DrainPc) : Prop
  | next (d' : DrainPc) (hpc : s'.pc = update s.pc t (.drain o r d'))
      (hseen : d'.seen = d.seen.or (some (s.rings r).appended.length)) (hrank : d'.rank < d.rank)
  | done (hpc : s'.pc = update s.pc t o.after) (hrings : s'.rings = s.rings)
      (hd : (∃ p n, d = .loadCons p n ∧ p = (s.rings r).cons ∧ ¬ (o.onProxy = true ∧ p ≠ 0)) ∨
        ∃ n, d = .leave n)

theorem wcCtxDrain_effect (hs : wcCtxDrain s t o r d = some s') : Shrinks s s' ∧ Drained s s' t o r d := by
  -- all moves but those of the replay loop lower the first component
  have hrank : ∀ {d d' : DrainPc}, d'.phase < d.phase → d'.rank < d.rank :=
    (Prod.Lex.left _ _)
  cases d
  case loadCons p n =>
    simp only [wcCtxDrain] at hs
    split at hs <;> cases hs <;> refine ⟨shrinks_setPc, ?_⟩
    case isTrue hidle => exact .done rfl rfl (.inl ⟨p, n, rfl, hidle⟩)
    case isFalse => exact .next _ rfl rfl (hrank (by simp [phase]))
  case leave n =>
    cases hs
    exact ⟨⟨by simp, by simp, by funext r'; simp [completed], by simp⟩,
      .done (by simp) (by simp) (.inr ⟨n, rfl⟩)⟩
  case enter n =>
    obtain ⟨s1, hs1, rfl⟩ := map_eq_some_iff.mp hs
    unfold enterCs at hs1
    split at hs1 <;> cases hs1
    exact ⟨⟨rfl, fun _ => rfl, rfl, fun _ => le_rfl⟩,
      .next _ rfl rfl (hrank (by simp [phase]))⟩
  case replay p off n =>
    simp only [wcCtxDrain] at hs
    split at hs
    case isTrue hlt =>
      obtain ⟨x, -, rfl⟩ := map_eq_some_iff.mp hs
      refine ⟨shrinks_setRing rfl rfl le_rfl, .next _ rfl rfl (Prod.Lex.right _ ?_)⟩
      have := x.size_ge
      change p - (off + x.size) < p - off
      omega
    case isFalse =>
      cases hs
      exact ⟨shrinks_setPc, .next _ rfl rfl (hrank (by simp [phase]))⟩
  case check n | bound p n | reset n =>
    simp only [wcCtxDrain] at hs
    split_ifs at hs <;> cases hs <;>
      refine ⟨?_, .next _ rfl rfl (hrank (by simp [phase]))⟩ <;>
      first | exact shrinks_setPc | exact shrinks_setRing rfl rfl le_rfl
  case loadPos | reload n =>
    cases hs
    exact ⟨shrinks_setPc, .next _ rfl rfl (hrank (by simp [phase]))⟩
  all_goals
    cases hs
    exact ⟨shrinks_setRing rfl rfl (by simp), .next _ rfl rfl (hrank (by simp [phase]))⟩

theorem wcCtxDrain_enabled (h : Inv recorder s) (hpc : s.pc t = .drain o r d) :
    (∃ s', wcCtxDrain s t o r d = some s') ∨ ∃ t', t' ≠ t ∧ s.owner = some t' := by
  obtain ⟨-, -, hd⟩ := hpc ▸ h.pc t
  cases d
  case enter n =>
    by_cases hown : s.owner = none ∨ s.owner = some t
    · exact .inl (by simp [wcCtxDrain, enterCs, hown])
    · obtain ⟨hnone, hne⟩ := not_or.mp hown
      obtain ⟨t', ht'⟩ := ne_none_iff_exists'.mp hnone
      exact .inr ⟨t', fun heq => hne (heq ▸ ht'), ht'⟩
  case replay p off n =>
    obtain ⟨rfl, hahead, -⟩ := hd
    by_cases hlt : (s.rings r).done < p
    · obtain ⟨x, hx, -⟩ := hahead.replayOne hlt
      exact .inl (by simp [wcCtxDrain, hlt, hx])
    · exact .inl (by simp [wcCtxDrain, hlt])
  case loadCons p n | check n | bound p n | reset n =>
    simp only [wcCtxDrain]
    split_ifs <;> exact .inl ⟨_, rfl⟩
  all_goals exact .inl ⟨_, rfl⟩

theorem wcCtxDrain_return (h : Inv recorder s) (hpc : s.pc t = .drain o r d)
    (hs : wcCtxDrain s t o r d = some s') (hret : s'.pc t = o.after) :
    s'.rings = s.rings ∧ (∃ n, d.seen = some n ∧ n ≤ (s.rings r).replayed.length) ∧
      (o.onProxy = true → (s.rings r).pos = 0) := by
  obtain ⟨-, -, hd⟩ := hpc ▸ h.pc t
  obtain ⟨d', hp, -⟩ | ⟨-, hrings, ⟨p, n, rfl, hidle, hreset⟩ | ⟨n, rfl⟩⟩ := (wcCtxDrain_effect hs).2
  · rw [hp, update_self] at hret
    exact absurd hret.symm o.after_ne_drain
  · refine ⟨hrings, ⟨n, rfl, hd.1.le_of_cons (h.ring r) hidle⟩, fun ho => ?_⟩
    rw [← hd.2 ho]
    by_contra hne
    exact hreset ⟨ho, hne⟩
  · exact ⟨hrings, ⟨n, rfl, hd.1⟩, hd.2⟩

end Drain

section Threads

variable {recorder : ℕ → ℕ} {s s' : State} {t r : ℕ} {p : Pc}

theorem Kept.setFlags (h : Kept recorder s s') {dirty off : Bool} :
    Kept recorder s { s' with dirty := dirty, journalOff := off } :=
  ⟨{ h.inv with lock := ⟨h.inv.lock.held, h.inv.lock.depth, h.inv.lock.free, h.inv.lock.draining⟩ }, h.frame⟩

variable (h : Inv recorder s)
include h

theorem Inv.writeFree (hpc : s.pc t = q) (hg : RingOk g') (hf : ∀ t', t' ≠ t →
      Frame (s.rings r) g' (t' = recorder r) ((s.pc t').inSection r = true))
    (hdr : g'.draining = (s.rings r).draining)
    (hp : PcOk recorder (update s.rings r g') t p)
    (hd : p.lockDepth = q.lockDepth) (hsec : p.inSection = q.inSection) :
    Kept recorder s ((s.setRing r g').setPc t p) := by
  subst hpc
  exact h.setRing hg hf hp ((h.lock.setRing hdr).setPc hd hsec)

theorem snippet_inv (hpc : s.pc t = p) (hs : snippet s t p = some s') : Kept recorder s s' := by
  have hok := hpc ▸ h.pc t
  cases p with
  | room r x =>
    simp only [snippet] at hs
    split at hs <;> cases hs
    · exact h.setPc hpc ⟨hok.1, rfl⟩ rfl rfl
    · exact h.setPc hpc ⟨fun _ => hok.1, hok.2, trivial⟩ rfl inSection_loadPos
  | bytes r x pos =>
    cases hs
    obtain ⟨hrec, rfl⟩ := hok
    exact h.writeFree hpc (h.ring r).bytes
      (fun t' hne => (frame_bytes (h.ring r)).mono (fun hm => hne (hm.trans hrec.symm)) id) rfl
      ⟨hrec, by simp, by simp⟩ rfl rfl
  | commit r x pos =>
    cases hs
    obtain ⟨hrec, rfl, hx⟩ := hok
    exact h.writeFree hpc ((h.ring r).commit hx)
      (fun t' hne => frame_commit.mono (fun hm => hne (hm.trans hrec.symm)) id) rfl
      trivial rfl rfl
  | dirtyLoad r =>
    simp only [snippet] at hs
    split at hs <;> cases hs
    · exact h.writeFree hpc (h.ring r).complete (fun _ _ => frame_complete (h.ring r)) rfl trivial
        rfl rfl
    · exact h.setPc hpc trivial rfl rfl
  | dirtyStore r =>
    cases hs
    have h' : Kept recorder s ((s.setRing r (s.rings r).complete).setPc t .idle) :=
      h.writeFree hpc (h.ring r).complete (fun _ _ => frame_complete (h.ring r)) rfl trivial rfl rfl
    exact h'.setFlags
  | _ => cases hs

theorem wcCtxDrainAll_inv (hpc : s.pc t = p) (hs : wcCtxDrainAll s t p = some s') : Kept recorder s s' := by
  have hok := hpc ▸ h.pc t
  cases p with
  | allTest need =>
    cases hs
    split <;> exact h.setPc hpc trivial rfl rfl
  | allClear need =>
    cases hs
    have h' : Kept recorder s (s.setPc t (.allLoop 0 need s.completed)) :=
      h.setPc hpc trivial rfl rfl
    exact h'.setFlags
  | allLoop i need cover =>
    simp only [wcCtxDrainAll] at hs
    split_ifs at hs with hi hhost <;> cases hs
    · exact h.setPc hpc ⟨hhost, .inr ((h.ring i).ahead le_rfl)⟩ rfl rfl
    · exact h.setPc hpc trivial rfl rfl
    · exact h.setPc hpc trivial rfl rfl
  | allCons i pos n need cover =>
    simp only [wcCtxDrainAll] at hs
    split at hs <;> cases hs
    · exact h.setPc hpc trivial rfl rfl
    · exact h.setPc hpc ⟨nofun, hok.1, trivial⟩ rfl inSection_loadPos
  | _ => cases hs

theorem wcCtxJournalDisable_inv (hpc : s.pc t = p)
    (hs : wcCtxJournalDisable s t p = some s') : Kept recorder s s' := by
  have hok := hpc ▸ h.pc t
  cases p with
  | offTest =>
    cases hs
    split <;> exact h.setPc hpc trivial rfl rfl
  | offEnter =>
    obtain ⟨s1, hs1, rfl⟩ := map_eq_some_iff.mp hs
    exact h.enterCs hpc hs1 trivial rfl rfl
  | offRecheck =>
    cases hs
    split <;> exact h.setPc hpc trivial rfl rfl
  | offLoop i =>
    simp only [wcCtxJournalDisable] at hs
    split_ifs at hs with hi hhost <;> cases hs
    · exact h.setPc hpc hhost rfl rfl
    · exact h.setPc hpc trivial rfl rfl
    · exact h.setPc hpc trivial rfl rfl
  | offCap i =>
    cases hs
    have hg : RingOk { s.rings i with cap := 0 } :=
      { (h.ring i) with }
    exact h.writeFree hpc hg (fun _ _ => frame_cap) rfl
      ⟨nofun, by simpa [PcOk] using hok, by simp [DrainOk]⟩ rfl inSection_loadPos
  | offStore =>
    cases hs
    have h' : Kept recorder s (s.setPc t .offLeave) := h.setPc hpc trivial rfl rfl
    exact h'.setFlags
  | offLeave =>
    cases hs
    exact h.leaveCs hpc trivial rfl rfl
  | _ => cases hs

theorem start_inv (hpc : s.pc t = .idle) (hs : start recorder s t a = some s') : Kept recorder s s' := by
  cases a with
  | append r x =>
    simp only [start] at hs
    split at hs
    case isTrue hok =>
      cases hs
      exact h.setPc hpc hok rfl rfl
    case isFalse => cases hs
  | drain r onProxy =>
    simp only [start] at hs
    split at hs
    case isTrue hok =>
      cases hs
      exact h.setPc hpc ⟨hok.1, hok.2, trivial⟩ rfl inSection_loadPos
    case isFalse => cases hs
  | drainAll =>
    cases hs
    exact h.setPc hpc trivial rfl rfl
  | disable =>
    cases hs
    exact h.setPc hpc trivial rfl rfl
  | go => cases hs

end Threads

theorem step_cases {s s' : State} {t : ℕ} (hs : step recorder s (t, a) = some s') :
    (s.pc t = .idle ∧ start recorder s t a = some s') ∨
    (a = .go ∧ ∃ o r d, s.pc t = .drain o r d ∧ wcCtxDrain s t o r d = some s') ∨
    (a = .go ∧ (snippet s t (s.pc t) = some s' ∨ wcCtxDrainAll s t (s.pc t) = some s' ∨
      wcCtxJournalDisable s t (s.pc t) = some s')) := by
  cases a with
  | go =>
    change resume s t (s.pc t) = some s' at hs
    cases hp : s.pc t with
    | drain o r d =>
      rw [hp] at hs
      exact .inr (.inl ⟨rfl, o, r, d, rfl, hs⟩)
    | _ =>
      simp only [hp, resume, or_eq_some_iff] at hs
      refine .inr (.inr ⟨rfl, ?_⟩)
      obtain h | ⟨-, h | ⟨-, h⟩⟩ := hs
      · exact .inl h
      · exact .inr (.inl h)
      · exact .inr (.inr h)
  | _ =>
    simp only [step] at hs
    split at hs
    case h_1 hp => exact .inl ⟨hp, hs⟩
    case h_2 => cases hs

theorem step_kept {s s' : State} {l : ℕ × Act} (h : Inv recorder s)
    (hok : Undropped s l) (hs : step recorder s l = some s') : Kept recorder s s' := by
  obtain ⟨hp, hs⟩ | ⟨ha, o, r, d, hp, hs⟩ | ⟨-, hs | hs | hs⟩ := step_cases hs
  · exact start_inv h hp hs
  · obtain ⟨t, a⟩ := l
    obtain rfl := ha
    exact wcCtxDrain_inv h hp hok hs
  · exact snippet_inv h rfl hs
  · exact wcCtxDrainAll_inv h rfl hs
  · exact wcCtxJournalDisable_inv h rfl hs

end WinePpc64.Journal.Ctx
