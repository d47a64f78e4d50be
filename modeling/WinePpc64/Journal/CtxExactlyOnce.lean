import WinePpc64.Journal.CtxRuns

namespace WinePpc64.Journal.Ctx

open Lib Pc

structure Attached (s : State) : Prop where
  idle : ∀ t, s.pc t = .idle
  owner : s.owner = none
  depth : s.depth = 0
  ring : ∀ r, RingOk (s.rings r)
  quiet : ∀ r, (s.rings r).draining = false
  fits : ∀ r, (s.rings r).pos ≤ (s.rings r).cap

variable {s : State}

theorem Attached.inv (h : Attached s) {recorder : ℕ → ℕ} : Inv recorder s := by
  refine ⟨h.ring, fun t => by rw [h.idle]; trivial, ⟨fun t ht => ?_, fun t ht => ?_,
    fun _ => h.depth, fun r => ?_⟩⟩
  · simp [h.idle, lockDepth] at ht
  · simp [h.owner] at ht
  · simp [h.quiet, h.idle, inSection]

def NoDisable (_ : State) (l : ℕ × Act) : Prop := l.2 ≠ .disable

def Pc.fits (rings : ℕ → Ring) : Pc → Prop
  | .bytes r x p | .commit r x p => p + x.size ≤ (rings r).cap
  | .drain (.disable _) _ _ => False
  | .offTest | .offEnter | .offRecheck | .offLoop _ | .offCap _ | .offStore | .offLeave => False
  | _ => True

structure Fits (s : State) : Prop where
  ring : ∀ r, (s.rings r).pos ≤ (s.rings r).cap
  pc : ∀ t, (s.pc t).fits s.rings

variable {p : Pc}

theorem Pc.fits_congr {rings rings' : ℕ → Ring} (h : p.fits rings)
    (hcap : ∀ r, (rings' r).cap = (rings r).cap) : p.fits rings' := by
  cases p with
  | bytes r x pos => simpa [fits, hcap] using h
  | commit r x pos => simpa [fits, hcap] using h
  | drain o r d => cases o <;> exact h
  | _ => exact h

variable {t r : ℕ} {s' : State}

variable (h : Fits s)
include h

theorem Fits.update (hpc : s'.pc = Function.update s.pc t p)
    (hcap : ∀ r, (s'.rings r).cap = (s.rings r).cap)
    (hpos : ∀ r, (s'.rings r).pos ≤ (s'.rings r).cap) (hp : p.fits s'.rings) : Fits s' := by
  refine ⟨hpos, fun t' => ?_⟩
  rw [hpc]
  by_cases hne : t' = t
  · subst hne; simpa using hp
  · simpa [hne] using fits_congr (h.pc t') hcap

theorem Fits.setPc (hp : p.fits s.rings) : Fits (s.setPc t p) :=
  h.update rfl (fun _ => rfl) h.ring hp

theorem Fits.setRing {g' : Ring}
    (hcap : g'.cap = (s.rings r).cap) (hpos : g'.pos ≤ (s.rings r).cap) (hp : p.fits s.rings) :
    Fits ((s.setRing r g').setPc t p) := by
  have hcaps : ∀ r', (Function.update s.rings r g' r').cap = (s.rings r').cap := by
    intro r'
    by_cases hr : r' = r
    · subst hr; simpa using hcap
    · simp [hr]
  refine h.update rfl hcaps (fun r' => ?_) (fits_congr hp hcaps)
  by_cases hr : r' = r
  · subst hr; simpa [hcap] using hpos
  · simpa [hr] using h.ring r'

theorem wcCtxDrain_fits {o : Caller} {d : DrainPc}
    (hpc : s.pc t = .drain o r d) (hs : wcCtxDrain s t o r d = some s') : Fits s' := by
  obtain ⟨hshrinks, hdrained⟩ := wcCtxDrain_effect hs
  have hpos : ∀ r, (s'.rings r).pos ≤ (s'.rings r).cap := fun r =>
    ((hshrinks.pos r).trans (h.ring r)).trans (hshrinks.cap r).ge
  have ht := hpc ▸ h.pc t
  obtain ⟨d', hpc', -⟩ | ⟨hpc', -⟩ := hdrained <;>
    refine h.update hpc' hshrinks.cap hpos ?_ <;> cases o <;> first | exact ht.elim | trivial

theorem snippet_fits (hpc : s.pc t = p) (hs : snippet s t p = some s') : Fits s' := by
  have hp := hpc ▸ h.pc t
  cases p with
  | room r x =>
    simp only [snippet] at hs
    split at hs <;> obtain rfl := Option.some.inj hs
    case isTrue hroom => exact h.setPc hroom
    case isFalse => exact h.setPc trivial
  | bytes r x pos => cases hs; exact h.setRing rfl (h.ring r) hp
  | commit r x pos => cases hs; exact h.setRing rfl hp trivial
  | dirtyLoad r =>
    simp only [snippet] at hs
    split at hs <;> cases hs
    · exact h.setRing rfl (h.ring r) trivial
    · exact h.setPc trivial
  | dirtyStore r =>
    cases hs
    have h' : Fits ((s.setRing r (s.rings r).complete).setPc t .idle) :=
      h.setRing rfl (h.ring r) trivial
    exact { h' with }
  | _ => cases hs

theorem wcCtxDrainAll_fits (hs : wcCtxDrainAll s t p = some s') : Fits s' := by
  cases p with
  | allTest need =>
    cases hs
    split <;> exact h.setPc trivial
  | allClear need =>
    cases hs
    have h' : Fits (s.setPc t (.allLoop 0 need s.completed)) := h.setPc trivial
    exact { h' with }
  | allLoop i need cover =>
    simp only [wcCtxDrainAll] at hs
    split_ifs at hs <;> cases hs <;> exact h.setPc trivial
  | allCons i pos n need cover =>
    simp only [wcCtxDrainAll] at hs
    split at hs <;> cases hs <;> exact h.setPc trivial
  | _ => cases hs

variable {recorder : ℕ → ℕ} {l : ℕ × Act}

theorem start_fits {a : Act} (ha : a ≠ .disable) (hs : start recorder s t a = some s') : Fits s' := by
  cases a with
  | disable => exact absurd rfl ha
  | drainAll => cases hs; exact h.setPc trivial
  | go => cases hs
  | _ =>
    simp only [start] at hs
    split at hs
    case isTrue => cases hs; exact h.setPc trivial
    case isFalse => cases hs

theorem step_fits (hok : NoDisable s l) (hs : step recorder s l = some s') : Fits s' := by
  obtain ⟨-, hs⟩ | ⟨-, o, r, d, hp, hs⟩ | ⟨-, hs | hs | hs⟩ := step_cases hs
  · exact start_fits h hok hs
  · exact wcCtxDrain_fits h hp hs
  · exact snippet_fits h rfl hs
  · exact wcCtxDrainAll_fits h hs
  · have hp := h.pc l.1
    cases hpc : s.pc l.1 <;> rw [hpc] at hs hp <;> first | exact False.elim hp | cases hs

omit h

theorem Inv.undropped (h : Inv recorder s) (hfits : Fits s) : Undropped s l := by
  obtain ⟨t, a⟩ := l
  cases a with
  | go =>
    simp only [Undropped]
    split
    case h_2 => trivial
    case h_1 o r p n hpc =>
      obtain ⟨-, -, hcons, hahead, -⟩ := hpc ▸ h.pc t
      have hle := hahead.le_pos (h.ring r)
      have hge := hahead.done_le
      have hcap := hfits.ring r
      rintro (hbad | hbad) <;> omega
  | _ => trivial

theorem reaches_inv {s₀ : State} (h₀ : Attached s₀)
    (h : Reaches (step recorder) NoDisable s₀ s) : Inv recorder s ∧ Fits s := by
  refine h.invariant (P := fun s => Inv recorder s ∧ Fits s) ⟨h₀.inv, h₀.fits, ?_⟩ ?_
  · intro t
    rw [h₀.idle]
    trivial
  · rintro u l v hok hs ⟨hinv, hfits⟩
    exact ⟨(step_kept hinv (hinv.undropped hfits) hs).inv, step_fits hfits hok hs⟩

/-- Every record goes to replay once and in order, whoever drains. -/
theorem ctxRing_exactly_once {recorder : ℕ → ℕ} {s₀ s : State} (h₀ : Attached s₀)
    (h : Reaches (step recorder) NoDisable s₀ s) :
    (∀ r, (∃ rest, (s.rings r).appended = (s.rings r).replayed ++ rest ∧
        Encodes (s.rings r).data (s.rings r).done (s.rings r).pos rest) ∧
      (s.rings r).cons ≤ (s.rings r).pos) ∧
    ∀ t r d s', s.pc t = .drain (.direct true) r d → step recorder s (t, .go) = some s' →
      s'.pc t = .idle → (s'.rings r).replayed = (s'.rings r).appended ∧
        (s'.rings r).pos = 0 ∧ (s'.rings r).cons = 0 := by
  obtain ⟨hinv, -⟩ := reaches_inv h₀ h
  refine ⟨fun r => ⟨(hinv.ring r).pending, (hinv.ring r).le.trans (hinv.ring r).done_le⟩, ?_⟩
  intro t r d s' hpc hs hret
  have hs' : wcCtxDrain s t (.direct true) r d = some s' := by
    simpa [step, resume, hpc] using hs
  obtain ⟨hrings, -, hpos⟩ := wcCtxDrain_return hinv hpc hs' hret
  rw [hrings]
  have hring := hinv.ring r
  have hzero := hpos rfl
  have hdone : (s.rings r).done = (s.rings r).pos := by
    have := hring.done_le
    omega
  have := hring.le
  exact ⟨hring.replayed_eq hdone, hzero, by omega⟩

def goes (t k : ℕ) : List (ℕ × Act) := List.replicate k (t, .go)

namespace TwoThreads

def emptyRing (host : Bool) : Ring :=
  { pos := 0, cap := journalCtxRingSize, cons := 0, host := host, draining := false,
    data := fun _ => none, done := 0, appended := [], replayed := [], completed := 0 }

def pool : State :=
  { rings := fun r => emptyRing (r = 0), owner := none, depth := 0, dirty := false,
    journalOff := false, pc := fun _ => .idle }

theorem pool_attached : Attached pool :=
  ⟨fun _ => rfl, rfl, rfl,
    fun _ => ⟨le_rfl, ⟨[], rfl, rfl⟩, fun _ => rfl, le_rfl⟩, fun _ => rfl, fun _ => Nat.zero_le _⟩

def draw : CtxRec := ⟨24, 1, by decide, by decide⟩

def trace : List (ℕ × Act) :=
  [(0, Act.append 0 draw)] ++ goes 0 5 ++ [(1, Act.drain 0 false)] ++ goes 1 6 ++
    [(0, Act.append 0 draw)] ++ goes 0 4 ++ [(0, Act.drain 0 true)] ++ goes 0 2 ++ goes 1 6 ++
    goes 0 10

def beforeReturn : State := (run (step fun _ => 0) pool trace).get (by decide +kernel)

def keepsJournal : ℕ × Act → Bool
  | (_, .disable) => false
  | _ => true

theorem beforeReturn_reached : Reaches (step fun _ => 0) NoDisable pool beforeReturn := by
  refine reaches_of_okRun (b := fun _ => keepsJournal) ?_ (by decide +kernel) (Option.some_get _).symm
  rintro - ⟨t, a⟩ h rfl
  cases h

theorem ctxRing_exactly_once_twoThreads : ∃ s', step (fun _ => 0) beforeReturn (0, .go) = some s' ∧
    (s'.rings 0).appended.length = 2 ∧ (s'.rings 0).replayed = (s'.rings 0).appended ∧
      (s'.rings 0).pos = 0 ∧ (s'.rings 0).cons = 0 :=
  ⟨_, rfl, rfl, (ctxRing_exactly_once pool_attached beforeReturn_reached).2 0 0 (.leave 2) _
    rfl rfl rfl⟩

end TwoThreads

end WinePpc64.Journal.Ctx
