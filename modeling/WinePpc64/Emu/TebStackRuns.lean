import WinePpc64.Emu.TebStack

namespace WinePpc64.Emu.Teb

open Lib State

variable {s t : State} {a : Act} {r : Run} {runs : List Run}

structure Stale (known stack : TebStack) : Prop where
  base : known.base = stack.base
  dealloc : known.dealloc = stack.dealloc
  limit : stack.limit ≤ known.limit

theorem Stale.refl {stack : TebStack} : Stale stack stack := ⟨rfl, rfl, le_rfl⟩

variable {stack : TebStack}

theorem Stale.lower {known : TebStack} (h : Stale known stack) {limit : ℕ} : Stale known (stack.lower limit) :=
  ⟨h.base, h.dealloc, (min_le_left _ _).trans h.limit⟩

/-- The records of the runs, innermost first: each has a description of its guest stack, in
`emu_guest_teb_stack` or in the next run's `prev_teb_stack`, and one of the native stack. -/
def Chain (native : TebStack) : TebStack → List Run → Prop
  | _, [] => True
  | guest, r :: runs => Stale guest r.own ∧ r.own.base ≠ 0 ∧ Stale r.saved native ∧ Chain native r.prev runs

theorem Chain.lower {native guest : TebStack} (h : Chain native guest runs) {limit : ℕ} :
    Chain (native.lower limit) guest runs := by
  induction runs generalizing guest with
  | nil => trivial
  | cons r runs ih =>
    obtain ⟨hguest, hbase, hsaved, hrest⟩ := h
    exact ⟨hguest, hbase, hsaved.lower, ih hrest⟩

structure Inv (s : State) : Prop where
  teb : Stale s.teb s.owner
  base : s.ownNative.base ≠ 0
  native : s.native.base ≠ 0 → Stale s.native s.ownNative
  captured : s.runs ≠ [] → s.native.base ≠ 0
  chain : Chain s.ownNative s.guest s.runs
  outer : ∀ r ∈ s.runs.tail, r.phase ≠ .guest

variable {teb : TebStack}

theorem install_eq (h : stack.base ≠ 0) : emuTebStackInstall teb stack = stack :=
  if_neg h

theorem owner_guest (hs : s.runs = r :: runs) (hp : r.phase = .guest) : s.owner = r.own := by
  rw [owner, hs]
  exact if_pos hp

theorem owner_native (h : ∀ r ∈ s.runs.head?, r.phase ≠ .guest) : s.owner = s.ownNative := by
  cases hs : s.runs with
  | nil => rw [owner, hs]
  | cons r runs =>
    rw [owner, hs]
    exact if_neg (h r (by simp [hs]))

theorem onNative_iff : s.onNative = true ↔ ∀ r ∈ s.runs.head?, r.phase ≠ .guest := by
  cases hs : s.runs with
  | nil => simp [onNative, hs]
  | cons r runs => simp [onNative, hs]

theorem inPhase_eq_some {p : Phase} {f : Run → List Run → State} (h : Inv s)
    (hs : s.inPhase p f = some t) : ∃ r runs, s.runs = r :: runs ∧ r.phase = p ∧ s.native.base ≠ 0 ∧
      Chain s.ownNative s.guest (r :: runs) ∧ s.owner = (if p = .guest then r.own else s.ownNative) ∧
      Stale s.teb (if p = .guest then r.own else s.ownNative) ∧ t = f r runs := by
  have hchain := h.chain
  unfold inPhase at hs
  cases hr : s.runs with
  | nil => simp [hr] at hs
  | cons r runs =>
    simp only [hr] at hs hchain
    split_ifs at hs with hp
    subst hp
    have howner : s.owner = if r.phase = .guest then r.own else s.ownNative := by rw [owner, hr]
    exact ⟨r, runs, rfl, rfl, h.captured (by simp [hr]), hchain, howner, howner ▸ h.teb,
      (Option.some.inj hs).symm⟩

theorem Inv.owner_native_exit (h : Inv s) (hs : s.runs = r :: runs) : ∀ r ∈ runs.head?, r.phase ≠ .guest := by
  intro r' hr'
  refine h.outer r' ?_
  rw [hs]
  exact List.mem_of_mem_head? hr'

theorem inv_init (h : stack.base ≠ 0) : Inv (.init stack) :=
  ⟨.refl, h, fun h0 => absurd rfl h0, fun h0 => absurd rfl h0, trivial, by simp [init]⟩

theorem inv_capture (h : Inv s) (hn : s.onNative = true) :
    Inv (emuCaptureNativeTebStack s) ∧ (emuCaptureNativeTebStack s).native.base ≠ 0 := by
  unfold emuCaptureNativeTebStack
  split_ifs with h0
  · exact ⟨h, h0⟩
  have hteb := h.teb
  rw [owner_native (onNative_iff.mp hn)] at hteb
  have hbase : s.teb.base ≠ 0 := hteb.base ▸ h.base
  exact ⟨⟨h.teb, h.base, fun _ => hteb, fun _ => hbase, h.chain, h.outer⟩, hbase⟩

theorem capture_fields : (emuCaptureNativeTebStack s).teb = s.teb ∧
    (emuCaptureNativeTebStack s).guest = s.guest ∧ (emuCaptureNativeTebStack s).runs = s.runs ∧
    (emuCaptureNativeTebStack s).ownNative = s.ownNative := by
  unfold emuCaptureNativeTebStack
  split_ifs
  · exact ⟨rfl, rfl, rfl, rfl⟩
  · exact ⟨rfl, rfl, rfl, rfl⟩

theorem inv_enterRun (h : Inv s) (hn : s.onNative = true) (hcap : s.native.base ≠ 0)
    (hb : stack.base ≠ 0) : Inv (enterRun s stack) := by
  have hhead := onNative_iff.mp hn
  have hteb := h.teb
  rw [owner_native hhead] at hteb
  refine ⟨?_, h.base, h.native, fun _ => hcap, ⟨.refl, hb, hteb, h.chain⟩, fun r hr => ?_⟩
  · show Stale (emuTebStackInstall s.teb stack) stack
    rw [install_eq hb]
    exact .refl
  · cases hs : s.runs with
    | nil => simp [enterRun, hs] at hr
    | cons r' runs =>
      have hr' : r ∈ r' :: runs := by simpa [enterRun, hs] using hr
      obtain rfl | hr' := List.mem_cons.mp hr'
      · exact hhead r (by simp [hs])
      · exact h.outer r (by simpa [hs] using hr')

theorem executing : (∃ r runs, s.runs = r :: runs ∧ r.phase = .guest) ∨
    ∀ r ∈ s.runs.head?, r.phase ≠ .guest := by
  cases hs : s.runs with
  | nil => exact .inr (by simp)
  | cons r runs =>
    by_cases hp : r.phase = .guest
    · exact .inl ⟨r, runs, rfl, hp⟩
    · exact .inr (by simpa using hp)

theorem lowerOwner_guest (hs : s.runs = r :: runs) (hp : r.phase = .guest) {limit : ℕ} :
    s.lowerOwner limit = { s with runs := { r with own := r.own.lower limit } :: runs } := by
  simp [lowerOwner, hs, hp]

theorem lowerOwner_native (h : ∀ r ∈ s.runs.head?, r.phase ≠ .guest) {limit : ℕ} :
    s.lowerOwner limit = { s with ownNative := s.ownNative.lower limit } := by
  unfold lowerOwner
  split
  · rfl
  · next r runs hs => exact if_neg (h r (by simp [hs]))

theorem inv_grow (h : Inv s) (hb : teb.base = s.teb.base)
    (hd : teb.dealloc = s.teb.dealloc) : Inv ({ s with teb := teb }.lowerOwner teb.limit) := by
  have hteb := h.teb
  obtain ⟨r, runs, hs, hp⟩ | hhead := executing
  · rw [owner_guest hs hp] at hteb
    have hchain := h.chain
    rw [hs] at hchain
    obtain ⟨hguest, hbase, hsaved, hrest⟩ := hchain
    rw [lowerOwner_guest (s := { s with teb := teb }) hs hp]
    refine ⟨?_, h.base, h.native, fun _ => h.captured (by simp [hs]),
      ⟨hguest.lower, hbase, hsaved, hrest⟩, fun r' hr' => h.outer r' (by simpa [hs] using hr')⟩
    show Stale teb (if r.phase = .guest then r.own.lower teb.limit else s.ownNative)
    rw [if_pos hp]
    exact ⟨hb.trans hteb.base, hd.trans hteb.dealloc, min_le_right _ _⟩
  · rw [owner_native hhead] at hteb
    rw [lowerOwner_native (s := { s with teb := teb }) hhead]
    refine ⟨?_, h.base, fun h0 => (h.native h0).lower, h.captured, h.chain.lower, h.outer⟩
    rw [owner_native (s := { s with teb := teb, ownNative := s.ownNative.lower teb.limit }) hhead]
    exact ⟨hb.trans hteb.base, hd.trans hteb.dealloc, min_le_right _ _⟩

theorem grow_fields {hostPage guaranteed page : ℕ} {teb : TebStack} :
    (growThreadStack hostPage guaranteed page teb).base = teb.base ∧
      (growThreadStack hostPage guaranteed page teb).dealloc = teb.dealloc := by
  unfold growThreadStack
  split_ifs
  · exact ⟨rfl, rfl⟩
  · exact ⟨rfl, rfl⟩

theorem inv_head {r' : Run} (h : Inv s) (hr : s.runs = r :: runs) (ht : t.runs = r' :: runs)
    (hsame : t.ownNative = s.ownNative ∧ t.native = s.native)
    (hteb : Stale t.teb (if r'.phase = .guest then r'.own else s.ownNative))
    (hchain : Chain s.ownNative t.guest (r' :: runs)) : Inv t := by
  refine ⟨?_, hsame.1 ▸ h.base, ?_, fun _ => hsame.2 ▸ h.captured (by simp [hr]), ?_, ?_⟩
  · rw [owner, ht, hsame.1]
    exact hteb
  · rw [hsame.1, hsame.2]
    exact h.native
  · rw [hsame.1, ht]
    exact hchain
  · intro r' hr'
    exact h.outer r' (by simpa [ht, hr] using hr')

theorem inv_step (h : Inv s) (hv : Valid s a) (hs : step s a = some t) : Inv t := by
  cases a with
  | enter stack =>
    cases stack with
    | none =>
      simp only [step] at hs
      split_ifs at hs with hn
      cases hs
      exact (inv_capture h hn).1
    | some stack =>
      simp only [step] at hs
      split_ifs at hs with hn
      cases hs
      obtain ⟨hinv, hcap⟩ := inv_capture h hn
      refine inv_enterRun hinv ?_ hcap hv
      rw [onNative_iff, capture_fields.2.2.1]
      exact onNative_iff.mp hn
  | grow hostPage guaranteed page =>
    cases hs
    obtain ⟨hb, hd⟩ := grow_fields
    exact inv_grow h hb hd
  | trap =>
    obtain ⟨r, runs, hr, -, hcap, hchain, -, -, rfl⟩ := inPhase_eq_some h hs
    refine inv_head h hr rfl ⟨rfl, rfl⟩ ?_ hchain
    rw [install_eq hcap]
    exact h.native hcap
  | fiber base limit dealloc =>
    obtain ⟨r, runs, hr, hp, -, hchain, -, hteb, rfl⟩ := inPhase_eq_some h hs
    split_ifs with h0
    · exact h
    refine inv_head h hr rfl ⟨rfl, rfl⟩ ?_ ⟨.refl, (not_or.mp h0).1, hchain.2.2⟩
    rw [hp]
    exact hteb
  | trapReturn =>
    obtain ⟨r, runs, hr, -, -, hchain, -, -, rfl⟩ := inPhase_eq_some h hs
    refine inv_head h hr rfl ⟨rfl, rfl⟩ ?_ hchain
    rw [install_eq (hchain.1.base ▸ hchain.2.1)]
    exact hchain.1
  | stop =>
    obtain ⟨r, runs, hr, -, -, ⟨hguest, hbase, hsaved, hrest⟩, -, hteb, rfl⟩ := inPhase_eq_some h hs
    refine inv_head h hr rfl ⟨rfl, rfl⟩ ?_ ⟨hteb, hbase, hsaved, hrest⟩
    rw [install_eq (hsaved.base ▸ h.base)]
    exact hsaved
  | resume =>
    obtain ⟨r, runs, hr, -, -, ⟨hguest, hbase, -, hrest⟩, -, hteb, rfl⟩ := inPhase_eq_some h hs
    refine inv_head h hr rfl ⟨rfl, rfl⟩ ?_ ⟨hguest, hbase, hteb, hrest⟩
    rw [install_eq (hguest.base ▸ hbase)]
    exact hguest
  | exit =>
    obtain ⟨r, runs, hr, -, hcap, hchain, -, hteb, rfl⟩ := inPhase_eq_some h hs
    refine ⟨?_, h.base, h.native, fun _ => hcap, hchain.2.2.2, fun r' hr' => ?_⟩
    · rw [owner_native (h.owner_native_exit hr)]
      exact hteb
    · refine h.outer r' ?_
      rw [hr]
      exact List.mem_of_mem_tail hr'

def Settled : TebStack → List Run → Prop
  | _, [] => True
  | guest, r :: runs => (r.phase = .stopped → guest = r.own) ∧ Settled r.prev runs

def Recorded (s : State) : Act → Prop
  | .trap => s.native = s.ownNative
  | .trapReturn => ∀ r ∈ s.runs.head?, s.guest = r.own
  | .stop => ∀ r ∈ s.runs.head?, r.saved = s.ownNative
  | _ => True

theorem lower_eq (hb : teb.base = stack.base) (hd : teb.dealloc = stack.dealloc)
    (hl : teb.limit ≤ stack.limit) : stack.lower teb.limit = teb := by
  obtain ⟨base, limit, dealloc⟩ := teb
  simp only at hb hd hl
  rw [TebStack.lower, min_eq_right hl, hb, hd]

theorem grow_describes (hx : s.teb = s.owner) (hset : Settled s.guest s.runs)
    (hb : teb.base = s.teb.base) (hd : teb.dealloc = s.teb.dealloc) (hl : teb.limit ≤ s.teb.limit)
    (ht : t = { s with teb := teb }.lowerOwner teb.limit) :
    t.teb = t.owner ∧ Settled t.guest t.runs := by
  subst ht
  rw [hx] at hb hd hl
  obtain ⟨r, runs, hs, hp⟩ | hhead := executing
  · rw [owner_guest hs hp] at hb hd hl
    rw [hs] at hset
    rw [lowerOwner_guest (s := { s with teb := teb }) hs hp]
    refine ⟨?_, fun h => absurd (hp.symm.trans h) (by decide), hset.2⟩
    show teb = if r.phase = .guest then r.own.lower teb.limit else s.ownNative
    rw [if_pos hp, lower_eq hb hd hl]
  · rw [owner_native hhead] at hb hd hl
    rw [lowerOwner_native (s := { s with teb := teb }) hhead,
      owner_native (s := { s with teb := teb, ownNative := s.ownNative.lower teb.limit }) hhead]
    exact ⟨(lower_eq hb hd hl).symm, hset⟩

theorem describes_step (h : Inv s) (hx : s.teb = s.owner) (hset : Settled s.guest s.runs)
    (hv : Valid s a) (hs : step s a = some t) :
    (t.teb = t.owner ↔ Recorded s a) ∧ Settled t.guest t.runs := by
  cases a with
  | enter stack =>
    cases stack with
    | none =>
      simp only [step] at hs
      split_ifs at hs with hn
      cases hs
      obtain ⟨hteb, hguest, hruns, hown⟩ := capture_fields
      rw [owner, hteb, hguest, hruns, hown]
      exact ⟨iff_of_true hx trivial, hset⟩
    | some stack =>
      simp only [step] at hs
      split_ifs at hs with hn
      cases hs
      obtain ⟨hteb, hguest, hruns, -⟩ := capture_fields
      refine ⟨iff_of_true (install_eq hv) trivial, fun h => (by cases h), ?_⟩
      rwa [hguest, hruns]
  | grow hostPage guaranteed page =>
    obtain ⟨hb, hd⟩ := grow_fields
    obtain ⟨hteb, hsettled⟩ := grow_describes hx hset hb hd hv (Option.some.inj hs).symm
    exact ⟨iff_of_true hteb trivial, hsettled⟩
  | trap =>
    obtain ⟨r, runs, hr, -, hcap, -, -, -, rfl⟩ := inPhase_eq_some h hs
    refine ⟨?_, fun h => (by cases h), (hr ▸ hset).2⟩
    show emuTebStackInstall s.teb s.native = s.ownNative ↔ s.native = s.ownNative
    rw [install_eq hcap]
  | fiber base limit dealloc =>
    obtain ⟨r, runs, hr, hp, -, -, howner, -, rfl⟩ := inPhase_eq_some h hs
    split_ifs with h0
    · exact ⟨iff_of_true hx trivial, hset⟩
    · refine ⟨iff_of_true ?_ trivial, fun h => absurd (hp.symm.trans h) (by decide), (hr ▸ hset).2⟩
      rw [owner_native (by simp [hp])]
      exact hx.trans howner
  | trapReturn =>
    obtain ⟨r, runs, hr, -, -, hchain, -, -, rfl⟩ := inPhase_eq_some h hs
    refine ⟨?_, fun h => (by cases h), (hr ▸ hset).2⟩
    show emuTebStackInstall s.teb s.guest = r.own ↔ ∀ r ∈ s.runs.head?, s.guest = r.own
    rw [install_eq (hchain.1.base ▸ hchain.2.1), hr]
    simp
  | stop =>
    obtain ⟨r, runs, hr, -, -, hchain, howner, -, rfl⟩ := inPhase_eq_some h hs
    refine ⟨?_, fun _ => hx.trans howner, (hr ▸ hset).2⟩
    show emuTebStackInstall s.teb r.saved = s.ownNative ↔ ∀ r ∈ s.runs.head?, r.saved = s.ownNative
    rw [install_eq (hchain.2.2.1.base ▸ h.base), hr]
    simp
  | resume =>
    obtain ⟨r, runs, hr, hp, -, hchain, -, -, rfl⟩ := inPhase_eq_some h hs
    refine ⟨iff_of_true ?_ trivial, fun h => (by cases h), (hr ▸ hset).2⟩
    rw [install_eq (hchain.1.base ▸ hchain.2.1)]
    exact (hr ▸ hset).1 hp
  | exit =>
    obtain ⟨r, runs, hr, -, -, -, howner, -, rfl⟩ := inPhase_eq_some h hs
    refine ⟨iff_of_true ?_ trivial, (hr ▸ hset).2⟩
    rw [owner_native (h.owner_native_exit hr)]
    exact hx.trans howner

theorem stale_of_reaches (hb : stack.base ≠ 0)
    (hr : Reaches step Valid (.init stack) s) : Stale s.teb s.owner :=
  (hr.invariant (P := Inv) (inv_init hb) fun _ _ _ hv hs hu => inv_step hu hv hs).teb

/-- In every run the TEB describes the stack that is executing, with a limit not below the stack's own. -/
theorem teb_describes_executing {stack : TebStack} (hb : stack.base ≠ 0)
    (hr : Reaches step (fun s a => Valid s a ∧ Recorded s a) (.init stack) s) :
    (∀ u, Reaches step Valid (.init stack) u → Stale u.teb u.owner) ∧ s.teb = s.owner ∧
      ∀ a t, Valid s a → step s a = some t → (t.teb = t.owner ↔ Recorded s a) := by
  have hall := hr.invariant (P := fun u => Inv u ∧ u.teb = u.owner ∧ Settled u.guest u.runs)
    ⟨inv_init hb, rfl, trivial⟩ fun u a v hok hs hu => by
      obtain ⟨hiff, hset⟩ := describes_step hu.1 hu.2.1 hu.2.2 hok.1 hs
      exact ⟨inv_step hu.1 hok.1 hs, hiff.mpr hok.2, hset⟩
  exact ⟨fun u hu => stale_of_reaches hb hu, hall.2.1,
    fun a t hv hs => (describes_step hall.1 hall.2.1 hall.2.2 hv hs).1⟩

/-- Every suspended run keeps descriptions of both its stacks. -/
theorem suspended_runs_described {stack : TebStack} (hb : stack.base ≠ 0)
    (hr : Reaches step Valid (.init stack) s) : Chain s.ownNative s.guest s.runs ∧
      (s.runs ≠ [] → Stale s.native s.ownNative) ∧ ∀ r ∈ s.runs.tail, r.phase ≠ .guest := by
  have h := hr.invariant (P := Inv) (inv_init hb) fun _ _ _ hv hs hu => inv_step hu hv hs
  exact ⟨h.chain, fun hne => h.native (h.captured hne), h.outer⟩

namespace Grown

def native : TebStack := ⟨0x200000, 0x1f0000, 0x100000⟩
def guest : TebStack := ⟨0x800000, 0x7f0000, 0x700000⟩

def guestGrows : List Act := [.enter (some guest), .grow 0x1000 0x2000 0x7ef000, .trap, .trapReturn]

def nativeGrows : List Act :=
  [.enter (some guest), .trap, .grow 0x1000 0x2000 0x1ef000, .trapReturn, .trap]

theorem trap_forgets_growth :
    okRun step (fun s a => decide (Valid s a)) (.init native) guestGrows = true ∧
    ((run step (.init native) guestGrows).map fun s => (s.teb, s.owner)) =
      some (guest, { guest with limit := 0x7ef000 }) ∧
    okRun step (fun s a => decide (Valid s a)) (.init native) nativeGrows = true ∧
    ((run step (.init native) nativeGrows).map fun s => (s.teb, s.owner)) =
      some (native, { native with limit := 0x1ef000 }) := by
  decide

theorem teb_describes_executing_trap : ∃ s,
    run step (.init native) [.enter (some guest), .trap] = some s ∧ s.teb = s.owner := by
  refine ⟨_, rfl, (teb_describes_executing (show native.base ≠ 0 by decide) ?_).2.1⟩
  have hentered : Reaches step (fun s a => Valid s a ∧ Recorded s a) (.init native)
      (enterRun (emuCaptureNativeTebStack (.init native)) guest) :=
    .tail (l := .enter (some guest)) .refl ⟨by simp [Valid, guest], trivial⟩ rfl
  exact .tail (l := .trap) hentered ⟨trivial, rfl⟩ rfl

theorem suspended_runs_described_enter : ∃ s, run step (.init native) [.enter (some guest)] = some s ∧
    Chain s.ownNative s.guest s.runs :=
  ⟨_, rfl, (suspended_runs_described (show native.base ≠ 0 by decide)
    (.tail (l := .enter (some guest)) .refl (by simp [Valid, guest]) rfl)).1⟩

end Grown

end WinePpc64.Emu.Teb
