import WinePpc64.Emu.GuestContextRuns

namespace WinePpc64.Emu.Ctx

open Function Lib List Option Reaches State

variable {e : Env} {s t : State} {a : Act} {r r' : Run} {runs : List Run} {f : File}
  {p : Publication} {i : Fin 18} {v : Word}

def Copied (state : GuestState) : Prop := state = .fault ∨ state = .ended

theorem state_cases (state : GuestState) : Quiet state ∨ state = .trap ∨ Copied state := by
  cases state with
  | none => exact .inl (.inl rfl)
  | running => exact .inl (.inr rfl)
  | trap => exact .inr (.inl rfl)
  | fault => exact .inr (.inr (.inl rfl))
  | ended => exact .inr (.inr (.inr rfl))

theorem Copied.ne_trap {state : GuestState} (h : Copied state) : state ≠ .trap := by
  obtain rfl | rfl := h <;> decide

theorem Copied.not_quiet {state : GuestState} (h : Copied state) : ¬ Quiet state := by
  obtain rfl | rfl := h <;> simp [Quiet]

theorem answer_quiet (h : Quiet s.state) : emuGetGuestContext s = .refused := by
  obtain h | h := h <;> rw [emuGetGuestContext, h]

theorem answer_copied (h : Copied s.state) : emuGetGuestContext s = .file s.buf := by
  obtain h | h := h <;> rw [emuGetGuestContext, h]

theorem exact_quiet (h : Quiet s.state) : Exact s := .inl (answer_quiet h)

theorem exact_file (h : emuGetGuestContext s = .file f) : Exact s ↔ s.lastStop = some f := by
  rw [Exact, h]
  constructor
  · rintro (hno | ⟨f', hf, hlast⟩)
    · cases hno
    · cases hf
      exact hlast
  · exact fun hlast => .inr ⟨f, rfl, hlast⟩

theorem exact_copied (h : Copied s.state) : Exact s ↔ s.lastStop = some s.buf :=
  exact_file (answer_copied h)

theorem answer_trap {n id : ℕ} (hframes : Frames s.runs n) (h : s.state = .trap)
    (hr : r ∈ s.runs) (hf : r.frame = some (id, f)) (hptr : s.ptr = some id) :
    emuGetGuestContext s = .file f := by
  simp only [emuGetGuestContext, h, hptr, hframes.frameAt_eq hr hf]

variable (hs : s.runs = r :: runs)
include hs

theorem live_of_phase (hp : r.phase ≠ .entering) : s.live = some r := by
  rw [live, hs]
  exact if_neg hp

theorem lastStop_of_phase (hp : r.phase ≠ .entering) : s.lastStop = r.last := by
  rw [lastStop, live_of_phase hs hp]
  rfl

theorem lastStop_head (ht : t.runs = r' :: runs)
    (hp : r.phase ≠ .entering) (hp' : r'.phase ≠ .entering) (hlast : r'.last = r.last) :
    t.lastStop = s.lastStop := by
  rw [lastStop_of_phase hs hp, lastStop_of_phase ht hp', hlast]

omit hs

theorem live_of_trap (h : Inv e s) (htrap : s.state = .trap) :
    ∃ r id f, s.live = some r ∧ r ∈ s.runs ∧ r.frame = some (id, f) ∧ s.ptr = some id := by
  have hquiet : ¬ Quiet .trap := fun hq => hq.ne_trap rfl
  have hnow := h.now
  rw [Now] at hnow
  cases hs : s.runs with
  | nil =>
    rw [hs] at hnow
    exact absurd htrap hnow.2
  | cons r runs =>
    simp only [hs] at hnow
    have hhead (hp : r.phase ≠ .entering) (hpoints : Points s r) :
        ∃ r' id f, s.live = some r' ∧ r' ∈ r :: runs ∧ r'.frame = some (id, f) ∧ s.ptr = some id := by
      obtain ⟨id, f, hframe, hptr⟩ := hpoints htrap
      exact ⟨r, id, f, live_of_phase hs hp, mem_cons_self, hframe, hptr⟩
    -- in the other phases the state is not a trap's
    cases hphase : r.phase <;> simp only [hphase, NowAt, htrap, ne_eq, not_true_eq_false, false_and,
      hquiet, and_false, or_false, false_or, exists_false] at hnow
    case entering =>
      obtain ⟨r', runs', rfl, hpoints⟩ := hnow.1 trivial
      obtain ⟨id, f, hframe, hptr⟩ := hpoints htrap
      refine ⟨r', id, f, ?_, by simp, hframe, hptr⟩
      rw [live, hs]
      exact if_pos hphase
    case trap => exact hhead (by simp [hphase]) hnow.2
    case returning => exact hhead (by simp [hphase]) hnow.2

theorem answer_ne_dangling (h : Inv e s) : emuGetGuestContext s ≠ .dangling := by
  obtain hq | htrap | hc := state_cases s.state
  · rw [answer_quiet hq]
    exact fun h => by cases h
  · obtain ⟨r, id, f, -, hr, hf, hptr⟩ := live_of_trap h htrap
    rw [answer_trap h.frames htrap hr hf hptr]
    exact fun h => by cases h
  · rw [answer_copied hc]
    exact fun h => by cases h

def Saved : List Run → Prop
  | [] => True
  | r :: runs =>
    (r.prevState = .trap → ∃ r' runs' id f, runs = r' :: runs' ∧ r'.frame = some (id, f) ∧
      r'.last = some f) ∧
    (Copied r.prevState → ∃ r' runs', runs = r' :: runs' ∧ r'.last = some r.prevCtx) ∧ Saved runs

def Intact (s : State) : Act → Prop
  | .store => ∀ p ∈ s.pending, ∀ w ∈ p.words.head?, Copied s.state → s.buf w.1 = w.2
  | .edit i v => s.state = .trap → ∀ r ∈ s.runs.head?, ∀ f ∈ r.frame, f.2 i = v
  | .exit true => Copied s.state → s.runs.tail.head?.bind Run.last = some s.buf
  | _ => True

theorem Exact.congr_of_ne_trap (hx : Exact s) (hne : s.state ≠ .trap) (hstate : t.state = s.state)
    (hbuf : t.buf = s.buf) (hlast : t.lastStop = s.lastStop) : Exact t := by
  obtain hq | htrap | hc := state_cases s.state
  · exact exact_quiet (hstate ▸ hq)
  · exact absurd htrap hne
  · rw [exact_copied (hstate ▸ hc), hbuf, hlast]
    exact (exact_copied hc).mp hx

theorem Exact.congr (hx : Exact s) (hstate : t.state = s.state) (hptr : t.ptr = s.ptr)
    (hbuf : t.buf = s.buf) (hframes : t.runs.filterMap Run.frame = s.runs.filterMap Run.frame)
    (hlast : t.lastStop = s.lastStop) : Exact t := by
  have hanswer : emuGetGuestContext t = emuGetGuestContext s := by
    simp only [emuGetGuestContext, frameAt, hstate, hptr, hbuf, hframes]
  rw [Exact, hanswer, hlast]
  exact hx

theorem update_eq_self_iff : update f i v = f ↔ f i = v := by
  constructor
  · intro h
    rw [← h, update_self]
  · intro h
    rw [← h, update_eq_self]

theorem Saved.tail (h : Saved runs) : Saved runs.tail := by
  cases runs with
  | nil => trivial
  | cons r runs => exact h.2.2

theorem exact_word (h : Inv e s) (hx : Exact s) {p : Option Publication} :
    Exact { s with buf := update s.buf i v, pending := p } ↔
      (Copied s.state → s.buf i = v) := by
  obtain hq | htrap | hc := state_cases s.state
  · exact iff_of_true (exact_quiet hq) fun hc => absurd hq hc.not_quiet
  · refine iff_of_true ?_ fun hc => absurd htrap hc.ne_trap
    obtain ⟨r, id, f, -, hr, hf, hptr⟩ := live_of_trap h htrap
    rw [exact_file (answer_trap h.frames htrap hr hf hptr)] at hx
    exact (exact_file (answer_trap (s := { s with buf := _, pending := p }) h.frames htrap hr hf hptr)).mpr hx
  · have hx' := (exact_copied hc).mp hx
    have hlast : ({ s with buf := update s.buf i v, pending := p } : State).lastStop =
        s.lastStop := rfl
    rw [exact_copied (s := { s with buf := update s.buf i v, pending := p }) hc, hlast, hx',
      some_inj, eq_comm, update_eq_self_iff]
    exact ⟨fun h _ => h, fun h => h hc⟩

theorem ne_trap_of_ptr (h : Inv e s) (hp : s.pending = some p) {ptr : Option ℕ}
    (hptr : p.ptr = some ptr) : s.state ≠ .trap := by
  obtain ⟨r, runs, -, hpub⟩ := h.publishes hp
  cases hpub with
  | ptr _ _ _ hquiet => exact hquiet.ne_trap
  | leave _ hne => exact hne
  | _ => cases hptr

variable {label : GuestState}

theorem exact_label (h : Inv e s) (hsv : Saved s.runs) {leave : Bool}
    (hp : s.pending = some ⟨[], none, label, leave⟩) : Exact (storeNext s ⟨[], none, label, leave⟩) := by
  obtain ⟨r, runs, hs, hpub⟩ := h.publishes hp
  cases hpub with
  | entering | resuming | returning => exact exact_quiet (.inr rfl)
  | @trap id f hphase hframe hlast _ hptr =>
    have hanswer : emuGetGuestContext { s with state := .trap, pending := none } = .file f :=
      answer_trap h.frames rfl (by rw [hs]; exact mem_cons_self) hframe hptr
    refine (exact_file hanswer).mpr ?_
    rw [lastStop_of_phase (s := { s with state := .trap, pending := none }) hs (by simp [hphase]), hlast]
  | stop hphase _ hlabel hlast =>
    refine (exact_copied (s := { s with state := label, pending := none }) hlabel).mpr ?_
    rw [lastStop_of_phase (s := { s with state := label, pending := none }) hs (by simp [hphase]), hlast]
    rfl
  | leave hphase _ htrap hcopy =>
    have hlinked := h.linked
    have houter := h.outer
    rw [hs] at hlinked hsv houter
    rw [storeNext_left hs]
    -- the run below is where it was entered from, so its stop is the one that was saved
    have hlast {r' : Run} {runs' : List Run} (hruns : runs = r' :: runs') :
        ({ s with state := r.prevState, runs := runs, pending := none } : State).lastStop = r'.last := by
      refine lastStop_of_phase hruns fun hent => ?_
      obtain hp' | hp' := houter r' (by simp [hruns]) <;> simp [hent] at hp'
    obtain hq | hst | hc := state_cases r.prevState
    · exact exact_quiet hq
    · obtain ⟨r', runs', id, f, hruns, -, hframe, hprev⟩ := hlinked.1 hst
      obtain ⟨r'', runs'', id', f', hruns', hframe', hlast'⟩ := hsv.1 hst
      have hptr : s.ptr = some id := by
        obtain ⟨-, hno | ⟨-, hsame⟩⟩ := htrap hst
        · cases hno
        · rw [hsame, hprev]
      cases hruns.symm.trans hruns'
      cases hframe.symm.trans hframe'
      have hanswer : emuGetGuestContext { s with state := r.prevState, runs := runs, pending := none } =
          .file f :=
        answer_trap (hs ▸ h.frames).tail hst (by rw [hruns]; exact mem_cons_self) hframe hptr
      rw [exact_file hanswer, hlast hruns, hlast']
    · obtain ⟨r', runs', hruns, hlast'⟩ := hsv.2.1 hc
      have hbuf := (hcopy hc.ne_trap).2
      rw [exact_copied hc,
        hlast hruns, hlast', ← hbuf]
      rfl

theorem saved_storeNext (h : Saved s.runs) : Saved (storeNext s p).runs := by
  obtain ⟨words, ptr, -, leave⟩ := p
  cases words with
  | cons w words => exact h
  | nil =>
    cases ptr with
    | some ptr => exact h
    | none =>
      cases leave with
      | false => exact h
      | true => exact h.tail

theorem exact_store (h : Inv e s) (hx : Exact s) (hsv : Saved s.runs)
    (hp : s.pending = some p) : Exact (storeNext s p) ↔ Intact s .store := by
  have hintact : Intact s .store ↔ ∀ w ∈ p.words.head?, Copied s.state → s.buf w.1 = w.2 := by
    simp [Intact, hp]
  rw [hintact]
  obtain ⟨words, ptr, label, leave⟩ := p
  cases words with
  | cons w words =>
    have hword : Exact (storeNext s ⟨w :: words, ptr, label, leave⟩) ↔
        (Copied s.state → s.buf w.1 = w.2) := exact_word h hx
    rw [hword]
    simp
  | nil =>
    refine iff_of_true ?_ (by simp)
    cases ptr with
    | some ptr => exact hx.congr_of_ne_trap (ne_trap_of_ptr h hp rfl) rfl rfl rfl
    | none => exact exact_label h hsv hp

theorem saved_enter (h : Inv e s) (hx : Exact s) (hsv : Saved s.runs) (hm : s.mayEnter = true) :
    Saved (⟨.entering, none, s.state, s.ptr, s.buf, none⟩ :: s.runs) := by
  obtain ⟨-, htop⟩ := mayEnter_cases hm
  refine ⟨fun htrap => ?_, fun hc => ?_, hsv⟩
  · obtain ⟨r, runs, hs, hphase, hpoints⟩ := points_of_mayEnter h hm htrap
    obtain ⟨id, f, hframe, hptr⟩ := hpoints htrap
    have hmem : r ∈ s.runs := by
      rw [hs]
      exact mem_cons_self
    have hlast := (exact_file (answer_trap h.frames htrap hmem hframe hptr)).mp hx
    rw [lastStop_of_phase hs (by simp [hphase])] at hlast
    exact ⟨r, runs, id, f, hs, hframe, hlast⟩
  · have hlast := (exact_copied hc).mp hx
    obtain hnil | ⟨r, runs, hs, hphase⟩ := htop
    · simp [lastStop, live, hnil] at hlast
    · rw [lastStop_of_phase hs (by obtain hp | hp := hphase <;> simp [hp])] at hlast
      exact ⟨r, runs, hs, hlast⟩

theorem lastStop_enter (hm : s.mayEnter = true) {ctx : File} : ({ s with
    runs := ⟨.entering, none, s.state, s.ptr, s.buf, none⟩ :: s.runs
    pending := emuPublish e (publishCopy e ctx .running false) } : State).lastStop = s.lastStop := by
  obtain ⟨-, hnil | ⟨r, runs, hs, hphase⟩⟩ := mayEnter_cases hm
  · simp [lastStop, live, hnil]
  · rw [lastStop_of_phase hs (by obtain hp | hp := hphase <;> simp [hp]), hs]
    rfl

theorem Saved.head (h : Saved (r :: runs)) (hstate : r'.prevState = r.prevState)
    (hctx : r'.prevCtx = r.prevCtx) : Saved (r' :: runs) := by
  refine ⟨fun htrap => h.1 (hstate ▸ htrap), fun hc => ?_, h.2.2⟩
  rw [hctx]
  exact h.2.1 (hstate ▸ hc)

theorem exact_edit (h : Inv e s) (hx : Exact s) (hr : s.runs = r :: runs) (hp : r.phase = .trap) :
    Exact { s with
      runs := { r with frame := r.frame.map fun f => (f.1, update f.2 i v) } :: runs } ↔
      Intact s (.edit i v) := by
  have hphase : r.phase ≠ .entering := by simp [hp]
  have hsame : ({ s with runs := { r with
      frame := r.frame.map fun f => (f.1, update f.2 i v) } :: runs } : State).lastStop =
        s.lastStop := by
    exact lastStop_head hr rfl hphase hphase rfl
  by_cases htrap : s.state = .trap
  · obtain ⟨r', id, f, hlive, hmem, hframe, hptr⟩ := live_of_trap h htrap
    rw [live_of_phase hr hphase] at hlive
    cases hlive
    have hlast := (exact_file (answer_trap h.frames htrap hmem hframe hptr)).mp hx
    have hanswer : emuGetGuestContext { s with
        runs := { r with frame := r.frame.map fun f => (f.1, update f.2 i v) } :: runs } =
          .file (update f i v) :=
      answer_trap ((hr ▸ h.frames).edit edited_id) htrap mem_cons_self (by simp [hframe]) hptr
    have hintact : Intact s (.edit i v) ↔ f i = v := by
      simp [Intact, htrap, hr, hframe]
    rw [exact_file hanswer, hsame, hlast, hintact, some_inj, eq_comm, update_eq_self_iff]
  · refine iff_of_true ?_ fun h => absurd h htrap
    exact hx.congr_of_ne_trap htrap rfl rfl hsame

theorem exact_exit (h : Inv e s) (hr : s.runs = r :: runs) (hne : s.state ≠ .trap) :
    Exact { s with runs := runs } ↔ (Copied s.state → s.runs.tail.head?.bind Run.last = some s.buf) := by
  have houter := h.outer
  rw [hr] at houter ⊢
  have hlast : ({ s with runs := runs } : State).lastStop = runs.head?.bind Run.last := by
    cases hruns : runs with
    | nil => rfl
    | cons r' runs' =>
      refine lastStop_of_phase rfl fun hent => ?_
      obtain hp | hp := houter r' (by simp [hruns]) <;> simp [hent] at hp
  obtain hq | htrap | hc := state_cases s.state
  · exact iff_of_true (exact_quiet hq) fun hc => absurd hq hc.not_quiet
  · exact absurd htrap hne
  · rw [exact_copied (s := { s with runs := runs }) hc, hlast]
    exact ⟨fun h _ => h, fun h => h hc⟩

theorem exact_step (h : Inv e s) (hx : Exact s) (hsv : Saved s.runs) (hs : step e s a = some t) :
    (Exact t ↔ Intact s a) ∧ Saved t.runs := by
  cases a with
  | store =>
    obtain ⟨p, hp, rfl⟩ := map_eq_some_iff.mp hs
    exact ⟨exact_store h hx hsv hp, saved_storeNext hsv⟩
  | enter ctx =>
    simp only [step] at hs
    split_ifs at hs with hm
    cases hs
    refine ⟨iff_of_true ?_ trivial, saved_enter h hx hsv hm⟩
    exact hx.congr rfl rfl rfl (filterMap_cons_none rfl) (lastStop_enter hm)
  | start | restart | trap ctx | leaveTrap | stop ctx fault =>
    obtain ⟨r, runs, hr, hp, hpend, hquiet, rfl⟩ := inPhase_eq_some h hs
    exact ⟨iff_of_true (exact_quiet hquiet) trivial, (hr ▸ hsv).head rfl rfl⟩
  | edit i v =>
    obtain ⟨r, runs, hr, hp, hpend, -, rfl⟩ := inPhase_eq_some h hs
    exact ⟨exact_edit h hx hr hp, (hr ▸ hsv).head rfl rfl⟩
  | trapReturn =>
    obtain ⟨r, runs, hr, hp, hpend, -, rfl⟩ := inPhase_eq_some h hs
    refine ⟨iff_of_true (hx.congr rfl rfl rfl ?_ ?_) trivial, (hr ▸ hsv).head rfl rfl⟩
    · rw [hr]
      rfl
    · exact lastStop_head hr rfl (by simp [hp]) (by simp) rfl
  | resume ctx =>
    obtain ⟨r, runs, hr, hp, -, hne, rfl⟩ := inPhase_eq_some h hs
    refine ⟨iff_of_true (hx.congr_of_ne_trap hne rfl rfl ?_) trivial, (hr ▸ hsv).head rfl rfl⟩
    exact lastStop_head hr rfl (by simp [hp]) (by simp) rfl
  | exit exception =>
    obtain ⟨r, runs, hr, hp, -, hne, rfl⟩ := inPhase_eq_some h hs
    split_ifs with hout
    · refine ⟨?_, (hr ▸ hsv).tail⟩
      rw [exact_exit h hr hne]
      cases exception with
      | true => rfl
      | false =>
        have hoff : e.noDbgCtx = true := by simpa using hout
        refine iff_of_true (fun hc => absurd (.inl (h.off hoff).1) hc.not_quiet) trivial
    · cases exception with
      | true => simp at hout
      | false =>
        refine ⟨iff_of_true (hx.congr_of_ne_trap hne rfl rfl ?_) trivial, (hr ▸ hsv).head rfl rfl⟩
        exact lastStop_head hr rfl (by simp [hp]) (by simp) rfl

theorem exact_of_reaches (he : ∀ i, i ∈ e.order) (hr : Reaches (step e) Intact .init s) :
    Inv e s ∧ Exact s ∧ Saved s.runs := by
  refine hr.invariant (P := fun s => Inv e s ∧ Exact s ∧ Saved s.runs)
    ⟨inv_init, exact_quiet (.inl rfl), trivial⟩ ?_
  intro u l v hintact hstep hu
  obtain ⟨hiff, hsaved⟩ := exact_step hu.1 hu.2.1 hu.2.2 hstep
  exact ⟨inv_step he hu.1 hstep, hiff.mpr hintact, hsaved⟩

/-- A signal is refused or gets the registers of the most recent stop of the innermost live run. -/
theorem guestContext_exact_iff (he : ∀ i, i ∈ e.order) :
    (∀ u, Reaches (step e) Free .init u → emuGetGuestContext u ≠ .dangling) ∧
    ∀ s, Reaches (step e) Intact .init s →
      Exact s ∧ ∀ a t, step e s a = some t → (Exact t ↔ Intact s a) := by
  constructor
  · intro u hu
    exact answer_ne_dangling (hu.invariant inv_init fun _ _ _ _ hstep h => inv_step he h hstep)
  · intro s hs
    obtain ⟨hinv, hx, hsaved⟩ := exact_of_reaches he hs
    exact ⟨hx, fun a t hstep => (exact_step hinv hx hsaved hstep).1⟩

theorem run_store {words : List (Fin 18 × Word)} (hp : s.pending = some ⟨words, none, label, false⟩) :
    run (step e) s (List.replicate (words.length + 1) .store) =
      some { s with state := label, buf := stored words s.buf, pending := none } := by
  induction words generalizing s with
  | nil => simp [run, step, hp, storeNext, stored]
  | cons w words ih =>
    have hstep : step e s .store = some (storeNext s ⟨w :: words, none, label, false⟩) := by
      rw [step, hp]
      rfl
    rw [replicate_succ, run, hstep]
    exact ih (s := storeNext s ⟨w :: words, none, label, false⟩) rfl

theorem reaches_store {words : List (Fin 18 × Word)} (hq : Quiet s.state)
    (hp : s.pending = some ⟨words, none, label, false⟩) :
    Reaches (step e) Intact s { s with state := label, buf := stored words s.buf, pending := none } := by
  induction words generalizing s with
  | nil =>
    refine refl.tail ?_ (by rw [step, hp]; rfl)
    intro p _ w _ hc
    exact absurd hq hc.not_quiet
  | cons w words ih =>
    have hstep : step e s .store = some (storeNext s ⟨w :: words, none, label, false⟩) := by
      rw [step, hp]
      rfl
    have hintact : Intact s .store := fun p _ w _ hc => absurd hq hc.not_quiet
    exact (refl.tail hintact hstep).trans (ih hq rfl)

namespace RunEnd

def env : Env := ⟨false, List.finRange 18⟩

def zeros : File := fun _ => 0

def ones : File := fun _ => 1

def entering : State := ⟨.none, none, zeros, [⟨.entering, none, .none, none, zeros, none⟩],
  some (publishCopy env zeros .running false), 0⟩

def running : State := ⟨.running, none, zeros, [⟨.guest, none, .none, none, zeros, none⟩], none, 0⟩

def stopped : State := ⟨.running, none, zeros, [⟨.stopped, none, .none, none, zeros, some ones⟩],
  some (publishCopy env ones .ended false), 0⟩

def ended : State := ⟨.ended, none, ones, [⟨.stopped, none, .none, none, zeros, some ones⟩], none, 0⟩

def publish : List Act := List.replicate 19 .store

theorem run_publish {file : File} (hp : s.pending = some (publishCopy env file label false)) :
    run (step env) s publish = some { s with state := label, buf := file, pending := none } := by
  have hlength : 19 = (env.order.map fun i => (i, file i)).length + 1 := by simp [env]
  rw [publish, hlength, run_store hp, stored_order (by decide)]

theorem run_running : run (step env) .init (.enter zeros :: publish ++ [.start]) = some running := by
  have henter : step env .init (.enter zeros) = some entering := rfl
  rw [cons_append, run, henter, bind_some, run_concat, run_publish rfl]
  rfl

theorem run_ended : run (step env) running (.stop ones false :: publish) = some ended := by
  have hstop : step env running (.stop ones false) = some stopped := rfl
  rw [run, hstop, bind_some, run_publish rfl]
  rfl

theorem restore_mixes_contexts : ∃ t f,
    run (step env) .init ((.enter zeros :: publish ++ [.start]) ++
      ((.stop ones false :: publish) ++ [.exit false, .store])) = some t ∧
    emuGetGuestContext t = .file f ∧ f 0 = 0 ∧ f 1 = 1 ∧ t.lastStop = some ones ∧ ¬ Exact t := by
  rw [run_concat, run_running, bind_some, run_concat, run_ended]
  refine ⟨_, update ones 0 0, rfl, rfl, rfl, rfl, rfl, ?_⟩
  rw [exact_copied (.inr rfl)]
  intro h
  exact absurd (congrFun (Option.some.inj h) 0) (by decide)

theorem reaches_running : Reaches (step env) Intact .init running := by
  have henter : Reaches (step env) Intact .init entering :=
    refl.tail (l := .enter zeros) trivial rfl
  have hpublished := henter.trans (reaches_store (.inl rfl) rfl)
  rw [stored_order (by decide)] at hpublished
  exact hpublished.tail (l := .start) trivial rfl

def trapped : State :=
  ⟨.trap, some 0, zeros, [⟨.trap, some (0, ones), .none, none, zeros, some ones⟩], none, 1⟩

theorem guestContext_exact_trap : Reaches (step env) Intact .init trapped ∧
    emuGetGuestContext trapped = .file ones ∧ Exact trapped ∧
      ∀ a u, step env trapped a = some u → (Exact u ↔ Intact trapped a) := by
  have hquiet (s : State) (hq : Quiet s.state) : Intact s .store :=
    fun _ _ _ _ hc => absurd hq hc.not_quiet
  have hframe := reaches_running.tail (l := Act.trap ones) trivial rfl
  have hptr := hframe.tail (hquiet _ (.inr rfl)) rfl
  have htrap : Reaches (step env) Intact .init trapped := hptr.tail (hquiet _ (.inr rfl)) rfl
  exact ⟨htrap, rfl, (guestContext_exact_iff (by decide)).2 trapped htrap⟩

end RunEnd

end WinePpc64.Emu.Ctx
