import WinePpc64.Emu.GuestContext

namespace WinePpc64.Emu.Ctx

open Function Lib List State

variable {e : Env} {s t : State} {a : Act} {r : Run} {runs : List Run} {i : Fin 18}

def Quiet (state : GuestState) : Prop := state = .none ∨ state = .running

theorem Quiet.ne_trap {state : GuestState} (h : Quiet state) : state ≠ .trap := by
  obtain rfl | rfl := h <;> decide

def stored (words : List (Fin 18 × Word)) (buf : File) : File :=
  words.foldl (fun b w => update b w.1 w.2) buf

theorem stored_cons {w : Fin 18 × Word} {words : List (Fin 18 × Word)} {buf : File} :
    stored (w :: words) buf = stored words (update buf w.1 w.2) := rfl

theorem stored_copy {order : List (Fin 18)} {file buf : File} :
    stored (order.map fun i => (i, file i)) buf i = if i ∈ order then file i else buf i := by
  induction order generalizing buf with
  | nil => rfl
  | cons j order ih =>
    rw [map_cons, stored_cons, ih]
    by_cases hi : i ∈ order
    · simp [hi]
    by_cases hj : i = j
    · subst hj
      simp [hi]
    · simp [hi, hj]

theorem stored_order (he : ∀ i, i ∈ e.order) {file buf : File} :
    stored (e.order.map fun i => (i, file i)) buf = file := by
  funext i
  rw [stored_copy, if_pos (he i)]

structure Frames (runs : List Run) (fresh : ℕ) : Prop where
  nodup : ((runs.filterMap Run.frame).map Prod.fst).Nodup
  lt : ∀ x ∈ runs.filterMap Run.frame, x.1 < fresh

def ids (runs : List Run) : List ℕ := (runs.filterMap Run.frame).map Prod.fst

theorem ids_cons : ids (r :: runs) = (r.frame.map Prod.fst).toList ++ ids runs := by
  cases hr : r.frame <;> simp [ids, hr]

theorem edited_id {v : Word} :
    (r.frame.map fun f => (f.1, update f.2 i v)).map Prod.fst = r.frame.map Prod.fst := by
  cases r.frame <;> rfl

namespace Frames

variable {n id : ℕ} {r' : Run} {f : File}

theorem iff_ids : Frames runs n ↔ (ids runs).Nodup ∧ ∀ i ∈ ids runs, i < n :=
  ⟨fun h => ⟨h.nodup, forall_mem_map.mpr h.lt⟩, fun h => ⟨h.1, forall_mem_map.mp h.2⟩⟩

theorem tail (h : Frames (r :: runs) n) : Frames runs n := by
  rw [iff_ids, ids_cons] at h
  rw [iff_ids]
  exact ⟨(nodup_append.mp h.1).2.1, fun i hi => h.2 i (mem_append_right _ hi)⟩

theorem push (h : Frames runs n) (hr : r.frame = none) : Frames (r :: runs) n := by
  rw [iff_ids, ids_cons, hr]
  exact iff_ids.mp h

theorem new (h : Frames runs n) (hr : r.frame = some (n, f)) : Frames (r :: runs) (n + 1) := by
  rw [iff_ids] at h ⊢
  rw [ids_cons, hr]
  refine ⟨nodup_cons.mpr ⟨fun hn => lt_irrefl n (h.2 n hn), h.1⟩, forall_mem_cons.mpr ?_⟩
  exact ⟨Nat.lt_succ_self n, fun i hi => (h.2 i hi).trans (Nat.lt_succ_self n)⟩

theorem edit (h : Frames (r :: runs) n) (hr : r'.frame.map Prod.fst = r.frame.map Prod.fst) :
    Frames (r' :: runs) n := by
  rw [iff_ids, ids_cons] at h ⊢
  rwa [hr]

theorem frameAt_eq (h : Frames runs n) (hr : r ∈ runs) (hf : r.frame = some (id, f)) :
    frameAt runs id = some f := by
  have hmem : (id, f) ∈ runs.filterMap Run.frame := mem_filterMap.mpr ⟨r, hr, hf⟩
  have hsome : ((runs.filterMap Run.frame).find? fun x => x.1 = id).isSome :=
    find?_isSome.mpr ⟨(id, f), hmem, by simp⟩
  obtain ⟨x, hx⟩ := Option.isSome_iff_exists.mp hsome
  have hid : x.1 = id := by simpa using find?_some hx
  have heq := inj_on_of_nodup_map h.nodup (mem_of_find?_eq_some hx) hmem hid
  rw [frameAt, hx, heq]
  rfl

end Frames

def Linked : List Run → Prop
  | [] => True
  | r :: runs => (r.prevState = .trap → ∃ r' runs' id f, runs = r' :: runs' ∧ r'.phase = .trap ∧
      r'.frame = some (id, f) ∧ r.prevPtr = some id) ∧ Linked runs

def Points (s : State) (r : Run) : Prop :=
  s.state = .trap → ∃ id f, r.frame = some (id, f) ∧ s.ptr = some id

def NowAt (s : State) (r : Run) (runs : List Run) : Phase → Prop
  | .entering => (s.state = .trap → ∃ r' runs', runs = r' :: runs' ∧ Points s r') ∧
      (s.pending = none ∧ Quiet s.state ∨ ∃ words, s.pending = some ⟨words, none, .running, false⟩)
  | .guest => s.pending = none ∧ Quiet s.state
  | .trap => s.pending = none ∧ Points s r ∨
      ∃ id f, r.frame = some (id, f) ∧ r.last = some f ∧ Quiet s.state ∧
        (s.pending = some ⟨[], some (some id), .trap, false⟩ ∨
          s.pending = some ⟨[], none, .trap, false⟩ ∧ s.ptr = some id)
  | .returning => s.pending = none ∧ Quiet s.state ∨
      s.pending = some ⟨[], none, .running, false⟩ ∧ Points s r
  | .stopped => s.state ≠ .trap ∧ (s.pending = none ∨ Quiet s.state ∧
      ∃ words label, s.pending = some ⟨words, none, label, false⟩ ∧ (label = .fault ∨ label = .ended) ∧
        r.last = some (stored words s.buf))
  | .resuming => s.state ≠ .trap ∧
      (s.pending = none ∧ Quiet s.state ∨ ∃ words, s.pending = some ⟨words, none, .running, false⟩)
  | .leaving => s.state ≠ .trap ∧ ∃ words ptr, s.pending = some ⟨words, ptr, r.prevState, true⟩ ∧
      (r.prevState = .trap → words = [] ∧ (ptr = some r.prevPtr ∨ ptr = none ∧ s.ptr = r.prevPtr)) ∧
      (r.prevState ≠ .trap → ptr = none ∧ stored words s.buf = r.prevCtx)

def Now (s : State) : Prop :=
  match s.runs with
  | [] => s.pending = none ∧ s.state ≠ .trap
  | r :: runs => NowAt s r runs r.phase

structure Inv (e : Env) (s : State) : Prop where
  off : e.noDbgCtx = true → s.state = .none ∧ s.pending = none
  outer : ∀ r ∈ s.runs.tail, r.phase = .trap ∨ r.phase = .stopped
  linked : Linked s.runs
  now : Now s
  frames : Frames s.runs s.fresh

theorem Inv.nowAt (h : Inv e s) (hs : s.runs = r :: runs) : NowAt s r runs r.phase := by
  have hnow := h.now
  rwa [Now, hs] at hnow

def SettledAt (s : State) (r : Run) : Phase → Prop
  | .entering | .guest | .returning | .resuming => Quiet s.state
  | .trap => Points s r
  | .stopped => s.state ≠ .trap
  | .leaving => False

theorem inPhase_eq_some {p : Phase} {f : Run → List Run → State} (h : Inv e s)
    (hs : s.inPhase p f = some t) :
    ∃ r runs, s.runs = r :: runs ∧ r.phase = p ∧ s.pending = none ∧ SettledAt s r p ∧ t = f r runs := by
  unfold inPhase at hs
  cases hr : s.runs with
  | nil => simp [hr] at hs
  | cons r runs =>
    simp only [hr, Option.ite_none_right_eq_some, Option.some.injEq, Option.isNone_iff_eq_none] at hs
    obtain ⟨⟨rfl, hpend⟩, rfl⟩ := hs
    refine ⟨r, runs, rfl, rfl, hpend, ?_, rfl⟩
    have hnow := h.nowAt hr
    cases hphase : r.phase <;> simp_all [NowAt, SettledAt]

/-- What a publication on its way stores, and what its run knows meanwhile. -/
inductive Publishes (s : State) (r : Run) (runs : List Run) : Publication → Prop
  | entering {words : List (Fin 18 × Word)} : r.phase = .entering →
    (s.state = .trap → ∃ r' runs', runs = r' :: runs' ∧ Points s r') →
    Publishes s r runs ⟨words, none, .running, false⟩
  | resuming {words : List (Fin 18 × Word)} : r.phase = .resuming → s.state ≠ .trap →
    Publishes s r runs ⟨words, none, .running, false⟩
  | returning : r.phase = .returning → Publishes s r runs ⟨[], none, .running, false⟩
  | ptr {id : ℕ} {f : File} : r.phase = .trap → r.frame = some (id, f) → r.last = some f →
    Quiet s.state → Publishes s r runs ⟨[], some (some id), .trap, false⟩
  | trap {id : ℕ} {f : File} : r.phase = .trap → r.frame = some (id, f) → r.last = some f →
    Quiet s.state → s.ptr = some id → Publishes s r runs ⟨[], none, .trap, false⟩
  | stop {words : List (Fin 18 × Word)} {label : GuestState} : r.phase = .stopped → Quiet s.state →
    label = .fault ∨ label = .ended → r.last = some (stored words s.buf) →
    Publishes s r runs ⟨words, none, label, false⟩
  | leave {words : List (Fin 18 × Word)} {ptr : Option (Option ℕ)} : r.phase = .leaving →
    s.state ≠ .trap →
    (r.prevState = .trap → words = [] ∧ (ptr = some r.prevPtr ∨ ptr = none ∧ s.ptr = r.prevPtr)) →
    (r.prevState ≠ .trap → ptr = none ∧ stored words s.buf = r.prevCtx) →
    Publishes s r runs ⟨words, ptr, r.prevState, true⟩

variable {p : Publication}

theorem Inv.publishes (h : Inv e s) (hp : s.pending = some p) :
    ∃ r runs, s.runs = r :: runs ∧ Publishes s r runs p := by
  have hnow := h.now
  rw [Now] at hnow
  cases hs : s.runs with
  | nil => simp [hs, hp] at hnow
  | cons r runs =>
    refine ⟨r, runs, rfl, ?_⟩
    simp only [hs] at hnow
    -- a phase without a publication is none of these
    cases hphase : r.phase <;> simp only [hphase, NowAt, hp, reduceCtorEq, false_and, false_or,
      Option.some.injEq] at hnow
    case entering =>
      obtain ⟨hpoints, words, rfl⟩ := hnow
      exact .entering hphase hpoints
    case trap =>
      obtain ⟨id, f, hframe, hlast, hquiet, rfl | ⟨rfl, hptr⟩⟩ := hnow
      · exact .ptr hphase hframe hlast hquiet
      · exact .trap hphase hframe hlast hquiet hptr
    case returning =>
      obtain ⟨rfl, -⟩ := hnow
      exact .returning hphase
    case stopped =>
      obtain ⟨-, hquiet, words, label, rfl, hlabel, hlast⟩ := hnow
      exact .stop hphase hquiet hlabel hlast
    case resuming =>
      obtain ⟨hne, words, rfl⟩ := hnow
      exact .resuming hphase hne
    case leaving =>
      obtain ⟨hne, words, ptr, rfl, htrap, hcopy⟩ := hnow
      exact .leave hphase hne htrap hcopy

theorem inv_init : Inv e .init :=
  ⟨fun _ => ⟨rfl, rfl⟩, by simp [init], trivial, ⟨rfl, by decide⟩, ⟨by simp [init], by simp [init]⟩⟩

theorem storeNext_left {label : GuestState} (hs : s.runs = r :: runs) :
    storeNext s ⟨[], none, label, true⟩ = { s with state := label, runs := runs, pending := none } := by
  simp [storeNext, hs]

variable (h : Inv e s)
include h

theorem Inv.on (hp : s.pending = some p) : e.noDbgCtx ≠ true := by
  intro he
  rw [(h.off he).2] at hp
  cases hp

theorem inv_storeNext (hp : s.pending = some p) (hs : s.runs = r :: runs)
    (hin : p.words = [] → p.ptr = none → p.leave = false) {q : Phase} (hphase : r.phase = q)
    (hnow : NowAt (storeNext s p) r runs q) : Inv e (storeNext s p) := by
  subst hphase
  have ht : (storeNext s p).runs = s.runs ∧ (storeNext s p).fresh = s.fresh := by
    obtain ⟨words, ptr, label, leave⟩ := p
    cases words with
    | cons w words => exact ⟨rfl, rfl⟩
    | nil =>
      cases ptr with
      | none =>
        cases hin rfl rfl
        exact ⟨rfl, rfl⟩
      | some ptr => exact ⟨rfl, rfl⟩
  refine ⟨fun he => absurd he (h.on hp), ht.1 ▸ h.outer, ht.1 ▸ h.linked, ?_, ?_⟩
  · rw [Now, ht.1, hs]
    exact hnow
  · rw [ht.1, ht.2]
    exact h.frames

theorem now_of_outer (hs : s.runs = r :: runs) (ht : t.runs = runs) (hpending : t.pending = none)
    (hstate : t.state = .trap → ∃ r' runs', runs = r' :: runs' ∧ r'.phase = .trap ∧ Points t r') :
    Now t := by
  rw [Now, ht]
  cases runs with
  | nil => exact ⟨hpending, fun h => by obtain ⟨r', runs', heq, -⟩ := hstate h; cases heq⟩
  | cons r' runs' =>
    dsimp only
    obtain hp | hp := h.outer r' (by rw [hs]; simp)
    · rw [hp]
      refine .inl ⟨hpending, fun htrap => ?_⟩
      obtain ⟨r'', runs'', heq, -, hpoints⟩ := hstate htrap
      cases heq
      exact hpoints htrap
    · rw [hp]
      refine ⟨fun htrap => ?_, .inl hpending⟩
      obtain ⟨r'', runs'', heq, hp', -⟩ := hstate htrap
      cases heq
      cases hp.symm.trans hp'

theorem inv_store (hp : s.pending = some p) : Inv e (storeNext s p) := by
  obtain ⟨r, runs, hs, hpub⟩ := h.publishes hp
  cases hpub with
  | @entering words hphase hpoints =>
    apply inv_storeNext h hp hs (by simp) hphase
    cases words with
    | nil => exact ⟨fun htrap => (by cases htrap), .inl ⟨rfl, .inr rfl⟩⟩
    | cons w words => exact ⟨hpoints, .inr ⟨words, rfl⟩⟩
  | @resuming words hphase hne =>
    apply inv_storeNext h hp hs (by simp) hphase
    cases words with
    | nil => exact ⟨fun htrap => (by cases htrap), .inl ⟨rfl, .inr rfl⟩⟩
    | cons w words => exact ⟨hne, .inr ⟨words, rfl⟩⟩
  | returning hphase => exact inv_storeNext h hp hs (by simp) hphase (.inl ⟨rfl, .inr rfl⟩)
  | ptr hphase hframe hlast hquiet =>
    apply inv_storeNext h hp hs (by simp) hphase
    exact .inr ⟨_, _, hframe, hlast, hquiet, .inr ⟨rfl, rfl⟩⟩
  | trap hphase hframe hlast hquiet hptr =>
    apply inv_storeNext h hp hs (by simp) hphase
    exact .inl ⟨rfl, fun _ => ⟨_, _, hframe, hptr⟩⟩
  | @stop words label hphase hquiet hlabel hlast =>
    apply inv_storeNext h hp hs (by simp) hphase
    cases words with
    | nil =>
      refine ⟨fun htrap => ?_, .inl rfl⟩
      obtain rfl | rfl := hlabel <;> cases htrap
    | cons w words => exact ⟨hquiet.ne_trap, .inr ⟨hquiet, words, label, rfl, hlabel, hlast⟩⟩
  | @leave words ptr hphase hne htrap hcopy =>
    cases words with
    | cons w words =>
      have hprev : r.prevState ≠ .trap := fun h => by cases (htrap h).1
      obtain ⟨rfl, hbuf⟩ := hcopy hprev
      apply inv_storeNext h hp hs (by simp) hphase
      exact ⟨hne, words, none, rfl, fun h => absurd h hprev, fun _ => ⟨rfl, hbuf⟩⟩
    | nil => cases ptr with
      | some ptr =>
        have hprev : r.prevState = .trap := by
          by_contra hprev
          cases (hcopy hprev).1
        have hptr : ptr = r.prevPtr := by simpa using (htrap hprev).2
        apply inv_storeNext h hp hs (by simp) hphase
        exact ⟨hne, [], none, rfl, fun _ => ⟨rfl, .inr ⟨rfl, hptr⟩⟩, absurd hprev⟩
      | none =>
        have hlinked := h.linked
        rw [hs] at hlinked
        rw [storeNext_left hs]
        refine ⟨fun he => absurd he (h.on hp), fun r' hr' => h.outer r' ?_, hlinked.2, ?_,
          (hs ▸ h.frames).tail⟩
        · rw [hs, tail_cons]
          exact mem_of_mem_tail hr'
        refine now_of_outer h hs rfl rfl fun hprev => ?_
        obtain ⟨r', runs', id, f, hruns, hp', hframe, hptr⟩ := hlinked.1 hprev
        obtain ⟨-, hcontra | ⟨-, hsame⟩⟩ := htrap hprev
        · cases hcontra
        · exact ⟨r', runs', hruns, hp', fun _ => ⟨id, f, hframe, hsame.trans hptr⟩⟩

omit h in
theorem mayEnter_cases (h : s.mayEnter = true) : s.pending = none ∧
    (s.runs = [] ∨ ∃ r runs, s.runs = r :: runs ∧ (r.phase = .trap ∨ r.phase = .stopped)) := by
  simp only [mayEnter, Bool.and_eq_true] at h
  refine ⟨by simpa using h.1, ?_⟩
  cases hs : s.runs with
  | nil => exact .inl rfl
  | cons r runs => exact .inr ⟨r, runs, rfl, by simpa [hs] using h.2⟩

theorem points_of_mayEnter (hm : s.mayEnter = true) (htrap : s.state = .trap) :
    ∃ r runs, s.runs = r :: runs ∧ r.phase = .trap ∧ Points s r := by
  obtain ⟨-, hnil | ⟨r, runs, hs, hp⟩⟩ := mayEnter_cases hm
  · have hnow := h.now
    rw [Now, hnil] at hnow
    exact absurd htrap hnow.2
  have hnow := h.nowAt hs
  obtain hp | hp := hp
  · rw [hp] at hnow
    obtain ⟨-, hpoints⟩ | ⟨-, f, -, -, hquiet, -⟩ := hnow
    · exact ⟨r, runs, hs, hp, hpoints⟩
    · exact absurd htrap hquiet.ne_trap
  · rw [hp] at hnow
    exact absurd htrap hnow.1

theorem inv_enter (hm : s.mayEnter = true) {ctx : File} : Inv e { s with
    runs := ⟨.entering, none, s.state, s.ptr, s.buf, none⟩ :: s.runs
    pending := emuPublish e (publishCopy e ctx .running false) } := by
  refine ⟨fun he => ⟨(h.off he).1, if_pos he⟩, fun r hr => ?_, ⟨fun htrap => ?_, h.linked⟩, ?_,
    h.frames.push rfl⟩
  · obtain ⟨-, hnil | ⟨r', runs, hs, hp⟩⟩ := mayEnter_cases hm
    · simp [hnil] at hr
    have hr' : r ∈ r' :: runs := by simpa [hs] using hr
    obtain rfl | hr' := mem_cons.mp hr'
    · exact hp
    · exact h.outer r (by simpa [hs] using hr')
  · obtain ⟨r, runs, hs, hp, hpoints⟩ := points_of_mayEnter h hm htrap
    obtain ⟨id, f, hframe, hptr⟩ := hpoints htrap
    exact ⟨r, runs, id, f, hs, hp, hframe, hptr⟩
  · refine ⟨fun htrap => ?_, ?_⟩
    · obtain ⟨r, runs, hs, -, hpoints⟩ := points_of_mayEnter h hm htrap
      exact ⟨r, runs, hs, hpoints⟩
    · cases he : e.noDbgCtx with
      | true => exact .inl ⟨if_pos he, .inl (h.off he).1⟩
      | false => exact .inr ⟨_, if_neg (by simp [he])⟩

theorem inv_head {r' : Run} (hs : s.runs = r :: runs) (ht : t.runs = r' :: runs)
    (hoff : e.noDbgCtx = true → t.state = .none ∧ t.pending = none)
    (hprev : r'.prevState = r.prevState ∧ r'.prevPtr = r.prevPtr) (hframes : Frames (r' :: runs) t.fresh)
    (hnow : NowAt t r' runs r'.phase) : Inv e t := by
  have houter := h.outer
  have hlinked := h.linked
  rw [hs] at houter hlinked
  refine ⟨hoff, ?_, ?_, ?_, ht ▸ hframes⟩
  · rw [ht]
    exact houter
  · rw [ht]
    refine ⟨fun htrap => ?_, hlinked.2⟩
    rw [hprev.2]
    exact hlinked.1 (hprev.1 ▸ htrap)
  · rw [Now, ht]
    exact hnow

omit h

theorem emuPublish_cases {p : Publication} :
    e.noDbgCtx = true ∧ emuPublish e p = none ∨ e.noDbgCtx = false ∧ emuPublish e p = some p := by
  cases he : e.noDbgCtx with
  | true => exact .inl ⟨rfl, if_pos he⟩
  | false => exact .inr ⟨rfl, if_neg (by simp [he])⟩

theorem off_publish (h : Inv e s) {p : Publication} (he : e.noDbgCtx = true) :
    s.state = .none ∧ emuPublish e p = none := ⟨(h.off he).1, if_pos he⟩

theorem inv_step (he : ∀ i, i ∈ e.order) (h : Inv e s) (hs : step e s a = some t) : Inv e t := by
  cases a with
  | store =>
    obtain ⟨p, hp, rfl⟩ := Option.map_eq_some_iff.mp hs
    exact inv_store h hp
  | enter ctx =>
    simp only [step] at hs
    split_ifs at hs with hm
    cases hs
    exact inv_enter h hm
  | start | restart =>
    obtain ⟨r, runs, hr, hp, hpend, hquiet, rfl⟩ := inPhase_eq_some h hs
    exact inv_head h hr rfl h.off ⟨rfl, rfl⟩ ((hr ▸ h.frames).edit rfl) ⟨hpend, hquiet⟩
  | trap ctx =>
    obtain ⟨r, runs, hr, hp, hpend, hquiet, rfl⟩ := inPhase_eq_some h hs
    refine inv_head h hr rfl (off_publish h) ⟨rfl, rfl⟩ ((hr ▸ h.frames).tail.new rfl) ?_
    obtain ⟨-, hnone⟩ | ⟨-, hsome⟩ := emuPublish_cases
    · exact .inl ⟨hnone, fun htrap => absurd htrap (Quiet.ne_trap hquiet)⟩
    · exact .inr ⟨s.fresh, ctx, rfl, rfl, hquiet, .inl hsome⟩
  | edit i v =>
    obtain ⟨r, runs, hr, hp, hpend, hpoints, rfl⟩ := inPhase_eq_some h hs
    refine inv_head h hr rfl h.off ⟨rfl, rfl⟩ ((hr ▸ h.frames).edit edited_id) ?_
    rw [hp]
    refine .inl ⟨hpend, fun htrap => ?_⟩
    obtain ⟨id, f, hframe, hptr⟩ := hpoints htrap
    exact ⟨id, update f i v, by simp [hframe], hptr⟩
  | trapReturn =>
    obtain ⟨r, runs, hr, hp, hpend, hpoints, rfl⟩ := inPhase_eq_some h hs
    refine inv_head h hr rfl (off_publish h) ⟨rfl, rfl⟩ ((hr ▸ h.frames).edit rfl) ?_
    obtain ⟨hoff, hnone⟩ | ⟨-, hsome⟩ := emuPublish_cases
    · exact .inl ⟨hnone, .inl (h.off hoff).1⟩
    · exact .inr ⟨hsome, hpoints⟩
  | leaveTrap =>
    obtain ⟨r, runs, hr, hp, hpend, hquiet, rfl⟩ := inPhase_eq_some h hs
    exact inv_head h hr rfl h.off ⟨rfl, rfl⟩ ((hr ▸ h.frames).tail.push rfl) ⟨hpend, hquiet⟩
  | stop ctx fault =>
    obtain ⟨r, runs, hr, hp, hpend, hquiet, rfl⟩ := inPhase_eq_some h hs
    refine inv_head h hr rfl (off_publish h) ⟨rfl, rfl⟩ ((hr ▸ h.frames).edit rfl)
      ⟨Quiet.ne_trap hquiet, ?_⟩
    obtain ⟨-, hnone⟩ | ⟨-, hsome⟩ :=
      emuPublish_cases
    · exact .inl hnone
    · refine .inr ⟨hquiet, _, _, hsome, ?_, congrArg some (stored_order he).symm⟩
      cases fault <;> simp
  | resume ctx =>
    obtain ⟨r, runs, hr, -, hpend, hne, rfl⟩ := inPhase_eq_some h hs
    refine inv_head h hr rfl (off_publish h) ⟨rfl, rfl⟩ ((hr ▸ h.frames).edit rfl) ⟨hne, ?_⟩
    obtain ⟨hoff, hnone⟩ | ⟨-, hsome⟩ := emuPublish_cases
    · exact .inl ⟨hnone, .inl (h.off hoff).1⟩
    · exact .inr ⟨_, hsome⟩
  | exit exception =>
    obtain ⟨r, runs, hr, -, hpend, hne, rfl⟩ := inPhase_eq_some h hs
    have hlinked := h.linked
    rw [hr] at hlinked
    split_ifs with hout
    · refine ⟨fun hoff => ⟨(h.off hoff).1, hpend⟩, fun r' hr' => h.outer r' ?_, hlinked.2, ?_,
        (hr ▸ h.frames).tail⟩
      · rw [hr, tail_cons]
        exact mem_of_mem_tail hr'
      · exact now_of_outer h hr rfl hpend fun htrap => absurd htrap hne
    · have hon : e.noDbgCtx = false := by
        simpa using (not_or.mp hout).2
      refine inv_head h hr rfl (fun hoff => by simp [hon] at hoff) ⟨rfl, rfl⟩
        ((hr ▸ h.frames).edit rfl) ⟨hne, ?_⟩
      by_cases hprev : r.prevState = .trap
      · refine ⟨[], some r.prevPtr, ?_, fun _ => ⟨rfl, .inl rfl⟩, fun hne => absurd hprev hne⟩
        rw [publishPrev, hprev]
        rfl
      · refine ⟨_, none, ?_, fun htrap => absurd htrap hprev,
          fun _ => ⟨rfl, stored_order he⟩⟩
        rw [publishPrev, if_neg hprev]
        rfl

end WinePpc64.Emu.Ctx
