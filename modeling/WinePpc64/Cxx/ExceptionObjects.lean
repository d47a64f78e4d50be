import WinePpc64.Lib.Runs

namespace WinePpc64.Cxx.Objects

open Lib List Option Function

/-- An `EXCEPTION_RECORD` at its address, with the four `ExceptionInformation` words a C++ throw
fills; `info` is NULL or the `destructor` field of the `cxx_exception_type` it points to. -/
structure Record where
  addr : ℕ
  exceptionCode : ℕ
  numberParameters : ℕ
  magic : ℕ
  object : ℕ
  info : Option ℕ
  imageBase : ℕ
  deriving DecidableEq, Repr

def isCxxException (r : Record) : Bool :=
  r.exceptionCode == 0xe06d7363 && r.numberParameters == 4 &&
    decide (0x19930520 ≤ r.magic) && decide (r.magic ≤ 0x19930522)

/-- The calls `__DestructExceptionObject` makes: the destructor and the object it is given. -/
def destructExceptionObject (r : Record) : List (ℕ × ℕ) :=
  if isCxxException r then
    (r.info.filter (· ≠ 0)).toList.map fun d => ((r.imageBase + d) % 2 ^ 64, r.object)
  else []

/-- The thread's `exc_state`, the `rec` and `context` each frame record holds (`none` for -1), and
the destructor calls made so far. The frame list is written out along `next`. -/
structure ExcState where
  excRecord : Option Record := none
  ctxRecord : ℕ := 0
  frameInfoHead : List (ℕ × ℕ) := []
  saved : ℕ → Option (Option Record × ℕ) := fun _ => none
  calls : List (ℕ × ℕ) := []

def findAndUnlinkFrame (fi : ℕ) : List (ℕ × ℕ) → List (ℕ × ℕ)
  | [] => []
  | cur :: next => if cur.1 = fi then next else cur :: findAndUnlinkFrame fi next

def isExceptionObjectToBeDestroyed (frames : List (ℕ × ℕ)) (obj : ℕ) : Bool :=
  !frames.any (·.2 = obj)

def cxxRegisterExceptionObject (s : ExcState) (ep : Option (Record × ℕ)) (fi : ℕ) : ExcState :=
  match ep with
  | none => { s with saved := Function.update s.saved fi none }
  | some (r, ctx) => { s with
      saved := Function.update s.saved fi (some (s.excRecord, s.ctxRecord))
      excRecord := some r
      ctxRecord := ctx
      frameInfoHead := (fi, r.object) :: s.frameInfoHead }

def cxxUnregisterExceptionObject (s : ExcState) (fi : ℕ) (inUse : Bool) : ExcState :=
  match s.saved fi with
  | none => s
  | some (old, ctx) =>
    let frames := findAndUnlinkFrame fi s.frameInfoHead
    let destroyed := match s.excRecord with
      | none => []
      | some r =>
        if r.exceptionCode = 0xe06d7363 ∧ ¬inUse ∧
            isExceptionObjectToBeDestroyed frames r.object = true
        then destructExceptionObject r else []
    { s with excRecord := old, ctxRecord := ctx, frameInfoHead := frames,
             calls := s.calls ++ destroyed }

/-- A registration not yet undone, with the current exception and context it found. -/
structure Open where
  frame : ℕ
  ep : Option (Record × ℕ)
  before : Option Record × ℕ

def Open.names (o : Open) (a : ℕ) : Bool := o.ep.any (·.1.object = a)

def Open.destructs (o : Open) : List (ℕ × ℕ) := o.ep.elim [] fun e => destructExceptionObject e.1

def Open.owns (o : Open) (a : ℕ) : Bool := o.destructs.any (·.2 = a)

def owned (os : List Open) (a : ℕ) : Bool := os.any (·.owns a)

def named (os : List Open) (a : ℕ) : Bool := os.any (·.names a)

/-- The objects that `o`, registered inside `os`, is the first frame of. -/
def first (o : Open) (os : List Open) : List ℕ :=
  (o.destructs.filter fun c => !owned os c.2).map Prod.snd

/-- `begun` lists the objects whose first frame has been registered. -/
structure World where
  state : ExcState := {}
  opened : List Open := []
  begun : List ℕ := []

inductive Call
  | register (ep : Option (Record × ℕ)) (frame : ℕ)
  | unregister

/-- Properly nested calls, each open frame with a record of its own. -/
def step (w : World) : Call → Option World
  | .register ep f =>
    if f ∈ w.opened.map Open.frame then none
    else
      let o : Open := ⟨f, ep, w.state.excRecord, w.state.ctxRecord⟩
      some { state := cxxRegisterExceptionObject w.state ep f
             opened := o :: w.opened
             begun := first o w.opened ++ w.begun }
  | .unregister => match w.opened with
    | [] => none
    | o :: rest => some { w with
        state := cxxUnregisterExceptionObject w.state o.frame false
        opened := rest }

def World.destroyed (w : World) (a : ℕ) : ℕ := (w.state.calls.map Prod.snd).count a

/-- A C++ object entering its first frame is named by no frame that is open already. -/
def unnamed (w : World) : Call → Bool
  | .register (some (r, _)) _ =>
    (destructExceptionObject r).isEmpty || owned w.opened r.object || !named w.opened r.object
  | _ => true

def Open.entry (o : Open) : Option (ℕ × ℕ) := o.ep.map fun e => (o.frame, e.1.object)

/-- The exception and context that are current while `o` is the innermost open frame. -/
def Open.after (o : Open) : Option Record × ℕ :=
  o.ep.elim o.before fun e => (some e.1, e.2)

def current (start : Option Record × ℕ) : List Open → Option Record × ℕ
  | [] => start
  | o :: _ => o.after

def Nested (start : Option Record × ℕ) : List Open → Prop
  | [] => True
  | o :: rest => o.before = current start rest ∧ Nested start rest

def Rooted : List Open → Prop
  | [] => True
  | o :: rest => (∀ a, o.owns a → named rest a → owned rest a) ∧ Rooted rest

structure Tracked (start : Option Record × ℕ) (w : World) : Prop where
  frames : w.state.frameInfoHead = w.opened.filterMap Open.entry
  saved : ∀ o ∈ w.opened, w.state.saved o.frame = o.ep.map fun _ => o.before
  distinct : (w.opened.map Open.frame).Nodup
  nested : Nested start w.opened
  now : (w.state.excRecord, w.state.ctxRecord) = current start w.opened

structure Counted (w : World) : Prop where
  rooted : Rooted w.opened
  count : ∀ a, w.begun.count a = w.destroyed a + (owned w.opened a).toNat

variable {start : Option Record × ℕ} {w w' : World} {o : Open} {rest : List Open}
  {ep : Option (Record × ℕ)} {f a : ℕ} {c : Call}

theorem step_register (h : step w (.register ep f) = some w') :
    f ∉ w.opened.map Open.frame ∧
      w' = { state := cxxRegisterExceptionObject w.state ep f
             opened := ⟨f, ep, w.state.excRecord, w.state.ctxRecord⟩ :: w.opened
             begun := first ⟨f, ep, w.state.excRecord, w.state.ctxRecord⟩ w.opened ++ w.begun } := by
  simp only [step] at h
  split at h
  · cases h
  · next hf => exact ⟨hf, (Option.some.inj h).symm⟩

theorem step_unregister (h : step w .unregister = some w') :
    ∃ o rest, w.opened = o :: rest ∧ w' = { w with
      state := cxxUnregisterExceptionObject w.state o.frame false, opened := rest } := by
  simp only [step] at h
  split at h
  · cases h
  · next o rest ho => exact ⟨o, rest, ho, (Option.some.inj h).symm⟩

theorem Tracked.register (h : Tracked start w) (hw : step w (.register ep f) = some w') :
    Tracked start w' := by
  obtain ⟨hf, rfl⟩ := step_register hw
  have hsaved : (cxxRegisterExceptionObject w.state ep f).saved = update w.state.saved f
      (ep.map fun _ => (w.state.excRecord, w.state.ctxRecord)) := by
    rcases ep with _ | ⟨r, ctx⟩ <;> rfl
  refine ⟨?_, ?_, nodup_cons.mpr ⟨hf, h.distinct⟩, ⟨h.now, h.nested⟩, ?_⟩
  · rcases ep with _ | ⟨r, -⟩
    · exact h.frames
    · exact congrArg ((f, r.object) :: ·) h.frames
  · intro o ho
    rw [hsaved]
    rcases mem_cons.mp ho with rfl | ho
    · exact update_self ..
    · have hne : o.frame ≠ f := fun e => hf (e ▸ mem_map_of_mem ho)
      rw [update_of_ne hne]
      exact h.saved o ho
  · rcases ep with _ | ⟨r, -⟩ <;> rfl

theorem destruct_cases (r : Record) : destructExceptionObject r = [] ∨
    r.exceptionCode = 0xe06d7363 ∧ ∃ d, destructExceptionObject r = [(d, r.object)] := by
  by_cases hc : isCxxException r = true
  · have hcode : r.exceptionCode = 0xe06d7363 := by
      simp only [isCxxException, Bool.and_eq_true, beq_iff_eq] at hc
      exact hc.1.1.1
    rw [destructExceptionObject, if_pos hc]
    generalize r.info.filter (· ≠ 0) = i
    rcases i with _ | d
    · exact .inl rfl
    · exact .inr ⟨hcode, _, rfl⟩
  · exact .inl (if_neg hc)

theorem destructs_cases (o : Open) : o.destructs = [] ∨ ∃ c, o.destructs = [c] := by
  rcases he : o.ep with _ | e
  · exact .inl (by rw [Open.destructs, he, elim_none])
  · rw [Open.destructs, he, elim_some]
    exact (destruct_cases e.1).imp_right fun ⟨_, d, hd⟩ => ⟨_, hd⟩

theorem count_destructs (p : ℕ → Bool) :
    ((o.destructs.filter fun c => p c.2).map Prod.snd).count a = (o.owns a && p a).toNat := by
  rcases destructs_cases o with hd | ⟨c, hd⟩
  · simp [Open.owns, hd]
  by_cases hc : c.2 = a
  · subst hc
    cases hp : p c.2 <;> simp [Open.owns, hd, hp]
  · cases hp : p c.2 <;> simp [Open.owns, hd, hp, hc]

theorem Tracked.unregister_state (h : Tracked start w) (ho : w.opened = o :: rest) :
    cxxUnregisterExceptionObject w.state o.frame false = { w.state with
      excRecord := o.before.1
      ctxRecord := o.before.2
      frameInfoHead := rest.filterMap Open.entry
      calls := w.state.calls ++ o.destructs.filter fun c => !named rest c.2 } := by
  have hs := h.saved o (ho ▸ mem_cons_self)
  have hframes := h.frames
  have hnow := h.now
  rw [ho] at hframes hnow
  rcases he : o.ep with _ | ⟨r, ctx⟩
  · simp only [filterMap_cons, Open.entry, he, map_none] at hframes
    simp only [current, Open.after, he, elim_none, Prod.ext_iff] at hnow
    simp [cxxUnregisterExceptionObject, hs, he, Open.destructs, ← hnow, ← hframes]
  have hany : (rest.filterMap Open.entry).any (·.2 = r.object) =
      named rest r.object := by
    rw [any_filterMap]
    congr 1
    funext p
    rcases hp : p.ep with _ | e <;> simp [Open.entry, Open.names, hp]
  simp only [filterMap_cons, Open.entry, he, map_some] at hframes
  simp only [current, Open.after, he, elim_some, Prod.ext_iff] at hnow
  simp only [cxxUnregisterExceptionObject, hs, he, map_some, hframes, hnow,
    findAndUnlinkFrame, if_pos, isExceptionObjectToBeDestroyed, hany, Open.destructs,
    elim_some]
  rcases destruct_cases r with hd | ⟨hcode, d, hd⟩
  · simp [hd]
  · cases hn : named rest r.object <;> simp [hd, hcode, hn]

theorem Tracked.unregister (h : Tracked start w) (hw : step w .unregister = some w') : Tracked start w' := by
  obtain ⟨o, rest, ho, rfl⟩ := step_unregister hw
  have hn := h.nested
  have hd := h.distinct
  rw [ho] at hn hd
  rw [h.unregister_state ho]
  exact ⟨rfl, fun p hp => h.saved p (ho ▸ mem_cons_of_mem _ hp), (nodup_cons.mp hd).2,
    hn.2, hn.1⟩

theorem Counted.register (h : Counted w) (hu : unnamed w (.register ep f) = true)
    (hw : step w (.register ep f) = some w') : Counted w' := by
  obtain ⟨-, rfl⟩ := step_register hw
  have hcalls : (cxxRegisterExceptionObject w.state ep f).calls = w.state.calls := by
    rcases ep with _ | ⟨r, ctx⟩ <;> rfl
  refine ⟨⟨?_, h.rooted⟩, ?_⟩
  · intro a ha hn
    rcases ep with _ | ⟨r, ctx⟩
    · cases ha
    rcases destruct_cases r with hd | ⟨-, d, hd⟩
    · simp [Open.owns, Open.destructs, hd] at ha
    · obtain rfl : r.object = a := by simpa [Open.owns, Open.destructs, hd] using ha
      simpa [unnamed, hd, show named w.opened r.object = true from hn] using hu
  · intro a
    have hc := h.count a
    generalize (⟨f, ep, w.state.excRecord, w.state.ctxRecord⟩ : Open) = o
    have hlive : owned (o :: w.opened) a = (o.owns a || owned w.opened a) := rfl
    rw [first, count_append, count_destructs fun a => !owned w.opened a, hlive, World.destroyed,
      hcalls, hc, World.destroyed]
    cases o.owns a <;> cases owned w.opened a <;> simp; omega

theorem names_of_owns (h : o.owns a = true) : o.names a = true := by
  rcases he : o.ep with _ | e
  · simp [Open.owns, Open.destructs, he] at h
  · rcases destruct_cases e.1 with hd | ⟨-, d, hd⟩
    · simp [Open.owns, Open.destructs, he, hd] at h
    · simpa [Open.owns, Open.destructs, Open.names, he, hd] using h

theorem Counted.spared (h : Counted w) (ho : w.opened = o :: rest) :
    (o.destructs.filter fun c => !named rest c.2) = o.destructs.filter fun c => !owned rest c.2 := by
  have hr := h.rooted
  rw [ho] at hr
  apply filter_congr
  intro c hc
  have hroot := hr.1 c.2 (any_eq_true.mpr ⟨c, hc, by simp⟩)
  have hown : owned rest c.2 = true → named rest c.2 = true := by
    simp only [owned, named, List.any_eq_true]
    exact fun ⟨p, hp, hx⟩ => ⟨p, hp, names_of_owns hx⟩
  rw [Bool.eq_iff_iff.mpr ⟨hroot, hown⟩]

theorem Counted.unregister (h : Counted w) (ht : Tracked start w)
    (hw : step w .unregister = some w') : Counted w' := by
  obtain ⟨o, rest, ho, rfl⟩ := step_unregister hw
  have hr := h.rooted
  rw [ho] at hr
  refine ⟨hr.2, ?_⟩
  intro a
  have hc := h.count a
  have hlive : owned (o :: rest) a = (o.owns a || owned rest a) := rfl
  rw [ho, hlive, World.destroyed] at hc
  rw [hc, World.destroyed, ht.unregister_state ho, h.spared ho, map_append, count_append,
    count_destructs fun a => !owned rest a]
  cases o.owns a <;> cases owned rest a <;> simp

def thrown : Record × ℕ := (⟨0x100, 0xe06d7363, 4, 0x19930520, 0x5000, some 0x40, 0x140000000⟩, 0x200)

end WinePpc64.Cxx.Objects
