import WinePpc64.Unwind.Terminations

namespace WinePpc64.Unwind

open List FrameInfo Walk

variable {Ctx : Type} {g : Guest Ctx}

inductive IsStack (g : Guest Ctx) : Ctx → List FrameInfo → Prop
  | bottom {c : Ctx} (h : ∀ f c', g.virtualUnwind c = .ok (f, c') →
      f.establisherFrame = 0 ∨ g.validFrame f.establisherFrame = false) : IsStack g c []
  | frame {c c' : Ctx} {f : FrameInfo} {fs : List FrameInfo} :
      g.virtualUnwind c = .ok (f, c') → IsStack g c' fs → IsStack g c (f :: fs)

structure CSpecificStack (g : Guest Ctx) (start : Ctx) (frames : List FrameInfo) : Prop where
  stack : IsStack g start frames
  sorted : frames.Pairwise fun a b => a.establisherFrame < b.establisherFrame
  valid : ∀ f ∈ frames, f.establisherFrame ≠ 0 ∧ g.validFrame f.establisherFrame = true
  handlers : ∀ f ∈ frames, ∃ table, f.languageHandler = .cSpecific (some table)

def FrameInfo.terminations (f : FrameInfo) : List (ℕ × ScopeRecord) :=
  match f.languageHandler with
  | .cSpecific (some table) => terminationsFrom f.imageBase f.controlPc 0 table
  | _ => []

def FrameInfo.tag (f : FrameInfo) (ts : List (ℕ × ScopeRecord)) : List (Addr × ℕ) :=
  ts.map fun p => (f.establisherFrame, p.1)

def FrameInfo.all (f : FrameInfo) : List (Addr × ℕ) := f.tag f.terminations

/-- The scopes of the final target frame that ran: those before the index `resume` at which the last
collision resumed it, then those before the first one that contains `ip`. -/
def FrameInfo.owed (f : FrameInfo) (resume : ℕ) (ip : Addr) : List (Addr × ℕ) :=
  f.tag (f.terminations.filter fun p => decide (p.1 < resume)) ++
    f.tag ((f.terminations.filter fun p => decide (resume ≤ p.1)).takeWhile
      fun p => !p.2.covers f.imageBase ip)

variable (f : FrameInfo)

theorem terminations_sorted : f.terminations.Pairwise fun p q => p.1 < q.1 := by
  unfold terminations
  split
  · exact terminationsFrom_sorted
  · exact .nil

theorem tag_append {xs ys : List (ℕ × ScopeRecord)} :
    f.tag (xs ++ ys) = f.tag xs ++ f.tag ys := map_append

theorem tag_eq {ts : List (ℕ × ScopeRecord)} :
    f.tag ts = (ts.map Prod.fst).map (Prod.mk f.establisherFrame) := by
  simp [tag]

variable {ts : List (ℕ × ScopeRecord)} {x : BitVec 32}

theorem filter_lt_append_filter_ge (h : ts.Pairwise fun p q => p.1 < q.1) (n : ℕ) :
    ts.filter (fun p => decide (p.1 < n)) ++ ts.filter (fun p => decide (n ≤ p.1)) = ts := by
  induction ts with
  | nil => rfl
  | cons p ts ih =>
    obtain ⟨hp, hts⟩ := pairwise_cons.mp h
    by_cases hn : p.1 < n
    · simp [hn, Nat.not_le.mpr hn, ih hts]
    have hnone : ts.filter (fun q => decide (q.1 < n)) = [] := by
      apply filter_eq_nil_iff.mpr
      intro q hq
      have := hp q hq
      simp only [decide_eq_true_eq]
      omega
    have hall : ts.filter (fun q => decide (n ≤ q.1)) = ts := by
      apply filter_eq_self.mpr
      intro q hq
      have := hp q hq
      simp only [decide_eq_true_eq]
      omega
    simp [hn, Nat.not_lt.mp hn, hnone, hall]

theorem filter_lt_succ {a b : List (ℕ × ScopeRecord)} {j : ℕ} {s : ScopeRecord}
    (h : ts.Pairwise fun p q => p.1 < q.1) (hts : ts = a ++ (j, s) :: b) :
    ts.filter (fun p => decide (p.1 < j + 1)) = a ++ [(j, s)] := by
  subst hts
  obtain ⟨_, hb, ha⟩ := pairwise_append.mp h
  have hall : a.filter (fun p => decide (p.1 < j + 1)) = a := by
    apply filter_eq_self.mpr
    intro p hp
    have := ha p hp (j, s) (by simp)
    simp only [decide_eq_true_eq]
    omega
  have hnone : b.filter (fun p => decide (p.1 < j + 1)) = [] := by
    apply filter_eq_nil_iff.mpr
    intro p hp
    have := (pairwise_cons.mp hb).1 p hp
    simp only [decide_eq_true_eq]
    omega
  rw [filter_append, filter_cons_of_pos (by simp), hall, hnone]

theorem targetFlag_set : (x ||| exceptionTargetUnwind) &&& exceptionTargetUnwind ≠ 0 := by
  have h : (x ||| exceptionTargetUnwind) &&& exceptionTargetUnwind = exceptionTargetUnwind := by
    ext i hi; simp +contextual
  rw [h]; decide

theorem targetFlag_clear : (x &&& ~~~exceptionTargetUnwind) &&& exceptionTargetUnwind = 0 := by
  ext i hi; simp

theorem markTarget_flags {w : Walk Ctx} :
    w.markTarget.unwindRec.flags &&& exceptionTargetUnwind ≠ 0 ↔
      w.dispatch.establisherFrame = w.want.frame := by
  unfold markTarget
  split_ifs with h
  · exact iff_of_true targetFlag_set h
  · exact iff_of_false (not_not.mpr targetFlag_clear) h

structure At (g : Guest Ctx) (frames : List FrameInfo) (w : Walk Ctx) (below : List FrameInfo)
    (f : FrameInfo) (above : List FrameInfo) : Prop where
  split : frames = below ++ f :: above
  context : IsStack g w.context above
  pc : w.dispatch.controlPc = f.controlPc
  base : w.dispatch.imageBase = f.imageBase
  frame : w.dispatch.establisherFrame = f.establisherFrame
  handler : w.dispatch.languageHandler = f.languageHandler
  ip : w.dispatch.targetIp = w.want.targetIp
  scope : w.dispatch.scopeIndex = resumeIndex f.establisherFrame w.events
  ran : entered w.events = below.flatMap FrameInfo.all ++
    f.tag (f.terminations.filter fun p => decide (p.1 < w.dispatch.scopeIndex))
  fresh : ∀ x ∈ above, resumeIndex x.establisherFrame w.events = 0

variable {f : FrameInfo}

theorem terminations_rest {table : List ScopeRecord} (h : f.languageHandler = .cSpecific (some table)) {n : ℕ} :
    terminationsFrom f.imageBase f.controlPc n (table.drop n) =
      f.terminations.filter fun p => decide (n ≤ p.1) := by
  have : terminationsFrom f.imageBase f.controlPc (0 + n) (table.drop n) = _ := terminationsFrom_drop
  simpa [terminations, h] using this

variable {frames below above : List FrameInfo}

theorem entered_sublist (h : frames = below ++ f :: above) (hts : ts.Sublist f.terminations) :
    (below.flatMap FrameInfo.all ++ f.tag ts).Sublist (frames.flatMap FrameInfo.all) := by
  rw [h, flatMap_append]
  refine List.Sublist.append (List.Sublist.refl _) ?_
  exact (hts.map _).trans (sublist_append_left _ _)

section Frame

variable (w : Walk Ctx) (k : Option RunStack)

@[simp] theorem keep_context : (w.keep k).context = w.context := by
  cases k <;> simp only [keep]; split_ifs <;> rfl

@[simp] theorem keep_want : (w.keep k).want = w.want := by
  cases k <;> simp only [keep]; split_ifs <;> rfl

@[simp] theorem keep_dispatch : (w.keep k).dispatch = w.dispatch := by
  cases k <;> simp only [keep]; split_ifs <;> rfl

@[simp] theorem keep_events : (w.keep k).events = w.events := by
  cases k <;> simp only [keep]; split_ifs <;> rfl

end Frame

inductive Handled (g : Guest Ctx) (frames below : List FrameInfo) (f : FrameInfo)
    (above : List FrameInfo) (w : Walk Ctx) : Option Disposition × Walk Ctx → Prop
  | searched {w' : Walk Ctx} (hcontext : w'.context = w.context) (hwant : w'.want = w.want)
      (hframe : w'.dispatch.establisherFrame = f.establisherFrame)
      (hip : w'.dispatch.targetIp = w.want.targetIp)
      (hres : ∀ x, resumeIndex x w'.events = resumeIndex x w.events)
      (hev : entered w'.events = below.flatMap FrameInfo.all ++
        if f.establisherFrame = w.want.frame
        then f.owed (resumeIndex f.establisherFrame w.events) w.want.targetIp else f.all) :
      Handled g frames below f above w (some .continueSearch, w')
  | collided {w' : Walk Ctx} {again : UnwindTarget}
      (hat : At g frames (w'.adopt again) below f above) :
      Handled g frames below f above w (some (.executeHandler again), w')

variable {w : Walk Ctx} {n : ℕ}

theorem enterHandler_handled {table : List ScopeRecord} (h : At g frames w below f above)
    (hsorted : frames.Pairwise fun a b => a.establisherFrame < b.establisherFrame)
    (hh : f.languageHandler = .cSpecific (some table)) :
    Handled g frames below f above w (w.markTarget.enterHandler g) := by
  set S := w.dispatch.scopeIndex with hS
  have hlang : w.markTarget.dispatch.languageHandler = .cSpecific (some table) := h.handler.trans hh
  unfold enterHandler
  rw [hlang]
  simp only [guestCSpecificHandler]
  have hpass := runTerminations_pass (g := g) (d := w.markTarget.dispatch)
    (i := w.markTarget.dispatch.scopeIndex) (l := table.drop w.markTarget.dispatch.scopeIndex)
    (r := ⟨w.markTarget.dispatch.scopeIndex, w.markTarget.events, w.markTarget.keptRun, none⟩)
    w.markTarget.unwindRec rfl
  revert hpass
  generalize runTerminations g w.markTarget.unwindRec w.markTarget.dispatch _ _ _ = r
  intro hpass
  change PassResult w.dispatch.establisherFrame (cutAt _ w.dispatch.imageBase w.dispatch.targetIp
    (terminationsFrom w.dispatch.imageBase w.dispatch.controlPc S (table.drop S))) ⟨S, w.events, w.keptRun, none⟩ r at hpass
  rw [h.pc, h.base, h.frame, h.ip, terminations_rest hh] at hpass
  cases hpass with
  | ended es hev hres hagain hes =>
    rw [hagain]
    refine .searched ?_ ?_ ?_ ?_ ?_ ?_
    · simp [sweep, markTarget]
    · simp [sweep, markTarget]
    · simpa [sweep, markTarget] using h.frame
    · simpa [sweep, markTarget] using h.ip
    · simpa [sweep, markTarget] using hres
    · simp only [sweep, keep_events, hev, hes, ← tag_eq, cutAt, markTarget_flags]
      rw [h.ran, append_assoc, h.frame, ← h.scope]
      split_ifs
      · rfl
      · rw [← tag_append, filter_lt_append_filter_ge (terminations_sorted f)]
        rfl
  | collided es j again p post hev hres hagain hidx hts =>
    rw [hagain]
    obtain ⟨pre, hcut, rfl⟩ := hts
    obtain ⟨post', hpost⟩ := cutAt_prefix (w.markTarget.unwindRec.flags &&& exceptionTargetUnwind ≠ 0)
      f.imageBase w.want.targetIp (f.terminations.filter fun p => decide (S ≤ p.1))
    have hsplit : f.terminations = (f.terminations.filter (fun p => decide (p.1 < S)) ++ pre) ++
        (j, p) :: (post ++ post') := by
      conv_lhs => rw [← filter_lt_append_filter_ge (terminations_sorted f) S, hpost, hcut]
      simp
    refine .collided ⟨h.split, ?_, ?_, ?_, ?_, ?_, ?_, ?_, ?_, ?_⟩
    · simpa [sweep, markTarget, adopt] using h.context
    · simpa [sweep, markTarget, adopt] using h.pc
    · simpa [sweep, markTarget, adopt] using h.base
    · simpa [sweep, markTarget, adopt] using h.frame
    · simpa [sweep, markTarget, adopt] using h.handler
    · simp [sweep, markTarget, adopt]
    · simp [sweep, adopt, hidx, hres]
    · have hfilter := filter_lt_succ (terminations_sorted f) hsplit
      simp only [sweep, adopt, keep_events, keep_dispatch, hev, hidx, hfilter]
      rw [h.ran, tag_append]
      simp [tag_eq, hS]
    · intro x hx
      have hne : x.establisherFrame ≠ f.establisherFrame := by
        rw [h.split] at hsorted
        have := (pairwise_cons.mp (pairwise_append.mp hsorted).2.1).1 x hx
        exact (BitVec.ne_of_lt this).symm
      simpa [sweep, markTarget, adopt, hres, hne] using h.fresh x hx

theorem owed_sublist {ip : Addr} (h : frames = below ++ f :: above) :
    (below.flatMap FrameInfo.all ++ f.owed n ip).Sublist (frames.flatMap FrameInfo.all) := by
  rw [owed, ← tag_append]
  apply entered_sublist h
  conv_rhs => rw [← filter_lt_append_filter_ge (terminations_sorted f) n]
  exact (List.Sublist.refl _).append (takeWhile_sublist _)

/-- What a stopped walk has entered: on success the frames below the target and what the target
frame owes, and in any case a sublist of all scopes in stack order. -/
structure Stopped (frames : List FrameInfo) (r : Status × Walk Ctx) : Prop where
  order : (entered r.2.events).Sublist (frames.flatMap FrameInfo.all)
  success : r.1 = .success → ∃ below f above, frames = below ++ f :: above ∧
    f.establisherFrame = r.2.want.frame ∧ entered r.2.events = below.flatMap FrameInfo.all ++
      f.owed (resumeIndex f.establisherFrame r.2.events) r.2.want.targetIp

theorem At.sublist
    (h : At g frames w below f above) : (entered w.events).Sublist (frames.flatMap FrameInfo.all) := by
  rw [h.ran]
  exact entered_sublist h.split filter_sublist

theorem Stopped.of_error {r : Status × Walk Ctx} (hstatus : r.1 ≠ .success)
    (h : (entered r.2.events).Sublist (frames.flatMap FrameInfo.all)) : Stopped frames r :=
  ⟨h, fun hs => absurd hs hstatus⟩

theorem advance_at {x : FrameInfo} {c : Ctx}
    (hsplit : frames = below ++ f :: x :: above) (hx : g.virtualUnwind w.context = .ok (x, c))
    (hstack : IsStack g c above) (hip : w.dispatch.targetIp = w.want.targetIp)
    (hfresh : ∀ y ∈ x :: above, resumeIndex y.establisherFrame w.events = 0)
    (hran : entered w.events = (below ++ [f]).flatMap FrameInfo.all) :
    ∃ w', w.advance g = .ok w' ∧ At g frames w' (below ++ [f]) x above := by
  refine ⟨_, by rw [advance, hx], ?_⟩
  refine ⟨by simp [hsplit], hstack, rfl, rfl, rfl, rfl, hip, ?_, ?_, ?_⟩
  · exact (hfresh x (by simp)).symm
  · simpa [tag, stepOver] using hran
  · exact fun y hy => hfresh y (by simp [hy])

theorem unwindLoop_badStack
    (h : w.dispatch.establisherFrame = 0 ∨ g.validFrame w.dispatch.establisherFrame = false) :
    unwindLoop g n w = (.badStack, w) := by
  cases n with
  | zero => rfl
  | succ n => rw [unwindLoop, if_pos h]

theorem advance_bottom (n : ℕ) (h : ∀ f c', g.virtualUnwind w.context = .ok (f, c') →
      f.establisherFrame = 0 ∨ g.validFrame f.establisherFrame = false) :
    (∃ e, w.advance g = .error (.failed e)) ∨
      ∃ w', w.advance g = .ok w' ∧ w'.events = w.events ∧ unwindLoop g n w' = (.badStack, w') := by
  cases hv : g.virtualUnwind w.context with
  | error e => exact .inl ⟨e, by rw [advance, hv]⟩
  | ok p =>
    obtain ⟨f, c⟩ := p
    refine .inr ⟨w.stepOver f c, by rw [advance, hv], rfl, unwindLoop_badStack ?_⟩
    exact h f c hv

theorem unwindLoop_stopped {start : Ctx} (hc : CSpecificStack g start frames) (n : ℕ)
    (h : At g frames w below f above) : Stopped frames (unwindLoop g n w) := by
  -- induction on what is left of the frame count; `At` is the invariant at the label `collided`
  induction n generalizing w below above f with
  | zero => exact .of_error (by simp [unwindLoop]) h.sublist
  | succ n ih =>
    unfold unwindLoop
    split_ifs with hbad hpast
    · exact .of_error (by simp) h.sublist
    · exact .of_error (by simp) h.sublist
    have hf : f ∈ frames := by simp [h.split]
    obtain ⟨table, htable⟩ := hc.handlers f hf
    have hhandled := enterHandler_handled h hc.sorted htable
    revert hhandled
    generalize w.markTarget.enterHandler g = r
    intro hhandled
    cases hhandled with
    | searched hcontext hwant hframe hip hres hev =>
      rename_i w'
      have hsub : (entered w'.events).Sublist (frames.flatMap all) := by
        rw [hev]
        split_ifs
        · exact owed_sublist h.split
        · exact entered_sublist h.split (List.Sublist.refl _)
      change Stopped frames (if w'.dispatch.establisherFrame = w'.want.frame then _ else _)
      split_ifs with htarget
      · rw [hframe, hwant] at htarget
        rw [if_pos htarget, ← hres f.establisherFrame, ← hwant] at hev
        exact ⟨hsub, fun _ => ⟨below, f, above, h.split, htarget.trans (by rw [← hwant]; rfl), hev⟩⟩
      rw [hframe, hwant] at htarget
      rw [if_neg htarget] at hev
      cases h.context with
      | bottom hbottom =>
        rcases advance_bottom (w := w'.clearCollided.saveResult) n
          (by simpa [clearCollided, saveResult, hcontext] using hbottom) with
          ⟨e, hadv⟩ | ⟨w'', hadv, hev', hloop⟩
        · rw [hadv]
          exact .of_error (by simp) hsub
        rw [hadv]
        dsimp only
        rw [hloop]
        refine .of_error (by simp) ?_
        rw [hev']
        exact hsub
      | frame hx hstack =>
        obtain ⟨w'', hadv, hat⟩ := advance_at
          (w := w'.clearCollided.saveResult) h.split
          (by simpa [clearCollided, saveResult, hcontext] using hx) hstack
          (by simpa [clearCollided, saveResult, hwant] using hip)
          (fun y hy => (hres _).trans (h.fresh y hy)) (by simpa [clearCollided, saveResult] using hev)
        rw [hadv]
        exact ih hat
    | collided hat =>
      dsimp only
      split_ifs
      · exact .of_error (by simp) (by simpa [adopt] using hat.sublist)
      · exact .of_error (by simp) (by simpa [adopt] using hat.sublist)
      · exact ih hat

end WinePpc64.Unwind
