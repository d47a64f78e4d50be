import WinePpc64.Unwind.Walk

namespace WinePpc64.Unwind

open List

variable {Ctx : Type}

def terminationsFrom (base pc : Addr) : ℕ → List ScopeRecord → List (ℕ × ScopeRecord)
  | _, [] => []
  | i, s :: rest =>
    if s.covers base pc = true ∧ s.jumpTarget = 0 then (i, s) :: terminationsFrom base pc (i + 1) rest
    else terminationsFrom base pc (i + 1) rest

def entered (events : List Event) : List (Addr × ℕ) :=
  events.reverse.filterMap fun
    | .scope frame index _ => some (frame, index)
    | .handler _ => none

def resumeIndex (frame : Addr) : List Event → ℕ
  | [] => 0
  | .scope f i true :: events => if f = frame then i + 1 else resumeIndex frame events
  | _ :: events => resumeIndex frame events

@[simp] theorem entered_nil : entered [] = [] := rfl

@[simp] theorem entered_scope (f : Addr) (i : ℕ) (b : Bool) (events : List Event) :
    entered (.scope f i b :: events) = entered events ++ [(f, i)] := by
  simp [entered, filterMap_append]

variable {l : List ScopeRecord} {i n : ℕ} {base pc : Addr}

theorem terminationsFrom_ge : ∀ p ∈ terminationsFrom base pc i l, i ≤ p.1 := by
  induction l generalizing i with
  | nil => simp [terminationsFrom]
  | cons s rest ih =>
    intro p hp
    unfold terminationsFrom at hp
    split_ifs at hp
    · rcases mem_cons.mp hp with rfl | hp
      · exact le_rfl
      · have := ih p hp; omega
    · have := ih p hp; omega

theorem terminationsFrom_sorted : (terminationsFrom base pc i l).Pairwise fun p q => p.1 < q.1 := by
  induction l generalizing i with
  | nil => simp [terminationsFrom]
  | cons s rest ih =>
    unfold terminationsFrom
    split_ifs
    · refine pairwise_cons.mpr ⟨fun q hq => ?_, ih⟩
      have := terminationsFrom_ge q hq
      omega
    · exact ih

theorem terminationsFrom_drop : terminationsFrom base pc (i + n) (l.drop n) =
      (terminationsFrom base pc i l).filter fun p => decide (i + n ≤ p.1) := by
  induction l generalizing i n with
  | nil => simp [terminationsFrom]
  | cons s rest ih =>
    cases n with
    | zero =>
      rw [drop_zero, Nat.add_zero, filter_eq_self.mpr]
      intro p hp
      simpa using terminationsFrom_ge p hp
    | succ n =>
      have hi := @ih (i + 1) n
      rw [show i + 1 + n = i + (n + 1) by omega] at hi
      rw [drop_succ_cons, hi]
      conv => rhs; unfold terminationsFrom
      split_ifs
      · simp
      · rfl

inductive PassResult (frame : Addr) (ts : List (ℕ × ScopeRecord)) (r r' : ScopeRun) : Prop
  | ended (es : List ℕ) (hev : entered r'.events = entered r.events ++ es.map (Prod.mk frame))
      (hres : ∀ f, resumeIndex f r'.events = resumeIndex f r.events) (hagain : r'.again = none)
      (hes : es = ts.map Prod.fst)
  | collided (es : List ℕ) (j : ℕ) (again : UnwindTarget) (p : ScopeRecord)
      (post : List (ℕ × ScopeRecord))
      (hev : entered r'.events = entered r.events ++ (es ++ [j]).map (Prod.mk frame))
      (hres : ∀ f, resumeIndex f r'.events = if f = frame then j + 1 else resumeIndex f r.events)
      (hagain : r'.again = some again) (hidx : r'.scopeIndex = j + 1)
      (hts : ∃ pre, ts = pre ++ (j, p) :: post ∧ es = pre.map Prod.fst)

def cutAt (target : Prop) [Decidable target] (base ip : Addr) (ts : List (ℕ × ScopeRecord)) :
    List (ℕ × ScopeRecord) :=
  if target then ts.takeWhile fun p => !p.2.covers base ip else ts

variable {ts : List (ℕ × ScopeRecord)} {s : ScopeRecord} {ip : Addr}

theorem cutAt_cons_of_pos {target : Prop} [Decidable target]
    (h : target ∧ s.covers base ip = true) : cutAt target base ip ((i, s) :: ts) = [] := by
  rw [cutAt, if_pos h.1, takeWhile_cons_of_neg (by simp [h.2])]

theorem cutAt_cons_of_neg {target : Prop} [Decidable target]
    (h : ¬ (target ∧ s.covers base ip = true)) :
    cutAt target base ip ((i, s) :: ts) = (i, s) :: cutAt target base ip ts := by
  unfold cutAt
  split_ifs with ht
  · rw [takeWhile_cons_of_pos]
    simpa [ht] using h
  · rfl

theorem cutAt_prefix (target : Prop) [Decidable target] (base ip : Addr)
    (ts : List (ℕ × ScopeRecord)) : ∃ post, ts = cutAt target base ip ts ++ post := by
  unfold cutAt
  split_ifs
  · exact ⟨_, takeWhile_append_dropWhile.symm⟩
  · exact ⟨[], by simp⟩

variable {g : Guest Ctx} {d : Dispatcher Ctx} {r r' : ScopeRun}

theorem PassResult.cons {frame : Addr} {k : ℕ} (h : PassResult frame ts
      { r with scopeIndex := k, events := .scope frame i false :: r.events } r') :
    PassResult frame ((i, s) :: ts) r r' := by
  cases h with
  | ended es hev hres hagain hes =>
    exact .ended (i :: es) (by simpa using hev) hres hagain (by simp [hes])
  | collided es j again p post hev hres hagain hidx hts =>
    obtain ⟨pre, rfl, rfl⟩ := hts
    refine .collided (i :: pre.map Prod.fst) j again p post (by simpa using hev) hres hagain hidx ?_
    exact ⟨(i, s) :: pre, rfl, rfl⟩

theorem runTerminations_pass (rec : ExceptionRecord) (h : r.again = none) : PassResult d.establisherFrame
      (cutAt (rec.flags &&& exceptionTargetUnwind ≠ 0) d.imageBase d.targetIp
        (terminationsFrom d.imageBase d.controlPc i l)) r (runTerminations g rec d i l r) := by
  induction l generalizing i r with
  | nil =>
    have hnil : cutAt (rec.flags &&& exceptionTargetUnwind ≠ 0) d.imageBase d.targetIp [] = [] := by
      simp [cutAt]
    rw [terminationsFrom, hnil]
    exact .ended [] (by simp [runTerminations]) (fun _ => rfl) h rfl
  | cons s rest ih =>
    by_cases hterm : s.covers d.imageBase d.controlPc = true ∧ s.jumpTarget = 0
    · rw [terminationsFrom, if_pos hterm]
      unfold runTerminations
      rw [if_neg (by simp [hterm.1]), if_neg (by simp [hterm.2])]
      by_cases ht : rec.flags &&& exceptionTargetUnwind ≠ 0 ∧
          s.covers d.imageBase d.targetIp = true
      · rw [if_pos ht, cutAt_cons_of_pos ht]
        exact .ended [] (by simp) (fun _ => rfl) h rfl
      rw [if_neg ht, cutAt_cons_of_neg ht]
      split
      · refine PassResult.cons (ih ?_)
        exact h
      split
      · refine PassResult.cons (ih ?_)
        exact h
      refine .collided [] i _ s _ (by simp) (fun f => ?_) rfl rfl ⟨[], rfl, rfl⟩
      by_cases hf : f = d.establisherFrame
      · simp [resumeIndex, hf]
      · simp [resumeIndex, hf, Ne.symm hf]
    · rw [terminationsFrom, if_neg hterm]
      unfold runTerminations
      by_cases hpc : s.covers d.imageBase d.controlPc = true
      · rw [if_neg (by simp [hpc]), if_pos fun hj => hterm ⟨hpc, hj⟩]
        exact ih h
      · rw [if_pos (by simpa using hpc)]
        exact ih h

end WinePpc64.Unwind
