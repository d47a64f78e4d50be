import WinePpc64.Cxx.FuncletTries

namespace WinePpc64.Cxx

open Function List Thread

structure Visit where
  frame : Addr
  dispatch : Dispatcher
  record : ExceptionRecord
  params : Option CatchParams
  current : Option ExceptionRecord

/-- What happens to an activation: the handler is called in the search of an exception that is then
resumed elsewhere, or in any other search or unwind, or `call_catch_block` ends. -/
inductive Act
  | resumed (v : Visit)
  | call (v : Visit)
  | caught (p : CatchParams)

def Act.lasts : Act → Bool
  | .resumed _ => false
  | _ => true

variable {fuel : ℕ} {descr : FuncInfo} {a : Addr} {t t' t₁ : Thread} {v : Visit} {w w' : ℤ × ℤ}
  {es : List Act}

def Thread.setWords (t : Thread) (a : Addr) (w : ℤ × ℤ) : Thread := { t with help := update t.help a w }

@[simp]
theorem Thread.help_setWords : (t.setWords a w).help a = w := update_self ..

@[simp]
theorem Thread.setWords_setWords : (t.setWords a w).setWords a w' = t.setWords a w' := by
  simp [setWords]

theorem Thread.setWords_self : t.setWords a (t.help a) = t := by
  rw [setWords, update_eq_self]

namespace Visit

def call (fuel : ℕ) (descr : FuncInfo) (v : Visit) (t : Thread) : Result (Outcome × Thread) :=
  cxxFrameHandler3 fuel t v.current v.record v.params v.frame v.dispatch descr

def state (descr : FuncInfo) (v : Visit) : ℤ := ipToState descr v.dispatch.controlPc v.dispatch.imageBase

def origin (descr : FuncInfo) (link : Addr → Rva → Addr) (v : Visit) : Addr :=
  (nestedFrame ⟨fun _ => (-2, -1), link, [], fun _ _ => 0⟩ v.frame v.dispatch descr (v.state descr)).1

def Ignored (descr : FuncInfo) (v : Visit) : Prop :=
  (descr.magic < cxxFrameMagicVC6 ∨ descr.magic > cxxFrameMagicVC8) ∨
  (descr.magic ≥ cxxFrameMagicVC8 ∧ descr.flags &&& funcDescrSynchronous ≠ 0 ∧
    v.record.code ≠ cxxException ∧ v.record.code ≠ statusUnwindConsolidate ∧ v.record.code ≠ statusLongjump)

instance (descr : FuncInfo) (v : Visit) : Decidable (v.Ignored descr) := by
  unfold Ignored
  infer_instance

def Searches (v : Visit) : Prop := v.record.flags &&& (exceptionUnwinding ||| exceptionExitUnwind) = 0

theorem call_ignored (h : v.Ignored descr) : v.call fuel descr t = .ok (.continueSearch, t) := by
  unfold call cxxFrameHandler3
  rcases h with h | h
  · exact if_pos h
  · dsimp only
    rw [if_pos h, ite_self]

def thrown (v : Visit) : ExceptionRecord :=
  if v.record.code = cxxException ∧ v.record.object = 0 ∧ v.record.excType.isNone then
    v.current.getD v.record else v.record

def search (descr : FuncInfo) (v : Visit) (t : Thread) : Outcome × Thread :=
  findCatchBlock t v.thrown v.frame v.dispatch descr
    (if v.thrown.code = cxxException then v.thrown.excType else none) (v.origin descr t.link)

theorem call_search (h : ¬ v.Ignored descr) (hs : v.Searches) (hne : descr.tryblock ≠ []) :
    v.call fuel descr t = match v.search descr t with
      | (.unwindEx target ip p, t') => .ok (.unwindEx target ip p, t')
      | (.continueSearch, t') =>
        if checkNoexcept v.thrown descr (v.origin descr t.link ≠ v.frame) then .trap
        else .ok (.continueSearch, t') := by
  obtain ⟨hmagic, hsync⟩ := not_or.mp h
  unfold Searches at hs
  unfold call cxxFrameHandler3
  dsimp only
  rw [if_neg hmagic, if_neg hsync, if_neg (not_not.mpr hs), if_neg hne]
  rfl

def words (s : ℤ) (w : ℤ × ℤ) : ℤ × ℤ := if s > w.2 then (s, s) else w

theorem search_continues (h : v.search descr t = (.continueSearch, t')) : t' =
    t.setWords (v.origin descr t.link) (words (v.state descr) (t.help (v.origin descr t.link))) := by
  unfold search findCatchBlock at h
  dsimp only at h
  split at h
  · cases h
    unfold words state setWords
    split_ifs <;> rfl
  · cases h

theorem search_over (hw : w.2 < v.state descr ∨ w = (v.state descr, v.state descr))
    (hlow : (t.help (v.origin descr t.link)).2 < v.state descr) :
    v.search descr (t.setWords (v.origin descr t.link) w) = v.search descr t := by
  have hlevel : (if v.state descr > w.2 then (v.state descr, (v.state descr, v.state descr)) else (w.2, w)) =
      (v.state descr, (v.state descr, v.state descr)) := by
    rcases hw with hw | rfl
    · exact if_pos hw
    · exact ite_self _
  unfold state at hlevel hlow
  simp only [search, findCatchBlock, setWords, update_self, update_idem, hlevel,
    if_pos hlow]

theorem call_no_try (h : ¬ v.Ignored descr) (hs : v.Searches) (hnil : descr.tryblock = []) :
    v.call fuel descr t = .trap ∨ v.call fuel descr t = .ok (.continueSearch, t) := by
  obtain ⟨hmagic, hsync⟩ := not_or.mp h
  unfold Searches at hs
  unfold call cxxFrameHandler3
  dsimp only
  rw [if_neg (not_not.mpr hs), if_pos hnil]
  split_ifs
  · exact .inl rfl
  · exact .inr rfl

def Recorded (descr : FuncInfo) (v : Visit) : Prop := ¬ v.Ignored descr ∧ descr.tryblock ≠ []

theorem call_continues (hs : v.Searches) (h : v.call fuel descr t = .ok (.continueSearch, t')) :
    t' = t ∨ v.Recorded descr ∧ t' =
      t.setWords (v.origin descr t.link) (words (v.state descr) (t.help (v.origin descr t.link))) := by
  by_cases hig : v.Ignored descr
  · rw [call_ignored hig] at h
    cases h
    exact .inl rfl
  by_cases hnil : descr.tryblock = []
  · rcases call_no_try hig hs hnil with hcall | hcall
    · cases hcall.symm.trans h
    · cases hcall.symm.trans h
      exact .inl rfl
  · rw [call_search hig hs hnil] at h
    refine .inr ⟨⟨hig, hnil⟩, ?_⟩
    split at h
    · cases h
    rename_i t₁ hsearch
    split_ifs at h
    cases h
    exact search_continues hsearch

end Visit

def replies (fuel : ℕ) (descr : FuncInfo) : Thread → List Act → List (Result Outcome) × List Event
  | t, [] => ([], t.log)
  | t, .resumed v :: es =>
    match v.call fuel descr t with
    | .ok (_, t') => replies fuel descr t' es
    | .trap => ([.trap], t.log)
    | .fuel => ([.fuel], t.log)
  | t, .call v :: es =>
    match v.call fuel descr t with
    | .ok (o, t') => ((.ok o :: (replies fuel descr t' es).1), (replies fuel descr t' es).2)
    | .trap => ([.trap], t.log)
    | .fuel => ([.fuel], t.log)
  | t, .caught p :: es => replies fuel descr (callCatchBlock t p).2 es

def Lives (fuel : ℕ) (descr : FuncInfo) (a : Addr) : Thread → List Act → Prop
  | _, [] => True
  | t, .resumed v :: es => v.Searches ∧ v.origin descr t.link = a ∧
    ∃ t', v.call fuel descr t = .ok (.continueSearch, t') ∧ Lives fuel descr a t' es
  | t, .call v :: es => v.origin descr t.link = a ∧
    ∀ o t', v.call fuel descr t = .ok (o, t') → Lives fuel descr a t' es
  | t, .caught p :: es => p.frame = a ∧ Lives fuel descr a (callCatchBlock t p).2 es

theorem Lives.call {o : Outcome} (ha : v.origin descr t.link = a)
    (hcall : v.call fuel descr t = .ok (o, t')) (h : Lives fuel descr a t' es) :
    Lives fuel descr a t (.call v :: es) := by
  refine ⟨ha, fun o' t₁ hcall' => ?_⟩
  cases hcall.symm.trans hcall'
  exact h

/-- Behind resumed exceptions (these, so far) that have come to a level, the next the handler is called
for is the search of an exception from that level or one above it, or a catch block ends first. -/
def OnTime (descr : FuncInfo) : List Visit → List Act → Prop
  | _, [] => True
  | rs, .resumed v :: es => OnTime descr (v :: rs) es
  | rs, .call v :: es =>
    if v.Ignored descr then OnTime descr rs es
    else (∀ r ∈ rs, r.Recorded descr → v.Searches ∧ r.state descr ≤ v.state descr) ∧ OnTime descr [] es
  | _, .caught _ :: es => OnTime descr [] es

def Traced (descr : FuncInfo) (a : Addr) (rs : List Visit) (t t' : Thread) : Prop :=
  t' = t ∨ ∃ r ∈ rs, r.Recorded descr ∧ (t.help a).2 < r.state descr ∧
    t' = t.setWords a (r.state descr, r.state descr)

section Traced

variable {rs : List Visit}

variable (h : Traced descr a rs t t')
include h

theorem Traced.log : t'.log = t.log := by
  rcases h with rfl | ⟨r, -, -, -, rfl⟩ <;> rfl

theorem Traced.link : t'.link = t.link := by
  rcases h with rfl | ⟨r, -, -, -, rfl⟩ <;> rfl

theorem Traced.caught {p : CatchParams} (hp : p.frame = a) : callCatchBlock t' p = callCatchBlock t p := by
  rcases h with rfl | ⟨r, -, -, -, rfl⟩
  · rfl
  · simp only [callCatchBlock, hp, setWords, update_idem]

theorem Traced.resumed (hs : v.Searches) (ha : v.origin descr t'.link = a)
    (hcall : v.call fuel descr t' = .ok (.continueSearch, t₁)) :
    Traced descr a (v :: rs) t t₁ := by
  have hold : Traced descr a (v :: rs) t t' := by
    rcases h with rfl | ⟨r, hr, h⟩
    · exact .inl rfl
    · exact .inr ⟨r, mem_cons_of_mem _ hr, h⟩
  rcases Visit.call_continues hs hcall with rfl | ⟨hrec, rfl⟩
  · exact hold
  rw [ha]
  by_cases habove : v.state descr > (t'.help a).2
  · rw [Visit.words, if_pos habove]
    refine .inr ⟨v, mem_cons_self, hrec, ?_, ?_⟩
    · rcases h with rfl | ⟨r, -, -, hr, rfl⟩
      · exact habove
      · rw [help_setWords] at habove
        exact hr.trans habove
    · rcases h with rfl | ⟨r, -, -, -, rfl⟩
      · rfl
      · exact setWords_setWords
  · rw [Visit.words, if_neg habove, setWords_self]
    exact hold

theorem Traced.call (hig : ¬ v.Ignored descr) (ha : v.origin descr t.link = a)
    (hrs : ∀ r ∈ rs, r.Recorded descr → v.Searches ∧ r.state descr ≤ v.state descr) :
    v.call fuel descr t' = v.call fuel descr t := by
  rcases h with rfl | ⟨r, hr, hrec, hlow, rfl⟩
  · rfl
  obtain ⟨hs, hle⟩ := hrs r hr hrec
  have hsearch : v.search descr (t.setWords a (r.state descr, r.state descr)) = v.search descr t := by
    subst ha
    apply Visit.search_over _ (hlow.trans_le hle)
    rcases hle.lt_or_eq with hlt | heq
    · exact .inl hlt
    · exact .inr (by rw [heq])
  rw [Visit.call_search hig hs hrec.2, Visit.call_search hig hs hrec.2, hsearch]
  rfl

theorem replies_traced (hl : Lives fuel descr a t' es)
    (ho : OnTime descr rs es) : replies fuel descr t' es = replies fuel descr t (es.filter Act.lasts) := by
  induction es generalizing rs t t' with
  | nil =>
    simp only [filter_nil, replies, h.log]
  | cons e es ih =>
    cases e with
    | resumed v =>
      obtain ⟨hs, ha, t₁, hcall, hl⟩ := hl
      rw [replies, hcall]
      exact ih (h.resumed hs ha hcall) hl ho
    | call v =>
      obtain ⟨ha, hl⟩ := hl
      rw [filter_cons_of_pos (by simp [Act.lasts]), replies, replies]
      unfold OnTime at ho
      by_cases hig : v.Ignored descr
      · rw [if_pos hig] at ho
        rw [Visit.call_ignored hig, Visit.call_ignored hig]
        dsimp only
        rw [ih h (hl _ _ (Visit.call_ignored hig)) ho]
      · rw [if_neg hig] at ho
        have hcall : v.call fuel descr t' = v.call fuel descr t := h.call hig (h.link ▸ ha) ho.1
        rw [hcall] at hl ⊢
        cases hres : v.call fuel descr t with
        | ok r =>
          obtain ⟨o, t₁⟩ := r
          dsimp only
          rw [ih (.inl rfl) (hl o t₁ hres) ho.2]
        | trap => simp only [h.log]
        | fuel => simp only [h.log]
    | caught p =>
      obtain ⟨hp, hl⟩ := hl
      rw [replies, h.caught hp]
      exact ih (.inl rfl) (h.caught hp ▸ hl) ho

end Traced

/-- As if the resumed exceptions had never been raised. -/
theorem resumed_leave_no_trace (fuel : ℕ) (descr : FuncInfo) (a : Addr) (t : Thread) (es : List Act)
    (hl : Lives fuel descr a t es) (ho : OnTime descr [] es) :
    replies fuel descr t es = replies fuel descr t (es.filter Act.lasts) :=
  replies_traced (.inl rfl) hl ho

namespace Probed

def string : TypeInfo := ⟨0x6000, ⟨[0x2e], by decide⟩⟩

def function : FuncInfo :=
  { Guarded.guarded with tryblock := [⟨0, 1, 2, [⟨0, some string, 0, 0x1300, 0⟩]⟩] }

theorem wellFormed : WellFormed function where
  magic := Guarded.wellFormed.magic
  prev := Guarded.wellFormed.prev
  sorted := Guarded.wellFormed.sorted
  states := Guarded.wellFormed.states
  nested := by simp [function]
  chain := by
    intro tb htb
    obtain rfl := mem_singleton.mp htb
    exact Guarded.wellFormed.chain ⟨0, 1, 2, [⟨0, none, 0, 0x1300, 0⟩]⟩ mem_cons_self

def atRest : Thread := ⟨fun _ => (-2, -1), fun _ _ => 0, [], fun _ _ => 0⟩

def visit (pc : ℕ) (record : ExceptionRecord) (params : Option CatchParams) : Visit :=
  ⟨0x7000, ⟨pc, 0x400000, 0x1000⟩, record, params, none⟩

def probe (pc : ℕ) : Visit := visit pc ⟨0xc0000005, 0, 0, none⟩ none

def raised : ExceptionRecord := ⟨cxxException, exceptionNoncontinuable, 0x5000, some ⟨0, [string]⟩⟩

def params : CatchParams := ⟨0x7000, 0, 0x1300, raised⟩

def thrown (pc : ℕ) : List Act :=
  [.call (visit pc raised none),
    .call (visit pc ⟨statusUnwindConsolidate, exceptionUnwinding ||| exceptionTargetUnwind, 0, none⟩ (some params)),
    .caught params]

theorem resumed_leaves_a_trace : WellFormed function ∧
    Lives 4 function 0x7000 atRest (.resumed (probe 0x401028) :: thrown 0x401018) ∧
    replies 4 function atRest (.resumed (probe 0x401028) :: thrown 0x401018) ≠
      replies 4 function atRest (thrown 0x401018) := by
  refine ⟨wellFormed, ⟨rfl, by decide, _, rfl, .call (by decide) rfl (.call (by decide) rfl ⟨rfl, trivial⟩)⟩, ?_⟩
  intro h
  have hlog := congrArg (fun r => r.2.length) h
  exact absurd hlog (by decide)

theorem onTime : OnTime function [] (.resumed (probe 0x401018) :: thrown 0x401028) := by
  constructor
  · intro r hr _
    rw [mem_singleton.mp hr]
    exact ⟨rfl, by decide⟩
  · exact ⟨by simp, trivial⟩

theorem resumed_leave_no_trace_behind :
    replies 4 function atRest (.resumed (probe 0x401018) :: thrown 0x401028) =
      replies 4 function atRest (thrown 0x401028) :=
  resumed_leave_no_trace 4 function 0x7000 atRest (.resumed (probe 0x401018) :: thrown 0x401028)
    ⟨rfl, by decide, _, rfl, .call (by decide) rfl (.call (by decide) rfl ⟨rfl, trivial⟩)⟩ onTime

end Probed

end WinePpc64.Cxx
