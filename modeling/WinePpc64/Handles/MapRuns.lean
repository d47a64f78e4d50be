import WinePpc64.Handles.Lifetimes

namespace WinePpc64.Handles

open Function Lib State Slots

/-- No assertion stops the server: a new handle is not granted bits that are kept for its flags, and a
process whose handles are to be inherited still has some. -/
def Granted (pol : Policy) (s : State) : Req → Prop
  | .openObject _ obj access _ => pol.map obj access &&& ~~~reservedAll ≠ 0 →
    ∀ granted, pol.check .default obj (pol.map obj access &&& ~~~reservedAll) = some granted →
      granted &&& reservedAll = 0
  | .start parent child inherit _ =>
    s.procs child = none → pol.alloc 3 = true → inherit ≠ .nothing → (s.procs parent).isSome
  | _ => True

def Served (pol : Policy) (s : State) (req : Req) : Prop := ReqOk pol s req ∧ Granted pol s req

variable {req : Req} {h : Handle} {p : ℕ} {pol : Policy} {s s' : State}

section Requests

variable {s : State} {pol : Policy}

theorem allocHandle_refines (hs : s.Good) {obj : ℕ} {access : Rights} {inherit : Bool}
    (hgranted : Granted pol s (.openObject p obj access inherit)) :
    ∃ res, allocHandle pol s p obj access inherit = .ok res ∧ res.1.Good ∧
      (res.1.slots, res.2) = openObject pol (s.Room pol) p s.slots obj access inherit := by
  rw [allocHandle, openObject]
  split
  · exact ⟨(s, 0), rfl, hs, rfl⟩
  next hne =>
    cases hcheck : pol.check .default obj (pol.map obj access &&& ~~~reservedAll) with
    | none => exact ⟨(s, 0), rfl, hs, rfl⟩
    | some granted =>
      obtain ⟨res, heq, hplaced⟩ := allocHandleEntry_refines _ _ _ _ hs (hgranted hne granted hcheck)
      exact ⟨res, heq, hplaced.good, hplaced.eq⟩

theorem start_refines (hs : s.Good) {parent child : ℕ} {inherit : Inherit} {std : List Handle}
    (hok : Served pol s (.start parent child inherit std)) (hchild : s.procs child = none) (halloc : pol.alloc 3 = true) :
    ∃ s' table, newHandleTable pol s parent inherit std = .ok (s', table) ∧ (s'.set (.proc child) table).Good ∧
      (s'.set (.proc child) table).slots = start s.slots parent child inherit std := by
  obtain ⟨s', table, heq, hsame, htok, hcounted, hiff⟩ := newHandleTable_refines hs hchild
    (hok.2 hchild halloc) (hok.1 hchild halloc)
  refine ⟨s', table, heq, ⟨(hs.ok.of_table hsame).set htok, hcounted⟩, ?_⟩
  funext x
  obtain ⟨r, i⟩ := x
  rw [start]
  split
  next hr =>
    obtain rfl := hr
    rw [slots_set_same]
    apply Option.ext
    intro e
    rw [hiff]
    split
    next hasks => rw [Option.filter_eq_some_iff, and_iff_right hasks]
    next hasks => exact iff_of_false (fun h => hasks h.1) (by simp)
  next hr => rw [slots_set_other hr, slots_congr hsame]

/-- A function that does its operation on the map does so as a request, with the reply made of its result. -/
theorem replied {α : Type} {code : Except Fault (State × α)} {res : State × α} {spec : Slots × α} (f : α → Reply)
    (heq : code = .ok res) (hslots : (res.1.slots, res.2) = spec) :
    code.map (fun r => (r.1, f r.2)) = .ok (res.1, f res.2) ∧ (res.1.slots, f res.2) = spec.map id f := by
  rw [heq, ← hslots]
  exact ⟨rfl, rfl⟩

theorem answer_refines (hs : s.Good) (hok : Served pol s req) :
    ∃ s' reply, answer pol s req = .ok (s', reply) ∧ s'.Good ∧ (s'.slots, reply) = s.serve pol req := by
  cases req with
  | dup src dst h access inherit o =>
    cases src with
    | none => exact ⟨s, _, rfl, hs, rfl⟩
    | some p =>
      obtain ⟨res, heq, hgood, hslots⟩ := dupHandle_refines hs inherit (hok.1 p rfl)
      obtain ⟨hanswer, hserve⟩ := replied .handle heq hslots
      exact ⟨res.1, _, hanswer, hgood, hserve⟩
  | close p h =>
    obtain ⟨s', st, heq, hgood, hslots⟩ := closeHandle_refines hs hok.1
    obtain ⟨hanswer, hserve⟩ := replied .status heq hslots
    exact ⟨s', _, hanswer, hgood, hserve⟩
  | setInfo p h mask flags =>
    obtain ⟨s', old, heq, hgood, hslots⟩ := setHandleFlags_refines hs
    obtain ⟨hanswer, hserve⟩ := replied .flags heq hslots
    exact ⟨s', _, hanswer, hgood, hserve⟩
  | start parent child inherit std =>
    rw [answer, serve]
    split
    · exact ⟨s, _, rfl, hs, rfl⟩
    next hnew =>
      push Not at hnew
      obtain ⟨s', table, heq, hgood, hslots⟩ := start_refines hs hok (by simpa using hnew.1) (by simpa using hnew.2)
      rw [heq]
      exact ⟨_, _, rfl, hgood, Prod.ext hslots rfl⟩
  | openObject p obj access inherit =>
    obtain ⟨res, heq, hgood, hslots⟩ := allocHandle_refines hs hok.2
    obtain ⟨hanswer, hserve⟩ := replied .handle heq hslots
    exact ⟨res.1, _, hanswer, hgood, hserve⟩
  | newHandle p obj access inherit =>
    obtain ⟨res, heq, hplaced⟩ := allocHandleNoAccessCheck_refines pol inherit obj p access hs
    obtain ⟨hanswer, hserve⟩ := replied .handle heq hplaced.eq
    exact ⟨res.1, _, hanswer, hplaced.good, hserve⟩
  | exit p =>
    obtain ⟨s', heq, hgood, hslots⟩ := closeProcessHandles_refines (p := p) hs
    refine ⟨s', .closed, ?_, hgood, Prod.ext hslots rfl⟩
    rw [answer, heq]
    rfl

theorem answer_faults (hs : s.Good) (hok : ¬ ReqOk pol s req) :
    answer pol s req = .error .nullProcess ∨ answer pol s req = .error .outOfBounds := by
  cases req with
  | dup src dst srcHandle access inherit o =>
    simp only [ReqOk, not_forall] at hok
    obtain ⟨p, rfl, hdup⟩ := hok
    exact (dupHandle_faults hs hdup).imp (congrArg (Except.map _)) (congrArg (Except.map _))
  | close p h =>
    right
    rw [answer, closeHandle_global hs.ok (not_not.mp hok)]
    rfl
  | start parent child inherit std =>
    right
    simp only [ReqOk, not_forall, not_not] at hok
    obtain ⟨hchild, halloc, handles, rfl, hp, h, hmem, hig⟩ := hok
    rw [answer, if_neg (by simp [hchild, halloc]), newHandleTable_faults hs.ok hp ⟨h, hmem, hig⟩]
    rfl
  | setInfo | openObject | newHandle | exit => exact absurd trivial hok

theorem answer_asserts (hno : ¬ Granted pol s req) : answer pol s req = .error .assertion := by
  cases req with
  | openObject p obj access inherit =>
    simp only [Granted, not_forall] at hno
    obtain ⟨hne, granted, hcheck, hres⟩ := hno
    rw [answer, allocHandle, if_neg hne, hcheck]
    dsimp only
    rw [allocHandleEntry, if_pos hres]
    rfl
  | start parent child inherit std =>
    simp only [Granted, not_forall, Option.not_isSome_iff_eq_none] at hno
    obtain ⟨hchild, halloc, hinherit, hnone⟩ := hno
    rw [answer, if_neg (by simp [hchild, halloc])]
    cases inherit with
    | nothing => exact absurd rfl hinherit
    | all | list handles =>
      rw [newHandleTable, hnone]
      rfl
  | dup | close | setInfo | newHandle | exit => exact absurd trivial hno

theorem served_of_answer (hs : s.Good) {reply : Reply} (heq : answer pol s req = .ok (s', reply)) : Served pol s req := by
  constructor
  · by_contra hno
    rcases answer_faults hs hno with hf | hf <;> rw [hf] at heq <;> cases heq
  · by_contra hno
    rw [answer_asserts hno] at heq
    cases heq

end Requests

theorem step_iff {l : Policy × Req} : step s l = some s' ↔ ∃ reply, answer l.1 s l.2 = .ok (s', reply) := by
  rw [step, handle]
  cases answer l.1 s l.2 with
  | error f => simp [Except.map, Except.toOption]
  | ok r =>
    obtain ⟨u, reply⟩ := r
    simp [Except.map, Except.toOption]

theorem good_of_reaches (hr : Reaches step (fun s l => Served l.1 s l.2) State.init s) : s.Good := by
  apply hr.invariant (P := State.Good) init_good
  intro u l v hok hstep hu
  obtain ⟨s', reply, heq, hgood, -⟩ := answer_refines hu hok
  obtain ⟨reply', heq'⟩ := step_iff.mp hstep
  cases heq.symm.trans heq'
  exact hgood

/-- In every run of requests that are served, the tables are a finite map. -/
theorem handle_tables_refine_map_iff (s : State)
    (hr : Reaches step (fun s l => Served l.1 s l.2) State.init s) :
    (∀ r t, s.table r = some t → (∀ i < t.free, t.lookup i ≠ none) ∧ t.used ≤ t.count ∧
      (∀ i, t.used = i + 1 → t.lookup i ≠ none) ∧
      ∀ obj access realloc, ∃ t' h, allocEntry t obj access realloc = .ok (t', h) ∧
        ((¬t.HasRoom realloc ∧ h = 0 ∧ t' = t) ∨
          (t.HasRoom realloc ∧ ∃ i, h = indexToHandle i ∧ IsLeast {j | t.lookup j = none} i ∧
            t'.lookup = update t.lookup i (some ⟨obj, access⟩)))) ∧
    (∀ t realloc, t.used ≤ t.count → ∃ t', shrinkHandleTable t realloc = .ok t' ∧ t'.lookup = t.lookup ∧
      t'.used ≤ t'.count) ∧
    (∀ obj, {x | (s.slots x).map Entry.obj = some obj}.encard = s.handleCount obj) ∧
    ∀ pol req, (∃ s' reply, answer pol s req = .ok (s', reply) ∧ (s'.slots, reply) = s.serve pol req ∧
      Kept req s.slots s'.slots) ↔ Served pol s req := by
  have hgood := good_of_reaches hr
  refine ⟨fun r t ht => ?_, fun t realloc ht => shrinkHandleTable_lookup ht, hgood.counted,
    fun pol req => ⟨?_, fun hok => ?_⟩⟩
  · have hok := hgood.ok r t ht
    have hused := hok.used_le
    have hfree := hok.free_le
    refine ⟨fun i hi => ?_, hused, fun i hi => ?_, fun obj access realloc => ?_⟩
    · rw [Table.lookup_of_lt hused (by omega)]
      exact hok.below i hi
    · rw [Table.lookup_of_lt hused (by omega)]
      exact hok.top i hi
    obtain ⟨t', h, heq, hok', hres⟩ := allocEntry_eq hok
    refine ⟨t', h, heq, ?_⟩
    rcases hres with hfull | ⟨hroom, -, i, hfirst, hmax, hi, hentries⟩
    · exact .inl hfull
    · exact .inr ⟨hroom, i, hi, hfirst.isLeast hused, lookup_alloc hused hok'.used_le hfirst hmax hentries⟩
  · rintro ⟨s', reply, heq, -⟩
    exact served_of_answer hgood heq
  · obtain ⟨s', reply, heq, -, href⟩ := answer_refines hgood hok
    have hslots : s'.slots = _ := congrArg Prod.fst href
    exact ⟨s', reply, heq, href, hslots ▸ serve_kept exists_free⟩

theorem reaches_served (h : Reaches step Free State.init s) :
    Reaches step (fun s l => Served l.1 s l.2) State.init s := by
  induction h with
  | refl => exact .refl
  | tail _ _ hstep ih =>
    obtain ⟨reply, heq⟩ := step_iff.mp hstep
    exact ih.tail (served_of_answer (good_of_reaches ih) heq) hstep

namespace OneObject

def policy : Policy := ⟨fun _ => none, fun _ a => a, fun _ _ a => some a, false, fun _ _ _ => true, fun _ => true⟩

def plain : Options := ⟨false, true, false, true⟩

def opened : List (Policy × Req) :=
  [(policy, .start 0 1 .nothing []), (policy, .openObject 1 7 3 false),
    (policy, .dup (some 1) (some 1) 4 0 false plain), (policy, .start 1 2 .nothing []), (policy, .exit 2)]

theorem served_not_always : ((Lib.run step State.init opened).map fun s =>
    [(policy, Req.close 1 0x544a4deb), (policy, .start 2 3 .all []),
      ({ policy with check := fun _ _ a => some (a ||| 0x04000000) }, .openObject 1 8 3 false)].map fun l =>
        match handle l.1 s l.2 with
        | .ok _ => none
        | .error f => some f) =
    some [some .outOfBounds, some .assertion, some .assertion] := by
  decide +kernel

theorem handle_tables_refine_map_iff_opened : ∃ s s', Lib.run step State.init opened = some s ∧
    {x | (s.slots x).map Entry.obj = some 7}.encard = 2 ∧ s.slots (.proc 1, 0) = some ⟨7, 3⟩ ∧
    answer policy s (.close 1 4) = .ok (s', .status .success) ∧ s'.slots = update s.slots (.proc 1, 0) none := by
  have hrun : (Lib.run step init opened).map (fun s => (s.handleCount 7, s.slots (.proc 1, 0))) =
      some (2, some ⟨7, 3⟩) := by decide +kernel
  obtain ⟨s, hs, heq⟩ := Option.map_eq_some_iff.mp hrun
  obtain ⟨htwo, hslot⟩ := Prod.mk.inj heq
  obtain ⟨-, -, hcount, hserved⟩ := handle_tables_refine_map_iff s (reaches_served (reaches_of_run hs))
  obtain ⟨s', reply, hanswer, hserve, -⟩ := (hserved policy (.close 1 4)).mpr ⟨fun hc => absurd hc.1 (by decide), trivial⟩
  have hkey : key 1 4 = (.proc 1, 0) := by decide
  have hentry : entryAt s.slots 1 4 = some ⟨7, 3⟩ := by rw [entryAt, if_neg (by decide), hkey, hslot]
  have hclosed : s.serve policy (.close 1 4) = (update s.slots (.proc 1, 0) none, .status .success) := by
    rw [State.serve, Slots.close, hentry, hkey]
    rfl
  obtain ⟨hslots, rfl⟩ := Prod.mk.inj (hserve.trans hclosed)
  refine ⟨s, s', hs, ?_, hslot, hanswer, hslots⟩
  rw [hcount 7, htwo]
  rfl

end OneObject

end WinePpc64.Handles
