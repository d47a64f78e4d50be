import WinePpc64.Handles.Slots

namespace WinePpc64.Handles

open Function Lib State

/-! The requests as operations on a finite map, with their replies. -/

def key (p : ℕ) (h : Handle) : Ref × ℕ := (refOf p h, (decode h).toNat)

def entryAt (m : Slots) (p : ℕ) (h : Handle) : Option Entry := if decode h < 0 then none else m (key p h)

def found (m : Slots) (p : ℕ) (h : Handle) : Option (ℤ × Entry) := (entryAt m p h).map fun e => (decode h, e)

def handleIn : Ref → ℕ → Handle
  | .glob, i => handleLocalToGlobal (indexToHandle i)
  | .proc _, i => indexToHandle i

noncomputable def lowest (m : Slots) (r : Ref) : ℕ := sInf {i | m (r, i) = none}

def withInherit (inherit : Bool) (access : Rights) : Rights := if inherit then access ||| reservedInherit else access

/-- The access of a handle for which no access check is made. -/
def fullAccess (pol : Policy) (obj : ℕ) (access : Rights) : Rights :=
  pol.map obj (if access &&& maximumAllowed ≠ 0 then genericAll else access) &&& ~~~reservedAll

def reflag (access mask flags : Rights) : Rights :=
  (access &&& ~~~((mask <<< reservedShift) &&& reservedAll)) |||
    ((flags <<< reservedShift) &&& ((mask <<< reservedShift) &&& reservedAll))

def attributes (o : Options) (inherit : Bool) (source access : Rights) : Rights :=
  if o.sameAttributes then access ||| (source &&& reservedAll) else withInherit inherit access

/-- The table a duplicate goes to, and its access. -/
def destination (pol : Policy) (entry : Option (ℤ × Entry)) (dst : Option ℕ) (obj : ℕ) (access : Rights)
    (inherit : Bool) (o : Options) : Option (Ref × Rights) :=
  if o.makeGlobal then
    if asksMore pol entry obj access o then none else some (.glob, askedAccess pol entry obj access o)
  else dst.bind fun d =>
    (if asksMore pol entry obj access o then
        ((checkCurrent pol obj (askedAccess pol entry obj access o)).bind (pol.check (.process d) obj)).map
          (fullAccess pol obj)
      else some (askedAccess pol entry obj access o)).map fun access =>
        (.proc d, attributes o inherit (sourceAccess pol entry obj) access)

/-- A process that closes the source of a duplicate of its own keeps the handle. -/
def InPlace (pol : Policy) (m : Slots) (p : ℕ) (dst : Option ℕ) (h : Handle) (access : Rights) (o : Options) : Prop :=
  o.makeGlobal = false ∧ o.closeSource = true ∧ dst = some p ∧ ∃ e, entryAt m p h = some e ∧ isProtected e = false ∧
    asksMore pol (found m p h) e.obj access o = false

def Inherit.Asks (inherit : Inherit) (std : List Handle) (i : ℕ) : Prop :=
  match inherit with
  | .nothing => False
  | .all => True
  | .list handles => ∃ h ∈ handles ++ std, handleToIndex h = i

namespace Slots

variable (pol : Policy) (room : Ref → Prop) (p : ℕ) (h : Handle) (m : Slots)

def close : Slots × Status :=
  match entryAt m p h with
  | none => (m, .invalidHandle)
  | some e =>
    if isProtected e = true ∨ pol.close e.obj p h = false then (m, .notClosable)
    else (update m (key p h) none, .success)

def setFlags (mask flags : Rights) : Slots × Option Rights :=
  if (getMagicHandle pol h).isSome then (m, some 0)
  else match entryAt m p h with
    | none => (m, none)
    | some e =>
      (update m (key p h) (some { e with access := reflag e.access mask flags }),
        some ((e.access &&& reservedAll) >>> reservedShift))

open Classical in
noncomputable def alloc (r : Ref) (e : Entry) : Slots × Handle :=
  if room r then (update m (r, lowest m r) (some e), handleIn r (lowest m r)) else (m, 0)

open Classical in
noncomputable def duplicate (dst : Option ℕ) (access : Rights) (inherit : Bool) (o : Options) : Slots × Handle :=
  match sourceObj pol (found m p h) h with
  | none => (m, 0)
  | some obj =>
    if InPlace pol m p dst h access o then
      (update m (key p h) (some ⟨obj, attributes o inherit (sourceAccess pol (found m p h) obj)
        (askedAccess pol (found m p h) obj access o)⟩), h)
    else match destination pol (found m p h) dst obj access inherit o with
      | none => (m, 0)
      | some (r, access) => alloc room m r ⟨obj, access⟩

noncomputable def dup (dst : Option ℕ) (access : Rights) (inherit : Bool) (o : Options) : Slots × Handle :=
  let r := duplicate pol room p h m dst access inherit o
  (if o.closeSource = true ∧ ((if o.makeGlobal then none else dst) ≠ some p ∨ h ≠ r.2) then (close pol p h r.1).1
    else r.1, r.2)

open Classical in
noncomputable def start (parent child : ℕ) (inherit : Inherit) (std : List Handle) : Slots := fun x =>
  if x.1 = .proc child then
    if inherit.Asks std x.2 then (m (.proc parent, x.2)).filter isInheritable else none
  else m x

noncomputable def openObject (obj : ℕ) (access : Rights) (inherit : Bool) : Slots × Handle :=
  if pol.map obj access &&& ~~~reservedAll = 0 then (m, 0)
  else match pol.check .default obj (pol.map obj access &&& ~~~reservedAll) with
    | none => (m, 0)
    | some access => alloc room m (.proc p) ⟨obj, withInherit inherit access⟩

noncomputable def exit : Slots := fun x => if x.1 = .proc p then none else m x

end Slots

open Slots

/-- What a request is for: of the state it reads the map, which processes there are and which tables have
room. -/
noncomputable def State.serve (pol : Policy) (s : State) : Req → Slots × Reply
  | .dup none _ _ _ _ _ => (s.slots, .handle 0)
  | .dup (some p) dst h access inherit o =>
    (dup pol (s.Room pol) p h s.slots dst access inherit o).map id .handle
  | .close p h => (close pol p h s.slots).map id .status
  | .setInfo p h mask flags => (setFlags pol p h s.slots mask flags).map id .flags
  | .start parent child inherit std =>
    if (s.procs child).isSome ∨ pol.alloc 3 = false then (s.slots, .created false)
    else (start s.slots parent child inherit std, .created true)
  | .openObject p obj access inherit => (openObject pol (s.Room pol) p s.slots obj access inherit).map id .handle
  | .newHandle p obj access inherit =>
    (alloc (s.Room pol) s.slots (.proc p) ⟨obj, withInherit inherit (fullAccess pol obj access)⟩).map id .handle
  | .exit p => (exit p s.slots, .closed)

/-- The handles a request may end. -/
def Ends (req : Req) (x : Ref × ℕ) : Prop :=
  match req with
  | .dup (some p) _ h _ _ o => o.closeSource = true ∧ x.1 = refOf p h ∧ decode h = x.2
  | .close p h => x.1 = refOf p h ∧ decode h = x.2
  | .exit p => x.1 = .proc p
  | _ => False

def Kept (req : Req) (m m' : Slots) : Prop :=
  ∀ x e, m x = some e → ¬ Ends req x → ∃ e', m' x = some e' ∧ e'.obj = e.obj ∧
    e'.access &&& ~~~reservedAll = e.access &&& ~~~reservedAll

section Kept

variable {pol : Policy} {room : Ref → Prop} {p : ℕ} {h : Handle} {m : Slots} {x : Ref × ℕ} {e e' : Entry} {r : Ref}
  {dst : Option ℕ} {access : Rights} {inherit : Bool} {o : Options}

theorem entryAt_some (he : entryAt m p h = some e) : 0 ≤ decode h ∧ m (key p h) = some e := by
  rw [entryAt] at he
  split at he
  · cases he
  next hneg => exact ⟨not_lt.mp hneg, he⟩

theorem update_key (he : entryAt m p h = some e') (hne : ¬(x.1 = refOf p h ∧ decode h = x.2)) {v : Option Entry} :
    update m (key p h) v x = m x := by
  have hneg := (entryAt_some he).1
  apply update_of_ne
  rintro rfl
  refine hne ⟨rfl, ?_⟩
  rw [key, Int.toNat_of_nonneg hneg]

theorem lowest_free (hfree : ∃ i, m (r, i) = none) : m (r, lowest m r) = none :=
  Nat.sInf_mem (s := {i | m (r, i) = none}) hfree

theorem alloc_kept (hfree : ∃ i, m (r, i) = none) (hx : m x = some e) : (alloc room m r e').1 x = some e := by
  rw [alloc]
  split
  · rw [← hx]
    apply update_of_ne
    rintro rfl
    cases (lowest_free hfree).symm.trans hx
  · exact hx

theorem close_kept (hx : m x = some e) (hne : ¬(x.1 = refOf p h ∧ decode h = x.2)) : (close pol p h m).1 x = some e := by
  rw [close]
  split
  · exact hx
  next he =>
    split
    · exact hx
    · exact (update_key he hne).trans hx

theorem duplicate_kept (hfree : ∀ r, ∃ i, m (r, i) = none) (hx : m x = some e)
    (hne : ¬(o.closeSource = true ∧ x.1 = refOf p h ∧ decode h = x.2)) :
    (duplicate pol room p h m dst access inherit o).1 x = some e := by
  rw [duplicate]
  split
  · exact hx
  split
  next hin =>
    obtain ⟨-, hclose, -, e', he', -⟩ := hin
    exact (update_key he' fun hn => hne ⟨hclose, hn⟩).trans hx
  · split
    · exact hx
    · exact alloc_kept (hfree _) hx

theorem dup_kept (hfree : ∀ r, ∃ i, m (r, i) = none) (hx : m x = some e)
    (hne : ¬(o.closeSource = true ∧ x.1 = refOf p h ∧ decode h = x.2)) :
    (dup pol room p h m dst access inherit o).1 x = some e := by
  have hx' : (duplicate pol room p h m dst access inherit o).1 x = some e := duplicate_kept hfree hx hne
  rw [dup]
  dsimp only
  by_cases hclose : o.closeSource = true
  · rw [ite_apply, close_kept hx' fun hn => hne ⟨hclose, hn⟩, hx', ite_self]
  · rw [if_neg fun h => hclose h.1]
    exact hx'

theorem openObject_kept (hfree : ∀ r, ∃ i, m (r, i) = none) {obj : ℕ} (hx : m x = some e) :
    (openObject pol room p m obj access inherit).1 x = some e := by
  rw [openObject]
  split
  · exact hx
  split
  · exact hx
  · exact alloc_kept (hfree _) hx

theorem reflag_and_not {mask flags : Rights} :
    reflag access mask flags &&& ~~~reservedAll = access &&& ~~~reservedAll := by
  rw [reflag]
  generalize mask <<< reservedShift = mask, flags <<< reservedShift = flags, reservedAll = r
  apply BitVec.eq_of_getLsbD_eq
  intro i hi
  simp only [BitVec.getLsbD_and, BitVec.getLsbD_or, BitVec.getLsbD_not, hi, decide_true, Bool.true_and]
  cases access.getLsbD i <;> cases mask.getLsbD i <;> cases flags.getLsbD i <;> cases r.getLsbD i <;> rfl

theorem setFlags_kept {mask flags : Rights} (hx : m x = some e) : ∃ e', (setFlags pol p h m mask flags).1 x = some e' ∧
    e'.obj = e.obj ∧ e'.access &&& ~~~reservedAll = e.access &&& ~~~reservedAll := by
  rw [setFlags]
  split
  · exact ⟨e, hx, rfl, rfl⟩
  split
  · exact ⟨e, hx, rfl, rfl⟩
  next e' he' =>
    by_cases hat : x.1 = refOf p h ∧ decode h = x.2
    · have hkey : key p h = x := by
        rw [key, hat.2, Int.toNat_natCast, ← hat.1]
      have heq := (entryAt_some he').2
      rw [hkey, hx] at heq
      cases heq
      rw [hkey]
      exact ⟨_, update_self _ _ _, rfl, reflag_and_not⟩
    · exact ⟨e, (update_key he' hat).trans hx, rfl, rfl⟩

theorem State.serve_kept {s : State} (hfree : ∀ r, ∃ i, s.slots (r, i) = none) {req : Req} :
    Kept req s.slots (s.serve pol req).1 := by
  intro x e hx hends
  have hsame {m' : Slots} (heq : m' x = some e) : ∃ e', m' x = some e' ∧ e'.obj = e.obj ∧
      e'.access &&& ~~~reservedAll = e.access &&& ~~~reservedAll := ⟨e, heq, rfl, rfl⟩
  cases req with
  | dup src dst h access inherit o =>
    cases src with
    | none => exact hsame hx
    | some p => exact hsame (dup_kept hfree hx hends)
  | close p h => exact hsame (close_kept hx hends)
  | setInfo p h mask flags => exact setFlags_kept hx
  | start parent child inherit std =>
    rw [serve]
    split
    · exact hsame hx
    next hnew =>
      refine hsame ((if_neg fun hchild : x.1 = .proc child => ?_).trans hx)
      rw [not_or, Option.not_isSome_iff_eq_none] at hnew
      have hnone : s.table x.1 = none := by
        rw [hchild]
        exact hnew.1
      rw [slots, hnone] at hx
      cases hx
  | openObject p obj access inherit => exact hsame (openObject_kept hfree hx)
  | newHandle p obj access inherit => exact hsame (alloc_kept (hfree _) hx)
  | exit p => exact hsame ((if_neg hends).trans hx)

end Kept

end WinePpc64.Handles
