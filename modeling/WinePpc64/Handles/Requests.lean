import WinePpc64.Handles.Table
import WinePpc64.Lib.Runs

namespace WinePpc64.Handles

open Function Lib

structure State where
  procs : ℕ → Option Table
  global : Option Table
  handleCount : ℕ → ℕ

def State.init : State := ⟨fun _ => none, none, fun _ => 0⟩

def State.grab (s : State) (obj : ℕ) : State :=
  { s with handleCount := update s.handleCount obj (s.handleCount obj + 1) }

def State.release (s : State) (obj : ℕ) : Except Fault State :=
  if s.handleCount obj = 0 then .error .assertion
  else .ok { s with handleCount := update s.handleCount obj (s.handleCount obj - 1) }

inductive Token
  | current
  | process (p : ℕ)
  | default
  deriving DecidableEq, Repr

/-- What a request finds outside the tables: the objects behind pseudo-handles, the mapping of generic
rights, access checks, if `current->token` is set, what an object's `close_handle` says, and which
allocations succeed. -/
structure Policy where
  magic : Handle → Option ℕ
  map : ℕ → Rights → Rights
  check : Token → ℕ → Rights → Option Rights
  impersonating : Bool
  close : ℕ → ℕ → Handle → Bool
  alloc : ℕ → Bool

def genericAll : Rights := 0x10000000

def maximumAllowed : Rights := 0x02000000

def getMagicHandle (pol : Policy) (handle : Handle) : Option ℕ :=
  if handle ∈ ([0xfffffffa, 0xfffffffb, 0xfffffffc, 0xfffffffe, 0x7fffffff, 0xffffffff] : List Handle) then
    pol.magic handle
  else none

inductive Ref
  | glob
  | proc (p : ℕ)
  deriving DecidableEq, Repr

def State.table (s : State) : Ref → Option Table
  | .glob => s.global
  | .proc p => s.procs p

def State.set (s : State) (r : Ref) (t : Table) : State :=
  match r with
  | .glob => { s with global := some t }
  | .proc p => { s with procs := update s.procs p (some t) }

def allocIn (s : State) (r : Ref) (t : Table) (obj : ℕ) (access : Rights) (realloc : Bool) :
    Except Fault (State × Handle) :=
  (allocEntry t obj access realloc).map fun res =>
    (if res.2 = 0 then s.set r res.1 else (s.set r res.1).grab obj, res.2)

def refOf (p : ℕ) (handle : Handle) : Ref := if handleIsGlobal handle then .glob else .proc p

def decode (handle : Handle) : ℤ :=
  handleToIndex (if handleIsGlobal handle then handleGlobalToLocal handle else handle)

def getHandle (s : State) (process : Option ℕ) (handle : Handle) : Except Fault (Option (ℤ × Entry)) :=
  match process with
  | none => .error .nullProcess
  | some p =>
    match s.table (refOf p handle) with
    | none => .ok none
    | some t =>
      if decode handle < 0 ∨ (t.used : ℤ) ≤ decode handle then .ok none
      else (t.read (decode handle)).map fun e => e.map fun e => (decode handle, e)

def setAccess (s : State) (p : ℕ) (handle : Handle) (i : ℤ) (e : Entry) (access : Rights) :
    Except Fault State :=
  match s.table (refOf p handle) with
  | none => .ok s
  | some t => (t.write i (some { e with access := access })).map fun t => s.set (refOf p handle) t

inductive Status
  | success
  | invalidHandle
  | notClosable
  deriving DecidableEq, Repr

def isProtected (e : Entry) : Bool := decide (e.access &&& reservedCloseProtect ≠ 0)

def isInheritable (e : Entry) : Bool := decide (e.access &&& reservedInherit ≠ 0)

def closeHandle (pol : Policy) (s : State) (p : ℕ) (handle : Handle) : Except Fault (State × Status) :=
  (getHandle s (some p) handle).bind fun
    | none => .ok (s, .invalidHandle)
    | some (_, e) =>
      if isProtected e then .ok (s, .notClosable)
      else if !pol.close e.obj p handle then .ok (s, .notClosable)
      else match s.table (refOf p handle) with
        | none => .ok (s, .invalidHandle)
        | some t =>
          (clearEntry t (handleToIndex handle) (pol.alloc 1)).bind fun t =>
            ((s.set (refOf p handle) t).release e.obj).map fun s => (s, .success)

def setHandleFlags (pol : Policy) (s : State) (process : Option ℕ) (handle : Handle)
    (mask flags : Rights) : Except Fault (State × Option Rights) :=
  if (getMagicHandle pol handle).isSome then .ok (s, some 0)
  else match process with
    | none => .error .nullProcess
    | some p =>
      (getHandle s (some p) handle).bind fun
        | none => .ok (s, none)
        | some (i, e) =>
          let mask := (mask <<< reservedShift) &&& reservedAll
          let flags := (flags <<< reservedShift) &&& mask
          (setAccess s p handle i e ((e.access &&& ~~~mask) ||| flags)).map fun s =>
            (s, some ((e.access &&& reservedAll) >>> reservedShift))

def allocHandleEntry (pol : Policy) (s : State) (process : Option ℕ) (obj : ℕ) (access : Rights)
    (inherit : Bool) : Except Fault (State × Handle) :=
  match process with
  | none => .error .nullProcess
  | some p =>
    if access &&& reservedAll ≠ 0 then .error .assertion
    else match s.procs p with
      | none => .ok (s, 0)
      | some t =>
        allocIn s (.proc p) t obj (if inherit then access ||| reservedInherit else access) (pol.alloc 0)

def allocHandleNoAccessCheck (pol : Policy) (s : State) (process : Option ℕ) (obj : ℕ) (access : Rights)
    (inherit : Bool) : Except Fault (State × Handle) :=
  let access := if access &&& maximumAllowed ≠ 0 then genericAll else access
  allocHandleEntry pol s process obj (pol.map obj access &&& ~~~reservedAll) inherit

def allocHandle (pol : Policy) (s : State) (p : ℕ) (obj : ℕ) (access : Rights) (inherit : Bool) :
    Except Fault (State × Handle) :=
  if pol.map obj access &&& ~~~reservedAll = 0 then .ok (s, 0)
  else match pol.check .default obj (pol.map obj access &&& ~~~reservedAll) with
    | none => .ok (s, 0)
    | some access => allocHandleEntry pol s (some p) obj access inherit

def allocGlobalHandleNoAccessCheck (pol : Policy) (s : State) (obj : ℕ) (access : Rights) :
    Except Fault (State × Handle) :=
  match s.global with
  | none =>
    if pol.alloc 2 then
      (allocIn s .glob (allocHandleTable 0) obj access (pol.alloc 0)).map fun r =>
        (r.1, handleLocalToGlobal r.2)
    else .ok (s, 0)
  | some t => (allocIn s .glob t obj access (pol.alloc 0)).map fun r => (r.1, handleLocalToGlobal r.2)

def allocGlobalHandle (pol : Policy) (s : State) (obj : ℕ) (access : Rights) :
    Except Fault (State × Handle) :=
  if access = 0 then allocGlobalHandleNoAccessCheck pol s obj access
  else match pol.check .default obj access with
    | none => .ok (s, 0)
    | some access => allocGlobalHandleNoAccessCheck pol s obj access

structure Options where
  closeSource : Bool
  sameAccess : Bool
  sameAttributes : Bool
  makeGlobal : Bool
  deriving DecidableEq, Repr

def sourceObj (pol : Policy) (entry : Option (ℤ × Entry)) (handle : Handle) : Option ℕ :=
  match getMagicHandle pol handle with
  | some obj => some obj
  | none => entry.map fun e => e.2.obj

def sourceAccess (pol : Policy) (entry : Option (ℤ × Entry)) (obj : ℕ) : Rights :=
  match entry with
  | some (_, e) => e.access
  | none => pol.map obj genericAll

def askedAccess (pol : Policy) (entry : Option (ℤ × Entry)) (obj : ℕ) (access : Rights) (o : Options) :
    Rights :=
  if o.sameAccess then sourceAccess pol entry obj &&& ~~~reservedAll
  else pol.map obj access &&& ~~~reservedAll

def asksMore (pol : Policy) (entry : Option (ℤ × Entry)) (obj : ℕ) (access : Rights) (o : Options) : Bool :=
  decide (askedAccess pol entry obj access o &&& ~~~(sourceAccess pol entry obj &&& ~~~reservedAll) ≠ 0)

def checkCurrent (pol : Policy) (obj : ℕ) (access : Rights) : Option Rights :=
  if pol.impersonating then pol.check .current obj access else some access

def duplicateMore (pol : Policy) (s : State) (dst : Option ℕ) (obj : ℕ) (access : Rights) (inherit : Bool)
    (o : Options) : Except Fault (State × Handle) :=
  match checkCurrent pol obj access with
  | none => .ok (s, 0)
  | some access =>
    match dst with
    | none => .error .nullProcess
    | some d =>
      match pol.check (.process d) obj access with
      | none => .ok (s, 0)
      | some access =>
        if o.makeGlobal then allocGlobalHandle pol s obj access
        else allocHandleNoAccessCheck pol s dst obj access inherit

def duplicateSame (pol : Policy) (s : State) (src : ℕ) (srcHandle : Handle) (dst : Option ℕ)
    (entry : Option (ℤ × Entry)) (obj : ℕ) (access : Rights) (inherit : Bool) (o : Options) :
    Except Fault (State × Handle) :=
  if o.makeGlobal then allocGlobalHandleNoAccessCheck pol s obj access
  else match entry with
    | some (i, e) =>
      if o.closeSource ∧ dst = some src ∧ isProtected e = false then
        (setAccess s src srcHandle i e (if inherit then access ||| reservedInherit else access)).map
          fun s => (s, srcHandle)
      else allocHandleEntry pol s dst obj access inherit
    | none => allocHandleEntry pol s dst obj access inherit

def duplicateHandle (pol : Policy) (s : State) (src : ℕ) (srcHandle : Handle) (dst : Option ℕ)
    (access : Rights) (inherit : Bool) (o : Options) : Except Fault (State × Handle) :=
  (getHandle s (some src) srcHandle).bind fun entry =>
    match sourceObj pol entry srcHandle with
    | none => .ok (s, 0)
    | some obj =>
      let asked := askedAccess pol entry obj access o
      (if asksMore pol entry obj access o then duplicateMore pol s dst obj asked inherit o
        else duplicateSame pol s src srcHandle dst entry obj asked inherit o).bind fun r =>
        if r.2 ≠ 0 ∧ o.sameAttributes then
          (setHandleFlags pol r.1 dst r.2 (~~~0)
            ((sourceAccess pol entry obj &&& reservedAll) >>> reservedShift)).map fun r' => (r'.1, r.2)
        else .ok r

def dupHandle (pol : Policy) (s : State) (src dst : Option ℕ) (srcHandle : Handle) (access : Rights)
    (inherit : Bool) (o : Options) : Except Fault (State × Handle) :=
  match src with
  | none => .ok (s, 0)
  | some src =>
    let dst := if o.makeGlobal then none else dst
    (if o.makeGlobal ∨ dst.isSome then duplicateHandle pol s src srcHandle dst access inherit o
      else .ok (s, 0)).bind fun r =>
      if o.closeSource ∧ (dst ≠ some src ∨ srcHandle ≠ r.2) then
        (closeHandle pol r.1 src srcHandle).map fun r' => (r'.1, r.2)
      else .ok r

def inheritHandle (s : State) (parent : ℕ) (handle : Handle) (table : Table) :
    Except Fault (State × Table) :=
  (getHandle s (some parent) handle).bind fun
    | none => .ok (s, table)
    | some (_, e) =>
      if !isInheritable e then .ok (s, table)
      else (table.read (handleToIndex handle)).bind fun d =>
        if d.isSome then .ok (s, table)
        else (table.write (handleToIndex handle) (some e)).map fun t =>
          (s.grab e.obj, { t with used := max t.used (handleToIndex handle + 1).toNat })

def inheritHandles (parent : ℕ) : List Handle → State → Table → Except Fault (State × Table)
  | [], s, table => .ok (s, table)
  | handle :: handles, s, table =>
    (inheritHandle s parent handle table).bind fun r => inheritHandles parent handles r.1 r.2

def inheritEntries : ℕ → ℕ → State → Table → Except Fault (State × Table)
  | _, 0, s, t => .ok (s, t)
  | i, n + 1, s, t => (t.read i).bind fun
    | none => inheritEntries (i + 1) n s t
    | some e =>
      if isInheritable e then inheritEntries (i + 1) n (s.grab e.obj) t
      else (t.write i none).bind fun t => inheritEntries (i + 1) n s t

inductive Inherit
  | nothing
  | all
  | list (handles : List Handle)

def newHandleTable (pol : Policy) (s : State) (parent : ℕ) (inherit : Inherit) (std : List Handle) :
    Except Fault (State × Table) :=
  match inherit with
  | .nothing => .ok (s, allocHandleTable 0)
  | .all =>
    match s.procs parent with
    | none => .error .assertion
    | some t =>
      if t.count < t.used then .error .outOfBounds
      else (inheritEntries 0 t.used s { allocHandleTable t.count with
          used := t.used
          entries := fun i => if i < t.used then t.entries i else none }).bind fun r =>
        (shrinkHandleTable r.2 (pol.alloc 1)).map fun table => (r.1, table)
  | .list handles =>
    match s.procs parent with
    | none => .error .assertion
    | some t =>
      (inheritHandles parent (handles ++ std) s (allocHandleTable t.count)).bind fun r =>
        (shrinkHandleTable r.2 (pol.alloc 1)).map fun table => (r.1, table)

def destroyEntries : ℕ → ℕ → State → Table → Except Fault (State × Table)
  | _, 0, s, t => .ok (s, t)
  | i, n + 1, s, t => (t.read i).bind fun
    | none => destroyEntries (i + 1) n s t
    | some e => (t.write i none).bind fun t =>
      (s.release e.obj).bind fun s => destroyEntries (i + 1) n s t

def closeProcessHandles (s : State) (p : ℕ) : Except Fault State :=
  match s.procs p with
  | none => .ok s
  | some t =>
    (destroyEntries 0 t.used { s with procs := update s.procs p none } t).map Prod.fst

inductive Req
  | dup (src dst : Option ℕ) (srcHandle : Handle) (access : Rights) (inherit : Bool) (o : Options)
  | close (p : ℕ) (handle : Handle)
  | setInfo (p : ℕ) (handle : Handle) (mask flags : Rights)
  | start (parent child : ℕ) (inherit : Inherit) (std : List Handle)
  | openObject (p obj : ℕ) (access : Rights) (inherit : Bool)
  | newHandle (p obj : ℕ) (access : Rights) (inherit : Bool)
  | exit (p : ℕ)

inductive Reply
  | handle (h : Handle)
  | status (st : Status)
  | flags (old : Option Rights)
  | created (done : Bool)
  | closed
  deriving DecidableEq, Repr

def answer (pol : Policy) (s : State) : Req → Except Fault (State × Reply)
  | .dup src dst srcHandle access inherit o =>
    (dupHandle pol s src dst srcHandle access inherit o).map fun r => (r.1, .handle r.2)
  | .close p handle => (closeHandle pol s p handle).map fun r => (r.1, .status r.2)
  | .setInfo p handle mask flags =>
    (setHandleFlags pol s (some p) handle mask flags).map fun r => (r.1, .flags r.2)
  | .start parent child inherit std =>
    if (s.procs child).isSome ∨ pol.alloc 3 = false then .ok (s, .created false)
    else (newHandleTable pol s parent inherit std).map fun r => (r.1.set (.proc child) r.2, .created true)
  | .openObject p obj access inherit =>
    (allocHandle pol s p obj access inherit).map fun r => (r.1, .handle r.2)
  | .newHandle p obj access inherit =>
    (allocHandleNoAccessCheck pol s (some p) obj access inherit).map fun r => (r.1, .handle r.2)
  | .exit p => (closeProcessHandles s p).map fun s => (s, .closed)

def handle (pol : Policy) (s : State) (req : Req) : Except Fault State := (answer pol s req).map Prod.fst

def step (s : State) (l : Policy × Req) : Option State := (handle l.1 s l.2).toOption

end WinePpc64.Handles
