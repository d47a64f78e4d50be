import Mathlib

namespace WinePpc64.Cxx

abbrev Addr := BitVec 64

abbrev Rva := BitVec 32

def cxxException : BitVec 32 := 0xe06d7363
def statusUnwindConsolidate : BitVec 32 := 0x80000029
def statusLongjump : BitVec 32 := 0x80000026

def cxxFrameMagicVC6 : ℕ := 0x19930520
def cxxFrameMagicVC8 : ℕ := 0x19930522

def funcDescrSynchronous : BitVec 32 := 1
def funcDescrNoexcept : BitVec 32 := 4

def typeFlagConst : BitVec 32 := 1
def typeFlagVolatile : BitVec 32 := 2

def exceptionNoncontinuable : BitVec 32 := 0x01
def exceptionUnwinding : BitVec 32 := 0x02
def exceptionExitUnwind : BitVec 32 := 0x04
def exceptionTargetUnwind : BitVec 32 := 0x20

structure CString where
  bytes : List UInt8
  noNul : 0 ∉ bytes

structure TypeInfo where
  addr : Addr
  mangled : CString

structure ExceptionType where
  flags : BitVec 32
  typeInfoTable : List TypeInfo

structure CatchBlockInfo where
  flags : BitVec 32
  typeInfo : Option TypeInfo
  offset : ℤ
  handler : Rva
  frame : Rva

structure TryBlockInfo where
  startLevel : ℤ
  endLevel : ℤ
  catchLevel : ℤ
  catchblock : List CatchBlockInfo

structure UnwindInfo where
  prev : ℤ
  handler : Rva

structure IpMapInfo where
  ip : ℕ
  state : ℤ

structure FuncInfo where
  magic : ℕ
  unwindTable : List UnwindInfo
  tryblock : List TryBlockInfo
  ipmap : List IpMapInfo
  flags : BitVec 32

structure Dispatcher where
  controlPc : ℕ
  imageBase : ℕ
  /-- `FunctionEntry->BeginAddress`. -/
  beginAddress : Rva

structure ExceptionRecord where
  code : BitVec 32
  flags : BitVec 32
  object : Addr
  excType : Option ExceptionType

structure CatchParams where
  frame : Addr
  startLevel : ℤ
  handler : Rva
  record : ExceptionRecord

inductive Event
  /-- `copy_exception` to this offset in the frame. -/
  | copy (frame : Addr) (offset : ℤ) (flags : BitVec 32) (type : TypeInfo)
  | callFunclet (handler : Rva) (frame : Addr)
  | register (record : ExceptionRecord)
  | unregister

structure Thread where
  help : Addr → ℤ × ℤ
  link : Addr → Rva → Addr
  log : List Event
  /-- The address that the funclet of a catch block returns, where execution goes on. -/
  returns : Rva → Addr → ℕ

inductive Result (α : Type)
  | ok (a : α)
  | trap
  | fuel

def Result.bind {α β : Type} : Result α → (α → Result β) → Result β
  | .ok a, f => f a
  | .trap, _ => .trap
  | .fuel, _ => .fuel

def cxxStrcmp : List UInt8 → List UInt8 → ℤ
  | a :: as, b :: bs => if a ≠ 0 ∧ a = b then cxxStrcmp as bs else a.toNat - b.toNat
  | a :: _, [] => a.toNat
  | [], b :: _ => -b.toNat
  | [], [] => 0

def caughtAs (flags : BitVec 32) (catchTi : Option TypeInfo) (catchFlags : BitVec 32) (ti : TypeInfo) :
    Bool :=
  match catchTi with
  | none => true
  | some c =>
    !(c.addr ≠ ti.addr && cxxStrcmp c.mangled.bytes ti.mangled.bytes ≠ 0) &&
    !(flags &&& typeFlagConst ≠ 0 && catchFlags &&& typeFlagConst = 0) &&
    !(flags &&& typeFlagVolatile ≠ 0 && catchFlags &&& typeFlagVolatile = 0)

def findCaughtType (excType : ExceptionType) (catchTi : Option TypeInfo) (catchFlags : BitVec 32) :
    Option TypeInfo :=
  excType.typeInfoTable.find? (caughtAs excType.flags catchTi catchFlags)

def catchClause (frame : Addr) (excType : Option ExceptionType) (c : CatchBlockInfo) :
    Option (CatchBlockInfo × List Event) :=
  match excType with
  | none => if c.typeInfo.isSome then none else some (c, [])
  | some exc =>
    (findCaughtType exc c.typeInfo c.flags).map fun type =>
      match c.typeInfo with
      | none => (c, [])
      | some ti =>
        if ti.mangled.bytes ≠ [] ∧ c.offset ≠ 0 then (c, [.copy frame c.offset c.flags type]) else (c, [])

def findCatchHandler (frame : Addr) (tryblock : TryBlockInfo) (excType : Option ExceptionType) :
    Option (CatchBlockInfo × List Event) :=
  tryblock.catchblock.findSome? (catchClause frame excType)

def ipToState (descr : FuncInfo) (ip base : ℕ) : ℤ :=
  match (descr.ipmap.takeWhile fun m => ¬ base + m.ip > ip).getLast? with
  | none => -1
  | some m => m.state

def unwindLoop (table : List UnwindInfo) (frame : Addr) (lastLevel : ℤ) :
    ℕ → ℤ → Result (ℤ × List Event)
  | 0, _ => .fuel
  | n + 1, trylevel =>
    if trylevel > lastLevel then
      if trylevel < 0 then .trap
      else match table[trylevel.toNat]? with
        | none => .trap
        | some u => (unwindLoop table frame lastLevel n u.prev).bind fun (level, calls) =>
          .ok (level, (if u.handler ≠ 0 then [.callFunclet u.handler frame] else []) ++ calls)
    else .ok (trylevel, [])

def cxxLocalUnwind (fuel : ℕ) (t : Thread) (frame : Addr) (dispatch : Dispatcher) (descr : FuncInfo)
    (lastLevel : ℤ) : Result Thread :=
  let trylevel := if (t.help frame).1 = -2 then ipToState descr dispatch.controlPc dispatch.imageBase
    else (t.help frame).1
  (unwindLoop descr.unwindTable frame lastLevel fuel trylevel).bind fun (level, calls) =>
    .ok { t with
      help := Function.update t.help frame (level, (t.help frame).2)
      log := t.log ++ calls }

def callCatchBlock (t : Thread) (params : CatchParams) : ℕ × Thread :=
  (t.returns params.handler params.frame, { t with
    help := Function.update t.help params.frame (-2, -1)
    log := t.log ++ [.register params.record, .callFunclet params.handler params.frame, .unregister] })

def TryBlockInfo.inCatch (tb : TryBlockInfo) (trylevel : ℤ) : Bool :=
  trylevel > tb.endLevel && trylevel ≤ tb.catchLevel

inductive Outcome
  | continueSearch
  /-- `RtlUnwindEx` to this frame and address with the record of a catch. -/
  | unwindEx (frame : Addr) (targetIp : ℕ) (params : CatchParams)

def findCatchBlock (t : Thread) (record : ExceptionRecord) (frame : Addr) (dispatch : Dispatcher)
    (descr : FuncInfo) (info : Option ExceptionType) (origFrame : Addr) : Outcome × Thread :=
  let trylevel := ipToState descr dispatch.controlPc dispatch.imageBase
  -- the last try block of the table whose catch blocks the exception comes from
  let inCatch := descr.tryblock.reverse.find? fun tb => tb.inCatch trylevel
  let help := t.help origFrame
  let (trylevel', help') := if trylevel > help.2 then (trylevel, (trylevel, trylevel)) else (help.2, help)
  let t' := { t with help := Function.update t.help origFrame help' }
  let found := descr.tryblock.findSome? fun tb =>
    if trylevel' < tb.startLevel ∨ trylevel' > tb.endLevel then none
    else if inCatch.any fun ic => tb.startLevel ≤ ic.endLevel || tb.endLevel > ic.catchLevel then none
    else (findCatchHandler origFrame tb info).map fun c => (tb, c)
  match found with
  | none => (.continueSearch, t')
  | some (tb, c, copies) =>
    (.unwindEx frame dispatch.controlPc ⟨origFrame, tb.startLevel, c.handler, record⟩, { t' with log := t'.log ++ copies })

def checkNoexcept (record : ExceptionRecord) (descr : FuncInfo) (nested : Bool) : Bool :=
  !nested && record.code = cxxException && descr.magic ≥ cxxFrameMagicVC8 &&
    descr.flags &&& funcDescrNoexcept ≠ 0

def nestedFrame (t : Thread) (frame : Addr) (dispatch : Dispatcher) (descr : FuncInfo) (trylevel : ℤ) :
    Addr × ℤ :=
  descr.tryblock.reverse.foldl (fun acc tb =>
    if tb.inCatch trylevel then
      tb.catchblock.foldl (fun acc c =>
        if c.handler = dispatch.beginAddress then (t.link frame c.frame, tb.endLevel) else acc) acc
    else acc) (frame, -1)

/-- `__CxxFrameHandler3`, for a record with these catch parameters if it is one of `find_catch_block`,
with the record of the thread's current exception. -/
def cxxFrameHandler3 (fuel : ℕ) (t : Thread) (current : Option ExceptionRecord) (record : ExceptionRecord)
    (params : Option CatchParams) (frame : Addr) (dispatch : Dispatcher) (descr : FuncInfo) :
    Result (Outcome × Thread) :=
  let trylevel := ipToState descr dispatch.controlPc dispatch.imageBase
  if descr.magic < cxxFrameMagicVC6 ∨ descr.magic > cxxFrameMagicVC8 then .ok (.continueSearch, t)
  else if descr.magic ≥ cxxFrameMagicVC8 ∧ descr.flags &&& funcDescrSynchronous ≠ 0 ∧
      record.code ≠ cxxException ∧ record.code ≠ statusUnwindConsolidate ∧
      record.code ≠ statusLongjump then .ok (.continueSearch, t)
  else
    let (origFrame, unwindlevel) := nestedFrame t frame dispatch descr trylevel
    if record.flags &&& (exceptionUnwinding ||| exceptionExitUnwind) ≠ 0 then
      let lastLevel :=
        if record.flags &&& exceptionTargetUnwind ≠ 0 then
          match params with
          | some p => if record.code = statusUnwindConsolidate then p.startLevel else trylevel
          | none => trylevel
        else unwindlevel
      (cxxLocalUnwind fuel t origFrame dispatch descr lastLevel).bind fun t' =>
        .ok (.continueSearch, t')
    else if descr.tryblock = [] then
      if checkNoexcept record descr (origFrame ≠ frame) then .trap else .ok (.continueSearch, t)
    else
      -- `throw;` is the current exception thrown again
      let record' := if record.code = cxxException ∧ record.object = 0 ∧ record.excType.isNone then
        current.getD record else record
      let excType := if record'.code = cxxException then record'.excType else none
      match findCatchBlock t record' frame dispatch descr excType origFrame with
      | (.unwindEx target ip p, t') => .ok (.unwindEx target ip p, t')
      | (.continueSearch, t') =>
        if checkNoexcept record' descr (origFrame ≠ frame) then .trap else .ok (.continueSearch, t')

end WinePpc64.Cxx
