import WinePpc64.Com.Wrap

namespace WinePpc64.Com.Invoke

open Lib

def eNotimpl : Word := 0x80004001
def eNointerface : Word := 0x80004002
def eOutofmemory : Word := 0x8007000e

def succeeded (ret : Word) : Bool := !(ret.setWidth 32).msb

def extendScalar (sl : Slot) (i : ℕ) (raw : Word) : Word :=
  if sl.narrowmask.getLsbD (i - 1) then
    let bits := if sl.narrowwide.getLsbD (i - 1) then 16 else 8
    let mask : Word := (1 <<< bits) - 1
    let low := raw &&& mask
    if sl.narrowsign.getLsbD (i - 1) && low.getLsbD (bits - 1) then low ||| ~~~mask else low
  else if sl.dwordmask.getLsbD (i - 1) then
    if sl.dwordsign.getLsbD (i - 1) then (raw.setWidth 32).signExtend 64
    else (raw.setWidth 32).setWidth 64
  else raw

def xauxAt (sl : Slot) (i : ℕ) : Option ℕ := sl.xaux.bind fun xaux => xaux[i - 1]?

def inIface (sl : Slot) (i : ℕ) : Option ℕ :=
  if sl.xmask.getLsbD (i - 1) then xauxAt sl i else none

def countArg (sl : Slot) (raw : List Word) (i : ℕ) : Option Word :=
  (sl.caux.bind fun caux => caux[i - 1]?).bind fun c => raw[c + 1]?

structure Locals where
  args : List Word
  outStatic : List ℕ
  outArr : List ℕ
  outCarr : List (ℕ × ℕ)
  minted : List Word
  borrowed : List ℕ
  arrBorrowed : Word × ℕ
  ppv : Option (ℕ × ℕ)
  native : Mem
  rt : Runtime

inductive Exit
  | fault
  | refused (code : Word) (rt : Runtime)

def releaseBorrows (e : Env) (args : List Word) (borrowed : List ℕ) (rt : Runtime) : Runtime :=
  borrowed.foldl (fun rt i => winecomToNativeEnd e rt (args.getD i 0)) rt

def Locals.setArg (l : Locals) (i : ℕ) (v : Word) : Locals := { l with args := l.args.set i v }

def Locals.refuse (e : Env) (l : Locals) (code : Word) (rt : Runtime) : Exit :=
  .refused code (releaseBorrows e l.args l.borrowed rt)

def cellAt (base : Word) (k : ℕ) : Word := base + BitVec.ofNat 64 (8 * k)

def endElems (e : Env) (native : Mem) (dst : Word) (n : ℕ) (rt : Runtime) : Runtime :=
  (List.range n).reverse.foldl (fun rt k => winecomToNativeEnd e rt (native.read (cellAt dst k) 8)) rt

def marshalElem (e : Env) (iface : Option ℕ) (mem : Mem) (src dst : Word) (s : Mem × Runtime)
    (n : ℕ) : Except Runtime (Mem × Runtime) :=
  match winecomToNative e s.2 (mem.read (cellAt src n) 8) iface with
  | (none, rt) => .error (endElems e s.1 dst n rt)
  | (some host, rt) => .ok (s.1.write (cellAt dst n) 8 host, rt)

def Locals.noteStatic (l : Locals) (i : ℕ) (raw : Word) : Locals :=
  if raw ≠ 0 ∧ l.outStatic.length < 8 then { l with outStatic := l.outStatic ++ [i] } else l

def Locals.noteArr (l : Locals) (i : ℕ) (raw : Word) : Locals :=
  if raw ≠ 0 ∧ l.outArr.length < 8 then { l with outArr := l.outArr ++ [i] } else l

def capacity (mem : Mem) (cp : Word) : ℕ := if cp = 0 then 0 else (mem.read cp 4).toNat

def Locals.noteCarr (l : Locals) (i cap : ℕ) : Locals :=
  if cap ≠ 0 then { l with outCarr := l.outCarr ++ [(i, cap)] } else l

def Locals.noteMinted (l : Locals) (native : Word) : Locals :=
  if l.minted.length < 2 then { l with minted := l.minted ++ [native] } else l

def Locals.noteBorrowed (l : Locals) (i : ℕ) (host : Word) : Locals :=
  if host ≠ 0 ∧ l.borrowed.length < 16 then { l with borrowed := l.borrowed ++ [i] } else l

def marshalIfaceIn (e : Env) (sl : Slot) (l : Locals) (i : ℕ) (raw : Word) : Except Exit Locals :=
  match winecomToNative e l.rt raw (inIface sl i) with
  | (none, rt) => .error (l.refuse e eNotimpl rt)
  | (some host, rt) => .ok ({ l.setArg i host with rt := rt }.noteBorrowed i host)

def marshalEvent (e : Env) (l : Locals) (i : ℕ) (raw : Word) (oneshot : Bool) :
    Except Exit Locals :=
  if raw = 0 then .ok (l.setArg i 0)
  else match e.eventMint with
    | none => .error (l.refuse e eNotimpl l.rt)
    | some mint =>
      if e.eventOff ∨ mint raw oneshot = 0 then .error (l.refuse e eNotimpl l.rt)
      else .ok ((l.setArg i (mint raw oneshot)).noteMinted (mint raw oneshot))

def arrDst (e : Env) (count : ℕ) (rt : Runtime) : Word × Runtime :=
  if count ≤ 32 then (e.arrBuf, rt) else rt.allocate

def marshalArrIn (e : Env) (sl : Slot) (rawargs : List Word) (mem : Mem) (l : Locals) (i : ℕ)
    (raw : Word) : Except Exit Locals :=
  match rawargs[sl.aux2 + 1]? with
  | none => .error .fault
  | some c =>
    let count := (c.setWidth 32).toNat
    if raw = 0 ∨ count = 0 then .ok (l.setArg i raw)
    else
      let (dst, rt) := arrDst e count l.rt
      if 32 < count ∧ dst = 0 then .error (l.refuse e eOutofmemory rt)
      else match (List.range count).foldlM (marshalElem e (inIface sl i) mem raw dst) (l.native, rt) with
        | .error rt => .error (l.refuse e eNotimpl rt)
        | .ok (native, rt) =>
          .ok { l.setArg i dst with arrBorrowed := (dst, count), native := native, rt := rt }

def marshalCountptr (sl : Slot) (rawargs : List Word) (mem : Mem) (l : Locals) (i : ℕ) (raw : Word) :
    Except Exit Locals :=
  if raw ≠ 0 ∧ l.outCarr.length < 4 then
    match countArg sl rawargs i with
    | none => .error .fault
    | some cp => .ok ((l.setArg i raw).noteCarr i (capacity mem cp))
  else .ok (l.setArg i raw)

def marshalArg (e : Env) (sl : Slot) (rawargs : List Word) (mem : Mem) (l : Locals) (i : ℕ) :
    Except Exit Locals :=
  match rawargs[i]? with
  | none => .error .fault
  | some raw =>
    if l.args.length ≤ i then .error .fault
    else match sl.classOf i with
      | .pass | .riid | .retPtr => .ok (l.setArg i (extendScalar sl i raw))
      | .ifaceIn => marshalIfaceIn e sl l i raw
      | .ifaceOutStatic => .ok ((l.setArg i raw).noteStatic i raw)
      | .ifaceArrOutStatic =>
        if sl.caux.isNone then .error (l.refuse e eNotimpl l.rt)
        else .ok ((l.setArg i raw).noteArr i raw)
      | .ifaceArrOutCountptr =>
        if sl.caux.isNone then .error (l.refuse e eNotimpl l.rt)
        else marshalCountptr sl rawargs mem l i raw
      | .ppvOut => .ok { l.setArg i raw with ppv := some (i, sl.aux + 1) }
      | .event => marshalEvent e l i raw false
      | .eventOneshot => marshalEvent e l i raw true
      | .ifaceArrIn => marshalArrIn e sl rawargs mem l i raw
      | .other _ => .error (l.refuse e eNotimpl l.rt)

def params (sl : Slot) : List ℕ := List.range' 1 (sl.argc - 1)

def Locals.init (proxy : ComProxy) (rt : Runtime) : Locals where
  args := proxy.host :: List.replicate 15 0
  outStatic := []
  outArr := []
  outCarr := []
  minted := []
  borrowed := []
  arrBorrowed := (0, 0)
  ppv := none
  native := fun _ => 0
  rt := rt

def marshalArgs (e : Env) (sl : Slot) (proxy : ComProxy) (rawargs : List Word) (mem : Mem)
    (rt : Runtime) : Except Exit Locals :=
  (params sl).foldlM (marshalArg e sl rawargs mem) (Locals.init proxy rt)

def scrubArg (sl : Slot) (rawargs : List Word) (mem : Mem) (i : ℕ) : Mem :=
  let p := rawargs.getD i 0
  if p = 0 then mem
  else if sl.scrubptr.getLsbD (i - 1) then mem.write p 8 0
  else if sl.scrubdw.getLsbD (i - 1) then mem.write p 4 0
  else if sl.scrubq.getLsbD (i - 1) then mem.write p 8 0
  else mem

def scrubRefusedOuts (e : Env) (sl : Slot) (rawargs : List Word) (mem : Mem) : Mem :=
  if e.refuseScrubOff then mem
  else ((params sl).filter fun i => i ≤ 16).foldl (scrubArg sl rawargs) mem

structure Post where
  mem : Mem
  rt : Runtime

def wrapCell (e : Env) (iface : Option ℕ) (p : Post) (out : Word) : Option Post :=
  if p.mem.read out 8 = 0 then some p
  else iface.map fun iface =>
    ⟨p.mem.write out 8 (winecomWrap e p.rt (p.mem.read out 8) iface).1,
      (winecomWrap e p.rt (p.mem.read out 8) iface).2⟩

def wrapArray (e : Env) (sl : Slot) (l : Locals) (p : Post) (i count : ℕ) : Option Post :=
  (l.args[i]?).bind fun out =>
    ((List.range count).map (cellAt out)).foldlM (wrapCell e (xauxAt sl i)) p

def wrapStatic (e : Env) (sl : Slot) (l : Locals) (p : Post) (i : ℕ) : Option Post :=
  (l.args[i]?).bind fun out => if out = 0 then some p else wrapCell e (xauxAt sl i) p out

def riidIface (e : Env) (mem : Mem) (riid : Word) : Option ℕ :=
  if riid = 0 then none else winecomIfaceFromIid e (mem.read riid 16)

def wrapPpvCell (e : Env) (ret : Word) (p : Post) (ppv riid : Word) : Option (Word × Post) :=
  if ppv = 0 ∨ p.mem.read ppv 8 = 0 then some (ret, p)
  else match riidIface e p.mem riid with
    | none => some (eNointerface, ⟨p.mem.write ppv 8 0, p.rt⟩)
    | some idx => (wrapCell e (some idx) p ppv).map fun p => (ret, p)

def wrapPpv (e : Env) (l : Locals) (ret : Word) (p : Post) : Option (Word × Post) :=
  match l.ppv with
  | none => some (ret, p)
  | some (ppvIdx, riidIdx) =>
    if !succeeded ret then some (ret, p)
    else (l.args[ppvIdx]?).bind fun ppv => (l.args[riidIdx]?).bind fun riid =>
      wrapPpvCell e ret p ppv riid

def wrapStatics (e : Env) (sl : Slot) (l : Locals) (ret : Word) (p : Post) : Option Post :=
  if succeeded ret then l.outStatic.foldlM (wrapStatic e sl l) p else some p

def wrapArrs (e : Env) (sl : Slot) (rawargs : List Word) (l : Locals) (p : Post) : Option Post :=
  l.outArr.foldlM (fun p i => (countArg sl rawargs i).bind fun c =>
    wrapArray e sl l p i (c.setWidth 32).toNat) p

def wrapCarrs (e : Env) (sl : Slot) (l : Locals) (p : Post) : Option Post :=
  l.outCarr.foldlM (fun p ic => wrapArray e sl l p ic.1 ic.2) p

def wrapOuts (e : Env) (sl : Slot) (rawargs : List Word) (l : Locals) (ret : Word) (p : Post) :
    Option (Word × Post) := do
  let (ret, p) ← wrapPpv e l ret p
  let p ← wrapStatics e sl l ret p
  let p ← wrapArrs e sl rawargs l p
  let p ← wrapCarrs e sl l p
  return (ret, p)

structure Result where
  rax : Word
  fpret : Word
  mem : Mem
  rt : Runtime
  reaped : List Word
  callee : Option (Call × Returned)

def needsFp (sl : Slot) : Bool := sl.fpmask ≠ 0 || sl.fpret ≠ 0

def fpword (sl : Slot) : BitVec 32 :=
  sl.fpmask.setWidth 32 ||| ((sl.fpmask &&& ~~~sl.fpwide).setWidth 32 <<< 8) |||
    (sl.fpret.setWidth 32 <<< 16)

def endBorrows (e : Env) (l : Locals) (rt : Runtime) : Runtime :=
  (List.range l.arrBorrowed.2).foldl
    (fun rt k => winecomToNativeEnd e rt (l.native.read (cellAt l.arrBorrowed.1 k) 8))
    (releaseBorrows e l.args l.borrowed rt)

def refusedResult (e : Env) (sl : Slot) (rawargs : List Word) (mem : Mem) (code : Word)
    (rt : Runtime) : Result :=
  ⟨code, 0, scrubRefusedOuts e sl rawargs mem, rt, [], none⟩

def theCall (sl : Slot) (proxy : ComProxy) (slot : ℕ) (mem : Mem) (l : Locals) : Call where
  host := proxy.host
  slot := slot
  argc := sl.argc
  args := l.args
  fpword := if needsFp sl then some (fpword sl) else none
  mem := mem
  native := l.native
  rt := l.rt

def reapedEvents (e : Env) (sl : Slot) (l : Locals) (ret : Word) : List Word :=
  if e.hasEventReap && !(sl.retVoid || sl.retViaArg) && !succeeded ret then l.minted else []

def raxOut (sl : Slot) (l : Locals) (ret : Word) : Word :=
  if sl.retViaArg then l.args.getD 1 0 else if sl.retVoid then 0 else ret

def cacheQword (sl : Slot) (proxy : ComProxy) (ret : Word) (rt : Runtime) : Runtime :=
  if sl.constQword then
    { rt with
      intern := rt.intern.map fun p => if p.addr = proxy.addr then { p with cachedQword := ret } else p }
  else rt

def finish (e : Env) (sl : Slot) (proxy : ComProxy) (rawargs : List Word) (l : Locals)
    (c : Call) (o : Returned) : Option Result :=
  (wrapOuts e sl rawargs l o.ret ⟨o.mem, endBorrows e l { o.rt with recovered := [] }⟩).map fun r =>
    ⟨raxOut sl l r.1, o.fpret, r.2.mem, cacheQword sl proxy r.1 r.2.rt,
      reapedEvents e sl l o.ret, some (c, o)⟩

/-- `invoke_marshalled` in the 64-bit lane; every exit it has returns STATUS_SUCCESS, and `none` is
an access outside its arrays. `fpPlumbing` is `fpret_bits` being given. -/
def invokeMarshalled (e : Env) (sl : Slot) (proxy : ComProxy) (slot : ℕ) (rawargs : List Word)
    (fpPlumbing : Bool) (mem : Mem) (rt : Runtime) : Option Result :=
  match marshalArgs e sl proxy rawargs mem rt with
  | .error .fault => none
  | .error (.refused code rt) => some (refusedResult e sl rawargs mem code rt)
  | .ok l =>
    if needsFp sl && (e.fpOff || !e.hasInvokeFp || !fpPlumbing) then
      some (refusedResult e sl rawargs mem eNotimpl (endBorrows e l l.rt))
    else
      finish e sl proxy rawargs l (theCall sl proxy slot mem l)
        (e.invoke (theCall sl proxy slot mem l))

end WinePpc64.Com.Invoke
