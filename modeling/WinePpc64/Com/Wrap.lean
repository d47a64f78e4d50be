import WinePpc64.Com.Surface
import WinePpc64.Lib.Memory

namespace WinePpc64.Com.Invoke

open Lib

abbrev Word := BitVec 64

structure ComProxy where
  addr : Word
  host : Word
  iface : ℕ
  refs : ℕ
  cachedQword : Word
  deriving DecidableEq, Repr

structure RevProxy where
  addr : Word
  guest : Word
  iface : ℕ
  refs : ℕ
  refs_pos : 0 < refs
  deriving DecidableEq, Repr

/-- The two intern tables and what the heap answers next, `0` and the end of the list being out of
memory. `recovered` is a record for the statements: the guest pointers `winecom_wrap` took out of
reverse proxies since the callee returned. -/
structure Runtime where
  intern : List ComProxy
  revIntern : List RevProxy
  heap : List Word
  recovered : List Word
  deriving DecidableEq, Repr

/-- A call of the surface's `invoke` or, with the fpword, `invoke_fp`. `native` holds the arrays
the marshaller built, which no guest pointer reaches. -/
structure Call where
  host : Word
  slot : ℕ
  argc : ℕ
  args : List Word
  fpword : Option (BitVec 32)
  mem : Mem
  native : Mem
  rt : Runtime

structure Returned where
  ret : Word
  fpret : Word
  mem : Mem
  rt : Runtime
  wrote : List Word

structure Env where
  surface : Surface
  invoke : Call → Returned
  hasInvokeFp : Bool
  wrapConcrete : Option (Word → ℕ → ℕ)
  eventMint : Option (Word → Bool → Word)
  hasEventReap : Bool
  revEnabled : Bool
  nowrap : Bool
  eventOff : Bool
  fpOff : Bool
  refuseScrubOff : Bool
  arrBuf : Word

def Env.revIsLocal (e : Env) (iface : ℕ) : Bool :=
  ((e.surface.ifaces[iface]?).map Iface.isLocal).getD false

def Runtime.allocate (rt : Runtime) : Word × Runtime :=
  (rt.heap.headD 0, { rt with heap := rt.heap.tail })

def Runtime.addProxy (rt : Runtime) (addr host : Word) (iface : ℕ) : Runtime :=
  { rt with intern := ⟨addr, host, iface, 1, 0⟩ :: rt.intern }

def Runtime.addRevProxy (rt : Runtime) (addr guest : Word) (iface : ℕ) : Runtime :=
  { rt with revIntern := ⟨addr, guest, iface, 1, by decide⟩ :: rt.revIntern }

def proxyFromPointer (rt : Runtime) (ptr : Word) : Option ComProxy :=
  if ptr = 0 then none else rt.intern.find? fun p => p.addr = ptr

def revFromPointer (e : Env) (rt : Runtime) (ptr : Word) : Option RevProxy :=
  if ptr = 0 ∨ !e.revEnabled then none else rt.revIntern.find? fun p => p.addr = ptr

def RevProxy.drop (p : RevProxy) : Option RevProxy :=
  if h : 1 < p.refs then some { p with refs := p.refs - 1, refs_pos := by omega } else none

def RevProxy.addRef (p : RevProxy) : RevProxy :=
  { p with refs := p.refs + 1, refs_pos := by omega }

def revRelease (e : Env) (rt : Runtime) (p : RevProxy) : Runtime :=
  if e.revIsLocal p.iface then rt
  else { rt with
    revIntern := rt.revIntern.filterMap fun q : RevProxy =>
      if q.addr = p.addr then q.drop else some q }

def wcReverseGuest (e : Env) (rt : Runtime) (ptr : Word) : Option Word :=
  ((revFromPointer e rt ptr).map RevProxy.guest).filter fun guest => guest ≠ 0

def wcReverseRelease (e : Env) (rt : Runtime) (ptr : Word) : Runtime :=
  match revFromPointer e rt ptr with
  | some p => revRelease e rt p
  | none => rt

def winecomToNativeEnd (e : Env) (rt : Runtime) (native : Word) : Runtime :=
  wcReverseRelease e rt native

def revMaxSlots : ℕ := 64

def revInternAddRef (guest : Word) (iface : ℕ) : List RevProxy → Option (Word × List RevProxy)
  | [] => none
  | p :: ps =>
    if p.guest = guest ∧ p.iface = iface then some (p.addr, p.addRef :: ps)
    else (revInternAddRef guest iface ps).map fun r => (r.1, p :: r.2)

def winecomReverseWrap (e : Env) (rt : Runtime) (guest : Word) (iface : ℕ) : Word × Runtime :=
  if guest = 0 ∨ !e.revEnabled then (0, rt)
  else match e.surface.ifaces[iface]? with
    | none => (0, rt)
    | some itf =>
      if revMaxSlots < itf.slotCount then (0, rt)
      else if e.nowrap then (guest, rt)
      else match revInternAddRef guest iface rt.revIntern with
        | some (addr, ps) => (addr, { rt with revIntern := ps })
        | none =>
          let (addr, rt) := rt.allocate
          if addr = 0 then (0, rt) else (addr, rt.addRevProxy addr guest iface)

def winecomToNative (e : Env) (rt : Runtime) (guestSeen : Word) (iface : Option ℕ) :
    Option Word × Runtime :=
  if guestSeen = 0 then (some 0, rt)
  else match proxyFromPointer rt guestSeen, iface with
    | some p, _ => (some p.host, rt)
    | none, none => (none, rt)
    | none, some iface =>
      let (native, rt) := winecomReverseWrap e rt guestSeen iface
      (if native = 0 then none else some native, rt)

def winecomIfaceFromIid (e : Env) (riid : BitVec 128) : Option ℕ :=
  e.surface.ifaces.findIdx? fun itf => itf.iid = riid

def ComProxy.addRef (p : ComProxy) : ComProxy :=
  { p with refs := p.refs + 1, cachedQword := if p.refs = 0 then 0 else p.cachedQword }

def internAddRef (host : Word) (iface : ℕ) : List ComProxy → Option (Word × List ComProxy)
  | [] => none
  | p :: ps =>
    if p.host = host ∧ p.iface = iface then some (p.addr, p.addRef :: ps)
    else (internAddRef host iface ps).map fun r => (r.1, p :: r.2)

def Env.concrete (e : Env) (host : Word) (iface : ℕ) : ℕ :=
  match e.wrapConcrete with
  | none => iface
  | some f => if f host iface < e.surface.ifaces.length then f host iface else iface

def winecomWrap (e : Env) (rt : Runtime) (host : Word) (iface : ℕ) : Word × Runtime :=
  if host = 0 then (0, rt)
  else match wcReverseGuest e rt host with
    | some guest => (guest, wcReverseRelease e { rt with recovered := guest :: rt.recovered } host)
    | none =>
      if e.nowrap then (host, rt)
      else match internAddRef host (e.concrete host iface) rt.intern with
        | some (addr, ps) => (addr, { rt with intern := ps })
        | none =>
          let (addr, rt) := rt.allocate
          if addr = 0 then (0, rt) else (addr, rt.addProxy addr host (e.concrete host iface))

end WinePpc64.Com.Invoke
