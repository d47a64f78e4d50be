import WinePpc64.Com.Surface
import WinePpc64.Lib.ChainTable

/-!
The two intern tables with their chains and the reference counts on both sides of the boundary:
what each proxy counts, what the runtime asks of the host objects and of the objects the guest
implements, and which references change hands. A forward proxy's count is the guest's to raise and
wraps as the `LONG` it is; a reverse proxy's count is taken to stay below 2^31.
-/

namespace WinePpc64.Com.Proxies

open Function Lib

abbrev Word := BitVec 64

inductive Native
  | host (p : Word)
  | rev (p : Word)
  deriving DecidableEq, Repr

inductive Seen
  | proxy (p : Word)
  | guest (p : Word)
  deriving DecidableEq, Repr

def Native.bits : Native → Word
  | .host p | .rev p => p

def Seen.bits : Seen → Word
  | .proxy p | .guest p => p

structure ComProxy where
  addr : Word
  host : Native
  iface : ℕ
  deriving DecidableEq, Repr

structure RevProxy where
  addr : Word
  guest : Seen
  iface : ℕ
  deriving DecidableEq, Repr

inductive HostCall
  | addRef (h : Native)
  | release (h : Native)
  deriving DecidableEq, Repr

/-- `calls` are the AddRef and Release calls on native objects. `handed` and `callers` are
history: the references to a native object that were handed to the runtime, and the references to
a guest object that guest code and the runtime's callers own. -/
structure State where
  intern : ChainTable ComProxy
  internCount : ℕ
  refs : Word → ℤ
  revIntern : ChainTable RevProxy
  revRefs : Word → ℤ
  guestRefs : Word → ℤ
  calls : List HostCall
  handed : Native → ℤ
  callers : Word → ℤ

structure Env where
  surface : Surface
  beyond : ℕ → Bool
  ready : Bool
  revEnabled : Bool

def internBucketsInit : ℕ := 256
def revBuckets : ℕ := 128
def revMaxSlots : ℕ := 64

def State.init (guestRefs : Word → ℤ) : State where
  intern := .empty internBucketsInit
  internCount := 0
  refs := fun _ => 0
  revIntern := .empty revBuckets
  revRefs := fun _ => 0
  guestRefs := guestRefs
  calls := []
  handed := fun _ => 0
  callers := guestRefs

def internHash (host : Native) : BitVec 32 :=
  let h := host.bits >>> 4
  let h := h ^^^ (h >>> 17)
  let h := h * 0x9E3779B1
  let h := h ^^^ (h >>> 13)
  h.truncate 32

def internBucket (n : ℕ) (p : ComProxy) : ℕ := (internHash p.host).toNat &&& (n - 1)

def revBucket (n : ℕ) (p : RevProxy) : ℕ :=
  ((p.guest.bits >>> 4).toNat + p.iface * 131 % 2 ^ 32) % n

section

variable (e : Env)

def Env.ifaceIsLocal (iface : ℕ) : Bool := ((e.surface.ifaces[iface]?).map Iface.isLocal).getD false

def Env.revIsLocal (iface : ℕ) : Bool :=
  ((e.surface.ifaces[iface]?).map Iface.isLocal).getD (e.beyond iface)

end

namespace State

@[simps]
def setRefs (s : State) (a : Word) (n : ℤ) : State := { s with refs := update s.refs a n }

@[simps]
def setRevRefs (s : State) (a : Word) (n : ℤ) : State :=
  { s with revRefs := update s.revRefs a n }

@[simps]
def addGuestRefs (s : State) (g : Word) (n : ℤ) : State :=
  { s with guestRefs := update s.guestRefs g (s.guestRefs g + n) }

@[simps]
def addCallers (s : State) (g : Word) (n : ℤ) : State :=
  { s with callers := update s.callers g (s.callers g + n) }

@[simps]
def addHanded (s : State) (h : Native) (n : ℤ) : State :=
  { s with handed := update s.handed h (s.handed h + n) }

@[simps]
def addCall (s : State) (c : HostCall) : State := { s with calls := s.calls ++ [c] }

@[simps]
def setIntern (s : State) (t : ChainTable ComProxy) (count : ℕ) : State :=
  { s with intern := t, internCount := count }

@[simps]
def setRevIntern (s : State) (t : ChainTable RevProxy) : State := { s with revIntern := t }

end State

def long (n : ℤ) : ℤ := n.bmod (2 ^ 32)

def State.settle (e : Env) (s : State) (guest : Seen) (iface : ℕ) (n : ℤ) : State :=
  match guest with
  | .guest g => if ¬ e.revEnabled ∨ e.revIsLocal iface then s else s.addCallers g n
  | .proxy _ => s

def proxyFromPointer (s : State) : Seen → Option ComProxy
  | .proxy a => s.intern.elems.find? fun p => p.addr = a
  | .guest _ => none

def proxyAddref (e : Env) (s : State) (p : ComProxy) : State :=
  let s := s.setRefs p.addr (long (s.refs p.addr + 1))
  if e.ifaceIsLocal p.iface then s else s.addCall (.addRef p.host)

def proxyRelease (e : Env) (s : State) (p : ComProxy) : State :=
  if s.refs p.addr = 0 then s
  else
    let s := s.setRefs p.addr (long (s.refs p.addr - 1))
    if e.ifaceIsLocal p.iface then s else s.addCall (.release p.host)

def wcGuestAddref (e : Env) (s : State) (guest : Seen) (iface : ℕ) : State :=
  if ¬ e.revEnabled ∨ e.revIsLocal iface then s
  else match guest with
    | .guest g => s.addGuestRefs g 1
    | .proxy _ => match proxyFromPointer s guest with
      | some p => proxyAddref e s p
      | none => s

def wcGuestRelease (e : Env) (s : State) (guest : Seen) (iface : ℕ) : State :=
  if ¬ e.revEnabled ∨ e.revIsLocal iface then s
  else match guest with
    | .guest g => s.addGuestRefs g (-1)
    | .proxy _ => match proxyFromPointer s guest with
      | some p => proxyRelease e s p
      | none => s

def revFromPointer (e : Env) (s : State) : Native → Option RevProxy
  | .host _ => none
  | .rev a => if e.revEnabled then s.revIntern.elems.find? fun p => p.addr = a else none

def revRelease (e : Env) (s : State) (p : RevProxy) : State :=
  if e.revIsLocal p.iface then s
  else
    let refs := s.revRefs p.addr - 1
    let s := s.setRevRefs p.addr refs
    if refs ≠ 0 then s
    else
      let b := revBucket s.revIntern.size p
      let s := s.setRevIntern (s.revIntern.setChain b
        ((s.revIntern.chain b).eraseP fun q => q.addr = p.addr))
      wcGuestRelease e s p.guest p.iface

def revAddref (s : State) (p : RevProxy) : State := s.setRevRefs p.addr (s.revRefs p.addr + 1)

def wcReverseRelease (e : Env) (s : State) (native : Native) : State :=
  match revFromPointer e s native with
  | some p => revRelease e s p
  | none => s

def hostReleaseIface (e : Env) (s : State) (host : Native) (iface : ℕ) : State :=
  if e.ifaceIsLocal iface then s else s.addCall (.release host)

def Env.concrete (e : Env) (iface : ℕ) (up : Option ℕ) : ℕ :=
  match up with
  | some up => if up < e.surface.ifaces.length then up else iface
  | none => iface

def internGrow (t : ChainTable ComProxy) (count : ℕ) (grown : Bool) : ChainTable ComProxy :=
  if t.size < count ∧ grown then t.rehash internBucket (2 * t.size) else t

def internProxy (e : Env) (s : State) (host : Native) (iface : ℕ) (mem : Option Word)
    (grown : Bool) : Option Seen × State :=
  match (s.intern.chain (internBucket s.intern.size ⟨0, host, iface⟩)).find?
      fun p => p.host = host ∧ p.iface = iface with
  | some p => (some (.proxy p.addr), s.setRefs p.addr (long (s.refs p.addr + 1)))
  | none => match mem with
    | none => (none, hostReleaseIface e s host iface)
    | some a =>
      let t := internGrow s.intern (s.internCount + 1) grown
      (some (.proxy a),
        (s.setRefs a 1).setIntern (t.push internBucket ⟨a, host, iface⟩) (s.internCount + 1))

def winecomWrap (e : Env) (s : State) (host : Option Native) (iface : ℕ) (up : Option ℕ)
    (mem : Option Word) (grown : Bool) : Option Seen × State :=
  match host with
  | none => (none, s)
  | some host =>
    let iface := e.concrete iface up
    match revFromPointer e s host with
    | some p =>
      (some p.guest,
        (wcReverseRelease e (wcGuestAddref e s p.guest iface) host).settle e p.guest iface 1)
    | none => internProxy e s host iface mem grown

def winecomReverseWrap (e : Env) (s : State) (guest : Option Seen) (iface : ℕ) (mem : Option Word) :
    Option Native × State :=
  match guest with
  | none => (none, s)
  | some guest =>
    if ¬ (e.ready ∧ e.revEnabled) then (none, s)
    else match e.surface.ifaces[iface]? with
      | none => (none, s)
      | some itf =>
        if revMaxSlots < itf.slotCount then (none, s)
        else match (s.revIntern.chain (revBucket s.revIntern.size ⟨0, guest, iface⟩)).find?
            fun p => p.guest = guest ∧ p.iface = iface with
          | some p =>
            -- the surplus guest reference goes back
            (some (.rev p.addr), wcGuestRelease e (revAddref s p) guest iface)
          | none => match mem with
            | none => (none, wcGuestRelease e s guest iface)
            | some a =>
              (some (.rev a), (s.setRevRefs a 1).setRevIntern
                (s.revIntern.push revBucket ⟨a, guest, iface⟩))

def winecomToNative (e : Env) (s : State) (guestSeen : Option Seen) (iface : Option ℕ)
    (mem : Option Word) : Option (Option Native) × State :=
  match guestSeen with
  | none => (some none, s)
  | some guest =>
    if ¬ e.ready then (none, s)
    else match proxyFromPointer s guest, iface with
      | some p, _ => (some (some p.host), s)
      | none, none => (none, s)
      | none, some iface =>
        if ¬ e.revEnabled then (none, s)
        else
          let r := winecomReverseWrap e (wcGuestAddref e s guest iface) (some guest) iface mem
          match r.1 with
          | none => (none, wcGuestRelease e r.2 guest iface)
          | some native => (some (some native), r.2)

def revNativeAddref (e : Env) (s : State) (native : Native) (iface : ℕ) : State :=
  if e.revIsLocal iface then s
  else match revFromPointer e s native with
    | some p => revAddref s p
    | none => s.addCall (.addRef native)

def winecomToGuest (e : Env) (s : State) (native : Option Native) (iface : Option ℕ)
    (up : Option ℕ) (mem : Option Word) (grown : Bool) : Option (Option Seen) × State :=
  match native with
  | none => (some none, s)
  | some native =>
    if ¬ e.ready then (none, s)
    else match revFromPointer e s native, iface with
      | some p, _ => (some (some p.guest), s)
      | none, none => (none, s)
      | none, some iface =>
        if e.surface.ifaces.length ≤ iface then (none, s)
        else
          let r := winecomWrap e (revNativeAddref e s native iface) (some native) iface up mem grown
          match r.1 with
          | none => (none, r.2)
          | some guest => (some (some guest), r.2)

def revToNativeOwned (e : Env) (s : State) (guest : Option Seen) (iface : ℕ) (mem : Option Word) :
    Option (Option Native) × State :=
  match guest with
  | none => (some none, s)
  | some guest =>
    let r := winecomToNative e s (some guest) (some iface) mem
    match r.1 with
    | none => (none, r.2)
    | some none => (some none, wcGuestRelease e r.2 guest iface)
    | some (some native) =>
      let s := wcReverseRelease e (revNativeAddref e r.2 native iface) native
      (some (some native), wcGuestRelease e s guest iface)

def winecomIfaceFromIid (e : Env) (riid : BitVec 128) : Option ℕ :=
  e.surface.ifaces.findIdx? fun itf => itf.iid = riid

def State.handOver (e : Env) (s : State) (host : Option Native) (iface : ℕ) (up : Option ℕ) : State :=
  match host with
  | none => s
  | some host => if e.ifaceIsLocal (e.concrete iface up) then s else s.addHanded host 1

inductive Hr
  | ok
  | pointer
  | invalidArg
  | noInterface
  | outOfMemory
  | callee
  deriving DecidableEq, Repr

def proxyQi (e : Env) (s : State) (p : ComProxy) (riid : Option (BitVec 128)) (ppv : Bool)
    (answer : Option (Option Native)) (up : Option ℕ) (mem : Option Word) (grown : Bool) :
    Hr × Option Seen × State :=
  if ¬ ppv then (.pointer, none, s)
  else match riid with
    | none => (.invalidArg, none, s)
    | some riid =>
      if e.ifaceIsLocal p.iface then (.noInterface, none, s)
      else match winecomIfaceFromIid e riid with
        | none => (.noInterface, none, s)
        | some idx => match answer with
          | none => (.callee, none, s)
          | some host =>
            let r := winecomWrap e (s.handOver e host idx up) host idx up mem grown
            (if r.1.isSome then .ok else .outOfMemory, r.1, r.2)

def winecomWrapOutIface (e : Env) (s : State) (riid : Option (BitVec 128)) (out : Option Native)
    (up : Option ℕ) (mem : Option Word) (grown : Bool) : Hr × Option Seen × State :=
  match out with
  | none => (.ok, none, s)
  | some host => match riid.bind (winecomIfaceFromIid e) with
    | none => (.noInterface, none, (s.addHanded host 1).addCall (.release host))
    | some idx =>
      let r := winecomWrap e (s.handOver e (some host) idx up) (some host) idx up mem grown
      (.ok, r.1, r.2)

def revQueryInterface (e : Env) (s : State) (riid : Option (BitVec 128)) (ppv : Bool)
    (answer : Option (Option Seen)) (mem : Option Word) : Hr × Option Native × State :=
  if ¬ ppv then (.pointer, none, s)
  else match riid with
    | none => (.invalidArg, none, s)
    | some riid => match winecomIfaceFromIid e riid with
      | none => (.noInterface, none, s)
      | some idx => match answer with
        | none => (.callee, none, s)
        | some guest =>
          let r := revToNativeOwned e s guest idx mem
          match r.1 with
          | none => (.noInterface, none, r.2)
          | some native => (.ok, native, r.2)

inductive Act
  | wrap (host : Native) (iface : ℕ) (up : Option ℕ) (mem : Option Word) (grown : Bool)
  | addref (a : Word)
  | release (a : Word)
  | qi (a : Word) (riid : Option (BitVec 128)) (ppv : Bool) (answer : Option (Option Native))
      (up : Option ℕ) (mem : Option Word) (grown : Bool)
  | wrapOut (riid : Option (BitVec 128)) (out : Option Native) (up : Option ℕ) (mem : Option Word)
      (grown : Bool)
  | reverseWrap (guest : Seen) (iface : ℕ) (mem : Option Word)
  | toNative (guest : Seen) (iface : Option ℕ) (mem : Option Word)
  | toNativeEnd (native : Native)
  | toGuest (native : Native) (iface : Option ℕ) (up : Option ℕ) (mem : Option Word) (grown : Bool)
  | owned (guest : Seen) (iface : ℕ) (mem : Option Word)
  | revAddref (a : Word)
  | revRelease (a : Word)
  | revQi (riid : Option (BitVec 128)) (ppv : Bool) (answer : Option (Option Seen))
      (mem : Option Word)

def State.fresh (s : State) (mem : Option Word) : Prop :=
  ∀ a, mem = some a → (∀ p ∈ s.intern.elems, p.addr ≠ a) ∧ ∀ p ∈ s.revIntern.elems, p.addr ≠ a

def State.answered (s : State) (answer : Option (Option Seen)) : State :=
  match answer with
  | some (some (.guest g)) => (s.addGuestRefs g 1).addCallers g 1
  | _ => s

def Act.mem : Act → Option Word
  | .wrap _ _ _ mem _ | .qi _ _ _ _ _ mem _ | .wrapOut _ _ _ mem _ | .reverseWrap _ _ mem
  | .toNative _ _ mem | .toGuest _ _ _ mem _ | .owned _ _ mem | .revQi _ _ _ mem => mem
  | _ => none

def step (e : Env) (s : State) : Act → Option State
  | .wrap host iface up mem grown =>
    some (winecomWrap e (s.handOver e (some host) iface up) (some host) iface up mem grown).2
  | .addref a => (proxyFromPointer s (.proxy a)).map (proxyAddref e s)
  | .release a => (proxyFromPointer s (.proxy a)).map (proxyRelease e s)
  | .qi a riid ppv answer up mem grown => (proxyFromPointer s (.proxy a)).map fun p =>
      (proxyQi e s p riid ppv answer up mem grown).2.2
  | .wrapOut riid out up mem grown => some (winecomWrapOutIface e s riid out up mem grown).2.2
  | .reverseWrap guest iface mem =>
    some ((winecomReverseWrap e s (some guest) iface mem).2.settle e guest iface (-1))
  | .toNative guest iface mem => some (winecomToNative e s (some guest) iface mem).2
  | .toNativeEnd native => some (wcReverseRelease e s native)
  | .toGuest native iface up mem grown =>
    some (winecomToGuest e s (some native) iface up mem grown).2
  | .owned guest iface mem =>
    some ((revToNativeOwned e s (some guest) iface mem).2.settle e guest iface (-1))
  | .revAddref a => (revFromPointer e s (.rev a)).map (revAddref s)
  | .revRelease a => (revFromPointer e s (.rev a)).map (revRelease e s)
  | .revQi riid ppv answer mem =>
    match riid.bind (winecomIfaceFromIid e), answer with
    | some idx, some (some guest) =>
      if ppv then
        some ((revQueryInterface e (s.answered answer) riid ppv answer mem).2.2.settle e guest idx (-1))
      else some s
    | _, _ => some (revQueryInterface e s riid ppv answer mem).2.2

end WinePpc64.Com.Proxies
