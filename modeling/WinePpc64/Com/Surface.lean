import Mathlib

namespace WinePpc64.Com

inductive ArgClass
  | pass | ifaceIn | riid | ppvOut | retPtr | event | ifaceArrIn | ifaceOutStatic
  | ifaceArrOutStatic | ifaceArrOutCountptr | eventOneshot
  | other (c : ℕ)
  deriving DecidableEq, Repr

structure Slot where
  name : Option String
  refuse : Bool
  cls : Option (List ArgClass)
  xaux : Option (List ℕ)
  argc : ℕ
  retVoid : Bool
  retViaArg : Bool
  hand : Bool
  constQword : Bool
  aux : ℕ
  aux2 : ℕ
  caux : Option (List ℕ)
  fpmask : BitVec 8
  fpwide : BitVec 8
  fpret : BitVec 8
  xmask : BitVec 8
  narrowmask : BitVec 8
  narrowwide : BitVec 8
  narrowsign : BitVec 8
  dwordmask : BitVec 16
  dwordsign : BitVec 16
  scrubptr : BitVec 16 := 0
  scrubdw : BitVec 16 := 0
  scrubq : BitVec 16 := 0
  deriving DecidableEq, Repr

structure Iface where
  slotCount : ℕ
  slots : Option (List Slot)
  iid : BitVec 128 := 0
  isLocal : Bool := false
  deriving DecidableEq, Repr

structure Surface where
  ifaces : List Iface
  deriving DecidableEq, Repr

def Slot.classOf (sl : Slot) (i : ℕ) : ArgClass :=
  match sl.cls with
  | none => .pass
  | some cls => cls.getD (i - 1) .pass

def Surface.slotAt (s : Surface) (iface slot : ℕ) : Option Slot :=
  (s.ifaces[iface]?).bind fun itf => itf.slots.bind fun slots =>
    if slot < itf.slotCount then slots[slot]? else none

end WinePpc64.Com
