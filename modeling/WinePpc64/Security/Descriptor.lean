import WinePpc64.Lib.ByteMem

namespace WinePpc64.Security

open Lib

def maxAclLen : ℕ := 65535

def seDaclPresent : ℕ := 4


def sdHeader : ℕ := 20

def aclHeader : ℕ := 8

def aceHeader : ℕ := 8

def sidHeader : ℕ := 8

def maxSidLen : ℕ := sidHeader + 4 * 255

def field (m : ByteMem) (a n : ℕ) : ℕ := leNat (m.load a n)

section Fields

variable (m : ByteMem)

def sidLen (sid : ℕ) : ℕ := sidHeader + 4 * (m (sid + 1)).toNat

def sidValidSize (sid size : ℕ) : Bool := decide (sidHeader ≤ size) && decide (sidLen m sid ≤ size)

def aceType (ace : ℕ) : ℕ := (m ace).toNat

def aceFlags (ace : ℕ) : ℕ := (m (ace + 1)).toNat

def aceSize (ace : ℕ) : ℕ := field m (ace + 2) 2

def aceMask (ace : ℕ) : BitVec 32 := BitVec.ofNat 32 (field m (ace + 4) 4)

def aceSid (ace : ℕ) : ℕ := ace + aceHeader

def aclCount (acl : ℕ) : ℕ := field m (acl + 4) 2

def aceFirst (acl : ℕ) : ℕ := acl + aclHeader

def aceNext (ace : ℕ) : ℕ := ace + aceSize m ace

def acesFrom : ℕ → ℕ → List ℕ
  | 0, _ => []
  | n + 1, ace => ace :: acesFrom n (aceNext m ace)

def aces (acl : ℕ) : List ℕ := acesFrom m (aclCount m acl) (aceFirst acl)

end Fields

def knownTypes : List ℕ := [1, 0, 2, 3, 0x11]

def acesValid (m : ByteMem) : ℕ → ℕ → ℕ → Bool
  | 0, _, _ => true
  | n + 1, size, ace =>
    if size < aceHeader ∨ size < aceSize m ace then false
    else if aceType m ace ∉ knownTypes then false
    else if !sidValidSize m (aceSid ace) ((aceSize m ace + 2 ^ 32 - aceHeader) % 2 ^ 32) then false
    else acesValid m n (size - aceSize m ace) (aceNext m ace)

def aclIsValid (m : ByteMem) (acl size : ℕ) : Bool :=
  if size < aclHeader then false
  else acesValid m (aclCount m acl) (min size maxAclLen - aclHeader) (aceFirst acl)

/-! The security descriptor is at address 0. -/

section Parts

variable (m : ByteMem)

def sdControl : ℕ := field m 0 4

def ownerLen : ℕ := field m 4 4

def groupLen : ℕ := field m 8 4

def saclLen : ℕ := field m 12 4

def daclLen : ℕ := field m 16 4

def sdGetOwner : Option ℕ := if ownerLen m ≠ 0 then some sdHeader else none

def sdGetGroup : Option ℕ := if groupLen m ≠ 0 then some (sdHeader + ownerLen m) else none

def sdGetSacl : Option ℕ := if saclLen m ≠ 0 then some (sdHeader + ownerLen m + groupLen m) else none

def sdGetDacl : Option ℕ := if daclLen m ≠ 0 then some (sdHeader + ownerLen m + groupLen m + saclLen m) else none

def daclPresent : Bool := sdControl m &&& seDaclPresent != 0

end Parts

def partSidValid (m : ByteMem) (size offset len : ℕ) (sid : Option ℕ) : Bool :=
  !(decide (maxSidLen ≤ len) || decide (size < offset + len)) && sid.all fun a => sidValidSize m a len

def partAclValid (m : ByteMem) (size offset len : ℕ) (acl : Option ℕ) : Bool :=
  !(decide (maxAclLen ≤ len) || decide (size < offset + len)) && acl.all fun a => aclIsValid m a len

def sdIsValid (m : ByteMem) (size : ℕ) : Bool :=
  decide (sdHeader ≤ size) &&
    partSidValid m size sdHeader (ownerLen m) (sdGetOwner m) &&
    partSidValid m size (sdHeader + ownerLen m) (groupLen m) (sdGetGroup m) &&
    partAclValid m size (sdHeader + ownerLen m + groupLen m) (saclLen m) (sdGetSacl m) &&
    partAclValid m size (sdHeader + ownerLen m + groupLen m + saclLen m) (daclLen m) (sdGetDacl m)

def memOf (l : List Octet) : ByteMem := ByteMem.store (fun _ => 0) 0 l

def systemSid : List Octet := [1, 1, 0, 0, 0, 0, 0, 5, 18, 0, 0, 0]

end WinePpc64.Security
