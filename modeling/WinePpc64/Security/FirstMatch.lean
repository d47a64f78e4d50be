import WinePpc64.Security.Restriction

namespace WinePpc64.Security

open Lib

section Rule

variable (m : ByteMem) (mapping : GenericMap) (t : Token)

/-- Whether a SID is one of the token's: a group for denials only is matched by deny entries, whether or not it
is enabled, and any other group if it is enabled. -/
def Token.matches (t : Token) (sid : Sid) (deny : Bool) : Bool :=
  equalSid t.user sid || t.groups.any fun g =>
    equalSid g.sid sid && if g.attrs &&& seGroupUseForDenyOnly != 0 then deny else g.attrs &&& seGroupEnabled != 0

/-- The first entry that names the right for a SID that is present allows it. -/
def firstMatch (present : Sid → Bool → Bool) (i : ℕ) : List ℕ → Bool
  | [] => false
  | ace :: rest =>
    let deny := applies m ace 1 && present (sidAt m (aceSid ace)) true
    let allow := applies m ace 0 && present (sidAt m (aceSid ace)) false
    if (deny || allow) && (aceRights m mapping ace).getLsbD i then allow else firstMatch present i rest

/-- The right is the owner's, or the privilege's if it is asked for, or the first match allows it. -/
def decided (owner dacl : ℕ) (desired : Rights) (i : ℕ) : Bool :=
  t.matches (sidAt m owner) false && ownerRights.getLsbD i ||
    i == 24 && desired.getLsbD 24 && t.checkPrivilege seSecurityPrivilege ||
    firstMatch m mapping t.matches i (aces m dacl)

/-- A deny entry for a group that `token_sid_present` passes over because it is not enabled. -/
def Missed (ace : ℕ) : Prop :=
  applies m ace 1 = true ∧ t.matches (sidAt m (aceSid ace)) true = true ∧ denies m t ace = false

end Rule

section Entries

variable {m : ByteMem} {t : Token} {mapping : GenericMap} {l : List ℕ} {i j : ℕ}

variable {base desired : Rights}

theorem Covered.single (h : Covered m t mapping desired base l) (hi : desired.getLsbD i = true) :
    Covered m t mapping (BitVec.twoPow 32 i) base l := by
  have hsub : Among (BitVec.twoPow 32 i) desired := fun j hj => by
    rwa [(twoPow_getLsbD (BitVec.lt_of_getLsbD hi)).mp hj]
  refine ⟨hsub.trans h.all, fun pre ace post heq hblock => hsub.trans (h.before pre ace post heq ⟨hblock.1, ?_⟩)⟩
  exact fun hz => hblock.2 (and_eq_zero_iff.mpr fun j hj => and_eq_zero_iff.mp hz j (hsub j hj))

end Entries

section Checked

variable {m : ByteMem} {mapping : GenericMap} {desired : Rights} {owner dacl i : ℕ} (t : Token)
  (privCount : Option ℕ)

variable (h : HasDacl m owner dacl) (hgen : desired &&& genericRights = 0)
include h hgen

omit hgen

omit h

end Checked

/-- The privilege is there if it is asked for, and the entries cover the request before they deny part of it. -/
def Admitted (m : ByteMem) (t : Token) (mapping : GenericMap) (desired : Rights) (privCount : Option ℕ)
    (owner dacl : ℕ) : Prop :=
  (desired.getLsbD 24 = true → held t privCount = true) ∧
    Covered m t mapping desired (given m t owner desired) (aces m dacl)

/-- No denial of a requested right is missed before the right is allowed. -/
def Heeded (m : ByteMem) (t : Token) (mapping : GenericMap) (desired : Rights) (owner dacl : ℕ) : Prop :=
  ∀ pre ace post, aces m dacl = pre ++ ace :: post → Missed m t ace → ∀ i, desired.getLsbD i = true →
    (aceRights m mapping ace).getLsbD i = true →
      (given m t owner desired).getLsbD i = true ∨ Allowed m t mapping pre i

/-- What the accumulated masks need of the order of the entries, of the privilege and of the groups. -/
def Ordered (m : ByteMem) (t : Token) (mapping : GenericMap) (desired : Rights) (privCount : Option ℕ)
    (owner dacl : ℕ) : Prop :=
  if desired &&& maximumAllowed = 0 then
    ((∀ i, desired.getLsbD i = true → decided m mapping t owner dacl desired i = true) →
      Admitted m t mapping desired privCount owner dacl) ∧
    (Admitted m t mapping desired privCount owner dacl → Heeded m t mapping desired owner dacl)
  else
    (∀ i < 28, i ≠ 25 → i ≠ 24 → ((given m t owner desired).getLsbD i = true ∨
        firstMatch m mapping t.sidPresent i (aces m dacl) = true) →
      (desired.getLsbD 24 = true → held t privCount = true) ∧ Undenied m t mapping (aces m dacl) i) ∧
    (held t privCount = true ↔ (desired.getLsbD 24 = true → held t privCount = true) ∧
      (desired.getLsbD 24 = true ∨ Allowed m t mapping (aces m dacl) 24) ∧ Undenied m t mapping (aces m dacl) 24)

namespace OutOfOrder

open Denied

def descriptor : ByteMem := memOf ([4, 0, 0, 0, 12, 0, 0, 0, 12, 0, 0, 0, 0, 0, 0, 0, 68, 0, 0, 0] ++ systemSid ++
  systemSid ++ [2, 0, 68, 0, 3, 0, 0, 0] ++ [0, 0, 20, 0, 1, 0, 0, 0] ++ userSid ++ [1, 0, 20, 0, 1, 0, 0, 0] ++ userSid ++
  [0, 0, 20, 0, 2, 0, 0, 0] ++ userSid)

end OutOfOrder

end WinePpc64.Security
