import WinePpc64.Security.Descriptor

namespace WinePpc64.Security

open Lib

abbrev Status := BitVec 32

abbrev Rights := BitVec 32

def statusSuccess : Status := 0

def statusBufferTooSmall : Status := 0xC0000023#32

def statusAccessDenied : Status := 0xC0000022#32

def statusPrivilegeNotHeld : Status := 0xC0000061#32

def statusInvalidSecurityDescr : Status := 0xC0000079#32

def statusGenericNotMapped : Status := 0xC00000E6#32

def genericRead : Rights := 0x80000000#32

def genericWrite : Rights := 0x40000000#32

def genericExecute : Rights := 0x20000000#32

def genericAll : Rights := 0x10000000#32

def maximumAllowed : Rights := 0x02000000#32

def accessSystemSecurity : Rights := 0x01000000#32

def ownerRights : Rights := 0x001f0000#32

def seGroupEnabledByDefault : BitVec 32 := 0x2#32

def seGroupEnabled : BitVec 32 := 0x4#32

def seGroupUseForDenyOnly : BitVec 32 := 0x10#32

def inheritOnlyAce : ℕ := 8

structure Luid where
  lowPart : BitVec 32
  highPart : BitVec 32
  deriving DecidableEq, Repr

def seSecurityPrivilege : Luid := ⟨8, 0⟩

abbrev Sid := List Octet

def Sid.subCount (s : Sid) : ℕ := (s.getD 1 0).toNat

def Sid.len (s : Sid) : ℕ := sidHeader + 4 * s.subCount

def equalSid (s t : Sid) : Bool := s.subCount == t.subCount && s.take s.len == t.take s.len

def sidAt (m : ByteMem) (a : ℕ) : Sid := m.load a (sidLen m a)

structure Group where
  sid : Sid
  attrs : BitVec 32
  deriving DecidableEq, Repr

structure Privilege where
  luid : Luid
  enabled : Bool
  byDefault : Bool
  deriving DecidableEq, Repr

structure Token where
  user : Sid
  groups : List Group
  privileges : List Privilege
  primaryGroup : ℕ
  primary : Bool
  impersonationLevel : ℤ
  deriving DecidableEq, Repr

def filterGroup (g : Group) (filter : List Sid) : Bool := filter.any fun s => equalSid g.sid s

def filterPrivilege (p : Privilege) (filter : List Luid) : Bool := filter.any fun l => p.luid == l

def copyGroup (removeGroups : List Sid) (g : Group) : Group :=
  if filterGroup g removeGroups then
    { g with attrs := (g.attrs &&& ~~~(seGroupEnabled ||| seGroupEnabledByDefault)) ||| seGroupUseForDenyOnly }
  else g

def tokenDuplicate (src : Token) (primary : Bool) (level : ℤ) (removePrivs : List Luid) (removeGroups : List Sid) :
    Option Token :=
  if !primary && (decide (level < 0) || decide (3 < level) || (!src.primary && decide (src.impersonationLevel < level)))
  then none
  else some
    { user := src.user
      groups := src.groups.map (copyGroup removeGroups)
      privileges := (src.privileges.filter fun p => !filterPrivilege p removePrivs).map fun p =>
        { luid := p.luid, enabled := p.enabled, byDefault := p.enabled }
      primaryGroup := src.primaryGroup
      primary := primary
      impersonationLevel := if primary then -1 else level }

def tokenDisablePrivileges (t : Token) : Token :=
  { t with privileges := t.privileges.map fun p => { p with enabled := false } }

def restrict (src : Token) (primary : Bool) (level : ℤ) (removePrivs : List Luid) (removeGroups : List Sid)
    (disableAll : Bool) : Option Token :=
  (tokenDuplicate src primary level removePrivs removeGroups).map fun t =>
    if disableAll then tokenDisablePrivileges t else t

namespace Token

def findPrivilege (t : Token) (luid : Luid) (enabledOnly : Bool) : Option Privilege :=
  match t.privileges.find? fun p => luid == p.luid with
  | none => none
  | some p => if enabledOnly && !p.enabled then none else some p

def checkPrivilege (t : Token) (luid : Luid) : Bool := (t.findPrivilege luid true).any (·.enabled)

def sidPresent (t : Token) (sid : Sid) (deny : Bool) : Bool :=
  equalSid t.user sid || t.groups.any fun g =>
    g.attrs &&& seGroupEnabled != 0 && !(!deny && g.attrs &&& seGroupUseForDenyOnly != 0) && equalSid g.sid sid

end Token

structure GenericMap where
  read : Rights
  write : Rights
  exec : Rights
  all : Rights

def mapAccess (access : Rights) (mapping : GenericMap) : Rights :=
  let access := if access &&& genericRead != 0 then access ||| mapping.read else access
  let access := if access &&& genericWrite != 0 then access ||| mapping.write else access
  let access := if access &&& genericExecute != 0 then access ||| mapping.exec else access
  let access := if access &&& genericAll != 0 then access ||| mapping.all else access
  access &&& ~~~(genericRead ||| genericWrite ||| genericExecute ||| genericAll)

section Walk

variable (m : ByteMem) (t : Token) (mapping : GenericMap)

def applies (ace : ℕ) (type : ℕ) : Bool := !(aceFlags m ace &&& inheritOnlyAce != 0) && aceType m ace == type

def denies (ace : ℕ) : Bool := applies m ace 1 && t.sidPresent (sidAt m (aceSid ace)) true

def allows (ace : ℕ) : Bool := applies m ace 0 && t.sidPresent (sidAt m (aceSid ace)) false

def aceRights (ace : ℕ) : Rights := mapAccess (aceMask m ace) mapping

def visitAce (desired : Rights) (ace : ℕ) (current denied : Rights) : (Rights × Rights) × Bool :=
  if denies m t ace then
    if desired &&& maximumAllowed != 0 then ((current, denied ||| aceRights m mapping ace), false)
    else ((current, denied ||| (aceRights m mapping ace &&& ~~~current)), desired &&& aceRights m mapping ace != 0)
  else if allows m t ace then
    if desired &&& maximumAllowed != 0 then ((current ||| aceRights m mapping ace, denied), false)
    else ((current ||| (aceRights m mapping ace &&& ~~~denied), denied), false)
  else ((current, denied), false)

/-- The loop of `token_access_check` over the ACEs. Nothing is granted yet while it runs, so the rights that
are granted are the desired ones only if there are none. -/
def walk (desired : Rights) : List ℕ → Rights → Rights → Rights × Rights
  | [], current, denied => (current, denied)
  | ace :: rest, current, denied =>
    if aceFlags m ace &&& inheritOnlyAce != 0 then walk desired rest current denied
    else
      let (rights, done) := visitAce m t mapping desired ace current denied
      if done || desired == 0 then rights else walk desired rest rights.1 rights.2

end Walk

structure Outcome where
  ret : Status
  granted : Rights
  status : Option Status
  deriving DecidableEq, Repr

def conclude (desired current denied : Rights) : Outcome :=
  let granted :=
    if desired &&& maximumAllowed != 0 then current &&& ~~~denied
    else if current &&& desired == desired then current &&& desired
    else 0
  ⟨statusSuccess, granted, some (if granted != 0 then statusSuccess else statusAccessDenied)⟩

def checkDacl (m : ByteMem) (t : Token) (mapping : GenericMap) (desired current : Rights) (owner dacl : ℕ) : Outcome :=
  let isOwner := t.sidPresent (sidAt m owner) false
  let current := if isOwner then current ||| ownerRights else current
  if isOwner && desired == current then ⟨statusSuccess, current, some statusSuccess⟩
  else
    let (current, denied) := walk m t mapping desired (aces m dacl) current 0
    conclude desired current denied

def tokenAccessCheck (m : ByteMem) (t : Token) (mapping : GenericMap) (desired : Rights) (privCount : Option ℕ) :
    Outcome :=
  if desired &&& (genericRead ||| genericWrite ||| genericExecute ||| genericAll) != 0 then
    ⟨statusGenericNotMapped, 0, none⟩
  else
    match sdGetOwner m, sdGetGroup m with
    | some owner, some _ =>
      match daclPresent m, sdGetDacl m with
      | true, some dacl =>
        if desired &&& accessSystemSecurity != 0 then
          if t.checkPrivilege seSecurityPrivilege then
            if privCount.any (· < 1) then ⟨statusBufferTooSmall, 0, none⟩
            else if desired == accessSystemSecurity then ⟨statusSuccess, accessSystemSecurity, some statusSuccess⟩
            else checkDacl m t mapping desired accessSystemSecurity owner dacl
          else ⟨statusSuccess, 0, some statusPrivilegeNotHeld⟩
        else checkDacl m t mapping desired 0 owner dacl
      | _, _ =>
        ⟨statusSuccess, if desired &&& maximumAllowed != 0 then mapping.all else desired, some statusSuccess⟩
    | _, _ => ⟨statusInvalidSecurityDescr, 0, none⟩

end WinePpc64.Security
