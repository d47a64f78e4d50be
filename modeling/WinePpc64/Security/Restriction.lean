import WinePpc64.Security.AccessWalk

namespace WinePpc64.Security

open Lib List Function

variable {m : ByteMem} {src copy t : Token} {mapping : GenericMap} {desired current : Rights} {owner dacl : ℕ}

structure Weaker (copy src : Token) : Prop where
  sid : ∀ sid deny, copy.sidPresent sid deny = true → src.sidPresent sid deny = true
  privilege : ∀ luid, copy.checkPrivilege luid = true → src.checkPrivilege luid = true

variable {removeGroups : List Sid} {privCount : Option ℕ}

theorem copyGroup_enabled {g : Group}
    (h : ((copyGroup removeGroups g).attrs &&& seGroupEnabled != 0) = true) : copyGroup removeGroups g = g := by
  unfold copyGroup at h ⊢
  split
  next hfilter =>
    rw [if_pos hfilter] at h
    have hoff : ((g.attrs &&& ~~~(seGroupEnabled ||| seGroupEnabledByDefault)) ||| seGroupUseForDenyOnly) &&&
        seGroupEnabled = 0#32 := by
      rw [and_eq_zero_iff]
      intro i hi
      by_contra hbit
      rw [Bool.not_eq_false] at hbit
      have hlt := BitVec.lt_of_getLsbD hbit
      simp only [BitVec.getLsbD_or, BitVec.getLsbD_and, BitVec.getLsbD_not, hbit, Bool.true_or, Bool.not_true,
        Bool.and_false, Bool.false_or] at hi
      unfold seGroupEnabled at hbit
      unfold seGroupUseForDenyOnly at hi
      interval_cases i <;> simp_all
    rw [hoff] at h
    cases h
  next => rfl

theorem sidPresent_copy {sid : Sid} {deny : Bool} (huser : copy.user = src.user)
    (hgroups : copy.groups = src.groups.map (copyGroup removeGroups)) (h : copy.sidPresent sid deny = true) :
    src.sidPresent sid deny = true := by
  unfold Token.sidPresent at h ⊢
  rw [huser, hgroups, any_map, Bool.or_eq_true, any_eq_true] at h
  rw [Bool.or_eq_true, any_eq_true]
  refine h.imp id ?_
  rintro ⟨g, hg, hpresent⟩
  refine ⟨g, hg, ?_⟩
  have henabled : ((copyGroup removeGroups g).attrs &&& seGroupEnabled != 0) = true := by
    simp only [comp_apply, Bool.and_eq_true] at hpresent
    exact hpresent.1.1
  rw [comp_apply, copyGroup_enabled henabled] at hpresent
  exact hpresent

theorem checkPrivilege_iff {luid : Luid} : t.checkPrivilege luid = true ↔
    ∃ p, (t.privileges.find? fun p => luid == p.luid) = some p ∧ p.enabled = true := by
  unfold Token.checkPrivilege Token.findPrivilege
  cases hfind : t.privileges.find? fun p => luid == p.luid with
  | none => simp
  | some p => cases henabled : p.enabled <;> simp [henabled]

theorem restrict_weaker {primary : Bool} {level : ℤ} {removePrivs : List Luid} {disableAll : Bool}
    (h : restrict src primary level removePrivs removeGroups disableAll = some copy) : Weaker copy src := by
  obtain ⟨dup, hdup, hcopy⟩ := Option.map_eq_some_iff.mp h
  obtain ⟨-, hsome⟩ := Option.ite_none_left_eq_some.mp hdup
  cases hsome
  constructor
  · intro sid deny
    subst hcopy
    cases disableAll with
    | false => exact sidPresent_copy rfl rfl
    | true => exact sidPresent_copy rfl rfl
  · intro luid hcheck
    obtain ⟨p, hfind, henabled⟩ := checkPrivilege_iff.mp hcheck
    subst hcopy
    cases disableAll with
    | true =>
      obtain ⟨q, -, rfl⟩ := mem_map.mp (mem_of_find?_eq_some hfind)
      cases henabled
    | false =>
      rw [if_neg Bool.false_ne_true, find?_map, Option.map_eq_some_iff] at hfind
      obtain ⟨q, hq, rfl⟩ := hfind
      -- the filter leaves all the privileges with one LUID or none
      have hsame : (src.privileges.find? fun p => luid == p.luid) = some q := by
        rw [find?_filter] at hq
        obtain ⟨hkeep, hluid⟩ : filterPrivilege q removePrivs = false ∧ (luid == q.luid) = true := by
          have hboth := find?_some hq
          simpa only [comp_apply, decide_eq_true_eq, Bool.not_eq_true'] using hboth
        rw [← hq]
        apply find?_congr
        intro x _
        cases hx : luid == x.luid with
        | false => simp [hx]
        | true =>
          have heq : x.luid = q.luid := (beq_iff_eq.mp hx).symm.trans (beq_iff_eq.mp hluid)
          have : filterPrivilege x removePrivs = false := by
            unfold filterPrivilege at hkeep ⊢
            rw [heq]
            exact hkeep
          simp [hx, this]
      exact checkPrivilege_iff.mpr ⟨q, hsame, henabled⟩

theorem Weaker.allows (h : Weaker copy src) {ace : ℕ} (ha : allows m copy ace = true) : allows m src ace = true := by
  unfold Security.allows at ha ⊢
  rw [Bool.and_eq_true] at ha ⊢
  exact ⟨ha.1, h.sid _ _ ha.2⟩

def withOwner (m : ByteMem) (t : Token) (current : Rights) (owner : ℕ) : Rights :=
  if t.sidPresent (sidAt m owner) false then current ||| ownerRights else current

theorem among_withOwner : Among current (withOwner m t current owner) := by
  unfold withOwner
  intro i hi
  split
  · rw [BitVec.getLsbD_or, hi]
    rfl
  · exact hi

theorem Weaker.withOwner (h : Weaker copy src) {base : Rights} (hc : Among current base) :
    Among (withOwner m copy current owner) (withOwner m src base owner) := by
  intro i hi
  rw [Security.withOwner] at hi
  split at hi
  next hcopy =>
    rw [Security.withOwner, if_pos (h.sid _ _ hcopy), BitVec.getLsbD_or, Bool.or_eq_true]
    rw [BitVec.getLsbD_or, Bool.or_eq_true] at hi
    exact hi.imp_left (hc i)
  next => exact among_withOwner i (hc i hi)

theorem Weaker.allowedRights (h : Weaker copy src) {base base' : Rights} (hbase : Among base base') {aces : List ℕ} :
    Among (allowedRights m copy mapping base aces) (allowedRights m src mapping base' aces) := by
  intro i hi
  rw [allowedRights_getLsbD] at hi ⊢
  refine hi.imp (hbase i) ?_
  rintro ⟨ace, hmem, ha, hr⟩
  exact ⟨ace, hmem, h.allows ha, hr⟩

theorem checkDacl_specific {mapping : GenericMap} {current : Rights} {owner dacl : ℕ}
    (hmax : desired &&& maximumAllowed = 0) :
    (Covered m t mapping desired (withOwner m t current owner) (aces m dacl) ∧
      (checkDacl m t mapping desired current owner dacl).granted = desired) ∨
    (¬Covered m t mapping desired (withOwner m t current owner) (aces m dacl) ∧
      (checkDacl m t mapping desired current owner dacl).granted = 0) := by
  have hzero : (desired &&& maximumAllowed != 0) = false := by
    rw [hmax]
    rfl
  unfold checkDacl
  dsimp only
  rw [← withOwner]
  split
  next hearly =>
    rw [Bool.and_eq_true, beq_iff_eq] at hearly
    refine .inl ⟨covered_of_among fun i hi => ?_, hearly.2.symm⟩
    rwa [← hearly.2]
  next =>
    unfold conclude
    rw [hzero]
    by_cases hne : desired = 0#32
    · left
      subst hne
      refine ⟨covered_of_among fun i hi => ?_, ?_⟩
      · simp at hi
      · simp
    · have hiff : Among desired (walk m t mapping desired (aces m dacl) (withOwner m t current owner) 0).1 ↔
          Covered m t mapping desired (withOwner m t current owner) (aces m dacl) :=
        walk_specific hmax hne fun i _ => BitVec.getLsbD_zero
      simp only [Bool.false_eq_true, if_false]
      split
      next hall =>
        rw [beq_iff_eq, and_eq_right_iff] at hall
        exact .inl ⟨hiff.mp hall, and_eq_right_iff.mpr hall⟩
      next hall =>
        rw [beq_iff_eq, and_eq_right_iff] at hall
        exact .inr ⟨fun h => hall (hiff.mpr h), rfl⟩

theorem checkDacl_maximum (hmax : desired &&& maximumAllowed ≠ 0) (hcur : current &&& maximumAllowed = 0) {i : ℕ} :
    (checkDacl m t mapping desired current owner dacl).granted.getLsbD i = true ↔
      (allowedRights m t mapping (withOwner m t current owner) (aces m dacl)).getLsbD i = true ∧
        ∀ ace ∈ aces m dacl, denies m t ace = true → (aceRights m mapping ace).getLsbD i = false := by
  have hnot : ¬desired = withOwner m t current owner := by
    intro heq
    apply hmax
    rw [heq]
    unfold withOwner
    split
    · have hown : ownerRights &&& maximumAllowed = 0#32 := by decide
      refine and_eq_zero_iff.mpr fun j hj => ?_
      rw [BitVec.getLsbD_or, Bool.or_eq_true] at hj
      exact hj.elim (and_eq_zero_iff.mp hcur j) (and_eq_zero_iff.mp hown j)
    · exact hcur
  have hbit : (desired &&& maximumAllowed != 0) = true := by simpa using hmax
  unfold checkDacl
  dsimp only
  rw [← withOwner, if_neg (by rw [Bool.and_eq_true, beq_iff_eq]; exact fun h => hnot h.2)]
  unfold conclude
  rw [if_pos hbit, BitVec.getLsbD_and, BitVec.getLsbD_not, Bool.and_eq_true]
  obtain ⟨hc, hd⟩ := walk_maximum m t mapping (aces m dacl) (withOwner m t current owner) 0 hmax i
  rw [hc, ← allowedRights_getLsbD]
  constructor
  · rintro ⟨hall, hnone⟩
    refine ⟨hall, fun ace hace hdeny => ?_⟩
    by_contra hr
    rw [Bool.and_eq_true, Bool.not_eq_true', ← Bool.not_eq_true, hd] at hnone
    exact hnone.2 (.inr ⟨ace, hace, hdeny, Bool.not_eq_false _ ▸ hr⟩)
  · rintro ⟨hall, hnone⟩
    refine ⟨hall, ?_⟩
    rw [Bool.and_eq_true, Bool.not_eq_true', ← Bool.not_eq_true, hd]
    refine ⟨by simpa using BitVec.lt_of_getLsbD hall, ?_⟩
    rintro (h | ⟨ace, hace, hdeny, hr⟩)
    · simp at h
    · rw [hnone ace hace hdeny] at hr
      cases hr

/-- The token has the privilege and there is room to say so. -/
def held (t : Token) (privCount : Option ℕ) : Bool :=
  t.checkPrivilege seSecurityPrivilege && !privCount.any (· < 1)

theorem Weaker.held (h : Weaker copy src) (hc : held copy privCount = true) : held src privCount = true := by
  unfold Security.held at hc ⊢
  rw [Bool.and_eq_true] at hc ⊢
  exact ⟨h.privilege _ hc.1, hc.2⟩

/-- Asked for alone the right to the SACL is granted before the entries are read, and they do not take it back. -/
theorem system_granted :
    (if desired &&& accessSystemSecurity != 0 then
      if t.checkPrivilege seSecurityPrivilege then
        if privCount.any (· < 1) then ⟨statusBufferTooSmall, 0, none⟩
        else if desired == accessSystemSecurity then ⟨statusSuccess, accessSystemSecurity, some statusSuccess⟩
        else checkDacl m t mapping desired accessSystemSecurity owner dacl
      else ⟨statusSuccess, 0, some statusPrivilegeNotHeld⟩
    else checkDacl m t mapping desired 0 owner dacl : Outcome).granted =
      if (desired &&& accessSystemSecurity != 0) = true ∧ held t privCount = false then 0
      else (checkDacl m t mapping desired
        (if desired &&& accessSystemSecurity != 0 then accessSystemSecurity else 0) owner dacl).granted := by
  cases hask : desired &&& accessSystemSecurity != 0 with
  | false => simp
  | true =>
    rw [held]
    cases hpriv : t.checkPrivilege seSecurityPrivilege with
    | false => simp
    | true =>
      cases hroom : privCount.any (· < 1) with
      | true => simp
      | false =>
        simp only [if_true, Bool.false_eq_true, if_false, Bool.not_false, Bool.and_self, reduceCtorEq, and_false]
        split
        next heq =>
          rw [beq_iff_eq] at heq
          subst heq
          have hmax : accessSystemSecurity &&& maximumAllowed = 0 := by decide
          rcases checkDacl_specific hmax with ⟨-, hg⟩ | ⟨hno, -⟩
          · exact hg.symm
          · exact absurd (covered_of_among among_withOwner) hno
        next => rfl

section Rights

variable (m : ByteMem) (t : Token) (mapping : GenericMap)

def Allowed (aces : List ℕ) (i : ℕ) : Prop :=
  ∃ ace ∈ aces, allows m t ace = true ∧ (aceRights m mapping ace).getLsbD i = true

def Undenied (aces : List ℕ) (i : ℕ) : Prop :=
  ∀ ace ∈ aces, denies m t ace = true → (aceRights m mapping ace).getLsbD i = false

/-- What is given before the entries are read, by the privilege if it is asked for and to the owner. -/
def given (owner : ℕ) (desired : Rights) : Rights :=
  withOwner m t (if desired.getLsbD 24 && t.checkPrivilege seSecurityPrivilege then accessSystemSecurity else 0) owner

/-- The entries, in their order, and the token's privilege give it the right it asks for. -/
def Entitled (owner : ℕ) (aces : List ℕ) (desired : Rights) (privCount : Option ℕ) (i : ℕ) : Prop :=
  (desired.getLsbD 24 = true → held t privCount = true) ∧
  if desired &&& maximumAllowed = 0 then
    Covered m t mapping desired (given m t owner desired) aces ∧ desired.getLsbD i = true
  else ((given m t owner desired).getLsbD i = true ∨ Allowed m t mapping aces i) ∧ Undenied m t mapping aces i

end Rights

theorem Weaker.given (h : Weaker copy src) : Among (given m copy owner desired) (given m src owner desired) := by
  refine h.withOwner fun i hi => ?_
  split at hi
  next hask =>
    rw [Bool.and_eq_true] at hask
    rwa [hask.1, h.privilege _ hask.2]
  next => simp at hi

structure HasDacl (m : ByteMem) (owner dacl : ℕ) : Prop where
  owner : sdGetOwner m = some owner
  group : sdGetGroup m ≠ none
  present : daclPresent m = true
  dacl : sdGetDacl m = some dacl

def genericRights : Rights := genericRead ||| genericWrite ||| genericExecute ||| genericAll

section Checked

variable (t) (privCount)

theorem asks_system : (desired &&& accessSystemSecurity != 0) = desired.getLsbD 24 := by
  have heq : accessSystemSecurity = BitVec.twoPow 32 24 := by decide
  have h := twoPow_and_eq_zero (show 24 < 32 by decide) desired
  rw [BitVec.and_comm, ← heq] at h
  cases hd : desired.getLsbD 24 with
  | false =>
    rw [h.mpr hd]
    rfl
  | true => exact bne_iff_ne.mpr fun hz => by rw [h.mp hz] at hd; cases hd

variable (h : HasDacl m owner dacl) (hgen : desired &&& genericRights = 0)
include h hgen

theorem granted_eq :
    (tokenAccessCheck m t mapping desired privCount).granted =
      if desired.getLsbD 24 = true ∧ held t privCount = false then 0
      else (checkDacl m t mapping desired (if desired.getLsbD 24 && t.checkPrivilege seSecurityPrivilege then
        accessSystemSecurity else 0) owner dacl).granted := by
  obtain ⟨group, hgroup⟩ := Option.ne_none_iff_exists'.mp h.group
  unfold tokenAccessCheck
  rw [← genericRights, hgen, h.owner, hgroup, h.present, h.dacl]
  simp only [bne_self_eq_false, Bool.false_eq_true, if_false]
  rw [system_granted, asks_system]
  refine ite_congr rfl (fun _ => rfl) fun hheld => ?_
  cases hask : desired.getLsbD 24 with
  | false => rfl
  | true =>
    have hpriv : held t privCount = true := Bool.not_eq_false _ ▸ fun hn => hheld ⟨hask, hn⟩
    rw [(Bool.and_eq_true_iff.mp hpriv).1]
    rfl

theorem granted_iff {i : ℕ} : (tokenAccessCheck m t mapping desired privCount).granted.getLsbD i = true ↔
    Entitled m t mapping owner (aces m dacl) desired privCount i := by
  have hcur (b : Bool) : (if b then accessSystemSecurity else 0) &&& maximumAllowed = 0 := by
    cases b <;> decide
  rw [granted_eq t privCount h hgen, Entitled]
  split
  next hask => exact iff_of_false (by simp) fun hc => by rw [hc.1 hask.1] at hask; cases hask.2
  next hask =>
    rw [and_iff_right fun ha => Bool.not_eq_false _ ▸ fun hn => hask ⟨ha, hn⟩]
    by_cases hmax : desired &&& maximumAllowed = 0
    · rw [if_pos hmax]
      rcases checkDacl_specific hmax with ⟨hc, hd⟩ | ⟨hc, hd⟩
      · rw [hd]
        exact (and_iff_right hc).symm
      · rw [hd]
        exact iff_of_false (by simp) fun hn => hc hn.1
    · rw [if_neg hmax, checkDacl_maximum hmax (hcur _), allowedRights_getLsbD]
      rfl

end Checked

def Lost (m : ByteMem) (src copy : Token) (ace : ℕ) : Prop := denies m src ace = true ∧ denies m copy ace = false

/-- The copy is not entitled to a right the entry names, or the token has all it asks for before the entry. -/
def Harmless (m : ByteMem) (src copy : Token) (mapping : GenericMap) (owner : ℕ) (aces : List ℕ) (desired : Rights)
    (privCount : Option ℕ) (pre : List ℕ) (ace : ℕ) : Prop :=
  (∀ i, (aceRights m mapping ace).getLsbD i = true → ¬Entitled m copy mapping owner aces desired privCount i) ∨
    (desired &&& maximumAllowed = 0 ∧ Among desired (allowedRights m src mapping (given m src owner desired) pre))

theorem entitled_iff (h : Weaker copy src) {aces : List ℕ} :
    (∀ i, Entitled m copy mapping owner aces desired privCount i →
      Entitled m src mapping owner aces desired privCount i) ↔
      ∀ pre ace post, aces = pre ++ ace :: post → Lost m src copy ace →
        Harmless m src copy mapping owner aces desired privCount pre ace := by
  by_cases hmax : desired &&& maximumAllowed = 0
  · simp only [Harmless, Entitled, if_pos hmax, and_iff_right hmax]
    constructor
    · intro hall pre ace post heq hlost
      refine or_iff_not_imp_left.mpr fun hsome => ?_
      push Not at hsome
      obtain ⟨i, hr, hheld, hcopy, hi⟩ := hsome
      obtain ⟨-, hsrc, -⟩ := hall i ⟨hheld, hcopy, hi⟩
      refine hsrc.before pre ace post heq ⟨hlost.1, fun hz => ?_⟩
      rw [and_eq_zero_iff.mp hz i hi] at hr
      cases hr
    · rintro hlost i ⟨hheld, hcopy, hi⟩
      refine ⟨fun ha => h.held (hheld ha), ⟨hcopy.all.trans (h.allowedRights h.given), ?_⟩, hi⟩
      intro pre ace post heq hblock
      cases hdeny : denies m copy ace with
      | true => exact (hcopy.before pre ace post heq ⟨hdeny, hblock.2⟩).trans (h.allowedRights h.given)
      | false =>
        refine (hlost pre ace post heq ⟨hblock.1, hdeny⟩).resolve_left fun hnone => hblock.2 ?_
        exact and_eq_zero_iff.mpr fun j hj => Bool.eq_false_iff.mpr fun hr => hnone j hr ⟨hheld, hcopy, hj⟩
  · simp only [Harmless, Entitled, hmax, if_false, false_and, or_false]
    constructor
    · rintro hall pre ace post heq hlost i hr hcopy
      have hsrc := (hall i hcopy).2.2 ace (by rw [heq]; simp) hlost.1
      rw [hsrc] at hr
      cases hr
    · rintro hlost i ⟨hheld, hallow, hund⟩
      refine ⟨fun ha => h.held (hheld ha), hallow.imp (h.given i) ?_, fun ace hace hdeny => ?_⟩
      · rintro ⟨ace, hmem, ha, hr⟩
        exact ⟨ace, hmem, h.allows ha, hr⟩
      · cases hd : denies m copy ace with
        | true => exact hund ace hace hd
        | false =>
          obtain ⟨pre, post, heq⟩ := append_of_mem hace
          refine Bool.eq_false_iff.mpr fun hr => ?_
          exact hlost pre ace post heq ⟨hdeny, hd⟩ i hr ⟨hheld, hallow, hund⟩

/-- Without a list to walk the answer is the same for every token that is let through. -/
theorem granted_of_no_walk (hno : ∀ owner dacl, HasDacl m owner dacl → desired &&& genericRights ≠ 0) :
    (tokenAccessCheck m src mapping desired privCount).granted =
      (tokenAccessCheck m copy mapping desired privCount).granted := by
  unfold tokenAccessCheck
  split
  · rfl
  next hgen =>
    split
    next owner group howner hgroup =>
      split
      next dacl hpresent hdacl =>
        have hdesc : HasDacl m owner dacl := ⟨howner, by rw [hgroup]; exact Option.some_ne_none _, hpresent, hdacl⟩
        exact absurd (bne_iff_ne.mpr (hno owner dacl hdesc)) hgen
      next => rfl
    next => rfl

/-- A restricted copy gains nothing exactly if the denials it has lost are harmless. -/
theorem restricted_gains_nothing_iff {primary : Bool} {level : ℤ} {removePrivs : List Luid} {removeGroups : List Sid}
    {disableAll : Bool} (h : restrict src primary level removePrivs removeGroups disableAll = some copy) (m : ByteMem)
    (mapping : GenericMap) (desired : Rights) (privCount : Option ℕ) :
    (tokenAccessCheck m copy mapping desired privCount).granted &&&
        ~~~(tokenAccessCheck m src mapping desired privCount).granted = 0 ↔
      ∀ owner dacl, HasDacl m owner dacl → desired &&& genericRights = 0 →
        ∀ pre ace post, aces m dacl = pre ++ ace :: post → Lost m src copy ace →
          Harmless m src copy mapping owner (aces m dacl) desired privCount pre ace := by
  refine and_not_eq_zero_iff.trans ?_
  by_cases hwalk : ∃ owner dacl, HasDacl m owner dacl ∧ desired &&& genericRights = 0
  · obtain ⟨owner, dacl, hdesc, hgen⟩ := hwalk
    have hiff : (∀ i, Entitled m copy mapping owner (aces m dacl) desired privCount i → _) ↔ _ :=
      entitled_iff (restrict_weaker h)
    simp only [← granted_iff _ privCount hdesc hgen] at hiff
    refine hiff.trans ⟨fun hall owner' dacl' hdesc' _ => ?_, fun hall => hall owner dacl hdesc hgen⟩
    cases hdesc.owner.symm.trans hdesc'.owner
    cases hdesc.dacl.symm.trans hdesc'.dacl
    exact hall
  · have hno (owner dacl : ℕ) (hdesc : HasDacl m owner dacl) : desired &&& genericRights ≠ 0 :=
      fun hgen => hwalk ⟨owner, dacl, hdesc, hgen⟩
    rw [granted_of_no_walk hno]
    exact iff_of_true (fun _ hi => hi) fun owner dacl hdesc hgen => absurd hgen (hno owner dacl hdesc)

namespace Denied

def userSid : Sid := [1, 1, 0, 0, 0, 0, 0, 5, 11, 0, 0, 0]

def groupSid : Sid := [1, 1, 0, 0, 0, 0, 0, 5, 4, 0, 0, 0]

def member : Token := ⟨userSid, [⟨groupSid, seGroupEnabled⟩], [], 0, true, -1⟩

def restricted : Token := ⟨userSid, [⟨groupSid, seGroupUseForDenyOnly⟩], [], 0, true, -1⟩

def descriptor : ByteMem := memOf ([4, 0, 0, 0, 12, 0, 0, 0, 12, 0, 0, 0, 0, 0, 0, 0, 48, 0, 0, 0] ++ systemSid ++ systemSid ++
  [2, 0, 48, 0, 2, 0, 0, 0] ++ [1, 0, 20, 0, 1, 0, 0, 0] ++ groupSid ++ [0, 0, 20, 0, 1, 0, 0, 0] ++ userSid)

def identityMap : GenericMap := ⟨0, 0, 0, 0⟩

theorem restricted_gains_nothing_iff_member :
    restrict member true 0 [] [groupSid] false = some restricted ∧
      ((tokenAccessCheck descriptor restricted identityMap 2 none).granted &&&
          ~~~(tokenAccessCheck descriptor member identityMap 2 none).granted = 0 ↔
        ∀ owner dacl, HasDacl descriptor owner dacl → 2 &&& genericRights = 0 →
          ∀ pre ace post, aces descriptor dacl = pre ++ ace :: post → Lost descriptor member restricted ace →
            Harmless descriptor member restricted identityMap owner (aces descriptor dacl) 2 none pre ace) :=
  have h : restrict member true 0 [] [groupSid] false = some restricted := by decide
  ⟨h, restricted_gains_nothing_iff h descriptor identityMap 2 none⟩

theorem restricted_gains_right : sdIsValid descriptor 92 = true ∧
    restrict member true 0 [] [groupSid] false = some restricted ∧
    (tokenAccessCheck descriptor restricted identityMap 1 none).granted = 1 ∧
    (tokenAccessCheck descriptor member identityMap 1 none).granted = 0 := by
  decide

end Denied

end WinePpc64.Security
