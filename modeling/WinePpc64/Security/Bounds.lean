import WinePpc64.Security.Descriptor

namespace WinePpc64.Security

open Lib

variable {m : ByteMem} {size : ℕ} {part : Option ℕ}

structure AceWithin (m : ByteMem) (size ace : ℕ) : Prop where
  header : ace + aceHeader ≤ size
  whole : ace + aceSize m ace ≤ size
  sid : aceSid ace + sidLen m (aceSid ace) ≤ size

structure AclWithin (m : ByteMem) (size acl : ℕ) : Prop where
  header : acl + aclHeader ≤ size
  aces : ∀ ace ∈ aces m acl, AceWithin m size ace

structure Within (m : ByteMem) (size : ℕ) : Prop where
  header : sdHeader ≤ size
  owner : ∀ sid ∈ sdGetOwner m, sid + ownerLen m ≤ size ∧ sid + sidLen m sid ≤ size
  group : ∀ sid ∈ sdGetGroup m, sid + groupLen m ≤ size ∧ sid + sidLen m sid ≤ size
  sacl : ∀ acl ∈ sdGetSacl m, acl + saclLen m ≤ size ∧ AclWithin m size acl
  dacl : ∀ acl ∈ sdGetDacl m, acl + daclLen m ≤ size ∧ AclWithin m size acl

def Short (m : ByteMem) (size ace : ℕ) : Prop := aceSize m ace < aceHeader → aceSid ace + sidLen m (aceSid ace) ≤ size

theorem aceSize_lt (m : ByteMem) (ace : ℕ) : aceSize m ace < 2 ^ 16 := by
  have := leNat_lt (m.load (ace + 2) 2)
  rw [ByteMem.length_load] at this
  exact this

theorem acesValid_within {n left ace stop : ℕ} (h : acesValid m n left ace = true) (hstop : ace + left ≤ stop) :
    ∀ x ∈ acesFrom m n ace, x + aceHeader ≤ stop ∧ x + aceSize m x ≤ stop ∧
      (aceHeader ≤ aceSize m x → aceSid x + sidLen m (aceSid x) ≤ stop) := by
  induction n generalizing left ace with
  | zero =>
    intro x hx
    cases hx
  | succ n ih =>
    unfold acesValid at h
    split at h
    next => cases h
    next hfits =>
      split at h
      · cases h
      · split at h
        next => cases h
        next hsid =>
          rw [not_or, not_lt] at hfits
          intro x hx
          rcases List.mem_cons.mp hx with rfl | hx
          · refine ⟨by omega, by omega, fun hlong => ?_⟩
            have hlt := aceSize_lt m x
            have hroom : (aceSize m x + 2 ^ 32 - aceHeader) % 2 ^ 32 = aceSize m x - aceHeader := by omega
            rw [hroom, Bool.not_eq_true', Bool.not_eq_false, sidValidSize, Bool.and_eq_true, decide_eq_true_eq,
              decide_eq_true_eq] at hsid
            unfold aceSid at hsid ⊢
            omega
          · apply ih h _ x hx
            unfold aceNext
            omega

theorem aclIsValid_within {acl len : ℕ} (h : aclIsValid m acl len = true) (hlen : acl + len ≤ size) :
    AclWithin m size acl ↔ ∀ ace ∈ aces m acl, Short m size ace := by
  unfold aclIsValid at h
  split at h
  next => cases h
  next hheader =>
    have hstop : aceFirst acl + (min len maxAclLen - aclHeader) ≤ size := by
      unfold aceFirst
      omega
    have hwalk := acesValid_within h hstop
    constructor
    · intro hwithin ace hace _
      exact (hwithin.aces ace hace).sid
    intro hshort
    refine ⟨by omega, fun ace hace => ?_⟩
    obtain ⟨hhead, hwhole, hsid⟩ := hwalk ace hace
    refine ⟨hhead, hwhole, ?_⟩
    rcases Nat.lt_or_ge (aceSize m ace) aceHeader with hlt | hge
    · exact hshort ace hace hlt
    · exact hsid hge

theorem partSidValid_within {offset len : ℕ} (h : partSidValid m size offset len part = true)
    (hpart : ∀ sid ∈ part, sid = offset) : ∀ sid ∈ part, sid + len ≤ size ∧ sid + sidLen m sid ≤ size := by
  intro sid hsid
  unfold partSidValid at h
  rw [Bool.and_eq_true, Bool.not_eq_true', Bool.or_eq_false_iff, decide_eq_false_iff_not, decide_eq_false_iff_not,
    Option.all_eq_true] at h
  have hvalid := h.2 sid hsid
  rw [sidValidSize, Bool.and_eq_true, decide_eq_true_eq, decide_eq_true_eq] at hvalid
  have := hpart sid hsid
  omega

theorem partAclValid_within {offset len : ℕ} (h : partAclValid m size offset len part = true)
    (hpart : ∀ acl ∈ part, acl = offset) : ∀ acl ∈ part, acl + len ≤ size ∧
      (AclWithin m size acl ↔ ∀ ace ∈ aces m acl, Short m size ace) := by
  intro acl hacl
  unfold partAclValid at h
  rw [Bool.and_eq_true, Bool.not_eq_true', Bool.or_eq_false_iff, decide_eq_false_iff_not, decide_eq_false_iff_not,
    Option.all_eq_true] at h
  have hlen : acl + len ≤ size := by
    have := hpart acl hacl
    omega
  exact ⟨hlen, aclIsValid_within (h.2 acl hacl) hlen⟩

theorem mem_part {len a offset : ℕ} (h : a ∈ if len ≠ 0 then some offset else none) : a = offset := by
  rw [Option.mem_def, Option.ite_none_right_eq_some] at h
  exact (Option.some.inj h.2).symm

/-- An accepted descriptor is read in bounds if no ACE is shorter than its header and SID. -/
theorem accepted_within_iff (m : ByteMem) (size : ℕ) (h : sdIsValid m size = true) :
    Within m size ↔ (∀ acl ∈ sdGetSacl m, ∀ ace ∈ aces m acl, Short m size ace) ∧
      ∀ acl ∈ sdGetDacl m, ∀ ace ∈ aces m acl, Short m size ace := by
  unfold sdIsValid at h
  simp only [Bool.and_eq_true, decide_eq_true_eq] at h
  obtain ⟨⟨⟨⟨hheader, howner⟩, hgroup⟩, hsacl⟩, hdacl⟩ := h
  have hsacl := partAclValid_within hsacl fun _ => mem_part
  have hdacl := partAclValid_within hdacl fun _ => mem_part
  constructor
  · intro hwithin
    constructor
    · intro acl hacl
      exact (hsacl acl hacl).2.mp (hwithin.sacl acl hacl).2
    · intro acl hacl
      exact (hdacl acl hacl).2.mp (hwithin.dacl acl hacl).2
  · rintro ⟨hs, hd⟩
    refine ⟨hheader, ?_, ?_, ?_, ?_⟩
    · exact partSidValid_within howner fun _ => mem_part
    · exact partSidValid_within hgroup fun _ => mem_part
    · intro acl hacl
      obtain ⟨hlen, hiff⟩ := hsacl acl hacl
      exact ⟨hlen, hiff.mpr (hs acl hacl)⟩
    · intro acl hacl
      obtain ⟨hlen, hiff⟩ := hdacl acl hacl
      exact ⟨hlen, hiff.mpr (hd acl hacl)⟩

def oneAce (aclSize : Octet) (ace : List Octet) : List Octet :=
  [4, 0, 0, 0, 12, 0, 0, 0, 12, 0, 0, 0, 0, 0, 0, 0, aclSize, 0, 0, 0] ++ systemSid ++ systemSid ++
    [2, 0, aclSize, 0, 1, 0, 0, 0] ++ ace

def allowing : ByteMem := memOf (oneAce 28 ([0, 0, 20, 0, 1, 0, 0, 0] ++ systemSid))

theorem accepted_within_iff_allowing : sdIsValid allowing 72 = true ∧
    (Within allowing 72 ↔ (∀ acl ∈ sdGetSacl allowing, ∀ ace ∈ aces allowing acl, Short allowing 72 ace) ∧
      ∀ acl ∈ sdGetDacl allowing, ∀ ace ∈ aces allowing acl, Short allowing 72 ace) :=
  ⟨by decide, accepted_within_iff allowing 72 (by decide)⟩

def truncated : ByteMem := memOf (oneAce 16 [0, 0, 0, 0, 1, 0, 0, 0])

theorem short_ace_reads_outside : sdIsValid truncated 60 = true ∧ ¬Within truncated 60 := by
  refine ⟨by decide, fun hwithin => ?_⟩
  have hace := (hwithin.dacl 44 (by decide)).2.aces 52 (by decide)
  exact absurd hace.sid (by decide)

end WinePpc64.Security
