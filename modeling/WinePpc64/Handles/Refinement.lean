import WinePpc64.Handles.Map

namespace WinePpc64.Handles

open BitVec Function Lib Except State Slots

variable {inherit : Bool} {pol : Policy}

section Entries

variable {s : State} {p : ℕ} {h : Handle} {e : Entry}

theorem entryAt_table (he : entryAt s.slots p h = some e) : ∃ t k, s.table (refOf p h) = some t ∧ decode h = (k : ℕ) ∧
    key p h = (refOf p h, k) ∧ k < t.used ∧ k < t.count ∧ t.entries k = some e := by
  obtain ⟨hneg, hslot⟩ := entryAt_some he
  obtain ⟨k, hk⟩ := Int.eq_ofNat_of_zero_le hneg
  have hkey : key p h = (refOf p h, k) := by rw [key, hk, Int.toNat_natCast]
  rw [hkey, slots, Option.bind_eq_some_iff] at hslot
  obtain ⟨t, ht, hlook⟩ := hslot
  rw [Table.lookup] at hlook
  split at hlook
  next hlt => exact ⟨t, k, ht, hk, hkey, hlt.1, hlt.2, hlook⟩
  next => cases hlook

theorem getHandle_entry (hs : s.Ok) : getHandle s (some p) h = .ok (found s.slots p h) := by
  rw [getHandle, found, entryAt, key]
  cases ht : s.table (refOf p h) with
  | none =>
    have hnone : s.slots (refOf p h, (decode h).toNat) = none := by rw [slots, ht]; rfl
    rw [hnone, ite_self]
    rfl
  | some t =>
    have hused := (hs _ _ ht).used_le
    dsimp only
    by_cases hneg : decode h < 0
    · rw [if_pos hneg, if_pos (.inl hneg)]
      rfl
    obtain ⟨k, hk⟩ := Int.eq_ofNat_of_zero_le (not_lt.mp hneg)
    rw [if_neg hneg, hk, Int.toNat_natCast, slots_table ht]
    by_cases hlt : k < t.used
    · rw [if_neg (by omega), Table.read_lt (by omega), Table.lookup_of_lt hused hlt]
      rfl
    · rw [if_pos (by omega), Table.lookup_of_le (by omega)]
      rfl

theorem getMagicHandle_entry (hs : s.Ok) (he : entryAt s.slots p h = some e) : getMagicHandle pol h = none := by
  obtain ⟨t, k, ht, hk, -, -, hlt, -⟩ := entryAt_table he
  have hmax := (hs _ _ ht).max
  have hsmall : decode h < maxHandleEntries := by omega
  rw [getMagicHandle, if_neg]
  intro hmem
  simp only [List.mem_cons, List.not_mem_nil, or_false] at hmem
  rcases hmem with rfl | rfl | rfl | rfl | rfl | rfl <;> exact absurd hsmall (by decide)

theorem found_some (he : entryAt s.slots p h = some e) : found s.slots p h = some (decode h, e) := by
  rw [found, he]
  rfl

theorem setAccess_refines (hs : s.Good) (he : entryAt s.slots p h = some e) (access : Rights) :
    ∃ s', setAccess s p h (decode h) e access = .ok s' ∧ s'.Good ∧
      s'.slots = update s.slots (key p h) (some { e with access := access }) := by
  obtain ⟨t, k, ht, hk, hkey, hlt, hcount, hent⟩ := entryAt_table he
  have hslots := slots_set_update (slots_table ht)
    (lookup_update (hs.ok _ _ ht).used_le hlt (some { e with access := access }))
  refine ⟨_, ?_, ⟨hs.ok.set ((hs.ok _ _ ht).set k { e with access := access }), ?_⟩, hkey ▸ hslots⟩
  · rw [setAccess, ht, hk]
    dsimp only
    rw [Table.write_lt hcount]
    rfl
  · rw [State.Counted, hslots, handleCount_set]
    have hslot := (entryAt_some he).2
    rw [hkey] at hslot
    exact hs.counted.replace hslot rfl

theorem setHandleFlags_refines (hs : s.Good) {mask flags : Rights} :
    ∃ s' old, setHandleFlags pol s (some p) h mask flags = .ok (s', old) ∧ s'.Good ∧
      (s'.slots, old) = setFlags pol p h s.slots mask flags := by
  rw [setHandleFlags, setFlags, getHandle_entry hs.ok]
  split
  · exact ⟨s, _, rfl, hs, rfl⟩
  cases he : entryAt s.slots p h with
  | none =>
    rw [found, he]
    exact ⟨s, none, rfl, hs, rfl⟩
  | some e =>
    obtain ⟨s', hset, hgood, hslots⟩ := setAccess_refines hs he (reflag e.access mask flags)
    rw [found_some he]
    refine ⟨s', _, ?_, hgood, Prod.ext hslots rfl⟩
    simp only [Except.bind]
    rw [← reflag, hset]
    rfl

theorem closeHandle_refines (hs : s.Good) (hc : ¬ ClearsGlobal pol s p h) :
    ∃ s' st, closeHandle pol s p h = .ok (s', st) ∧ s'.Good ∧ (s'.slots, st) = close pol p h s.slots := by
  have hfound := getHandle_entry (p := p) (h := h) hs.ok
  rw [Slots.close]
  rcases closeHandle_cases hs.ok hc with ⟨heq, hnone⟩ | ⟨i, e, heq, hsome, hkeeps⟩ |
    ⟨t, t', k, e, hlocal, ht, hk, hlt, hent, hprot, hopen, ht', heq⟩
  · have he : entryAt s.slots p h = none := Option.map_eq_none_iff.mp (ok.inj (hfound.symm.trans hnone))
    rw [he]
    exact ⟨s, _, heq, hs, rfl⟩
  · obtain ⟨e', he, hpair⟩ := Option.map_eq_some_iff.mp (ok.inj (hfound.symm.trans hsome))
    cases hpair
    rw [he]
    exact ⟨s, _, heq, hs, (if_pos hkeeps).symm⟩
  have hok := hs.ok _ _ ht
  obtain ⟨t₁, ht₁, hok', -⟩ := clearEntry_eq hok hlt
  obtain ⟨t₂, ht₂, hlook⟩ := clearEntry_lookup hok hlt
  cases ht'.symm.trans ht₁
  cases ht'.symm.trans ht₂
  have hslots := slots_set_update (slots_table ht) hlook
  have hslot : s.slots (.proc p, k) = some e := by
    rw [slots_table ht, Table.lookup_of_lt hok.used_le hlt, hent]
  obtain ⟨s', hrel, htable, hcounted⟩ := hs.counted.release hslot hslots handleCount_set
  have hdecode : decode h = (k : ℕ) := by rw [decode, hlocal, ← hk]; rfl
  have hkey : key p h = (.proc p, k) := by rw [key, refOf, hlocal, hdecode]; rfl
  have he : entryAt s.slots p h = some e := by rw [entryAt, if_neg (by omega), hkey, hslot]
  rw [hrel] at heq
  refine ⟨s', _, heq, ⟨(hs.ok.set hok').of_table htable, hcounted⟩, ?_⟩
  rw [he]
  dsimp only
  rw [if_neg (by simp [hprot, hopen]), hkey, slots_congr htable, hslots]

end Entries

section Numbers

variable {i : ℕ}

variable (hi : i < maxHandleEntries)
include hi

theorem handleToIndex_indexToHandle : handleToIndex (indexToHandle i) = i := by
  rw [handleToIndex, indexToHandle, toNat_ofNat]
  simp only [maxHandleEntries] at hi
  omega

theorem handleIsGlobal_indexToHandle : handleIsGlobal (indexToHandle i) = false := by
  by_contra hg
  have hge := handleToIndex_global (by simpa using hg)
  rw [handleToIndex_indexToHandle hi] at hge
  omega

theorem decode_indexToHandle : decode (indexToHandle i) = i := by
  rw [decode, handleIsGlobal_indexToHandle hi]
  exact handleToIndex_indexToHandle hi

theorem key_indexToHandle {p : ℕ} : key p (indexToHandle i) = (.proc p, i) := by
  rw [key, decode_indexToHandle hi, refOf, handleIsGlobal_indexToHandle hi]
  rfl

theorem handleIsGlobal_handleIn : handleIsGlobal (handleIn .glob i) = true := by
  have hxor : indexToHandle i ^^^ obfuscator ^^^ obfuscator = indexToHandle i := by simp [xor_assoc]
  rw [handleIn, handleLocalToGlobal, if_neg (indexToHandle_ne_zero hi), handleIsGlobal, decide_eq_true_eq, hxor,
    indexToHandle, toNat_ofNat]
  omega

end Numbers

section Allocations

variable {s : State} {r : Ref} {obj : ℕ} {access : Rights}

/-- The object gets the lowest free entry of the table, if there is room for it. -/
structure Placed (room : Prop) (s : State) (r : Ref) (e : Entry) (res : State × Handle) : Prop where
  good : res.1.Good
  full : ¬room → res.1.slots = s.slots ∧ res.2 = 0
  least : room → lowest s.slots r < maxHandleEntries
  free : room → res.1.slots = update s.slots (r, lowest s.slots r) (some e) ∧ res.2 = handleIn r (lowest s.slots r)

theorem Placed.eq {e : Entry} {res : State × Handle} (h : Placed (s.Room pol r) s r e res) :
    (res.1.slots, res.2) = alloc (s.Room pol) s.slots r e := by
  rw [alloc]
  split
  next hroom => exact Prod.ext (h.free hroom).1 (h.free hroom).2
  next hroom => exact Prod.ext (h.full hroom).1 (h.full hroom).2

theorem Placed.none {room : Prop} (hs : s.Good) (h : ¬room) {e : Entry} : Placed room s r e (s, 0) :=
  ⟨hs, fun _ => ⟨rfl, rfl⟩, fun hroom => absurd hroom h, fun hroom => absurd hroom h⟩

theorem allocIn_refines {t : Table} (hs : s.Good) (ht : t.Ok) (hslots : ∀ j, s.slots (r, j) = t.lookup j)
    {realloc : Bool} : ∃ s' res, allocIn s r t obj access realloc = .ok (s', res) ∧ s'.Good ∧
      (¬t.HasRoom realloc → s'.slots = s.slots ∧ res = 0) ∧ (t.HasRoom realloc → lowest s.slots r < maxHandleEntries ∧
        s'.slots = update s.slots (r, lowest s.slots r) (some ⟨obj, access⟩) ∧
        res = indexToHandle (lowest s.slots r)) := by
  obtain ⟨t', res, heq, hok, hres⟩ := allocEntry_eq ht
  rw [allocIn, heq]
  rcases hres with ⟨hfull, rfl, rfl⟩ | ⟨hroom, hne, i, hfirst, hused, rfl, hentries⟩
  · refine ⟨s.set r t', 0, rfl, ⟨hs.ok.set ht, ?_⟩, fun _ => ⟨slots_set_eq hslots, rfl⟩, fun hroom => absurd hroom hfull⟩
    rw [State.Counted, slots_set_eq hslots, handleCount_set]
    exact hs.counted
  have hlook := lookup_alloc ht.used_le hok.used_le hfirst hused hentries
  have hset := slots_set_update hslots hlook
  have hleast := hfirst.isLeast ht.used_le
  have hlow : lowest s.slots r = i := by
    rw [lowest]
    simp only [hslots]
    exact hleast.csInf_eq
  have hnone : s.slots (r, i) = none := (hslots i).trans hleast.1
  have hcount := hok.used_le
  have hmax := hok.max
  have hstate : (if indexToHandle i = 0 then s.set r t' else (s.set r t').grab obj) =
      (s.set r t').grab obj := if_neg hne
  refine ⟨_, _, rfl, ?_, fun hfull => absurd hroom hfull, fun _ => ⟨by omega, ?_, by rw [hlow]⟩⟩
  · rw [hstate]
    exact ⟨(hs.ok.set hok).of_table (table_grab _ _),
      hs.counted.grab hnone hset handleCount_set⟩
  · rw [hstate, slots_grab, hset, hlow]

theorem allocHandleEntry_refines (pol : Policy) (inherit : Bool) (obj p : ℕ) (hs : s.Good)
    (haccess : access &&& reservedAll = 0) :
    ∃ res, allocHandleEntry pol s (some p) obj access inherit = .ok res ∧
      Placed (s.Room pol (.proc p)) s (.proc p) ⟨obj, withInherit inherit access⟩ res := by
  rw [allocHandleEntry, if_neg (by simpa using haccess)]
  cases ht : s.procs p with
  | none =>
    have ht : s.table (.proc p) = none := ht
    refine ⟨(s, 0), rfl, .none hs ?_⟩
    rw [State.Room, ht]
    nofun
  | some t =>
    have ht : s.table (.proc p) = some t := ht
    obtain ⟨s', res, heq, hgood, hfull, hroom⟩ := allocIn_refines hs (hs.ok _ _ ht) (slots_table ht)
    have hiff : s.Room pol (.proc p) = t.HasRoom (pol.alloc 0) := by rw [State.Room, ht]
    rw [hiff]
    exact ⟨(s', res), heq, hgood, hfull, fun h => (hroom h).1, fun h => (hroom h).2⟩

theorem and_not_reserved {a : Rights} : a &&& ~~~reservedAll &&& reservedAll = 0 := by
  rw [BitVec.and_assoc]
  exact and_zero

theorem allocHandleNoAccessCheck_refines (pol : Policy) (inherit : Bool) (obj p : ℕ) (access : Rights) (hs : s.Good) :
    ∃ res, allocHandleNoAccessCheck pol s (some p) obj access inherit = .ok res ∧
      Placed (s.Room pol (.proc p)) s (.proc p) ⟨obj, withInherit inherit (fullAccess pol obj access)⟩ res :=
  allocHandleEntry_refines pol inherit obj p hs and_not_reserved

theorem allocGlobalHandleNoAccessCheck_refines (pol : Policy) (obj : ℕ) (access : Rights) (hs : s.Good) :
    ∃ res, allocGlobalHandleNoAccessCheck pol s obj access = .ok res ∧
      Placed (s.Room pol .glob) s .glob ⟨obj, access⟩ res := by
  have hcase (t : Table) (ht : t.Ok) (hslots : ∀ j, s.slots (.glob, j) = t.lookup j)
      (hiff : s.Room pol .glob ↔ t.HasRoom (pol.alloc 0)) :
      ∃ res, (allocIn s .glob t obj access (pol.alloc 0)).map (fun r => (r.1, handleLocalToGlobal r.2)) = .ok res ∧
        Placed (s.Room pol .glob) s .glob ⟨obj, access⟩ res := by
    obtain ⟨s', res, heq, hgood, hfull, hroom⟩ := allocIn_refines hs ht hslots
    rw [heq, hiff]
    refine ⟨_, rfl, hgood, fun h => ⟨(hfull h).1, ?_⟩, fun h => (hroom h).1, fun h => ⟨(hroom h).2.1, ?_⟩⟩
    · rw [(hfull h).2]
      rfl
    · rw [(hroom h).2.2]
      rfl
  rw [allocGlobalHandleNoAccessCheck]
  cases ht : s.global with
  | none =>
    have hnone : s.table .glob = none := ht
    dsimp only
    split
    next halloc =>
      refine hcase _ (allocHandleTable_ok (Nat.zero_le _)) (fun j => ?_) ?_
      · rw [slots, hnone]
        rfl
      · rw [State.Room, hnone]
        exact iff_of_true ⟨rfl, halloc⟩ (.inl ⟨0, by decide, rfl⟩)
    next halloc =>
      refine ⟨(s, 0), rfl, .none hs ?_⟩
      rw [State.Room, hnone]
      exact fun h => halloc h.2
  | some t =>
    have ht : s.table .glob = some t := ht
    exact hcase t (hs.ok _ _ ht) (slots_table ht) (by rw [State.Room, ht])

end Allocations

section Duplicate

variable {s : State} {src d obj : ℕ} {srcHandle : Handle} {access source base : Rights} {o : Options}
  {res : State × Handle} {dst : Option ℕ}

theorem askedAccess_reserved {entry : Option (ℤ × Entry)} : askedAccess pol entry obj access o &&& reservedAll = 0 := by
  rw [askedAccess]
  split <;> exact and_not_reserved

theorem reserved_low : ∀ i < 26, reservedAll.getLsbD i = false := by decide

theorem source_flags : ((source &&& reservedAll) >>> reservedShift) <<< reservedShift &&& reservedAll =
    source &&& reservedAll := by
  apply eq_of_getLsbD_eq
  intro i hi
  simp only [getLsbD_and, getLsbD_shiftLeft, getLsbD_ushiftRight, reservedShift]
  by_cases hlow : i < 26
  · simp [reserved_low i hlow]
  · simp [hi, hlow, Nat.add_sub_cancel' (not_lt.mp hlow)]

theorem withInherit_and_not (h : base &&& reservedAll = 0) : withInherit inherit base &&& ~~~reservedAll = base := by
  have hbase : base &&& ~~~reservedAll = base := by
    apply eq_of_getLsbD_eq
    intro i hi
    have hbit := congrArg (getLsbD · i) h
    simp only [getLsbD_and, getLsbD_not, hi, decide_true, Bool.true_and, ofNat_eq_ofNat, getLsbD_zero] at hbit ⊢
    cases hb : base.getLsbD i with
    | false => rfl
    | true =>
      rw [hb, Bool.true_and] at hbit
      rw [hbit]
      rfl
  rw [withInherit]
  split
  · have hinherit : reservedInherit &&& ~~~reservedAll = 0 := by decide
    rw [BitVec.and_comm, BitVec.and_or_distrib_left, BitVec.and_comm, hbase, BitVec.and_comm _ reservedInherit, hinherit]
    exact BitVec.or_zero
  · exact hbase

theorem reflag_source (h : base &&& reservedAll = 0) :
    reflag (withInherit inherit base) (~~~0) ((source &&& reservedAll) >>> reservedShift) =
      base ||| (source &&& reservedAll) := by
  have hmask : ((~~~0 : Rights) <<< reservedShift) &&& reservedAll = reservedAll := by decide
  rw [reflag, hmask, source_flags, withInherit_and_not h]

/-- The last step of `duplicate_handle`. -/
def finish (pol : Policy) (o : Options) (dst : Option ℕ) (source : Rights) (r : State × Handle) :
    Except Fault (State × Handle) :=
  if r.2 ≠ 0 ∧ o.sameAttributes then
    (setHandleFlags pol r.1 dst r.2 (~~~0) ((source &&& reservedAll) >>> reservedShift)).map fun r' => (r'.1, r.2)
  else .ok r

theorem finish_zero : finish pol o dst source (s, 0) = .ok (s, 0) := if_neg fun h => h.1 rfl

theorem finish_refines (pol : Policy) (o : Options) (source : Rights) {m : Slots} (hgood : res.1.Good)
    (hidx : 0 ≤ decode res.2) (hbase : base &&& reservedAll = 0)
    (hslots : res.1.slots = update m (key d res.2) (some ⟨obj, withInherit inherit base⟩)) :
    ∃ s', finish pol o (some d) source res = .ok (s', res.2) ∧ s'.Good ∧
      s'.slots = update m (key d res.2) (some ⟨obj, attributes o inherit source base⟩) := by
  rw [finish]
  by_cases ha : o.sameAttributes = true
  · have hne : res.2 ≠ 0 := fun h0 => absurd (h0 ▸ hidx) (by decide)
    have he : entryAt res.1.slots d res.2 = some ⟨obj, withInherit inherit base⟩ := by
      rw [entryAt, if_neg (not_lt.mpr hidx), hslots, update_self]
    obtain ⟨s', old, hset, hgood', heq⟩ := setHandleFlags_refines hgood
    rw [if_pos ⟨hne, ha⟩, hset]
    refine ⟨s', rfl, hgood', ?_⟩
    rw [setFlags, getMagicHandle_entry hgood.ok he, he] at heq
    have hfirst : s'.slots = _ := congrArg Prod.fst heq
    rw [hfirst, attributes, if_pos ha, ← reflag_source hbase, hslots]
    exact update_idem ..
  · rw [if_neg fun h => ha h.2]
    refine ⟨res.1, rfl, hgood, ?_⟩
    rw [attributes, if_neg ha, hslots]

theorem Placed.finish (pol : Policy) (o : Options) (source : Rights) {room : Prop}
    (h : Placed room s (.proc d) ⟨obj, withInherit inherit base⟩ res) (hbase : base &&& reservedAll = 0) : ∃ res', finish pol o (some d) source res = .ok res' ∧
      Placed room s (.proc d) ⟨obj, attributes o inherit source base⟩ res' := by
  by_cases hroom : room
  · obtain ⟨hslots, hres⟩ := h.free hroom
    have hlow := h.least hroom
    have hkey : key d res.2 = (.proc d, lowest s.slots (.proc d)) := by
      rw [hres]
      exact key_indexToHandle hlow
    have hidx : 0 ≤ decode res.2 := by
      rw [hres, handleIn, decode_indexToHandle hlow]
      omega
    rw [← hkey] at hslots
    obtain ⟨s', heq, hgood, hslots'⟩ := finish_refines pol o source h.good hidx hbase hslots
    rw [hkey] at hslots'
    exact ⟨_, heq, hgood, absurd hroom, h.least, fun _ => ⟨hslots', hres⟩⟩
  · have hzero := (h.full hroom).2
    refine ⟨res, if_neg fun hne => hne.1 hzero, h.good, h.full, h.least, fun hr => absurd hr hroom⟩

theorem sourceObj_entry {e : Entry} (hs : s.Ok) (he : entryAt s.slots src srcHandle = some e) :
    sourceObj pol (found s.slots src srcHandle) srcHandle = some e.obj := by
  rw [sourceObj, getMagicHandle_entry hs he, found_some he]
  rfl

variable (hs : s.Good)
include hs

theorem duplicateMore_refines (pol : Policy) (d obj : ℕ) (inherit : Bool) (source : Rights) (hg : o.makeGlobal = false)
    {asked : Rights} :
    ∃ res, (duplicateMore pol s (some d) obj asked inherit o).bind (finish pol o (some d) source) = .ok res ∧
      res.1.Good ∧ (res.1.slots, res.2) =
        match ((checkCurrent pol obj asked).bind (pol.check (.process d) obj)).map (fullAccess pol obj) with
        | none => (s.slots, 0)
        | some a => alloc (s.Room pol) s.slots (.proc d) ⟨obj, attributes o inherit source a⟩ := by
  rw [duplicateMore]
  cases checkCurrent pol obj asked with
  | none => exact ⟨(s, 0), finish_zero, hs, rfl⟩
  | some a =>
    simp only [Option.bind_some]
    cases pol.check (.process d) obj a with
    | none => exact ⟨(s, 0), finish_zero, hs, rfl⟩
    | some a =>
      obtain ⟨res, heq, hplaced⟩ := allocHandleNoAccessCheck_refines pol inherit obj d a hs
      obtain ⟨res', heq', hplaced'⟩ := hplaced.finish pol o source and_not_reserved
      refine ⟨res', ?_, hplaced'.good, hplaced'.eq⟩
      dsimp only
      rw [if_neg (by simp [hg]), heq]
      exact heq'

theorem duplicateSame_refines (d : ℕ) (inherit : Bool) (source : Rights) (hg : o.makeGlobal = false)
    {asked : Rights} (hasked : asked &&& reservedAll = 0)
    (hobj : sourceObj pol (found s.slots src srcHandle) srcHandle = some obj)
    (hless : asksMore pol (found s.slots src srcHandle) obj access o = false) :
    ∃ res, (duplicateSame pol s src srcHandle (some d) (found s.slots src srcHandle) obj asked inherit o).bind
        (finish pol o (some d) source) = .ok res ∧ res.1.Good ∧
      (InPlace pol s.slots src (some d) srcHandle access o → (res.1.slots, res.2) =
        (update s.slots (key src srcHandle) (some ⟨obj, attributes o inherit source asked⟩), srcHandle)) ∧
      (¬InPlace pol s.slots src (some d) srcHandle access o →
        (res.1.slots, res.2) = alloc (s.Room pol) s.slots (.proc d) ⟨obj, attributes o inherit source asked⟩) := by
  obtain ⟨res, heq, hplaced⟩ := allocHandleEntry_refines pol inherit obj d hs hasked
  obtain ⟨res', heq', hplaced'⟩ := hplaced.finish pol o source hasked
  have hcode : (allocHandleEntry pol s (some d) obj asked inherit).bind (finish pol o (some d) source) = .ok res' := by
    rw [heq]
    exact heq'
  unfold duplicateSame
  rw [if_neg (by simp [hg])]
  cases he : entryAt s.slots src srcHandle with
  | none =>
    have hnot : ¬InPlace pol s.slots src (some d) srcHandle access o := by
      rintro ⟨-, -, -, e, he', -⟩
      cases he.symm.trans he'
    rw [found, he]
    exact ⟨res', hcode, hplaced'.good, fun hin => absurd hin hnot, fun _ => hplaced'.eq⟩
  | some e =>
    have heobj : e.obj = obj := Option.some.inj ((sourceObj_entry hs.ok he).symm.trans hobj)
    rw [found_some he]
    dsimp only
    by_cases hin : o.closeSource = true ∧ some d = some src ∧ isProtected e = false
    · obtain ⟨hclose, hd, hprot⟩ := hin
      cases hd
      obtain ⟨s', hset, hgood, hslots⟩ := setAccess_refines hs he (withInherit inherit asked)
      obtain ⟨s'', heq'', hgood', hslots'⟩ := finish_refines pol o source
        (show (s', srcHandle).1.Good from hgood) (entryAt_some he).1 hasked hslots
      rw [if_pos ⟨hclose, rfl, hprot⟩]
      refine ⟨(s'', srcHandle), ?_, hgood', fun _ => ?_, fun hnot => ?_⟩
      · rw [← withInherit, hset]
        exact heq''
      · rw [hslots', heobj]
      · exact absurd ⟨hg, hclose, rfl, e, he, hprot, heobj ▸ hless⟩ hnot
    · have hnot : ¬InPlace pol s.slots src (some d) srcHandle access o := by
        rintro ⟨-, hclose, hd, e', he', hprot, -⟩
        cases he.symm.trans he'
        exact hin ⟨hclose, hd, hprot⟩
      rw [if_neg hin]
      exact ⟨res', hcode, hplaced'.good, fun hin => absurd hin hnot, fun _ => hplaced'.eq⟩

theorem duplicateHandle_refines (hg : o.makeGlobal = false) :
    ∃ res, duplicateHandle pol s src srcHandle (some d) access inherit o = .ok res ∧ res.1.Good ∧
      (res.1.slots, res.2) = duplicate pol (s.Room pol) src srcHandle s.slots (some d) access inherit o := by
  rw [duplicateHandle, getHandle_entry hs.ok, duplicate]
  simp only [Except.bind]
  cases hobj : sourceObj pol (found s.slots src srcHandle) srcHandle with
  | none => exact ⟨(s, 0), rfl, hs, rfl⟩
  | some obj =>
    have hdst : destination pol (found s.slots src srcHandle) (some d) obj access inherit o = _ := if_neg (by simp [hg])
    dsimp only
    rw [hdst, Option.bind_some]
    cases hmore : asksMore pol (found s.slots src srcHandle) obj access o with
    | true =>
      have hnot : ¬InPlace pol s.slots src (some d) srcHandle access o := by
        rintro ⟨-, -, -, e, he, -, hless⟩
        cases (sourceObj_entry hs.ok he).symm.trans hobj
        cases hmore.symm.trans hless
      obtain ⟨res, heq, hgood, hslots⟩ := duplicateMore_refines hs pol d obj inherit
        (sourceAccess pol (found s.slots src srcHandle) obj) hg
      refine ⟨res, heq, hgood, hslots.trans ?_⟩
      rw [if_neg hnot, if_pos rfl]
      cases ((checkCurrent pol obj (askedAccess pol (found s.slots src srcHandle) obj access o)).bind
        (pol.check (.process d) obj)).map (fullAccess pol obj) <;> rfl
    | false =>
      obtain ⟨res, heq, hgood, hin, hout⟩ := duplicateSame_refines hs d inherit
        (sourceAccess pol (found s.slots src srcHandle) obj) hg askedAccess_reserved hobj hmore
      refine ⟨res, heq, hgood, ?_⟩
      split
      next hplace => exact hin hplace
      next hplace => exact hout hplace

theorem duplicateHandle_global_refines (hg : o.makeGlobal = true) (ha : AvoidsTarget pol s src srcHandle access o) :
    ∃ res, duplicateHandle pol s src srcHandle none access inherit o = .ok res ∧ res.1.Good ∧
      (res.1.slots, res.2) = duplicate pol (s.Room pol) src srcHandle s.slots dst access inherit o := by
  have hentry := getHandle_entry (p := src) (h := srcHandle) hs.ok
  rw [duplicateHandle, hentry, duplicate]
  simp only [Except.bind]
  cases hobj : sourceObj pol (found s.slots src srcHandle) srcHandle with
  | none => exact ⟨(s, 0), rfl, hs, rfl⟩
  | some obj =>
    have hcond := ha _ obj hentry hobj
    have hnot : ¬InPlace pol s.slots src dst srcHandle access o := fun hin => absurd (hg.symm.trans hin.1) (by decide)
    dsimp only
    rw [if_neg hnot, destination, if_pos hg]
    split at hcond
    next hmore =>
      rw [if_pos hmore, if_pos hmore, duplicateMore, hcond]
      exact ⟨(s, 0), finish_zero, hs, rfl⟩
    next hmore =>
      obtain ⟨res, heq, hplaced⟩ := allocGlobalHandleNoAccessCheck_refines _ _ _ hs
      unfold duplicateSame
      rw [if_neg hmore, if_neg hmore, if_pos hg, heq]
      refine ⟨res, if_neg fun hflags => ?_, hplaced.good, hplaced.eq⟩
      exact hflags.1 (hplaced.full (hcond hflags.2)).2

theorem duplicated_refines (dst : Option ℕ) (inherit : Bool)
    (ha : o.makeGlobal = true → AvoidsTarget pol s src srcHandle access o) :
    ∃ res, duplicated pol s src dst srcHandle access inherit o = .ok res ∧ res.1.Good ∧
      (res.1.slots, res.2) = duplicate pol (s.Room pol) src srcHandle s.slots dst access inherit o := by
  rw [duplicated]
  cases hg : o.makeGlobal with
  | true => exact duplicateHandle_global_refines hs hg (ha hg)
  | false =>
    cases dst with
    | some d => exact duplicateHandle_refines hs hg
    | none =>
      refine ⟨(s, 0), rfl, hs, ?_⟩
      rw [duplicate]
      split
      · rfl
      rw [if_neg fun hin => Option.some_ne_none src hin.2.2.1.symm, destination, if_neg (by simp [hg])]
      rfl

omit hs in
theorem getMagicHandle_global {h : Handle} (hg : handleIsGlobal h = true) : getMagicHandle pol h = none := by
  rw [getMagicHandle, if_neg]
  intro hmem
  simp only [List.mem_cons, List.not_mem_nil, or_false] at hmem
  rcases hmem with rfl | rfl | rfl | rfl | rfl | rfl <;> exact absurd hg (by decide)

omit hs in
theorem exists_free (r : Ref) : ∃ i, s.slots (r, i) = none := by
  cases ht : s.table r with
  | none => exact ⟨0, by rw [slots, ht]; rfl⟩
  | some t => exact ⟨t.used, by rw [slots_table ht, Table.lookup_of_le (le_refl _)]⟩

theorem clearsGlobal_iff {p : ℕ} {h : Handle} : ClearsGlobal pol s p h ↔ handleIsGlobal h = true ∧
    ∃ e, entryAt s.slots p h = some e ∧ isProtected e = false ∧ pol.close e.obj p h = true := by
  rw [ClearsGlobal, getHandle_entry hs.ok, found]
  refine and_congr_right fun _ => ⟨?_, ?_⟩
  · rintro ⟨i, e, he, hrest⟩
    obtain ⟨e', he', heq⟩ := Option.map_eq_some_iff.mp (ok.inj he)
    cases heq
    exact ⟨e, he', hrest⟩
  · rintro ⟨e, he, hrest⟩
    exact ⟨decode h, e, by rw [he]; rfl, hrest⟩

omit hs in
theorem duplicate_entry (hglobal : handleIsGlobal srcHandle = true)
    (hnot : ¬InPlace pol s.slots src dst srcHandle access o) :
    entryAt (duplicate pol (s.Room pol) src srcHandle s.slots dst access inherit o).1 src srcHandle =
      entryAt s.slots src srcHandle := by
  rw [duplicate]
  split
  · rfl
  next obj hobj =>
    rw [if_neg hnot]
    split
    · rfl
    next r access' _ =>
      -- a handle that has an object has an entry, and the new entry is another one
      obtain ⟨e, he⟩ : ∃ e, entryAt s.slots src srcHandle = some e := by
        rw [sourceObj, getMagicHandle_global hglobal, found, Option.map_map] at hobj
        obtain ⟨e, he, -⟩ := Option.map_eq_some_iff.mp hobj
        exact ⟨e, he⟩
      obtain ⟨hneg, hslot⟩ := entryAt_some he
      rw [he, entryAt, if_neg (not_lt.mpr hneg)]
      exact alloc_kept (exists_free r) hslot

theorem duplicate_isLocal (inherit : Bool) (hg : o.makeGlobal = false) (hnot : ¬InPlace pol s.slots src dst srcHandle access o) :
    handleIsGlobal (duplicate pol (s.Room pol) src srcHandle s.slots dst access inherit o).2 = false := by
  have hzero : handleIsGlobal 0 = false := by decide
  rw [duplicate]
  split
  · exact hzero
  next obj _ =>
    rw [if_neg hnot]
    split
    · exact hzero
    next r access' hdst =>
      obtain ⟨d, rfl⟩ : ∃ d, r = .proc d := by
        rw [destination, if_neg (by simp [hg])] at hdst
        obtain ⟨d, -, hmap⟩ := Option.bind_eq_some_iff.mp hdst
        obtain ⟨a, -, hpair⟩ := Option.map_eq_some_iff.mp hmap
        cases hpair
        exact ⟨d, rfl⟩
      obtain ⟨res, -, hplaced⟩ := allocHandleEntry_refines pol false obj d hs
        (show (0 : Rights) &&& reservedAll = 0 by decide)
      rw [alloc]
      split
      next hroom => exact handleIsGlobal_indexToHandle (hplaced.least hroom)
      · exact hzero

/-- What `dup_handle` asks before it closes the source. -/
abbrev Closes (o : Options) (src : ℕ) (dst : Option ℕ) (srcHandle h : Handle) : Prop :=
  o.closeSource = true ∧ ((if o.makeGlobal then none else dst) ≠ some src ∨ srcHandle ≠ h)

omit hs in
theorem not_inPlace_of_closes (inherit : Bool)
    (h : Closes o src dst srcHandle (duplicate pol (s.Room pol) src srcHandle s.slots dst access inherit o).2)
    (hs : s.Good) : ¬InPlace pol s.slots src dst srcHandle access o := by
  intro hin
  have hin' := hin
  obtain ⟨hg, -, hdst, e, he, -⟩ := hin'
  rcases h.2 with hne | hne
  · exact hne (by rw [if_neg (by simp [hg]), hdst])
  · rw [duplicate, sourceObj_entry hs.ok he] at hne
    dsimp only at hne
    rw [if_pos hin] at hne
    exact hne rfl

theorem inPlace_iff (hclears : ClearsGlobal pol s src srcHandle) (hclose : o.closeSource = true) :
    InPlace pol s.slots src dst srcHandle access o ↔ o.makeGlobal = false ∧ dst = some src ∧
      ∀ entry, getHandle s (some src) srcHandle = .ok (some entry) →
        asksMore pol (some entry) entry.2.obj access o = false := by
  obtain ⟨-, e, he, hprot, -⟩ := (clearsGlobal_iff hs).mp hclears
  have hfound := found_some he
  rw [InPlace, getHandle_entry hs.ok, hfound]
  constructor
  · rintro ⟨hg, -, hdst, e', he', -, hless⟩
    cases he.symm.trans he'
    refine ⟨hg, hdst, fun entry heq => ?_⟩
    cases heq
    exact hless
  · rintro ⟨hg, hdst, hless⟩
    exact ⟨hg, hclose, hdst, e, he, hprot, hless _ rfl⟩

theorem dupHandle_refines (inherit : Bool) (hok : DupOk pol s src dst srcHandle access o) :
    ∃ res, dupHandle pol s (some src) dst srcHandle access inherit o = .ok res ∧ res.1.Good ∧
      (res.1.slots, res.2) = dup pol (s.Room pol) src srcHandle s.slots dst access inherit o := by
  obtain ⟨res, heq, hgood, hdup⟩ := duplicated_refines hs dst inherit hok.1
  rw [dupHandle_eq, heq, dup]
  simp only [Except.bind]
  rw [← hdup]
  by_cases hclose : Closes o src dst srcHandle res.2
  · have hnot : ¬InPlace pol s.slots src dst srcHandle access o := by
      refine not_inPlace_of_closes inherit ?_ hs
      rwa [← hdup]
    have hclears : ¬ClearsGlobal pol res.1 src srcHandle := by
      have hslots : res.1.slots = _ := congrArg Prod.fst hdup
      rw [clearsGlobal_iff hgood, hslots]
      rintro ⟨hglobal, hentry⟩
      rw [duplicate_entry hglobal hnot] at hentry
      have hclears := (clearsGlobal_iff hs).mpr ⟨hglobal, hentry⟩
      exact hnot ((inPlace_iff hs hclears hclose.1).mpr (hok.2 hclose.1 hclears))
    obtain ⟨s', st, hc, hgood', hslots⟩ := closeHandle_refines hgood hclears
    rw [if_pos hclose, if_pos hclose, hc]
    have hclosed : s'.slots = _ := congrArg Prod.fst hslots
    exact ⟨_, rfl, hgood', Prod.ext hclosed rfl⟩
  · rw [if_neg hclose, if_neg hclose]
    exact ⟨res, rfl, hgood, rfl⟩

theorem duplicateHandle_nullProcess (hg : o.makeGlobal = true)
    (ha : ¬ AvoidsTarget pol s src srcHandle access o) :
    duplicateHandle pol s src srcHandle none access inherit o = .error .nullProcess := by
  simp only [AvoidsTarget, not_forall] at ha
  obtain ⟨entry, obj, hentry, hobj, hcond⟩ := ha
  rw [duplicateHandle, hentry]
  simp only [Except.bind, hobj]
  split at hcond
  next hmore =>
    rw [if_pos hmore, duplicateMore]
    cases hc : checkCurrent pol obj (askedAccess pol entry obj access o) with
    | none => exact absurd hc hcond
    | some access' => rfl
  next hmore =>
    push Not at hcond
    obtain ⟨hattr, hroom⟩ := hcond
    obtain ⟨res, heq, hplaced⟩ := allocGlobalHandleNoAccessCheck_refines pol obj
      (askedAccess pol entry obj access o) hs
    have hglobal : handleIsGlobal res.2 = true := by
      rw [(hplaced.free hroom).2]
      exact handleIsGlobal_handleIn (hplaced.least hroom)
    have hne : res.2 ≠ 0 := fun h0 => absurd (h0 ▸ hglobal) (by decide)
    unfold duplicateSame
    rw [if_neg hmore, if_pos hg, heq]
    dsimp only
    rw [if_pos ⟨hne, hattr⟩, setHandleFlags, getMagicHandle_global hglobal]
    rfl

theorem dupHandle_faults (hok : ¬ DupOk pol s src dst srcHandle access o) :
    dupHandle pol s (some src) dst srcHandle access inherit o = .error .nullProcess ∨
      dupHandle pol s (some src) dst srcHandle access inherit o = .error .outOfBounds := by
  rw [dupHandle_eq]
  by_cases ha : o.makeGlobal = true → AvoidsTarget pol s src srcHandle access o
  · right
    rw [DupOk, and_iff_right ha, Classical.not_imp, Classical.not_imp] at hok
    obtain ⟨hclose, hclears, hplace⟩ := hok
    rw [← inPlace_iff hs hclears hclose] at hplace
    obtain ⟨hglobal, hentry⟩ := (clearsGlobal_iff hs).mp hclears
    obtain ⟨res, heq, hgood, hdup⟩ := duplicated_refines hs dst inherit ha
    have hslots : res.1.slots = _ := congrArg Prod.fst hdup
    have hcloses : Closes o src dst srcHandle res.2 := by
      refine ⟨hclose, ?_⟩
      by_contra hno
      push Not at hno
      have hg : o.makeGlobal = false := by
        by_contra hg
        rw [if_pos (by simpa using hg)] at hno
        cases hno.1
      have hisLocal := duplicate_isLocal hs inherit hg hplace
      rw [← hdup] at hisLocal
      cases hglobal.symm.trans (hno.2 ▸ hisLocal)
    have hagain : ClearsGlobal pol res.1 src srcHandle := by
      rw [clearsGlobal_iff hgood, hslots, duplicate_entry hglobal hplace]
      exact ⟨hglobal, hentry⟩
    rw [heq]
    simp only [Except.bind]
    rw [if_pos hcloses, closeHandle_global hgood.ok hagain]
    rfl
  · left
    push Not at ha
    rw [duplicated, ha.1]
    exact congrArg (bind · _) (duplicateHandle_nullProcess hs ha.1 ha.2)

end Duplicate

end WinePpc64.Handles
