import WinePpc64.Journal.DeadRecords

namespace WinePpc64.Journal

open List

variable {lev : Levers} {t : Tables} {rt : Runtime} {b : Bytes} {len : ℕ} {Loc Val : Type}

variable {xs : List ℕ} (h : SetterHost t b Loc Val)

theorem skippable_of_killed {dead : ℕ → Bool} (hlive : Unrefused t rt b xs)
    (hdead : ∀ pre x post, xs = pre ++ x :: post → dead x = true →
      ∃ g d, t.setterAt b x = some (g, d) ∧ NextKills t b g x post) :
    (replayWrites h rt).Skippable dead xs := by
  induction xs with
  | nil => trivial
  | cons x xs ih =>
    have hlive' : Unrefused t rt b xs := fun y hy => hlive y (by simp [hy])
    have hxs := ih hlive' fun pre y post heq => hdead (x :: pre) y post (by simp [heq])
    refine ⟨fun hx => ?_, hxs⟩
    obtain ⟨g, d, hset, hkill⟩ := hdead [] x xs rfl hx
    exact ⟨_, writesOf_setter h (hlive x (by simp)) hset, subset_covered h hset hlive' hxs hkill⟩

theorem skipped_killed (lev : Levers) (hsab : lev.lwwSabotage = false) {pre post : List ℕ} {x : ℕ}
    (hsplit : accepted t b len len 0 = pre ++ x :: post)
    (hskip : skipped b (lwwScan lev t b len) x = true) :
    ∃ g d, t.setterAt b x = some (g, d) ∧ NextKills t b g x post := by
  simp only [skipped, Bool.and_eq_true, bne_iff_ne] at hskip
  have hscan : isDead (journalLww lev t b len).dead x = true := by
    unfold lwwScan at hskip
    split_ifs at hskip
    · exact hskip.2
    · exact absurd rfl hskip.1.2
  obtain ⟨rest, hrest, hhead⟩ := accepted_isPrefix t b len len 0
  rw [hsplit, append_assoc] at hrest
  obtain ⟨g, d, hset, hkill⟩ :=
    killedIn_split (starts_pairwise len 0) hrest ((journalLww_dead hsab x).mp hscan)
  exact ⟨g, d, hset, (nextKills_append_consumer hhead).mp hkill⟩

theorem emit_filter (dead : ℕ → Bool) (xs : List ℕ) (p : Option Word) :
    emit t rt b dead xs p = emit t rt b (fun _ => false) (xs.filter fun x => !dead x) p := by
  induction xs generalizing p with
  | nil => rfl
  | cons x xs ih =>
    by_cases hd : dead x = true
    · rw [emit, if_pos hd, filter_cons_of_neg (by simp [hd]), ih]
    rw [emit, if_neg hd, filter_cons_of_pos (by simpa using hd), emit,
      if_neg (by simp)]
    cases recordCall t rt b p x with
    | none => exact ih p
    | some c => exact congrArg (c :: ·) (ih c.proxy)

def shown (t : Tables) (rt : Runtime) (b : Bytes)
    (o : List (ℕ × Option Word × (Loc → Val)) × Option Word × (Loc → Val)) :
    List (Call × (Loc → Val)) × (Loc → Val) :=
  (o.1.filterMap fun x => (recordCall t rt b x.2.1 x.1).map (·, x.2.2), o.2.2)

theorem observe_emit (hlive : Unrefused t rt b xs)
    (p : Option Word) (s : Loc → Val) : h.observe (emit t rt b (fun _ => false) xs p) s =
      shown t rt b ((replayWrites h rt).observe xs (p, s)) := by
  induction xs generalizing p s with
  | nil => rfl
  | cons x xs ih =>
    have hih := ih fun y hy => hlive y (by simp [hy])
    rw [emit, if_neg (by simp), Lib.Writes.observe, show (replayWrites h rt).sets = writesOf h rt from rfl]
    cases hset : t.setterAt b x with
    | none =>
      rw [writesOf_consumer h hset]
      cases hcall : recordCall t rt b p x with
      | none =>
        have hrun : (replayWrites h rt).run x (p, s) = (p, s) := by
          simp [replayWrites, replayEffect, hcall]
        simp only [hrun, hih, shown, filterMap_cons, hcall, Option.map_none]
      | some c =>
        have hrun : (replayWrites h rt).run x (p, s) = (c.proxy, h.run c s) := by
          simp [replayWrites, replayEffect, hcall]
        have hcons : ¬ (t.setterAt b c.off).isSome := by simp [recordCall_off hcall, hset]
        rw [SetterHost.observe, if_neg hcons]
        simp only [hrun, hih, shown, filterMap_cons, hcall, Option.map_some]
    | some r =>
      have hsome := hlive x (by simp) (by simp [hset])
      rw [writesOf_setter h (fun _ => hsome) hset]
      obtain ⟨c, hc⟩ := Option.isSome_iff_exists.mp hsome
      have hcall : recordCall t rt b p x = some c :=
        (recordCall_gen (rowAt_eq_some (setterAt_eq_some hset).1).1 p none).trans hc
      have hrun : (replayWrites h rt).run x (p, s) = (c.proxy, h.run c s) := by
        simp [replayWrites, replayEffect, hcall]
      rw [hcall]
      rw [SetterHost.observe, if_pos (by simp [recordCall_off hcall, hset]), hih, hrun]

theorem Unrefused.filter (hlive : Unrefused t rt b xs) (q : ℕ → Bool) :
    Unrefused t rt b (xs.filter q) := fun x hx => hlive x (mem_of_mem_filter hx)

theorem accepted_dvd {n off x : ℕ} (hoff : 8 ∣ off) (hx : x ∈ accepted t b len n off) : 8 ∣ x := by
  induction n generalizing off with
  | zero => simp [accepted] at hx
  | succ n ih =>
    unfold accepted at hx
    split_ifs at hx with hacc
    · rcases mem_cons.mp hx with rfl | hx
      · exact hoff
      · exact ih (hoff.add (checkRecord_dvd hacc.2)) hx
    · simp at hx

theorem mem_accepted_of_lt_stop {n off x : ℕ} (hx : x ∈ starts b len n off)
    (hlt : x < (stopAt t b len n off).1) : x ∈ accepted t b len n off := by
  induction n generalizing off with
  | zero => simp [starts] at hx
  | succ n ih =>
    have hge := starts_ge hx
    unfold stopAt at hlt
    unfold starts at hx
    unfold accepted
    split_ifs at hx with hs
    · rw [if_pos hs.1] at hlt
      cases hc : checkRecord t b len off with
      | some e =>
        rw [hc] at hlt
        exact absurd hlt (by simpa using hge)
      | none =>
        rw [hc] at hlt
        rw [if_pos ⟨hs.1, rfl⟩]
        rcases mem_cons.mp hx with rfl | hx
        · simp
        · exact mem_cons_of_mem _ (ih hx hlt)
    · simp at hx

theorem killedIn_mem {off : ℕ} (hk : KilledIn t b off xs) :
    ∃ x ∈ xs, t.setterAt b x ≠ none ∧ x / 8 = off / 8 := by
  induction xs with
  | nil => exact hk.elim
  | cons x xs ih =>
    rcases hk with ⟨hunit, g, d, hset, _⟩ | hk
    · exact ⟨x, by simp, by simp [hset], hunit⟩
    · obtain ⟨y, hy, h⟩ := ih hk
      exact ⟨y, by simp [hy], h⟩

/-- Leaving out the records the scan marks dead changes nothing that is found. -/
theorem journalReplayRange_dead_invisible (lev : Levers) (hlww : lev.lwwSabotage = false)
    (hbatch : lev.batchSabotage = false) (h : SetterHost t b Loc Val)
    (hlive : Unrefused t rt b (accepted t b len len 0)) (p : Option Word) (s : Loc → Val) :
    let cut := journalReplayRange { lev with lwwOff := false } t rt b len p
    let all := journalReplayRange { lev with lwwOff := true } t rt b len p
    cut.stop = all.stop ∧ cut.drop = all.drop ∧
      h.observe cut.state.ran s = h.observe all.state.ran s ∧
      ∀ i, isDead (journalLww lev t b len).dead (8 * i) = true →
        ∃ x ∈ starts b len len 0, t.setterAt b x ≠ none ∧ x / 8 = i ∧ (x < all.stop → x = 8 * i) := by
  intro cut all
  have hstop : cut.stop = (stopAt t b len len 0).1 ∧ cut.drop = (stopAt t b len len 0).2 := by
    simp [cut, journalReplayRange, replayLoop_eq]
  have hstop' : all.stop = (stopAt t b len len 0).1 ∧ all.drop = (stopAt t b len len 0).2 := by
    simp [all, journalReplayRange, replayLoop_eq]
  have hcut := journalReplayRange_ran (t := t) (b := b) { lev with lwwOff := false } rt len hbatch p
  have hall : all.state.ran = emit t rt b (fun _ => false) (accepted t b len len 0) p := by
    refine (journalReplayRange_ran { lev with lwwOff := true } rt len hbatch p).trans ?_
    have hnone : skipped b Lww.init = fun _ => false := funext fun off => by simp [skipped, Lww.init]
    rw [lwwScan, if_neg (by simp), hnone]
  refine ⟨hstop.1.trans hstop'.1.symm, hstop.2.trans hstop'.2.symm, ?_, fun i hi => ?_⟩
  · have hskip := skippable_of_killed h hlive fun pre x post hsplit =>
      skipped_killed { lev with lwwOff := false } hlww hsplit
    rw [hcut, hall, emit_filter, observe_emit h (hlive.filter _), observe_emit h hlive,
      Lib.Writes.observe_filter hskip (Lib.Writes.agree_refl _)]
  · obtain ⟨x, hx, hset, hunit⟩ := killedIn_mem ((journalLww_dead hlww _).mp hi)
    refine ⟨x, hx, hset, by omega, fun hlt => ?_⟩
    have hdvd := accepted_dvd (dvd_zero 8) (mem_accepted_of_lt_stop hx (hstop'.1 ▸ hlt))
    omega

namespace Unaligned

def row : Com.Slot where
  name := some "IASetPrimitiveTopology"
  refuse := false
  cls := none
  xaux := none
  argc := 2
  retVoid := true
  retViaArg := false
  hand := false
  constQword := false
  aux := 0
  aux2 := 0
  caux := none
  fpmask := 0
  fpwide := 0
  fpret := 0
  xmask := 0
  narrowmask := 0
  narrowwide := 0
  narrowsign := 0
  dwordmask := 0
  dwordsign := 0

def topology : JgDef := ⟨"IASetPrimitiveTopology", 2, .ctx, [⟨.v, 0, 0, 0⟩], .any⟩

def tables : Tables where
  surface := ⟨[{ slotCount := 1, slots := some [row] }]⟩
  defs := [topology]
  genMap := some fun iface slot => if iface = 0 ∧ slot = 0 then some 0 else none
  genMap_curated := by
    intro map hmap iface slot g hg
    cases hmap
    dsimp only at hg
    split_ifs at hg with h0
    obtain ⟨rfl, rfl⟩ := h0
    cases hg
    exact ⟨row, topology, rfl, rfl, by decide⟩

def header (size : BitVec 8) : List (BitVec 8) := [0, 0, 0, 0, size, 0, 0, 9]

def setter (topology : BitVec 8) : List (BitVec 8) :=
  header 24 ++ [topology, 0, 0, 0, 0, 0, 0, 0] ++ [0x40, 0, 0, 0, 0, 0, 0, 0]

def bytesOf (l : List (BitVec 8)) : Bytes := fun i => l.getD i 0

def shifted : Bytes := bytesOf (header 13 ++ [0, 0, 0, 0, 0] ++ setter 4 ++ setter 5)

def aligned : Bytes := bytesOf (setter 4 ++ setter 5)

def levers : Levers := ⟨false, false, false, false⟩

def runtime : Runtime := ⟨0x10000, fun w => if w = 0x40 then some 0 else none, true, fun _ _ => true⟩

def host (b : Bytes) : SetterHost tables b Unit Word where
  run c _ _ := c.rawargs.getD 1 0
  locs _ _ := Set.univ
  run_setter c _ := ⟨fun _ => c.rawargs.getD 1 0, fun _ _ => ⟨fun _ => rfl, fun hl => absurd trivial hl⟩⟩

theorem journalReplayRange_dead_invisible_aligned :
    (journalReplayRange levers tables runtime aligned 48 none).state.ran.map Call.off = [24] ∧
    (host aligned).observe (journalReplayRange levers tables runtime aligned 48 none).state.ran
        (fun _ => 0) =
      (host aligned).observe (journalReplayRange { levers with lwwOff := true } tables runtime aligned
        48 none).state.ran (fun _ => 0) :=
  ⟨by decide +kernel, (journalReplayRange_dead_invisible levers rfl rfl (host aligned)
    (by unfold Unrefused; decide +kernel) none fun _ => 0).2.2.1⟩

theorem journalLww_marks_unaligned :
    isDead (journalLww levers tables shifted 61).dead (8 * 1) = true ∧
      starts shifted 61 61 0 = [0, 13, 37] ∧ tables.setterAt shifted (8 * 1) = none := by
  decide +kernel

end Unaligned

end WinePpc64.Journal
