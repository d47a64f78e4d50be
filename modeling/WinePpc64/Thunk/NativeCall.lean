import WinePpc64.Ppc.Machine

namespace WinePpc64.Thunk

open Lib List Ppc Ppc.Instr Mem State

/-- `call_native_thunk_fp` from its local entry to the branch: the frame, the FPRs from `fpr` in r5,
arguments 8 and up to the parameter save area and the GPRs from `gpr` in r4, r4 itself last. -/
def callNativeThunkFp : List Instr :=
  [mflr 0, std 0 16 1, stdu 1 (-176) 1, std 2 160 1, std 6 168 1, mtctr 3, mr 12 3] ++
  [lfd 1 0 5, lfd 2 8 5, lfd 3 16 5, lfd 4 24 5, lfd 5 32 5, lfd 6 40 5, lfd 7 48 5, lfd 8 56 5] ++
  [ld 0 64 4, std 0 96 1, ld 0 72 4, std 0 104 1, ld 0 80 4, std 0 112 1, ld 0 88 4, std 0 120 1,
    ld 0 96 4, std 0 128 1, ld 0 104 4, std 0 136 1, ld 0 112 4, std 0 144 1, ld 0 120 4,
    std 0 152 1] ++
  [ld 10 56 4, ld 9 48 4, ld 8 40 4, ld 7 32 4, ld 6 24 4, ld 5 16 4, ld 3 0 4, ld 4 8 4]

/-- What the C caller promises of the arrays: neither is in the frame to be pushed, nor in the slot
of the caller's own frame that takes the link register. -/
structure Separate (s : State) : Prop where
  gprFrame : Apart (s.gpr 4) 128 (s.gpr 1 - 176) 176
  gprLink : Apart (s.gpr 4) 128 (s.gpr 1 + 16) 8
  fprFrame : Apart (s.gpr 5) 64 (s.gpr 1 - 176) 176
  fprLink : Apart (s.gpr 5) 64 (s.gpr 1 + 16) 8

variable (s : State)
include s

theorem prologue :
    let p := run s [mflr 0, std 0 16 1, stdu 1 (-176) 1, std 2 160 1, std 6 168 1, mtctr 3, mr 12 3]
    p.gpr 1 = s.gpr 1 - 176 ∧ p.gpr 4 = s.gpr 4 ∧ p.gpr 5 = s.gpr 5 ∧ p.gpr 12 = s.gpr 3 ∧
      p.ctr = s.gpr 3 ∧ ∀ a, Apart a 8 (s.gpr 1 - 176) 176 → Apart a 8 (s.gpr 1 + 16) 8 →
        p.mem.read a 8 = s.mem.read a 8 := by
  have hsp : s.gpr 1 + BitVec.ofInt 64 (-176) = s.gpr 1 - 176 := by
    rw [BitVec.sub_eq_add_neg]
    rfl
  refine ⟨?_, rfl, rfl, rfl, rfl, fun a hframe hlink => ?_⟩
  · exact hsp
  change ((((s.mem.write (s.gpr 1 + 16) 8 s.lr).write (s.gpr 1 + BitVec.ofInt 64 (-176)) 8 _).write
    (s.gpr 1 + BitVec.ofInt 64 (-176) + 160) 8 _).write
    (s.gpr 1 + BitVec.ofInt 64 (-176) + 168) 8 _).read a 8 = s.mem.read a 8
  have h168 : Apart a 8 (s.gpr 1 - 176 + 168) 8 := hframe.sub_right (show 168 + 8 ≤ 176 by omega)
  have h160 : Apart a 8 (s.gpr 1 - 176 + 160) 8 := hframe.sub_right (show 160 + 8 ≤ 176 by omega)
  have h0 : Apart a 8 (s.gpr 1 - 176) 8 := fun i hi j hj => hframe i hi j (by omega)
  rw [hsp, read_write_apart h168, read_write_apart h160, read_write_apart h0,
    read_write_apart hlink]

theorem loadFprs :
    let p := run s [lfd 1 0 5, lfd 2 8 5, lfd 3 16 5, lfd 4 24 5, lfd 5 32 5, lfd 6 40 5, lfd 7 48 5,
      lfd 8 56 5]
    p.gpr = s.gpr ∧ p.mem = s.mem ∧ p.ctr = s.ctr ∧
      ∀ j < 8, p.floatArg j = s.mem.read (s.gpr 5 + BitVec.ofNat 64 (8 * j)) 8 := by
  refine ⟨rfl, rfl, rfl, fun j hj => ?_⟩
  interval_cases j <;> rfl

theorem loadGprs :
    let p := run s [ld 10 56 4, ld 9 48 4, ld 8 40 4, ld 7 32 4, ld 6 24 4, ld 5 16 4, ld 3 0 4, ld 4 8 4]
    p.gpr 1 = s.gpr 1 ∧ p.gpr 12 = s.gpr 12 ∧ p.fpr = s.fpr ∧ p.mem = s.mem ∧ p.ctr = s.ctr ∧
      ∀ i < 8, p.intArg i = s.mem.read (s.gpr 4 + BitVec.ofNat 64 (8 * i)) 8 := by
  refine ⟨rfl, rfl, rfl, rfl, rfl, fun i hi => ?_⟩
  interval_cases i <;> rfl

def spill (k : ℕ) : List Instr := [ld 0 (64 + 8 * k) 4, std 0 (96 + 8 * k) 1]

theorem run_spill {k : ℕ} : run s (spill k) =
    (s.setGpr 0 (s.mem.read (s.gpr 4 + BitVec.ofNat 64 (64 + 8 * k)) 8)).store
      (s.gpr 1 + BitVec.ofNat 64 (96 + 8 * k)) (s.mem.read (s.gpr 4 + BitVec.ofNat 64 (64 + 8 * k)) 8) := by
  have h4 : BitVec.ofInt 64 (64 + 8 * k) = BitVec.ofNat 64 (64 + 8 * k) := by
    exact_mod_cast BitVec.ofInt_natCast 64 (64 + 8 * k)
  have h1 : BitVec.ofInt 64 (96 + 8 * k) = BitVec.ofNat 64 (96 + 8 * k) := by
    exact_mod_cast BitVec.ofInt_natCast 64 (96 + 8 * k)
  simp [Ppc.run, spill, exec, address, base, h4, h1]

structure Spilled (s p : State) (ks : List ℕ) : Prop where
  gpr : ∀ r, r ≠ 0 → p.gpr r = s.gpr r
  fpr : p.fpr = s.fpr
  ctr : p.ctr = s.ctr
  rest : ∀ a n, (∀ k ∈ ks, Apart a n (s.gpr 1 + BitVec.ofNat 64 (96 + 8 * k)) 8) →
    p.mem.read a n = s.mem.read a n
  slot : ∀ k ∈ ks, p.mem.read (s.gpr 1 + BitVec.ofNat 64 (96 + 8 * k)) 8 =
    s.mem.read (s.gpr 4 + BitVec.ofNat 64 (64 + 8 * k)) 8

theorem spills {ks : List ℕ} (hks : ks.Nodup) (hlt : ∀ k ∈ ks, k < 8)
    (hsep : Apart (s.gpr 4) 128 (s.gpr 1) 176) : Spilled s (run s (ks.flatMap spill)) ks := by
  induction ks generalizing s with
  | nil => exact ⟨fun _ _ => rfl, rfl, rfl, fun _ _ _ => rfl, by simp⟩
  | cons k ks ih =>
    obtain ⟨hk, hks⟩ := nodup_cons.mp hks
    have hk8 := hlt k (by simp)
    rw [flatMap_cons, run_append]
    have hrest := ih (run s (spill k)) hks (fun j hj => hlt j (by simp [hj]))
      (by rw [run_spill]; simpa using hsep)
    have hmem : (run s (spill k)).mem = s.mem.write (s.gpr 1 + BitVec.ofNat 64 (96 + 8 * k)) 8
        (s.mem.read (s.gpr 4 + BitVec.ofNat 64 (64 + 8 * k)) 8) := by
      rfl
    have hgpr : ∀ r, r ≠ 0 → (run s (spill k)).gpr r = s.gpr r := fun r hr => by
      rw [run_spill]
      simp [hr]
    have hslots : ∀ j ∈ ks, Apart (s.gpr 1 + BitVec.ofNat 64 (96 + 8 * k)) 8
        (s.gpr 1 + BitVec.ofNat 64 (96 + 8 * j)) 8 := fun j hj => by
      have hj8 := hlt j (by simp [hj])
      have hne : j ≠ k := fun h => hk (h ▸ hj)
      exact Apart.of_offsets _ (by omega) (by omega) (by omega)
    refine ⟨fun r hr => (hrest.gpr r hr).trans (hgpr r hr), ?_, ?_, fun a n ha => ?_, fun j hj => ?_⟩
    · rw [hrest.fpr, run_spill]
      rfl
    · rw [hrest.ctr, run_spill]
      rfl
    · rw [hrest.rest a n (fun j hj => by rw [hgpr 1 (by decide)]; exact ha j (by simp [hj])), hmem,
        read_write_apart (ha k (by simp))]
    · rcases mem_cons.mp hj with rfl | hj
      · rw [hrest.rest _ _ (fun i hi => by rw [hgpr 1 (by decide)]; exact hslots i hi), hmem,
          read_write_same (by omega)]
      have hj8 := hlt j (by simp [hj])
      have h := hrest.slot j hj
      rw [hgpr 1 (by decide), hgpr 4 (by decide), hmem, read_write_apart
        (hsep.sub (by omega) (by omega))] at h
      exact h

theorem callNativeThunkFp_loads (h : Separate s) :
    let p := run s callNativeThunkFp
    p.gpr 1 = s.gpr 1 - 176 ∧ p.ctr = s.gpr 3 ∧ p.gpr 12 = s.gpr 3 ∧
      (∀ i < 16, p.intArg i = s.mem.read (s.gpr 4 + BitVec.ofNat 64 (8 * i)) 8) ∧
      ∀ j < 8, p.floatArg j = s.mem.read (s.gpr 5 + BitVec.ofNat 64 (8 * j)) 8 := by
  obtain ⟨hsp, h4, h5, h12, hctr, hmem⟩ := prologue s
  set s1 := run s [mflr 0, std 0 16 1, stdu 1 (-176) 1, std 2 160 1, std 6 168 1, mtctr 3, mr 12 3]
  obtain ⟨hgpr2, hmem2, hctr2, hfloat⟩ := loadFprs s1
  set s2 := run s1 [lfd 1 0 5, lfd 2 8 5, lfd 3 16 5, lfd 4 24 5, lfd 5 32 5, lfd 6 40 5, lfd 7 48 5,
    lfd 8 56 5]
  have hspill := spills s2 (nodup_range) (fun k hk => mem_range.mp hk)
    (by rw [hgpr2, h4, hsp]; exact h.gprFrame)
  set s3 := run s2 ((List.range 8).flatMap spill)
  obtain ⟨hsp4, h124, hfpr4, hmem4, hctr4, hint⟩ := loadGprs s3
  have hprog : run s callNativeThunkFp = run s3 [ld 10 56 4, ld 9 48 4, ld 8 40 4, ld 7 32 4, ld 6 24 4,
      ld 5 16 4, ld 3 0 4, ld 4 8 4] := by
    rfl
  have hgprRead : ∀ i < 16, s1.mem.read (s.gpr 4 + BitVec.ofNat 64 (8 * i)) 8 =
      s.mem.read (s.gpr 4 + BitVec.ofNat 64 (8 * i)) 8 := fun i hi =>
    hmem _ (h.gprFrame.sub_left (by omega)) (h.gprLink.sub_left (by omega))
  rw [hprog]
  refine ⟨?_, ?_, ?_, fun i hi => ?_, fun j hj => ?_⟩
  · rw [hsp4, hspill.gpr 1 (by decide), hgpr2, hsp]
  · rw [hctr4, hspill.ctr, hctr2, hctr]
  · rw [h124, hspill.gpr 12 (by decide), hgpr2, h12]
  · by_cases h8 : i < 8
    · have happart : ∀ k ∈ List.range 8, Apart (s.gpr 4 + BitVec.ofNat 64 (8 * i)) 8
          (s2.gpr 1 + BitVec.ofNat 64 (96 + 8 * k)) 8 := fun k hk => by
        have := mem_range.mp hk
        rw [hgpr2, hsp]
        exact h.gprFrame.sub (by omega) (by omega)
      rw [hint i h8, hspill.gpr 4 (by decide), hgpr2, h4, hspill.rest _ _ happart, hmem2, hgprRead i hi]
    · have hslot := hspill.slot (i - 8) (mem_range.mpr (by omega))
      rw [show 96 + 8 * (i - 8) = 32 + 8 * i by omega, show 64 + 8 * (i - 8) = 8 * i by omega] at hslot
      rw [intArg, if_neg h8, hmem4, hsp4, hspill.gpr 1 (by decide), hslot, hgpr2, h4, hmem2,
        hgprRead i hi]
  · have hfpr : (run s3 [ld 10 56 4, ld 9 48 4, ld 8 40 4, ld 7 32 4, ld 6 24 4, ld 5 16 4, ld 3 0 4,
        ld 4 8 4]).floatArg j = s2.floatArg j := by
      rw [floatArg, hfpr4, hspill.fpr, floatArg]
    rw [hfpr, hfloat j hj]
    exact hmem _ (h.fprFrame.sub_left (by omega)) (h.fprLink.sub_left (by omega))

end WinePpc64.Thunk
