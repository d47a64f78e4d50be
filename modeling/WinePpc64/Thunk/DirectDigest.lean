import WinePpc64.Thunk.Marshal

namespace WinePpc64.Thunk

open Lib

structure ThunkRow where
  leaf : Bool
  proc : Word
  sig : BitVec 32
  widths : BitVec 32
  signs : BitVec 32

def thunkSigArgc (sig : BitVec 32) : ℕ := (sig &&& 0xff).toNat
def thunkSigVariadic : BitVec 32 := 0x200
def thunkSigNarrow (sig : BitVec 32) : BitVec 32 := sig >>> 16 &&& 0xffff

def ThunkRow.descriptor (e : ThunkRow) : Descriptor := ⟨thunkSigNarrow e.sig, e.widths, e.signs, 0⟩

structure EcDirect where
  nargs : ℕ
  fn : Word
  ext : ℕ → ℕ

def extCode (w sign : BitVec 32) : ℕ :=
  if w = 1 then if sign ≠ 0 then 2 else 1
  else if w = 2 then if sign ≠ 0 then 4 else 3
  else if w = 3 then if sign ≠ 0 then 6 else 5
  else 0

def ecFlatDirectDigest (e : ThunkRow) : Option EcDirect :=
  let argc := thunkSigArgc e.sig
  if e.leaf = false ∨ e.proc = 0 ∨ e.sig &&& thunkSigVariadic ≠ 0 ∨ argc > 8 then none
  else
    let ext := fun p =>
      if p < argc ∧ p < 8 then extCode (thunkWidth e.widths p) (thunkSigned e.signs p) else 0
    -- the JIT extends positions 1..7 only
    if ext 0 ≥ 3 then none else some ⟨argc, e.proc, ext⟩

def extendArg : ℕ → Word → Word
  | 1, v => (v.setWidth 32).setWidth 64
  | 2, v => (v.setWidth 32).signExtend 64
  | 3, v => (v.setWidth 16).setWidth 64
  | 4, v => (v.setWidth 16).signExtend 64
  | 5, v => (v.setWidth 8).setWidth 64
  | 6, v => (v.setWidth 8).signExtend 64
  | _, v => v

def EcDirect.args (d : EcDirect) (ctx : Context) : List Word :=
  (List.range d.nargs).map fun i =>
    if i = 0 then ctx.gprSlot 0 else extendArg (d.ext i) (ctx.gprSlot i)

/-- Argument `p` of the row is one that both arms cut alike: under a width word, one that is not four
bytes wide, or is an unsigned one behind the first; without one, one that the narrow mask leaves alone. -/
def ThunkRow.CutAlike (e : ThunkRow) (p : ℕ) : Prop :=
  if e.widths ≠ 0 then thunkWidth e.widths p = 1 → p ≠ 0 ∧ thunkSigned e.signs p = 0
  else (thunkSigNarrow e.sig).getLsbD p = false

theorem thunkWidth_cases (w : BitVec 32) (p : ℕ) :
    thunkWidth w p = 0 ∨ thunkWidth w p = 1 ∨ thunkWidth w p = 2 ∨ thunkWidth w p = 3 := by
  have hle : (thunkWidth w p).toNat ≤ 3 := by
    exact Nat.and_le_right
  bv_omega

variable {v : Word} {e : ThunkRow}

theorem extendArg_extCode {w sign : BitVec 32} (hw : w = 0 ∨ w = 1 ∨ w = 2 ∨ w = 3)
    (h : w = 1 → sign = 0) : extendArg (extCode w sign) v = narrowThunkArg v w sign := by
  by_cases hs : sign = 0#32
  · rcases hw with rfl | rfl | rfl | rfl <;> simp [extCode, extendArg, narrowThunkArg, hs]
  rcases hw with rfl | rfl | rfl | rfl
  · simp [extCode, extendArg, narrowThunkArg]
  · exact absurd (h rfl) hs
  · simp [extCode, extendArg, narrowThunkArg, hs]
  · simp [extCode, extendArg, narrowThunkArg, hs]

theorem ecFlatDirectDigest_eq_some {d : EcDirect} (h : ecFlatDirectDigest e = some d) :
    d.nargs = thunkSigArgc e.sig ∧
    (∀ p < d.nargs, d.ext p = extCode (thunkWidth e.widths p) (thunkSigned e.signs p)) ∧ d.ext 0 < 3 := by
  rw [ecFlatDirectDigest, Option.ite_none_left_eq_some] at h
  obtain ⟨hguard, h⟩ := h
  rw [Option.ite_none_left_eq_some] at h
  obtain ⟨hfirst, h⟩ := h
  cases h
  refine ⟨rfl, ?_, not_le.mp hfirst⟩
  intro p hp
  exact if_pos ⟨hp, by dsimp only at hp; omega⟩

def garbage : Context := ⟨-1, -1, -1, -1, 0, fun _ => 0, fun _ => -1⟩

theorem gprSlot_garbage {i : ℕ} : garbage.gprSlot i = -1 := by
  match i with
  | 0 => rfl
  | 1 => rfl
  | 2 => rfl
  | 3 => rfl
  | i + 4 =>
    have hread : garbage.mem.read (garbage.slotAddress (i + 4)) 8 = garbage.mem.read 0 8 :=
      Mem.read_congr fun _ _ => rfl
    exact hread.trans (by decide)

theorem cutArg_row {p : ℕ} : cutArg .unset e.descriptor p v =
    if e.widths ≠ 0 then narrowThunkArg v (thunkWidth e.widths p) (thunkSigned e.signs p)
    else if (thunkSigNarrow e.sig).getLsbD p then (v.setWidth 32).setWidth 64 else v := rfl

section Position

variable {e : ThunkRow} {d : EcDirect} {p : ℕ}

theorem cutAlike_arg (h : ecFlatDirectDigest e = some d) (hp : p < d.nargs) (hcut : e.CutAlike p) :
    (if p = 0 then v else extendArg (d.ext p) v) = cutArg .unset e.descriptor p v := by
  obtain ⟨-, hext, hfirst⟩ := ecFlatDirectDigest_eq_some h
  have hcode := hext p hp
  have hw := thunkWidth_cases e.widths p
  unfold ThunkRow.CutAlike at hcut
  rw [cutArg_row]
  by_cases h0 : e.widths = 0
  · rw [if_neg (not_not.mpr h0)] at hcut
    have hzero : thunkWidth e.widths p = 0 := by rw [h0]; simp [thunkWidth]
    rw [if_neg (not_not.mpr h0), hcut, hcode, hzero]
    simp [extCode, extendArg]
  · rw [if_pos h0] at hcut ⊢
    by_cases hp0 : p = 0
    · -- the digest has refused a first argument of one or two bytes
      subst hp0
      rw [hcode] at hfirst
      rcases hw with hw | hw | hw | hw
      · simp [narrowThunkArg, hw]
      · exact absurd rfl (hcut hw).1
      · simp only [extCode, hw] at hfirst
        split_ifs at hfirst <;> simp_all
      · simp only [extCode, hw] at hfirst
        split_ifs at hfirst <;> simp_all
    · rw [if_neg hp0, hcode]
      exact extendArg_extCode hw (fun h1 => (hcut h1).2)

theorem cutAlike_of_garbage (h : ecFlatDirectDigest e = some d) (hp : p < d.nargs)
    (heq : (if p = 0 then (-1 : Word) else extendArg (d.ext p) (-1)) = cutArg .unset e.descriptor p (-1)) :
    e.CutAlike p := by
  obtain ⟨-, hext, -⟩ := ecFlatDirectDigest_eq_some h
  rw [cutArg_row, hext p hp] at heq
  unfold ThunkRow.CutAlike
  by_cases h0 : e.widths = 0
  · have hzero : thunkWidth e.widths p = 0 := by rw [h0]; simp [thunkWidth]
    rw [if_neg (not_not.mpr h0)] at heq ⊢
    cases hn : (thunkSigNarrow e.sig).getLsbD p with
    | false => rfl
    | true =>
      rw [hn, hzero] at heq
      simp [extCode, extendArg] at heq
  · rw [if_pos h0] at heq ⊢
    intro h1
    rw [h1] at heq
    constructor
    · rintro rfl
      simp [narrowThunkArg] at heq
    by_contra hs
    have hcode : extCode 1 (thunkSigned e.signs p) = 2 := if_pos hs
    have hcut : narrowThunkArg (-1) 1 (thunkSigned e.signs p) = 0xffffffff := rfl
    rw [hcode, hcut] at heq
    split_ifs at heq <;> exact absurd heq (by decide)

end Position

/-- The JIT serves a row like the dispatcher exactly if both arms cut its arguments alike. -/
theorem ecFlatDirectDigest_agrees {e : ThunkRow} {d : EcDirect} (h : ecFlatDirectDigest e = some d) :
    (∀ ctx, d.args ctx = marshalThunkArgs .unset ctx e.descriptor (thunkSigArgc e.sig)) ↔
      ∀ p < thunkSigArgc e.sig, e.CutAlike p := by
  have hargc := (ecFlatDirectDigest_eq_some h).1
  simp only [EcDirect.args, marshalThunkArgs, ← hargc, List.map_inj_left, List.mem_range]
  constructor
  · intro hall p hp
    have hone := hall garbage p hp
    rw [gprSlot_garbage, gprSlot_garbage] at hone
    exact cutAlike_of_garbage h hp hone
  · intro hall ctx p hp
    rw [← cutAlike_arg h hp (hall p hp)]
    by_cases hp0 : p = 0
    · rw [if_pos hp0, if_pos hp0, hp0]
    · rw [if_neg hp0, if_neg hp0]

namespace Rows

def unmeasured : ThunkRow := ⟨true, 0x10000, 0x20002, 0, 0⟩

theorem ecFlatDirectDigest_unmeasured : ∃ d, ecFlatDirectDigest unmeasured = some d ∧
    d.args garbage ≠
      marshalThunkArgs .unset garbage unmeasured.descriptor (thunkSigArgc unmeasured.sig) :=
  ⟨_, rfl, by decide⟩

def measured : ThunkRow := ⟨true, 0x10000, 0x20002, 8, 2⟩

theorem ecFlatDirectDigest_measured : ∃ d, ecFlatDirectDigest measured = some d ∧
    ((∀ ctx, d.args ctx = marshalThunkArgs .unset ctx measured.descriptor (thunkSigArgc measured.sig)) ↔
      ∀ p < thunkSigArgc measured.sig, measured.CutAlike p) :=
  ⟨_, rfl, ecFlatDirectDigest_agrees rfl⟩

end Rows

end WinePpc64.Thunk
