import WinePpc64.Thunk.Marshal
import WinePpc64.Thunk.NativeCall

namespace WinePpc64.Thunk

open Lib ArgLevers

inductive Width
  | w1 | w2 | w4 | w8
  deriving DecidableEq, Repr

def Width.bytes : Width → ℕ
  | .w1 => 1
  | .w2 => 2
  | .w4 => 4
  | .w8 => 8

def Width.code : Width → BitVec 32
  | .w1 => 3
  | .w2 => 2
  | .w4 => 1
  | .w8 => 0

inductive Arg
  | int (w : Width) (signed : Bool)
  | float
  | double
  deriving DecidableEq, Repr

def Arg.isFp : Arg → Bool
  | .int _ _ => false
  | _ => true

def Arg.bytes : Arg → ℕ
  | .int w _ => w.bytes
  | .float => 4
  | .double => 8

abbrev Arg.Value (a : Arg) : Type := BitVec (8 * a.bytes)

structure Descriptor.Describes (d : Descriptor) (sig : List Arg) : Prop where
  width : ∀ i w s, sig[i]? = some (.int w s) → thunkWidth d.widths i = w.code
  sign : ∀ i w s, sig[i]? = some (.int w s) → w.bytes < 4 →
    thunkSigned d.signs i = if s then 1 else 0
  narrow : ∀ i w s, sig[i]? = some (.int w s) → d.narrow.getLsbD i = decide (w ≠ .w8)
  fp : ∀ i a, sig[i]? = some a → (thunkFpMask d.fp).getLsbD i = a.isFp
  single : ∀ i a, sig[i]? = some a → a.isFp → (thunkFpSingle d.fp).getLsbD i = decide (a = .float)

/-- An MS-x64 caller has put `v` where argument `i` of type `a` goes: its own bytes hold it, the rest
of the register or stack slot holds anything. -/
def Context.Holds (ctx : Context) (i : ℕ) (a : Arg) (v : a.Value) : Prop :=
  if i < 4 then
    if a.isFp then (ctx.xmm i).setWidth (8 * a.bytes) = v
    else (ctx.gprSlot i).setWidth (8 * a.bytes) = v
  else ctx.mem.read (ctx.slotAddress i) a.bytes = v

instance (ctx : Context) (i : ℕ) (a : Arg) (v : a.Value) : Decidable (ctx.Holds i a v) := by
  unfold Context.Holds
  infer_instance

def Arg.Received : (a : Arg) → a.Value → Word → Prop
  | .int w s, v, r => r = if s ∧ w.bytes < 4 then v.signExtend 64 else v.setWidth 64
  | .float, v, r => r = widen v ∧ binary64.value r.toNat = binary32.value (BitVec.toNat v)
  | .double, v, r => r = v

def calleeArg (sig : List Arg) (s : Ppc.State) (i : ℕ) (a : Arg) : Word :=
  if a.isFp then s.floatArg ((sig.take i).countP Arg.isFp) else s.intArg i

variable {ctx : Context} {d : Descriptor} {sig : List Arg}

variable {i : ℕ}

theorem gprSlot_stack (h : 4 ≤ i) : ctx.gprSlot i = ctx.mem.read (ctx.slotAddress i) 8 := by
  match i, h with
  | i + 4, _ => rfl

theorem Width.bytes_le (w : Width) : w.bytes ≤ 8 := by cases w <;> decide

variable {w : Width} {s : Bool} {a : Arg} {v : a.Value} {x : Word} {k : ℕ}

theorem holds_int {v : (Arg.int w s).Value}
    (h : ctx.Holds i (.int w s) v) : (ctx.gprSlot i).setWidth (8 * w.bytes) = v := by
  unfold Context.Holds at h
  split_ifs at h with h4 hfp
  · cases hfp
  · exact h
  · rw [gprSlot_stack (by omega), ← h]
    exact Mem.read_setWidth w.bytes_le

theorem holds_fp (hfp : a.isFp = true) (h : ctx.Holds i a v) : ctx.fpSlot .unset i a.bytes = v := by
  unfold Context.Holds at h
  unfold Context.fpSlot
  by_cases h4 : i < 4
  · rw [if_pos h4, if_pos hfp] at h
    rwa [if_pos (.inl h4)]
  · rw [if_neg h4] at h
    rwa [if_neg (by simp [h4, unset])]

theorem width_zero {widths : BitVec 32} (h : thunkWidth widths i = w.code) (h0 : widths = 0) : w = .w8 := by
  rw [h0, show thunkWidth 0 i = 0 by simp [thunkWidth]] at h
  cases w with
  | w8 => rfl
  | w4 => exact absurd h (by decide)
  | w2 => exact absurd h (by decide)
  | w1 => exact absurd h (by decide)

def extended (w : Width) (s : Bool) (x : Word) : Word :=
  if s ∧ w.bytes < 4 then (x.setWidth (8 * w.bytes)).signExtend 64
  else (x.setWidth (8 * w.bytes)).setWidth 64

theorem extended_w8 : extended .w8 s x = x := by
  rw [extended, if_neg (by simp [Width.bytes])]
  exact (congrArg _ (BitVec.setWidth_eq x)).trans (BitVec.setWidth_eq x)

theorem narrowThunkArg_extended {sign : BitVec 32}
    (hsign : w.bytes < 4 → sign = if s then 1 else 0) : narrowThunkArg x w.code sign = extended w s x := by
  cases w with
  | w8 => rw [extended_w8]; rfl
  | w4 => cases s <;> rfl
  | w2 => rw [hsign (by decide)]; cases s <;> rfl
  | w1 => rw [hsign (by decide)]; cases s <;> rfl

theorem cutArg_extended (hd : d.Describes sig)
    (hi : sig[i]? = some (.int w s)) : cutArg .unset d i x = extended w s x := by
  have hwidth := hd.width i w s hi
  simp only [cutArg, unset, Bool.false_eq_true, if_false]
  split_ifs with h0 hn
  · rw [hwidth, narrowThunkArg_extended (hd.sign i w s hi)]
  · -- without width bits the argument is eight bytes wide, which the narrow mask agrees with
    obtain rfl := width_zero hwidth (not_not.mp h0)
    simp [hd.narrow i _ s hi] at hn
  · obtain rfl := width_zero hwidth (not_not.mp h0)
    exact extended_w8.symm

theorem cutArg_received (hd : d.Describes sig) (hi : sig[i]? = some a)
    (hint : a.isFp = false) (h : ctx.Holds i a v) : a.Received v (cutArg .unset d i (ctx.gprSlot i)) := by
  cases a with
  | int w s =>
    obtain rfl := holds_int h
    exact cutArg_extended hd hi
  | float => cases hint
  | double => cases hint

theorem fpArg_received (hd : d.Describes sig) (hi : sig[i]? = some a)
    (hfp : a.isFp = true) (h : ctx.Holds i a v) : a.Received v (fpArg .unset ctx d i) := by
  have hv := holds_fp hfp h
  have hsingle := hd.single i a hi hfp
  unfold fpArg
  cases a with
  | int w s => cases hfp
  | float =>
    rw [hsingle]
    have hw : widen (ctx.fpSlot .unset i 4) = widen v := congrArg widen hv
    exact ⟨hw, (congrArg (fun r : Word => binary64.value r.toNat) hw).trans value_widen⟩
  | double =>
    rw [hsingle]
    exact hv

def fpBefore (d : Descriptor) (k : ℕ) : List ℕ :=
  (List.range k).filter fun i => (thunkFpMask d.fp).getLsbD i

theorem fpMask_lt (h : (thunkFpMask d.fp).getLsbD i = true) : i < 8 := by
  by_contra hi
  have hbit : (BitVec.ofNat 32 255).getLsbD i = true := (Bool.and_eq_true_iff.mp
    (BitVec.getLsbD_and ▸ h)).2
  have hlt : 255 < 2 ^ i := (show 255 < 2 ^ 8 by norm_num).trans_le (Nat.pow_le_pow_right (by omega)
    (by omega))
  simp [BitVec.getLsbD_ofNat, Nat.testBit_lt_two_pow hlt] at hbit

theorem length_fpBefore_lt (h : (thunkFpMask d.fp).getLsbD i = true) :
    (fpBefore d i).length < thunkMaxFpArgs := by
  have hle : (fpBefore d i).length ≤ i := by
    simpa [fpBefore] using List.length_filter_le _ (List.range i)
  exact hle.trans_lt (fpMask_lt h)

theorem fpBefore_succ : fpBefore d (k + 1) =
    fpBefore d k ++ if (thunkFpMask d.fp).getLsbD k then [k] else [] := by
  rw [fpBefore, List.range_succ, List.filter_append]
  congr 1
  by_cases h : (thunkFpMask d.fp).getLsbD k = true
  · simp [h]
  · simp [h]

theorem marshalThunkArgsFp_succ : marshalThunkArgsFp .unset ctx d (k + 1) =
    marshalFpArg .unset ctx d (marshalThunkArgsFp .unset ctx d k) k := by
  simp [marshalThunkArgsFp, List.range_succ]

theorem marshalThunkArgsFp_files (hk : k ≤ thunkMaxArgs) :
    (marshalThunkArgsFp .unset ctx d k).fpr = (fpBefore d k).map (fpArg .unset ctx d) ∧
      ∀ i < k, (thunkFpMask d.fp).getLsbD i = false →
        (marshalThunkArgsFp .unset ctx d k).gpr i = cutArg .unset d i (ctx.gprSlot i) := by
  induction k with
  | zero => exact ⟨rfl, fun i hi => by omega⟩
  | succ k ih =>
    obtain ⟨hfpr, hgpr⟩ := ih (by omega)
    rw [marshalThunkArgsFp_succ, marshalFpArg, fpBefore_succ]
    by_cases hfp : (thunkFpMask d.fp).getLsbD k = true
    · rw [if_pos hfp, if_pos (by rw [hfpr, List.length_map]; exact length_fpBefore_lt hfp)]
      refine ⟨by simp [hfpr, hfp], fun i hi hint => ?_⟩
      have hne : i ≠ k := fun h => by simp [h, hfp] at hint
      exact hgpr i (by omega) hint
    · rw [if_neg hfp, if_neg (by omega), if_neg (by simp [unset])]
      refine ⟨by simp [hfpr, hfp], fun i hi hint => ?_⟩
      by_cases hik : i = k
      · simp [hik]
      · simpa [hik] using hgpr i (by omega) hint

end WinePpc64.Thunk
