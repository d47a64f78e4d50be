import WinePpc64.Thunk.MarshalCorrect

namespace WinePpc64.Thunk

open BitVec Lib List

variable {ctx : Context} {d : Descriptor} {sig : List Arg} {i k n : ℕ} {s : Ppc.State}

def wordOfBits (f : ℕ → Bool) : ℕ → BitVec 32
  | 0 => 0
  | n + 1 => wordOfBits f n ||| if f n then BitVec.twoPow 32 n else 0

theorem getLsbD_wordOfBits {f : ℕ → Bool} (hn : n ≤ 32) :
    (wordOfBits f n).getLsbD i = (decide (i < n) && f i) := by
  induction n with
  | zero => simp [wordOfBits]
  | succ n ih =>
    rw [wordOfBits, getLsbD_or, ih (by omega)]
    by_cases hi : i = n
    · subst hi
      by_cases hf : f i = true
      · simp [hf, getLsbD_twoPow]
        omega
      · simp [hf]
    · have hlt : i < n + 1 ↔ i < n := by omega
      by_cases hf : f n = true
      · simp [hf, hlt, getLsbD_twoPow, Ne.symm hi]
      · simp [hf, hlt]

def describe (sig : List Arg) : Descriptor where
  narrow := wordOfBits (fun i => match sig[i]? with
    | some (.int w _) => w ≠ .w8
    | _ => false) 16
  widths := wordOfBits (fun j => match sig[j / 2]? with
    | some (.int w _) => w.code.getLsbD (j % 2)
    | _ => false) 32
  signs := wordOfBits (fun i => match sig[i]? with
    | some (.int _ s) => s
    | _ => false) 16
  fp := wordOfBits (fun j => if j < 8 then (sig[j]?).any Arg.isFp else sig[j - 8]? == some .float) 16

theorem lt_of_getElem? {a : Arg} (h : sig[i]? = some a) : i < sig.length :=
  (List.getElem?_eq_some_iff.mp h).1

theorem code_getLsbD {w : Width} (hk : 2 ≤ k) : w.code.getLsbD k = false := by
  have hlt : w.code.toNat < 2 ^ k :=
    (show w.code.toNat < 2 ^ 2 by cases w <;> decide).trans_le (Nat.pow_le_pow_right (by omega) hk)
  exact Nat.testBit_lt_two_pow hlt

theorem getLsbD_ff (hi : i < 8) : (0xff : BitVec 32).getLsbD i = true := by
  interval_cases i <;> rfl

theorem describe_describes (hlen : sig.length ≤ thunkMaxArgs)
    (hfp : ∀ i a, sig[i]? = some a → a.isFp = true → i < 8) : (describe sig).Describes sig where
  width := by
    intro i w s hi
    have hi16 : i < 16 := (lt_of_getElem? hi).trans_le hlen
    apply eq_of_getLsbD_eq
    intro k hk
    rw [thunkWidth, getLsbD_and, getLsbD_ushiftRight]
    by_cases hk2 : k < 2
    · have hdiv : (i * 2 + k) / 2 = i := by omega
      have hmod : (i * 2 + k) % 2 = k := by omega
      have h3 : (3 : BitVec 32).getLsbD k = true := by interval_cases k <;> rfl
      rw [h3, describe, getLsbD_wordOfBits le_rfl, hdiv, hmod, hi,
        decide_eq_true (show i * 2 + k < 32 by omega), Bool.true_and, Bool.and_true]
    · rw [code_getLsbD (by omega), show (3 : BitVec 32) = Width.w1.code from rfl,
        code_getLsbD (by omega), Bool.and_false]
  sign := by
    intro i w s hi _
    have hi16 : i < 16 := (lt_of_getElem? hi).trans_le hlen
    have hbit : (describe sig).signs.getLsbD i = s := by
      simp [describe, getLsbD_wordOfBits, hi16, hi]
    rw [thunkSigned, show (1 : BitVec 32) = 1#32 from rfl, and_one_eq_setWidth_ofBool_getLsbD, getLsbD_ushiftRight,
      Nat.add_zero, hbit]
    cases s <;> rfl
  narrow := by
    intro i w s hi
    have hi16 : i < 16 := (lt_of_getElem? hi).trans_le hlen
    simp [describe, getLsbD_wordOfBits, hi16, hi]
  fp := by
    intro i a hi
    by_cases hi8 : i < 8
    · have hi16 : i < 16 := by omega
      rw [thunkFpMask, getLsbD_and, getLsbD_ff hi8]
      simp [describe, getLsbD_wordOfBits, hi16, hi8, hi]
    have ha : a.isFp = false := by
      by_contra ha
      exact hi8 (hfp i a hi (by simpa using ha))
    rw [ha]
    by_contra hbit
    exact hi8 (fpMask_lt (by simpa using hbit))
  single := by
    intro i a hi ha
    have hi8 := hfp i a hi ha
    rw [thunkFpSingle, getLsbD_and, getLsbD_ff hi8, getLsbD_ushiftRight, describe,
      getLsbD_wordOfBits (by omega)]
    rw [Bool.eq_iff_iff]
    simp [hi, show 8 + i < 16 by omega]

theorem countP_isFp (hd : d.Describes sig) (hi : i ≤ sig.length) :
    (sig.take i).countP Arg.isFp = (fpBefore d i).length := by
  induction i with
  | zero => rfl
  | succ i ih =>
    obtain ⟨a, ha⟩ : ∃ a, sig[i]? = some a := ⟨_, getElem?_eq_getElem hi⟩
    rw [fpBefore_succ, take_add_one, ha, countP_append, ih (by omega), hd.fp i a ha,
      length_append]
    cases hfp : a.isFp <;> simp [hfp]

theorem fpBefore_split (hik : i < k) (hi : (thunkFpMask d.fp).getLsbD i = true) :
    ∃ rest, fpBefore d k = fpBefore d i ++ i :: rest := by
  induction k with
  | zero => omega
  | succ k ih =>
    rw [fpBefore_succ]
    by_cases hk : i = k
    · subst hk
      exact ⟨[], by simp [hi]⟩
    · obtain ⟨rest, hrest⟩ := ih (by omega)
      exact ⟨rest ++ _, by rw [hrest, List.append_assoc, List.cons_append]⟩

/-- A call of a native function of sixteen integers, as the compiler makes it for
`call_native_thunk`: every argument is where the callee looks for it. -/
def Passed (a : List Word) (s : Ppc.State) : Prop := ∀ i < a.length, s.intArg i = a.getD i 0

structure ArraysAt (s : Ppc.State) (files : RegFiles) : Prop where
  gpr : ∀ i < 16, s.mem.read (s.gpr 4 + BitVec.ofNat 64 (8 * i)) 8 = files.gpr i
  fpr : ∀ j < 8, s.mem.read (s.gpr 5 + BitVec.ofNat 64 (8 * j)) 8 = files.fpr.getD j 0

theorem marshalThunkArgs_getD {argc : ℕ} (hi : i < argc) :
    (marshalThunkArgs .unset ctx d argc).getD i 0 = cutArg .unset d i (ctx.gprSlot i) := by
  simp [marshalThunkArgs, hi]

theorem intArg_fp (hsep : Separate s) {argc : ℕ} (hargc : argc ≤ thunkMaxArgs)
    (harr : ArraysAt s (marshalThunkArgsFp .unset ctx d argc)) (hi : i < argc)
    (hint : (thunkFpMask d.fp).getLsbD i = false) :
    (Ppc.run s callNativeThunkFp).intArg i = cutArg .unset d i (ctx.gprSlot i) := by
  have hi16 : i < 16 := hi.trans_le hargc
  rw [(callNativeThunkFp_loads s hsep).2.2.2.1 i hi16, harr.gpr i hi16,
    (marshalThunkArgsFp_files hargc).2 i hi hint]

theorem floatArg_fp (hsep : Separate s) {argc : ℕ} (hargc : argc ≤ thunkMaxArgs)
    (harr : ArraysAt s (marshalThunkArgsFp .unset ctx d argc)) (hi : i < argc)
    (hfp : (thunkFpMask d.fp).getLsbD i = true) :
    (Ppc.run s callNativeThunkFp).floatArg (fpBefore d i).length = fpArg .unset ctx d i := by
  have hj : (fpBefore d i).length < 8 := length_fpBefore_lt hfp
  obtain ⟨rest, hrest⟩ := fpBefore_split hi hfp
  rw [(callNativeThunkFp_loads s hsep).2.2.2.2 _ hj, harr.fpr _ hj, (marshalThunkArgsFp_files hargc).1,
    hrest]
  simp

/-- Whatever an MS-x64 caller passes, the ELFv2 callee of the same signature receives. -/
theorem marshalling_preserves_args (hlen : sig.length ≤ thunkMaxArgs) (hd : d.Describes sig)
    (v : ∀ i : Fin sig.length, (sig.get i).Value) (hctx : ∀ i : Fin sig.length, ctx.Holds i (sig.get i) (v i)) :
    ((∀ a ∈ sig, a.isFp = false) → ∀ s, Passed (marshalThunkArgs .unset ctx d sig.length) s →
      ∀ i, (sig.get i).Received (v i) (calleeArg sig s i (sig.get i))) ∧
    ∀ s, Separate s → ArraysAt s (marshalThunkArgsFp .unset ctx d sig.length) →
      ∀ i, (sig.get i).Received (v i) (calleeArg sig (Ppc.run s callNativeThunkFp) i (sig.get i)) := by
  have hget : ∀ i : Fin sig.length, sig[i.val]? = some (sig.get i) := fun i =>
    getElem?_eq_getElem i.isLt
  refine ⟨fun hnone s hs i => ?_, fun s hsep harr i => ?_⟩
  · have hint := hnone _ (get_mem sig i)
    rw [calleeArg, if_neg (Bool.eq_false_iff.mp hint), hs i (by simp [marshalThunkArgs]),
      marshalThunkArgs_getD i.isLt]
    exact cutArg_received hd (hget i) hint (hctx i)
  · have hbit := hd.fp i _ (hget i)
    cases hfp : (sig.get i).isFp with
    | false =>
      rw [calleeArg, if_neg (Bool.eq_false_iff.mp hfp), intArg_fp hsep hlen harr i.isLt (by rw [hbit, hfp])]
      exact cutArg_received hd (hget i) hfp (hctx i)
    | true =>
      rw [calleeArg, if_pos hfp, countP_isFp hd i.isLt.le,
        floatArg_fp hsep hlen harr i.isLt (by rw [hbit, hfp])]
      exact fpArg_received hd (hget i) hfp (hctx i)

namespace Ldexp

def signature : List Arg := [.double, .int .w2 true]

def value : (i : Fin signature.length) → (signature.get i).Value
  | ⟨0, _⟩ => (0x3ff0000000000000 : BitVec 64)
  | ⟨1, _⟩ => (0xfffd : BitVec 16)

def guest : Context where
  r10 := 0x1111111111111111
  rdx := 0x222222222222fffd
  r8 := 0
  r9 := 0
  rsp := 0
  xmm _ := 0x33333333333333333ff0000000000000
  mem _ := 0

def native : Ppc.State where
  gpr r := if r = 1 then 0x8000 else if r = 4 then 0x1000 else if r = 5 then 0x2000 else 0
  fpr _ := 0
  lr := 0
  ctr := 0
  mem := (Mem.write (fun _ => 0) 0x1008 8 (0xfffffffffffffffd : Word)).write 0x2000 8
    (0x3ff0000000000000 : Word)

theorem holds : ∀ i : Fin signature.length, guest.Holds i (signature.get i) (value i) := by
  decide +kernel

theorem separate : Separate native where
  gprFrame := Apart.of_offsets 0 (show 0x1000 + 128 ≤ 0x7f50 ∨ _ by omega) (by omega)
    (show 0x7f50 + 176 ≤ 2 ^ 64 by omega)
  gprLink := Apart.of_offsets 0 (show 0x1000 + 128 ≤ 0x8010 ∨ _ by omega) (by omega)
    (show 0x8010 + 8 ≤ 2 ^ 64 by omega)
  fprFrame := Apart.of_offsets 0 (show 0x2000 + 64 ≤ 0x7f50 ∨ _ by omega) (by omega)
    (show 0x7f50 + 176 ≤ 2 ^ 64 by omega)
  fprLink := Apart.of_offsets 0 (show 0x2000 + 64 ≤ 0x8010 ∨ _ by omega) (by omega)
    (show 0x8010 + 8 ≤ 2 ^ 64 by omega)

theorem arraysAt : ArraysAt native (marshalThunkArgsFp .unset guest (describe signature) signature.length) where
  gpr := by decide +kernel
  fpr := by decide +kernel

theorem marshalling_preserves_args_ldexp :
    (Ppc.run native callNativeThunkFp).floatArg 0 = 0x3ff0000000000000 ∧
      (Ppc.run native callNativeThunkFp).intArg 1 = 0xfffffffffffffffd :=
  have hd : (describe signature).Describes signature := describe_describes (by decide) fun i a hi _ =>
    (lt_of_getElem? hi).trans_le (by decide)
  have h := (marshalling_preserves_args (by decide) hd value holds).2 native separate arraysAt
  ⟨h ⟨0, by decide⟩, h ⟨1, by decide⟩⟩

end Ldexp

end WinePpc64.Thunk
