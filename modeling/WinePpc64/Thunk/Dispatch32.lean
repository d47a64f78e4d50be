import WinePpc64.Thunk.ArgPassing

namespace WinePpc64.Thunk

open Lib List

structure Descriptor32 where
  argc : ℕ
  fp : BitVec 32
  widths : BitVec 32
  signs : BitVec 32
  geom : BitVec 32

def thunkGeom32Valid (g : BitVec 32) : Bool := g.getLsbD 31
def thunkGeom32Slots (g : BitVec 32) : ℕ := (g &&& 0xff).toNat
def thunkGeom32Qword (g : BitVec 32) (i : ℕ) : Bool := g.getLsbD (8 + i)
def thunkGeom32RetQword (g : BitVec 32) : Bool := g.getLsbD 24

inductive NativeCall
  | plain (a : ℕ → Word)
  | fp (files : RegFiles)

section
variable (d : Descriptor32) (esp : ℕ → BitVec 32)

def qwordAt (slot : ℕ) : Word := (esp slot).setWidth 64 ||| (esp (slot + 1)).setWidth 64 <<< 32

def stackArg (i slot : ℕ) : Word :=
  narrowThunkArg (if thunkGeom32Qword d.geom i then qwordAt esp slot else (esp slot).setWidth 64)
    (thunkWidth d.widths i) (thunkSigned d.signs i)

def slotsOf (i : ℕ) : ℕ := if thunkGeom32Qword d.geom i then 2 else 1

def takeArgs : ℕ → ℕ × (ℕ → Word)
  | 0 => (1, fun _ => 0)
  | i + 1 =>
    ((takeArgs i).1 + slotsOf d i,
      Function.update (takeArgs i).2 i (stackArg d esp i (takeArgs i).1))

def stackFpArg (i slot : ℕ) : Word :=
  if (thunkFpSingle d.fp).getLsbD i then widen (esp slot) else qwordAt esp slot

def takeArgFp (i slot : ℕ) (st : RegFiles) : RegFiles :=
  if (thunkFpMask d.fp).getLsbD i then
    if st.fpr.length < thunkMaxFpArgs then { st with fpr := st.fpr ++ [stackFpArg d esp i slot] }
    else st
  else { st with gpr := Function.update st.gpr i (stackArg d esp i slot) }

def takeArgsFp : ℕ → ℕ × RegFiles
  | 0 => (1, ⟨fun _ => 0, []⟩)
  | i + 1 => ((takeArgsFp i).1 + slotsOf d i, takeArgFp d esp i (takeArgsFp i).1 (takeArgsFp i).2)

def callOf : NativeCall :=
  if d.fp = 0 then .plain (takeArgs d esp (min d.argc thunkMaxArgs)).2
  else .fp (takeArgsFp d esp (min d.argc thunkMaxArgs)).2

end

structure Context32 where
  eip : BitVec 32
  esp : BitVec 32
  eax : BitVec 32
  edx : BitVec 32

def Context32.slot (ctx : Context32) (mem : BitVec 32 → BitVec 32) (i : ℕ) : BitVec 32 :=
  mem (ctx.esp + BitVec.ofNat 32 (4 * i))

/-- `emu32_dispatch_thunk` for a flat export, over the words of the stack and what the native
function returns for a call; `none` is `STATUS_ILLEGAL_INSTRUCTION`. -/
def emu32DispatchThunk (d : Descriptor32) (mem : BitVec 32 → BitVec 32) (native : NativeCall → Word)
    (ctx : Context32) : Option Context32 :=
  if thunkGeom32Valid d.geom then
    let ret := native (callOf d (ctx.slot mem))
    some {
      eax := ret.setWidth 32
      edx := if thunkGeom32RetQword d.geom then (ret >>> 32).setWidth 32 else ctx.edx
      eip := ctx.slot mem 0
      esp := ctx.esp + 4 + BitVec.ofNat 32 (4 * thunkGeom32Slots d.geom) }
  else none

inductive Pushed
  | word (w : BitVec 32)
  | qword (q : Word)

def Pushed.isQword : Pushed → Bool
  | .word _ => false
  | .qword _ => true

def Pushed.slots : Pushed → ℕ
  | .word _ => 1
  | .qword _ => 2

def Pushed.At (esp : ℕ → BitVec 32) (slot : ℕ) : Pushed → Prop
  | .word w => esp slot = w
  | .qword q => esp slot = q.setWidth 32 ∧ esp (slot + 1) = (q >>> 32).setWidth 32

/-- The arguments lie one behind the other from a slot of the stack on. -/
def Stacked (esp : ℕ → BitVec 32) : ℕ → List Pushed → Prop
  | _, [] => True
  | slot, x :: xs => x.At esp slot ∧ Stacked esp (slot + x.slots) xs

def Pushed.integer : Pushed → Word
  | .word w => w.setWidth 64
  | .qword q => q

def Pushed.floating : Pushed → Word
  | .word w => widen w
  | .qword q => q

/-- The stack holds the arguments, and the words of the stub describe them. -/
structure Laid (d : Descriptor32) (esp : ℕ → BitVec 32) (args : List Pushed) : Prop where
  argc : d.argc = args.length
  most : args.length ≤ thunkMaxArgs
  qword : ∀ i p, args[i]? = some p → thunkGeom32Qword d.geom i = p.isQword
  single : ∀ i p, args[i]? = some p → (thunkFpMask d.fp).getLsbD i = true →
    (thunkFpSingle d.fp).getLsbD i = !p.isQword
  slots : thunkGeom32Slots d.geom = (args.map Pushed.slots).sum
  stack : Stacked esp 1 args

/-- The state in which a native function is entered by a call. -/
def Entered : NativeCall → Ppc.State → Prop
  | .plain a, p => ∀ i < thunkMaxArgs, p.intArg i = a i
  | .fp files, p => ∃ s, Separate s ∧ ArraysAt s files ∧ p = Ppc.run s callNativeThunkFp

def fpCount (d : Descriptor32) (i : ℕ) : ℕ := (List.range i).countP (thunkFpMask d.fp).getLsbD

/-- The width the two bits of an argument declare. -/
def declaredWidth (widths : BitVec 32) (i : ℕ) : Width :=
  if widths.getLsbD (2 * i + 1) then if widths.getLsbD (2 * i) then .w1 else .w2
  else if widths.getLsbD (2 * i) then .w4 else .w8

def Pushed.declared (d : Descriptor32) (i : ℕ) (x : Pushed) : Word :=
  extended (declaredWidth d.widths i) (d.signs.getLsbD i) x.integer

/-- The native function finds every argument where its prototype has it. -/
def Delivered (d : Descriptor32) (args : List Pushed) (p : Ppc.State) : Prop :=
  ∀ i x, args[i]? = some x →
    if (thunkFpMask d.fp).getLsbD i then
      p.floatArg (fpCount d i) = x.floating
    else p.intArg i = x.declared d i

variable {d : Descriptor32} {esp : ℕ → BitVec 32} {args : List Pushed} {i k slot : ℕ} {x : Pushed}
  {p : Ppc.State}

def slotBefore (args : List Pushed) (i : ℕ) : ℕ := ((args.take i).map Pushed.slots).sum

theorem and_three (w : BitVec 32) : w &&& 3 =
    if w.getLsbD 1 then if w.getLsbD 0 then 3 else 2 else if w.getLsbD 0 then 1 else 0 := by
  apply BitVec.eq_of_getLsbD_eq
  intro j hj
  rw [BitVec.getLsbD_and]
  match j with
  | 0 => cases w.getLsbD 1 <;> cases w.getLsbD 0 <;> rfl
  | 1 => cases w.getLsbD 1 <;> cases w.getLsbD 0 <;> rfl
  | j + 2 =>
    have hhigh (n : ℕ) (hn : n < 4) : (BitVec.ofNat 32 n).getLsbD (j + 2) = false := by
      have hlt : n < 2 ^ (j + 2) := hn.trans_le (Nat.pow_le_pow_right two_pos (Nat.le_add_left 2 j))
      rw [BitVec.getLsbD_ofNat, Nat.testBit_lt_two_pow hlt, Bool.and_false]
    rw [show (3 : BitVec 32) = BitVec.ofNat 32 3 from rfl, hhigh 3 (by decide), Bool.and_false]
    split_ifs
    · exact (hhigh 3 (by decide)).symm
    · exact (hhigh 2 (by decide)).symm
    · exact (hhigh 1 (by decide)).symm
    · exact (hhigh 0 (by decide)).symm

theorem thunkWidth_eq (widths : BitVec 32) (i : ℕ) : thunkWidth widths i = (declaredWidth widths i).code := by
  rw [thunkWidth, and_three, BitVec.getLsbD_ushiftRight, BitVec.getLsbD_ushiftRight, declaredWidth, mul_comm i 2,
    add_zero]
  split_ifs <;> rfl

theorem narrowThunkArg_declared : narrowThunkArg x.integer (thunkWidth d.widths i) (thunkSigned d.signs i) =
    x.declared d i := by
  rw [thunkWidth_eq]
  refine narrowThunkArg_extended fun _ => ?_
  rw [thunkSigned, show (1 : BitVec 32) = 1#32 from rfl, BitVec.and_one_eq_setWidth_ofBool_getLsbD,
    BitVec.getLsbD_ushiftRight, add_zero]
  cases d.signs.getLsbD i <;> rfl

theorem slotBefore_succ (hx : args[i]? = some x) : slotBefore args (i + 1) = slotBefore args i + x.slots := by
  simp [slotBefore, take_add_one, hx]

theorem Stacked.at (h : Stacked esp slot args) (hx : args[i]? = some x) :
    x.At esp (slot + slotBefore args i) := by
  induction args generalizing slot i with
  | nil => cases hx
  | cons y ys ih =>
    cases i with
    | zero =>
      obtain rfl := Option.some.inj hx
      exact h.1
    | succ i =>
      have := ih h.2 hx
      rwa [add_assoc] at this

theorem qwordAt_eq {q : Word} (h : (Pushed.qword q).At esp slot) : qwordAt esp slot = q := by
  rw [qwordAt, h.1, h.2]
  apply BitVec.eq_of_getLsbD_eq
  intro j hj
  by_cases h32 : j < 32
  · simp [h32, hj]
  · simp [h32, hj, show j - 32 < 32 by omega, show 32 + (j - 32) = j by omega]

variable (h : Laid d esp args) (hx : args[i]? = some x)
include h hx

theorem Laid.stackArg :
    stackArg d esp i (1 + slotBefore args i) = x.declared d i := by
  have hat := h.stack.at hx
  have hq := h.qword i x hx
  cases x with
  | word w => rw [Thunk.stackArg, hq, hat, ← narrowThunkArg_declared]; rfl
  | qword q => rw [Thunk.stackArg, hq, qwordAt_eq hat, ← narrowThunkArg_declared]; rfl

theorem Laid.stackFpArg (hfp : (thunkFpMask d.fp).getLsbD i = true) :
    stackFpArg d esp i (1 + slotBefore args i) = x.floating := by
  have hat := h.stack.at hx
  have hs := h.single i x hx hfp
  cases x with
  | word w => rw [Thunk.stackFpArg, hs, hat]; rfl
  | qword q => rw [Thunk.stackFpArg, hs, qwordAt_eq hat]; rfl

theorem Laid.slotsOf : slotsOf d i = x.slots := by
  rw [Thunk.slotsOf, h.qword i x hx]
  cases x <;> rfl

omit hx

theorem Laid.takeArgs (hk : k ≤ args.length) :
    (takeArgs d esp k).1 = 1 + slotBefore args k ∧ ∀ i < k, ∀ x, args[i]? = some x →
      (takeArgs d esp k).2 i = x.declared d i := by
  induction k with
  | zero => exact ⟨rfl, nofun⟩
  | succ k ih =>
    obtain ⟨hslot, ha⟩ := ih (by omega)
    have hx : args[k]? = some args[k] := getElem?_eq_getElem hk
    refine ⟨?_, ?_⟩
    · simp only [Thunk.takeArgs, hslot, h.slotsOf hx, slotBefore_succ hx, add_assoc]
    intro i hi x hix
    simp only [Thunk.takeArgs, hslot]
    by_cases hik : i = k
    · subst hik
      rw [Function.update_self, h.stackArg hix]
    · rw [Function.update_of_ne hik]
      exact ha i (by omega) x hix

omit h in
theorem fpCount_succ : fpCount d (i + 1) = fpCount d i + ((thunkFpMask d.fp).getLsbD i).toNat := by
  rw [fpCount, range_succ]
  cases h : (thunkFpMask d.fp).getLsbD i <;> simp [fpCount, h]

omit h in
theorem fpCount_lt (h : (thunkFpMask d.fp).getLsbD i = true) : fpCount d i < thunkMaxFpArgs := by
  have hle : fpCount d i ≤ i := countP_le_length.trans_eq length_range
  exact hle.trans_lt (fpMask_lt (d := ⟨0, 0, 0, d.fp⟩) h)

theorem Laid.takeArgsFp (hk : k ≤ args.length) :
    (takeArgsFp d esp k).1 = 1 + slotBefore args k ∧
    (takeArgsFp d esp k).2.fpr.length = fpCount d k ∧ ∀ i < k, ∀ x, args[i]? = some x →
      if (thunkFpMask d.fp).getLsbD i then
        (takeArgsFp d esp k).2.fpr[fpCount d i]? = some x.floating
      else (takeArgsFp d esp k).2.gpr i = x.declared d i := by
  induction k with
  | zero => exact ⟨rfl, rfl, nofun⟩
  | succ k ih =>
    obtain ⟨hslot, hlen, ha⟩ := ih (by omega)
    have hx : args[k]? = some args[k] := getElem?_eq_getElem hk
    have hnext : 1 + slotBefore args k + Thunk.slotsOf d k = 1 + slotBefore args (k + 1) := by
      rw [h.slotsOf hx, slotBefore_succ hx, add_assoc]
    simp only [Thunk.takeArgsFp, hslot, hnext, fpCount_succ, takeArgFp]
    cases hfp : (thunkFpMask d.fp).getLsbD k
    · refine ⟨trivial, hlen, ?_⟩
      intro i hi x hix
      by_cases hik : i = k
      · subst hik
        simp [hfp, h.stackArg hix]
      · simpa [hik] using ha i (by omega) x hix
    · rw [if_pos rfl, if_pos (hlen ▸ fpCount_lt hfp)]
      refine ⟨trivial, by simp [hlen], ?_⟩
      intro i hi x hix
      by_cases hik : i = k
      · subst hik
        simp [hfp, ← hlen, h.stackFpArg hix hfp]
      have := ha i (by omega) x hix
      split at this
      · next hm =>
        rw [if_pos hm, getElem?_append_left (List.getElem?_eq_some_iff.mp this).1]
        exact this
      · next hm => rwa [if_neg hm]

theorem Laid.lt (hx : args[i]? = some x) : i < args.length ∧ i < thunkMaxArgs := by
  have := (List.getElem?_eq_some_iff.mp hx).1
  exact ⟨this, this.trans_le h.most⟩

theorem Laid.plain_delivered (hnone : ∀ i, (thunkFpMask d.fp).getLsbD i = false)
    (hp : Entered (.plain (Thunk.takeArgs d esp args.length).2) p) : Delivered d args p := by
  intro i x hx
  obtain ⟨hi, h16⟩ := h.lt hx
  rw [hnone i, hp i h16]
  exact (h.takeArgs le_rfl).2 i hi x hx

theorem Laid.fp_delivered
    (hp : Entered (.fp (Thunk.takeArgsFp d esp args.length).2) p) : Delivered d args p := by
  obtain ⟨s, hsep, harr, rfl⟩ := hp
  obtain ⟨-, -, -, hint, hfloat⟩ := callNativeThunkFp_loads s hsep
  intro i x hx
  obtain ⟨hi, h16⟩ := h.lt hx
  have ha := (h.takeArgsFp le_rfl).2.2 i hi x hx
  split at ha
  · next hm =>
    have h8 := fpCount_lt hm
    rw [if_pos hm, hfloat _ h8, harr.fpr _ h8, getD_eq_getElem?_getD, ha]
    rfl
  · next hm => rw [if_neg hm, hint i h16, harr.gpr i h16, ha]

omit h

/-- The native function is called with the arguments as they were pushed, and its result returned above them. -/
theorem i386_frame_decoded (ctx : Context32) {mem : BitVec 32 → BitVec 32}
    (h : Laid d (ctx.slot mem) args) (hvalid : thunkGeom32Valid d.geom = true) :
    (∀ native, emu32DispatchThunk d mem native ctx = some {
      eip := mem ctx.esp
      esp := ctx.esp + 4 + BitVec.ofNat 32 (4 * (args.map Pushed.slots).sum)
      eax := (native (callOf d (ctx.slot mem))).setWidth 32
      edx := if thunkGeom32RetQword d.geom then (native (callOf d (ctx.slot mem)) >>> 32).setWidth 32
        else ctx.edx }) ∧
    (∀ p, Entered (callOf d (ctx.slot mem)) p → Delivered d args p) ∧
    (thunkFpMask d.fp = 0 → ∀ p, Entered (.plain (takeArgs d (ctx.slot mem) d.argc).2) p ∨
      Entered (.fp (takeArgsFp d (ctx.slot mem) d.argc).2) p → Delivered d args p) := by
  have hargc : min d.argc thunkMaxArgs = args.length := by rw [h.argc, min_eq_left h.most]
  have hnone : thunkFpMask d.fp = 0 → ∀ i, (thunkFpMask d.fp).getLsbD i = false := by
    intro hm i
    rw [hm]
    exact BitVec.getLsbD_zero
  refine ⟨fun native => ?_, ?_, ?_⟩
  · rw [emu32DispatchThunk, if_pos hvalid, h.slots]
    simp [Context32.slot]
  · intro p hp
    rw [callOf, hargc] at hp
    split at hp
    · next hz => exact h.plain_delivered (hnone (by rw [hz]; rfl)) hp
    · exact h.fp_delivered hp
  · intro hm p hp
    rw [h.argc] at hp
    exact hp.elim (h.plain_delivered (hnone hm)) h.fp_delivered

namespace Ldexp

def pushed : List Pushed := [.qword 0x3ff0000000000000, .word 0x2222fffd]

def descriptor32 : Descriptor32 := ⟨2, 1, 8, 2, 0x80000103⟩

def stack : BitVec 32 → BitVec 32
  | 0x1000 => 0x401000
  | 0x1008 => 0x3ff00000
  | 0x100c => 0x2222fffd
  | _ => 0

theorem laid : Laid descriptor32 (Context32.slot ⟨0, 0x1000, 0, 7⟩ stack) pushed where
  argc := rfl
  most := by decide
  qword := by rintro (_ | _ | _) p hp <;> cases hp <;> rfl
  single := by rintro (_ | _ | _) p hp hm <;> cases hp <;> first | rfl | cases hm
  slots := rfl
  stack := ⟨⟨rfl, rfl⟩, rfl, trivial⟩

theorem i386_frame_decoded_ldexp :
    Entered (callOf descriptor32 (Context32.slot ⟨0, 0x1000, 0, 7⟩ stack)) (Ppc.run native callNativeThunkFp) ∧
    emu32DispatchThunk descriptor32 stack (fun _ => 0x55) ⟨0, 0x1000, 0, 7⟩ = some ⟨0x401000, 0x1010, 0x55, 7⟩ ∧
    (Ppc.run native callNativeThunkFp).floatArg 0 = 0x3ff0000000000000 ∧
    (Ppc.run native callNativeThunkFp).intArg 1 = 0xfffffffffffffffd :=
  have hentered : Entered (callOf descriptor32 (Context32.slot ⟨0, 0x1000, 0, 7⟩ stack))
      (Ppc.run native callNativeThunkFp) := ⟨native, separate, ⟨by decide +kernel, by decide +kernel⟩, rfl⟩
  have h := i386_frame_decoded _ laid rfl
  ⟨hentered, h.1 _, h.2.1 _ hentered 0 _ rfl, h.2.1 _ hentered 1 _ rfl⟩

end Ldexp

end WinePpc64.Thunk
