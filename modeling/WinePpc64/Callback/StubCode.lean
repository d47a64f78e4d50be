import WinePpc64.Ppc.Decode

namespace WinePpc64.Callback

open BitVec Lib List Ppc Mem State

abbrev Word := BitVec 64

def emitLoadImm64 (reg : ℕ) (val : Word) : List (BitVec 32) :=
  [0x3C000000#32 ||| BitVec.ofNat 32 (reg <<< 21) ||| ((val >>> 48) &&& 0xffff).setWidth 32,
    0x60000000#32 ||| BitVec.ofNat 32 (reg <<< 21) ||| BitVec.ofNat 32 (reg <<< 16) |||
      ((val >>> 32) &&& 0xffff).setWidth 32,
    0x780007C6#32 ||| BitVec.ofNat 32 (reg <<< 21) ||| BitVec.ofNat 32 (reg <<< 16),
    0x64000000#32 ||| BitVec.ofNat 32 (reg <<< 21) ||| BitVec.ofNat 32 (reg <<< 16) |||
      ((val >>> 16) &&& 0xffff).setWidth 32,
    0x60000000#32 ||| BitVec.ofNat 32 (reg <<< 21) ||| BitVec.ofNat 32 (reg <<< 16) |||
      (val &&& 0xffff).setWidth 32]

def stubCode (fn dispatch : Word) (argc : ℕ) : List (BitVec 32) :=
  if argc ≤ 7 then
    emitLoadImm64 (3 + argc) fn ++ emitLoadImm64 12 dispatch ++ [0x7D8903A6, 0x4E800420]
  else
    [0x7C0802A6] ++ (if argc = 9 then [0xE9610060] else []) ++ [0xF8010010, 0xF821FF91] ++
      (if argc = 9 then [0xF9610060] else []) ++ emitLoadImm64 11 fn ++
      [if argc = 9 then 0xF9610068 else 0xF9610060] ++ emitLoadImm64 12 dispatch ++
      [0x7D8903A6, 0x4E800421, 0x38210070, 0xE8010010, 0x7C0803A6, 0x4E800020]

section LoadImmediate

theorem and_ffff {v : Word} : (v &&& 0xffff).setWidth 32 = (v.setWidth 16).setWidth 32 := by
  apply eq_of_toNat_eq
  have hmask : v.toNat &&& 0xffff = v.toNat % 2 ^ 16 := Nat.and_two_pow_sub_one_eq_mod v.toNat 16
  rw [toNat_setWidth, toNat_setWidth]
  exact congrArg (· % 2 ^ 32) hmask

theorem halfwords {val : Word} :
    ((((((val >>> 48).setWidth 16 ++ 0#16).signExtend 64) ||| ((val >>> 32).setWidth 16).setWidth 64)
      <<< 32 ||| ((val >>> 16).setWidth 16 ++ 0#16).setWidth 64) ||| (val.setWidth 16).setWidth 64) =
      val := by
  apply eq_of_getLsbD_eq
  intro i hi
  simp only [getLsbD_or, getLsbD_shiftLeft, getLsbD_signExtend, getLsbD_setWidth,
    getLsbD_append, getLsbD_ushiftRight, getLsbD_zero]
  -- the halfword that bit `i` belongs to
  obtain h | h | h | h : i < 16 ∨ (16 ≤ i ∧ i < 32) ∨ (32 ≤ i ∧ i < 48) ∨ 48 ≤ i := by omega
  · have h32 : i < 32 := by omega
    simp [h, h32, hi]
  · have h16 : ¬ i < 16 := by omega
    have hsub : i - 16 < 16 := by omega
    have hback : 16 + (i - 16) = i := by omega
    simp [h16, h.2, hi, hsub, hback]
  · have h16 : ¬ i < 16 := by omega
    have h32 : ¬ i < 32 := by omega
    have hsub : i - 32 < 16 := by omega
    have hsub32 : i - 32 < 32 := by omega
    have hsub64 : i - 32 < 64 := by omega
    have hnot : ¬ i - 16 < 16 := by omega
    have hback : 32 + (i - 32) = i := by omega
    simp [h16, h32, hi, hsub, hsub32, hsub64, hnot, hback]
  · have h16 : ¬ i < 16 := by omega
    have h32 : ¬ i < 32 := by omega
    have hsub : ¬ i - 32 < 16 := by omega
    have hsub32 : i - 32 < 32 := by omega
    have hsub64 : i - 32 < 64 := by omega
    have hlow : i - 32 - 16 < 16 := by omega
    have hnot : ¬ i - 16 < 16 := by omega
    have hback : 48 + (i - 32 - 16) = i := by omega
    simp [h16, h32, hi, hsub, hsub32, hsub64, hlow, hnot, hback]

theorem immediate_fields : ∀ reg : Reg,
    let lis := 0x3C000000#32 ||| BitVec.ofNat 32 (reg.val <<< 21)
    let ori := 0x60000000#32 ||| BitVec.ofNat 32 (reg.val <<< 21) ||| BitVec.ofNat 32 (reg.val <<< 16)
    let oris := 0x64000000#32 ||| BitVec.ofNat 32 (reg.val <<< 21) ||| BitVec.ofNat 32 (reg.val <<< 16)
    (field lis 26 6 = 15 ∧ regAt lis 16 = 0 ∧ regAt lis 21 = reg ∧ imm16 lis = 0) ∧
      (field ori 26 6 = 24 ∧ regAt ori 16 = reg ∧ regAt ori 21 = reg ∧ imm16 ori = 0) ∧
      (field oris 26 6 = 25 ∧ regAt oris 16 = reg ∧ regAt oris 21 = reg ∧ imm16 oris = 0) ∧
      decode (0x780007C6#32 ||| BitVec.ofNat 32 (reg.val <<< 21) ||| BitVec.ofNat 32 (reg.val <<< 16)) =
        some (.instr (.sldi32 reg reg)) := by
  decide +kernel

def loadImm64 (reg : Reg) (val : Word) : List Instr :=
  [.lis reg ((val >>> 48).setWidth 16), .ori reg reg ((val >>> 32).setWidth 16), .sldi32 reg reg,
    .oris reg reg ((val >>> 16).setWidth 16), .ori reg reg (val.setWidth 16)]

theorem emitLoadImm64_assembles (reg : Reg) (val : Word) :
    Assembles (emitLoadImm64 reg val) (loadImm64 reg val) := by
  obtain ⟨⟨lis, lis16, lis21, lisImm⟩, ⟨ori, ori16, ori21, oriImm⟩, ⟨oris, oris16, oris21, orisImm⟩,
    sldi⟩ := immediate_fields reg
  have h16 : 16 ≤ 16 := le_rfl
  have h21 : 16 ≤ 21 := by decide
  have h26 : 16 ≤ 26 := by decide
  have decodeLis (imm : BitVec 16) : decode (0x3C000000#32 ||| BitVec.ofNat 32 (reg.val <<< 21) |||
      imm.setWidth 32) = some (.instr (.lis reg imm)) := by
    simp only [decode, field_or_imm h26, lis, regAt_or_imm h16, regAt_or_imm h21, lis16, lis21,
      imm16_or_imm lisImm, if_true]
  have decodeOri (imm : BitVec 16) : decode (0x60000000#32 ||| BitVec.ofNat 32 (reg.val <<< 21) |||
      BitVec.ofNat 32 (reg.val <<< 16) ||| imm.setWidth 32) = some (.instr (.ori reg reg imm)) := by
    simp only [decode, field_or_imm h26, ori, regAt_or_imm h16, regAt_or_imm h21, ori16, ori21,
      imm16_or_imm oriImm]
  have decodeOris (imm : BitVec 16) : decode (0x64000000#32 ||| BitVec.ofNat 32 (reg.val <<< 21) |||
      BitVec.ofNat 32 (reg.val <<< 16) ||| imm.setWidth 32) = some (.instr (.oris reg reg imm)) := by
    simp only [decode, field_or_imm h26, oris, regAt_or_imm h16, regAt_or_imm h21, oris16, oris21,
      imm16_or_imm orisImm]
  simp only [Assembles, emitLoadImm64, loadImm64, and_ffff, map_cons, map_nil,
    Function.comp_apply, decodeLis, decodeOri, decodeOris, sldi]

theorem setGpr_setGpr {s : State} {r : Reg} {v w : Word} : (s.setGpr r v).setGpr r w = s.setGpr r w := by
  simp [setGpr]

theorem run_loadImm64 {s : State} {reg : Reg} {val : Word} :
    Ppc.run s (loadImm64 reg val) = s.setGpr reg val := by
  simp only [loadImm64, run_cons, run_nil, exec, setGpr_same, setGpr_setGpr, halfwords]

end LoadImmediate

structure Enters (s d : State) (fn dispatch : Word) (argc : ℕ) : Prop where
  ctr : d.ctr = dispatch
  entry : d.gpr 12 = dispatch
  args : ∀ i < argc, d.intArg i = s.intArg i
  target : d.intArg argc = fn

variable (s : State) {i j : ℕ}

theorem intArg_reg (h : i < 8) : s.intArg i = s.gpr (Fin.ofNat 32 (3 + i)) := by
  rw [intArg, if_pos h]

theorem argReg_ne (hi : i < 29) (hj : j < 29) (h : i ≠ j) :
    (Fin.ofNat 32 (3 + i) : Reg) ≠ Fin.ofNat 32 (3 + j) := by
  intro heq
  have hval : (3 + i) % 32 = (3 + j) % 32 := congrArg Fin.val heq
  omega

theorem stubCode_jumps (fn dispatch : Word) {argc : ℕ} (h : argc ≤ 7) :
    ∃ d, runTo s (stubCode fn dispatch argc) = some (d, .bctr, []) ∧
      Enters s d fn dispatch argc ∧ d.lr = s.lr ∧ d.gpr 1 = s.gpr 1 ∧ d.mem = s.mem := by
  have hreg : ((Fin.ofNat 32 (3 + argc) : Reg) : ℕ) = 3 + argc := Nat.mod_eq_of_lt (by omega)
  have hmt : Assembles [0x7D8903A6] [.mtctr 12] := by decide
  have hload := (emitLoadImm64_assembles (Fin.ofNat 32 (3 + argc)) fn).append
    (emitLoadImm64_assembles 12 dispatch)
  rw [hreg] at hload
  have hrun := (hload.append hmt).runTo s [0x4E800420]
  have hcode : stubCode fn dispatch argc = emitLoadImm64 (3 + argc) fn ++ emitLoadImm64 12 dispatch ++
      [0x7D8903A6] ++ [0x4E800420] := by
    rw [stubCode, if_pos h]
    rfl
  have h12 : (Fin.ofNat 32 (3 + argc) : Reg) ≠ 12 := argReg_ne (j := 9) (by omega) (by omega) (by omega)
  have h1 : (1 : Reg) ≠ Fin.ofNat 32 (3 + argc) := by
    intro heq
    have hval := congrArg Fin.val heq
    exact absurd hval (by simp; omega)
  refine ⟨_, hcode ▸ hrun, ?_⟩
  rw [run_append, run_append, run_loadImm64, run_loadImm64]
  refine ⟨⟨?_, ?_, fun i hi => ?_, ?_⟩, rfl, ?_, rfl⟩
  · simp [run_cons, run_nil, exec]
  · simp [run_cons, run_nil, exec]
  · have hi12 : (Fin.ofNat 32 (3 + i) : Reg) ≠ 12 := argReg_ne (j := 9) (by omega) (by omega) (by omega)
    have hne := argReg_ne (i := i) (j := argc) (by omega) (by omega) (by omega)
    rw [intArg_reg _ (by omega), intArg_reg _ (by omega)]
    simp [run_cons, run_nil, exec, -Fin.ofNat_eq_cast, hi12, hne]
  · rw [intArg_reg _ (by omega)]
    simp [run_cons, run_nil, exec, -Fin.ofNat_eq_cast, h12]
  · simp [run_cons, run_nil, exec, -Fin.ofNat_eq_cast, h1]

def epilogue : List (BitVec 32) := [0x38210070, 0xE8010010, 0x7C0803A6, 0x4E800020]

theorem epilogue_returns {r : State} : ∃ f, runTo r epilogue = some (f, .blr, []) ∧
    f.gpr 1 = r.gpr 1 + 112 ∧ f.lr = r.mem.read (r.gpr 1 + 112 + 16) 8 ∧ f.gpr 3 = r.gpr 3 ∧
      f.mem = r.mem := by
  have hpop : Assembles [0x38210070, 0xE8010010, 0x7C0803A6]
      [.addi 1 1 112, .ld 0 16 1, .mtlr 0] := by decide
  have hrun := hpop.runTo r [0x4E800020]
  exact ⟨_, hrun, rfl, rfl, rfl, rfl⟩

theorem apart_frame (b : Word) (h : i + 8 ≤ j ∨ j + 8 ≤ i) (hi : i < 256) (hj : j < 256) :
    Apart (b + BitVec.ofNat 64 i) 8 (b + BitVec.ofNat 64 j) 8 :=
  .of_offsets b h (by omega) (by omega)

def frameMem (s : State) (words : List (ℕ × Word)) : Mem :=
  words.foldl (fun m w => m.write (s.gpr 1 - 112 + BitVec.ofNat 64 w.1) 8 w.2)
    ((s.mem.write (s.gpr 1 + 16) 8 s.lr).write (s.gpr 1 - 112) 8 (s.gpr 1))

theorem frame_sub : s.gpr 1 + BitVec.ofInt 64 (-112) = s.gpr 1 - 112 := by
  rw [BitVec.sub_eq_add_neg]
  rfl

theorem link_offset : s.gpr 1 + 16 = s.gpr 1 - 112 + BitVec.ofNat 64 128 := by
  rw [BitVec.sub_eq_add_neg, BitVec.add_assoc]
  rfl

theorem read_frameMem {words : List (ℕ × Word)} (hi : i < 256)
    (h : ∀ w ∈ words, (i + 8 ≤ w.1 ∨ w.1 + 8 ≤ i) ∧ w.1 < 256) :
    (frameMem s words).read (s.gpr 1 - 112 + BitVec.ofNat 64 i) 8 =
      (frameMem s []).read (s.gpr 1 - 112 + BitVec.ofNat 64 i) 8 := by
  induction words using List.reverseRecOn with
  | nil => rfl
  | append_singleton words w ih =>
    obtain ⟨hw, hlt⟩ := h w (by simp)
    rw [frameMem, foldl_append, foldl_cons, foldl_nil,
      read_write_apart (apart_frame _ hw hi hlt)]
    exact ih fun v hv => h v (by simp [hv])

theorem frame_zero : s.gpr 1 - 112 + BitVec.ofNat 64 0 = s.gpr 1 - 112 := BitVec.add_zero _

theorem frameMem_back : (frameMem s []).read (s.gpr 1 - 112) 8 = s.gpr 1 :=
  read_write_same (by omega)

theorem frameMem_link : (frameMem s []).read (s.gpr 1 - 112 + BitVec.ofNat 64 128) 8 = s.lr := by
  have hapart := apart_frame (s.gpr 1 - 112) (i := 128) (j := 0) (by omega) (by omega) (by omega)
  rw [frame_zero] at hapart
  rw [frameMem, foldl_nil, read_write_apart hapart, link_offset]
  exact read_write_same (by omega)

theorem returns_of_frame {s d : State} {words : List (ℕ × Word)} (hmem : d.mem = frameMem s words)
    (hsp : d.gpr 1 = s.gpr 1 - 112) (h : ∀ w ∈ words, 8 ≤ w.1 ∧ w.1 ≤ 120) :
    d.mem.read (d.gpr 1) 8 = s.gpr 1 ∧ d.mem.read (s.gpr 1 + 16) 8 = s.lr ∧
      ∀ r : State, r.gpr 1 = d.gpr 1 → r.mem.read (s.gpr 1 + 16) 8 = s.lr →
        ∃ f, runTo r epilogue = some (f, .blr, []) ∧ f.lr = s.lr ∧ f.gpr 1 = s.gpr 1 ∧
          f.gpr 3 = r.gpr 3 ∧ f.mem = r.mem := by
  refine ⟨?_, ?_, fun r hr hlink => ?_⟩
  · have hback := read_frameMem s (i := 0) (by omega) fun w hw => by
      have := h w hw
      omega
    rw [frame_zero, frameMem_back] at hback
    rw [hmem, hsp, hback]
  · have hlink := read_frameMem s (i := 128) (by omega) fun w hw => by
      have := h w hw
      omega
    rw [hmem, link_offset, hlink, frameMem_link]
  · obtain ⟨f, hrun, hf1, hflr, hf3, hfmem⟩ := epilogue_returns
    have hpop : r.gpr 1 + 112 = s.gpr 1 := by rw [hr, hsp, BitVec.sub_add_cancel]
    rw [hpop] at hf1 hflr
    exact ⟨f, hrun, hflr.trans hlink, hf1, hf3, hfmem⟩

theorem stubCode_frame {fn dispatch : Word} {argc : ℕ} (h : argc = 8 ∨ argc = 9) :
    ∃ d words, runTo s (stubCode fn dispatch argc) = some (d, .bctrl, epilogue) ∧
      Enters s d fn dispatch argc ∧ d.gpr 1 = s.gpr 1 - 112 ∧ d.mem = frameMem s words ∧
      ∀ w ∈ words, 96 ≤ w.1 ∧ w.1 ≤ 104 := by
  have h11 := emitLoadImm64_assembles 11 fn
  have h12 := emitLoadImm64_assembles 12 dispatch
  have hmt : Assembles [0x7D8903A6] [.mtctr 12] := by decide
  obtain rfl | rfl := h
  · have hpush : Assembles [0x7C0802A6, 0xF8010010, 0xF821FF91]
        [.mflr 0, .std 0 16 1, .stdu 1 (-112) 1] := by decide
    have hstore : Assembles [0xF9610060] [.std 11 96 1] := by decide
    have hrun := ((((hpush.append h11).append hstore).append h12).append hmt).runTo s
      [0x4E800421, 0x38210070, 0xE8010010, 0x7C0803A6, 0x4E800020]
    simp only [run_append, run_loadImm64] at hrun
    refine ⟨_, [(96, fn)], hrun, ?_⟩
    set d := Ppc.run _ [Instr.mtctr 12] with hd
    have hsp : d.gpr 1 = s.gpr 1 - 112 := frame_sub s
    have hmem : d.mem = frameMem s [(96, fn)] := by
      rw [frameMem, ← frame_sub]
      rfl
    refine ⟨⟨rfl, rfl, fun i hi => ?_, ?_⟩, hsp, hmem, by simp⟩
    · rw [intArg_reg _ hi, intArg_reg _ hi]
      interval_cases i <;> rfl
    · rw [intArg, if_neg (by omega), hsp, hmem]
      exact read_write_same (by omega)
  · have hpush : Assembles [0x7C0802A6, 0xE9610060, 0xF8010010, 0xF821FF91, 0xF9610060]
        [.mflr 0, .ld 11 96 1, .std 0 16 1, .stdu 1 (-112) 1, .std 11 96 1] := by decide
    have hstore : Assembles [0xF9610068] [.std 11 104 1] := by decide
    have hrun := ((((hpush.append h11).append hstore).append h12).append hmt).runTo s
      [0x4E800421, 0x38210070, 0xE8010010, 0x7C0803A6, 0x4E800020]
    simp only [run_append, run_loadImm64] at hrun
    refine ⟨_, [(96, s.mem.read (s.gpr 1 + 96) 8), (104, fn)], hrun, ?_⟩
    set d := Ppc.run _ [Instr.mtctr 12] with hd
    have hsp : d.gpr 1 = s.gpr 1 - 112 := frame_sub s
    have hmem : d.mem = frameMem s [(96, s.mem.read (s.gpr 1 + 96) 8), (104, fn)] := by
      rw [frameMem, foldl_cons, ← frame_sub]
      rfl
    refine ⟨⟨rfl, rfl, fun i hi => ?_, ?_⟩, hsp, hmem, by simp⟩
    · by_cases hi8 : i < 8
      · rw [intArg_reg _ hi8, intArg_reg _ hi8]
        interval_cases i <;> rfl
      obtain rfl : i = 8 := by omega
      rw [intArg, intArg, if_neg (by omega), if_neg (by omega), hsp, hmem, frameMem,
        foldl_cons, foldl_cons, foldl_nil,
        read_write_apart (apart_frame _ (by omega) (by omega) (by omega))]
      exact read_write_same (by omega)
    · rw [intArg, if_neg (by omega), hsp, hmem]
      exact read_write_same (by omega)

theorem stubCode_enters {fn dispatch : Word} {argc : ℕ} (h : argc ≤ 9) :
    ∃ d op rest, runTo s (stubCode fn dispatch argc) = some (d, op, rest) ∧
      Enters s d fn dispatch argc := by
  obtain h7 | h8 : argc ≤ 7 ∨ (argc = 8 ∨ argc = 9) := by omega
  · obtain ⟨d, hrun, hd, -⟩ := stubCode_jumps s fn dispatch h7
    exact ⟨d, _, _, hrun, hd⟩
  · obtain ⟨d, -, hrun, hd, -⟩ := stubCode_frame s h8
    exact ⟨d, _, epilogue, hrun, hd⟩

end WinePpc64.Callback
