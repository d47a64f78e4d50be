import WinePpc64.Ppc.Machine

namespace WinePpc64.Ppc

inductive Op
  | instr (i : Instr)
  | bctr
  | bctrl
  | blr
  deriving DecidableEq, Repr

def field (w : BitVec 32) (lo n : ℕ) : ℕ := (w.extractLsb' lo n).toNat

def regAt (w : BitVec 32) (lo : ℕ) : Reg := Fin.ofNat 32 (field w lo 5)

def imm16 (w : BitVec 32) : BitVec 16 := w.extractLsb' 0 16

def dsDisp (w : BitVec 32) : ℤ := (w.extractLsb' 2 14 ++ 0#2).toInt

def decode (w : BitVec 32) : Option Op :=
  match field w 26 6 with
  | 14 => some (.instr (.addi (regAt w 21) (regAt w 16) (imm16 w).toInt))
  | 15 => if regAt w 16 = 0 then some (.instr (.lis (regAt w 21) (imm16 w))) else none
  | 19 => if w = 0x4E800420 then some .bctr else if w = 0x4E800421 then some .bctrl
      else if w = 0x4E800020 then some .blr else none
  | 24 => some (.instr (.ori (regAt w 16) (regAt w 21) (imm16 w)))
  | 25 => some (.instr (.oris (regAt w 16) (regAt w 21) (imm16 w)))
  | 30 => if field w 0 16 = 0x07C6 then some (.instr (.sldi32 (regAt w 16) (regAt w 21))) else none
  | 31 => match field w 0 21 with
    | 0x802A6 => some (.instr (.mflr (regAt w 21)))
    | 0x803A6 => some (.instr (.mtlr (regAt w 21)))
    | 0x903A6 => some (.instr (.mtctr (regAt w 21)))
    | _ => none
  | 58 => if field w 0 2 = 0 then some (.instr (.ld (regAt w 21) (dsDisp w) (regAt w 16))) else none
  | 62 => match field w 0 2 with
    | 0 => some (.instr (.std (regAt w 21) (dsDisp w) (regAt w 16)))
    | 1 => some (.instr (.stdu (regAt w 21) (dsDisp w) (regAt w 16)))
    | _ => none
  | _ => none

def runTo (s : State) : List (BitVec 32) → Option (State × Op × List (BitVec 32))
  | [] => none
  | w :: ws => match decode w with
    | none => none
    | some (.instr i) => runTo (exec s i) ws
    | some op => some (s, op, ws)

variable {w : BitVec 32} {imm : BitVec 16} {ws vs : List (BitVec 32)}

theorem runTo_instr {s : State} {i : Instr} (h : decode w = some (.instr i)) :
    runTo s (w :: ws) = runTo (exec s i) ws := by
  rw [runTo, h]

def Assembles (ws : List (BitVec 32)) (is : List Instr) : Prop := ws.map decode = is.map (some ∘ .instr)

instance (ws : List (BitVec 32)) (is : List Instr) : Decidable (Assembles ws is) :=
  inferInstanceAs (Decidable (_ = _))

theorem Assembles.append {is js : List Instr} (h : Assembles ws is)
    (h' : Assembles vs js) : Assembles (ws ++ vs) (is ++ js) := by
  rw [Assembles, List.map_append, List.map_append, h, h']

theorem Assembles.runTo {is : List Instr} (h : Assembles ws is) (s : State)
    (vs : List (BitVec 32)) : runTo s (ws ++ vs) = Ppc.runTo (run s is) vs := by
  induction ws generalizing is s with
  | nil =>
    obtain rfl : is = [] := by simpa [Assembles] using h
    rfl
  | cons w ws ih =>
    cases is with
    | nil => simp [Assembles] at h
    | cons i is =>
      obtain ⟨hw, hws⟩ := List.cons.inj h
      rw [List.cons_append, runTo_instr hw, ih hws]
      rfl

theorem extractLsb'_or_imm {start len : ℕ} (h : 16 ≤ start) :
    (w ||| imm.setWidth 32).extractLsb' start len = w.extractLsb' start len := by
  apply BitVec.eq_of_getLsbD_eq
  intro i hi
  have himm : imm.getLsbD (start + i) = false := BitVec.getLsbD_of_ge _ _ (by omega)
  simp [himm]

theorem imm16_or_imm (h : imm16 w = 0) : imm16 (w ||| imm.setWidth 32) = imm := by
  rw [imm16, BitVec.extractLsb'_or]
  rw [imm16] at h
  rw [h]
  apply BitVec.eq_of_getLsbD_eq
  intro i hi
  have hi' : i < 32 := by omega
  simp [hi, hi']

theorem field_or_imm {lo n : ℕ} (h : 16 ≤ lo) : field (w ||| imm.setWidth 32) lo n = field w lo n := by
  rw [field, field, extractLsb'_or_imm h]

theorem regAt_or_imm {lo : ℕ} (h : 16 ≤ lo) : regAt (w ||| imm.setWidth 32) lo = regAt w lo := by
  rw [regAt, regAt, field_or_imm h]

end WinePpc64.Ppc
