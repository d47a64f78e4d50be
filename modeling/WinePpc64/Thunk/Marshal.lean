import WinePpc64.Lib.Binary
import WinePpc64.Lib.Memory

namespace WinePpc64.Thunk

open Lib

abbrev Word := BitVec 64

def thunkMaxArgs : ℕ := 16
def thunkMaxFpArgs : ℕ := 8

def thunkWidth (w : BitVec 32) (i : ℕ) : BitVec 32 := w >>> (i * 2) &&& 3
def thunkSigned (s : BitVec 32) (i : ℕ) : BitVec 32 := s >>> i &&& 1
def thunkFpMask (fp : BitVec 32) : BitVec 32 := fp &&& 0xff
def thunkFpSingle (fp : BitVec 32) : BitVec 32 := fp >>> 8 &&& 0xff

def narrowThunkArg (v : Word) (width sign : BitVec 32) : Word :=
  if width = 1 then (v.setWidth 32).setWidth 64
  else if width = 2 then
    if sign ≠ 0 then (v.setWidth 16).signExtend 64 else (v.setWidth 16).setWidth 64
  else if width = 3 then
    if sign ≠ 0 then (v.setWidth 8).signExtend 64 else (v.setWidth 8).setWidth 64
  else v

structure Context where
  r10 : Word
  rdx : Word
  r8 : Word
  r9 : Word
  rsp : Word
  xmm : ℕ → BitVec 128
  mem : Mem

structure ArgLevers where
  widthOff : Bool
  signOff : Bool
  fpNostack : Bool

def ArgLevers.unset : ArgLevers := ⟨false, false, false⟩

structure Descriptor where
  narrow : BitVec 32
  widths : BitVec 32
  signs : BitVec 32
  fp : BitVec 32

def Context.slotAddress (ctx : Context) (i : ℕ) : Word := ctx.rsp + 8 + BitVec.ofNat 64 (i * 8)

def Context.gprSlot (ctx : Context) : ℕ → Word
  | 0 => ctx.r10
  | 1 => ctx.rdx
  | 2 => ctx.r8
  | 3 => ctx.r9
  | i => ctx.mem.read (ctx.slotAddress i) 8

variable (lev : ArgLevers) (ctx : Context) (d : Descriptor)

def cutArg (i : ℕ) (v : Word) : Word :=
  let widths := if lev.widthOff then 0 else d.widths
  let signs := if lev.signOff then 0 else d.signs
  if widths ≠ 0 then narrowThunkArg v (thunkWidth widths i) (thunkSigned signs i)
  else if d.narrow.getLsbD i then (v.setWidth 32).setWidth 64
  else v

def marshalThunkArgs (argc : ℕ) : List Word :=
  (List.range argc).map fun i => cutArg lev d i (ctx.gprSlot i)

def Context.fpSlot (i n : ℕ) : BitVec (8 * n) :=
  if i < 4 ∨ lev.fpNostack then (ctx.xmm i).setWidth (8 * n) else ctx.mem.read (ctx.slotAddress i) n

structure RegFiles where
  gpr : ℕ → Word
  fpr : List Word

def fpArg (i : ℕ) : Word :=
  if (thunkFpSingle d.fp).getLsbD i then widen (ctx.fpSlot lev i 4) else ctx.fpSlot lev i 8

def marshalFpArg (st : RegFiles) (i : ℕ) : RegFiles :=
  if (thunkFpMask d.fp).getLsbD i then
    if st.fpr.length < thunkMaxFpArgs then { st with fpr := st.fpr ++ [fpArg lev ctx d i] } else st
  else if thunkMaxArgs ≤ i then st
  else if lev.fpNostack ∧ 8 ≤ i then st
  else { st with gpr := Function.update st.gpr i (cutArg lev d i (ctx.gprSlot i)) }

def marshalThunkArgsFp (argc : ℕ) : RegFiles :=
  (List.range argc).foldl (marshalFpArg lev ctx d) ⟨fun _ => 0, []⟩

end WinePpc64.Thunk
