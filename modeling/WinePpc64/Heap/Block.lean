import Mathlib

namespace WinePpc64.Heap

open BitVec

def blockAlign : ℕ := 16

def sizeofBlock : ℕ := 8

def minBlockSize : ℕ := 48

def maxUsedBlockSize : ℕ := 0xffff * blockAlign

def minLargeBlockSize : ℕ := maxUsedBlockSize - 0x1000

def roundSize (size align : ℕ) : ℕ := (size + (align - 1)) % 2 ^ 64 / align * align

abbrev BlockFlags := BitVec 8

def flagFree : BlockFlags := 0x01
def flagPrevFree : BlockFlags := 0x02
def flagLarge : BlockFlags := 0x04
def flagLfh : BlockFlags := 0x80
def flagUserInfo : BlockFlags := 0x08
def flagUserMask : BlockFlags := 0x78

inductive BlockType
  | used | dead | free | large
  deriving DecidableEq, Repr

/-- `struct block`: the size in units of `blockAlign`, the unused bytes of a used block or the high half
of a free block's size, the distance to the region's base or the index in an LFH group. -/
structure Block where
  blockSize : BitVec 16
  tailSize : BitVec 16
  baseOffset : BitVec 16
  type : BlockType
  flags : BlockFlags
  deriving DecidableEq, Repr

namespace Block

variable {b : Block} {clear set f : BlockFlags} {size n : ℕ}

def has (b : Block) (f : BlockFlags) : Bool := b.flags &&& f != 0

def getSize (b : Block) : ℕ :=
  (b.blockSize.toNat + if b.has flagFree then b.tailSize.toNat * 2 ^ 16 else 0) * blockAlign % 2 ^ 32

def setSize (b : Block) (size : ℕ) : Block :=
  let units := size % 2 ^ 32 / blockAlign
  { b with
    blockSize := .ofNat 16 units
    tailSize := if b.has flagFree then .ofNat 16 (units / 2 ^ 16) else b.tailSize }

def setType (b : Block) (type : BlockType) : Block := { b with type := type }

def setFlags (b : Block) (clear set : BlockFlags) : Block :=
  { b with flags := (b.flags &&& ~~~clear) ||| set }.setSize b.getSize

def getOverhead (b : Block) : ℕ :=
  if b.has flagFree then sizeofBlock + 16 else sizeofBlock + b.tailSize.toNat

def setTail (b : Block) (blockSize size : ℕ) : Block :=
  { b with tailSize := .ofInt 16 (blockSize - sizeofBlock - size) }

@[simp] theorem flags_setSize : (b.setSize size).flags = b.flags := rfl
@[simp] theorem has_setSize : (b.setSize size).has f = b.has f := rfl
@[simp] theorem type_setSize : (b.setSize size).type = b.type := rfl
@[simp] theorem baseOffset_setSize : (b.setSize size).baseOffset = b.baseOffset := rfl
@[simp] theorem baseOffset_setFlags : (b.setFlags clear set).baseOffset = b.baseOffset := rfl
@[simp] theorem type_setFlags : (b.setFlags clear set).type = b.type := rfl
@[simp] theorem has_setType (t : BlockType) : (b.setType t).has f = b.has f := rfl
@[simp] theorem getSize_setType {t : BlockType} : (b.setType t).getSize = b.getSize := rfl
@[simp] theorem type_setType (t : BlockType) : (b.setType t).type = t := rfl
@[simp] theorem has_setTail {n : ℕ} : (b.setTail n size).has f = b.has f := rfl
@[simp] theorem flags_setTail (n : ℕ) : (b.setTail n size).flags = b.flags := rfl

theorem flags_setFlags : (b.setFlags clear set).flags = (b.flags &&& ~~~clear) ||| set := rfl

theorem or_and_flags {a c f : BlockFlags} : (a ||| c) &&& f = (a &&& f) ||| (c &&& f) := by
  ext i
  simp [Bool.and_or_distrib_right]

theorem has_setFlags : (b.setFlags clear set).has f =
    (b.flags &&& (~~~clear &&& f) ||| (set &&& f) != 0) := by
  simp only [has, flags_setFlags, or_and_flags, BitVec.and_assoc]

theorem has_setFlags_keep (hc : ~~~clear &&& f = f) (hs : set &&& f = 0#8) :
    (b.setFlags clear set).has f = b.has f := by
  rw [has_setFlags, hc, hs, or_zero]
  rfl

theorem has_setFlags_clear (hc : ~~~clear &&& f = 0#8) : (b.setFlags clear set).has f = (set &&& f != 0) := by
  rw [has_setFlags, hc, and_zero, zero_or]

theorem getSize_lt (b : Block) : b.getSize < 2 ^ 32 := Nat.mod_lt _ (by norm_num)

theorem dvd_getSize (b : Block) : blockAlign ∣ b.getSize := by
  unfold getSize blockAlign
  omega

theorem getSize_setSize_div (hlt : size < 2 ^ 32)
    (hfit : b.has flagFree = false → size < maxUsedBlockSize + blockAlign) :
    (b.setSize size).getSize = size / blockAlign * blockAlign := by
  rw [getSize, has_setSize]
  unfold setSize
  unfold maxUsedBlockSize blockAlign at *
  cases hb : b.has flagFree with
  | true =>
    simp only [if_true, toNat_ofNat]
    omega
  | false =>
    have := hfit hb
    simp only [Bool.false_eq_true, if_false, toNat_ofNat]
    omega

theorem getSize_setSize (hdvd : blockAlign ∣ size) (hlt : size < 2 ^ 32)
    (hfit : b.has flagFree = false → size ≤ maxUsedBlockSize) : (b.setSize size).getSize = size := by
  rw [getSize_setSize_div hlt fun h => Nat.lt_of_le_of_lt (hfit h) (by decide)]
  exact Nat.div_mul_cancel hdvd

theorem getSize_setFlags (hfit : (b.setFlags clear set).has flagFree = false → b.getSize ≤ maxUsedBlockSize) :
    (b.setFlags clear set).getSize = b.getSize :=
  getSize_setSize b.dvd_getSize b.getSize_lt hfit

theorem getSize_le_of_used (h : b.has flagFree = false) : b.getSize ≤ maxUsedBlockSize := by
  simp only [getSize, h, blockAlign, maxUsedBlockSize, Bool.false_eq_true, if_false]
  omega

theorem getSize_setTail (h : b.has flagFree = false) : (b.setTail n size).getSize = b.getSize := by
  simp only [getSize, has_setTail, h, Bool.false_eq_true, if_false]
  rfl

theorem tailSize_setTail (h : size + sizeofBlock ≤ n) (hlt : n < size + sizeofBlock + 2 ^ 16) :
    (b.setTail n size).tailSize.toNat = n - sizeofBlock - size := by
  simp only [setTail, toNat_ofInt, sizeofBlock] at *
  omega

end Block

abbrev HeapFlags := BitVec 32

def heapGenerateExceptions : HeapFlags := 0x00000004
def heapNoSerialize : HeapFlags := 0x00000001
def heapZeroMemory : HeapFlags := 0x00000008
def heapReallocInPlaceOnly : HeapFlags := 0x00000010
def heapTailChecking : HeapFlags := 0x00000020
def heapFreeChecking : HeapFlags := 0x00000040
def heapAddUserInfo : HeapFlags := 0x00000100
def heapUserFlagsMask : HeapFlags := 0x00000f00
def heapValidate : HeapFlags := 0x10000000
def heapValidateAll : HeapFlags := 0x20000000
def heapValidateParams : HeapFlags := 0x40000000
def heapCheckingEnabled : HeapFlags := 0x80000000

def blockUserFlags (flags : HeapFlags) : BlockFlags := (flags >>> 5).setWidth 8 &&& flagUserMask

theorem blockUserFlags_and {f : BlockFlags} {flags : HeapFlags} (h : flagUserMask &&& f = 0#8) :
    blockUserFlags flags &&& f = 0#8 := by
  rw [blockUserFlags, BitVec.and_assoc, h, and_zero]

def heapGetFlags (heap flags : HeapFlags) : HeapFlags :=
  let flags := if flags &&& (heapTailChecking ||| heapFreeChecking) ≠ 0 then flags ||| heapCheckingEnabled
    else flags
  heap ||| (flags &&& (heapGenerateExceptions ||| heapNoSerialize ||| heapZeroMemory |||
    heapReallocInPlaceOnly ||| heapCheckingEnabled ||| heapUserFlagsMask))

def blockOverhead (flags : HeapFlags) : ℕ :=
  (if flags &&& (heapTailChecking ||| heapFreeChecking ||| heapCheckingEnabled) ≠ 0 then blockAlign
    else sizeofBlock) +
  (if flags &&& heapTailChecking ≠ 0 then blockAlign else 0) +
  if flags &&& (heapValidate ||| heapValidateAll ||| heapValidateParams ||| heapAddUserInfo) ≠ 0 then
    blockAlign else 0

def heapGetBlockSize (flags : HeapFlags) (size : ℕ) : Option ℕ :=
  let size := max size blockAlign
  let blockSize := roundSize ((size + blockOverhead flags) % 2 ^ 64) blockAlign
  if blockSize < size then none else some (max blockSize minBlockSize)

theorem blockOverhead_bounds (flags : HeapFlags) :
    sizeofBlock ≤ blockOverhead flags ∧ blockOverhead flags ≤ 48 := by
  simp only [blockOverhead, blockAlign, sizeofBlock]
  split <;> split <;> split <;> omega

theorem heapGetBlockSize_spec {flags : HeapFlags} {size n : ℕ} (hsize : size < 2 ^ 64)
    (h : heapGetBlockSize flags size = some n) :
    blockAlign ∣ n ∧ minBlockSize ≤ n ∧ size + sizeofBlock ≤ n ∧ n ≤ size + 79 := by
  obtain ⟨hlo, hhi⟩ := blockOverhead_bounds flags
  simp only [heapGetBlockSize, Option.ite_none_left_eq_some, Option.some.injEq] at h
  simp only [roundSize, blockAlign, sizeofBlock, minBlockSize] at *
  omega

def binSizeMin (n : ℕ) : ℕ := if n = 0 then 0 else 0x80 <<< n

def binSizeStep (n : ℕ) : ℕ := if n = 0 then 16 else binSizeMin n >>> 4

def binSizeMax : ℕ := 0x8000

def blockSizeBin (size : ℕ) : ℕ :=
  if size > binSizeMax then 0x80
  else if size > binSizeMin 7 then 0x70 + (size - 1 - binSizeMin 7) / binSizeStep 7
  else if size > binSizeMin 6 then 0x60 + (size - 1 - binSizeMin 6) / binSizeStep 6
  else if size > binSizeMin 5 then 0x50 + (size - 1 - binSizeMin 5) / binSizeStep 5
  else if size > binSizeMin 4 then 0x40 + (size - 1 - binSizeMin 4) / binSizeStep 4
  else if size > binSizeMin 3 then 0x30 + (size - 1 - binSizeMin 3) / binSizeStep 3
  else if size > binSizeMin 2 then 0x20 + (size - 1 - binSizeMin 2) / binSizeStep 2
  else if size > binSizeMin 1 then 0x10 + (size - 1 - binSizeMin 1) / binSizeStep 1
  else if size ≤ binSizeMin 0 then 0 else (size - 1 - binSizeMin 0) / binSizeStep 0

def blockBinSize (bin : ℕ) : ℕ :=
  if bin ≥ 0x80 then 2 ^ 64 - 1
  else binSizeMin (bin / 0x10) + (bin % 0x10 + 1) * binSizeStep (bin / 0x10)

theorem blockBinSize_eq {n q : ℕ} (hn : n < 8) (hq : q < 16) :
    blockBinSize (0x10 * n + q) = binSizeMin n + (q + 1) * binSizeStep n := by
  have hdiv : (0x10 * n + q) / 0x10 = n := by omega
  have hmod : (0x10 * n + q) % 0x10 = q := by omega
  rw [blockBinSize, if_neg (by omega), hdiv, hmod]

theorem blockSizeBin_eq {size : ℕ} (hpos : 0 < size) (h : size ≤ binSizeMax) :
    ∃ n < 8, binSizeMin n < size ∧ size ≤ binSizeMin (n + 1) ∧
      blockSizeBin size = 0x10 * n + (size - 1 - binSizeMin n) / binSizeStep n := by
  have h0 : binSizeMin 0 = 0 := rfl
  unfold blockSizeBin
  split_ifs with hmax h7 h6 h5 h4 h3 h2 h1 hz
  · omega
  · exact ⟨7, by omega, h7, h, rfl⟩
  · exact ⟨6, by omega, h6, not_lt.mp h7, rfl⟩
  · exact ⟨5, by omega, h5, not_lt.mp h6, rfl⟩
  · exact ⟨4, by omega, h4, not_lt.mp h5, rfl⟩
  · exact ⟨3, by omega, h3, not_lt.mp h4, rfl⟩
  · exact ⟨2, by omega, h2, not_lt.mp h3, rfl⟩
  · exact ⟨1, by omega, h1, not_lt.mp h2, rfl⟩
  · omega
  · exact ⟨0, by omega, not_le.mp hz, not_lt.mp h1, by omega⟩

theorem binSize_range : ∀ n < 8, binSizeMin (n + 1) = binSizeMin n + 16 * binSizeStep n ∧
    binSizeMin (n + 1) ≤ binSizeMax ∧ blockAlign ∣ binSizeMin n ∧ blockAlign ∣ binSizeStep n ∧
    0 < binSizeStep n ∧ binSizeStep n ≤ 0x400 := by
  decide

theorem blockBinSize_blockSizeBin {size : ℕ} (hpos : 0 < size) (h : size ≤ binSizeMax) :
    blockAlign ∣ blockBinSize (blockSizeBin size) ∧ size ≤ blockBinSize (blockSizeBin size) ∧
      blockBinSize (blockSizeBin size) < size + 0x400 ∧ blockBinSize (blockSizeBin size) ≤ binSizeMax := by
  obtain ⟨n, hn, hlo, hhi, hbin⟩ := blockSizeBin_eq hpos h
  obtain ⟨hnext, htop, hmin, hdvd, hstep, hmax⟩ := binSize_range n hn
  have hq : (size - 1 - binSizeMin n) / binSizeStep n < 16 := by
    rw [Nat.div_lt_iff_lt_mul hstep]
    omega
  have hfloor := Nat.div_mul_le_self (size - 1 - binSizeMin n) (binSizeStep n)
  rw [hbin, blockBinSize_eq hn hq]
  refine ⟨Nat.dvd_add hmin (Dvd.dvd.mul_left hdvd _), ?_, ?_, ?_⟩
  · have hceil := Nat.lt_mul_div_succ (size - 1 - binSizeMin n) hstep
    rw [Nat.mul_comm] at hceil
    omega
  · rw [Nat.succ_mul]
    omega
  · have hall : ((size - 1 - binSizeMin n) / binSizeStep n + 1) * binSizeStep n ≤ 16 * binSizeStep n :=
      Nat.mul_le_mul_right _ hq
    omega

end WinePpc64.Heap
