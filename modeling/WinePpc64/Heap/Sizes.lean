import WinePpc64.Heap.Block
import WinePpc64.Lib.Runs

namespace WinePpc64.Heap

open Lib Option Block Function

def splitBlock (b : Block) (oldBlockSize blockSize : ℕ) : Block :=
  if oldBlockSize ≥ blockSize + minBlockSize then b.setSize blockSize else b.setSize oldBlockSize

def heapAllocateBlock (flags : HeapFlags) (blockSize size : ℕ) (free : Block) : Block :=
  let b := splitBlock free free.getSize blockSize
  let b := (b.setType .used).setFlags 0xff (blockUserFlags flags)
  b.setTail b.getSize size

def groupBlock (index : BitVec 16) (blockSize : ℕ) : Block :=
  (⟨0, 0, index, .free, flagFree ||| flagLfh⟩ : Block).setSize blockSize

def heapAllocateBlockLfh (flags : HeapFlags) (blockSize size : ℕ) (b : Block) : Block :=
  ((b.setType .used).setFlags (~~~flagLfh) (blockUserFlags flags)).setTail blockSize size

def largeBlock (flags : HeapFlags) : Block :=
  ((⟨0, 0, 0, .large, 0⟩ : Block).setFlags 0xff (flagLarge ||| blockUserFlags flags)).setSize 0

/-- `heap_resize_block`. `next` is the size of the block behind this one if it is there and free,
`committed` says if the memory for a growth can be had. -/
def heapResizeBlock (flags : HeapFlags) (blockSize size : ℕ) (b : Block) (next : Option ℕ)
    (committed : Bool) : Option Block :=
  let oldBlockSize := b.getSize
  if blockSize > oldBlockSize ∧
      (next.isNone ∨ blockSize > oldBlockSize + next.getD 0 ∨ committed = false) then none
  else
    let b := splitBlock b (oldBlockSize + next.getD 0) blockSize
    let b := b.setFlags (flagUserMask &&& ~~~flagUserInfo) (blockUserFlags flags)
    some (b.setTail b.getSize size)

def heapResizeBlockLfh (flags : HeapFlags) (blockSize size oldSize : ℕ) (b : Block) : Option Block :=
  if roundSize oldSize blockAlign ≠ roundSize size blockAlign then none
  else if size ≥ oldSize then none
  else
    let blockSize := blockBinSize (blockSizeBin blockSize)
    some ((b.setFlags (flagUserMask &&& ~~~flagUserInfo) (blockUserFlags flags)).setTail blockSize size)

/-- An allocation: its header, the two sizes of the arena that a large block is in, and the size given
in the call that last allocated or reallocated it, which the heap does not keep. -/
structure Alloc where
  block : Block
  dataSize : ℕ
  arenaSize : ℕ
  asked : ℕ
  deriving DecidableEq, Repr

def Alloc.reported (a : Alloc) : ℕ :=
  if a.block.has flagLarge then a.dataSize
  else (a.block.getSize + 2 ^ 32 - a.block.getOverhead) % 2 ^ 32

def Alloc.oldSize (a : Alloc) : ℕ :=
  if a.block.has flagLarge then a.dataSize
  else (a.block.getSize + 2 ^ 64 - a.block.getOverhead) % 2 ^ 64

def Alloc.copied (a : Alloc) (size : ℕ) : ℕ := min size a.oldSize

structure Bin where
  countAlloc : BitVec 32
  countFreed : BitVec 32
  enabled : Bool

structure State where
  flags : HeapFlags
  bins : Option (ℕ → Bin)
  pending : Option (List Block)
  live : ℕ → Option Alloc

def maxFreePending : ℕ := 1024

def binTryEnable (i : ℕ) (bin : Bin) : Bin :=
  let used := (bin.countAlloc - bin.countFreed).toNat
  if (i = 0 ∧ bin.countAlloc.toNat > 0x10) ∨ (i < 0x30 ∧ bin.countAlloc.toNat > 0x800) ∨
      (i < 0x30 ∧ used > 0x10) ∨ used > 0x400000 / blockBinSize i then
    { bin with enabled := true }
  else bin

namespace State

def put (s : State) (p : ℕ) (a : Alloc) : State := { s with live := Function.update s.live p (some a) }

def drop (s : State) (p : ℕ) : State := { s with live := Function.update s.live p none }

def onBin (s : State) (i : ℕ) (f : Bin → Bin) : State :=
  { s with bins := s.bins.map fun bins => Function.update bins i (f (bins i)) }

def noteAlloc (s : State) (i : ℕ) : State :=
  s.onBin i fun bin =>
    let bin := { bin with countAlloc := bin.countAlloc + 1 }
    if bin.enabled then bin else binTryEnable i bin

def noteFreed (s : State) (i : ℕ) : State :=
  s.onBin i fun bin => { bin with countFreed := bin.countFreed + 1 }

def lfhServes (s : State) (blockSize : ℕ) : Bool :=
  blockSizeBin blockSize ≠ 0x80 && s.bins.any fun bins => (bins (blockSizeBin blockSize)).enabled

end State

inductive Place
  | large (p : ℕ)
  | lfh (p : ℕ) (index : BitVec 16)
  | block (p : ℕ) (free : Block)

def largeTotal (size : ℕ) : ℕ := roundSize ((64 + size) % 2 ^ 64) 0x10000

def rtlAllocateHeap (s : State) (flags : HeapFlags) (size : ℕ) (place : Place) : Option State :=
  let heapFlags := heapGetFlags s.flags flags
  match heapGetBlockSize heapFlags size, place with
  | none, _ => none
  | some blockSize, .large p =>
    if minLargeBlockSize ≤ blockSize ∧ (s.live p).isNone ∧ size ≤ largeTotal size then
      some (s.put p ⟨largeBlock heapFlags, size, largeTotal size - 56, size⟩)
    else none
  | some blockSize, .lfh p index =>
    if blockSize < minLargeBlockSize ∧ (s.live p).isNone ∧ s.lfhServes blockSize then
      let binSize := blockBinSize (blockSizeBin blockSize)
      some (s.put p ⟨heapAllocateBlockLfh heapFlags binSize size (groupBlock index binSize), 0, 0, size⟩)
    else none
  | some blockSize, .block p free =>
    if blockSize < minLargeBlockSize ∧ (s.live p).isNone ∧ free.flags = flagFree ∧ blockSize ≤ free.getSize then
      let b := heapAllocateBlock heapFlags blockSize size free
      some ((s.put p ⟨b, 0, 0, size⟩).noteAlloc (blockSizeBin b.getSize))
    else none

def releaseBlock (s : State) (b : Block) : State :=
  if b.has flagLfh then s else s.noteFreed (blockSizeBin b.getSize)

def rtlFreeHeap (s : State) (p : ℕ) : Option State :=
  (s.live p).map fun a =>
    let t := s.drop p
    if a.block.has flagLarge then t
    else
      match t.pending with
      | none => releaseBlock t a.block
      | some ring =>
        let delayed := { t with pending := some (ring ++ [a.block.setType .dead]) }
        match ring with
        | oldest :: rest =>
          if ring.length < maxFreePending then delayed
          else releaseBlock { t with pending := some (rest ++ [a.block.setType .dead]) } oldest
        | [] => delayed

def heapResizeInPlace (flags : HeapFlags) (blockSize size : ℕ) (a : Alloc) (next : Option ℕ)
    (committed : Bool) : Option Alloc :=
  if a.block.has flagLarge then
    if a.arenaSize < blockSize then none else some { a with dataSize := size, asked := size }
  else if minLargeBlockSize ≤ blockSize then none
  else
    (if a.block.has flagLfh then heapResizeBlockLfh flags blockSize size a.oldSize a.block
      else heapResizeBlock flags blockSize size a.block next committed).map fun b =>
        { a with block := b, asked := size }

def noteResize (s : State) (a : Alloc) (blockSize : ℕ) : State :=
  if a.block.has flagLarge ∨ a.block.has flagLfh then s
  else (s.noteFreed (blockSizeBin a.block.getSize)).noteAlloc (blockSizeBin blockSize)

def rtlReAllocateHeap (s : State) (flags : HeapFlags) (p size : ℕ) (next : Option ℕ) (committed : Bool)
    (place : Place) : Option State :=
  let heapFlags := heapGetFlags s.flags flags
  match heapGetBlockSize heapFlags size, s.live p with
  | some blockSize, some a =>
    match heapResizeInPlace heapFlags blockSize size a next committed with
    | some a' => some (noteResize (s.put p a') a blockSize)
    | none =>
      if flags &&& heapReallocInPlaceOnly ≠ 0 then none
      else (rtlAllocateHeap s flags size place).bind fun t => rtlFreeHeap t p
  | _, _ => none

inductive Call
  | alloc (flags : HeapFlags) (size : BitVec 64) (place : Place)
  | realloc (flags : HeapFlags) (p : ℕ) (size : BitVec 64) (next : Option ℕ) (committed : Bool) (place : Place)
  | free (p : ℕ)

def step (s : State) : Call → Option State
  | .alloc flags size place => rtlAllocateHeap s flags size.toNat place
  | .realloc flags p size next committed place => rtlReAllocateHeap s flags p size.toNat next committed place
  | .free p => rtlFreeHeap s p

def State.init (flags : HeapFlags) (growable delayed : Bool) : State where
  flags := flags
  bins := if growable then some fun _ => ⟨0, 0, false⟩ else none
  pending := if delayed then some [] else none
  live := fun _ => none

def State.Faithful (s : State) : Prop := ∀ p a, s.live p = some a → a.reported = a.asked

structure Alloc.Sound (a : Alloc) : Prop where
  used : a.block.has flagFree = false
  small : a.block.has flagLarge = false →
    a.asked + sizeofBlock + a.block.tailSize.toNat = a.block.getSize
  lfh : a.block.has flagLfh = true → a.block.has flagLarge = false ∧ a.block.getSize ≤ binSizeMax
  large : a.block.has flagLarge = true → a.dataSize = a.asked

variable {a : Alloc} {s : State}

theorem Alloc.Sound.reported (h : a.Sound) : a.reported = a.asked := by
  have hlt := a.block.getSize_lt
  cases hl : a.block.has flagLarge with
  | true => simp only [Alloc.reported, hl, if_true, h.large hl]
  | false =>
    have hs := h.small hl
    simp only [Alloc.reported, getOverhead, hl, h.used, Bool.false_eq_true, if_false]
    omega

theorem Alloc.Sound.oldSize (h : a.Sound) : a.oldSize = a.asked := by
  have hlt := a.block.getSize_lt
  cases hl : a.block.has flagLarge with
  | true => simp only [Alloc.oldSize, hl, if_true, h.large hl]
  | false =>
    have hs := h.small hl
    simp only [Alloc.oldSize, getOverhead, hl, h.used, Bool.false_eq_true, if_false]
    omega

def State.Sound (s : State) : Prop := ∀ p a, s.live p = some a → a.Sound

theorem State.Sound.faithful (h : s.Sound) : s.Faithful := fun p a ha => (h p a ha).reported

variable {size n : ℕ} {b : Block}

theorem sound_setTail {dataSize arenaSize : ℕ} (hn : b.getSize = n)
    (hfree : b.has flagFree = false) (hlarge : b.has flagLarge = false)
    (hlfh : b.has flagLfh = true → n ≤ binSizeMax)
    (hle : size + sizeofBlock ≤ n) (hlt : n < size + sizeofBlock + 2 ^ 16) :
    Alloc.Sound ⟨b.setTail n size, dataSize, arenaSize, size⟩ where
  used := hfree
  small := by
    intro _
    dsimp only
    rw [tailSize_setTail hle hlt, getSize_setTail hfree]
    omega
  lfh := by
    intro h
    rw [getSize_setTail hfree, hn]
    exact ⟨hlarge, hlfh h⟩
  large := by
    intro h
    have : b.has flagLarge = true := h
    cases hlarge.symm.trans this

theorem getSize_splitBlock {old : ℕ} (hn : blockAlign ∣ n) (hlarge : n < minLargeBlockSize)
    (hle : n ≤ old) : n ≤ (splitBlock b old n).getSize ∧ (splitBlock b old n).getSize < n + minBlockSize := by
  unfold minLargeBlockSize maxUsedBlockSize minBlockSize at *
  unfold splitBlock
  split
  next hsplit =>
    rw [getSize_setSize hn]
    · omega
    · unfold blockAlign at *
      omega
    · intro _
      unfold maxUsedBlockSize
      omega
  next hsplit =>
    unfold minBlockSize at hsplit
    rw [getSize_setSize_div]
    · unfold blockAlign at *
      omega
    · unfold blockAlign at *
      omega
    · intro _
      unfold maxUsedBlockSize
      omega

theorem has_splitBlock {old : ℕ} {f : BlockFlags} : (splitBlock b old n).has f = b.has f := by
  unfold splitBlock
  split <;> rfl

variable {flags : HeapFlags}

theorem used_flags {clear f : BlockFlags} (hc : ~~~clear &&& f = 0#8)
    (hf : flagUserMask &&& f = 0#8) : (b.setFlags clear (blockUserFlags flags)).has f = false := by
  rw [has_setFlags_clear hc, blockUserFlags_and hf]
  rfl

theorem kept_flags {clear f : BlockFlags} (hc : ~~~clear &&& f = f)
    (hf : flagUserMask &&& f = 0#8) : (b.setFlags clear (blockUserFlags flags)).has f = b.has f :=
  has_setFlags_keep hc (blockUserFlags_and hf)

theorem heapAllocateBlock_sound {free : Block} (hsize : size < 2 ^ 64)
    (h : heapGetBlockSize flags size = some n) (hlarge : n < minLargeBlockSize) (hle : n ≤ free.getSize) :
    Alloc.Sound ⟨heapAllocateBlock flags n size free, 0, 0, size⟩ := by
  obtain ⟨hdvd, -, hlo, hhi⟩ := heapGetBlockSize_spec hsize h
  obtain ⟨hge, hlt⟩ := getSize_splitBlock (b := free) hdvd hlarge hle
  have hgs : (((splitBlock free free.getSize n).setType .used).setFlags 0xff (blockUserFlags flags)).getSize =
      (splitBlock free free.getSize n).getSize := by
    apply getSize_setFlags
    intro _
    rw [getSize_setType]
    unfold minLargeBlockSize minBlockSize at *
    omega
  apply sound_setTail rfl (used_flags rfl rfl) (used_flags rfl rfl)
  · intro hlfh
    rw [used_flags rfl rfl] at hlfh
    cases hlfh
  · omega
  · unfold minBlockSize at *
    omega

variable {next : Option ℕ} {committed : Bool} {b' : Block}

theorem heapResizeBlock_sound
    {dataSize arenaSize : ℕ} (hused : b.has flagFree = false) (hl : b.has flagLarge = false)
    (hlfh : b.has flagLfh = false) (hsize : size < 2 ^ 64) (h : heapGetBlockSize flags size = some n)
    (hlarge : n < minLargeBlockSize) (hb : heapResizeBlock flags n size b next committed = some b') :
    Alloc.Sound ⟨b', dataSize, arenaSize, size⟩ := by
  obtain ⟨hdvd, -, hlo, hhi⟩ := heapGetBlockSize_spec hsize h
  simp only [heapResizeBlock, ite_none_left_eq_some, Option.some.injEq] at hb
  obtain ⟨hroom, rfl⟩ := hb
  have hle : n ≤ b.getSize + next.getD 0 := by
    by_contra hlt
    exact hroom ⟨by omega, .inr (.inl (by omega))⟩
  obtain ⟨hge, hlt⟩ := getSize_splitBlock (b := b) hdvd hlarge hle
  have hkeep : ∀ f, ~~~(flagUserMask &&& ~~~flagUserInfo) &&& f = f → flagUserMask &&& f = 0#8 →
      ((splitBlock b (b.getSize + next.getD 0) n).setFlags (flagUserMask &&& ~~~flagUserInfo)
        (blockUserFlags flags)).has f = b.has f := by
    intro f hc hf
    rw [kept_flags hc hf, has_splitBlock]
  have hgs : ((splitBlock b (b.getSize + next.getD 0) n).setFlags (flagUserMask &&& ~~~flagUserInfo)
      (blockUserFlags flags)).getSize = (splitBlock b (b.getSize + next.getD 0) n).getSize := by
    apply getSize_setFlags
    intro _
    unfold minLargeBlockSize minBlockSize at *
    omega
  apply sound_setTail rfl
  · rw [hkeep flagFree rfl rfl, hused]
  · rw [hkeep flagLarge rfl rfl, hl]
  · intro hf
    rw [hkeep flagLfh rfl rfl, hlfh] at hf
    cases hf
  · omega
  · unfold minBlockSize at *
    omega

theorem getSize_groupBlock {index : BitVec 16} (hdvd : blockAlign ∣ n) (hle : n ≤ maxUsedBlockSize) :
    (groupBlock index n).getSize = n :=
  getSize_setSize hdvd (Nat.lt_of_le_of_lt hle (by decide)) fun _ => hle

theorem heapAllocateBlockLfh_sound {index : BitVec 16} (hsize : size < 2 ^ 64)
    (h : heapGetBlockSize flags size = some n) (hbin : blockSizeBin n ≠ 0x80) :
    Alloc.Sound ⟨heapAllocateBlockLfh flags (blockBinSize (blockSizeBin n)) size
      (groupBlock index (blockBinSize (blockSizeBin n))), 0, 0, size⟩ := by
  obtain ⟨-, hmin, hlo, hhi⟩ := heapGetBlockSize_spec hsize h
  have hmax : n ≤ binSizeMax := by
    by_contra hgt
    exact hbin (if_pos (not_le.mp hgt))
  obtain ⟨hdvd, hge, hlt, hle⟩ := blockBinSize_blockSizeBin (Nat.lt_of_lt_of_le (by decide) hmin) hmax
  generalize blockBinSize (blockSizeBin n) = m at *
  have hgroup : (groupBlock index m).getSize = m := getSize_groupBlock hdvd (Nat.le_trans hle (by decide))
  have hgs : (((groupBlock index m).setType .used).setFlags (~~~flagLfh) (blockUserFlags flags)).getSize = m := by
    rw [getSize_setFlags, getSize_setType, hgroup]
    intro _
    rw [getSize_setType, hgroup]
    exact Nat.le_trans hle (by decide)
  apply sound_setTail hgs (used_flags rfl rfl) (used_flags rfl rfl)
  · exact fun _ => hle
  · omega
  · omega

theorem largeBlock_sound {flags : HeapFlags} {size arenaSize : ℕ} :
    Alloc.Sound ⟨largeBlock flags, size, arenaSize, size⟩ := by
  have hflag : ∀ f, flagUserMask &&& f = 0#8 → (largeBlock flags).has f = (flagLarge &&& f != 0) := by
    intro f hf
    have hor : (flagLarge ||| blockUserFlags flags) &&& f = flagLarge &&& f := by
      rw [or_and_flags, blockUserFlags_and hf, BitVec.or_zero]
    rw [largeBlock, has_setSize, has_setFlags_clear BitVec.zero_and, hor]
  have hlarge : (largeBlock flags).has flagLarge = true := hflag flagLarge rfl
  refine ⟨hflag flagFree rfl, fun h => ?_, fun h => ?_, fun _ => rfl⟩
  · cases hlarge.symm.trans h
  · rw [hflag flagLfh rfl] at h
    cases h

theorem heapResizeBlockLfh_eq {oldSize : ℕ}
    (hused : b.has flagFree = false) (hb : heapResizeBlockLfh flags n size oldSize b = some b') :
    size < oldSize ∧ ∃ c : Block, c.getSize = b.getSize ∧ (∀ f, f &&& flagUserMask = 0#8 → c.has f = b.has f) ∧
      b' = c.setTail (blockBinSize (blockSizeBin n)) size := by
  simp only [heapResizeBlockLfh, ite_none_left_eq_some, Option.some.injEq, not_le, ge_iff_le] at hb
  obtain ⟨-, hlt, rfl⟩ := hb
  have hkeep : ∀ f, f &&& flagUserMask = 0#8 →
      ~~~(flagUserMask &&& ~~~flagUserInfo) &&& f = f ∧ flagUserMask &&& f = 0#8 := by decide
  refine ⟨hlt, _, getSize_setFlags fun _ => getSize_le_of_used hused, fun f hf => ?_, rfl⟩
  exact kept_flags (hkeep f hf).1 (hkeep f hf).2

theorem heapResizeBlockLfh_reported (ha : a.Sound)
    (hlfh : a.block.has flagLfh = true) (hsize : size < 2 ^ 64) (h : heapGetBlockSize flags size = some n)
    (hb : heapResizeBlockLfh flags n size a.oldSize a.block = some b) :
    ({ a with block := b, asked := size } : Alloc).reported = size ↔
      blockBinSize (blockSizeBin n) = a.block.getSize := by
  obtain ⟨-, hmin, hlo, hhi⟩ := heapGetBlockSize_spec hsize h
  obtain ⟨-, c, hcs, hcf, rfl⟩ := heapResizeBlockLfh_eq ha.used hb
  obtain ⟨hl, hmax⟩ := ha.lfh hlfh
  have hfree : c.has flagFree = false := by rw [hcf _ (by decide), ha.used]
  simp only [Alloc.reported, getOverhead, has_setTail, hcf flagLarge (by decide), hl, hfree,
    Bool.false_eq_true, if_false, getSize_setTail hfree, hcs]
  by_cases hn : n ≤ binSizeMax
  · obtain ⟨-, hge, hlt', -⟩ := blockBinSize_blockSizeBin (Nat.lt_of_lt_of_le (by decide) hmin) hn
    rw [tailSize_setTail (by omega) (by omega)]
    unfold binSizeMax sizeofBlock at *
    omega
  · -- the last bin has no size of its own, and what is left of `~0` in sixteen bits is none of a block
    have hbin : blockSizeBin n = 0x80 := if_pos (not_le.mp hn)
    have hlast : blockBinSize (blockSizeBin n) = 2 ^ 64 - 1 := by rw [hbin]; rfl
    simp only [setTail, BitVec.toNat_ofInt]
    unfold binSizeMax sizeofBlock at *
    omega

theorem heapResizeBlockLfh_sound (ha : a.Sound)
    (hlfh : a.block.has flagLfh = true) (hsize : size < 2 ^ 64)
    (hb : heapResizeBlockLfh flags n size a.oldSize a.block = some b)
    (hbin : blockBinSize (blockSizeBin n) = a.block.getSize) :
    ({ a with block := b, asked := size } : Alloc).Sound := by
  obtain ⟨hlt, c, hcs, hcf, rfl⟩ := heapResizeBlockLfh_eq ha.used hb
  obtain ⟨hl, hmax⟩ := ha.lfh hlfh
  have hold := ha.small hl
  rw [ha.oldSize] at hlt
  apply sound_setTail (hcs.trans hbin.symm)
  · rw [hcf _ (by decide), ha.used]
  · rw [hcf _ (by decide), hl]
  · intro _
    omega
  · omega
  · unfold binSizeMax at hmax
    omega

def KeepsBin (s : State) : Call → Prop
  | .realloc flags p size next committed _ => ∀ a n a', s.live p = some a →
      heapGetBlockSize (heapGetFlags s.flags flags) size.toNat = some n → a.block.has flagLfh = true →
      heapResizeInPlace (heapGetFlags s.flags flags) n size.toNat a next committed = some a' →
      blockBinSize (blockSizeBin n) = a.block.getSize
  | _ => True

variable {s t : State} {p : ℕ} {a' : Alloc}

@[simp] theorem State.live_onBin (s : State) (i : ℕ) (f : Bin → Bin) : (s.onBin i f).live = s.live := rfl

@[simp] theorem State.live_noteAlloc (s : State) (i : ℕ) : (s.noteAlloc i).live = s.live := rfl

@[simp] theorem State.live_noteFreed (s : State) (i : ℕ) : (s.noteFreed i).live = s.live := rfl

@[simp] theorem live_releaseBlock : (releaseBlock s b).live = s.live := by
  unfold releaseBlock
  split <;> rfl

@[simp] theorem live_noteResize : (noteResize s a n).live = s.live := by
  unfold noteResize
  split <;> rfl

theorem rtlFreeHeap_live (h : rtlFreeHeap s p = some t) : t.live = Function.update s.live p none := by
  obtain ⟨a, -, rfl⟩ := map_eq_some_iff.mp h
  dsimp only
  split
  · rfl
  split
  · exact live_releaseBlock
  split
  · split
    · rfl
    · exact live_releaseBlock
  · rfl

theorem rtlAllocateHeap_live {place : Place} (hsize : size < 2 ^ 64)
    (h : rtlAllocateHeap s flags size place = some t) :
    ∃ p a, s.live p = none ∧ t.live = Function.update s.live p (some a) ∧ a.Sound := by
  unfold rtlAllocateHeap at h
  dsimp only at h
  split at h
  · cases h
  next n p hn =>
    simp only [ite_none_right_eq_some, Option.some.injEq] at h
    obtain ⟨⟨-, hfresh, -⟩, rfl⟩ := h
    exact ⟨p, _, isNone_iff_eq_none.mp hfresh, rfl, largeBlock_sound⟩
  next n p index hn =>
    simp only [ite_none_right_eq_some, Option.some.injEq] at h
    obtain ⟨⟨-, hfresh, hserves⟩, rfl⟩ := h
    have hbin : blockSizeBin n ≠ 0x80 := by
      simp only [State.lfhServes, Bool.and_eq_true, decide_eq_true_eq] at hserves
      exact hserves.1
    exact ⟨p, _, isNone_iff_eq_none.mp hfresh, rfl, heapAllocateBlockLfh_sound hsize hn hbin⟩
  next n p free hn =>
    simp only [ite_none_right_eq_some, Option.some.injEq] at h
    obtain ⟨⟨hlarge, hfresh, -, hle⟩, rfl⟩ := h
    exact ⟨p, _, isNone_iff_eq_none.mp hfresh, rfl, heapAllocateBlock_sound hsize hn hlarge hle⟩

theorem rtlReAllocateHeap_live {place : Place}
    (hsize : size < 2 ^ 64) (h : rtlReAllocateHeap s flags p size next committed place = some t) :
    ∃ a n, s.live p = some a ∧ heapGetBlockSize (heapGetFlags s.flags flags) size = some n ∧
      ((∃ a', heapResizeInPlace (heapGetFlags s.flags flags) n size a next committed = some a' ∧
          t.live = Function.update s.live p (some a')) ∨
        heapResizeInPlace (heapGetFlags s.flags flags) n size a next committed = none ∧
          ∃ q a', a'.Sound ∧ t.live = Function.update (Function.update s.live q (some a')) p none) := by
  unfold rtlReAllocateHeap at h
  dsimp only at h
  split at h
  next n a hn ha =>
    refine ⟨a, n, ha, hn, ?_⟩
    split at h
    next a' hin =>
      cases h
      exact .inl ⟨a', hin, live_noteResize⟩
    next hin =>
      simp only [ite_none_left_eq_some] at h
      obtain ⟨u, hu, ht⟩ := bind_eq_some_iff.mp h.2
      obtain ⟨q, a', -, hlive, hsound⟩ := rtlAllocateHeap_live hsize hu
      exact .inr ⟨hin, q, a', hsound, by rw [rtlFreeHeap_live ht, hlive]⟩
  · cases h

theorem State.Sound.update (hs : s.Sound) (ha : a.Sound)
    (ht : t.live = Function.update s.live p (some a)) : t.Sound := by
  intro q c hc
  rw [ht] at hc
  by_cases hq : q = p
  · subst hq
    rw [update_self] at hc
    exact Option.some.inj hc ▸ ha
  · rw [update_of_ne hq] at hc
    exact hs q c hc

theorem State.Sound.drop {live : ℕ → Option Alloc} (hs : ∀ p a, live p = some a → a.Sound)
    (ht : t.live = Function.update live p none) : t.Sound := by
  intro q c hc
  rw [ht] at hc
  by_cases hq : q = p
  · subst hq
    rw [update_self] at hc
    cases hc
  · rw [update_of_ne hq] at hc
    exact hs q c hc

theorem heapResizeInPlace_sound
    (ha : a.Sound) (hsize : size < 2 ^ 64) (h : heapGetBlockSize flags size = some n)
    (h' : heapResizeInPlace flags n size a next committed = some a')
    (hbin : a.block.has flagLfh = true → blockBinSize (blockSizeBin n) = a.block.getSize) : a'.Sound := by
  unfold heapResizeInPlace at h'
  split at h'
  next hl =>
    simp only [ite_none_left_eq_some, Option.some.injEq] at h'
    obtain ⟨-, rfl⟩ := h'
    exact ⟨ha.used, fun hs => by simp [hl] at hs, ha.lfh, fun _ => rfl⟩
  next hl =>
    simp only [ite_none_left_eq_some, not_le] at h'
    obtain ⟨hsmall, h'⟩ := h'
    obtain ⟨b, hb, rfl⟩ := map_eq_some_iff.mp h'
    split at hb
    next hlfh => exact heapResizeBlockLfh_sound ha hlfh hsize hb (hbin hlfh)
    next hlfh =>
      exact heapResizeBlock_sound ha.used (by simpa using hl) (by simpa using hlfh) hsize h hsmall hb

theorem heapResizeInPlace_reported
    (ha : a.Sound) (hlfh : a.block.has flagLfh = true) (hsize : size < 2 ^ 64)
    (h : heapGetBlockSize flags size = some n)
    (h' : heapResizeInPlace flags n size a next committed = some a') (hr : a'.reported = a'.asked) :
    blockBinSize (blockSizeBin n) = a.block.getSize := by
  unfold heapResizeInPlace at h'
  rw [(ha.lfh hlfh).1, hlfh] at h'
  simp only [Bool.false_eq_true, if_false, if_true, ite_none_left_eq_some] at h'
  obtain ⟨b, hb, rfl⟩ := map_eq_some_iff.mp h'.2
  exact (heapResizeBlockLfh_reported ha hlfh hsize h hb).mp hr

theorem step_sound (hs : s.Sound) {l : Call} (hk : KeepsBin s l) (h : step s l = some t) : t.Sound := by
  cases l with
  | alloc flags size place =>
    obtain ⟨p, a, -, hlive, hsound⟩ := rtlAllocateHeap_live size.isLt h
    exact hs.update hsound hlive
  | free p => exact State.Sound.drop hs (rtlFreeHeap_live h)
  | realloc flags p size next committed place =>
    obtain ⟨a, n, ha, hn, hmove⟩ := rtlReAllocateHeap_live size.isLt h
    rcases hmove with ⟨a', hin, hlive⟩ | ⟨-, q, a', hsound, hlive⟩
    · exact hs.update (heapResizeInPlace_sound (hs p a ha) size.isLt hn hin fun hlfh =>
        hk a n a' ha hn hlfh hin) hlive
    · have hu : State.Sound { s with live := update s.live q (some a') } := hs.update hsound rfl
      exact State.Sound.drop hu hlive

/-- A pointer reports the size last asked for, unless it was resized in place to another bin. -/
theorem reported_size_iff (flags : HeapFlags) (growable delayed : Bool) (s : State)
    (hr : Reaches step KeepsBin (State.init flags growable delayed) s) :
    s.Faithful ∧ (∀ p a, s.live p = some a → ∀ size, a.copied size ≤ a.asked) ∧
    ∀ l t, step s l = some t → (t.Faithful ↔ KeepsBin s l) := by
  have hs : s.Sound := by
    apply hr.invariant (P := State.Sound)
    · intro p a h
      cases h
    · intro u l v hk hstep hu
      exact step_sound hu hk hstep
  refine ⟨hs.faithful, fun p a ha size => ?_, fun l t hstep => ⟨fun hf => ?_, fun hk => ?_⟩⟩
  · rw [Alloc.copied, (hs p a ha).oldSize]
    exact Nat.min_le_right _ _
  · cases l with
    | alloc => trivial
    | free => trivial
    | realloc flags p size next committed place =>
      intro a n a' ha hn hlfh hin
      obtain ⟨a₁, n₁, ha₁, hn₁, hmove⟩ := rtlReAllocateHeap_live size.isLt hstep
      cases ha.symm.trans ha₁
      cases hn.symm.trans hn₁
      rcases hmove with ⟨a₂, hin₂, hlive⟩ | ⟨hnone, -⟩
      · obtain rfl : a' = a₂ := Option.some.inj (hin.symm.trans hin₂)
        apply heapResizeInPlace_reported (hs p a ha) hlfh size.isLt hn hin
        apply hf p a'
        rw [hlive, update_self]
      · cases hin.symm.trans hnone
  · exact (step_sound hs hk hstep).faithful

namespace SixtyFour

def free : Block := (⟨0, 0, 0, .free, flagFree⟩ : Block).setSize 0x1000

def calls : List Call :=
  (List.range 17).map (fun i => .alloc 0 64 (.block i free)) ++ [.alloc 0 64 (.lfh 17 0)]

theorem shrunk_block_misreports : ∃ s t a, Lib.run step (State.init 2 true false) calls = some s ∧
    step s (.realloc 0 17 49 none false (.large 0)) = some t ∧ t.live 17 = some a ∧
    a.asked = 49 ∧ a.reported = 65 ∧ a.copied 100 = 65 ∧ ¬ t.Faithful := by
  have hrun : ((Lib.run step (State.init 2 true false) calls).bind fun s =>
      (step s (.realloc 0 17 49 none false (.large 0))).bind fun t =>
        (t.live 17).map fun a => (a.asked, a.reported, a.copied 100)) = some (49, 65, 65) := by
    decide +kernel
  obtain ⟨s, hs, h⟩ := bind_eq_some_iff.mp hrun
  obtain ⟨t, ht, h⟩ := bind_eq_some_iff.mp h
  obtain ⟨a, ha, h⟩ := map_eq_some_iff.mp h
  simp only [Prod.mk.injEq] at h
  refine ⟨s, t, a, hs, ht, ha, h.1, h.2.1, h.2.2, fun hf => ?_⟩
  have := hf 17 a ha
  omega

def isAlloc : Call → Bool
  | .alloc _ _ _ => true
  | _ => false

theorem reported_size_iff_same_bin : ∃ s t, Lib.run step (State.init 2 true false) calls = some s ∧
    step s (.realloc 0 17 60 none false (.large 0)) = some t ∧ t.Faithful := by
  have hrun : ((Lib.run step (State.init 2 true false) calls).bind fun s =>
      (step s (.realloc 0 17 60 none false (.large 0))).map fun _ =>
        (s.flags, (s.live 17).map fun a => a.block.getSize)) = some (2, some 80) := by
    decide +kernel
  obtain ⟨s, hs, h⟩ := bind_eq_some_iff.mp hrun
  obtain ⟨t, ht, h⟩ := map_eq_some_iff.mp h
  simp only [Prod.mk.injEq] at h
  have hr : Reaches step KeepsBin (State.init 2 true false) s := by
    apply reaches_of_okRun (b := fun _ l => isAlloc l) _ (by decide +kernel) hs
    intro u l hl
    cases l with
    | alloc => trivial
    | realloc => cases hl
    | free => cases hl
  refine ⟨s, t, hs, ht, ((reported_size_iff 2 true false s hr).2.2 _ t ht).mpr ?_⟩
  intro a n a' ha hn _ _
  rw [h.1] at hn
  cases (by decide : heapGetBlockSize (heapGetFlags 2 0) 60 = some 80).symm.trans hn
  rw [ha] at h
  exact (Option.some.inj h.2).symm

end SixtyFour

end WinePpc64.Heap
