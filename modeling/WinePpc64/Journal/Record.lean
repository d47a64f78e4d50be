import WinePpc64.Com.Surface

namespace WinePpc64.Journal

open Com Option

abbrev Word := BitVec 64

def journalGenMaxRec : ℕ := 512
def journalMaxRec : ℕ := 224
def journalCtxRingSize : ℕ := 0x40000
def jshGen : ℕ := 9

inductive JgKind
  | v | p | a
  deriving DecidableEq, Repr

structure JgArg where
  kind : JgKind
  countArg : ℕ
  elem : ℕ
  max : ℕ
  deriving DecidableEq, Repr

inductive JgScope
  | list | ctx
  deriving DecidableEq, Repr

inductive JgLww
  | none | any | range
  deriving DecidableEq, Repr

structure JgDef where
  name : String
  argc : ℕ
  scope : JgScope
  args : List JgArg
  lww : JgLww
  deriving DecidableEq, Repr

structure JgLayout where
  off : List ℕ
  self : ℕ
  recBytes : ℕ
  deriving DecidableEq, Repr

def jgRound8 (n : ℕ) : ℕ := (n + 7) / 8 * 8

def JgArg.blobBytes (a : JgArg) : ℕ :=
  match a.kind with
  | .v => 0
  | .p => jgRound8 a.elem
  | .a => jgRound8 (a.elem * a.max)

def blobOffsets : ℕ → List JgArg → List ℕ
  | _, [] => []
  | off, a :: as => (if a.kind = .v then 0 else off) :: blobOffsets (off + a.blobBytes) as

def JgDef.params (d : JgDef) : List JgArg :=
  (List.range (d.argc - 1)).map fun i => d.args.getD i ⟨.v, 0, 0, 0⟩

def jgLayoutCompute (d : JgDef) : JgLayout where
  off := blobOffsets (8 * d.argc) d.params
  self := 8 * d.argc + (d.params.map JgArg.blobBytes).sum
  recBytes := 8 * d.argc + (d.params.map JgArg.blobBytes).sum + 8

abbrev Bytes := ℕ → BitVec 8

def Bytes.read32 (b : Bytes) (off : ℕ) : BitVec 32 :=
  b (off + 3) ++ b (off + 2) ++ b (off + 1) ++ b off

def Bytes.read64 (b : Bytes) (off : ℕ) : Word := b.read32 (off + 4) ++ b.read32 off

def Bytes.iface (b : Bytes) (off : ℕ) : ℕ := (b.read32 off >>> 16).toNat
def Bytes.slot (b : Bytes) (off : ℕ) : ℕ := (b.read32 off &&& 0xffff).toNat
def Bytes.recSize (b : Bytes) (off : ℕ) : ℕ := (b.read32 (off + 4) &&& 0xffffff).toNat
def Bytes.shape (b : Bytes) (off : ℕ) : ℕ := (b.read32 (off + 4) >>> 24).toNat

def Bytes.word (b : Bytes) (off j : ℕ) : Word := b.read64 (off + 8 + 8 * j)

def journalRecBytes : ℕ → ℕ
  | 1 => 16
  | 2 => 24
  | 3 => 32
  | 4 => 40
  | 5 => 48
  | 6 => 32
  | 7 => 224
  | _ => 0

def curatedArg (sl : Slot) (k : ℕ) (a : JgArg) : Bool :=
  match sl.classOf k with
  | .pass => true
  | .ifaceIn => !(a.kind == .a && a.elem == 8)
  | .ifaceArrIn => a.kind == .a && a.elem == 8 && a.countArg == sl.aux2 + 1
  | _ => false

def curatedShape (sl : Slot) (d : JgDef) : Bool :=
  sl.name == some d.name && !sl.refuse && !sl.hand && sl.retVoid && sl.argc == d.argc &&
    sl.fpmask == 0 && decide ((jgLayoutCompute d).recBytes ≤ journalGenMaxRec) &&
    (d.params.zipIdx.all fun p => curatedArg sl (p.2 + 1) p.1)

/-- The tables the journal works from. A slot is in `genMap` only after `install_journal_gen` found
its row to match the curated shape; without the map nothing was installed. -/
structure Tables where
  surface : Surface
  defs : List JgDef
  genMap : Option (ℕ → ℕ → Option ℕ)
  genMap_curated : ∀ map, genMap = some map → ∀ iface slot g, map iface slot = some g →
    ∃ sl d, surface.slotAt iface slot = some sl ∧ defs[g]? = some d ∧ curatedShape sl d = true

variable (t : Tables) {d : JgDef}

def Tables.gen (iface slot : ℕ) : Option (ℕ × JgDef) :=
  t.genMap.bind fun map => (map iface slot).bind fun g => (t.defs[g]?).map (Prod.mk g)

theorem gen_def {t : Tables} {iface slot g : ℕ} (h : t.gen iface slot = some (g, d)) :
    t.defs[g]? = some d := by
  obtain ⟨map, _, h⟩ := bind_eq_some_iff.mp h
  obtain ⟨g', _, h⟩ := bind_eq_some_iff.mp h
  obtain ⟨d', hd, heq⟩ := map_eq_some_iff.mp h
  obtain ⟨rfl, rfl⟩ := Prod.mk.inj heq
  exact hd

theorem Tables.gen_curated {iface slot g : ℕ} (h : t.gen iface slot = some (g, d)) :
    ∃ sl, t.surface.slotAt iface slot = some sl ∧ curatedShape sl d = true := by
  obtain ⟨map, hmap, h⟩ := bind_eq_some_iff.mp h
  obtain ⟨g', hg, h⟩ := bind_eq_some_iff.mp h
  obtain ⟨d', hd, heq⟩ := map_eq_some_iff.mp h
  obtain ⟨rfl, rfl⟩ := Prod.mk.inj heq
  obtain ⟨sl, d'', hsl, hd', hshape⟩ := t.genMap_curated map hmap iface slot g' hg
  obtain rfl : d' = d'' := by simpa [hd] using hd'
  exact ⟨sl, hsl, hshape⟩

theorem curatedShape_recBytes {sl : Slot} (h : curatedShape sl d = true) :
    (jgLayoutCompute d).recBytes ≤ journalGenMaxRec := by
  simp only [curatedShape, Bool.and_eq_true, decide_eq_true_eq] at h
  exact h.1.2

theorem jgRound8_dvd {n : ℕ} : 8 ∣ jgRound8 n := ⟨(n + 7) / 8, by simp [jgRound8, Nat.mul_comm]⟩

theorem blobBytes_dvd {a : JgArg} : 8 ∣ a.blobBytes := by
  unfold JgArg.blobBytes
  split
  · exact dvd_zero 8
  · exact jgRound8_dvd
  · exact jgRound8_dvd

theorem recBytes_dvd : 8 ∣ (jgLayoutCompute d).recBytes := by
  have hsum : 8 ∣ (d.params.map JgArg.blobBytes).sum := by
    apply List.dvd_sum
    intro n hn
    obtain ⟨a, _, rfl⟩ := List.mem_map.mp hn
    exact blobBytes_dvd
  exact ((dvd_mul_right 8 _).add hsum).add (dvd_refl 8)

theorem journalRecBytes_dvd {shape : ℕ} : 8 ∣ journalRecBytes shape := by
  unfold journalRecBytes
  split <;> decide

end WinePpc64.Journal
