import Mathlib

namespace WinePpc64.Server

open List

structure Rectangle where
  left : ℤ
  top : ℤ
  right : ℤ
  bottom : ℤ
  deriving DecidableEq, Inhabited

structure Region where
  rects : List Rectangle
  extents : Rectangle
  deriving DecidableEq

def pointInRect (r : Rectangle) (x y : ℤ) : Prop := r.left ≤ x ∧ x < r.right ∧ r.top ≤ y ∧ y < r.bottom

def Follows (a b : Rectangle) : Prop :=
  if a.top = b.top then a.bottom = b.bottom ∧ a.right < b.left else a.bottom ≤ b.top

def Within (e p : Rectangle) : Prop :=
  e.left ≤ p.left ∧ e.top ≤ p.top ∧ p.right ≤ e.right ∧ p.bottom ≤ e.bottom

structure Region.Canonical (r : Region) : Prop where
  valid : ∀ p ∈ r.rects, p.left < p.right ∧ p.top < p.bottom
  banded : r.rects.IsChain Follows
  nothing : r.rects = [] → r.extents = ⟨0, 0, 0, 0⟩
  within : ∀ p ∈ r.rects, Within r.extents p
  tight : r.rects ≠ [] → (∃ p ∈ r.rects, p.left = r.extents.left) ∧ (∃ p ∈ r.rects, p.top = r.extents.top) ∧
    (∃ p ∈ r.rects, p.right = r.extents.right) ∧ ∃ p ∈ r.rects, p.bottom = r.extents.bottom

/-! ### Mirroring -/

def mirrorRect (client r : Rectangle) : Rectangle :=
  let width := client.right - client.left
  { r with left := width - r.right, right := width - r.left }

-- the loop with `i` and `j` over the `n` rectangles of a band from `i` on
def mirrorBand (client : Rectangle) : ℕ → ℕ → List Rectangle → List Rectangle
  | _, 0, rects => rects
  | i, 1, rects => rects.modify i (mirrorRect client)
  | i, n + 2, rects =>
    let j := i + n + 1
    let rect := rects.getD j default
    mirrorBand client (i + 1) n
      ((((rects.set i rect).set j rect).modify j (mirrorRect client)).modify i (mirrorRect client))

def bandLength : List Rectangle → ℕ
  | a :: b :: rest => if b.top ≠ a.top then 1 else bandLength (b :: rest) + 1
  | _ => 1

def mirrorRects (client : Rectangle) : ℕ → List Rectangle → List Rectangle
  | 0, rects => rects
  | _ + 1, [] => []
  | fuel + 1, a :: rest =>
    let len := bandLength (a :: rest)
    mirrorBand client 0 len ((a :: rest).take len) ++ mirrorRects client fuel ((a :: rest).drop len)

def mirrorRegion (client : Rectangle) (r : Region) : Region :=
  ⟨mirrorRects client r.rects.length r.rects, mirrorRect client r.extents⟩

structure Reflects (client : Rectangle) (r : Region) : Prop where
  points : ∀ x y, (∃ p ∈ (mirrorRegion client r).rects, pointInRect p x y) ↔
    ∃ p ∈ r.rects, pointInRect p (client.right - client.left - 1 - x) y
  canonical : (mirrorRegion client r).Canonical
  twice : mirrorRegion client (mirrorRegion client r) = r

def Single (a b : Rectangle) : Prop := a.top ≠ b.top

variable {client : Rectangle} {rects : List Rectangle} {i n k : ℕ} {r : Region}

theorem mirrorBand_outside (hk : k < i ∨ i + n ≤ k) : (mirrorBand client i n rects)[k]? = rects[k]? := by
  fun_induction mirrorBand client i n rects with
  | case1 => rfl
  | case2 i rects => exact getElem?_modify_ne _ _ (by omega)
  | case3 i n rects j rect ih =>
    rw [ih (by omega), getElem?_modify_ne _ _ (by omega), getElem?_modify_ne _ _ (by omega),
      getElem?_set_ne (by omega), getElem?_set_ne (by omega)]

theorem length_mirrorBand : (mirrorBand client i n rects).length = rects.length := by
  fun_induction mirrorBand client i n rects with
  | case1 => rfl
  | case2 i rects => exact length_modify _ _ _
  | case3 i n rects j rect ih => simp only [ih, length_modify, length_set]

theorem mirrorBand_nodup (hn : n ≤ rects.length) (h : (mirrorBand client 0 n rects).Nodup) : n < 2 := by
  match n with
  | 0 | 1 => omega
  | n + 2 =>
    -- both ends are the mirrored last rectangle
    refine absurd ?_ (nodup_iff_getElem?_ne_getElem?.mp h 0 (n + 1) (by omega) (by rw [length_mirrorBand]; omega))
    rw [mirrorBand, mirrorBand_outside (by omega), mirrorBand_outside (by omega)]
    simp [show n + 1 < rects.length by omega, show 0 < rects.length by omega]

theorem bandLength_le (a : Rectangle) (rest : List Rectangle) :
    0 < bandLength (a :: rest) ∧ bandLength (a :: rest) ≤ rest.length + 1 := by
  induction rest generalizing a with
  | nil => simp [bandLength]
  | cons b rest ih =>
    have := ih b
    rw [bandLength, length_cons]
    split <;> omega

theorem isChain_of_nodup {fuel : ℕ} (hfuel : rects.length ≤ fuel) (h : (mirrorRects client fuel rects).Nodup) :
    rects.IsChain Single := by
  induction fuel generalizing rects with
  | zero =>
    rw [length_eq_zero_iff.mp (Nat.le_zero.mp hfuel)]
    exact .nil
  | succ fuel ih =>
    match rects with
    | [] => exact .nil
    | [a] => exact .singleton a
    | a :: b :: rest =>
      rw [mirrorRects, nodup_append] at h
      obtain ⟨hband, hrest, -⟩ := h
      have hle := bandLength_le a (b :: rest)
      have hlen := mirrorBand_nodup (by simpa using hle.2) hband
      have htop : b.top ≠ a.top := by
        have := bandLength_le b rest
        rw [bandLength] at hlen
        split at hlen
        next htop => exact htop
        next => omega
      rw [bandLength, if_pos htop] at hrest
      exact .cons_cons htop.symm (ih (Nat.le_of_succ_le_succ hfuel) hrest)

theorem mirrorRects_eq_map {fuel : ℕ} (hfuel : rects.length ≤ fuel) (h : rects.IsChain Single) :
    mirrorRects client fuel rects = rects.map (mirrorRect client) := by
  induction fuel generalizing rects with
  | zero => rw [length_eq_zero_iff.mp (Nat.le_zero.mp hfuel)]; rfl
  | succ fuel ih =>
    match rects, h with
    | [], _ => rfl
    | a :: rest, h =>
      have hlen : bandLength (a :: rest) = 1 := by
        cases h with
        | singleton => rfl
        | cons_cons htop _ => exact if_pos htop.symm
      rw [mirrorRects, hlen]
      exact congrArg (_ :: ·) (ih (Nat.le_of_succ_le_succ hfuel) h.of_cons)

theorem Region.Canonical.nodup (h : r.Canonical) : r.rects.Nodup := by
  have hkeys : (r.rects.map fun a => toLex (a.top, a.left)).IsChain (· < ·) := by
    rw [isChain_map]
    refine h.banded.imp_of_mem_imp fun a b ha _ hab => ?_
    have := h.valid a ha
    rw [Prod.Lex.toLex_lt_toLex]
    unfold Follows at hab
    split at hab <;> dsimp only <;> omega
  exact .of_map _ (hkeys.pairwise.imp ne_of_lt)

theorem mirrorRect_mirrorRect (r : Rectangle) : mirrorRect client (mirrorRect client r) = r := by
  simp [mirrorRect]

theorem mirrorRegion_eq (hs : r.rects.IsChain Single) :
    mirrorRegion client r = ⟨r.rects.map (mirrorRect client), mirrorRect client r.extents⟩ := by
  rw [mirrorRegion, mirrorRects_eq_map le_rfl hs]

theorem Region.Canonical.mirror (h : r.Canonical) (hs : r.rects.IsChain Single)
    (hnil : r.rects = [] → client.left = client.right) :
    Region.Canonical ⟨r.rects.map (mirrorRect client), mirrorRect client r.extents⟩ where
  valid := forall_mem_map.mpr fun p hp => by
    have := h.valid p hp
    simp only [mirrorRect]
    omega
  banded := by
    rw [isChain_map, isChain_iff_getElem]
    intro k hk
    have hf := h.banded.getElem k hk
    rw [Follows, if_neg (hs.getElem k hk)] at hf
    exact (if_neg (hs.getElem k hk)).mpr hf
  nothing hmap := by
    have := map_eq_nil_iff.mp hmap
    simp [mirrorRect, h.nothing this, hnil this]
  within := forall_mem_map.mpr fun p hp => by
    have := h.within p hp
    simp only [Within, mirrorRect] at this ⊢
    omega
  tight hmap := by
    obtain ⟨⟨a, ha, hl⟩, ⟨b, hb, ht⟩, ⟨c, hc, hr⟩, ⟨d, hd, hbot⟩⟩ := h.tight fun h => hmap (by rw [h]; rfl)
    exact ⟨⟨_, mem_map_of_mem hc, by simp [mirrorRect, hr]⟩, ⟨_, mem_map_of_mem hb, ht⟩,
      ⟨_, mem_map_of_mem ha, by simp [mirrorRect, hl]⟩, ⟨_, mem_map_of_mem hd, hbot⟩⟩

theorem mirror_region_reflects_iff (client : Rectangle) (r : Region) (h : r.Canonical) :
    Reflects client r ↔ r.rects.IsChain Single ∧ (r.rects = [] → client.left = client.right) := by
  constructor
  · rintro ⟨-, hc, -⟩
    refine ⟨isChain_of_nodup le_rfl hc.nodup, fun hnil => ?_⟩
    have := congrArg Rectangle.left (hc.nothing (by rw [mirrorRegion, hnil]; rfl))
    simp only [mirrorRegion, mirrorRect, h.nothing hnil] at this
    omega
  · rintro ⟨hs, hnil⟩
    have heq : mirrorRegion client r = _ := mirrorRegion_eq hs
    refine ⟨fun x y => ?_, heq ▸ h.mirror hs hnil, ?_⟩
    · simp only [heq, mem_map, exists_exists_and_eq_and]
      refine exists_congr fun p => and_congr_right fun _ => ?_
      simp only [pointInRect, mirrorRect]
      omega
    · have htwice : mirrorRect client ∘ mirrorRect client = id := funext mirrorRect_mirrorRect
      rw [heq, mirrorRegion_eq ((isChain_map (mirrorRect client)).mpr hs), map_map, htwice, map_id, mirrorRect_mirrorRect]

theorem mirror_region_two_bands : Reflects ⟨0, 0, 10, 10⟩ ⟨[⟨0, 0, 2, 1⟩, ⟨0, 1, 1, 2⟩], ⟨0, 0, 2, 2⟩⟩ :=
  (mirror_region_reflects_iff _ _ (by constructor <;> simp [Follows, Within])).mpr (by simp [Single])

theorem mirror_region_one_band : let r : Region := ⟨[⟨0, 0, 1, 1⟩, ⟨2, 0, 3, 1⟩], ⟨0, 0, 3, 1⟩⟩
    r.Canonical ∧ (mirrorRegion ⟨0, 0, 10, 10⟩ r).rects = [⟨7, 0, 8, 1⟩, ⟨7, 0, 8, 1⟩] ∧
      ¬Reflects ⟨0, 0, 10, 10⟩ r :=
  ⟨by constructor <;> simp [Follows, Within], rfl, fun h => absurd h.canonical.nodup (by decide)⟩

end WinePpc64.Server
