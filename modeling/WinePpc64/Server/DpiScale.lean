import WinePpc64.Server.Region

namespace WinePpc64.Server

open List

structure Ratio where
  num : ℕ
  den : ℕ
  num_pos : 0 < num
  den_pos : 0 < den
  num_lt : num < 2 ^ 16
  den_lt : den < 2 ^ 16

section

variable (dpiFrom dpiTo : Ratio)

-- both products fit in 32 bits
def scaleNum : ℤ := dpiTo.num * dpiFrom.den

def scaleDen : ℤ := dpiFrom.num * dpiTo.den

/-- The product and the quotient are unsigned, the result is converted back to an `int`. -/
def scaleDpi (val : ℤ) : ℤ :=
  let num := scaleNum dpiFrom dpiTo
  let den := scaleDen dpiFrom dpiTo
  if 0 ≤ val then ((val * num + den / 2) % 2 ^ 32 / den).bmod (2 ^ 32)
  else ((val * num - den / 2) % 2 ^ 32 / den).bmod (2 ^ 32)

def scaleDpiRect (r : Rectangle) : Rectangle :=
  let scale := scaleDpi dpiFrom dpiTo
  ⟨scale r.left, scale r.top, scale r.right, scale r.bottom⟩

def scaleRegion (r : Region) : Region :=
  if r.rects = [] then r else ⟨r.rects.map (scaleDpiRect dpiFrom dpiTo), scaleDpiRect dpiFrom dpiTo r.extents⟩

/-- The scaled value to the nearest integer, halves away from zero. -/
def nearest (v : ℤ) : ℤ :=
  v.sign * round (|v| * (dpiTo.num / dpiTo.den / (dpiFrom.num / dpiFrom.den)) : ℚ)

def Fits (v : ℤ) : Prop := |v| * scaleNum dpiFrom dpiTo + scaleDen dpiFrom dpiTo / 2 < 2 ^ 31

/-- A negative value is scaled right by a whole factor, or when both results are zero. -/
def Meets (v : ℤ) : Prop :=
  0 ≤ v ∨ scaleDen dpiFrom dpiTo = 1 ∨
    2 ^ 32 < |v| * scaleNum dpiFrom dpiTo + scaleDen dpiFrom dpiTo / 2 + scaleDen dpiFrom dpiTo

def Scalable : Set ℤ := {v | Fits dpiFrom dpiTo v ∧ Meets dpiFrom dpiTo v}

/-- No rectangle is inverted, and the rectangles stay in order and inside the extents. -/
structure Ordered (r : Region) : Prop where
  upright : ∀ p ∈ r.extents :: r.rects, p.left ≤ p.right ∧ p.top ≤ p.bottom
  order : r.rects.IsChain fun a b => (a.top = b.top ∧ a.bottom = b.bottom ∧ a.right ≤ b.left) ∨ a.bottom ≤ b.top
  within : ∀ p ∈ r.rects, Within r.extents p

end

variable {f t : Ratio} {v w : ℤ}

theorem scaleNum_pos : 0 < scaleNum f t :=
  mul_pos (Int.natCast_pos.mpr t.num_pos) (Int.natCast_pos.mpr f.den_pos)

theorem scaleDen_pos : 0 < scaleDen f t :=
  mul_pos (Int.natCast_pos.mpr f.num_pos) (Int.natCast_pos.mpr t.den_pos)

theorem round_div {m d : ℤ} (hd : 0 < d) : round (m / d : ℚ) = (m + d / 2) / d := by
  have hcast : (m / d + 1 / 2 : ℚ) = ((2 * m + d : ℤ) : ℚ) / ((2 * d).toNat : ℚ) := by
    rw [← Int.cast_natCast, Int.toNat_of_nonneg (by omega)]
    push_cast
    field_simp
  rw [round_eq, hcast, Rat.floor_intCast_div_natCast, Int.toNat_of_nonneg (by omega), ← Int.ediv_ediv_of_nonneg (by omega)]
  congr 1
  omega

theorem nearest_eq : nearest f t v = v.sign * ((|v| * scaleNum f t + scaleDen f t / 2) / scaleDen f t) := by
  rw [nearest, ← round_div scaleDen_pos]
  simp only [scaleNum, scaleDen]
  push_cast
  field_simp

/-- The quotient of a negative product, taken as an unsigned number. -/
theorem negative_quotient {k d : ℤ} (hk : 0 < k) (hfit : k < 2 ^ 31) (hd : 0 < d) :
    (-k % 2 ^ 32 / d).bmod (2 ^ 32) = -(k / d) ↔ d = 1 ∨ 2 ^ 32 < k + d := by
  have hmod : -k % 2 ^ 32 = 2 ^ 32 - k := by omega
  rw [hmod]
  obtain rfl | hd2 : d = 1 ∨ 2 ≤ d := by omega
  · dsimp only [Int.bmod]
    split <;> omega
  · have hq : (2 ^ 32 - k) / d < 2 ^ 31 := Int.ediv_lt_of_lt_mul hd (by omega)
    have hq0 : 0 ≤ (2 ^ 32 - k) / d := Int.ediv_nonneg (by omega) hd.le
    have hk0 : 0 ≤ k / d := Int.ediv_nonneg hk.le hd.le
    have hlt : (2 ^ 32 - k) / d < 1 ↔ 2 ^ 32 - k < 1 * d := Int.ediv_lt_iff_lt_mul hd
    rw [Int.bmod_eq_of_le (by omega) (by omega)]
    constructor
    · omega
    · intro h
      have hsmall : k / d = 0 := Int.ediv_eq_zero_of_lt hk.le (by omega)
      omega

theorem nearest_of_nonneg (h : 0 ≤ v) : nearest f t v =
    (v * scaleNum f t + scaleDen f t / 2) / scaleDen f t := by
  have hd : 0 < scaleDen f t := scaleDen_pos
  rw [nearest_eq, abs_of_nonneg h]
  obtain rfl | hv := h.eq_or_lt
  · simp only [Int.sign_zero, zero_mul, zero_add]
    exact (Int.ediv_eq_zero_of_lt (by omega) (by omega)).symm
  · rw [Int.sign_eq_one_of_pos hv, one_mul]

theorem nearest_neg : nearest f t (-v) = -nearest f t v := by
  rw [nearest, nearest, Int.sign_neg, abs_neg, neg_mul]

theorem nearest_mono : Monotone (nearest f t) := by
  apply monotone_of_odd_of_monotoneOn_nonneg fun _ => nearest_neg
  intro v hv w hw hvw
  rw [nearest_of_nonneg hv, nearest_of_nonneg hw]
  apply Int.ediv_le_ediv scaleDen_pos
  gcongr
  exact scaleNum_pos.le

theorem scaleDpi_eq_nearest_iff (hfit : Fits f t v) : scaleDpi f t v = nearest f t v ↔ Meets f t v := by
  have hn : 0 < scaleNum f t := scaleNum_pos
  have hd : 0 < scaleDen f t := scaleDen_pos
  obtain h | h := le_or_gt 0 v
  · rw [Fits, abs_of_nonneg h] at hfit
    rw [nearest_of_nonneg h, scaleDpi, if_pos h]
    have hpos := mul_nonneg h hn.le
    have hsum : 0 ≤ v * scaleNum f t + scaleDen f t / 2 := by omega
    have hle := Int.ediv_le_self (scaleDen f t) hsum
    have h0 := Int.ediv_nonneg hsum hd.le
    rw [Int.emod_eq_of_lt hsum (by omega), Int.bmod_eq_of_le (by omega) (by omega)]
    exact iff_of_true rfl (.inl h)
  · have hpos := mul_pos (neg_pos.mpr h) hn
    rw [Fits, abs_of_neg h] at hfit
    rw [nearest_eq, scaleDpi, if_neg (not_le.mpr h), Meets, abs_of_neg h, Int.sign_eq_neg_one_of_neg h, neg_one_mul,
      or_iff_right (not_le.mpr h)]
    have hprod : v * scaleNum f t - scaleDen f t / 2 =
      -(-v * scaleNum f t + scaleDen f t / 2) := by ring
    rw [hprod]
    exact negative_quotient (by omega) hfit hd

theorem Region.Canonical.scale {r : Region} {s : Set ℤ} (h : r.Canonical) (hmono : MonotoneOn (scaleDpi f t) s)
    (hr : ∀ p ∈ r.extents :: r.rects, p.left ∈ s ∧ p.top ∈ s ∧ p.right ∈ s ∧ p.bottom ∈ s) :
    Ordered (scaleRegion f t r) := by
  unfold scaleRegion
  split
  next hnil => exact ⟨by simp [hnil, h.nothing hnil], by simp [hnil], by simp [hnil]⟩
  next hne =>
    obtain ⟨⟨hel, het, her, heb⟩, hr⟩ := forall_mem_cons.mp hr
    refine ⟨forall_mem_cons.mpr ⟨?_, forall_mem_map.mpr fun p hp => ?_⟩, ?_, forall_mem_map.mpr fun p hp => ?_⟩
    · obtain ⟨p, hp⟩ := exists_mem_of_ne_nil _ hne
      have hv := h.valid p hp
      have hw := h.within p hp
      unfold Within at hw
      exact ⟨hmono hel her (by omega), hmono het heb (by omega)⟩
    · obtain ⟨hl, ht, hright, hb⟩ := hr p hp
      exact ⟨hmono hl hright (h.valid p hp).1.le, hmono ht hb (h.valid p hp).2.le⟩
    · refine (isChain_map _).mpr (h.banded.imp_of_mem_imp fun a b ha hb hab => ?_)
      obtain ⟨-, -, haright, hab'⟩ := hr a ha
      obtain ⟨hbl, hbt, -⟩ := hr b hb
      unfold Follows at hab
      split at hab
      next htop => exact .inl ⟨congrArg (scaleDpi f t) htop, congrArg (scaleDpi f t) hab.1, hmono haright hbl hab.2.le⟩
      next => exact .inr (hmono hab' hbt hab)
    · obtain ⟨hl, ht, hright, hb⟩ := hr p hp
      obtain ⟨h₁, h₂, h₃, h₄⟩ := h.within p hp
      exact ⟨hmono hel hl h₁, hmono het ht h₂, hmono hright her h₃, hmono hb heb h₄⟩

theorem scale_dpi_law (f t : Ratio) :
    (∀ v, Fits f t v → (scaleDpi f t v = nearest f t v ↔ Meets f t v)) ∧
    (∀ v ∈ Scalable f t, -v ∈ Scalable f t →
      scaleDpi f t (-v) = -scaleDpi f t v) ∧
    MonotoneOn (scaleDpi f t) (Scalable f t) ∧
    ∀ r : Region, r.Canonical → (∀ p ∈ r.extents :: r.rects, p.left ∈ Scalable f t ∧
      p.top ∈ Scalable f t ∧ p.right ∈ Scalable f t ∧ p.bottom ∈ Scalable f t) →
      Ordered (scaleRegion f t r) := by
  have heq : ∀ v ∈ Scalable f t, scaleDpi f t v = nearest f t v :=
    fun v hv => (scaleDpi_eq_nearest_iff hv.1).mpr hv.2
  have hmono : MonotoneOn (scaleDpi f t) (Scalable f t) := by
    intro v hv w hw hvw
    rw [heq v hv, heq w hw]
    exact nearest_mono hvw
  refine ⟨fun v => scaleDpi_eq_nearest_iff, fun v hv hneg => ?_, hmono, fun r h => h.scale hmono⟩
  rw [heq v hv, heq _ hneg, nearest_neg]

theorem scale_dpi_minus_one : let dpi : Ratio := ⟨96, 1, by decide, by decide, by decide, by decide⟩
    Fits dpi dpi (-1) ∧ nearest dpi dpi (-1) = -1 ∧ scaleDpi dpi dpi (-1) = 44739241 := by
  refine ⟨?_, ?_, by decide⟩
  · norm_num [Fits, scaleNum, scaleDen]
  · norm_num [nearest]

end WinePpc64.Server
