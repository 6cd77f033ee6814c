import Mathlib
import IntervalProgramming.Scalar.Binary64

/-!
# The total order of bit patterns

Bit patterns are ranked by their bits alone.  This is the total order of the
standard: numbers and infinities stand in numeric order, with the negative zero
before the positive one; undefined values with the sign bit stand before all of
these and those without it after them, the larger payloads further out.  What a
pattern stands for is read off it by the core library's model of floating point.
The comparisons of floating-point numbers agree with this order, except that they
do not tell the two zeros apart.
-/

namespace IntervalProgramming.BitPattern

open Float.Model
open Float.Model.UnpackedFloat (Sign unpackMantissa unpackExponent unpackSign)

variable {x y : BitPattern}

/-! ## Reading a bit pattern -/

/-- The number, infinity or undefined value that a bit pattern stands for. -/
def number (x : BitPattern) : UnpackedFloat :=
  UnpackedFloat.unpack Format.binary64 x.bits.toBitVec

/-- Whether the sign bit is set. -/
def isNegative (x : BitPattern) : Bool :=
  decide (2 ^ 63 ≤ x.bits.toNat)

/-- The sign of a bit pattern. -/
def sign (x : BitPattern) : Sign :=
  if x.isNegative then .negative else .positive

/-- The bits below the sign bit. -/
def magnitude (x : BitPattern) : ℕ :=
  x.bits.toNat % 2 ^ 63

/-- The bits that tell undefined values of one sign apart. -/
def payload (x : BitPattern) : ℕ :=
  x.bits.toNat % 2 ^ 52

/-- Whether `x` comes no later than `y` in the standard's total order.  Numbers
and infinities go by value, and of two zeros the negative one comes first.
Undefined values come first with the sign bit and last without it; among each
other they go by their payloads under their signs. -/
def TotalLE (x y : BitPattern) : Prop :=
  match x.number.compare y.number with
  | some .lt => True
  | some .gt => False
  | some .eq => x.isNegative = true ∨ y.isNegative = false
  | none =>
    if x.number.isNaN && y.number.isNaN then
      x.sign.apply x.payload ≤ y.sign.apply y.payload
    else if x.number.isNaN then x.isNegative = true
    else y.isNegative = false

/-! ## Fields of a bit pattern -/

theorem toNat_unpackMantissa (x : BitPattern) :
    (@unpackMantissa Format.binary64 x.bits.toBitVec).toNat = x.payload := by
  rw [UnpackedFloat.unpackMantissa_def, BitVec.extractLsb'_toNat, Nat.shiftRight_zero]
  rfl

theorem unpackMantissa_eq_zero_iff (x : BitPattern) :
    @unpackMantissa Format.binary64 x.bits.toBitVec = 0#_ ↔ x.payload = 0 := by
  rw [← BitVec.toNat_inj, toNat_unpackMantissa]
  rfl

theorem toNat_unpackExponent (x : BitPattern) :
    (@unpackExponent Format.binary64 x.bits.toBitVec).toNat =
      x.magnitude / 2 ^ 52 := by
  simp only [UnpackedFloat.unpackExponent_def, magnitude, BitVec.extractLsb'_toNat,
    Nat.shiftRight_eq_div_pow, UInt64.toNat_toBitVec]
  omega

theorem unpackExponent_eq_ones_iff (x : BitPattern) :
    @unpackExponent Format.binary64 x.bits.toBitVec = -1#_ ↔
      x.magnitude / 2 ^ 52 = 2047 := by
  rw [← BitVec.toNat_inj, toNat_unpackExponent]
  rfl

theorem unpackExponent_eq_zero_iff (x : BitPattern) :
    @unpackExponent Format.binary64 x.bits.toBitVec = 0#_ ↔
      x.magnitude / 2 ^ 52 = 0 := by
  rw [← BitVec.toNat_inj, toNat_unpackExponent]
  rfl

theorem ofBitVec_unpackSign (x : BitPattern) :
    Sign.ofBitVec (@unpackSign Format.binary64 x.bits.toBitVec) = x.sign := by
  have hbits := x.bits.toNat_lt
  have hsign : (@unpackSign Format.binary64 x.bits.toBitVec).toNat =
      x.bits.toNat / 2 ^ 63 := by
    simp only [UnpackedFloat.unpackSign_def, BitVec.extractLsb'_toNat,
      Nat.shiftRight_eq_div_pow, UInt64.toNat_toBitVec]
    omega
  have hzero : @unpackSign Format.binary64 x.bits.toBitVec = 0#1 ↔
      ¬ x.isNegative = true := by
    rw [← BitVec.toNat_inj, hsign, isNegative, decide_eq_true_eq, BitVec.toNat_ofNat]
    omega
  rw [Sign.ofBitVec, sign]
  by_cases hneg : x.isNegative = true
  · rw [if_neg (by rw [hzero]; exact not_not_intro hneg), if_pos hneg]
  · rw [if_pos (hzero.mpr hneg), if_neg hneg]

theorem payload_eq (x : BitPattern) : x.payload = x.magnitude % 2 ^ 52 := by
  rw [payload, magnitude]
  omega

/-! ## The numeric order -/

/-- The magnitude of the infinities. -/
def top : ℕ :=
  2047 * 2 ^ 52

/-- The magnitude of the pattern of a number or infinity, under its sign. -/
def height : UnpackedFloat → ℤ
  | .infinity s => s.apply top
  | .finite s m e _ => s.apply ((e + 1074) * 2 ^ 52 + m)
  | .zero _ => 0
  | .notANumber => 0

/-- Whether a number is as a bit pattern holds it: its mantissa has the leading
bit, unless the exponent is the least one, and it lies between the infinities. -/
def IsPacked : UnpackedFloat → Prop
  | .finite _ m e _ => m < 2 ^ 53 ∧ -1074 ≤ e ∧ (m < 2 ^ 52 → e = -1074) ∧
      (e + 1074) * 2 ^ 52 + m < top
  | .infinity _ => True
  | .zero _ => True
  | .notANumber => False

/-- A number that is no infinity lies strictly between the infinities. -/
theorem height_between {a : UnpackedFloat} (ha : IsPacked a)
    (hinf : ∀ s, a = .infinity s → False) : -(top : ℤ) < height a ∧ height a < top := by
  cases a with
  | infinity s => exact (hinf s rfl).elim
  | notANumber => exact ha.elim
  | zero s =>
      rw [height]
      decide
  | finite s m e hm =>
      obtain ⟨-, hleast, -, htop⟩ := ha
      cases s
      · simp only [height, Sign.apply]
        omega
      · simp only [height, Sign.apply]
        omega

theorem height_pos {m : ℕ} {e : ℤ} {hm : 0 < m}
    (h : IsPacked (.finite .positive m e hm)) : 0 < height (.finite .positive m e hm) := by
  obtain ⟨-, hleast, -, -⟩ := h
  simp only [height, Sign.apply]
  omega

theorem height_neg {m : ℕ} {e : ℤ} {hm : 0 < m}
    (h : IsPacked (.finite .negative m e hm)) : height (.finite .negative m e hm) < 0 := by
  obtain ⟨-, hleast, -, -⟩ := h
  simp only [height, Sign.apply]
  omega

/-- Exponents go before mantissas. -/
theorem compares_finite {m n : ℕ} {e f : ℤ} {s t : Sign} {hm : 0 < m} {hn : 0 < n}
    (ha : IsPacked (.finite s m e hm)) (hb : IsPacked (.finite t n f hn)) :
    ((compare e f).then (compare m n)).Compares
      ((e + 1074) * 2 ^ 52 + m) ((f + 1074) * 2 ^ 52 + n) := by
  obtain ⟨hm, he, hme, -⟩ := ha
  obtain ⟨hn, hf, hnf, -⟩ := hb
  rcases lt_trichotomy e f with hlt | rfl | hgt
  · rw [compare_lt_iff_lt.mpr hlt]
    simp only [Ordering.then, Ordering.Compares]
    omega
  · rw [compare_eq_iff_eq.mpr rfl, Ordering.eq_then]
    rcases lt_trichotomy m n with hlt | rfl | hgt
    · rw [compare_lt_iff_lt.mpr hlt]
      simp only [Ordering.Compares]
      omega
    · rw [compare_eq_iff_eq.mpr rfl]
      rfl
    · rw [compare_gt_iff_gt.mpr hgt]
      simp only [Ordering.Compares]
      omega
  · rw [compare_gt_iff_gt.mpr hgt]
    simp only [Ordering.then, Ordering.Compares]
    omega

theorem compares_neg {o : Ordering} {m n : ℤ} (h : o.Compares m n) :
    o.Compares (-n) (-m) := by
  cases o
  all_goals
    simp only [Ordering.Compares] at h ⊢
    omega

/-- The numeric order is that of the magnitudes under their signs. -/
theorem exists_compare {a b : UnpackedFloat} (ha : IsPacked a) (hb : IsPacked b) :
    ∃ o, a.compare b = some o ∧ o.Compares (height a) (height b) := by
  have htop : -(top : ℤ) < top := by decide
  fun_cases UnpackedFloat.compare a b with
  | case1 => exact ha.elim
  | case2 => exact hb.elim
  | case3 s t =>
      refine ⟨_, rfl, ?_⟩
      cases s
      · cases t
        · exact rfl
        · exact htop
      · cases t
        · exact htop
        · exact rfl
  | case4 _ _ hinf => exact ⟨_, rfl, (height_between hb hinf).2⟩
  | case5 _ _ hinf => exact ⟨_, rfl, (height_between hb hinf).1⟩
  | case6 _ _ hinf => exact ⟨_, rfl, (height_between ha hinf).2⟩
  | case7 _ _ hinf => exact ⟨_, rfl, (height_between ha hinf).1⟩
  | case8 => exact ⟨_, rfl, height_pos ha⟩
  | case9 => exact ⟨_, rfl, height_neg ha⟩
  | case10 => exact ⟨_, rfl, height_pos hb⟩
  | case11 => exact ⟨_, rfl, height_neg hb⟩
  | case12 => exact ⟨_, rfl, rfl⟩
  | case13 => exact ⟨_, rfl, (compares_neg (compares_finite ha hb)).swap⟩
  | case14 => exact ⟨_, rfl, (height_neg ha).trans (height_pos hb)⟩
  | case15 => exact ⟨_, rfl, (height_neg hb).trans (height_pos ha)⟩
  | case16 => exact ⟨_, rfl, compares_finite ha hb⟩

theorem compare_notANumber (a : UnpackedFloat) : a.compare .notANumber = none := by
  cases a <;> rfl

/-! ## What the magnitude says -/

/-- A finite number whose mantissa and exponent make up the magnitude. -/
theorem isPacked_finite {m : ℕ} {e : ℤ} (hm : 0 < m)
    (heq : (x.magnitude : ℤ) = (e + 1074) * 2 ^ 52 + m) (hlt : x.magnitude < top)
    (hbits : m < 2 ^ 53 ∧ -1074 ≤ e ∧ (m < 2 ^ 52 → e = -1074)) :
    IsPacked (.finite x.sign m e hm) ∧
      height (.finite x.sign m e hm) = x.sign.apply x.magnitude ∧ x.magnitude ≤ top := by
  obtain ⟨hmantissa, hleast, hleading⟩ := hbits
  refine ⟨⟨hmantissa, hleast, hleading, ?_⟩, ?_, hlt.le⟩
  · rw [← heq]
    exact_mod_cast hlt
  · rw [height, heq]

/-- Beyond the infinities lie the undefined values, told apart by their
payloads; all else is in numeric order. -/
theorem number_cases (x : BitPattern) :
    (x.number = .notANumber ∧ 0 < x.payload ∧ x.magnitude = top + x.payload) ∨
      (IsPacked x.number ∧ height x.number = x.sign.apply x.magnitude ∧
        x.magnitude ≤ top) := by
  have hlt : x.magnitude < 2 ^ 63 := Nat.mod_lt _ (by decide)
  have hpayload := x.payload_eq
  have htop : top = 2047 * 2 ^ 52 := rfl
  have hbias : Format.binary64.exponentBias = 1023 := rfl
  rw [number, UnpackedFloat.unpack]
  simp only [ofBitVec_unpackSign, toNat_unpackExponent, hbias]
  by_cases hlast : x.magnitude / 2 ^ 52 = 2047
  · rw [if_pos (x.unpackExponent_eq_ones_iff.mpr hlast)]
    by_cases hzero : x.payload = 0
    · rw [if_pos (x.unpackMantissa_eq_zero_iff.mpr hzero)]
      have heq : x.magnitude = top := by omega
      exact Or.inr ⟨trivial, by rw [height, heq], heq.le⟩
    · rw [if_neg (mt x.unpackMantissa_eq_zero_iff.mp hzero)]
      exact Or.inl ⟨rfl, by omega, by omega⟩
  rw [if_neg (mt x.unpackExponent_eq_ones_iff.mp hlast)]
  right
  by_cases hfirst : x.magnitude / 2 ^ 52 = 0
  · rw [if_pos (x.unpackExponent_eq_zero_iff.mpr hfirst)]
    by_cases hzero : x.payload = 0
    · rw [dif_pos (x.unpackMantissa_eq_zero_iff.mpr hzero)]
      have heq : x.magnitude = 0 := by omega
      refine ⟨trivial, ?_, by omega⟩
      rw [height, heq]
      cases x.sign <;> rfl
    · rw [dif_neg (mt x.unpackMantissa_eq_zero_iff.mp hzero)]
      have hmantissa := x.toNat_unpackMantissa
      exact isPacked_finite _ (by omega) (by omega) (by omega)
  · rw [if_neg (mt x.unpackExponent_eq_zero_iff.mp hfirst)]
    have hmantissa : (1#1 ++ @unpackMantissa Format.binary64 x.bits.toBitVec).toNat =
        2 ^ 52 + x.payload := by
      rw [BitVec.toNat_append, ← Nat.shiftLeft_add_eq_or_of_lt (BitVec.isLt _),
        toNat_unpackMantissa]
      rfl
    exact isPacked_finite _ (by omega) (by omega) (by omega)

/-! ## The ranking -/

/-- The rank of a bit pattern is its magnitude under its sign, one lower with
the sign bit. -/
theorem sign_cases (x : BitPattern) :
    (x.isNegative = true ∧ x.sign = .negative ∧
        binary64Rank x.bits = -(x.magnitude : ℤ) - 1) ∨
      (x.isNegative = false ∧ x.sign = .positive ∧
        binary64Rank x.bits = (x.magnitude : ℤ)) := by
  have hlt := x.bits.toNat_lt
  have hlimit : Nat.pow 2 63 = 2 ^ 63 := rfl
  simp only [sign, binary64Rank, magnitude, hlimit]
  by_cases hneg : 2 ^ 63 ≤ x.bits.toNat
  · have htrue : x.isNegative = true := decide_eq_true hneg
    rw [if_pos htrue, if_neg (by omega)]
    exact Or.inl ⟨htrue, rfl, by omega⟩
  · have hfalse : x.isNegative = false := decide_eq_false hneg
    rw [if_neg (by simp [hfalse]), if_pos (by omega)]
    exact Or.inr ⟨hfalse, rfl, by omega⟩

theorem binary64Rank_injective (h : binary64Rank x.bits = binary64Rank y.bits) :
    x = y := by
  obtain ⟨xbits⟩ := x
  obtain ⟨ybits⟩ := y
  have hx := xbits.toNat_lt
  have hy := ybits.toNat_lt
  have hlimit : Nat.pow 2 63 = 2 ^ 63 := rfl
  simp only [binary64Rank, hlimit] at h
  congr 1
  apply UInt64.toNat_inj.mp
  split at h
  · split at h <;> omega
  · split at h <;> omega

/-- A rank is the place in the numeric order, one lower with the sign bit. -/
theorem rank_of_height (h : height x.number = x.sign.apply x.magnitude) :
    (x.isNegative = true ∧ height x.number ≤ 0 ∧
        binary64Rank x.bits = height x.number - 1) ∨
      (x.isNegative = false ∧ 0 ≤ height x.number ∧
        binary64Rank x.bits = height x.number) := by
  rw [h]
  rcases x.sign_cases with ⟨hneg, hsign, hrank⟩ | ⟨hneg, hsign, hrank⟩
  · rw [hsign, hrank]
    exact Or.inl ⟨hneg, by simp [Sign.apply], rfl⟩
  · rw [hsign, hrank]
    exact Or.inr ⟨hneg, by simp [Sign.apply], rfl⟩

theorem isNaN_eq_false {a : UnpackedFloat} (ha : IsPacked a) : a.isNaN = false := by
  rw [← Bool.not_eq_true, UnpackedFloat.isNaN_iff]
  rintro rfl
  exact ha

/-! ## The total order, case by case -/

theorem totalLE_undefined (hx : x.number = .notANumber) (hy : y.number = .notANumber) :
    x.TotalLE y ↔ x.sign.apply x.payload ≤ y.sign.apply y.payload := by
  rw [TotalLE, hx, hy]
  exact Iff.rfl

theorem totalLE_of_undefined_left (hx : x.number = .notANumber) (hy : IsPacked y.number) :
    x.TotalLE y ↔ x.isNegative = true := by
  rw [TotalLE, isNaN_eq_false hy, hx]
  exact Iff.rfl

theorem totalLE_of_undefined_right (hx : IsPacked x.number)
    (hy : y.number = .notANumber) : x.TotalLE y ↔ y.isNegative = false := by
  rw [TotalLE, isNaN_eq_false hx, hy, compare_notANumber]
  exact Iff.rfl

theorem totalLE_numbers (hx : IsPacked x.number) (hy : IsPacked y.number) :
    x.TotalLE y ↔ height x.number < height y.number ∨
      height x.number = height y.number ∧
        (x.isNegative = true ∨ y.isNegative = false) := by
  obtain ⟨o, ho, hcompares⟩ := exists_compare hx hy
  rw [TotalLE, ho]
  cases o with
  | lt => exact iff_of_true trivial (Or.inl hcompares)
  | gt =>
      have hgt : height y.number < height x.number := hcompares
      exact iff_of_false id (by omega)
  | eq =>
      have heq : height x.number = height y.number := hcompares
      rw [or_iff_right heq.not_lt, and_iff_right heq]

/-- The ranking of bit patterns is the total order. -/
theorem rankLE_iff : Scalar.rankLE x y = true ↔ x.TotalLE y := by
  have hrank : Scalar.rankLE x y = true ↔ binary64Rank x.bits ≤ binary64Rank y.bits :=
    decide_eq_true_iff
  rw [hrank]
  rcases x.number_cases with ⟨hx, hxpos, hxmag⟩ | ⟨hx, hxheight, hxtop⟩
  · rcases y.number_cases with ⟨hy, hypos, hymag⟩ | ⟨hy, -, hytop⟩
    · rw [totalLE_undefined hx hy]
      rcases x.sign_cases with ⟨-, hxs, hxrank⟩ | ⟨-, hxs, hxrank⟩
      · rcases y.sign_cases with ⟨-, hys, hyrank⟩ | ⟨-, hys, hyrank⟩
        · rw [hxs, hys, hxrank, hyrank, Sign.apply, Sign.apply]
          omega
        · rw [hxs, hys, hxrank, hyrank, Sign.apply, Sign.apply]
          omega
      · rcases y.sign_cases with ⟨-, hys, hyrank⟩ | ⟨-, hys, hyrank⟩
        · rw [hxs, hys, hxrank, hyrank, Sign.apply, Sign.apply]
          omega
        · rw [hxs, hys, hxrank, hyrank, Sign.apply, Sign.apply]
          omega
    · rw [totalLE_of_undefined_left hx hy]
      have hysign := y.sign_cases
      rcases x.sign_cases with ⟨hneg, -, hxrank⟩ | ⟨hneg, -, hxrank⟩
      · exact iff_of_true (by omega) hneg
      · exact iff_of_false (by omega) (by simp [hneg])
  · rcases y.number_cases with ⟨hy, hypos, hymag⟩ | ⟨hy, hyheight, -⟩
    · rw [totalLE_of_undefined_right hx hy]
      have hxsign := x.sign_cases
      rcases y.sign_cases with ⟨hneg, -, hyrank⟩ | ⟨hneg, -, hyrank⟩
      · exact iff_of_false (by omega) (by simp [hneg])
      · exact iff_of_true (by omega) hneg
    · rw [totalLE_numbers hx hy]
      have hyrank := rank_of_height hyheight
      rcases rank_of_height hxheight with ⟨hxneg, hxle, hxrank⟩ | ⟨hxneg, hxle, hxrank⟩
      · simp only [hxneg, true_or, and_true]
        omega
      · rcases hyrank with ⟨hyneg, hyle, hyrank⟩ | ⟨hyneg, hyle, hyrank⟩
        · simp only [hxneg, hyneg, Bool.false_eq_true, Bool.true_eq_false, or_self,
            and_false, or_false]
          omega
        · simp only [hyneg, or_true, and_true]
          omega

/-- Bit patterns that come no later than each other are the same. -/
theorem totalLE_antisymm (hxy : x.TotalLE y) (hyx : y.TotalLE x) : x = y := by
  have hle : binary64Rank x.bits ≤ binary64Rank y.bits :=
    of_decide_eq_true (rankLE_iff.mpr hxy)
  have hge : binary64Rank y.bits ≤ binary64Rank x.bits :=
    of_decide_eq_true (rankLE_iff.mpr hyx)
  exact binary64Rank_injective (le_antisymm hle hge)

/-! ## Comparisons -/

/-- The number of a bit pattern is what floating-point operations see of it. -/
theorem unpack_toFloat (x : BitPattern) : x.toFloat.toModel.unpack = x.number := by
  change UnpackedFloat.unpack _ (UnpackedFloat.pack _ x.number) = x.number
  rw [number, UnpackedFloat.pack_unpack]
  split
  · rename_i hnan
    rw [UnpackedFloat.unpack_packedNaN]
    simp only [UnpackedFloat.isNaNBits, decide_eq_true_eq] at hnan
    rw [UnpackedFloat.unpack]
    simp only [if_pos hnan.1, if_neg hnan.2]
  · rfl

theorem lt_iff : x < y ↔ x.number.compare y.number = some .lt := by
  rw [← x.unpack_toFloat, ← y.unpack_toFloat]
  exact decide_eq_true_iff.trans beq_iff_eq

theorem beq_iff : (x == y) = true ↔ x.number.compare y.number = some .eq := by
  rw [← x.unpack_toFloat, ← y.unpack_toFloat]
  change (UnpackedFloat.compare _ _ == some .eq) = true ↔ _
  exact beq_iff_eq

/-- Patterns that compare stand for numbers or infinities, and their places in the
numeric order compare likewise. -/
theorem heights_of_compare {o : Ordering} (h : x.number.compare y.number = some o) :
    (IsPacked x.number ∧ height x.number = x.sign.apply x.magnitude) ∧
      (IsPacked y.number ∧ height y.number = y.sign.apply y.magnitude) ∧
      o.Compares (height x.number) (height y.number) := by
  rcases x.number_cases with ⟨hx, -⟩ | ⟨hx, hxheight, -⟩
  · rw [hx] at h
    cases h
  rcases y.number_cases with ⟨hy, -⟩ | ⟨hy, hyheight, -⟩
  · rw [hy, compare_notANumber] at h
    cases h
  obtain ⟨o', ho', hcompares⟩ := exists_compare hx hy
  obtain rfl := Option.some.inj (ho'.symm.trans h)
  exact ⟨⟨hx, hxheight⟩, ⟨hy, hyheight⟩, hcompares⟩

theorem not_lt_of_totalLE (h : x.TotalLE y) : ¬ y < x := by
  intro hlt
  obtain ⟨⟨hy, -⟩, ⟨hx, -⟩, hlt : height y.number < height x.number⟩ :=
    heights_of_compare (lt_iff.mp hlt)
  rw [totalLE_numbers hx hy] at h
  omega

/-- The zero whose sign bit is set. -/
def negativeZero : BitPattern :=
  ⟨0x8000000000000000⟩

/-- The zero whose sign bit is not set. -/
def positiveZero : BitPattern :=
  ⟨0⟩

theorem positiveZero_beq_negativeZero : (positiveZero == negativeZero) = true := by
  decide

theorem not_totalLE_zeros : ¬ positiveZero.TotalLE negativeZero := by
  rw [← rankLE_iff]
  decide

/-- Different patterns of equal numbers are the two zeros. -/
theorem eq_or_zeros_of_beq (h : (y == x) = true) (hle : x.TotalLE y) :
    x = y ∨ x = negativeZero ∧ y = positiveZero := by
  obtain ⟨⟨hy, hyheight⟩, ⟨hx, hxheight⟩, heq : height y.number = height x.number⟩ :=
    heights_of_compare (beq_iff.mp h)
  rw [totalLE_numbers hx hy, or_iff_right heq.not_gt] at hle
  obtain ⟨-, hsigns⟩ := hle
  rcases rank_of_height hxheight with ⟨hxneg, hxle, hxrank⟩ | ⟨hxneg, hxle, hxrank⟩
  · rcases rank_of_height hyheight with ⟨-, -, hyrank⟩ | ⟨-, hyle, hyrank⟩
    · exact Or.inl (binary64Rank_injective (by omega))
    · right
      have hnegative : binary64Rank negativeZero.bits = -1 := by decide
      have hpositive : binary64Rank positiveZero.bits = 0 := by decide
      constructor
      · apply binary64Rank_injective
        rw [hnegative]
        omega
      · apply binary64Rank_injective
        rw [hpositive]
        omega
  · rcases rank_of_height hyheight with ⟨hyneg, -, -⟩ | ⟨-, -, hyrank⟩
    · simp [hxneg, hyneg] at hsigns
    · exact Or.inl (binary64Rank_injective (by omega))

end IntervalProgramming.BitPattern
