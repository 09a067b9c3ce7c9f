import Mathlib

/-!
# Expressions that are numbers

A value compares equal to itself unless it is not a number. An operation on floating-point numbers
yields such a value only for operands that call for it, infinities above all; rounding never does. So the
image of a natural number under a finite scale and a finite offset is a number, however large it is.

## Main definitions

* `IsNumber`: a value other than NaN

## Main results

* `IsNumber.beq_self`: a number compares equal to itself
* `isNumber_image`: the image of a natural number is a number
-/

namespace ConstraintHierarchy

open Float.Model Float.Model.UnpackedFloat

variable {f : UnpackedFloat} {x y s o : Float} {spec : Format} {sign : UnpackedFloat.Sign} {n : Nat}

/-! ## Rounding and packing -/

theorem roundWithAccuracy_ne_notANumber {m : Nat} {e : Int} {a : Accuracy} :
    roundWithAccuracy spec sign m e a ≠ .notANumber := by
  intro h
  simp only [roundWithAccuracy] at h
  split at h <;> cases h

theorem normalize_ne_notANumber {m e : Int} :
    UnpackedFloat.normalize spec m e sign ≠ .notANumber := by
  unfold UnpackedFloat.normalize
  split
  · exact roundWithAccuracy_ne_notANumber
  · exact fun h => nomatch h
  · exact roundWithAccuracy_ne_notANumber

theorem ofScientific_ne_notANumber {e : Int} (he : 0 ≤ e) :
    UnpackedFloat.ofScientific spec n e ≠ .notANumber := by
  unfold UnpackedFloat.ofScientific
  split
  · simp
  · split
    · simp
    · split
      · simp
      · exact roundWithAccuracy_ne_notANumber

theorem unpack_ne_notANumber {b : BitVec spec.numBits}
    (h : unpackExponent b = -1#_ → unpackMantissa b = 0#_) :
    UnpackedFloat.unpack spec b ≠ .notANumber := by
  intro hnan
  simp only [UnpackedFloat.unpack] at hnan
  split at hnan
  next hexponent =>
    rw [if_pos (h hexponent)] at hnan
    cases hnan
  next =>
    split at hnan
    · split at hnan <;> cases hnan
    · cases hnan

/-- Packing loses no number: what is too large becomes an infinity. -/
theorem unpack_pack_ne_notANumber (hf : f ≠ .notANumber) :
    UnpackedFloat.unpack spec (UnpackedFloat.pack spec f) ≠ .notANumber := by
  apply unpack_ne_notANumber
  fun_cases UnpackedFloat.pack with
  | case1 => exact absurd rfl hf
  | case2 s => simp [packedInfinity]
  | case3 s => simp [packedZero]
  | case4 s m e hm biased hlarge => simp [packedInfinity]
  | case5 s m e hm bits biased hlarge hnormal =>
    intro hexponent
    have hne : biased % 2 ^ spec.exponentBits ≠ 2 ^ spec.exponentBits - 1 := by
      rw [Nat.mod_eq_of_lt (by omega)]
      omega
    simp [BitVec.neg_one_eq_allOnes, ← BitVec.toNat_inj, hne] at hexponent
  | case6 s m e hm bits biased hlarge hsubnormal =>
    intro hexponent
    simp [Nat.pos_iff_ne_zero.1 spec.he] at hexponent

/-! ## Operations -/

/-- The value is not NaN. -/
def IsNumber (x : Float) : Prop := x.toModel.unpack ≠ .notANumber

theorem isNumber_pack (hf : f ≠ .notANumber) : IsNumber ⟨Float.Model.pack f⟩ :=
  unpack_pack_ne_notANumber hf

theorem IsNumber.beq_self (h : IsNumber x) : (x == x) = true := by
  show x.toModel.unpack.beq x.toModel.unpack = true
  cases hx : x.toModel.unpack with
  | notANumber => exact absurd hx h
  | infinity s => cases s <;> rfl
  | zero s => rfl
  | finite s m e hm => cases s <;> simp [UnpackedFloat.beq, UnpackedFloat.compare]

theorem exists_unpack_finite (hfinite : y.isFinite = true) (hzero : (y == 0.0) = false) :
    ∃ sign m e hm, y.toModel.unpack = .finite sign m e hm := by
  have hfinite : y.toModel.unpack.isFinite = true := hfinite
  have hzero : y.toModel.unpack.beq (.zero .positive) = false := hzero
  cases hy : y.toModel.unpack with
  | notANumber => simp [hy, UnpackedFloat.isFinite] at hfinite
  | infinity s => simp [hy, UnpackedFloat.isFinite] at hfinite
  | zero s => simp [hy, UnpackedFloat.beq, UnpackedFloat.compare] at hzero
  | finite s m e hm => exact ⟨s, m, e, hm, rfl⟩

theorem IsNumber.mul (hx : IsNumber x) (hfinite : y.isFinite = true) (hzero : (y == 0.0) = false) :
    IsNumber (x * y) := by
  obtain ⟨sign, m, e, hm, hy⟩ := exists_unpack_finite hfinite hzero
  refine isNumber_pack ?_
  rw [hy]
  cases h : x.toModel.unpack with
  | notANumber => exact absurd h hx
  | infinity s => exact fun h => nomatch h
  | zero s => exact fun h => nomatch h
  | finite s m e hm => exact roundWithAccuracy_ne_notANumber

theorem IsNumber.add (hx : IsNumber x) (hfinite : y.isFinite = true) : IsNumber (x + y) := by
  have hfinite : y.toModel.unpack.isFinite = true := hfinite
  refine isNumber_pack ?_
  cases h : x.toModel.unpack with
  | notANumber => exact absurd h hx
  | infinity s =>
    cases hy : y.toModel.unpack <;>
      simp [hy, UnpackedFloat.isFinite, UnpackedFloat.add] at hfinite ⊢
  | zero s =>
    cases hy : y.toModel.unpack <;>
      simp [hy, UnpackedFloat.isFinite, UnpackedFloat.add] at hfinite ⊢
    split <;> simp
  | finite s m e hm =>
    cases hy : y.toModel.unpack with
    | finite => exact normalize_ne_notANumber
    | _ => simp [hy, UnpackedFloat.isFinite, UnpackedFloat.add] at hfinite ⊢

theorem isNumber_ofNat : IsNumber (Float.ofNat n) := by
  show IsNumber (Float.ofScientific n false 0)
  unfold Float.ofScientific
  split
  · show IsNumber (n.toUInt64.toFloat * 1)
    exact (isNumber_pack normalize_ne_notANumber).mul (by decide +kernel) (by decide +kernel)
  · exact isNumber_pack (ofScientific_ne_notANumber (Int.le_refl 0))

/-- The image of a natural number under a finite scale and a finite offset is a number. -/
theorem isNumber_image (hs : s.isFinite = true) (hzero : (s == 0.0) = false)
    (ho : o.isFinite = true) : IsNumber (Float.ofNat n * s + o) :=
  (isNumber_ofNat.mul hs hzero).add ho

end ConstraintHierarchy
