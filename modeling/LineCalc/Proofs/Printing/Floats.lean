import LineCalc.Binary64
import Mathlib

/-!
# Floats and their signs

A float is its bits, and the negative of a float has the other sign and is otherwise the same. So the
negative of the negative is the float itself.
-/

namespace LineCalc.Binary64

open Float.Model Float.Model.UnpackedFloat

variable {spec : Format}

/-- The bits with the other sign. -/
def flipped (b : BitVec spec.numBits) : BitVec spec.numBits :=
  packComponents spec (-Sign.ofBitVec (unpackSign b)) (unpackExponent b) (unpackMantissa b)

theorem unpack_flipped (b : BitVec spec.numBits) :
    UnpackedFloat.unpack spec (flipped b) = (UnpackedFloat.unpack spec b).neg := by
  unfold UnpackedFloat.unpack flipped
  simp only [unpackSign_packComponents, unpackExponent_packComponents,
    unpackMantissa_packComponents, Sign.ofBitVec_toBitVec]
  split
  · split <;> rfl
  · split
    · split <;> rfl
    · rfl

theorem isNaNBits_flipped (b : BitVec spec.numBits) : isNaNBits (flipped b) = isNaNBits b := by
  simp only [isNaNBits, flipped, unpackExponent_packComponents, unpackMantissa_packComponents]

/-- The bits of the negative are those with the other sign, unless it is not a number. -/
theorem pack_neg_unpack (hs : 2 ≤ spec.exponentBits) (b : BitVec spec.numBits) :
    UnpackedFloat.pack spec (UnpackedFloat.unpack spec b).neg =
      if isNaNBits b = true then packedNaN spec else flipped b := by
  rw [← unpack_flipped, pack_unpack _ hs, isNaNBits_flipped]

theorem unpack_of_isNaNBits {b : BitVec spec.numBits} (h : isNaNBits b = true) :
    UnpackedFloat.unpack spec b = .notANumber := by
  obtain ⟨he, hm⟩ := of_decide_eq_true h
  unfold UnpackedFloat.unpack
  simp [he, hm]

theorem unpack_pack_neg (hs : 2 ≤ spec.exponentBits) (b : BitVec spec.numBits) :
    UnpackedFloat.unpack spec (UnpackedFloat.pack spec (UnpackedFloat.unpack spec b).neg) =
      (UnpackedFloat.unpack spec b).neg := by
  rw [pack_neg_unpack hs]
  split
  · rename_i hn
    rw [unpack_packedNaN, unpack_of_isNaNBits hn]
    rfl
  · exact unpack_flipped b

theorem neg_neg_unpacked (u : UnpackedFloat) : u.neg.neg = u := by
  rcases u with s | _ | s | ⟨s, m, e, hm⟩
  · cases s <;> rfl
  · rfl
  · cases s <;> rfl
  · cases s <;> rfl

/-- A float is its own negative's negative. -/
theorem neg_neg_float (x : Float) : - -x = x := by
  obtain ⟨⟨bits, valid⟩⟩ := x
  have hs : 2 ≤ Format.binary64.exponentBits := by decide
  have hbits : UnpackedFloat.pack .binary64 (UnpackedFloat.unpack .binary64
      (UnpackedFloat.pack .binary64 (UnpackedFloat.unpack .binary64 bits.toBitVec).neg)).neg =
        bits.toBitVec := by
    rw [unpack_pack_neg hs, neg_neg_unpacked, pack_unpack_of_valid valid hs]
  show Float.ofModel ⟨⟨UnpackedFloat.pack .binary64 _⟩, _⟩ = _
  congr 2
  exact congrArg UInt64.ofBitVec hbits

end LineCalc.Binary64
