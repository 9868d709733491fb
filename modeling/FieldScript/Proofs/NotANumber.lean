import FieldScript.Proofs.FloatOrder

/-!
# Where not-a-number comes from

An operation gives not-a-number only by its cases for infinities and
zeros; rounding never does, and neither does packing a result into its
bits. So a quotient by a finite number that is not zero is a number, and
the like holds of products and sums.
-/

namespace FieldScript
namespace Binary64

open Float.Model

/-! ## Packing and rounding -/

theorem isNaN_unpack_pack (u : UnpackedFloat) :
    (UnpackedFloat.unpack Format.binary64 (UnpackedFloat.pack Format.binary64 u)).isNaN
      = u.isNaN := by
  have hexponent : ∀ (s : UnpackedFloat.Sign) (e : BitVec 11) (m : BitVec 52), e ≠ -1#_ →
      (UnpackedFloat.unpack Format.binary64
        (UnpackedFloat.packComponents Format.binary64 s e m)).isNaN = false := by
    intro s e m he
    rw [UnpackedFloat.unpack]
    simp only [UnpackedFloat.unpackExponent_packComponents,
      UnpackedFloat.unpackMantissa_packComponents]
    rw [if_neg he]
    split
    · split <;> rfl
    · rfl
  have hinfinity : ∀ s : UnpackedFloat.Sign, (UnpackedFloat.unpack Format.binary64
      (UnpackedFloat.packedInfinity Format.binary64 s)).isNaN = false := by
    intro s
    rw [UnpackedFloat.packedInfinity, UnpackedFloat.unpack]
    simp only [UnpackedFloat.unpackExponent_packComponents,
      UnpackedFloat.unpackMantissa_packComponents]
    rfl
  cases u with
  | notANumber => decide
  | infinity s => exact hinfinity s
  | zero s => exact hexponent s _ _ (by decide)
  | finite s m e hm =>
      rw [UnpackedFloat.pack]
      dsimp only
      split
      · exact hinfinity s
      · rename_i hbound
        split
        · refine hexponent s _ _ fun h => hbound ?_
          have hnat := congrArg BitVec.toNat h
          rw [BitVec.toNat_ofNat] at hnat
          replace hnat : _ % 2 ^ 11 = 2047 := hnat
          show 2 ^ 11 ≤ _ + 1
          have hmod := Nat.mod_le (e + ↑(Format.binary64.exponentBias)
            + ↑(Format.binary64.mantissaBitsWithoutImplicit)).toNat (2 ^ 11)
          omega
        · exact hexponent s _ _ (by decide)

/-- Rounding gives a number. -/
theorem isNaN_roundWithAccuracy (spec : Format) (s : UnpackedFloat.Sign) (m : Nat) (e : Int)
    (acc : UnpackedFloat.Accuracy) :
    (UnpackedFloat.roundWithAccuracy spec s m e acc).isNaN = false := by
  rw [UnpackedFloat.roundWithAccuracy]
  dsimp only
  split <;> rfl

theorem isNaN_normalize (spec : Format) (m : Int) (e : Int) (s : UnpackedFloat.Sign) :
    (UnpackedFloat.normalize spec m e s).isNaN = false := by
  rw [UnpackedFloat.normalize]
  split
  · exact isNaN_roundWithAccuracy _ _ _ _ _
  · rfl
  · exact isNaN_roundWithAccuracy _ _ _ _ _

/-! ## Operations -/

section Unpacked

variable {spec : Format} {u v : UnpackedFloat}

theorem isNaN_add (hu : u.isFinite = true) (hv : v.isNaN = false) :
    (UnpackedFloat.add spec u v).isNaN = false := by
  rcases u with s | _ | s | ⟨s, m, e, hm⟩ <;> rcases v with t | _ | t | ⟨t, n, f, hn⟩ <;>
    cases hu <;> cases hv <;> try rfl
  · rw [UnpackedFloat.add]
    split <;> rfl
  · exact isNaN_normalize _ _ _ _

theorem isNaN_sub (hu : u.isFinite = true) (hv : v.isFinite = true) :
    (UnpackedFloat.sub spec u v).isNaN = false := by
  rcases u with s | _ | s | ⟨s, m, e, hm⟩ <;> rcases v with t | _ | t | ⟨t, n, f, hn⟩ <;>
    cases hu <;> cases hv <;> try rfl
  · rw [UnpackedFloat.sub]
    split <;> rfl
  · exact isNaN_normalize _ _ _ _

theorem isNaN_finite_mul {s : UnpackedFloat.Sign} {m : Nat} {e : Int} {hm : 0 < m}
    (hv : v.isNaN = false) : (UnpackedFloat.mul spec (.finite s m e hm) v).isNaN = false := by
  rcases v with t | _ | t | ⟨t, n, f, hn⟩ <;> cases hv <;> try rfl
  exact isNaN_roundWithAccuracy _ _ _ _ _

theorem isNaN_div_finite {s : UnpackedFloat.Sign} {m : Nat} {e : Int} {hm : 0 < m}
    (hu : u.isNaN = false) : (UnpackedFloat.div spec u (.finite s m e hm)).isNaN = false := by
  rcases u with t | _ | t | ⟨t, n, f, hn⟩ <;> cases hu <;> try rfl
  exact isNaN_roundWithAccuracy _ _ _ _ _

end Unpacked

/-- A finite number that is not zero. -/
def IsNonzero (x : Float) : Prop := ∃ s m e h, x.toModel.unpack = .finite s m e h

theorem isNonzero_half : IsNonzero Scalar.half := ⟨_, _, _, _, rfl⟩

variable {x y : Float}

theorem isNumber_of_pack {u : UnpackedFloat} (hu : u.isNaN = false) :
    IsNumber (.ofModel (Float.Model.pack u)) :=
  isNumber_iff.mpr ((isNaN_unpack_pack u).trans hu)

theorem isNumber_add (hx : x.isFinite = true) (hy : IsNumber y) : IsNumber (x + y) :=
  isNumber_of_pack (isNaN_add hx (isNumber_iff.mp hy))

theorem isNumber_sub (hx : x.isFinite = true) (hy : y.isFinite = true) : IsNumber (x - y) :=
  isNumber_of_pack (isNaN_sub hx hy)

theorem isNumber_mul (hx : IsNonzero x) (hy : IsNumber y) : IsNumber (x * y) := by
  obtain ⟨s, m, e, hm, hx⟩ := hx
  have hmul : (UnpackedFloat.mul Format.binary64 x.toModel.unpack y.toModel.unpack).isNaN = false := by
    rw [hx]
    exact isNaN_finite_mul (isNumber_iff.mp hy)
  exact isNumber_of_pack hmul

theorem isNumber_div (hx : IsNumber x) (hy : IsNonzero y) : IsNumber (x / y) := by
  obtain ⟨s, m, e, hm, hy⟩ := hy
  have hdiv : (UnpackedFloat.div Format.binary64 x.toModel.unpack y.toModel.unpack).isNaN = false := by
    rw [hy]
    exact isNaN_div_finite (isNumber_iff.mp hx)
  exact isNumber_of_pack hdiv

theorem isNumber_neg (hx : IsNumber x) : IsNumber (-x) := by
  have hneg : x.toModel.unpack.neg.isNaN = false := by
    rw [isNumber_iff] at hx
    replace hx : x.toModel.unpack.isNaN = false := hx
    cases hunpack : x.toModel.unpack <;> rw [hunpack] at hx <;> first | rfl | cases hx
  exact isNumber_of_pack hneg

end Binary64
end FieldScript
