import TagLang.Proofs.Logic.Denote
import Mathlib.Algebra.Order.Ring.Int
import Mathlib.Tactic.Positivity

/-! # Words as bit-vectors

A word stands for the bit-vector of its low bits. The operations on words, which are carried out on
64 bits and cut afterwards, are the operators of bit-vectors at every width up to 64.
-/

namespace TagLang

namespace Bits

def low (word : UInt64) (width : Nat) : BitVec width := word.toBitVec.setWidth width

def Fits (word : UInt64) (width : Nat) : Prop := word.toNat < 2 ^ width

theorem toNat_low (word : UInt64) (width : Nat) : (low word width).toNat = word.toNat % 2 ^ width := by
  simp [low, BitVec.toNat_setWidth]

theorem toNat_low_of_fits {word : UInt64} {width : Nat} (h : Fits word width) :
    (low word width).toNat = word.toNat := by
  rw [toNat_low, Nat.mod_eq_of_lt h]

theorem low_inj {x y : UInt64} {width : Nat} (hx : Fits x width) (hy : Fits y width) :
    low x width = low y width ↔ x = y := by
  constructor
  · intro h
    have hnat : x.toNat = y.toNat := by rw [← toNat_low_of_fits hx, h, toNat_low_of_fits hy]
    exact UInt64.toNat_inj.mp hnat
  · rintro rfl
    rfl

theorem toNat_mask {width : Nat} (h : width ≤ 64) : (mask width).toNat = 2 ^ width - 1 := by
  unfold mask
  split
  · have : width = 64 := by omega
    subst this
    rfl
  · next hlt =>
    have hpow : 2 ^ width < 2 ^ 64 := Nat.pow_lt_pow_right (by decide) (by omega)
    have hone : 1 ≤ 2 ^ width := Nat.one_le_two_pow
    have hshift : ((1 : UInt64) <<< UInt64.ofNat width).toNat = 2 ^ width := by
      rw [UInt64.toNat_shiftLeft, UInt64.toNat_ofNat_of_lt' (by simp [UInt64.size]; omega)]
      rw [Nat.mod_eq_of_lt (by omega : width < 64), Nat.shiftLeft_eq]
      simpa using hpow
    have hle : (1 : UInt64) ≤ 1 <<< UInt64.ofNat width := by
      rw [UInt64.le_iff_toNat_le, hshift]
      exact hone
    rw [UInt64.toNat_sub_of_le _ _ hle, hshift]
    rfl

theorem toNat_and_mask (x : UInt64) {width : Nat} (h : width ≤ 64) :
    (x &&& mask width).toNat = x.toNat % 2 ^ width := by
  rw [UInt64.toNat_and, toNat_mask h, Nat.and_two_pow_sub_one_eq_mod]

theorem fits_and_mask (x : UInt64) {width : Nat} (h : width ≤ 64) : Fits (x &&& mask width) width := by
  rw [Fits, toNat_and_mask x h]
  exact Nat.mod_lt _ (Nat.two_pow_pos width)

theorem low_and_mask (x : UInt64) {width : Nat} (h : width ≤ 64) :
    low (x &&& mask width) width = low x width := by
  apply BitVec.eq_of_toNat_eq
  rw [toNat_low, toNat_low, toNat_and_mask x h, Nat.mod_mod]

theorem low_mask {width : Nat} (h : width ≤ 64) : low (mask width) width = BitVec.allOnes width := by
  apply BitVec.eq_of_toNat_eq
  have hone : 1 ≤ 2 ^ width := Nat.one_le_two_pow
  rw [toNat_low, toNat_mask h, BitVec.toNat_allOnes]
  exact Nat.mod_eq_of_lt (by omega)

section Sign

variable {width : Nat}

theorem isNegative_eq_msb {x : UInt64} (hw : 1 ≤ width) (h64 : width ≤ 64) (hx : Fits x width) :
    isNegative x width = (low x width).msb := by
  have hshift : (x >>> UInt64.ofNat (width - 1) &&& 1).toNat = x.toNat / 2 ^ (width - 1) % 2 := by
    rw [UInt64.toNat_and, UInt64.toNat_shiftRight,
      UInt64.toNat_ofNat_of_lt' (by simp [UInt64.size]; omega),
      Nat.mod_eq_of_lt (by omega : width - 1 < 64), Nat.shiftRight_eq_div_pow]
    exact Nat.and_one_is_mod _
  have hpow : 2 ^ width = 2 * 2 ^ (width - 1) := by
    rw [← Nat.pow_succ', Nat.succ_eq_add_one, Nat.sub_add_cancel hw]
  have hlt : x.toNat / 2 ^ (width - 1) < 2 := by
    rw [Nat.div_lt_iff_lt_mul (Nat.two_pow_pos _), ← hpow]
    exact hx
  rw [isNegative, BitVec.msb_eq_decide, toNat_low_of_fits hx, decide_eq_decide,
    ← UInt64.toNat_inj, hshift, Nat.mod_eq_of_lt hlt]
  have hle : 1 ≤ x.toNat / 2 ^ (width - 1) ↔ 2 ^ (width - 1) ≤ x.toNat := by
    rw [Nat.le_div_iff_mul_le (Nat.two_pow_pos _), one_mul]
  rw [← hle, show (1 : UInt64).toNat = 1 from rfl]
  omega

theorem toSigned_eq_toInt (x : UInt64) (hw : 1 ≤ width) (h64 : width ≤ 64) :
    toSigned x width = (low x width).toInt := by
  have hmin : min width 64 = width := Nat.min_eq_left h64
  have hneg := isNegative_eq_msb hw h64 (fits_and_mask x h64)
  rw [low_and_mask x h64] at hneg
  simp only [toSigned, hmin, hneg, BitVec.toInt_eq_msb_cond, toNat_and_mask x h64, toNat_low]
  rfl

theorem low_ofInt (n : Int) (h64 : width ≤ 64) : low (ofInt n) width = BitVec.ofInt width n := by
  apply BitVec.eq_of_toNat_eq
  have hdvd : ((2 ^ width : Nat) : Int) ∣ ((2 ^ 64 : Nat) : Int) :=
    Int.natCast_dvd_natCast.mpr (Nat.pow_dvd_pow 2 h64)
  have hnonneg : 0 ≤ n % ((2 ^ 64 : Nat) : Int) := Int.emod_nonneg _ (by decide)
  have hword : ((ofInt n).toNat : Int) = n % ((2 ^ 64 : Nat) : Int) := by
    rw [ofInt, UInt64.toNat_ofNat', Nat.mod_eq_of_lt]
    · exact Int.toNat_of_nonneg hnonneg
    · show (n % ((2 ^ 64 : Nat) : Int)).toNat < 2 ^ 64
      omega
  rw [toNat_low, BitVec.toNat_ofInt, ← Int.emod_emod_of_dvd n hdvd, ← hword]
  omega

end Sign

section Width

variable {width : Nat}

def read (signed : Bool) (x : BitVec width) : Int := if signed then x.toInt else x.toNat

theorem ofInt_read (signed : Bool) (x : BitVec width) : BitVec.ofInt width (read signed x) = x := by
  cases signed with
  | true => exact BitVec.ofInt_toInt
  | false => rw [read, if_neg Bool.false_ne_true, BitVec.ofInt_natCast, BitVec.ofNat_toNat,
    BitVec.setWidth_eq]

theorem low_not (x : UInt64) (h64 : width ≤ 64) : low (~~~x) width = ~~~low x width :=
  BitVec.setWidth_not h64

theorem low_signExtend (x : UInt64) {more : Nat} (hw : 1 ≤ width) (h64 : width + more ≤ 64) :
    low (ofInt (toSigned x width)) (width + more) = (low x width).signExtend (width + more) := by
  rw [low_ofInt _ h64, toSigned_eq_toInt x hw (by omega)]
  rfl

theorem low_zeroExtend {x : UInt64} (hx : Fits x width) {more : Nat} :
    low x (width + more) = (low x width).setWidth (width + more) := by
  apply BitVec.eq_of_toNat_eq
  rw [BitVec.toNat_setWidth, toNat_low_of_fits hx, toNat_low]

theorem low_extract (x : UInt64) {count : Nat} (h : count ≤ width) :
    low x count = (low x width).setWidth count := by
  rw [low, low, BitVec.setWidth_setWidth_of_le _ h]

theorem fits_negate (x : UInt64) (h64 : width ≤ 64) : Fits (negate x width) width := fits_and_mask _ h64

theorem low_neg (x : UInt64) (h64 : width ≤ 64) : low (-x) width = -low x width := by
  rw [low, UInt64.toBitVec_neg, BitVec.setWidth_neg_of_le h64, low]

theorem low_negate (x : UInt64) (h64 : width ≤ 64) : low (negate x width) width = -low x width := by
  rw [negate, low_and_mask _ h64, low_neg x h64]

theorem low_eq_zero_iff {y : UInt64} (hy : Fits y width) :
    low y width = BitVec.ofNat width 0 ↔ y = 0 := by
  have hzero : low 0 width = BitVec.ofNat width 0 := BitVec.eq_of_toNat_eq (by simp [toNat_low])
  rw [← hzero]
  exact low_inj hy (Nat.two_pow_pos width)

/-- Beyond the width the sign fills all bits, so that a shift by one less than the width does it. -/
theorem toInt_shiftRight_min (v : BitVec width) (hw : 1 ≤ width) (n : Nat) :
    v.toInt >>> min n (width - 1) = v.toInt >>> n := by
  by_cases h : n ≤ width - 1
  · rw [Nat.min_eq_left h]
  · have hle : width - 1 ≤ n := by omega
    have hpow : (2 : Int) ^ (width - 1) ≤ 2 ^ n := pow_le_pow_right₀ (by decide) hle
    have hlow := BitVec.le_two_mul_toInt (x := v)
    have hhigh := BitVec.two_mul_toInt_lt (x := v)
    have hwidth : (2 : Int) ^ width = 2 * 2 ^ (width - 1) := by
      rw [← pow_succ', Nat.sub_add_cancel hw]
    have hpos : (0 : Int) < 2 ^ (width - 1) := by positivity
    have hshift (k : Nat) (hk : (2 : Int) ^ (width - 1) ≤ 2 ^ k) :
        v.toInt >>> k = if v.toInt < 0 then -1 else 0 := by
      rw [Int.shiftRight_eq_div_pow]
      push_cast
      split
      · next hneg => exact Int.ediv_eq_neg_one_of_neg_of_le hneg (by omega)
      · next hneg => exact Int.ediv_eq_zero_of_lt (by omega) (by omega)
    rw [Nat.min_eq_right hle, hshift _ le_rfl, hshift _ hpow]

end Width

end Bits

open Bits

/-! ## Operators -/

section Operators

variable {width : Nat} {x y : UInt64} (hw : 1 ≤ width) (h64 : width ≤ 64) (hx : Fits x width)
  (hy : Fits y width)
include hx hy

theorem Bits.low_remainder : low (remainder x y) width = (low x width).umod (low y width) := by
  show low (remainder x y) width = low x width % low y width
  apply BitVec.eq_of_toNat_eq
  have hfits : Fits (x % y) width := by
    rw [Fits, UInt64.toNat_mod]
    exact lt_of_le_of_lt (Nat.mod_le _ _) hx
  rw [BitVec.toNat_umod, toNat_low_of_fits hx, toNat_low_of_fits hy, remainder]
  split
  · next h =>
    rw [toNat_low_of_fits hx, h, show (0 : UInt64).toNat = 0 from rfl, Nat.mod_zero]
  · rw [toNat_low_of_fits hfits, UInt64.toNat_mod]

include h64

theorem Bits.low_divide : low (divide x y width) width = (low x width).smtUDiv (low y width) := by
  rw [divide, BitVec.smtUDiv_eq]
  by_cases h : y = 0
  · rw [if_pos h, if_pos ((low_eq_zero_iff hy).mpr h), low_mask h64]
  · rw [if_neg h, if_neg (mt (low_eq_zero_iff hy).mp h)]
    apply BitVec.eq_of_toNat_eq
    have hfits : Fits (x / y) width := by
      rw [Fits, UInt64.toNat_div]
      exact lt_of_le_of_lt (Nat.div_le_self _ _) hx
    rw [toNat_low_of_fits hfits, UInt64.toNat_div, BitVec.toNat_udiv, toNat_low_of_fits hx,
      toNat_low_of_fits hy]

theorem Bits.low_shiftLeft :
    low (if width ≤ y.toNat then 0 else x <<< y) width = low x width <<< low y width := by
  apply BitVec.eq_of_toNat_eq
  rw [BitVec.shiftLeft_eq', BitVec.toNat_shiftLeft, toNat_low_of_fits hx, toNat_low_of_fits hy,
    Nat.shiftLeft_eq]
  split
  · next h =>
    have hdvd : 2 ^ width ∣ x.toNat * 2 ^ y.toNat := Dvd.dvd.mul_left (Nat.pow_dvd_pow 2 h) _
    rw [Nat.mod_eq_zero_of_dvd hdvd, toNat_low]
    exact Nat.zero_mod _
  · next h =>
    rw [toNat_low, UInt64.toNat_shiftLeft, Nat.mod_eq_of_lt (by omega : y.toNat < 64), Nat.shiftLeft_eq,
      Nat.mod_mod_of_dvd _ (Nat.pow_dvd_pow 2 h64)]

theorem Bits.low_shiftRight :
    low (if width ≤ y.toNat then 0 else x >>> y) width = low x width >>> low y width := by
  apply BitVec.eq_of_toNat_eq
  rw [BitVec.ushiftRight_eq', BitVec.toNat_ushiftRight, toNat_low_of_fits hx, toNat_low_of_fits hy,
    Nat.shiftRight_eq_div_pow]
  split
  · next h =>
    have hlt : x.toNat < 2 ^ y.toNat := lt_of_lt_of_le hx (Nat.pow_le_pow_right (by decide) h)
    rw [Nat.div_eq_of_lt hlt, toNat_low]
    exact Nat.zero_mod _
  · next h =>
    have hshift : (x >>> y).toNat = x.toNat / 2 ^ y.toNat := by
      rw [UInt64.toNat_shiftRight, Nat.mod_eq_of_lt (by omega : y.toNat < 64), Nat.shiftRight_eq_div_pow]
    have hfits : Fits (x >>> y) width := by
      rw [Fits, hshift]
      exact lt_of_le_of_lt (Nat.div_le_self _ _) hx
    rw [toNat_low_of_fits hfits, hshift]

include hw

theorem Bits.low_signedDivide :
    low (BitOp.signedDivide x y width) width = (low x width).smtSDiv (low y width) := by
  have hnx := fits_negate x h64
  have hny := fits_negate y h64
  rw [BitOp.signedDivide, BitVec.smtSDiv_eq, isNegative_eq_msb hw h64 hx, isNegative_eq_msb hw h64 hy]
  cases (low x width).msb <;> cases (low y width).msb <;>
    simp only [low_negate _ h64, low_divide h64, hx, hy, hnx, hny]

theorem Bits.low_signedRemainder :
    low (BitOp.signedRemainder x y width) width = (low x width).srem (low y width) := by
  have hnx := fits_negate x h64
  have hny := fits_negate y h64
  rw [BitOp.signedRemainder, BitVec.srem_eq, isNegative_eq_msb hw h64 hx, isNegative_eq_msb hw h64 hy]
  cases (low x width).msb <;> cases (low y width).msb <;>
    simp only [low_negate _ h64, low_remainder, hx, hy, hnx, hny] <;> rfl

omit hx in
theorem Bits.low_arithmeticShift :
    low (ofInt (toSigned x width >>> min y.toNat (width - 1))) width =
      (low x width).sshiftRight' (low y width) := by
  rw [low_ofInt _ h64, toSigned_eq_toInt x hw h64, toInt_shiftRight_min _ hw, BitVec.sshiftRight_eq',
    toNat_low_of_fits hy]
  rfl

theorem BitOp.low_apply (op : BitOp) :
    low (op.apply x y width) width = op.denote (low x width) (low y width) := by
  cases op with
  | add => exact BitVec.setWidth_add _ _ h64
  | sub =>
    show (x - y).toBitVec.setWidth width = low x width - low y width
    rw [UInt64.toBitVec_sub, BitVec.sub_eq_add_neg, BitVec.setWidth_add _ _ h64,
      BitVec.setWidth_neg_of_le h64, BitVec.sub_eq_add_neg]
    rfl
  | mul => exact BitVec.setWidth_mul _ _ h64
  | sDiv => exact low_signedDivide hw h64 hx hy
  | uDiv => exact low_divide h64 hx hy
  | sRem => exact low_signedRemainder hw h64 hx hy
  | uRem => exact low_remainder hx hy
  | and => exact BitVec.setWidth_and
  | or => exact BitVec.setWidth_or
  | xor => exact BitVec.setWidth_xor
  | shl => exact low_shiftLeft h64 hx hy
  | lShr => exact low_shiftRight h64 hx hy
  | aShr => exact low_arithmeticShift hw h64 hy

theorem BitCmp.holds_eq_denote (cmp : BitCmp) :
    cmp.holds x y width = cmp.denote (low x width) (low y width) := by
  have hsx := toSigned_eq_toInt x hw h64
  have hsy := toSigned_eq_toInt y hw h64
  have hnx := toNat_low_of_fits hx
  have hny := toNat_low_of_fits hy
  cases cmp <;>
    simp only [BitCmp.holds, BitCmp.denote, BitVec.slt_eq_decide, BitVec.sle_eq_decide,
      BitVec.ult_eq_decide,
      BitVec.ule_eq_decide, UInt64.lt_iff_toNat_lt, UInt64.le_iff_toNat_le, hsx, hsy, hnx, hny]

end Operators

end TagLang
