import TagLang.Proofs.Contract.Literal

/-! # Operators on integers

Both operands of an operator are brought to the larger width, each by its own sign, so each stays
the integer that it is, modulo the words of that width. Sums, differences and products need no more
than that. A comparison or a quotient is that of the integers wherever the sign of the operator can
hold both of them.
-/

namespace TagLang

/-! ## What operators mean for integers -/

namespace BinOp

def comparison? : BinOp → Option (Int → Int → Bool)
  | .eq => some fun m n => m = n
  | .notEq => some fun m n => m ≠ n
  | .lt => some fun m n => m < n
  | .ltEq => some fun m n => m ≤ n
  | .gt => some fun m n => n < m
  | .gtEq => some fun m n => n ≤ m
  | _ => none

def ring? : BinOp → Option (Int → Int → Int)
  | .add => some (· + ·)
  | .sub => some (· - ·)
  | .mul => some (· * ·)
  | _ => none

/-- Quotients are cut towards zero, and a remainder has the sign of the dividend. -/
def quotient? : BinOp → Option (Int → Int → Int)
  | .div => some Int.tdiv
  | .mod => some Int.tmod
  | _ => none

end BinOp

/-! ## Bit-vectors of integers -/

namespace Bits

variable {width : Nat} {signed : Bool} {m n : Int}

theorem holds_iff (h64 : width ≤ 64) : (TermType.int width signed).Holds n ↔
    if signed then -2 ^ width ≤ 2 * n ∧ 2 * n < 2 ^ width else 0 ≤ n ∧ n < 2 ^ width := by
  cases signed <;> simp [TermType.Holds, Nat.min_eq_left h64]

theorem holds_read (h64 : width ≤ 64) (x : BitVec width) :
    (TermType.int width signed).Holds (read signed x) := by
  rw [holds_iff h64]
  cases signed with
  | true => exact ⟨BitVec.le_two_mul_toInt, BitVec.two_mul_toInt_lt⟩
  | false =>
    have hlt : x.toNat < 2 ^ width := x.isLt
    simp only [read, Bool.false_eq_true, if_false]
    exact ⟨Int.natCast_nonneg _, by exact_mod_cast hlt⟩

theorem read_ofInt (h64 : width ≤ 64) (h : (TermType.int width signed).Holds n) :
    read signed (BitVec.ofInt width n) = n := by
  rw [holds_iff h64] at h
  have hcast : ((2 ^ width : Nat) : Int) = 2 ^ width := Nat.cast_pow 2 _
  cases signed with
  | true =>
    simp only [if_true] at h
    simp only [read, if_true, BitVec.toInt_ofInt]
    exact Int.bmod_eq_of_le (by omega) (by omega)
  | false =>
    simp only [Bool.false_eq_true, if_false] at h
    simp only [read, Bool.false_eq_true, if_false, BitVec.toNat_ofInt, hcast]
    rw [Int.emod_eq_of_lt h.1 h.2, Int.toNat_of_nonneg h.1]

theorem compare_read (signed : Bool) (x y : BitVec width) :
    (if signed then BitCmp.slt else .ult).denote x y = decide (read signed x < read signed y) ∧
      (if signed then BitCmp.sle else .ule).denote x y = decide (read signed x ≤ read signed y) ∧
      (if signed then BitCmp.sgt else .ugt).denote x y = decide (read signed y < read signed x) ∧
      (if signed then BitCmp.sge else .uge).denote x y = decide (read signed y ≤ read signed x) := by
  cases signed <;>
    simp [BitCmp.denote, read, BitVec.slt_eq_decide, BitVec.sle_eq_decide, BitVec.ult_eq_decide,
      BitVec.ule_eq_decide]

theorem smtSDiv_of_ne_zero (x : BitVec width) {y : BitVec width} (hy : y ≠ .ofNat width 0) :
    x.smtSDiv y = x.sdiv y := by
  have hneg : -y ≠ .ofNat width 0 := by simpa using hy
  rw [BitVec.smtSDiv_eq, BitVec.sdiv_eq]
  cases x.msb <;> cases y.msb <;> simp [BitVec.smtUDiv_eq, hy, hneg]

theorem ofInt_ne_zero (h64 : width ≤ 64) (hn : (TermType.int width signed).Holds n) (hne : n ≠ 0) :
    BitVec.ofInt width n ≠ .ofNat width 0 := by
  intro hzero
  have hread := congrArg (read signed) hzero
  rw [read_ofInt h64 hn] at hread
  cases signed <;> simp [read] at hread <;> exact hne hread

section Operands

variable (h64 : width ≤ 64) (hm : (TermType.int width signed).Holds m)
  (hn : (TermType.int width signed).Holds n)
include h64 hm hn

theorem ofInt_eq_iff : BitVec.ofInt width m = BitVec.ofInt width n ↔ m = n := by
  constructor
  · intro h
    have hread := congrArg (read signed) h
    rwa [read_ofInt h64 hm, read_ofInt h64 hn] at hread
  · rintro rfl
    rfl

theorem divide_ofInt (hne : n ≠ 0) :
    (if signed then BitOp.sDiv else .uDiv).denote (BitVec.ofInt width m) (BitVec.ofInt width n) =
      BitVec.ofInt width (m.tdiv n) := by
  have hzero := ofInt_ne_zero h64 hn hne
  have hm' := read_ofInt h64 hm
  have hn' := read_ofInt h64 hn
  cases signed with
  | true =>
    -- The least integer divided by minus one leaves the range, so the two agree modulo the words only.
    simp only [read, if_true] at hm' hn'
    apply BitVec.eq_of_toInt_eq
    simp only [if_true, BitOp.denote, smtSDiv_of_ne_zero _ hzero]
    rw [BitVec.toInt_sdiv, hm', hn', BitVec.toInt_ofInt]
  | false =>
    have hquot : m.tdiv n = read false (BitVec.ofInt width m / BitVec.ofInt width n) := by
      simp only [read, Bool.false_eq_true, if_false] at hm' hn' ⊢
      rw [BitVec.toNat_udiv, Int.ofNat_tdiv, hm', hn']
    simp only [Bool.false_eq_true, if_false, BitOp.denote, BitVec.smtUDiv_eq, if_neg hzero]
    rw [hquot, ofInt_read]

theorem remainder_ofInt :
    (if signed then BitOp.sRem else .uRem).denote (BitVec.ofInt width m) (BitVec.ofInt width n) =
      BitVec.ofInt width (m.tmod n) := by
  have hrem : m.tmod n =
      read signed ((if signed then BitOp.sRem else .uRem).denote (BitVec.ofInt width m)
        (BitVec.ofInt width n)) := by
    have hm' := read_ofInt h64 hm
    have hn' := read_ofInt h64 hn
    cases signed with
    | true =>
      simp only [read, if_true] at hm' hn' ⊢
      rw [BitOp.denote, BitVec.toInt_srem, hm', hn']
    | false =>
      simp only [read, Bool.false_eq_true, if_false] at hm' hn' ⊢
      rw [BitOp.denote, BitVec.umod_eq, BitVec.toNat_umod, Int.ofNat_tmod, hm', hn']
  rw [hrem, ofInt_read]

end Operands

end Bits

/-! ## Values of formulas -/

namespace Formula

def Denotes (ρ : Valuation) (f : Formula) (x : Denotation) : Prop := f.denote ρ = x

def Evaluates (env : Assignment) (f : Formula) (x : Denotation) : Prop :=
  ∃ v, f.eval env = .ok v ∧ Represents x.sort v x

/-- A way to give values to formulas that makes the value of an operator from those of its operands. -/
structure Compositional (Gives : Formula → Denotation → Prop) : Prop where
  not {f : Formula} {b : Bool} : Gives f (.bool b) → Gives (.not f) (.bool (!b))
  eq {f g : Formula} {width : Nat} {x y : BitVec width} : Gives f (.bits width x) →
    Gives g (.bits width y) → Gives (.eq f g) (.bool (x = y))
  compare (cmp : BitCmp) {f g : Formula} {width : Nat} {x y : BitVec width} : Gives f (.bits width x) →
    Gives g (.bits width y) → Gives (.compare cmp f g) (.bool (cmp.denote x y))
  binary (op : BitOp) {f g : Formula} {width : Nat} {x y : BitVec width} : Gives f (.bits width x) →
    Gives g (.bits width y) → Gives (.binary op f g) (.bits width (op.denote x y))
  signExtend {f : Formula} {width more : Nat} {x : BitVec width} : width + more ≤ 64 →
    Gives f (.bits width x) → Gives (.signExtend more f) (.bits (width + more) (x.signExtend _))
  zeroExtend {f : Formula} {width more : Nat} {x : BitVec width} : width + more ≤ 64 →
    Gives f (.bits width x) → Gives (.zeroExtend more f) (.bits (width + more) (x.setWidth _))

theorem compositional_denotes (ρ : Valuation) : Compositional (Denotes ρ) where
  not h := by rw [Denotes, denote, h, Denotation.negate]
  eq hf hg := by
    rw [Denotes, denote, hf, hg]
    simp
  compare cmp _ _ _ _ _ hf hg := by rw [Denotes, denote, hf, hg, Denotation.onPair_bits]
  binary op _ _ _ _ _ hf hg := by rw [Denotes, denote, hf, hg, Denotation.onPair_bits]
  signExtend _ h := by rw [Denotes, denote, h, Denotation.onBits]
  zeroExtend _ h := by rw [Denotes, denote, h, Denotation.onBits]

theorem Evaluates.bits {env : Assignment} {f : Formula} {width : Nat} {x : BitVec width}
    (h : Evaluates env f (.bits width x)) :
    ∃ word, f.eval env = .ok (.bits word width) ∧ (1 ≤ width ∧ width ≤ 64) ∧ Bits.Fits word width ∧
      Bits.low word width = x := by
  obtain ⟨v, hv, hrep⟩ := h
  cases hrep with
  | bits valid fits => exact ⟨_, hv, valid, fits, rfl⟩

theorem evaluates_ofBits {env : Assignment} {f : Formula} {word : UInt64} {width : Nat}
    {x : BitVec width} (valid : 1 ≤ width ∧ width ≤ 64) (h : f.eval env = .ok (.ofBits word width))
    (hx : Bits.low word width = x) :
    Evaluates env f (.bits width x) := ⟨_, h, hx ▸ .ofBits word valid⟩

theorem compositional_evaluates (env : Assignment) : Compositional (Evaluates env) where
  not := by
    rintro f b ⟨v, hv, hrep⟩
    cases hrep
    exact ⟨.bool (!b), by rw [eval, hv]; rfl, .bool _⟩
  eq := by
    intro f g width x y hf hg
    obtain ⟨p, hp, -, hfits, rfl⟩ := hf.bits
    obtain ⟨q, hq, -, hfits', rfl⟩ := hg.bits
    refine ⟨.bool (BitValue.bits p width = .bits q width), by rw [eval, hp, hq]; rfl, ?_⟩
    have hiff : BitValue.bits p width = .bits q width ↔ Bits.low p width = Bits.low q width := by
      simp [Bits.low_inj hfits hfits']
    rw [decide_eq_decide.mpr hiff]
    exact .bool _
  compare := by
    intro cmp f g width x y hf hg
    obtain ⟨p, hp, valid, hfits, rfl⟩ := hf.bits
    obtain ⟨q, hq, -, hfits', rfl⟩ := hg.bits
    refine ⟨.bool (cmp.holds p q width), by rw [eval, hp, hq]; rfl, ?_⟩
    rw [cmp.holds_eq_denote valid.1 valid.2 hfits hfits']
    exact .bool _
  binary := by
    intro op f g width x y hf hg
    obtain ⟨p, hp, valid, hfits, rfl⟩ := hf.bits
    obtain ⟨q, hq, -, hfits', rfl⟩ := hg.bits
    exact evaluates_ofBits valid (by rw [eval, hp, hq]; rfl) (op.low_apply valid.1 valid.2 hfits hfits')
  signExtend := by
    intro f width more x h64 hf
    obtain ⟨p, hp, valid, -, rfl⟩ := hf.bits
    exact evaluates_ofBits ⟨by omega, h64⟩ (by rw [eval, hp]; rfl) (Bits.low_signExtend p valid.1 h64)
  zeroExtend := by
    intro f width more x h64 hf
    obtain ⟨p, hp, valid, hfits, rfl⟩ := hf.bits
    exact evaluates_ofBits ⟨by omega, h64⟩ (by rw [eval, hp]; rfl) (Bits.low_zeroExtend hfits)

end Formula

/-! ## Values of terms -/

namespace Term

open Formula

/-- An integer term of a width and a sign stands for an integer: its formula has the width, the bits
read with the sign are the integer, and a literal that it keeps is the integer, too. -/
structure Stands (Gives : Formula → Denotation → Prop) (t : Term) (width : Nat) (signed : Bool)
    (n : Int) : Prop where
  ty : t.ty = .int width signed
  valid : 1 ≤ width ∧ width ≤ 64
  value : ∃ x : BitVec width, Gives t.formula (.bits width x) ∧ Bits.read signed x = n
  literal : ∀ v, t.literal = some v → v = n

/-- A signed and an unsigned operand have integers that one sign can hold at a width: the signed one
is a literal that is not negative, or the unsigned one leaves the highest bit free. -/
def Reconciled (s u : Term) (width : Nat) (n : Int) : Prop :=
  s.isSigned = true ∧ u.isSigned = false ∧
    ((∃ v, s.literal = some v ∧ 0 ≤ v) ∨ (∃ w, u.width? = some w ∧ w < width) ∨ n < 2 ^ (width - 1))

def Compatible (a b : Term) (width : Nat) (m n : Int) : Prop :=
  a.isSigned = b.isSigned ∨ Reconciled a b width n ∨ Reconciled b a width m

section Operands

variable {Gives : Formula → Denotation → Prop} {a b t : Term} {v w width : Nat}
  {signed signed' : Bool} {m n : Int}

theorem Stands.isSigned (h : t.Stands Gives w signed n) : t.isSigned = signed := by
  rw [Term.isSigned, h.ty]

theorem Stands.width? (h : t.Stands Gives w signed n) : t.width? = some w := by
  rw [Term.width?, h.ty]

theorem Stands.holds (h : t.Stands Gives w signed n) : (TermType.int w signed).Holds n := by
  obtain ⟨x, -, rfl⟩ := h.value
  exact Bits.holds_read h.valid.2 x

theorem Stands.extendTo (hsem : Compositional Gives) (h : t.Stands Gives w signed n) (hle : w ≤ width)
    (h64 : width ≤ 64) : Gives (t.extendTo width) (.bits width (BitVec.ofInt width n)) := by
  obtain ⟨x, hx, rfl⟩ := h.value
  rw [Term.extendTo, h.ty]
  dsimp only
  by_cases hlt : w < width
  · obtain ⟨more, rfl⟩ : ∃ more, width = w + more := ⟨width - w, by omega⟩
    rw [if_pos hlt, Nat.add_sub_cancel_left]
    cases signed with
    | true => exact hsem.signExtend h64 hx
    | false =>
      have hext : BitVec.ofInt (w + more) (Bits.read false x) = x.setWidth (w + more) := by
        simp only [Bits.read, Bool.false_eq_true, if_false]
        rw [BitVec.ofInt_natCast, BitVec.ofNat_toNat]
      rw [hext]
      exact hsem.zeroExtend h64 hx
  · obtain rfl : w = width := by omega
    rw [if_neg hlt, Bits.ofInt_read]
    exact hx

theorem holds_mono (hle : w ≤ width) (h64 : width ≤ 64) (h : (TermType.int w signed).Holds n) :
    (TermType.int width signed).Holds n := by
  have hpow : (2 : Int) ^ w ≤ 2 ^ width := pow_le_pow_right₀ (by decide) hle
  rw [Bits.holds_iff (hle.trans h64)] at h
  rw [Bits.holds_iff h64]
  cases signed with
  | true =>
    simp only [if_true] at h ⊢
    omega
  | false =>
    simp only [Bool.false_eq_true, if_false] at h ⊢
    omega

theorem holds_unsigned (h64 : width ≤ 64) (h : (TermType.int width true).Holds n) (hn : 0 ≤ n) :
    (TermType.int width false).Holds n := by
  rw [Bits.holds_iff h64] at h ⊢
  simp only [if_true, Bool.false_eq_true, if_false] at h ⊢
  omega

theorem holds_signed (hw : 1 ≤ width) (h64 : width ≤ 64) (h : (TermType.int width false).Holds n)
    (hn : n < 2 ^ (width - 1)) : (TermType.int width true).Holds n := by
  have hpow : (2 : Int) ^ width = 2 * 2 ^ (width - 1) := by rw [← pow_succ', Nat.sub_add_cancel hw]
  have hpos : (0 : Int) < 2 ^ (width - 1) := by positivity
  rw [Bits.holds_iff h64] at h ⊢
  simp only [if_true, Bool.false_eq_true, if_false] at h ⊢
  omega

theorem isNonnegativeLiteral_iff : t.isNonnegativeLiteral = true ↔ ∃ v, t.literal = some v ∧ 0 ≤ v := by
  unfold isNonnegativeLiteral
  cases t.literal <;> simp

theorem Reconciled.holds (hs : a.Stands Gives v true m) (hu : b.Stands Gives w false n)
    (hv : v ≤ width) (hw : w ≤ width) (h64 : width ≤ 64) (h : Reconciled a b width n) :
    (TermType.int width (!a.isNonnegativeLiteral)).Holds m ∧
      (TermType.int width (!a.isNonnegativeLiteral)).Holds n := by
  have hm := holds_mono hv h64 hs.holds
  have hn := holds_mono hw h64 hu.holds
  have hpos : 1 ≤ width := hu.valid.1.trans hw
  cases hlit : a.isNonnegativeLiteral with
  | true =>
    obtain ⟨k, hk, hnonneg⟩ := isNonnegativeLiteral_iff.mp hlit
    have hkm : k = m := hs.literal k hk
    exact ⟨holds_unsigned h64 hm (hkm ▸ hnonneg), hn⟩
  | false =>
    obtain ⟨-, -, hliteral | ⟨w', hw', hlt⟩ | hlow⟩ := h
    · rw [isNonnegativeLiteral_iff.mpr hliteral] at hlit
      cases hlit
    · obtain rfl : w = w' := Option.some.inj (hu.width?.symm.trans hw')
      have hlow : n < 2 ^ (width - 1) := by
        have hlt' : n < 2 ^ w := ((Bits.holds_iff hu.valid.2).mp hu.holds).2
        exact lt_of_lt_of_le hlt' (pow_le_pow_right₀ (by decide) (by omega))
      exact ⟨hm, holds_signed hpos h64 hn hlow⟩
    · exact ⟨hm, holds_signed hpos h64 hn hlow⟩

theorem Compatible.holds (ha : a.Stands Gives v signed m) (hb : b.Stands Gives w signed' n)
    (hv : v ≤ width) (hw : w ≤ width) (h64 : width ≤ 64) (h : Compatible a b width m n) :
    (TermType.int width (a.signedWith b)).Holds m ∧ (TermType.int width (a.signedWith b)).Holds n := by
  unfold signedWith
  rw [ha.isSigned, hb.isSigned]
  rcases h with hsame | hrec | hrec
  · rw [ha.isSigned, hb.isSigned] at hsame
    subst hsame
    cases signed <;> exact ⟨holds_mono hv h64 ha.holds, holds_mono hw h64 hb.holds⟩
  · obtain rfl : signed = true := ha.isSigned.symm.trans hrec.1
    obtain rfl : signed' = false := hb.isSigned.symm.trans hrec.2.1
    exact hrec.holds ha hb hv hw h64
  · obtain rfl : signed' = true := hb.isSigned.symm.trans hrec.1
    obtain rfl : signed = false := ha.isSigned.symm.trans hrec.2.1
    exact (hrec.holds hb ha hw hv h64).symm

end Operands

section Operators

variable {Gives : Formula → Denotation → Prop} {a b : Term} {v w : Nat} {signed signed' : Bool}
  {m n : Int} {op : BinOp}

/-- The operators on two terms with the integers `m` and `n` are those of the integers. Sums,
differences and products always are, modulo the words of the width; comparisons, quotients and
remainders are if the operands are compatible. -/
structure Exact (Gives : Formula → Denotation → Prop) (a b : Term) (width : Nat) (m n : Int) : Prop where
  comparison : ∀ op cmp, op.comparison? = some cmp → ∃ t, Term.binary? op a b = some t ∧ t.ty = .bool ∧
    (Compatible a b width m n → Gives t.formula (.bool (cmp m n)))
  ring : ∀ op f, op.ring? = some f → ∃ t, Term.binary? op a b = some t ∧ t.width? = some width ∧
    Gives t.formula (.bits width (BitVec.ofInt width (f m n)))
  quotient : ∀ op f, op.quotient? = some f → ∃ t, Term.binary? op a b = some t ∧ t.width? = some width ∧
    (∃ x, Gives t.formula (.bits width x)) ∧
    (Compatible a b width m n → n ≠ 0 → Gives t.formula (.bits width (BitVec.ofInt width (f m n))))

theorem binary?_eq_arithmetic? (ha : a.Stands Gives v signed m) (hb : b.Stands Gives w signed' n)
    (op : BinOp) : Term.binary? op a b = arithmetic? op a b := by
  rw [Term.binary?, ha.ty, hb.ty]

theorem unify_eq (ha : a.Stands Gives v signed m) (hb : b.Stands Gives w signed' n) :
    a.unify b = (a.extendTo (max v w), b.extendTo (max v w), max v w) := by
  simp [unify, ha.width?, hb.width?]

variable (hsem : Compositional Gives) (ha : a.Stands Gives v signed m) (hb : b.Stands Gives w signed' n)
include hsem ha hb

/-- The operands at the larger width are the same integers modulo its words. If they are compatible,
these are integers of the sign that the operator takes. -/
theorem operands_exact :
    max v w ≤ 64 ∧ Gives (a.extendTo (max v w)) (.bits (max v w) (BitVec.ofInt (max v w) m)) ∧
      Gives (b.extendTo (max v w)) (.bits (max v w) (BitVec.ofInt (max v w) n)) ∧
      (Compatible a b (max v w) m n → (TermType.int (max v w) (a.signedWith b)).Holds m ∧
        (TermType.int (max v w) (a.signedWith b)).Holds n) := by
  have h64 : max v w ≤ 64 := Nat.max_le.mpr ⟨ha.valid.2, hb.valid.2⟩
  have hv : v ≤ max v w := Nat.le_max_left v w
  have hw : w ≤ max v w := Nat.le_max_right v w
  exact ⟨h64, ha.extendTo hsem hv h64, hb.extendTo hsem hw h64, fun h => h.holds ha hb hv hw h64⟩

theorem comparison_exact {cmp : Int → Int → Bool} (hop : op.comparison? = some cmp) :
    ∃ t, Term.binary? op a b = some t ∧ t.ty = .bool ∧
      (Compatible a b (max v w) m n → Gives t.formula (.bool (cmp m n))) := by
  obtain ⟨h64, hx, hy, hholds⟩ := operands_exact hsem ha hb
  have hcompare {rel : BitCmp} {p : Int → Int → Bool} (hrel : ∀ x y : BitVec (max v w),
      rel.denote x y = p (Bits.read (a.signedWith b) x) (Bits.read (a.signedWith b) y))
      (h : Compatible a b (max v w) m n) :
      Gives (.compare rel (a.extendTo (max v w)) (b.extendTo (max v w))) (.bool (p m n)) := by
    have hvalue := hsem.compare rel hx hy
    rwa [hrel, Bits.read_ofInt h64 (hholds h).1, Bits.read_ofInt h64 (hholds h).2] at hvalue
  rw [binary?_eq_arithmetic? ha hb]
  unfold arithmetic?
  rw [unify_eq ha hb]
  cases op with
  | eq =>
    cases hop
    refine ⟨_, rfl, rfl, fun h => ?_⟩
    have heq := hsem.eq hx hy
    rwa [decide_eq_decide.mpr (Bits.ofInt_eq_iff h64 (hholds h).1 (hholds h).2)] at heq
  | notEq =>
    cases hop
    refine ⟨_, rfl, rfl, fun h => ?_⟩
    have hne := hsem.not (hsem.eq hx hy)
    rwa [decide_eq_decide.mpr (Bits.ofInt_eq_iff h64 (hholds h).1 (hholds h).2), ← decide_not] at hne
  | lt =>
    cases hop
    exact ⟨_, rfl, rfl, hcompare (p := fun m n => m < n) fun x y => (Bits.compare_read _ x y).1⟩
  | ltEq =>
    cases hop
    exact ⟨_, rfl, rfl, hcompare (p := fun m n => m ≤ n) fun x y => (Bits.compare_read _ x y).2.1⟩
  | gt =>
    cases hop
    exact ⟨_, rfl, rfl, hcompare (p := fun m n => n < m) fun x y => (Bits.compare_read _ x y).2.2.1⟩
  | gtEq =>
    cases hop
    exact ⟨_, rfl, rfl, hcompare (p := fun m n => n ≤ m) fun x y => (Bits.compare_read _ x y).2.2.2⟩
  | _ => cases hop

theorem ring_exact {f : Int → Int → Int} (hop : op.ring? = some f) :
    ∃ t, Term.binary? op a b = some t ∧ t.width? = some (max v w) ∧
      Gives t.formula (.bits (max v w) (BitVec.ofInt (max v w) (f m n))) := by
  obtain ⟨-, hx, hy, -⟩ := operands_exact hsem ha hb
  rw [binary?_eq_arithmetic? ha hb]
  unfold arithmetic?
  rw [unify_eq ha hb]
  cases op with
  | add =>
    cases hop
    refine ⟨_, rfl, rfl, ?_⟩
    rw [BitVec.ofInt_add]
    exact hsem.binary .add hx hy
  | sub =>
    cases hop
    have hsub : BitVec.ofInt (max v w) (m - n) = BitVec.ofInt (max v w) m - BitVec.ofInt (max v w) n := by
      rw [Int.sub_eq_add_neg, BitVec.ofInt_add, BitVec.ofInt_neg, BitVec.sub_eq_add_neg]
    refine ⟨_, rfl, rfl, ?_⟩
    dsimp only
    rw [hsub]
    exact hsem.binary .sub hx hy
  | mul =>
    cases hop
    refine ⟨_, rfl, rfl, ?_⟩
    rw [BitVec.ofInt_mul]
    exact hsem.binary .mul hx hy
  | _ => cases hop

theorem quotient_exact {f : Int → Int → Int} (hop : op.quotient? = some f) :
    ∃ t, Term.binary? op a b = some t ∧ t.width? = some (max v w) ∧
      (∃ x, Gives t.formula (.bits (max v w) x)) ∧ (Compatible a b (max v w) m n → n ≠ 0 →
        Gives t.formula (.bits (max v w) (BitVec.ofInt (max v w) (f m n)))) := by
  obtain ⟨h64, hx, hy, hholds⟩ := operands_exact hsem ha hb
  rw [binary?_eq_arithmetic? ha hb]
  unfold arithmetic?
  rw [unify_eq ha hb]
  cases op with
  | div =>
    cases hop
    have hdiv := hsem.binary (if a.signedWith b then .sDiv else .uDiv) hx hy
    refine ⟨_, rfl, rfl, ⟨_, hdiv⟩, fun h hne => ?_⟩
    rwa [Bits.divide_ofInt h64 (hholds h).1 (hholds h).2 hne] at hdiv
  | mod =>
    cases hop
    have hmod := hsem.binary (if a.signedWith b then .sRem else .uRem) hx hy
    refine ⟨_, rfl, rfl, ⟨_, hmod⟩, fun h _ => ?_⟩
    rwa [Bits.remainder_ofInt h64 (hholds h).1 (hholds h).2] at hmod
  | _ => cases hop

theorem exact_of_stands : Exact Gives a b (max v w) m n :=
  ⟨fun _ _ => comparison_exact hsem ha hb, fun _ _ => ring_exact hsem ha hb, fun _ _ =>
    quotient_exact hsem ha hb⟩

end Operators

/-- Operators on integers of any two widths and signs mean what they mean for the integers, at the
larger width. It is so in the theory of bit-vectors, under every valuation, and for what evaluation
computes. -/
theorem operators_exact {a b : Term} {v w : Nat} {signed signed' : Bool} {m n : Int} :
    (∀ ρ, a.Stands (Denotes ρ) v signed m → b.Stands (Denotes ρ) w signed' n →
      Exact (Denotes ρ) a b (max v w) m n) ∧
    ∀ env, a.Stands (Evaluates env) v signed m → b.Stands (Evaluates env) w signed' n →
      Exact (Evaluates env) a b (max v w) m n :=
  ⟨fun ρ => exact_of_stands (compositional_denotes ρ), fun env =>
    exact_of_stands (compositional_evaluates env)⟩

/-- The least integer of eight bits divided by minus one is 128 modulo 256. As a number of 32 bits
without a sign, -1 is above a literal, which is not negative. -/
theorem operators_exact_corners :
    (∃ t, Term.binary? .div (.var "x" (.int 8 true)) (.var "y" (.int 8 true)) = some t ∧
      t.width? = some 8 ∧
      Denotes (fun name => .bits 8 (if name = "x" then -128 else -1)) t.formula
        (.bits 8 (BitVec.ofInt 8 128))) ∧
    ∃ t, Term.binary? .lt (.ofLiteral 5) (.var "x" (.int 32 false)) = some t ∧
      Evaluates [("x", .bits 4294967295 32)] t.formula (.bool true) := by
  constructor
  · have hx : (Term.var "x" (.int 8 true)).Stands
        (Denotes fun name => .bits 8 (if name = "x" then -128 else -1)) 8 true
        (-128) := ⟨rfl, by decide, ⟨_, rfl, by decide⟩, nofun⟩
    have hy : (Term.var "y" (.int 8 true)).Stands
        (Denotes fun name => .bits 8 (if name = "x" then -128 else -1)) 8 true
        (-1) := ⟨rfl, by decide, ⟨_, rfl, by decide⟩, nofun⟩
    obtain ⟨t, ht, hwidth, -, hvalue⟩ := (operators_exact.1 _ hx hy).quotient .div _ rfl
    exact ⟨t, ht, hwidth, hvalue (.inl rfl) (by decide)⟩
  · have hliteral : (Term.ofLiteral 5).Stands (Evaluates [("x", .bits 4294967295 32)]) 32 true 5 := by
      refine ⟨rfl, by decide, ⟨5, ⟨.bits 5 32, by decide, ?_⟩, by decide⟩, fun v hv =>
        (Option.some.inj hv).symm⟩
      exact .bits (by decide) (by unfold Bits.Fits; decide)
    have hx : (Term.var "x" (.int 32 false)).Stands (Evaluates [("x", .bits 4294967295 32)]) 32
        false 4294967295 := by
      refine ⟨rfl, by decide, ⟨-1, ⟨.bits 4294967295 32, by decide, ?_⟩, by decide⟩, nofun⟩
      exact .bits (by decide) (by unfold Bits.Fits; decide)
    obtain ⟨t, ht, -, hvalue⟩ := (operators_exact.2 _ hliteral hx).comparison .lt _ rfl
    exact ⟨t, ht, hvalue (.inr (.inl ⟨rfl, rfl, .inl ⟨5, rfl, by decide⟩⟩))⟩

-- Operands that are not compatible are compared as words: 4294967295 without a sign is the word of -1.
example : (Term.binary? .eq (.var "x" (.int 32 false)) (.var "y" (.int 32 true))).map
    (·.formula.eval [("x", .bits 4294967295 32), ("y", .bits 4294967295 32)]) =
      some (.ok (.bool true)) := by
  decide

end Term

end TagLang
