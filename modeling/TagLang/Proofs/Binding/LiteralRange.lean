import Mathlib.Algebra.Order.Ring.Int
import Mathlib.Data.Set.Defs
import TagLang.Proofs.Binding.Name

/-! # Integer literals at a required type

A literal has a type of its own, of 32 bits if its number fits and of 64 bits otherwise. A place
takes every literal whose own type is not wider than the required one, whatever the signs are, and
looks at the value only of the others. So unsigned types of 32 and 64 bits take negative literals,
and nothing is reported.
-/

namespace TagLang.Binding

def integers (bits : Nat) (signed : Bool) : Set Int :=
  {n | (if signed then -2 ^ (bits - 1) else 0) ≤ n ∧ n < if signed then 2 ^ (bits - 1) else 2 ^ bits}

instance (n : Int) (bits : Nat) (signed : Bool) : Decidable (n ∈ integers bits signed) :=
  inferInstanceAs (Decidable (_ ≤ n ∧ n < _))

theorem fitsSigned_iff (bits : Nat) (n : Int) :
    fitsSigned bits n = true ↔ -2 ^ (bits - 1) ≤ n ∧ n < 2 ^ (bits - 1) := by
  rw [fitsSigned, Bool.and_eq_true, decide_eq_true_iff, decide_eq_true_iff, leastSigned, twoPow,
    Nat.pow_eq, Nat.cast_pow, Nat.cast_ofNat]

theorem fitsSigned_mono {a b : Nat} {n : Int} (hab : a ≤ b) (hn : fitsSigned a n = true) :
    fitsSigned b n = true := by
  rw [fitsSigned_iff] at hn ⊢
  have hpow : (2 : Int) ^ (a - 1) ≤ 2 ^ (b - 1) :=
    pow_le_pow_right₀ (by decide) (Nat.sub_le_sub_right hab 1)
  omega

/-- A number of 64 bits as it stands in a text, with or without a minus in front of it. -/
structure IntLiteral where
  number : Int
  minus : Bool
  place : Span
  span : Span
  fits : fitsSigned 64 number = true

namespace IntLiteral

variable (l : IntLiteral)

def value : Int := if l.minus then -l.number else l.number

def expr : Expr := if l.minus then .unary .neg (.int l.number l.place) l.span else .int l.number l.span

def width : Nat := if fitsSigned 32 l.number then 32 else 64

def bound : Bound.Expr :=
  .mk (if l.minus then .unary .neg (.mk (.int l.number) (.int l.width true) l.place) else .int l.number)
    (.int l.width true) l.span

theorem ofLiteral_number : Ty.ofLiteral l.number = .int l.width true := by
  unfold Ty.ofLiteral width
  split <;> rfl

theorem run_expr (s : State) : (Binding.expr l.expr).run s = (l.bound, s) := by
  unfold expr bound
  rw [← ofLiteral_number]
  cases l.minus <;> rfl

theorem accepts_int (bits width : Nat) (signed : Bool) :
    (Ty.int bits signed).accepts (.int width true) = decide (width ≤ bits) := by
  rw [Ty.accepts]
  split
  · next h =>
    have hbits : bits = width := by
      simp only [Ty.isIndeterminate, Bool.or_false, decide_eq_true_eq] at h
      exact (Ty.int.inj h).1
    simp [hbits]
  · rfl

theorem mem_intRange_iff {bits : Nat} (hbits : bits ≤ 64) (signed : Bool) (n : Int) :
    (intRange bits signed).1 ≤ n ∧ n ≤ (intRange bits signed).2 ↔ n ∈ integers bits signed := by
  have hwidth : min bits 64 = bits := Nat.min_eq_left hbits
  cases signed <;>
  · simp only [intRange, hwidth, leastSigned, twoPow, Nat.pow_eq, Nat.cast_pow, Nat.cast_ofNat,
      integers, Set.mem_ofPred_eq]
    simp only [Bool.false_eq_true, if_true, if_false]
    omega

/-- A place takes a literal that its type holds, and any whose own type is not wider. -/
theorem fits_bound_iff {bits : Nat} (hbits : bits ∈ [8, 16, 32, 64]) (signed : Bool) :
    l.bound.fits (.int bits signed) = true ↔ l.value ∈ integers bits signed ∨ l.width ≤ bits := by
  simp only [List.mem_cons, List.not_mem_nil, or_false] at hbits
  have haccepts : (Ty.int bits signed).accepts l.bound.ty = decide (l.width ≤ bits) :=
    accepts_int bits l.width signed
  rw [Bound.Expr.fits, haccepts, Bool.or_eq_true, decide_eq_true_eq, or_comm]
  by_cases hleast : l.minus = true ∧ l.number = leastSigned 64
  · -- The negation of the least number has no 64 bits.
    have hnone : l.bound.fitsLiteral (.int bits signed) = false := by
      simp [Bound.Expr.fitsLiteral, bound, Bound.Expr.literal?, Bound.Expr.kind, hleast]
    have hwidth : l.width = 64 := by
      rw [width, hleast.2]
      rfl
    have hout : l.value ∈ integers bits signed → bits = 64 := by
      have hvalue : l.value = 9223372036854775808 := by
        rw [value, if_pos hleast.1, hleast.2]
        rfl
      rw [hvalue]
      rcases hbits with rfl | rfl | rfl | rfl <;> cases signed <;> simp [integers]
    rw [hnone, hwidth]
    refine ⟨fun h => h.imp_left Bool.noConfusion, fun h => .inr (h.elim (fun hvalue => ?_) id)⟩
    exact (hout hvalue).ge
  · have hsome : l.bound.literal? = some l.value := by
      unfold bound value
      cases hminus : l.minus
      · rfl
      · have hne : l.number ≠ leastSigned 64 := fun h => hleast ⟨hminus, h⟩
        simp [Bound.Expr.literal?, Bound.Expr.kind, hne]
    refine or_congr_left ?_
    unfold Bound.Expr.fitsLiteral
    rw [hsome, Bool.and_eq_true, decide_eq_true_eq, decide_eq_true_eq]
    exact mem_intRange_iff (by omega) signed l.value

/-- The state with a report that the literal does not go with a type, if it has to be reported. -/
def checked (bits : Nat) (signed : Bool) (context : String) (s : State) : State :=
  if l.value ∉ integers bits signed ∧ bits < l.width then
    ((mismatch context (.int bits signed) (.int l.width true) l.span).run s).2
  else s

theorem run_expect {bits : Nat} (hbits : bits ∈ [8, 16, 32, 64]) (signed : Bool) (context : String)
    (s : State) :
    (expect context (.int bits signed) l.bound).run s = ((), l.checked bits signed context s) := by
  unfold expect checked
  by_cases hfits : l.bound.fits (.int bits signed) = true
  · rw [if_pos hfits, if_neg]
    · rfl
    · rintro ⟨hvalue, hwidth⟩
      exact ((l.fits_bound_iff hbits signed).mp hfits).elim hvalue hwidth.not_ge
  · rw [if_neg hfits, if_pos]
    · rfl
    · rw [← not_le, ← not_or]
      exact fun h => hfits ((l.fits_bound_iff hbits signed).mpr h)

theorem fits_width : fitsSigned l.width l.number = true := by
  unfold width
  split
  · assumption
  · exact l.fits

/-- The values that a type does not hold although it is as wide as the literal's own. -/
theorem notMem_integers_iff {bits : Nat} (signed : Bool) (hwidth : l.width ≤ bits) :
    l.value ∉ integers bits signed ↔
    signed = false ∧ l.value < 0 ∨ signed = true ∧ l.minus = true ∧ l.number = -2 ^ (bits - 1) := by
  obtain ⟨hlow, hhigh⟩ := (fitsSigned_iff bits l.number).mp (fitsSigned_mono hwidth l.fits_width)
  have hpos : 0 < bits := by
    unfold width at hwidth
    split at hwidth <;> omega
  have hpow : (2 : Int) ^ bits = 2 * 2 ^ (bits - 1) := (mul_pow_sub_one hpos.ne' 2).symm
  unfold integers value
  rw [hpow]
  generalize (2 : Int) ^ (bits - 1) = limit at hlow hhigh
  cases signed <;> cases l.minus <;> simp <;> omega

end IntLiteral

theorem run_expectArgsFrom (name : String) (n : Nat) (tys tys' : List Ty)
    (args args' : List Bound.Expr) (hlength : tys.length = args.length) (s : State) :
    (expectArgsFrom name n (tys ++ tys') (args ++ args')).run s =
      (expectArgsFrom name (n + tys.length) tys' args').run
        ((expectArgsFrom name n tys args).run s).2 := by
  induction tys generalizing n args s with
  | nil =>
    obtain rfl := List.eq_nil_of_length_eq_zero hlength.symm
    rfl
  | cons ty tys ih =>
    obtain ⟨arg, args, rfl⟩ := List.exists_cons_of_length_eq_add_one hlength.symm
    rw [List.length_cons, Nat.add_comm tys.length, ← Nat.add_assoc]
    exact ih (n + 1) args (Nat.succ.inj hlength) ((expect _ ty arg).run s).2

/-- A literal for a variable, a result or a parameter of an integer type is reported exactly if the
type does not hold its value and is narrower than the literal's own type. A type that is as wide
holds all values but negative ones, if it is unsigned, and the negation of its least number. -/
theorem literal_checked (l : IntLiteral) {bits : Nat} (hbits : bits ∈ [8, 16, 32, 64])
    (signed : Bool) (s : State) (span : Span) : (expr l.expr).run s = (l.bound, s) ∧
    (∀ name isMutable (t : TypeRef), t.ty = .int bits signed →
      (stmt (.bind name isMutable (some t) l.expr span)).run s =
        (do return some (.bind (← declare name (.var t.ty isMutable false) span) l.bound span) :
          Binder (Option Bound.Stmt)).run (l.checked bits signed s!"binding of '{name}'" s)) ∧
    (s.returnTypes.head? = some (.int bits signed) → (stmt (.ret (some l.expr) span)).run s =
      (some (.ret (some l.bound) span), l.checked bits signed "return value" s)) ∧
    (∀ name tys tys' args args', tys.length = args.length → tys'.length = args'.length →
      (expectArgs name (tys ++ .int bits signed :: tys') (args ++ l.bound :: args') span).run s =
        (expectArgsFrom name (tys.length + 2) tys' args').run
          (l.checked bits signed s!"argument {tys.length + 1} of '{name}'"
          ((expectArgsFrom name 1 tys args).run s).2)) ∧
    (l.width ≤ bits → (l.value ∉ integers bits signed ↔
      signed = false ∧ l.value < 0 ∨ signed = true ∧ l.minus = true ∧ l.number = -2 ^ (bits - 1))) := by
  have hbound := l.run_expr s
  refine ⟨hbound, fun name isMutable t ht => ?_, fun hreturn => ?_,
    fun name tys tys' args args' h h' => ?_, l.notMem_integers_iff signed⟩
  · have hrun : (stmt (.bind name isMutable (some t) l.expr span)).run s =
        (do return some (.bind (← declare name (.var t.ty isMutable false) span)
          ((expr l.expr).run s).1 span) : Binder (Option Bound.Stmt)).run
            ((expect s!"binding of '{name}'" t.ty ((expr l.expr).run s).1).run
              ((expr l.expr).run s).2).2 := rfl
    rw [hrun, hbound, ht, l.run_expect hbits]
  · have hty : returnType.run s = (.int bits signed, s) := by
      change (s.returnTypes.head?.getD .unknown, s) = _
      rw [hreturn]
      rfl
    have hcheck : (checkReturn (some l.bound) span).run s =
        ((), l.checked bits signed "return value" s) := by
      rw [checkReturn, StateT.run_bind, hty, ← l.run_expect hbits]
      rfl
    have hrun : (stmt (.ret (some l.expr) span)).run s = (some (.ret (some ((expr l.expr).run s).1) span),
        ((checkReturn (some ((expr l.expr).run s).1) span).run ((expr l.expr).run s).2).2) := rfl
    rw [hrun, hbound, hcheck]
  · have hlength : (tys ++ .int bits signed :: tys').length = (args ++ l.bound :: args').length := by
      simp [h, h']
    rw [expectArgs, if_pos hlength, run_expectArgsFrom _ _ _ _ _ _ h, Nat.add_comm 1,
      expectArgsFrom, StateT.run_bind, l.run_expect hbits]
    rfl

theorem literal_checked_minusOne : 8 ∈ [8, 16, 32, 64] ∧
    ((stmt (.ret (some (.int (-1) .nowhere)) .nowhere)).run { returnTypes := [.int 8 false] }).2.errors =
      [⟨.mismatch "return value" "u8" "i32", .nowhere⟩] := by
  have hchecked := literal_checked ⟨-1, false, .nowhere, .nowhere, rfl⟩
    (by decide : 8 ∈ [8, 16, 32, 64]) false { returnTypes := [.int 8 false] } .nowhere
  exact ⟨by decide, congrArg (fun r => r.2.errors) (hchecked.2.2.1 rfl)⟩

/-- A variable of 32 bits without sign takes -1. -/
theorem minusOne_unreported : (-1 : Int) ∉ integers 32 false ∧
    ((stmt (.bind "x" false (some ⟨"u32", .int 32 false, .nowhere⟩) (.int (-1) .nowhere)
      .nowhere)).run {}).2.errors = [] :=
  ⟨by decide, rfl⟩

end TagLang.Binding
