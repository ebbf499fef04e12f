import TagLang.Logic.Formula
import Mathlib.Logic.Function.Basic

/-! # The meaning of formulas

A formula means a value under any valuation of its variables: a truth value, a bit-vector or a
function on bit-vectors. The operators are those of the theory of fixed-size bit-vectors, so that
division is total, and a quantifier ranges over all values of the sorts it binds.
-/

namespace TagLang

inductive Denotation
  | bool (truth : Bool)
  | bits (width : Nat) (x : BitVec width)
  | array (index element : Nat) (read : BitVec index → BitVec element)

namespace Denotation

noncomputable instance : DecidableEq Denotation := Classical.typeDecidableEq Denotation

def sort : Denotation → VarSort
  | .bool _ => .bool
  | .bits width _ => .bitVec width
  | .array index element _ => .array index element

def isTrue : Denotation → Bool
  | .bool truth => truth
  | _ => false

@[simp] theorem isTrue_eq_true_iff (v : Denotation) : v.isTrue = true ↔ v = .bool true := by
  cases v <;> simp [isTrue]

theorem eq_bool_of_sort {v : Denotation} (h : v.sort = .bool) : ∃ b, v = .bool b := by
  cases v <;> simp_all [sort]

theorem eq_bits_of_sort {v : Denotation} {width : Nat} (h : v.sort = .bitVec width) :
    ∃ x, v = .bits width x := by
  cases v <;> simp only [sort, VarSort.bitVec.injEq, reduceCtorEq] at h
  subst h
  exact ⟨_, rfl⟩

theorem exists_sort_eq (s : VarSort) : ∃ x : Denotation, x.sort = s := by
  cases s with
  | bool => exact ⟨.bool false, rfl⟩
  | bitVec width => exact ⟨.bits width 0, rfl⟩
  | array index element => exact ⟨.array index element fun _ => 0, rfl⟩

/-- The negation of a truth value. Other values stay, so that two negations cancel everywhere. -/
def negate : Denotation → Denotation
  | .bool truth => .bool (!truth)
  | v => v

@[simp] theorem negate_negate (v : Denotation) : v.negate.negate = v := by
  cases v <;> simp [negate]

def onBits (op : (width : Nat) → BitVec width → Denotation) : Denotation → Denotation
  | .bits width x => op width x
  | _ => .bool false

/-- A function of two bit-vectors; the second is taken at the width of the first. -/
def onPair (op : (width : Nat) → BitVec width → BitVec width → Denotation) :
    Denotation → Denotation → Denotation
  | .bits width x, .bits _ y => op width x (y.setWidth width)
  | _, _ => .bool false

def select : Denotation → Denotation → Denotation
  | .array index element read, .bits _ x => .bits element (read (x.setWidth index))
  | _, _ => .bool false

@[simp] theorem onPair_bits (op : (width : Nat) → BitVec width → BitVec width → Denotation) (width : Nat)
    (x y : BitVec width) : onPair op (.bits width x) (.bits width y) = op width x y := by
  simp [onPair]

end Denotation

def BitOp.denote (op : BitOp) {width : Nat} (x y : BitVec width) : BitVec width :=
  match op with
  | .add => x + y
  | .sub => x - y
  | .mul => x * y
  | .sDiv => x.smtSDiv y
  | .uDiv => x.smtUDiv y
  | .sRem => x.srem y
  | .uRem => x.umod y
  | .and => x &&& y
  | .or => x ||| y
  | .xor => x ^^^ y
  | .shl => x <<< y
  | .lShr => x >>> y
  | .aShr => x.sshiftRight' y

def BitCmp.denote (cmp : BitCmp) {width : Nat} (x y : BitVec width) : Bool :=
  match cmp with
  | .slt => x.slt y
  | .sle => x.sle y
  | .sgt => y.slt x
  | .sge => y.sle x
  | .ult => x.ult y
  | .ule => x.ule y
  | .ugt => y.ult x
  | .uge => y.ule x

abbrev Valuation := String → Denotation

namespace Formula

open Classical in
/-- What a quantifier over several variables means, where `body` is what stands under it. -/
noncomputable def denoteQuantifier (kind : QuantifierKind) (body : Valuation → Denotation) :
    List (String × VarSort) → Valuation → Denotation
  | [], ρ => body ρ
  | (name, sort) :: vars, ρ =>
    let holdsAt (v : Denotation) : Prop :=
      denoteQuantifier kind body vars (Function.update ρ name v) = .bool true
    match kind with
    | .universal => .bool (decide (∀ v : Denotation, v.sort = sort → holdsAt v))
    | .existential => .bool (decide (∃ v : Denotation, v.sort = sort ∧ holdsAt v))

section Quantifier

variable (kind : QuantifierKind) (body : Valuation → Denotation) (vars : List (String × VarSort))
  (ρ : Valuation) (name : String) {sort : VarSort}

/-- One value that a universal quantifier does not allow, or that an existential one asks for,
decides. -/
theorem denoteQuantifier_of_witness {x : Denotation} (hx : x.sort = sort)
    (h : denoteQuantifier kind body vars (Function.update ρ name x) = .bool (kind ≠ .universal)) :
    denoteQuantifier kind body ((name, sort) :: vars) ρ = .bool (kind ≠ .universal) := by
  cases kind with
  | universal =>
    simp only [denoteQuantifier, Denotation.bool.injEq, decide_eq_decide]
    refine iff_of_false (fun hall => ?_) (by simp)
    simp [hall x hx] at h
  | existential =>
    simp only [denoteQuantifier, Denotation.bool.injEq, decide_eq_decide]
    exact iff_of_true ⟨x, hx, by simpa using h⟩ (by simp)

theorem denoteQuantifier_of_forall
    (h : ∀ x : Denotation, x.sort = sort →
      denoteQuantifier kind body vars (Function.update ρ name x) = .bool (kind = .universal)) :
    denoteQuantifier kind body ((name, sort) :: vars) ρ = .bool (kind = .universal) := by
  cases kind with
  | universal =>
    simp only [denoteQuantifier, Denotation.bool.injEq, decide_eq_decide]
    exact iff_of_true (fun x hx => by simpa using h x hx) trivial
  | existential =>
    simp only [denoteQuantifier, Denotation.bool.injEq, decide_eq_decide]
    refine iff_of_false ?_ (by simp)
    rintro ⟨x, hx, htrue⟩
    simp [h x hx] at htrue

end Quantifier

mutual

noncomputable def denote (ρ : Valuation) : Formula → Denotation
  | .bool value => .bool value
  | .const bits width => .bits width (bits.toBitVec.setWidth width)
  | .var name _ => ρ name
  | .not a => (denote ρ a).negate
  | .and parts => .bool ((denoteAll ρ parts).all Denotation.isTrue)
  | .or parts => .bool ((denoteAll ρ parts).any Denotation.isTrue)
  | .xor a b => .bool ((denote ρ a).isTrue != (denote ρ b).isTrue)
  | .implies a b => .bool (!(denote ρ a).isTrue || (denote ρ b).isTrue)
  | .eq a b => .bool (decide (denote ρ a = denote ρ b))
  | .ite c a b => if (denote ρ c).isTrue then denote ρ a else denote ρ b
  | .binary op a b => .onPair (fun width x y => .bits width (op.denote x y)) (denote ρ a) (denote ρ b)
  | .compare cmp a b => .onPair (fun _ x y => .bool (cmp.denote x y)) (denote ρ a) (denote ρ b)
  | .neg a => .onBits (fun width x => .bits width (-x)) (denote ρ a)
  | .bitNot a => .onBits (fun width x => .bits width (~~~x)) (denote ρ a)
  | .signExtend more a => .onBits (fun width x => .bits (width + more) (x.signExtend _)) (denote ρ a)
  | .zeroExtend more a => .onBits (fun width x => .bits (width + more) (x.setWidth _)) (denote ρ a)
  | .extract count a => .onBits (fun _ x => .bits count (x.setWidth count)) (denote ρ a)
  | .select a i => .select (denote ρ a) (denote ρ i)
  | .quantifier kind vars body => denoteQuantifier kind (fun ρ => denote ρ body) vars ρ

noncomputable def denoteAll (ρ : Valuation) : List Formula → List Denotation
  | [] => []
  | f :: fs => denote ρ f :: denoteAll ρ fs

end

theorem denoteAll_eq_map (ρ : Valuation) (parts : List Formula) :
    denoteAll ρ parts = parts.map (denote ρ) := by
  induction parts with
  | nil => rfl
  | cons f fs ih => rw [denoteAll, ih, List.map_cons]

theorem denote_negation (ρ : Valuation) (f : Formula) : f.negation.denote ρ = (f.denote ρ).negate := by
  unfold negation
  split <;> simp [denote]

end Formula

end TagLang
