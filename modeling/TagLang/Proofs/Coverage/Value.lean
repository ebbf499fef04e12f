import TagLang.Binding.Typing
import TagLang.Coverage

/-! # Values and the patterns that take them

The values that matches tell apart, the types that they have, and the values that a pattern takes. A
pattern fits a value if its outermost constructor does; it takes the value if all of it does. The
two agree on a pattern whose parts are catch-alls.
-/

namespace TagLang

namespace Registry

def isClosed (r : Registry) : Ty → Bool
  | .option _ => true
  | .result _ _ => true
  | .bool => true
  | .named owner _ => r.sumTypes.contains owner
  | _ => false

end Registry

namespace Coverage

/-- A value, as far as patterns can tell. -/
inductive Value
  | int (n : Int)
  | str (s : String)
  | bool (b : Bool)
  | null
  | someOf (v : Value)
  | noneOf
  | okOf (v : Value)
  | errOf (v : Value)
  | variant (owner name : String)
  | carrying (owner name : String) (payload : Value)
  /-- A value that no literal and no constructor describes. -/
  | other
deriving DecidableEq, Repr

def Value.ofLiteral : Literal → Value
  | .int n => .int n
  | .str s => .str s
  | .bool b => .bool b
  | .null => .null

/-- The values of a type. Of a type that has neither literals nor constructors any value may be one. -/
inductive HasType (r : Registry) : Value → Ty → Prop
  | int {n : Int} {bits : Nat} {signed : Bool} (hmin : (intRange bits signed).1 ≤ n)
    (hmax : n ≤ (intRange bits signed).2) : HasType r (.int n) (.int bits signed)
  | str {s : String} : HasType r (.str s) .str
  | bool {b : Bool} : HasType r (.bool b) .bool
  | someOf {v : Value} {t : Ty} (h : HasType r v t) : HasType r (.someOf v) (.option t)
  | noneOf {t : Ty} : HasType r .noneOf (.option t)
  | okOf {v : Value} {ok err : Ty} (h : HasType r v ok) : HasType r (.okOf v) (.result ok err)
  | errOf {v : Value} {ok err : Ty} (h : HasType r v err) : HasType r (.errOf v) (.result ok err)
  | variant {owner : String} {args : List Ty} {variants : List VariantInfo} {info : VariantInfo}
    (hsum : r.sumTypes.get? owner = some variants) (hinfo : info ∈ variants)
    (hpayload : info.payload = none) : HasType r (.variant owner info.name) (.named owner args)
  | carrying {owner : String} {args : List Ty} {variants : List VariantInfo} {info : VariantInfo}
    {t : Ty} {v : Value} (hsum : r.sumTypes.get? owner = some variants) (hinfo : info ∈ variants)
    (hpayload : info.payload = some t) (h : HasType r v t) :
    HasType r (.carrying owner info.name v) (.named owner args)
  | outside {v : Value} {t : Ty} (hclosed : r.isClosed t = false) (hint : t.isInteger = false)
    (hstr : t ≠ .str) : HasType r v t

end Coverage

namespace Bound.Pattern

open Coverage

def ownerFits (owner : String) : Option String → Bool
  | some o => o = owner
  | none => true

mutual

def takes : Pattern → Value → Bool
  | .wildcard _, _ => true
  | .binding _ _, _ => true
  | .literal l _, v => v = .ofLiteral l
  | .someOf p _, .someOf v => p.takes v
  | .noneOf _, .noneOf => true
  | .okOf p _, .okOf v => p.takes v
  | .errOf p _, .errOf v => p.takes v
  | .variant o n args _, .variant owner name => n = name && ownerFits owner o && args.all isCatchAll
  | .variant o n args _, .carrying owner name v => n = name && ownerFits owner o && takesPayload args v
  | _, _ => false

/-- A variant carries one value at most, so a part beyond the first has nothing to test and has to
be a catch-all. -/
def takesPayload : List Pattern → Value → Bool
  | [], _ => true
  | p :: rest, v => p.takes v && rest.all isCatchAll

end

def fits : Pattern → Value → Bool
  | .wildcard _, _ => true
  | .binding _ _, _ => true
  | .literal l _, v => v = .ofLiteral l
  | .someOf _ _, .someOf _ => true
  | .noneOf _, .noneOf => true
  | .okOf _ _, .okOf _ => true
  | .errOf _ _, .errOf _ => true
  | .variant o n _ _, .variant owner name => n = name && ownerFits owner o
  | .variant o n _ _, .carrying owner name _ => n = name && ownerFits owner o
  | _, _ => false

def inner : Pattern → List Pattern
  | .someOf p _ => [p]
  | .okOf p _ => [p]
  | .errOf p _ => [p]
  | .variant _ _ args _ => args
  | _ => []

def isShallow (p : Pattern) : Bool := p.inner.all isCatchAll

variable {p : Pattern} {v : Value}

theorem takes_of_isCatchAll (h : p.isCatchAll = true) : p.takes v = true := by
  cases p <;> simp [isCatchAll] at h <;> simp [takes]

theorem fits_of_isCatchAll (h : p.isCatchAll = true) : p.fits v = true := by
  cases p <;> simp [isCatchAll] at h <;> simp [fits]

theorem takesPayload_of_all {args : List Pattern} (h : args.all isCatchAll = true) :
    takesPayload args v = true := by
  cases args with
  | nil => simp [takesPayload]
  | cons p rest =>
    have hboth : p.isCatchAll = true ∧ rest.all isCatchAll = true := by simpa using h
    simp only [takesPayload, takes_of_isCatchAll hboth.1, hboth.2, Bool.and_self]

theorem takes_of_fits (hshallow : p.isShallow = true) (h : p.fits v = true) : p.takes v = true := by
  cases p with
  | wildcard | binding => simp [takes]
  | literal l s =>
    have hv : v = .ofLiteral l := by simpa [fits] using h
    simp [takes, hv]
  | noneOf s =>
    cases v <;> simp [fits] at h
    simp [takes]
  | someOf p s | okOf p s | errOf p s =>
    have hp : p.isCatchAll = true := by simpa [isShallow, inner] using hshallow
    cases v <;> simp [fits] at h
    simp [takes, takes_of_isCatchAll hp]
  | variant o n args s =>
    have hargs : args.all isCatchAll = true := hshallow
    cases v <;> simp [fits] at h <;> simp [takes, h, hargs, takesPayload_of_all hargs]

theorem fits_of_takes (h : p.takes v = true) : p.fits v = true := by
  cases p with
  | wildcard | binding => simp [fits]
  | literal l s =>
    have hv : v = .ofLiteral l := by simpa [takes] using h
    simp [fits, hv]
  | noneOf s | someOf p s | okOf p s | errOf p s =>
    cases v <;> simp [takes] at h
    simp [fits]
  | variant o n args s =>
    cases v <;> simp [takes] at h
    all_goals simp [fits, h.1]

theorem takes_eq_fits (hshallow : p.isShallow = true) (v : Value) : p.takes v = p.fits v :=
  Bool.eq_iff_iff.mpr ⟨fits_of_takes, takes_of_fits hshallow⟩

end Bound.Pattern

end TagLang
