import Mathlib.Data.List.Basic
import TagLang.Proofs.Coverage.Value

/-! # Constructors

A type whose values are told apart has its constructors in a fixed order. Every value of the type
has one of them, and every one of them is that of some value if there are values to put inside. A
constructor is tested by the patterns that fit its values.
-/

namespace TagLang.Coverage

inductive Constructor
  | someOf
  | noneOf
  | okOf
  | errOf
  | bool (value : Bool)
  | variant (owner name : String) (carries : Bool)
deriving DecidableEq, Repr

namespace Constructor

def text : Constructor → String
  | .someOf => "Some(_)"
  | .noneOf => "None"
  | .okOf => "Ok(_)"
  | .errOf => "Err(_)"
  | .bool value => if value then "true" else "false"
  | .variant _ name carries => if carries then name ++ "(_)" else name

def test : Constructor → Bound.Pattern → Bool
  | .someOf => Bound.Pattern.isSome
  | .noneOf => Bound.Pattern.isNone
  | .okOf => Bound.Pattern.isOk
  | .errOf => Bound.Pattern.isErr
  | .bool value => Bound.Pattern.isBool value
  | .variant owner name _ => Bound.Pattern.isVariant owner name

def case (c : Constructor) : Case := ⟨c.text, c.test⟩

def ofVariant (owner : String) (v : VariantInfo) : Constructor := .variant owner v.name v.payload.isSome

end Constructor

def constructors (r : Registry) : Ty → List Constructor
  | .option _ => [.someOf, .noneOf]
  | .result _ _ => [.okOf, .errOf]
  | .bool => [.bool true, .bool false]
  | .named owner _ => ((r.sumTypes.get? owner).getD []).map (.ofVariant owner)
  | _ => []

def Value.constructor? : Value → Option Constructor
  | .bool b => some (.bool b)
  | .someOf _ => some .someOf
  | .noneOf => some .noneOf
  | .okOf _ => some .okOf
  | .errOf _ => some .errOf
  | .variant owner name => some (.variant owner name false)
  | .carrying owner name _ => some (.variant owner name true)
  | _ => none

def payloads (r : Registry) : Ty → List Ty
  | .option t => [t]
  | .result ok err => [ok, err]
  | .named owner _ => ((r.sumTypes.get? owner).getD []).filterMap (·.payload)
  | _ => []

/-- A constructor is that of a value if the two go with the same patterns, catch-alls apart. -/
def Case.Heads (c : Case) (v : Value) : Prop :=
  ∀ p : Bound.Pattern, p.isCatchAll = false → c.taken p = p.fits v

variable {r : Registry} {ty : Ty} {v : Value} {c : Constructor}

theorem cases_eq (r : Registry) (ty : Ty) : cases r ty = (constructors r ty).map Constructor.case := by
  cases ty with
  | named owner args =>
    have hcase (info : VariantInfo) : variantCase owner info =
        (Constructor.ofVariant owner info).case := rfl
    simp [cases, constructors, hcase]
  | _ => rfl

theorem heads_case (h : v.constructor? = some c) : c.case.Heads v := by
  intro p hp
  cases v with
  | bool b =>
    cases h
    cases p with
    | wildcard | binding => simp [Bound.Pattern.isCatchAll] at hp
    | literal l => cases l <;> simp [Constructor.case, Constructor.test, Bound.Pattern.isBool,
      Bound.Pattern.fits,
        Value.ofLiteral, eq_comm, beq_eq_decide]
    | _ => rfl
  | variant | carrying =>
    cases h
    cases p with
    | wildcard | binding => simp [Bound.Pattern.isCatchAll] at hp
    | variant o => cases o <;> simp [Constructor.case, Constructor.test, Bound.Pattern.isVariant,
      Bound.Pattern.fits,
        Bound.Pattern.ownerFits]
    | literal l => cases l <;> rfl
    | _ => rfl
  | someOf | noneOf | okOf | errOf =>
    cases h
    cases p with
    | wildcard | binding => simp [Bound.Pattern.isCatchAll] at hp
    | literal l => cases l <;> rfl
    | _ => rfl
  | _ => cases h

theorem ofVariant_mem_constructors {owner : String} {args : List Ty} {variants : List VariantInfo}
    {info : VariantInfo} (hsum : r.sumTypes.get? owner = some variants) (hinfo : info ∈ variants) :
    .ofVariant owner info ∈ constructors r (.named owner args) := by
  simpa [constructors, hsum] using List.mem_map_of_mem hinfo

theorem exists_constructor (hclosed : r.isClosed ty = true) (hv : HasType r v ty) :
    ∃ c ∈ constructors r ty, v.constructor? = some c := by
  cases hv with
  | int | str => simp [Registry.isClosed] at hclosed
  | @bool b => exact ⟨.bool b, by cases b <;> simp [constructors], rfl⟩
  | someOf => exact ⟨.someOf, by simp [constructors], rfl⟩
  | noneOf => exact ⟨.noneOf, by simp [constructors], rfl⟩
  | okOf => exact ⟨.okOf, by simp [constructors], rfl⟩
  | errOf => exact ⟨.errOf, by simp [constructors], rfl⟩
  | variant hsum hinfo hpayload | carrying hsum hinfo hpayload =>
    refine ⟨_, ofVariant_mem_constructors hsum hinfo, ?_⟩
    simp [Value.constructor?, Constructor.ofVariant, hpayload]
  | outside hopen => simp [hclosed] at hopen

theorem exists_constructed (hpayloads : ∀ t ∈ payloads r ty, ∃ v, HasType r v t)
    (hc : c ∈ constructors r ty) : ∃ v, HasType r v ty ∧ v.constructor? = some c := by
  cases ty with
  | bool =>
    rcases List.mem_pair.mp hc with rfl | rfl
    · exact ⟨.bool true, .bool, rfl⟩
    · exact ⟨.bool false, .bool, rfl⟩
  | option t =>
    obtain ⟨v, hv⟩ := hpayloads t (by simp [payloads])
    rcases List.mem_pair.mp hc with rfl | rfl
    · exact ⟨.someOf v, .someOf hv, rfl⟩
    · exact ⟨.noneOf, .noneOf, rfl⟩
  | result ok err =>
    rcases List.mem_pair.mp hc with rfl | rfl
    · obtain ⟨v, hv⟩ := hpayloads ok (by simp [payloads])
      exact ⟨.okOf v, .okOf hv, rfl⟩
    · obtain ⟨v, hv⟩ := hpayloads err (by simp [payloads])
      exact ⟨.errOf v, .errOf hv, rfl⟩
  | named owner args =>
    obtain ⟨info, hinfo, rfl⟩ := List.mem_map.mp hc
    cases hsum : r.sumTypes.get? owner with
    | none => simp [hsum] at hinfo
    | some variants =>
      replace hinfo : info ∈ variants := by simpa [hsum] using hinfo
      cases hpayload : info.payload with
      | none =>
        refine ⟨.variant owner info.name, .variant hsum hinfo hpayload, ?_⟩
        simp [Value.constructor?, Constructor.ofVariant, hpayload]
      | some t =>
        have ht : t ∈ payloads r (.named owner args) := by
          simpa [payloads, hsum] using ⟨info, hinfo, hpayload⟩
        obtain ⟨v, hv⟩ := hpayloads t ht
        refine ⟨.carrying owner info.name v, .carrying hsum hinfo hpayload hv, ?_⟩
        simp [Value.constructor?, Constructor.ofVariant, hpayload]
  | _ => simp [constructors] at hc

theorem exists_case (hclosed : r.isClosed ty = true) (hv : HasType r v ty) :
    ∃ c ∈ cases r ty, c.Heads v := by
  obtain ⟨c, hc, hvc⟩ := exists_constructor hclosed hv
  rw [cases_eq]
  exact ⟨c.case, List.mem_map_of_mem hc, heads_case hvc⟩

theorem exists_value (hpayloads : ∀ t ∈ payloads r ty, ∃ v, HasType r v t) {c : Case}
    (hc : c ∈ cases r ty) : ∃ v, HasType r v ty ∧ c.Heads v := by
  rw [cases_eq] at hc
  obtain ⟨k, hk, rfl⟩ := List.mem_map.mp hc
  obtain ⟨v, hv, hvc⟩ := exists_constructed hpayloads hk
  exact ⟨v, hv, heads_case hvc⟩

end TagLang.Coverage
