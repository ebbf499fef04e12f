import TagLang.Proofs.Logic.Eval

/-! # Formulas that evaluation decides

Evaluation reads nothing but the free variables that are no arrays. Once they have values of their
sorts, it ends with a value wherever no array occurs and every quantifier ranges over a domain that
is tried in full.
-/

namespace TagLang.Formula
open List

theorem HasSort.sort_eq {Γ : Sorting} {f : Formula} {s : VarSort} (hf : HasSort Γ f s) : f.sort = s := by
  induction hf with
  | signExtend _ _ ih | zeroExtend _ _ ih => rw [sort, ih, VarSort.width?, Option.getD_some]
  | select _ _ iha _ => rw [sort, iha]
  | ite _ _ _ _ ih _ | binary _ _ _ ih _ | neg _ ih | bitNot _ ih => exact ih
  | _ => rfl

section Totality

variable {r : Except EvalError BitValue}

/-- What evaluation can deal with at the top of a formula: no array, and only quantifiers over truth
values and over bit-vectors of at most eight bits. -/
def IsEnumerable : Formula → Prop
  | .var _ sort => sort.isArray = false
  | .select _ _ => False
  | .quantifier _ vars _ => ∀ x ∈ vars, x.2 = .bool ∨ ∃ width ≤ 8, x.2 = .bitVec width
  | _ => True

/-- No array occurs, and quantifiers range over truth values and over bit-vectors of at most eight
bits. -/
def Enumerable (f : Formula) : Prop := ∀ part ∈ f.parts, part.IsEnumerable

instance (f : Formula) : Decidable f.IsEnumerable := by
  cases f <;> unfold IsEnumerable <;> infer_instance

instance (f : Formula) : Decidable f.Enumerable :=
  inferInstanceAs (Decidable (∀ part ∈ f.parts, part.IsEnumerable))

theorem mem_partsOf_iff {part : Formula} {ps : List Formula} :
    part ∈ partsOf ps ↔ ∃ p ∈ ps, part ∈ p.parts := by
  induction ps with
  | nil => simp [partsOf]
  | cons p ps ih => simp [partsOf, ih]

theorem mem_parts_iff_operand {f part : Formula}
    (hquant : ∀ kind vars body, f ≠ .quantifier kind vars body) :
    part ∈ f.parts ↔ part = f ∨ ∃ a ∈ f.operands, part ∈ a.parts := by
  cases f with
  | quantifier kind vars body => exact absurd rfl (hquant kind vars body)
  | and ps | or ps => simp [parts, operands, mem_partsOf_iff]
  | _ => simp [parts, operands]

theorem mem_parts_of_operand {f a part : Formula} (ha : a ∈ f.operands) (h : part ∈ a.parts) :
    part ∈ f.parts := by
  cases f with
  | quantifier => cases ha
  | _ => exact (mem_parts_iff_operand (by simp)).mpr (.inr ⟨a, ha, h⟩)

theorem Enumerable.operand {f part : Formula} (hf : f.Enumerable) (hpart : part ∈ f.operands) :
    part.Enumerable :=
  fun p hp => hf p (mem_parts_of_operand hpart hp)

theorem Enumerable.body {kind : QuantifierKind} {vars : List (String × VarSort)} {body : Formula}
    (hf : (Formula.quantifier kind vars body).Enumerable) :
    body.Enumerable ∧ ∀ x ∈ vars, x.2 = .bool ∨ ∃ width ≤ 8, x.2 = .bitVec width := by
  constructor
  · intro p hp
    exact hf p (by rw [parts]; exact mem_cons_of_mem _ hp)
  · exact hf _ (by rw [parts]; exact mem_cons_self)

def HasValue (s : VarSort) (r : Except EvalError BitValue) : Prop := ∃ v x, r = .ok v ∧ Represents s v x

theorem HasValue.bool (h : HasValue .bool r) : ∃ b, r = .ok (.bool b) := by
  obtain ⟨v, x, hr, hrep⟩ := h
  cases hrep with
  | bool b => exact ⟨b, hr⟩

theorem HasValue.bits {width : Nat} (h : HasValue (.bitVec width) r) :
    (1 ≤ width ∧ width ≤ 64) ∧ ∃ word, r = .ok (.bits word width) := by
  obtain ⟨v, x, hr, hrep⟩ := h
  cases hrep with
  | bits valid fits => exact ⟨valid, _, hr⟩

theorem hasValue_bool (b : Bool) : HasValue .bool (.ok (.bool b)) := ⟨_, _, rfl, .bool b⟩

theorem hasValue_ofBits (word : UInt64) {width : Nat} (valid : 1 ≤ width ∧ width ≤ 64) :
    HasValue (.bitVec width) (.ok (.ofBits word width)) := ⟨_, _, rfl, .ofBits word valid⟩

def Assigned (f : Formula) (env : Assignment) : Prop :=
  ∀ name sort, Free f (name, sort) → ∃ v x, env.lookup name = some v ∧ Represents sort v x

structure Ready (f : Formula) (env : Assignment) : Prop where
  enumerable : f.Enumerable
  assigned : f.Assigned env

theorem Ready.operand {f part : Formula} {env : Assignment} (h : Ready f env)
    (hpart : part ∈ f.operands := by simp [operands]) : Ready part env :=
  ⟨h.enumerable.operand hpart, fun name sort hfree => h.assigned name sort (.operand hpart hfree)⟩

section Quantifier

variable {universal : Bool} {body : Assignment → Except EvalError BitValue}
  {vars : List (String × VarSort)} {values : List BitValue}

/-- A search through values at which the body has a truth value ends, and leaves nothing undecided. -/
theorem tryValues_decided {body : BitValue → Except EvalError BitValue}
    (h : ∀ v ∈ values, HasValue .bool (body v)) :
    tryValues universal body false values = .ok none ∨
      tryValues universal body false values = .ok (some false) := by
  induction values with
  | nil => exact .inr rfl
  | cons v vs ih =>
    obtain ⟨b, hb⟩ := (h v mem_cons_self).bool
    simp only [tryValues, hb, BitValue.asBool]
    split
    · exact ih fun w hw => h w (mem_cons_of_mem _ hw)
    · exact .inl rfl

theorem samples_complete {s : VarSort} (h : s = .bool ∨ ∃ width ≤ 8, s = .bitVec width) :
    ∃ values, s.samples = .ok (values, true) := by
  rcases h with rfl | ⟨width, hwidth, rfl⟩
  · exact ⟨_, rfl⟩
  · simp [VarSort.samples, VarSort.domain?, VarSort.enumerableWidth, hwidth]

theorem quantify_cons {bound : String} {sort : VarSort} {env : Assignment}
    (hvalues : sort.samples = .ok (values, true)) :
    quantify universal body ((bound, sort) :: vars) env =
      (tryValues universal (fun v => quantify universal body vars ((bound, v) :: env))
        false values >>= fun
        | none => .ok (.bool (!universal))
        | some undecided => if true && !undecided then .ok (.bool universal) else .error .undecided) := by
  simp only [quantify, hvalues]
  rfl

theorem quantify_hasValue {Γ : Sorting} (hvalid : ∀ x ∈ vars, x.2.Valid)
    (hsmall : ∀ x ∈ vars, x.2 = .bool ∨ ∃ width ≤ 8, x.2 = .bitVec width) {K : String → Prop}
    (hbody : ∀ env : Assignment,
      (∀ name, K name ∨ name ∈ vars.map (·.1) →
        ∃ v x, env.lookup name = some v ∧ Represents (Sorting.extend Γ vars name) v x) →
        HasValue .bool (body env))
    {env : Assignment}
    (henv : ∀ name, K name → ∃ v x, env.lookup name = some v ∧ Represents (Γ name) v x) :
    HasValue .bool (quantify universal body vars env) := by
  induction vars generalizing Γ K env with
  | nil => exact hbody env fun name hname => henv name (by simpa using hname)
  | cons binder vars ih =>
    obtain ⟨bound, sort⟩ := binder
    obtain ⟨values, hvalues⟩ := samples_complete (hsmall _ mem_cons_self)
    have hrep := (VarSort.samples_spec (hvalid _ mem_cons_self) hvalues).1
    have hinner : ∀ v ∈ values, HasValue .bool (quantify universal body vars ((bound, v) :: env)) := by
      intro v hv
      obtain ⟨x, hx⟩ := hrep v hv
      refine ih (Γ := Function.update Γ bound sort) (K := fun name => K name ∨ name = bound)
        (fun y hy => hvalid y (mem_cons_of_mem _ hy)) (fun y hy => hsmall y (mem_cons_of_mem _ hy))
        (fun env' henv' => hbody env' fun name hname => henv' name ?_) fun name hname => ?_
      · simp only [map_cons, mem_cons] at hname
        tauto
      · rw [Table.lookup_cons_ite]
        split
        · next heq =>
          subst heq
          exact ⟨v, x, rfl, by rwa [Function.update_self]⟩
        · next hne =>
          rw [Function.update_of_ne hne]
          exact henv name (hname.resolve_right hne)
    rw [quantify_cons hvalues]
    rcases tryValues_decided hinner with htried | htried
    · rw [htried]
      exact hasValue_bool _
    · rw [htried]
      exact hasValue_bool _

end Quantifier

section Connectives

variable {env : Assignment} {parts : List Formula}

theorem allHold_ok (h : ∀ part ∈ parts, HasValue .bool (part.eval env)) :
    ∃ b, allHold env parts = .ok b := by
  induction parts with
  | nil => exact ⟨true, rfl⟩
  | cons f fs ih =>
    obtain ⟨b, hb⟩ := (h f mem_cons_self).bool
    rw [allHold, hb]
    cases b with
    | false => exact ⟨false, rfl⟩
    | true => exact ih fun part hpart => h part (mem_cons_of_mem _ hpart)

theorem anyHolds_ok (h : ∀ part ∈ parts, HasValue .bool (part.eval env)) :
    ∃ b, anyHolds env parts = .ok b := by
  induction parts with
  | nil => exact ⟨false, rfl⟩
  | cons f fs ih =>
    obtain ⟨b, hb⟩ := (h f mem_cons_self).bool
    rw [anyHolds, hb]
    cases b with
    | false => exact ih fun part hpart => h part (mem_cons_of_mem _ hpart)
    | true => exact ⟨true, rfl⟩

end Connectives

theorem HasSort.eval_hasValue {Γ : Sorting} {f : Formula} {s : VarSort} (hf : HasSort Γ f s)
    {env : Assignment} (h : Ready f env) : HasValue s (f.eval env) := by
  induction hf generalizing env with
  | bool value => exact hasValue_bool value
  | const bits valid => exact hasValue_ofBits bits valid
  | @var _ name sort given valid =>
    obtain ⟨v, x, hv, hrep⟩ := h.assigned name sort (.var name sort)
    have harray : sort.isArray = false := h.enumerable (.var name sort) (by simp [parts])
    exact ⟨v, x, by simp [eval, harray, hv], hrep⟩
  | not _ ih =>
    obtain ⟨b, hb⟩ := (ih h.operand).bool
    rw [eval, hb]
    exact hasValue_bool _
  | and _ ih =>
    obtain ⟨b, hb⟩ := allHold_ok fun part hpart => ih part hpart (h.operand hpart)
    rw [eval, hb]
    exact hasValue_bool _
  | or _ ih =>
    obtain ⟨b, hb⟩ := anyHolds_ok fun part hpart => ih part hpart (h.operand hpart)
    rw [eval, hb]
    exact hasValue_bool _
  | xor _ _ iha ihb =>
    obtain ⟨a, ha⟩ := (iha h.operand).bool
    obtain ⟨b, hb⟩ := (ihb h.operand).bool
    rw [eval, ha, hb]
    exact hasValue_bool _
  | implies _ _ iha ihb =>
    obtain ⟨a, ha⟩ := (iha h.operand).bool
    obtain ⟨b, hb⟩ := (ihb h.operand).bool
    rw [eval, ha, hb]
    cases a with
    | false => exact hasValue_bool true
    | true => exact hasValue_bool b
  | eq _ _ iha ihb =>
    obtain ⟨a, -, ha, -⟩ := iha h.operand
    obtain ⟨b, -, hb, -⟩ := ihb h.operand
    rw [eval, ha, hb]
    exact hasValue_bool _
  | ite _ _ _ ihc iha ihb =>
    obtain ⟨c, hc⟩ := (ihc h.operand).bool
    rw [eval, hc]
    cases c with
    | false => exact ihb h.operand
    | true => exact iha h.operand
  | binary op _ _ iha ihb =>
    obtain ⟨valid, a, ha⟩ := (iha h.operand).bits
    obtain ⟨-, b, hb⟩ := (ihb h.operand).bits
    rw [eval, ha, hb]
    exact hasValue_ofBits _ valid
  | compare cmp _ _ iha ihb =>
    obtain ⟨-, a, ha⟩ := (iha h.operand).bits
    obtain ⟨-, b, hb⟩ := (ihb h.operand).bits
    rw [eval, ha, hb]
    exact hasValue_bool _
  | neg _ ih | bitNot _ ih =>
    obtain ⟨valid, a, ha⟩ := (ih h.operand).bits
    rw [eval, ha]
    exact hasValue_ofBits _ valid
  | signExtend short _ ih | zeroExtend short _ ih =>
    obtain ⟨valid, a, ha⟩ := (ih h.operand).bits
    rw [eval, ha]
    exact hasValue_ofBits _ ⟨by omega, short⟩
  | extract some inside _ ih =>
    obtain ⟨valid, a, ha⟩ := (ih h.operand).bits
    rw [eval, ha]
    exact hasValue_ofBits _ ⟨some, by omega⟩
  | @select _ a i =>
    have hnone : (Formula.select a i).IsEnumerable := h.enumerable _ (by rw [parts]; exact mem_cons_self)
    exact hnone.elim
  | @quantifier Γ kind vars body valid hbody ih =>
    obtain ⟨hbodyEnum, hsmall⟩ := h.enumerable.body
    rw [eval]
    -- Under the quantifier a free variable is bound by it, or was free before.
    refine quantify_hasValue (Γ := Γ)
      (K := fun name => ∃ sort, Free (.quantifier kind vars body) (name, sort))
      valid hsmall (fun env' henv' => ih ⟨hbodyEnum, fun name sort hfree => ?_⟩) fun name hname => ?_
    · have hsort : Sorting.extend Γ vars name = sort := (hbody.sort_of_free hfree).1
      rw [← hsort]
      refine henv' name ?_
      by_cases hname : name ∈ vars.map (·.1)
      · exact .inr hname
      · exact .inl ⟨sort, .under hname hfree⟩
    · obtain ⟨sort, hfree⟩ := hname
      obtain ⟨v, x, hv, hrep⟩ := h.assigned name sort hfree
      have hsort : Γ name = sort := ((HasSort.quantifier kind valid hbody).sort_of_free hfree).1
      rw [hsort]
      exact ⟨v, x, hv, hrep⟩

theorem Enumerable.not_isArray {f : Formula} (hf : f.Enumerable) {x : String × VarSort}
    (hx : Free f x) : x.2.isArray = false := by
  induction hx with
  | var name sort => exact hf (.var name sort) (by simp [parts])
  | operand hpart _ ih => exact ih (hf.operand hpart)
  | under _ _ ih => exact ih hf.body.1

end Totality

section Correctness

variable {Γ : Sorting} {f : Formula} {s : VarSort} {env : Assignment} {ρ : Valuation}

/-- An assignment holds, for each free variable that is no array, a value of its sort, which stands
for what a valuation gives to it. What it holds beyond that does not matter. -/
def Values (f : Formula) (env : Assignment) (ρ : Valuation) : Prop :=
  ∀ name sort, Free f (name, sort) → sort.isArray = false →
    ∃ v, env.lookup name = some v ∧ Represents sort v (ρ name)

/-- Evaluation gives formulas their meaning in the theory of fixed-size bit-vectors: a value that it
ends with has the sort of the formula and stands for what the formula means. Without arrays, and
with quantifiers only over truth values and at most eight bits, it always ends with a value. -/
theorem eval_correct (hf : HasSort Γ f s) (hvalues : Values f env ρ) :
    (∀ v, f.eval env = .ok v → Represents f.sort v (f.denote ρ)) ∧
      (f.Enumerable → ∃ v, f.eval env = .ok v) := by
  constructor
  · intro v hv
    have hagree : AgreesOn f.Reads Γ env ρ := by
      rintro name ⟨sort, hfree, harray⟩ w hw
      obtain ⟨w', hw', hrep⟩ := hvalues name sort hfree harray
      have hsort : Γ name = sort := (hf.sort_of_free hfree).1
      rw [hw] at hw'
      cases hw'
      rwa [hsort]
    rw [hf.sort_eq]
    exact hf.eval_represents hagree hv
  · intro henum
    have hassigned : Assigned f env := by
      intro name sort hfree
      obtain ⟨v, hv, hrep⟩ := hvalues name sort hfree (henum.not_isArray hfree)
      exact ⟨v, _, hv, hrep⟩
    obtain ⟨v, -, hv, -⟩ := hf.eval_hasValue ⟨henum, hassigned⟩
    exact ⟨v, hv⟩

def hasInverse : Formula :=
  .quantifier .existential [("y", .bitVec 3)]
    (.eq (.binary .mul (.var "x" (.bitVec 3)) (.var "y" (.bitVec 3))) (.const 1 3))

theorem hasSort_hasInverse : hasInverse.HasSort (fun _ => .bitVec 3) .bool := by
  have hx : (Formula.var "x" (.bitVec 3)).HasSort (Sorting.extend (fun _ => .bitVec 3) [("y", .bitVec 3)])
      (.bitVec 3) := .var (by decide) (by decide)
  have hy : (Formula.var "y" (.bitVec 3)).HasSort (Sorting.extend (fun _ => .bitVec 3) [("y", .bitVec 3)])
      (.bitVec 3) := .var (by decide) (by decide)
  exact .quantifier _ (by decide) (.eq (.binary .mul hx hy) (.const 1 (by decide)))

theorem eval_correct_hasInverse :
    hasInverse.eval [("z", .bits 9 3), ("x", .bits 3 3)] = .ok (.bool true) ∧ hasInverse.Enumerable ∧
      Represents .bool (.bool true) (hasInverse.denote fun _ => .bits 3 3) ∧
      ∃ v, hasInverse.eval [("z", .bits 9 3), ("x", .bits 3 3)] = .ok v := by
  have hvalues : Values hasInverse [("z", .bits 9 3), ("x", .bits 3 3)] fun _ => .bits 3 3 := by
    intro name sort hfree _
    have hmem : (name, sort) ∈ hasInverse.freeVars := hasSort_hasInverse.mem_freeVars_iff.mpr hfree
    have hvars : hasInverse.freeVars = [("x", .bitVec 3)] := by decide
    rw [hvars, mem_singleton] at hmem
    cases hmem
    refine ⟨.bits 3 3, by decide, ?_⟩
    have hfits : Bits.Fits 3 3 := by
      unfold Bits.Fits
      decide
    exact .bits (by decide) hfits
  have henum : hasInverse.Enumerable := by decide
  have heval : hasInverse.eval [("z", .bits 9 3), ("x", .bits 3 3)] = .ok (.bool true) := by decide
  have hcorrect := eval_correct hasSort_hasInverse hvalues
  exact ⟨heval, henum, hcorrect.1 _ heval, hcorrect.2 henum⟩

end Correctness

end TagLang.Formula
