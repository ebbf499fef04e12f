import TagLang.Proofs.Logic.Denote
import Mathlib.Data.List.Nodup
import Mathlib.Tactic.Tauto

/-! # Well-sorted formulas

A sorting gives every name a sort. A formula has a sort under it if its operators get operands of
the sorts they take, with bit-vectors of 1 to 64 bits, and if its free variables are written at the
sorts given.
-/

namespace TagLang
open List

def VarSort.Valid : VarSort → Prop
  | .bool => True
  | .bitVec width => 1 ≤ width ∧ width ≤ 64
  | .array index element => (1 ≤ index ∧ index ≤ 64) ∧ (1 ≤ element ∧ element ≤ 64)

instance : DecidablePred VarSort.Valid
  | .bool => inferInstanceAs (Decidable True)
  | .bitVec _ => inferInstanceAs (Decidable (_ ∧ _))
  | .array _ _ => inferInstanceAs (Decidable (_ ∧ _))

abbrev Sorting := String → VarSort

/-- The sorts under a quantifier; of equal names the last counts. -/
def Sorting.extend (Γ : Sorting) : List (String × VarSort) → Sorting
  | [] => Γ
  | (name, sort) :: vars => Sorting.extend (Function.update Γ name sort) vars

theorem Sorting.extend_of_notMem {Γ : Sorting} {vars : List (String × VarSort)} {name : String}
    (h : name ∉ vars.map (·.1)) : Sorting.extend Γ vars name = Γ name := by
  induction vars generalizing Γ with
  | nil => rfl
  | cons v vars ih =>
    simp only [map_cons, mem_cons, not_or] at h
    rw [Sorting.extend, ih h.2, Function.update_of_ne h.1]

namespace Formula

variable {x : String × VarSort} {f : Formula} {Γ : Sorting} {s : VarSort} {vars : List (String × VarSort)}

inductive HasSort : Sorting → Formula → VarSort → Prop
  | bool {Γ : Sorting} (value : Bool) : HasSort Γ (.bool value) .bool
  | const {Γ : Sorting} (bits : UInt64) {width : Nat} (valid : VarSort.Valid (.bitVec width)) :
    HasSort Γ (.const bits width) (.bitVec width)
  | var {Γ : Sorting} {name : String} {sort : VarSort} (given : Γ name = sort) (valid : sort.Valid) :
    HasSort Γ (.var name sort) sort
  | not {Γ : Sorting} {a : Formula} : HasSort Γ a .bool → HasSort Γ (.not a) .bool
  | and {Γ : Sorting} {parts : List Formula} : (∀ part ∈ parts, HasSort Γ part .bool) →
    HasSort Γ (.and parts) .bool
  | or {Γ : Sorting} {parts : List Formula} : (∀ part ∈ parts, HasSort Γ part .bool) →
    HasSort Γ (.or parts) .bool
  | xor {Γ : Sorting} {a b : Formula} : HasSort Γ a .bool → HasSort Γ b .bool → HasSort Γ (.xor a b) .bool
  | implies {Γ : Sorting} {a b : Formula} : HasSort Γ a .bool → HasSort Γ b .bool →
    HasSort Γ (.implies a b) .bool
  | eq {Γ : Sorting} {a b : Formula} {sort : VarSort} : HasSort Γ a sort → HasSort Γ b sort →
    HasSort Γ (.eq a b) .bool
  | ite {Γ : Sorting} {test yes no : Formula} {sort : VarSort} : HasSort Γ test .bool →
    HasSort Γ yes sort → HasSort Γ no sort → HasSort Γ (.ite test yes no) sort
  | binary {Γ : Sorting} (op : BitOp) {a b : Formula} {width : Nat} : HasSort Γ a (.bitVec width) →
    HasSort Γ b (.bitVec width) → HasSort Γ (.binary op a b) (.bitVec width)
  | compare {Γ : Sorting} (cmp : BitCmp) {a b : Formula} {width : Nat} :
    HasSort Γ a (.bitVec width) → HasSort Γ b (.bitVec width) → HasSort Γ (.compare cmp a b) .bool
  | neg {Γ : Sorting} {a : Formula} {width : Nat} : HasSort Γ a (.bitVec width) →
    HasSort Γ (.neg a) (.bitVec width)
  | bitNot {Γ : Sorting} {a : Formula} {width : Nat} : HasSort Γ a (.bitVec width) →
    HasSort Γ (.bitNot a) (.bitVec width)
  | signExtend {Γ : Sorting} {a : Formula} {width more : Nat} (short : width + more ≤ 64) :
    HasSort Γ a (.bitVec width) → HasSort Γ (.signExtend more a) (.bitVec (width + more))
  | zeroExtend {Γ : Sorting} {a : Formula} {width more : Nat} (short : width + more ≤ 64) :
    HasSort Γ a (.bitVec width) → HasSort Γ (.zeroExtend more a) (.bitVec (width + more))
  | extract {Γ : Sorting} {a : Formula} {width count : Nat} (some : 1 ≤ count)
    (inside : count ≤ width) : HasSort Γ a (.bitVec width) →
    HasSort Γ (.extract count a) (.bitVec count)
  | select {Γ : Sorting} {a i : Formula} {index element : Nat} :
    HasSort Γ a (.array index element) → HasSort Γ i (.bitVec index) →
    HasSort Γ (.select a i) (.bitVec element)
  | quantifier {Γ : Sorting} (kind : QuantifierKind) {vars : List (String × VarSort)}
    {body : Formula} (valid : ∀ x ∈ vars, x.2.Valid) : HasSort (Sorting.extend Γ vars) body .bool →
    HasSort Γ (.quantifier kind vars body) .bool

def operands : Formula → List Formula
  | .not a => [a]
  | .and parts => parts
  | .or parts => parts
  | .xor a b => [a, b]
  | .implies a b => [a, b]
  | .eq a b => [a, b]
  | .ite test yes no => [test, yes, no]
  | .binary _ a b => [a, b]
  | .compare _ a b => [a, b]
  | .neg a => [a]
  | .bitNot a => [a]
  | .signExtend _ a => [a]
  | .zeroExtend _ a => [a]
  | .extract _ a => [a]
  | .select a i => [a, i]
  | .bool _ | .const _ _ | .var _ _ | .quantifier _ _ _ => []

/-- A variable occurs with a sort where no quantifier binds its name. -/
inductive Free : Formula → String × VarSort → Prop
  | var (name : String) (sort : VarSort) : Free (.var name sort) (name, sort)
  | operand {f part : Formula} {x : String × VarSort} : part ∈ f.operands → Free part x → Free f x
  | under {kind : QuantifierKind} {vars : List (String × VarSort)} {body : Formula}
    {x : String × VarSort} : x.1 ∉ vars.map (·.1) → Free body x →
    Free (.quantifier kind vars body) x

theorem free_iff_operand (hvar : ∀ name sort, f ≠ .var name sort)
    (hquant : ∀ kind vars body, f ≠ .quantifier kind vars body) :
    Free f x ↔ ∃ part ∈ f.operands, Free part x := by
  constructor
  · intro h
    cases h with
    | var name sort => exact absurd rfl (hvar name sort)
    | operand hmem h => exact ⟨_, hmem, h⟩
    | under hx h => exact absurd rfl (hquant _ _ _)
  · rintro ⟨part, hmem, h⟩
    exact .operand hmem h

theorem HasSort.sort_of_free (hf : HasSort Γ f s) (hx : Free f x) : Γ x.1 = x.2 ∧ x.2.Valid := by
  induction hf with
  | var given valid =>
    cases hx with
    | var => exact ⟨given, valid⟩
    | operand hmem => simp [operands] at hmem
  | quantifier kind valid _ ih =>
    cases hx with
    | operand hmem => simp [operands] at hmem
    | under hbound hx =>
      obtain ⟨hΓ, hvalid⟩ := ih hx
      exact ⟨(Sorting.extend_of_notMem hbound).symm.trans hΓ, hvalid⟩
  | bool | const =>
    cases hx with
    | operand hmem => simp [operands] at hmem
  | and _ ih | or _ ih =>
    cases hx with
    | operand hmem hx => exact ih _ hmem hx
  | _ =>
    cases hx with
    | operand hmem hx =>
      simp only [operands, mem_cons, not_mem_nil, or_false] at hmem
      grind

theorem HasSort.denote_bool (hf : HasSort Γ f s) (hs : s = .bool) {ρ : Valuation}
    (hρ : ∀ x, Free f x → (ρ x.1).sort = x.2) : ∃ b, f.denote ρ = .bool b := by
  induction hf with
  | bool value => exact ⟨value, rfl⟩
  | @var Γ name sort given valid =>
    rw [denote]
    exact Denotation.eq_bool_of_sort ((hρ _ (.var name sort)).trans hs)
  | not _ ih =>
    obtain ⟨b, hb⟩ := ih rfl fun x hx => hρ x (.operand (by simp [operands]) hx)
    exact ⟨!b, by rw [denote, hb, Denotation.negate]⟩
  | and | or | xor | implies | eq => exact ⟨_, rfl⟩
  | compare cmp _ _ =>
    rw [denote]
    unfold Denotation.onPair
    split <;> exact ⟨_, rfl⟩
  | ite _ _ _ _ iha ihb =>
    rw [denote]
    split
    · exact iha hs fun x hx => hρ x (.operand (by simp [operands]) hx)
    · exact ihb hs fun x hx => hρ x (.operand (by simp [operands]) hx)
  | @quantifier Γ kind vars body valid _ ih =>
    rw [denote]
    cases vars with
    | nil => exact ih rfl fun x hx => hρ x (.under (by simp) hx)
    | cons var vars => cases kind <;> exact ⟨_, rfl⟩
  | _ => cases hs

theorem denoteQuantifier_congr (kind : QuantifierKind) {body : Valuation → Denotation} {K : String → Prop}
    (hbody : ∀ ρ σ : Valuation, (∀ name, K name → ρ name = σ name) → body ρ = body σ) {ρ σ : Valuation}
    (h : ∀ name, name ∉ vars.map (·.1) → K name → ρ name = σ name) :
    denoteQuantifier kind body vars ρ = denoteQuantifier kind body vars σ := by
  induction vars generalizing ρ σ with
  | nil => exact hbody ρ σ fun name hname => h name not_mem_nil hname
  | cons var vars ih =>
    have hupdate (v : Denotation) : denoteQuantifier kind body vars (Function.update ρ var.1 v) =
        denoteQuantifier kind body vars (Function.update σ var.1 v) := by
      refine ih fun name hname hK => ?_
      by_cases hvar : name = var.1
      · rw [hvar, Function.update_self, Function.update_self]
      · rw [Function.update_of_ne hvar, Function.update_of_ne hvar]
        exact h name (by simpa [hvar] using hname) hK
    cases kind <;> simp only [denoteQuantifier, Denotation.bool.injEq, decide_eq_decide, hupdate]

/-- The meaning of a formula depends on the values of its free variables only. -/
theorem HasSort.denote_congr (hf : HasSort Γ f s) {ρ σ : Valuation}
    (h : ∀ x, Free f x → ρ x.1 = σ x.1) : f.denote ρ = f.denote σ := by
  induction hf generalizing ρ σ with
  | bool | const => rfl
  | @var _ name sort => exact h (name, sort) (.var name sort)
  | and _ ih | or _ ih =>
    rw [denote, denote, denoteAll_eq_map, denoteAll_eq_map,
      map_congr_left fun part hpart => ih part hpart fun x hx => h x (.operand hpart hx)]
  | @quantifier _ kind vars body _ _ ih =>
    refine denoteQuantifier_congr kind (K := fun name => ∃ sort, Free body (name, sort)) ?_ ?_
    · exact fun ρ σ hbody => ih fun x hx => hbody x.1 ⟨x.2, hx⟩
    · rintro name hname ⟨sort, hx⟩
      exact h (name, sort) (.under hname hx)
  | not _ ih | neg _ ih | bitNot _ ih | signExtend _ _ ih | zeroExtend _ _ ih | extract _ _ _ ih =>
    rw [denote, denote, ih fun x hx => h x (.operand (by simp [operands]) hx)]
  | xor _ _ iha ihb | implies _ _ iha ihb | eq _ _ iha ihb | select _ _ iha ihb | binary _ _ _ iha ihb
  | compare _ _ _ iha ihb =>
    rw [denote, denote, iha fun x hx => h x (.operand (by simp [operands]) hx),
      ihb fun x hx => h x (.operand (by simp [operands]) hx)]
  | ite _ _ _ ihtest iha ihb =>
    rw [denote, denote, ihtest fun x hx => h x (.operand (by simp [operands]) hx),
      iha fun x hx => h x (.operand (by simp [operands]) hx),
      ihb fun x hx => h x (.operand (by simp [operands]) hx)]

section Conjunction

variable {parts : List Formula}

theorem HasSort.conjunction (h : ∀ part ∈ parts, HasSort Γ part .bool) :
    HasSort Γ (Formula.conjunction parts) .bool := by
  unfold Formula.conjunction
  split
  · exact .bool true
  · exact h _ mem_cons_self
  · exact .and h

theorem free_conjunction : Free (Formula.conjunction parts) x ↔ ∃ part ∈ parts, Free part x := by
  unfold Formula.conjunction
  split
  · rw [free_iff_operand (by simp) (by simp)]
    simp [operands]
  · simp
  · rw [free_iff_operand (by simp) (by simp), operands]

theorem denote_conjunction {ρ : Valuation} :
    (Formula.conjunction parts).denote ρ = .bool true ↔ ∀ part ∈ parts, part.denote ρ = .bool true := by
  unfold Formula.conjunction
  split
  · simp [denote]
  · simp
  · simp [denote, denoteAll_eq_map]

end Conjunction

mutual

theorem mem_freeIn (bound : List String) (x : String × VarSort) :
    (f : Formula) → (x ∈ freeIn bound f ↔ x.1 ∉ bound ∧ Free f x)
  | .bool _ | .const _ _ => by
    rw [free_iff_operand (by simp) (by simp)]
    simp [freeIn, operands]
  | .var name sort => by
    have hvar : Free (.var name sort) x ↔ x = (name, sort) := by
      constructor
      · intro h
        cases h with
        | var => rfl
        | operand hmem => simp [operands] at hmem
      · rintro rfl
        exact .var name sort
    rw [freeIn, hvar]
    split
    · next h =>
      simp only [not_mem_nil, false_iff, not_and]
      rintro hx rfl
      exact hx (contains_iff_mem.mp h)
    · next h =>
      simp only [mem_singleton, iff_and_self]
      rintro rfl hx
      exact h (contains_iff_mem.mpr hx)
  | .and parts | .or parts => by
    rw [free_iff_operand (by simp) (by simp), freeIn, mem_freeInAll bound x parts, operands]
  | .not a | .neg a | .bitNot a | .signExtend _ a | .zeroExtend _ a | .extract _ a => by
    rw [free_iff_operand (by simp) (by simp), freeIn, mem_freeIn bound x a]
    simp [operands]
  | .xor a b | .implies a b | .eq a b | .binary _ a b | .compare _ a b | .select a b => by
    rw [free_iff_operand (by simp) (by simp), freeIn, mem_append, mem_freeIn bound x a,
      mem_freeIn bound x b]
    simp [operands, and_or_left]
  | .ite c a b => by
    rw [free_iff_operand (by simp) (by simp), freeIn, mem_append, mem_append, mem_freeIn bound x c,
      mem_freeIn bound x a, mem_freeIn bound x b]
    simp [operands, and_or_left, or_assoc]
  | .quantifier kind vars body => by
    have hunder : Free (.quantifier kind vars body) x ↔ x.1 ∉ vars.map (·.1) ∧ Free body x := by
      constructor
      · intro h
        cases h with
        | operand hmem => simp [operands] at hmem
        | under hx h => exact ⟨hx, h⟩
      · exact fun ⟨hx, h⟩ => .under hx h
    rw [freeIn, mem_freeIn _ x body, hunder, mem_append, not_or]
    tauto

theorem mem_freeInAll (bound : List String) (x : String × VarSort) :
    (fs : List Formula) → (x ∈ freeInAll bound fs ↔ x.1 ∉ bound ∧ ∃ f ∈ fs, Free f x)
  | [] => by simp [freeInAll]
  | f :: fs => by
    rw [freeInAll, mem_append, mem_freeIn bound x f, mem_freeInAll bound x fs]
    simp [and_or_left]

end

theorem mem_firstOfName_subset {seen : List String} (h : x ∈ firstOfName seen vars) :
    x ∈ vars ∧ x.1 ∉ seen := by
  induction vars generalizing seen with
  | nil => simp [firstOfName] at h
  | cons v vars ih =>
    obtain ⟨name, sort⟩ := v
    rw [firstOfName] at h
    split at h
    · obtain ⟨hmem, hseen⟩ := ih h
      exact ⟨mem_cons_of_mem _ hmem, hseen⟩
    · next hname =>
      rcases mem_cons.mp h with rfl | h
      · exact ⟨mem_cons_self, by simpa using hname⟩
      · obtain ⟨hmem, hseen⟩ := ih h
        exact ⟨mem_cons_of_mem _ hmem, fun hx => hseen (mem_cons_of_mem _ hx)⟩

theorem exists_mem_firstOfName (seen : List String) (h : x ∈ vars) (hseen : x.1 ∉ seen) :
    ∃ y ∈ firstOfName seen vars, y.1 = x.1 := by
  induction vars generalizing seen with
  | nil => simp at h
  | cons v vars ih =>
    obtain ⟨name, sort⟩ := v
    rw [firstOfName]
    rcases mem_cons.mp h with rfl | h
    · rw [if_neg (by simpa using hseen)]
      exact ⟨_, mem_cons_self, rfl⟩
    · split
      · exact ih seen h hseen
      · by_cases hx : x.1 = name
        · exact ⟨_, mem_cons_self, hx.symm⟩
        · obtain ⟨y, hy, hname⟩ := ih (name :: seen) h (by simp [hx, hseen])
          exact ⟨y, mem_cons_of_mem _ hy, hname⟩

theorem nodup_firstOfName (seen : List String) (vars : List (String × VarSort)) :
    ((firstOfName seen vars).map (·.1)).Nodup := by
  induction vars generalizing seen with
  | nil => simp [firstOfName]
  | cons v vars ih =>
    obtain ⟨name, sort⟩ := v
    rw [firstOfName]
    split
    · exact ih seen
    · rw [map_cons, nodup_cons]
      refine ⟨?_, ih _⟩
      intro hmem
      obtain ⟨y, hy, hname⟩ := mem_map.mp hmem
      exact (mem_firstOfName_subset hy).2 (by simp [hname])

theorem free_of_mem_freeVars (h : x ∈ f.freeVars) : Free f x :=
  ((mem_freeIn [] x f).mp (mem_firstOfName_subset h).1).2

theorem HasSort.mem_freeVars_iff (hf : HasSort Γ f s) : x ∈ f.freeVars ↔ Free f x := by
  refine ⟨free_of_mem_freeVars, fun hx => ?_⟩
  have hin : x ∈ freeIn [] f := (mem_freeIn [] x f).mpr ⟨not_mem_nil, hx⟩
  obtain ⟨y, hy, hname⟩ := exists_mem_firstOfName [] hin not_mem_nil
  have hsort : y.2 = x.2 := by
    rw [← (hf.sort_of_free hx).1, ← (hf.sort_of_free (free_of_mem_freeVars hy)).1, hname]
  have : x = y := Prod.ext hname.symm hsort.symm
  rw [this]
  exact hy

end Formula

end TagLang
