import TagLang.Proofs.Logic.Decided

/-! # Well-sorted formulas that capture nothing

Every variable carries its sort where it occurs, so the sorts of a formula can be checked operator
by operator, with no sorting given. If moreover no quantifier binds a name once more, the formula
has its sort under every sorting that agrees with its free variables.
-/

namespace TagLang.Formula
open List

section Parts

variable {vars : List (String × VarSort)} {kind : QuantifierKind}

def ownNames : Formula → List String
  | .quantifier _ vars _ => vars.map (·.1)
  | _ => []

def Binds (f : Formula) (name : String) : Prop := ∃ part ∈ f.parts, name ∈ part.ownNames

/-- No quantifier binds a name twice, or a name that a quantifier around it binds. -/
def BindsApart (f : Formula) : Prop :=
  ∀ kind vars body, .quantifier kind vars body ∈ f.parts →
    (vars.map (·.1)).Nodup ∧ ∀ name ∈ vars.map (·.1), ¬body.Binds name

/-- What stands right below an operator has the sorts that the operator takes: one sort on both
sides, and 64 bits for the index of an array. Under a quantifier its variables are written at the
sorts that it gives them. -/
def TopSorted : Formula → Prop
  | .bool _ => True
  | .const _ width => VarSort.Valid (.bitVec width)
  | .var _ sort => sort.Valid
  | .not a => a.sort = .bool
  | .and parts => ∀ part ∈ parts, part.sort = .bool
  | .or parts => ∀ part ∈ parts, part.sort = .bool
  | .xor a b => a.sort = .bool ∧ b.sort = .bool
  | .implies a b => a.sort = .bool ∧ b.sort = .bool
  | .eq a b => a.sort = b.sort
  | .ite test yes no => test.sort = .bool ∧ yes.sort = no.sort
  | .binary _ a b => ∃ width, a.sort = .bitVec width ∧ b.sort = .bitVec width
  | .compare _ a b => ∃ width, a.sort = .bitVec width ∧ b.sort = .bitVec width
  | .neg a => ∃ width, a.sort = .bitVec width
  | .bitNot a => ∃ width, a.sort = .bitVec width
  | .signExtend more a => ∃ width, a.sort = .bitVec width ∧ width + more ≤ 64
  | .zeroExtend more a => ∃ width, a.sort = .bitVec width ∧ width + more ≤ 64
  | .extract count a => ∃ width, a.sort = .bitVec width ∧ 1 ≤ count ∧ count ≤ width
  | .select array index => (∃ element, array.sort = .array 64 element) ∧ index.sort = .bitVec 64
  | .quantifier _ vars body =>
    body.sort = .bool ∧ (∀ x ∈ vars, x.2.Valid) ∧ ∀ x, body.Free x → x.1 ∈ vars.map (·.1) → x ∈ vars

def WellSorted (f : Formula) : Prop := ∀ part ∈ f.parts, part.TopSorted

theorem mem_parts_self (f : Formula) : f ∈ f.parts := by
  cases f <;> simp [parts]

theorem mem_parts_quantifier {body part : Formula} :
    part ∈ (Formula.quantifier kind vars body).parts ↔ part = .quantifier kind vars body ∨
      part ∈ body.parts := by
  simp [parts]

theorem Binds.exists_operand {f : Formula} {name : String} (h : f.Binds name)
    (hquant : ∀ kind vars body, f ≠ .quantifier kind vars body) : ∃ a ∈ f.operands, a.Binds name := by
  obtain ⟨part, hpart, hname⟩ := h
  rcases (mem_parts_iff_operand hquant).mp hpart with rfl | ⟨a, ha, hpart⟩
  · cases part with
    | quantifier kind vars body => exact absurd rfl (hquant kind vars body)
    | _ => cases hname
  · exact ⟨a, ha, part, hpart, hname⟩

theorem binds_quantifier {body : Formula} {name : String} :
    (Formula.quantifier kind vars body).Binds name ↔ name ∈ vars.map (·.1) ∨ body.Binds name := by
  simp only [Binds, mem_parts_quantifier, or_and_right, exists_or, exists_eq_left, ownNames]

theorem sizeOf_lt_of_mem_operands {f a : Formula} (ha : a ∈ f.operands) : sizeOf a < sizeOf f := by
  cases f with
  | and ps | or ps =>
    have hlt : sizeOf a < sizeOf ps := sizeOf_lt_of_mem ha
    simp only [and.sizeOf_spec, or.sizeOf_spec]
    omega
  | bool | const | var | quantifier => cases ha
  | _ =>
    simp only [operands, mem_cons, not_mem_nil, or_false] at ha
    grind

/-- Induction on formulas, where all operators but the quantifiers are one case. -/
theorem induction_on_operands {P : Formula → Prop}
    (operator : ∀ f, (∀ kind vars body, f ≠ .quantifier kind vars body) → (∀ a ∈ f.operands, P a) → P f)
    (quantifier : ∀ kind vars body, P body → P (.quantifier kind vars body)) (f : Formula) : P f := by
  induction h : sizeOf f using Nat.strongRecOn generalizing f with
  | ind n ih =>
    subst h
    by_cases hquant : ∀ kind vars body, f ≠ .quantifier kind vars body
    · exact operator f hquant fun a ha => ih _ (sizeOf_lt_of_mem_operands ha) a rfl
    · push Not at hquant
      obtain ⟨kind, vars, body, rfl⟩ := hquant
      exact quantifier kind vars body
        (ih _ (by simp only [Formula.quantifier.sizeOf_spec]; omega) body rfl)

end Parts

theorem extend_of_mem {Γ : Sorting} {vars : List (String × VarSort)} (hnodup : (vars.map (·.1)).Nodup)
    {x : String × VarSort} (hx : x ∈ vars) : Sorting.extend Γ vars x.1 = x.2 := by
  induction vars generalizing Γ with
  | nil => cases hx
  | cons v vars ih =>
    rw [map_cons, nodup_cons] at hnodup
    rw [Sorting.extend]
    rcases mem_cons.mp hx with rfl | hx
    · rw [Sorting.extend_of_notMem hnodup.1, Function.update_self]
    · exact ih hnodup.2 hx

/-- A well-sorted formula that binds no name twice, with free variables at the sorts that a sorting
gives. -/
structure Sortable (Γ : Sorting) (f : Formula) : Prop where
  wellSorted : f.WellSorted
  apart : f.BindsApart
  agrees : ∀ x, f.Free x → Γ x.1 = x.2

namespace Sortable

variable {Γ : Sorting} {f : Formula}

theorem top (h : Sortable Γ f) : f.TopSorted := h.wellSorted f (mem_parts_self f)

theorem operand (h : Sortable Γ f) {a : Formula} (ha : a ∈ f.operands) : Sortable Γ a where
  wellSorted part hpart := h.wellSorted part (mem_parts_of_operand ha hpart)
  apart kind vars body hpart := h.apart kind vars body (mem_parts_of_operand ha hpart)
  agrees x hx := h.agrees x (.operand ha hx)

theorem body {kind : QuantifierKind} {vars : List (String × VarSort)} {body : Formula}
    (h : Sortable Γ (.quantifier kind vars body)) : Sortable (Sorting.extend Γ vars) body := by
  have hparts (part : Formula) (hpart : part ∈ body.parts) :
      part ∈ (Formula.quantifier kind vars body).parts :=
    mem_parts_quantifier.mpr (.inr hpart)
  refine ⟨fun part hpart => h.wellSorted part (hparts part hpart),
    fun kind vars body hpart => h.apart kind vars body (hparts _ hpart), fun x hx => ?_⟩
  by_cases hbound : x.1 ∈ vars.map (·.1)
  · exact extend_of_mem (h.apart kind vars body (mem_parts_self _)).1 (h.top.2.2 x hx hbound)
  · rw [Sorting.extend_of_notMem hbound]
    exact h.agrees x (.under hbound hx)

theorem hasSort (h : Sortable Γ f) : f.HasSort Γ f.sort := by
  induction f using induction_on_operands generalizing Γ with
  | quantifier kind vars body ih =>
    obtain ⟨hsort, hvalid, -⟩ := h.top
    exact .quantifier kind hvalid (hsort ▸ ih h.body)
  | operator f hquant ih =>
    have htop := h.top
    have hat (a : Formula) {s : VarSort} (hs : a.sort = s)
        (ha : a ∈ f.operands := by simp [operands]) : a.HasSort Γ s :=
      hs ▸ ih a ha (h.operand ha)
    cases f with
    | quantifier kind vars body => exact absurd rfl (hquant kind vars body)
    | bool value => exact .bool value
    | const bits width => exact .const bits htop
    | var name sort => exact .var (h.agrees _ (.var name sort)) htop
    | not a => exact .not (hat a htop)
    | and parts => exact .and fun part hpart => hat part (htop part hpart) hpart
    | or parts => exact .or fun part hpart => hat part (htop part hpart) hpart
    | xor a b => exact .xor (hat a htop.1) (hat b htop.2)
    | implies a b => exact .implies (hat a htop.1) (hat b htop.2)
    | eq a b => exact .eq (hat a rfl) (hat b htop.symm)
    | ite c a b =>
      exact .ite (hat c htop.1) (hat a rfl) (hat b htop.2.symm)
    | binary op a b =>
      obtain ⟨width, ha, hb⟩ := htop
      rw [sort, ha]
      exact .binary op (hat a ha) (hat b hb)
    | compare cmp a b =>
      obtain ⟨width, ha, hb⟩ := htop
      exact .compare cmp (hat a ha) (hat b hb)
    | neg a =>
      obtain ⟨width, ha⟩ := htop
      rw [sort, ha]
      exact .neg (hat a ha)
    | bitNot a =>
      obtain ⟨width, ha⟩ := htop
      rw [sort, ha]
      exact .bitNot (hat a ha)
    | signExtend more a =>
      obtain ⟨width, ha, hshort⟩ := htop
      rw [sort, ha]
      exact .signExtend hshort (hat a ha)
    | zeroExtend more a =>
      obtain ⟨width, ha, hshort⟩ := htop
      rw [sort, ha]
      exact .zeroExtend hshort (hat a ha)
    | extract count a =>
      obtain ⟨width, ha, hcount, hinside⟩ := htop
      exact .extract hcount hinside (hat a ha)
    | select a i =>
      obtain ⟨⟨element, ha⟩, hi⟩ := htop
      rw [sort, ha]
      exact .select (hat a ha) (hat i hi)

end Sortable

/-- A well-sorted formula of a sort, with free variables of `M`. Its quantifiers bind names of `B`,
and none of them twice. -/
structure Proper (M : String × VarSort → Prop) (B : String → Prop) (f : Formula) (s : VarSort) :
    Prop where
  wellSorted : f.WellSorted
  sort_eq : f.sort = s
  free : ∀ x, f.Free x → M x
  apart : f.BindsApart
  binds : ∀ name, f.Binds name → B name

namespace Proper

variable {M : String × VarSort → Prop} {B : String → Prop} {f a b c : Formula} {s : VarSort} {width : Nat}
  {M' : String × VarSort → Prop}

theorem mono {B' : String → Prop} (h : Proper M B f s) (hM : ∀ x, M x → M' x)
    (hB : ∀ name, B name → B' name) : Proper M' B' f s :=
  ⟨h.wellSorted, h.sort_eq, fun x hx => hM x (h.free x hx), h.apart, fun name hname =>
    hB name (h.binds name hname)⟩

theorem hasSort {Γ : Sorting} (h : Proper M B f s) (hM : ∀ x, M x → Γ x.1 = x.2) : f.HasSort Γ s :=
  h.sort_eq ▸ Sortable.hasSort ⟨h.wellSorted, h.apart, fun x hx => hM x (h.free x hx)⟩

theorem operator (htop : f.TopSorted) (hsort : f.sort = s) (h : ∀ a ∈ f.operands, ∃ s, Proper M B a s)
    (hvar : ∀ name sort, f ≠ .var name sort) (hquant : ∀ kind vars body, f ≠ .quantifier kind vars body) :
    Proper M B f s where
  wellSorted part hpart := by
    rcases (mem_parts_iff_operand hquant).mp hpart with rfl | ⟨a, ha, hpart⟩
    · exact htop
    · obtain ⟨_, hproper⟩ := h a ha
      exact hproper.wellSorted part hpart
  sort_eq := hsort
  free x hx := by
    obtain ⟨a, ha, hx⟩ := (free_iff_operand hvar hquant).mp hx
    obtain ⟨_, hproper⟩ := h a ha
    exact hproper.free x hx
  apart kind vars body hpart := by
    rcases (mem_parts_iff_operand hquant).mp hpart with heq | ⟨a, ha, hpart⟩
    · exact absurd heq.symm (hquant kind vars body)
    · obtain ⟨_, hproper⟩ := h a ha
      exact hproper.apart kind vars body hpart
  binds name hname := by
    obtain ⟨a, ha, hname⟩ := hname.exists_operand hquant
    obtain ⟨_, hproper⟩ := h a ha
    exact hproper.binds name hname

theorem alone (ha : Proper M B a s) : ∀ x ∈ [a], ∃ s, Proper M B x s := forall_mem_singleton.mpr ⟨s, ha⟩

theorem beside {parts : List Formula} (ha : Proper M B a s) (h : ∀ x ∈ parts, ∃ s, Proper M B x s) :
    ∀ x ∈ a :: parts, ∃ s, Proper M B x s := forall_mem_cons.mpr ⟨⟨s, ha⟩, h⟩

theorem bool (value : Bool) : Proper M B (.bool value) .bool :=
  operator trivial rfl nofun nofun nofun

theorem constant (value : Int) (hwidth : 1 ≤ width ∧ width ≤ 64) :
    Proper M B (.constant value width) (.bitVec width) :=
  operator hwidth rfl nofun nofun nofun

theorem var {name : String} {sort : VarSort} (hM : M (name, sort)) (hvalid : sort.Valid) :
    Proper M B (.var name sort) sort where
  wellSorted part hpart := by
    rw [parts, mem_singleton] at hpart
    exact hpart ▸ hvalid
  sort_eq := rfl
  free x hx := by
    cases hx with
    | var => exact hM
    | operand hmem => cases hmem
  apart kind vars body hpart := by
    rw [parts, mem_singleton] at hpart
    cases hpart
  binds name hname := by
    obtain ⟨a, ha, -⟩ := hname.exists_operand fun _ _ _ => Formula.noConfusion
    cases ha

theorem operand (h : Proper M B f s) (ha : a ∈ f.operands) : Proper M B a a.sort where
  wellSorted part hpart := h.wellSorted part (mem_parts_of_operand ha hpart)
  sort_eq := rfl
  free x hx := h.free x (.operand ha hx)
  apart kind vars body hpart := h.apart kind vars body (mem_parts_of_operand ha hpart)
  binds name := fun ⟨part, hpart, hname⟩ => h.binds name ⟨part, mem_parts_of_operand ha hpart, hname⟩

section Connectives

variable (ha : Proper M B a .bool)
include ha

theorem not : Proper M B (.not a) .bool :=
  operator ha.sort_eq rfl ha.alone nofun nofun

theorem negation : Proper M B a.negation .bool := by
  unfold Formula.negation
  split
  · next inner =>
    have hsort : inner.sort = .bool := ha.wellSorted _ (mem_parts_self _)
    exact hsort ▸ ha.operand (by simp [operands])
  · exact ha.not

variable (hb : Proper M B b .bool)
include hb

theorem and : Proper M B (.and [a, b]) .bool :=
  operator (by simp [TopSorted, ha.sort_eq, hb.sort_eq]) rfl (ha.beside hb.alone) nofun nofun

theorem or : Proper M B (.or [a, b]) .bool :=
  operator (by simp [TopSorted, ha.sort_eq, hb.sort_eq]) rfl (ha.beside hb.alone) nofun nofun

theorem xor : Proper M B (.xor a b) .bool :=
  operator ⟨ha.sort_eq, hb.sort_eq⟩ rfl (ha.beside hb.alone) nofun nofun

theorem implies : Proper M B (.implies a b) .bool :=
  operator ⟨ha.sort_eq, hb.sort_eq⟩ rfl (ha.beside hb.alone) nofun nofun

end Connectives

theorem eq (ha : Proper M B a s) (hb : Proper M B b s) : Proper M B (.eq a b) .bool :=
  operator (ha.sort_eq.trans hb.sort_eq.symm) rfl (ha.beside hb.alone) nofun nofun

theorem ite (hc : Proper M B c .bool) (ha : Proper M B a s) (hb : Proper M B b s) :
    Proper M B (.ite c a b) s :=
  operator ⟨hc.sort_eq, ha.sort_eq.trans hb.sort_eq.symm⟩ ha.sort_eq
    (hc.beside (ha.beside hb.alone)) nofun nofun

theorem binary (op : BitOp) (ha : Proper M B a (.bitVec width)) (hb : Proper M B b (.bitVec width)) :
    Proper M B (.binary op a b) (.bitVec width) :=
  operator ⟨width, ha.sort_eq, hb.sort_eq⟩ ha.sort_eq (ha.beside hb.alone) nofun nofun

theorem compare (cmp : BitCmp) (ha : Proper M B a (.bitVec width))
    (hb : Proper M B b (.bitVec width)) : Proper M B (.compare cmp a b) .bool :=
  operator ⟨width, ha.sort_eq, hb.sort_eq⟩ rfl (ha.beside hb.alone) nofun nofun

theorem neg (ha : Proper M B a (.bitVec width)) : Proper M B (.neg a) (.bitVec width) :=
  operator ⟨width, ha.sort_eq⟩ ha.sort_eq ha.alone nofun nofun

theorem bitNot (ha : Proper M B a (.bitVec width)) : Proper M B (.bitNot a) (.bitVec width) :=
  operator ⟨width, ha.sort_eq⟩ ha.sort_eq ha.alone nofun nofun

theorem signExtend {more : Nat} (hshort : width + more ≤ 64) (ha : Proper M B a (.bitVec width)) :
    Proper M B (.signExtend more a) (.bitVec (width + more)) :=
  operator ⟨width, ha.sort_eq, hshort⟩ (by rw [Formula.sort, ha.sort_eq]; rfl) ha.alone nofun nofun

theorem zeroExtend {more : Nat} (hshort : width + more ≤ 64) (ha : Proper M B a (.bitVec width)) :
    Proper M B (.zeroExtend more a) (.bitVec (width + more)) :=
  operator ⟨width, ha.sort_eq, hshort⟩ (by rw [Formula.sort, ha.sort_eq]; rfl) ha.alone nofun nofun

theorem extract {count : Nat} (hcount : 1 ≤ count) (hinside : count ≤ width)
    (ha : Proper M B a (.bitVec width)) : Proper M B (.extract count a) (.bitVec count) :=
  operator ⟨width, ha.sort_eq, hcount, hinside⟩ rfl ha.alone nofun nofun

theorem select (ha : Proper M B a (.array 64 width)) (hb : Proper M B b (.bitVec 64)) :
    Proper M B (.select a b) (.bitVec width) :=
  operator ⟨⟨width, ha.sort_eq⟩, hb.sort_eq⟩ (by rw [Formula.sort, ha.sort_eq])
    (ha.beside hb.alone) nofun nofun

theorem quantifier {B' : String → Prop} {vars : List (String × VarSort)} (kind : QuantifierKind)
    (hbody : Proper M' B' f .bool) (hvalid : ∀ x ∈ vars, x.2.Valid) (hnodup : (vars.map (·.1)).Nodup)
    (hfree : ∀ x, M' x → x ∈ vars ∨ M x ∧ x.1 ∉ vars.map (·.1))
    (hinner : ∀ name, B' name → B name ∧ name ∉ vars.map (·.1)) (hown : ∀ name ∈ vars.map (·.1), B name) :
    Proper M B (.quantifier kind vars f) .bool where
  wellSorted part hpart := by
    rcases mem_parts_quantifier.mp hpart with rfl | hpart
    · refine ⟨hbody.sort_eq, hvalid, fun x hx hbound => ?_⟩
      rcases hfree x (hbody.free x hx) with hmem | ⟨-, hnot⟩
      · exact hmem
      · exact absurd hbound hnot
    · exact hbody.wellSorted part hpart
  sort_eq := rfl
  free x hx := by
    cases hx with
    | operand hmem => cases hmem
    | under hnot hx =>
      rcases hfree x (hbody.free x hx) with hmem | ⟨hM, -⟩
      · exact absurd (mem_map_of_mem hmem) hnot
      · exact hM
  apart kind' vars' body' hpart := by
    rcases mem_parts_quantifier.mp hpart with heq | hpart
    · cases heq
      exact ⟨hnodup, fun name hname hbinds => (hinner name (hbody.binds name hbinds)).2 hname⟩
    · exact hbody.apart kind' vars' body' hpart
  binds name hname := by
    rcases binds_quantifier.mp hname with hname | hname
    · exact hown name hname
    · exact (hinner name (hbody.binds name hname)).1

end Proper

end TagLang.Formula
