import TagLang.Logic.Eval
import TagLang.Proofs.Logic.WellSorted
import TagLang.Proofs.Logic.Word
import TagLang.Proofs.Table

/-! # Evaluation gives the meaning

Where the evaluation of a well-sorted formula ends with a value, the value represents what the
formula means. Parts that were left out do not matter, and a quantifier that was decided from
samples has its meaning over the whole domain.
-/

namespace TagLang
open List

theorem bind_eq_ok {ε α β : Type} {x : Except ε α} {f : α → Except ε β} {b : β} :
    x >>= f = .ok b ↔ ∃ a, x = .ok a ∧ f a = .ok b := by
  cases x <;> simp [Bind.bind, Except.bind]

theorem pure_eq_ok {ε α : Type} {a b : α} : (pure a : Except ε α) = .ok b ↔ a = b := by
  simp [pure, Except.pure]

/-- A stored value of a sort and what it stands for. No bit beyond the width is set. -/
inductive Represents : VarSort → BitValue → Denotation → Prop
  | bool (b : Bool) : Represents .bool (.bool b) (.bool b)
  | bits {word : UInt64} {width : Nat} (valid : 1 ≤ width ∧ width ≤ 64)
    (fits : Bits.Fits word width) :
    Represents (.bitVec width) (.bits word width) (.bits width (Bits.low word width))

namespace Represents

variable {s : VarSort} {v w : BitValue} {x y : Denotation}

theorem bool_iff {b : Bool} : Represents .bool (.bool b) x ↔ x = .bool b := by
  constructor
  · rintro ⟨⟩
    rfl
  · rintro rfl
    exact .bool b

theorem sort_eq (h : Represents s v x) : x.sort = s := by
  cases h <;> rfl

theorem of_asBool {b : Bool} (h : Represents .bool v x) (hb : v.asBool = .ok b) : x = .bool b := by
  cases h with
  | bool c =>
    cases hb
    rfl

theorem of_asBits {width : Nat} {read : UInt64 × Nat} (h : Represents (.bitVec width) v x)
    (hb : v.asBits = .ok read) :
    read.2 = width ∧ (1 ≤ width ∧ width ≤ 64) ∧ Bits.Fits read.1 width ∧
      x = .bits width (Bits.low read.1 width) := by
  cases h with
  | bits valid fits =>
    cases hb
    exact ⟨rfl, valid, fits, rfl⟩

theorem ofBits (word : UInt64) {width : Nat} (valid : 1 ≤ width ∧ width ≤ 64) :
    Represents (.bitVec width) (.ofBits word width) (.bits width (Bits.low word width)) := by
  rw [← Bits.low_and_mask word valid.2]
  exact .bits valid (Bits.fits_and_mask word valid.2)

theorem eq_iff (hv : Represents s v x) (hw : Represents s w y) : v = w ↔ x = y := by
  cases hv with
  | bool b =>
    cases hw with
    | bool c => simp
  | bits valid fits =>
    cases hw with
    | bits _ fits' => simp [Bits.low_inj fits fits']

end Represents

def Agrees (Γ : Sorting) (env : Assignment) (ρ : Valuation) : Prop :=
  ∀ name v, env.lookup name = some v → Represents (Γ name) v (ρ name)

/-- A name that evaluation looks up: that of a free variable which is no array. -/
def Formula.Reads (f : Formula) (name : String) : Prop :=
  ∃ sort, Free f (name, sort) ∧ sort.isArray = false

def AgreesOn (K : String → Prop) (Γ : Sorting) (env : Assignment) (ρ : Valuation) : Prop :=
  ∀ name, K name → ∀ v, env.lookup name = some v → Represents (Γ name) v (ρ name)

theorem AgreesOn.cons {K K' : String → Prop} {Γ : Sorting} {env : Assignment} {ρ : Valuation}
    (h : AgreesOn K Γ env ρ) (name : String) (hK : ∀ other, other ≠ name → K' other → K other)
    {sort : VarSort} {v : BitValue} {x : Denotation} (hx : Represents sort v x) :
    AgreesOn K' (Function.update Γ name sort) ((name, v) :: env) (Function.update ρ name x) := by
  intro other hother w hw
  rw [Table.lookup_cons_ite] at hw
  split at hw
  · next he =>
    cases hw
    subst he
    simpa using hx
  · next he =>
    rw [Function.update_of_ne he, Function.update_of_ne he]
    exact h other (hK other he hother) w hw

theorem AgreesOn.operand {f part : Formula} {Γ : Sorting} {env : Assignment} {ρ : Valuation}
    (h : AgreesOn f.Reads Γ env ρ) (hpart : part ∈ f.operands := by simp [Formula.operands]) :
    AgreesOn part.Reads Γ env ρ :=
  fun name ⟨sort, hfree, harray⟩ => h name ⟨sort, .operand hpart hfree, harray⟩

namespace VarSort

variable {s : VarSort} {values : List BitValue}

theorem represents_of_mem_domain (hs : s.Valid) (hd : s.domain? = some values) {v : BitValue}
    (hv : v ∈ values) : ∃ x, Represents s v x := by
  cases s with
  | bool =>
    simp only [domain?, Option.some.injEq] at hd
    subst hd
    simp only [mem_cons, not_mem_nil, or_false] at hv
    rcases hv with rfl | rfl <;> exact ⟨_, .bool _⟩
  | bitVec width =>
    simp only [domain?] at hd
    split at hd
    · cases hd
      obtain ⟨n, _, rfl⟩ := mem_map.mp hv
      exact ⟨_, .ofBits _ hs⟩
    · cases hd
  | array index element => simp [domain?] at hd

theorem exists_mem_domain (hs : s.Valid) (hd : s.domain? = some values) {x : Denotation}
    (hx : x.sort = s) : ∃ v ∈ values, Represents s v x := by
  cases s with
  | bool =>
    simp only [domain?, Option.some.injEq] at hd
    obtain ⟨b, rfl⟩ := Denotation.eq_bool_of_sort hx
    refine ⟨.bool b, ?_, .bool b⟩
    cases b <;> simp [← hd]
  | bitVec width =>
    simp only [domain?] at hd
    split at hd
    · cases hd
      obtain ⟨b, rfl⟩ := Denotation.eq_bits_of_sort hx
      have hlow : Bits.low (.ofNat b.toNat) width = b := by
        apply BitVec.eq_of_toNat_eq
        have hlt : b.toNat < 2 ^ 64 :=
          lt_of_lt_of_le b.isLt (Nat.pow_le_pow_right (by decide) hs.2)
        rw [Bits.toNat_low, UInt64.toNat_ofNat_of_lt' hlt, Nat.mod_eq_of_lt b.isLt]
      refine ⟨_, mem_map.mpr ⟨b.toNat, mem_range.mpr b.isLt, rfl⟩, ?_⟩
      have hrep := Represents.ofBits (.ofNat b.toNat) hs
      rwa [hlow] at hrep
    · cases hd
  | array index element => simp [domain?] at hd

theorem samples_spec (hs : s.Valid) {complete : Bool} (h : s.samples = .ok (values, complete)) :
    (∀ v ∈ values, ∃ x, Represents s v x) ∧
      (complete = true → ∀ x : Denotation, x.sort = s → ∃ v ∈ values, Represents s v x) := by
  have hfull (hd : s.domain? = some values) : (∀ v ∈ values, ∃ x, Represents s v x) ∧
      (complete = true → ∀ x : Denotation, x.sort = s → ∃ v ∈ values, Represents s v x) :=
    ⟨fun _ hv => represents_of_mem_domain hs hd hv, fun _ _ hx => exists_mem_domain hs hd hx⟩
  cases s with
  | bool =>
    simp only [samples, Except.ok.injEq, Prod.mk.injEq] at h
    exact hfull (by rw [← h.1]; rfl)
  | bitVec width =>
    rw [samples] at h
    split at h
    · next hd =>
      simp only [Except.ok.injEq, Prod.mk.injEq] at h
      exact hfull (by rw [hd, h.1])
    · simp only [Except.ok.injEq, Prod.mk.injEq] at h
      obtain ⟨rfl, rfl⟩ := h
      refine ⟨fun v hv => ?_, by simp⟩
      obtain ⟨word, _, rfl⟩ := mem_map.mp hv
      exact ⟨_, .ofBits word hs⟩
  | array index element => simp [samples] at h

end VarSort

namespace Formula

section Quantifier

variable {universal undecided : Bool} {body : BitValue → Except EvalError BitValue}
  {values : List BitValue}

theorem eq_bool_of_asBool {r : BitValue} {b : Bool} (h : r.asBool = .ok b) : r = .bool b := by
  cases r with
  | bool => exact congrArg _ (Except.ok.inj h)
  | bits => cases h

theorem tryValues_witness (h : tryValues universal body undecided values = .ok none) :
    ∃ v ∈ values, body v = .ok (.bool (!universal)) := by
  fun_induction tryValues universal body undecided values with
  | case1 | case4 | case6 => cases h
  | case2 _ v vs r hr hb ih | case5 _ v vs hr ih =>
    obtain ⟨w, hw, hbody⟩ := ih h
    exact ⟨w, mem_cons_of_mem _ hw, hbody⟩
  | case3 _ v vs r hr b hb hne =>
    exact ⟨v, mem_cons_self, by rw [hr, eq_bool_of_asBool hb, Bool.eq_not_of_ne hne]⟩

theorem tryValues_all (h : tryValues universal body undecided values = .ok (some false)) :
    undecided = false ∧ ∀ v ∈ values, body v = .ok (.bool universal) := by
  fun_induction tryValues universal body undecided values with
  | case1 =>
    simp only [Except.ok.injEq, Option.some.injEq] at h
    exact ⟨h, forall_mem_nil _⟩
  | case2 _ v vs r hr hb ih =>
    obtain ⟨hu, hall⟩ := ih h
    exact ⟨hu, forall_mem_cons.mpr ⟨by rw [hr, eq_bool_of_asBool hb], hall⟩⟩
  | case5 _ v vs hr ih => exact absurd (ih h).1 (by decide)
  | case3 | case4 | case6 => cases h

/-- A quantifier that finds a witness has it among the values of the sort, and one that goes through
all of a full domain has seen every value. -/
theorem quantify_represents (kind : QuantifierKind) {body : Assignment → Except EvalError BitValue}
    {meaning : Valuation → Denotation} {vars : List (String × VarSort)} {Γ : Sorting} {K : String → Prop}
    (hvalid : ∀ x ∈ vars, x.2.Valid)
    (hbody : ∀ {env ρ v}, AgreesOn K (Sorting.extend Γ vars) env ρ → body env = .ok v →
      Represents .bool v (meaning ρ))
    {env : Assignment} {ρ : Valuation} {v : BitValue}
    (hagree : AgreesOn (fun name => name ∉ vars.map (·.1) ∧ K name) Γ env ρ)
    (h : quantify (kind = .universal) body vars env = .ok v) :
    Represents .bool v (denoteQuantifier kind meaning vars ρ) := by
  induction vars generalizing Γ env ρ v with
  | nil => exact hbody (fun name hname => hagree name ⟨not_mem_nil, hname⟩) h
  | cons binder vars ih =>
    obtain ⟨name, sort⟩ := binder
    have hnames (other : String) (hne : other ≠ name) (h : other ∉ vars.map (·.1) ∧ K other) :
        other ∉ ((name, sort) :: vars).map (·.1) ∧ K other := ⟨by simpa [hne] using h.1, h.2⟩
    have hsort : sort.Valid := hvalid (name, sort) mem_cons_self
    simp only [quantify, bind_eq_ok] at h
    obtain ⟨⟨values, complete⟩, hsamples, tried, htried, h⟩ := h
    obtain ⟨hmem, hall⟩ := VarSort.samples_spec hsort hsamples
    have hinner {w : BitValue} {x : Denotation} (hx : Represents sort w x) {b : Bool}
        (hw : quantify (kind = .universal) body vars ((name, w) :: env) = .ok (.bool b)) :
        denoteQuantifier kind meaning vars (Function.update ρ name x) = .bool b :=
      Represents.bool_iff.mp
        (ih (fun y hy => hvalid y (mem_cons_of_mem _ hy)) hbody (hagree.cons name hnames hx) hw)
    cases tried with
    | none =>
      obtain ⟨w, hw, hbad⟩ := tryValues_witness htried
      obtain ⟨x, hx⟩ := hmem w hw
      rw [pure_eq_ok] at h
      subst h
      rw [← decide_not] at hbad ⊢
      exact Represents.bool_iff.mpr (denoteQuantifier_of_witness _ _ _ _ _ hx.sort_eq (hinner hx hbad))
    | some undecided =>
      simp only [Bool.and_eq_true, Bool.not_eq_eq_eq_not, Bool.not_true] at h
      split at h
      · next hfull =>
        obtain ⟨hcomplete, rfl⟩ := hfull
        obtain ⟨-, hsame⟩ := tryValues_all htried
        rw [pure_eq_ok] at h
        subst h
        refine Represents.bool_iff.mpr (denoteQuantifier_of_forall _ _ _ _ _ fun x hx => ?_)
        obtain ⟨w, hw, hrep⟩ := hall hcomplete x hx
        exact hinner hrep (hsame w hw)
      · cases h

end Quantifier

section Connectives

variable {env : Assignment} {ρ : Valuation} {parts : List Formula} {b : Bool}

theorem allHold_eq
    (hparts : ∀ part ∈ parts, ∀ {v}, part.eval env = .ok v → Represents .bool v (part.denote ρ))
    (h : allHold env parts = .ok b) : (denoteAll ρ parts).all Denotation.isTrue = b := by
  induction parts with
  | nil =>
    simp only [allHold, Except.ok.injEq] at h
    simpa [denoteAll] using h
  | cons f fs ih =>
    simp only [allHold, bind_eq_ok] at h
    obtain ⟨v, hv, c, hc, h⟩ := h
    have hf : f.denote ρ = .bool c := (hparts f mem_cons_self hv).of_asBool hc
    rw [denoteAll, all_cons, hf, Denotation.isTrue]
    cases c with
    | false =>
      simp only [Bool.false_eq_true, if_false, pure_eq_ok] at h
      rw [Bool.false_and, h]
    | true => rw [Bool.true_and, ih (fun part hp => hparts part (mem_cons_of_mem _ hp)) h]

theorem anyHolds_eq
    (hparts : ∀ part ∈ parts, ∀ {v}, part.eval env = .ok v → Represents .bool v (part.denote ρ))
    (h : anyHolds env parts = .ok b) : (denoteAll ρ parts).any Denotation.isTrue = b := by
  induction parts with
  | nil =>
    simp only [anyHolds, Except.ok.injEq] at h
    simpa [denoteAll] using h
  | cons f fs ih =>
    simp only [anyHolds, bind_eq_ok] at h
    obtain ⟨v, hv, c, hc, h⟩ := h
    have hf : f.denote ρ = .bool c := (hparts f mem_cons_self hv).of_asBool hc
    rw [denoteAll, any_cons, hf, Denotation.isTrue]
    cases c with
    | false => rw [Bool.false_or, ih (fun part hp => hparts part (mem_cons_of_mem _ hp)) h]
    | true =>
      simp only [if_true, pure_eq_ok] at h
      rw [Bool.true_or, h]

end Connectives

theorem HasSort.eval_represents {Γ : Sorting} {f : Formula} {s : VarSort} (hf : HasSort Γ f s)
    {env : Assignment} {ρ : Valuation} {v : BitValue} (hagree : AgreesOn f.Reads Γ env ρ)
    (h : f.eval env = .ok v) : Represents s v (f.denote ρ) := by
  induction hf generalizing env ρ v with simp only [eval, bind_eq_ok, pure_eq_ok] at h
  | bool value =>
    cases h
    exact .bool value
  | const bits valid =>
    cases h
    exact .ofBits bits valid
  | @var _ name sort given valid =>
    split at h
    · cases h
    · next harray =>
      split at h
      · next w hw =>
        cases h
        rw [← given, denote]
        exact hagree name ⟨sort, .var name sort, by simpa using harray⟩ _ hw
      · cases h
  | not _ ih =>
    obtain ⟨w, hw, b, hb, rfl⟩ := h
    rw [denote, (ih hagree.operand hw).of_asBool hb]
    exact .bool _
  | and _ ih =>
    obtain ⟨b, hb, rfl⟩ := h
    rw [denote, allHold_eq (fun part hp _ => ih part hp (hagree.operand hp)) hb]
    exact .bool _
  | or _ ih =>
    obtain ⟨b, hb, rfl⟩ := h
    rw [denote, anyHolds_eq (fun part hp _ => ih part hp (hagree.operand hp)) hb]
    exact .bool _
  | xor _ _ iha ihb =>
    obtain ⟨wa, hwa, a, ha, wb, hwb, b, hb, rfl⟩ := h
    rw [denote, (iha hagree.operand hwa).of_asBool ha, (ihb hagree.operand hwb).of_asBool hb]
    exact .bool _
  | implies _ _ iha ihb =>
    obtain ⟨wa, hwa, a, ha, h⟩ := h
    rw [denote, (iha hagree.operand hwa).of_asBool ha]
    cases a with
    | false =>
      simp only [Bool.false_eq_true, if_false, pure_eq_ok] at h
      subst h
      exact .bool _
    | true =>
      simp only [if_true, bind_eq_ok, pure_eq_ok] at h
      obtain ⟨wb, hwb, b, hb, rfl⟩ := h
      rw [(ihb hagree.operand hwb).of_asBool hb]
      exact .bool _
  | eq _ _ iha ihb =>
    obtain ⟨wa, hwa, wb, hwb, rfl⟩ := h
    have hiff := (iha hagree.operand hwa).eq_iff (ihb hagree.operand hwb)
    rw [denote, Represents.bool_iff, Denotation.bool.injEq, show (wa == wb) = decide (wa = wb) from rfl,
      decide_eq_decide]
    exact hiff.symm
  | ite _ _ _ ihc iha ihb =>
    obtain ⟨wc, hwc, c, hc, h⟩ := h
    rw [denote, (ihc hagree.operand hwc).of_asBool hc]
    cases c with
    | false => exact ihb hagree.operand h
    | true => exact iha hagree.operand h
  | binary op _ _ iha ihb =>
    obtain ⟨wa, hwa, a, ha, wb, hwb, b, hb, rfl⟩ := h
    obtain ⟨hwidth, valid, hfa, hda⟩ := (iha hagree.operand hwa).of_asBits ha
    obtain ⟨-, -, hfb, hdb⟩ := (ihb hagree.operand hwb).of_asBits hb
    rw [denote, hda, hdb, Denotation.onPair_bits, ← op.low_apply valid.1 valid.2 hfa hfb, hwidth]
    exact .ofBits _ valid
  | compare cmp _ _ iha ihb =>
    obtain ⟨wa, hwa, a, ha, wb, hwb, b, hb, rfl⟩ := h
    obtain ⟨hwidth, valid, hfa, hda⟩ := (iha hagree.operand hwa).of_asBits ha
    obtain ⟨-, -, hfb, hdb⟩ := (ihb hagree.operand hwb).of_asBits hb
    rw [denote, hda, hdb, Denotation.onPair_bits, ← cmp.holds_eq_denote valid.1 valid.2 hfa hfb, hwidth]
    exact .bool _
  | neg _ ih =>
    obtain ⟨w, hw, a, ha, rfl⟩ := h
    obtain ⟨hwidth, valid, -, hd⟩ := (ih hagree.operand hw).of_asBits ha
    rw [denote, hd, Denotation.onBits, ← Bits.low_neg _ valid.2, hwidth]
    exact .ofBits _ valid
  | bitNot _ ih =>
    obtain ⟨w, hw, a, ha, rfl⟩ := h
    obtain ⟨hwidth, valid, -, hd⟩ := (ih hagree.operand hw).of_asBits ha
    rw [denote, hd, Denotation.onBits, ← Bits.low_not _ valid.2, hwidth]
    exact .ofBits _ valid
  | signExtend short _ ih =>
    obtain ⟨w, hw, a, ha, rfl⟩ := h
    obtain ⟨hwidth, valid, -, hd⟩ := (ih hagree.operand hw).of_asBits ha
    rw [denote, hd, Denotation.onBits, ← Bits.low_signExtend _ valid.1 short, hwidth]
    exact .ofBits _ ⟨by omega, short⟩
  | zeroExtend short _ ih =>
    obtain ⟨w, hw, a, ha, rfl⟩ := h
    obtain ⟨hwidth, valid, hfits, hd⟩ := (ih hagree.operand hw).of_asBits ha
    rw [denote, hd, Denotation.onBits, ← Bits.low_zeroExtend hfits, hwidth]
    exact .ofBits _ ⟨by omega, short⟩
  | extract some inside _ ih =>
    obtain ⟨w, hw, a, ha, rfl⟩ := h
    obtain ⟨hwidth, valid, -, hd⟩ := (ih hagree.operand hw).of_asBits ha
    rw [denote, hd, Denotation.onBits, ← Bits.low_extract _ inside]
    exact .ofBits _ ⟨some, by omega⟩
  | select => cases h
  | quantifier kind valid _ ih =>
    refine quantify_represents kind valid ih (fun name hname => hagree name ?_) h
    obtain ⟨hbound, sort, hfree, harray⟩ := hname
    exact ⟨sort, .under hbound hfree, harray⟩

theorem HasSort.denote_of_eval {Γ : Sorting} {f : Formula} (hf : HasSort Γ f .bool)
    {env : Assignment} {ρ : Valuation} {b : Bool} (hagree : Agrees Γ env ρ)
    (h : (f.eval env).bind BitValue.asBool = .ok b) : f.denote ρ = .bool b := by
  obtain ⟨v, hv, hb⟩ := bind_eq_ok.mp h
  exact (hf.eval_represents (fun name _ => hagree name) hv).of_asBool hb

end Formula

end TagLang
