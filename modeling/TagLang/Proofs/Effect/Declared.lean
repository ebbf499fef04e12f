import TagLang.Proofs.Effect.Fixpoint

/-! # Declarations bound all effects

A caller trusts what its callees declare and does not look at their bodies. If every function passes
its own check, the declarations are an invariant of the call graph: along any chain of calls, what
the last function does is in the declarations of all functions before it.
-/

namespace TagLang
open List

def EffectFault.exceeds : EffectFault → Bool
  | .undeclared _ _ => true
  | .unknownEffects _ _ => true
  | _ => false

namespace Bound

variable {m : Module} {catalog : Catalog} {f g : Function} {x : Option Effect}

theorem subset_declaredSet_of_errors {found : Findings}
    (h : ∀ e ∈ Effect.errors f found, e.fault.exceeds = false) :
    found.toSet.subset f.declaredSet = true := by
  cases hset : found.toSet with
  | unknown =>
    have herror : Effect.unknownError f found ∈ Effect.errors f found := by
      simp [Effect.errors, hset, EffectSet.isUnknown]
    have := h _ herror
    simp [Effect.unknownError, EffectFault.exceeds] at this
  | known es =>
    refine EffectSet.subset_iff.mpr fun x hx => ?_
    cases x with
    | none => exact hx.elim
    | some e =>
      by_contra hnot
      -- An effect beyond the declaration is reported.
      have hdeclared : f.declaredSet = EffectSet.ofCodes ((Effect.declarations f).map (·.1)) := rfl
      have hexcept : e ∈ (found.toSet.except f.declaredSet).toList := by
        cases hd : f.declaredSet with
        | unknown => simp [hd] at hnot
        | known ds =>
          rw [hd, EffectSet.covers_known_some] at hnot
          simp only [hset, EffectSet.except, EffectSet.toList, mem_filter]
          exact ⟨hx, by simpa using hnot⟩
      have herror : (⟨.undeclared f.name e.render, (found.spanOf? e).getD f.span⟩ : EffectError) ∈
          Effect.errors f found := by
        refine mem_append_right _ ?_
        simp only [hset, EffectSet.isUnknown, Bool.false_eq_true, if_false]
        rw [Effect.knownErrors, ← hdeclared]
        exact mem_append_left _ (mem_map.mpr ⟨e, hset ▸ hexcept, rfl⟩)
      have := h _ herror
      simp [EffectFault.exceeds] at this

/-- The parts that make up all that a function does: what the bodies do that it reaches along any
calls. -/
def Module.TransitivePart (m : Module) (catalog : Catalog) (f : Function) (set : EffectSet) : Prop :=
  ∃ g, Relation.ReflTransGen m.Calls f g ∧ m.Performs catalog g set

section Covered

variable (hids : (m.functions.map (·.id)).Nodup)
  (hok : ∀ e ∈ (analyzeEffects m catalog).errors, e.fault.exceeds = false) (hf : f ∈ m.functions)
  {set : EffectSet}
include hids hok hf

theorem covers_declaredSet_of_contributes (hset : m.Contributes catalog f set) (hx : set.Covers x) :
    f.declaredSet.Covers x := by
  obtain ⟨found, hmem, hunion⟩ := exists_findings hids catalog hf
  have hsub : found.toSet.subset f.declaredSet = true :=
    subset_declaredSet_of_errors fun e he => hok e (mem_flatMap.mpr ⟨(f, found), hmem, he⟩)
  exact EffectSet.subset_iff.mp hsub x ((hunion.covers_iff x).mpr ⟨set, ⟨f, .refl, hset⟩, hx⟩)

theorem covers_declaredSet_of_calls (hcall : m.Calls f g) (hx : g.declaredSet.Covers x) :
    f.declaredSet.Covers x := by
  by_cases hd : g.declaredEffects = none
  · have hempty : g.declaredSet = .empty := by
      rw [Function.declaredSet, hd]
      rfl
    exact absurd (hempty ▸ hx) (EffectSet.not_covers_empty x)
  · exact covers_declaredSet_of_contributes hids hok hf (Or.inr ⟨g, hcall, hd, rfl⟩) hx

theorem covers_declaredSet_of_transitivePart (hset : m.TransitivePart catalog f set)
    (hx : set.Covers x) : f.declaredSet.Covers x := by
  obtain ⟨g, hfg, hperforms⟩ := hset
  induction hfg using Relation.ReflTransGen.head_induction_on with
  | refl => exact covers_declaredSet_of_contributes hids hok hf (Or.inl hperforms) hx
  | head hcall _ ih =>
    obtain ⟨n, id, hn, hc, hk⟩ := hcall
    exact covers_declaredSet_of_calls hids hok hf ⟨n, id, hn, hc, hk⟩ (ih (mem_of_function? hk))

end Covered

theorem canonical_declaredSet (f : Function) : f.declaredSet.Canonical := EffectSet.canonical_ofEffects _

theorem exists_isUnion_of_covered {parts : EffectSet → Prop} {es : List Effect} (hes : Effect.Ordered es)
    (h : ∀ part, parts part → ∀ x, part.Covers x → (EffectSet.known es).Covers x) :
    ∃ set, EffectSet.IsUnion parts set := by
  classical
  refine ⟨.known (es.filter fun e => ∃ part, parts part ∧ part.Covers (some e)), ?_, fun x => ?_⟩
  · exact List.Pairwise.filter _ hes
  · cases x with
    | none =>
      constructor
      · exact False.elim
      · rintro ⟨part, hpart, hx⟩
        exact h part hpart none hx
    | some e =>
      simp only [EffectSet.covers_known_some, mem_filter, decide_eq_true_eq]
      constructor
      · exact fun he => he.2
      · rintro ⟨part, hpart, hx⟩
        exact ⟨h part hpart (some e) hx, part, hpart, hx⟩

/-- If no function exceeds its declaration, then all that a function does, through any chain of
calls and without regard to the declarations on the way, is contained in what it declares. -/
theorem transitive_effects_declared (m : Module) (catalog : Catalog)
    (hids : (m.functions.map (·.id)).Nodup)
    (hok : ∀ e ∈ (analyzeEffects m catalog).errors, e.fault.exceeds = false) (f : Function)
    (hf : f ∈ m.functions) :
    ∃ set, EffectSet.IsUnion (m.TransitivePart catalog f) set ∧ set.subset f.declaredSet = true := by
  have hcovered : ∀ part, m.TransitivePart catalog f part → ∀ x, part.Covers x → f.declaredSet.Covers x :=
    fun part hpart x hx => covers_declaredSet_of_transitivePart hids hok hf hpart hx
  obtain ⟨set, hunion⟩ : ∃ set, EffectSet.IsUnion (m.TransitivePart catalog f) set :=
    exists_isUnion_of_covered (canonical_declaredSet f) hcovered
  refine ⟨set, hunion, EffectSet.subset_iff.mpr fun x hx => ?_⟩
  obtain ⟨part, hpart, hpx⟩ := (hunion.covers_iff x).mp hx
  exact hcovered part hpart x hpx

def guarded : Function :=
  { (default : Function) with
    id := "guarded"
    declaredEffects := some [("throw", .nowhere)]
    body := [.raise (.mk .null .null .nowhere) .nowhere, callStmt "caller"] }

def caller : Function :=
  { (default : Function) with
    id := "caller"
    declaredEffects := some [("oops", .nowhere), ("throw", .nowhere)]
    body := [callStmt "guarded"] }

theorem transitive_effects_declared_caller :
    let m : Module := { (default : Module) with functions := [caller, guarded] }
    (∀ e ∈ (analyzeEffects m {}).errors, e.fault.exceeds = false) ∧
      m.TransitivePart {} caller (.known [.throwing]) ∧ caller.declaredSet = .known [.throwing] ∧
      ∃ set, EffectSet.IsUnion (m.TransitivePart {} caller) set ∧
        set.subset caller.declaredSet = true := by
  intro m
  have hids : (m.functions.map (·.id)).Nodup := by decide
  have hok : ∀ e ∈ (analyzeEffects m {}).errors, e.fault.exceeds = false := by decide
  have hcall : m.Calls caller guarded :=
    ⟨_, "guarded", ⟨_, mem_singleton_self _, .single (mem_singleton_self _)⟩,
      .function _ _ _ _ _ _ _, rfl⟩
  have hraise : m.Performs {} guarded (.known [.throwing]) :=
    .primitive ⟨_, mem_cons_self, .refl⟩ (.raise _ _)
  exact ⟨hok, ⟨guarded, .single hcall, hraise⟩, by decide,
    transitive_effects_declared m {} hids hok caller mem_cons_self⟩

end Bound

end TagLang
