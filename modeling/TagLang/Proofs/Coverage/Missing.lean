import TagLang.Proofs.Binding.Scoping
import TagLang.Proofs.Coverage.Exhaustive

/-! # The cases that a match lacks

If no arm without a guard looks further than the outermost constructor, a match is reported exactly
if some value falls through it. The report names the constructors of these values, in their order
and each once.
-/

namespace TagLang
open List

def PatternError.isNonExhaustive (e : PatternError) : Bool :=
  match e.fault with
  | .nonExhaustive _ _ => true
  | _ => false

namespace Coverage

variable {r : Registry} {w : Bound.Match} {v : Value} {c : Constructor} {m : Module} {out : BindOutput}

def FallsThrough (r : Registry) (w : Bound.Match) (v : Value) : Prop :=
  HasType r v w.target.ty ∧ ∀ p ∈ unguarded w, p.takes v = false

def lackingConstructors (r : Registry) (w : Bound.Match) : List Constructor :=
  (constructors r w.target.ty).filter fun c => !(unguarded w).any c.test

theorem missing_eq :
    missing r w.target.ty (unguarded w) = (lackingConstructors r w).map Constructor.text := by
  rw [missing, cases_eq, filter_map, map_map]
  rfl

theorem mem_lackingConstructors_iff (hclosed : r.isClosed w.target.ty = true)
    (hpayloads : ∀ t ∈ payloads r w.target.ty, ∃ v, HasType r v t)
    (hshallow : ∀ p ∈ unguarded w, p.isShallow = true)
    (hcatch : (unguarded w).any Bound.Pattern.isCatchAll = false) :
    c ∈ lackingConstructors r w ↔ ∃ v, FallsThrough r w v ∧ v.constructor? = some c := by
  have htest (v : Value) (hv : v.constructor? = some c) (p : Bound.Pattern) (hp : p ∈ unguarded w) :
      c.test p = p.takes v := by
    have hspecific : p.isCatchAll = false := by simpa using any_eq_false.mp hcatch p hp
    rw [Bound.Pattern.takes_eq_fits (hshallow p hp)]
    exact heads_case hv p hspecific
  have huntested : c ∈ lackingConstructors r w ↔ c ∈ constructors r w.target.ty ∧ ∀ p ∈ unguarded w,
      c.test p = false := by
    simp [lackingConstructors]
  rw [huntested]
  constructor
  · rintro ⟨hc, hnone⟩
    obtain ⟨v, hv, hvc⟩ := exists_constructed hpayloads hc
    refine ⟨v, ⟨hv, ?_⟩, hvc⟩
    intro p hp
    rw [← htest v hvc p hp, hnone p hp]
  · rintro ⟨v, ⟨hv, hnone⟩, hvc⟩
    obtain ⟨c', hc', hvc'⟩ := exists_constructor hclosed hv
    cases hvc.symm.trans hvc'
    refine ⟨hc', ?_⟩
    intro p hp
    rw [htest v hvc p hp, hnone p hp]

theorem reported_iff_exists_fallsThrough (hclosed : r.isClosed w.target.ty = true)
    (hpayloads : ∀ t ∈ payloads r w.target.ty, ∃ v, HasType r v t)
    (hshallow : ∀ p ∈ unguarded w, p.isShallow = true) : Reported r w ↔ ∃ v, FallsThrough r w v := by
  constructor
  · intro hreported
    obtain ⟨v, hv, hunfit⟩ := exists_unfit hpayloads hreported
    refine ⟨v, hv, ?_⟩
    intro p hp
    rw [Bound.Pattern.takes_eq_fits (hshallow p hp), hunfit p hp]
  · rintro ⟨v, hv, hnone⟩
    by_contra hreported
    obtain ⟨p, hp, hfits⟩ := exists_fits hclosed hreported hv
    rw [← Bound.Pattern.takes_eq_fits (hshallow p hp), hnone p hp] at hfits
    cases hfits

theorem countP_nonExhaustive_le_one (r : Registry) (w : Bound.Match) :
    (ofMatch r w).countP PatternError.isNonExhaustive ≤ 1 := by
  have hdead : (deadArms none [] (unguarded w)).countP PatternError.isNonExhaustive = 0 := by
    rw [countP_eq_zero]
    rintro ⟨fault, span⟩ he hkind
    cases fault with
    | nonExhaustive lacking b => exact nonExhaustive_notMem_deadArms none [] (unguarded w) he
    | unreachable | duplicate => cases hkind
  unfold ofMatch
  dsimp only
  rw [countP_append, hdead, Nat.zero_add]
  generalize (if (unguarded w).any Bound.Pattern.isCatchAll then _ else _ : List String) = lacking
  split
  · simp
  · exact countP_le_length

theorem constructors_named (hbind : bind m = .ok out) {owner : String} {args : List Ty}
    (hclosed : out.module.registry.isClosed (.named owner args) = true) :
    ∃ d ∈ m.sums, d.name = owner ∧
      (constructors out.module.registry (.named owner args)).Sublist
        (d.variants.map fun v => .ofVariant owner v.info) := by
  rw [Module.registry_of_bind hbind] at hclosed ⊢
  obtain ⟨infos, hinfos⟩ := Option.isSome_iff_exists.mp hclosed
  obtain ⟨before, d, after, hsums, hname, rfl, -⟩ := Module.exists_sum hinfos
  refine ⟨d, by simp [hsums], hname, ?_⟩
  have hvariants := (firstVariants_sublist [] d.variants).map (Constructor.ofVariant owner)
  rw [map_map] at hvariants
  rw [constructors, hinfos]
  exact hvariants

theorem nodup_constructors (hbind : bind m = .ok out) (ty : Ty) :
    (constructors out.module.registry ty).Nodup := by
  cases ty with
  | named owner args =>
    rw [Module.registry_of_bind hbind, constructors]
    cases hinfos : m.declared.registry.sumTypes.get? owner with
    | none => exact nodup_nil
    | some infos =>
      obtain ⟨before, d, after, -, -, rfl, -⟩ := Module.exists_sum hinfos
      -- Two variants with the same constructor have the same name.
      have hnames : (d.infos.map (·.name)).Nodup := nodup_names_firstVariants [] d.variants
      rw [Option.getD_some]
      refine (hnames.of_map _).map_on fun a ha b hb heq => inj_on_of_nodup_map hnames ha hb ?_
      injection heq
  | option | result | bool => simp [constructors]
  | _ => exact nodup_nil

/-- A match whose arms without a guard look no further than the outermost constructor is reported
exactly if some value falls through, and once at most. A report names exactly the constructors of
the values that fall through, each once and in their order, which for a sum type is that of the
declaration. The reports of the matches in bodies are given out. -/
theorem shallow_match_exact (hbind : bind m = .ok out)
    (hclosed : out.module.registry.isClosed w.target.ty = true)
    (hpayloads : ∀ t ∈ payloads out.module.registry w.target.ty, ∃ v, HasType out.module.registry v t)
    (hshallow : ∀ p ∈ unguarded w, p.isShallow = true) :
    (Reported out.module.registry w ↔ ∃ v, FallsThrough out.module.registry w v) ∧
    (ofMatch out.module.registry w).countP PatternError.isNonExhaustive ≤ 1 ∧
    (∀ lacking b span, ⟨.nonExhaustive lacking b, span⟩ ∈ ofMatch out.module.registry w →
      ∃ cs : List Constructor, lacking = cs.map Constructor.text ∧ cs.Nodup ∧
        cs.Sublist (constructors out.module.registry w.target.ty) ∧
        ∀ c, c ∈ cs ↔ ∃ v, FallsThrough out.module.registry w v ∧ v.constructor? = some c) ∧
    (∀ owner args, w.target.ty = .named owner args → ∃ d ∈ m.sums, d.name = owner ∧
      (constructors out.module.registry w.target.ty).Sublist
        (d.variants.map fun v => .ofVariant owner v.info)) ∧
    ∀ f ∈ out.module.functions, Bound.MatchOccurs f.body w →
      ∀ e ∈ ofMatch out.module.registry w, e ∈ checkMatches out.module := by
  refine ⟨reported_iff_exists_fallsThrough hclosed hpayloads hshallow,
    countP_nonExhaustive_le_one _ w, ?_, ?_, ?_⟩
  · intro lacking b span hmem
    obtain ⟨hcatch, rfl, -⟩ := nonExhaustive_mem_ofMatch_iff.mp hmem
    have hsublist : (lackingConstructors out.module.registry w).Sublist
        (constructors out.module.registry w.target.ty) :=
      filter_sublist
    refine ⟨lackingConstructors out.module.registry w, missing_eq, ?_, hsublist, ?_⟩
    · exact hsublist.nodup (nodup_constructors hbind _)
    · intro c
      exact mem_lackingConstructors_iff hclosed hpayloads hshallow hcatch
  · intro owner args hty
    rw [hty] at hclosed ⊢
    exact constructors_named hbind hclosed
  · intro f hf hw e he
    exact mem_checkMatches_iff.mpr ⟨f, hf, w, hw, he⟩

/-- Takes one of three variants without a guard, and another one with a guard. -/
def shapeSource : String :=
  "§M\x7bm1:T\x7d\n§UN\x7bu1:Shape\x7d §V\x7bCircle:i32\x7d §V\x7bDot\x7d §V\x7bSquare\x7d §/UN\x7bu1\x7d\n" ++
  "§F\x7bf1:area\x7d\n§I\x7bShape:s\x7d\n§O\x7bi32\x7d\n" ++
  "§R §W\x7bw1\x7d s §K Square §WHEN true → 2 §K Dot → 1 §/W\x7bw1\x7d\n§/F\x7bf1\x7d\n§/M\x7bm1\x7d\n"

set_option maxRecDepth 100000 in
theorem coverage_shapeSource :
    (cleanFront? shapeSource).bind (fun (_, out) => out.module.functions.head?.bind fun f =>
      (Matches.stmts f.body).head?.map fun w =>
        ((ofMatch out.module.registry w).map (·.fault), payloads out.module.registry w.target.ty,
          (unguarded w).map (·.isShallow), out.module.registry.isClosed w.target.ty)) =
    some ([.nonExhaustive ["Circle(_)", "Square"] true], [.int 32 true], [true], true) := by
  decide +kernel

theorem shallow_match_exact_shapes : ∃ tree out f w, CleanFront shapeSource tree out ∧
    f ∈ out.module.functions ∧ Bound.MatchOccurs f.body w ∧
    (∃ span, ⟨.nonExhaustive ["Circle(_)", "Square"] true, span⟩ ∈ checkMatches out.module) ∧
    (∃ v, FallsThrough out.module.registry w v) ∧
    ∃ cs : List Constructor, ["Circle(_)", "Square"] = cs.map Constructor.text ∧ cs.Nodup ∧
      ∀ c, c ∈ cs ↔ ∃ v, FallsThrough out.module.registry w v ∧ v.constructor? = some c := by
  obtain ⟨⟨tree, out⟩, hfront, hout⟩ := Option.bind_eq_some_iff.mp coverage_shapeSource
  obtain ⟨f, hf, hout⟩ := Option.bind_eq_some_iff.mp hout
  obtain ⟨w, hw, hout⟩ := Option.map_eq_some_iff.mp hout
  simp only [Prod.mk.injEq] at hout
  obtain ⟨hfaults, hpayload, hshallow, hclosed⟩ := hout
  have hclean := cleanFront?_eq_some hfront
  have hf : f ∈ out.module.functions := mem_of_mem_head? hf
  have hoccurs : Bound.MatchOccurs f.body w := Bound.mem_matches_iff.mp (mem_of_mem_head? hw)
  have hinhabited : ∀ t ∈ payloads out.module.registry w.target.ty, ∃ v,
      HasType out.module.registry v t := by
    rw [hpayload]
    intro t ht
    obtain rfl := mem_singleton.mp ht
    exact ⟨.int 0, .int (by decide) (by decide)⟩
  have hall : ∀ p ∈ unguarded w, p.isShallow = true := by
    intro p hp
    have hmem := mem_map_of_mem (f := (·.isShallow)) hp
    simpa [hshallow] using hmem
  obtain ⟨hreported, -, hlists, -, hgiven⟩ := shallow_match_exact hclean.bound hclosed hinhabited hall
  have hmem : .nonExhaustive ["Circle(_)", "Square"] true ∈ (ofMatch out.module.registry w).map
      (·.fault) := by
    simp [hfaults]
  obtain ⟨⟨fault, span⟩, he, rfl⟩ := mem_map.mp hmem
  obtain ⟨cs, hlist, hnodup, -, hcs⟩ := hlists _ _ _ he
  obtain ⟨-, -, -, hexpression, rfl⟩ := nonExhaustive_mem_ofMatch_iff.mp he
  have hreport : Reported out.module.registry w := ⟨_, hexpression ▸ he⟩
  exact ⟨tree, out, f, w, hclean, hf, hoccurs, ⟨_, hgiven f hf hoccurs _ he⟩, hreported.mp hreport,
    cs, hlist, hnodup, hcs⟩

end Coverage

end TagLang
