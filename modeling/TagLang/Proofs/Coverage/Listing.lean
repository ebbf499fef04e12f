import Mathlib.Data.Option.Basic
import TagLang.Proofs.Binding.Scoping
import TagLang.Proofs.Coverage.Dead
import TagLang.Proofs.Grammar.Consume

/-! # Matches that list the variants of an enumeration

A match on an enumeration can have one arm for each variant, whose pattern is the name of the
variant alone. Such a match is accepted, in any order of the arms and whatever else the module
declares, exactly if no variant has the name of a built-in constructor: `Some`, `None`, `Ok` and
`Err` alone are patterns of their own, and never name a variant.
-/

namespace TagLang
open List

def builtinNames : List String := ["Some", "None", "Ok", "Err"]

/-! ## Names alone -/

namespace Grammar

def ReadsName (name : String) : Prop :=
  ∀ fuel, TryConsumes [.ident name] (fun k => k ≠ .dot ∧ k ≠ .lParen)
    (fun p => ∃ span, namedPattern none name none span = .ok p) (pattern (fuel + 1))

theorem namedPattern_alone {name : String} {span : Span} {p : Pattern}
    (h : namedPattern none name none span = .ok p) :
    (name = "Some" ∧ p = .someOf (.wildcard span) span) ∨ (name = "None" ∧ p = .noneOf span) ∨
      (name = "Ok" ∧ p = .okOf (.wildcard span) span) ∨
        (name = "Err" ∧ p = .errOf (.wildcard span) span) ∨
      (name ∉ builtinNames ∧ p = .binding name span) := by
  unfold namedPattern at h
  split at h <;> cases h <;> simp_all [builtinNames]

theorem exists_namedPattern (name : String) (span : Span) :
    ∃ p, namedPattern none name none span = .ok p := by
  unfold namedPattern
  split <;> simp_all [singleArg, Except.map]

theorem tryConsumes_noTail : TryConsumes [] (fun k => k ≠ .dot ∧ k ≠ .lParen) (· = []) pathTail := by
  have hround : TryConsumes [] (fun k => k ≠ .dot ∧ k ≠ .lParen) (· = .done) (do
      if (← peek) = .dot then
        let _ ← take
        return Round.found (← expectIdent)
      else return .done) := by
    refine TryConsumes.peekEnd fun k hk => ?_
    rw [if_neg hk.1]
    exact tryConsumes_pure rfl
  have hmany : TryConsumes (([] : List Unit).flatMap fun _ => []) (fun k => k ≠ .dot ∧ k ≠ .lParen)
      (Forall₂ (fun _ _ => True) []) pathTail :=
    tryConsumes_tryMany (forall_mem_nil _) hround (forall_mem_nil _) fun _ hk => hk
  exact hmany.mono (fun _ hk => hk) fun _ htail => forall₂_nil_left_iff.mp htail

theorem readsName {name : String} (h : name ≠ "_") : ReadsName name := by
  intro fuel
  rw [pattern]
  refine TryConsumes.get fun s t more hs _ => ?_
  have hkind : s.current.kind = .ident name := hs.kind_eq
  dsimp only
  rw [hkind]
  split
  · next heq => cases heq; exact absurd rfl h
  · next heq =>
    cases heq
    refine TryConsumes.take fun _ _ => ?_
    refine TryConsumes.bind tryConsumes_noTail ?_ fun _ hk => hk
    rintro _ rfl
    refine TryConsumes.peekEnd fun k hk => ?_
    split
    · exact absurd rfl hk.2
    · exact tryConsumes_mk ((exists_namedPattern name _).imp fun p hp => ⟨hp, _, hp⟩)
  all_goals simp_all

end Grammar

namespace Binding

def BindsName (r : Registry) (ty : Ty) (name : String) : Prop :=
  ∀ span p (s : State), Grammar.namedPattern none name none span = .ok p → s.registry = r →
    ∃ b, (pattern p ty).run s = (b, s)

theorem bindsName {r : Registry} {ty : Ty} {name owner : String}
    (h : r.ownerFor? name ty = some owner) : BindsName r ty name := by
  rintro span p s hp rfl
  rcases Grammar.namedPattern_alone hp with ⟨rfl, rfl⟩ | ⟨rfl, rfl⟩ | ⟨rfl, rfl⟩ | ⟨rfl, rfl⟩ | ⟨-, rfl⟩
  · exact ⟨_, rfl⟩
  · exact ⟨_, rfl⟩
  · exact ⟨_, rfl⟩
  · exact ⟨_, rfl⟩
  · refine ⟨.variant (some owner) name [] span, ?_⟩
    have hregistry : registry.run s = pure (s.registry, s) := rfl
    rw [pattern, StateT.run_bind, hregistry, pure_bind, h]
    rfl

end Binding

namespace Coverage

inductive Listed (owner : String) : String → Bound.Pattern → Prop
  | someOf (p : Bound.Pattern) (span : Span) : Listed owner "Some" (.someOf p span)
  | noneOf (span : Span) : Listed owner "None" (.noneOf span)
  | okOf (p : Bound.Pattern) (span : Span) : Listed owner "Ok" (.okOf p span)
  | errOf (p : Bound.Pattern) (span : Span) : Listed owner "Err" (.errOf p span)
  | variant {name : String} (h : name ∉ builtinNames) (span : Span) :
    Listed owner name (.variant (some owner) name [] span)

section Patterns

variable {r : Registry} {ty : Ty} {owner name name' : String} {p q : Bound.Pattern} {span : Span}

theorem listed_of_boundTo {tree : Pattern} (howner : r.ownerFor? name ty = some owner)
    (htree : Grammar.namedPattern none name none span = .ok tree) (hp : tree.BoundTo r ty p) :
    Listed owner name p := by
  rcases Grammar.namedPattern_alone htree with
    ⟨rfl, rfl⟩ | ⟨rfl, rfl⟩ | ⟨rfl, rfl⟩ | ⟨rfl, rfl⟩ | ⟨hname, rfl⟩
  · cases hp
    exact .someOf _ span
  · cases hp
    exact .noneOf span
  · cases hp
    exact .okOf _ span
  · cases hp
    exact .errOf _ span
  · cases hp with
    | named _ hsame =>
      cases howner.symm.trans hsame
      exact .variant hname span
    | binding _ _ hnone => cases howner.symm.trans hnone

theorem Listed.isCatchAll_eq (h : Listed owner name p) : p.isCatchAll = false := by cases h <;> rfl

theorem Listed.isVariant_iff (h : Listed owner name p) :
    p.isVariant owner name' = true ↔ name = name' ∧ name ∉ builtinNames := by
  cases h with
  | variant hname => simp [Bound.Pattern.isVariant, hname]
  | someOf | noneOf | okOf | errOf => simp [Bound.Pattern.isVariant, builtinNames]

theorem Listed.eq_of_shadows (h : Listed owner name p) (h' : Listed owner name' q)
    (hq : Shadows q p) : name = name' := by
  rcases hq with hcatch | ⟨key, hqkey, hpkey⟩
  · rw [h'.isCatchAll_eq] at hcatch
    cases hcatch
  · -- The keys of variants have a dot in them.
    have hdot (n : String) : owner ++ "." ++ n ≠ "None" := by
      intro heq
      have hmem : '.' ∈ (owner ++ "." ++ n).toList := by simp
      rw [heq] at hmem
      revert hmem
      decide
    cases h with
    | someOf | okOf | errOf => cases hpkey
    | noneOf =>
      cases hpkey
      cases h' with
      | someOf | okOf | errOf => cases hqkey
      | noneOf => rfl
      | variant => exact absurd (Option.some.inj hqkey) (hdot _)
    | variant =>
      cases hpkey
      cases h' with
      | someOf | okOf | errOf => cases hqkey
      | noneOf => exact absurd (Option.some.inj hqkey).symm (hdot _)
      | variant =>
        have hkeys := congrArg String.toList (Option.some.inj hqkey)
        exact String.toList_injective (by simpa using hkeys.symm)

end Patterns

/-! ## Lists of variants -/

def nameAt? (source : String) (span : Span) : Option String :=
  (lex source).tokens.findSome? fun t =>
    match t.kind with
    | .ident name => if t.span = span then some name else none
    | _ => none

theorem exists_token_of_nameAt? {source name : String} {span : Span}
    (h : nameAt? source span = some name) :
    ∃ t ∈ (lex source).tokens, t.kind = .ident name ∧ t.span = span := by
  obtain ⟨t, ht, hname⟩ := exists_of_findSome?_eq_some h
  split at hname
  · next other hkind =>
    split at hname
    · next hspan =>
      cases hname
      exact ⟨t, ht, hkind, hspan⟩
    · cases hname
  · cases hname

/-- A match has one arm for each variant, without a guard and with the name of the variant alone as
its pattern. -/
structure ListsVariants (source : String) (d : SumDef) (w : Bound.Match) : Prop where
  unguarded : ∀ a ∈ w.arms, a.guard.isNone = true
  names : (w.arms.map fun a => nameAt? source a.pattern.span).Perm (d.variants.map fun v => some v.name)

def hiddenCases (d : SumDef) : List String :=
  (d.infos.filter fun v => decide (v.name ∈ builtinNames)).map fun v => (variantCase d.name v).text

section Matches

variable {source : String} {tree : Module} {out : BindOutput} {f : Bound.Function} {w : Bound.Match}
  {d : SumDef} {args : List Ty} {r : Registry}

theorem ListsVariants.unguarded_eq (h : ListsVariants source d w) :
    Coverage.unguarded w = w.arms.map (·.pattern) := by
  rw [Coverage.unguarded, filter_eq_self.mpr h.unguarded]

theorem hiddenCases_eq_nil_iff (hdistinct : (d.variants.map (·.name)).Nodup) :
    hiddenCases d = [] ↔ ∀ v ∈ d.variants, v.name ∉ builtinNames := by
  have hname (v : VariantDef) : v.info.name = v.name := rfl
  simp [hiddenCases, SumDef.infos_eq hdistinct, hname]

theorem ownerFor?_of_mem (hget : r.sumTypes.get? d.name = some d.infos)
    (hdistinct : (d.variants.map (·.name)).Nodup) {v : VariantDef} (hv : v ∈ d.variants) :
    r.ownerFor? v.name (.named d.name args) = some d.name := by
  have hinfos : d.infos.any (·.name = v.name) = true := by
    rw [SumDef.infos_eq hdistinct]
    exact any_eq_true.mpr ⟨v.info, mem_map_of_mem hv, by simp [VariantDef.info]⟩
  simp [Registry.ownerFor?, Registry.variantsOf?, hget, hinfos]

theorem listed_of_nameAt? (hw : ReadMatch source tree out f w) {name owner : String}
    (howner : tree.declared.registry.ownerFor? name w.target.ty = some owner) (hblank : name ≠ "_")
    {a : Bound.Arm} (ha : a ∈ w.arms) (hname : nameAt? source a.pattern.span = some name) :
    Listed owner name a.pattern := by
  obtain ⟨p, t, us, hsuffix, hread, hbound⟩ := exists_readAt_of_mem hw (mem_map_of_mem ha)
  obtain ⟨u, hu, hkind, hspan⟩ := exists_token_of_nameAt? hname
  rw [hbound.span_eq] at hspan
  have hnotEof : u.kind ≠ .eof := by simp [hkind]
  obtain rfl : t = u := by
    refine (laid_lex source).eq_of_start (hsuffix.subset mem_cons_self) hu hread.kind hnotEof ?_
    rw [hspan, hread.start]
  exact listed_of_boundTo howner (hread.bare (by rw [hspan]) name hkind hblank) hbound

theorem ListsVariants.exists_variant (h : ListsVariants source d w) {a : Bound.Arm}
    (ha : a ∈ w.arms) : ∃ v ∈ d.variants, nameAt? source a.pattern.span = some v.name := by
  obtain ⟨v, hv, hname⟩ := mem_map.mp (h.names.subset (mem_map_of_mem ha))
  exact ⟨v, hv, hname.symm⟩

theorem ListsVariants.exists_arm (h : ListsVariants source d w) {v : VariantDef}
    (hv : v ∈ d.variants) : ∃ a ∈ w.arms, nameAt? source a.pattern.span = some v.name := by
  have hmem : some v.name ∈ d.variants.map fun v => some v.name := mem_map.mpr ⟨v, hv, rfl⟩
  exact mem_map.mp (h.names.symm.subset hmem)

section Reports

variable (hlists : ListsVariants source d w)
  (hlisted : ∀ a ∈ w.arms, ∀ name, nameAt? source a.pattern.span = some name →
    Listed d.name name a.pattern)

include hlists hlisted

theorem any_isCatchAll_eq_false : (unguarded w).any Bound.Pattern.isCatchAll = false := by
  rw [hlists.unguarded_eq, any_eq_false]
  rintro _ hp
  obtain ⟨a, ha, rfl⟩ := mem_map.mp hp
  obtain ⟨v, -, hname⟩ := hlists.exists_variant ha
  simp [(hlisted a ha _ hname).isCatchAll_eq]

theorem any_isVariant_iff {v : VariantDef} (hv : v ∈ d.variants) :
    (unguarded w).any (Bound.Pattern.isVariant d.name v.name) = true ↔ v.name ∉ builtinNames := by
  rw [hlists.unguarded_eq, any_map, any_eq_true]
  constructor
  · rintro ⟨a, ha, htaken⟩
    obtain ⟨v', -, hname⟩ := hlists.exists_variant ha
    obtain ⟨hsame, hbuiltin⟩ := (hlisted a ha _ hname).isVariant_iff.mp htaken
    rwa [← hsame]
  · intro hbuiltin
    obtain ⟨a, ha, hname⟩ := hlists.exists_arm hv
    exact ⟨a, ha, (hlisted a ha _ hname).isVariant_iff.mpr ⟨rfl, hbuiltin⟩⟩

variable (hdistinct : (d.variants.map (·.name)).Nodup)
include hdistinct

theorem deadArms_eq_nil : deadArms none [] (unguarded w) = [] := by
  refine eq_nil_iff_forall_not_mem.mpr fun e he => ?_
  obtain ⟨pre, a, post, harms, -, b, hb, -, hshadows⟩ := exists_shadowed_arm he
  have ha : a ∈ w.arms := by simp [harms]
  have hb' : b ∈ w.arms := by simp [harms, hb]
  obtain ⟨v, -, hname⟩ := hlists.exists_variant ha
  obtain ⟨v', -, hname'⟩ := hlists.exists_variant hb'
  have hsame : v.name = v'.name := (hlisted a ha _ hname).eq_of_shadows (hlisted b hb' _ hname') hshadows
  have hnodup : (w.arms.map fun a => nameAt? source a.pattern.span).Nodup := by
    rw [hlists.names.nodup_iff]
    have hnames := List.Nodup.map (Option.some_injective String) hdistinct
    rwa [map_map] at hnames
  rw [harms, map_append, map_cons, nodup_middle, nodup_cons, mem_append, not_or] at hnodup
  exact hnodup.1.1 (mem_map.mpr ⟨b, hb, by rw [hname, hname', hsame]⟩)

variable (hget : r.sumTypes.get? d.name = some d.infos)
include hget

theorem missing_eq_hiddenCases : missing r (.named d.name args) (unguarded w) = hiddenCases d := by
  have htaken (v : VariantInfo) (hv : v ∈ d.infos) :
      (!(unguarded w).any (variantCase d.name v).taken) = decide (v.name ∈ builtinNames) := by
    rw [SumDef.infos_eq hdistinct] at hv
    obtain ⟨v, hdeclared, rfl⟩ := mem_map.mp hv
    have hiff := any_isVariant_iff hlists hlisted hdeclared
    rw [Bool.eq_iff_iff, Bool.not_eq_true', ← Bool.not_eq_true, decide_eq_true_iff]
    exact hiff.not.trans not_not
  rw [missing, cases, hget, Option.getD_some, filter_map, map_map, hiddenCases]
  congr 1
  exact filter_congr htaken

theorem ofMatch_eq (htarget : w.target.ty = .named d.name args) : ofMatch r w =
      if hiddenCases d = [] then [] else [⟨.nonExhaustive (hiddenCases d) w.isExpression, w.span⟩] := by
  have hdead := deadArms_eq_nil hlists hlisted hdistinct
  have hcatch := any_isCatchAll_eq_false hlists hlisted
  have hmissing : missing r w.target.ty (unguarded w) = hiddenCases d := by
    rw [htarget, missing_eq_hiddenCases hlists hlisted hdistinct hget]
  simp only [ofMatch, hdead, hcatch, hmissing, nil_append, List.isEmpty_iff, Bool.false_eq_true, if_false]

end Reports

/-- A match that has one arm for each variant of an enumeration, with the name of the variant alone,
is read and bound without a report. It is reported exactly if some variant is called like a built-in
constructor, and then only because these variants are missing. -/
theorem listed_variants_accepted_iff {before after : List Item}
    (hparse : (parse source).module = some tree) (hbind : bind tree = .ok out)
    (hf : f ∈ out.module.functions) (hw : f.HasMatch w)
    (hitems : tree.items = before ++ .enumeration d :: after)
    (hlast : ∀ d' ∈ after.filterMap Item.sum?, d'.name ≠ d.name)
    (hdistinct : (d.variants.map (·.name)).Nodup) (hblank : "_" ∉ d.variants.map (·.name))
    (htarget : w.target.ty = .named d.name args) (hlists : ListsVariants source d w) :
    (∀ v ∈ d.variants,
      Grammar.ReadsName v.name ∧ Binding.BindsName out.module.registry w.target.ty v.name) ∧
    (ofMatch out.module.registry w = [] ↔ ∀ v ∈ d.variants, v.name ∉ builtinNames) ∧
    ∀ e ∈ ofMatch out.module.registry w, e = ⟨.nonExhaustive (hiddenCases d) w.isExpression, w.span⟩ := by
  have hsums : tree.sums = before.filterMap Item.sum? ++ d :: after.filterMap Item.sum? := by
    rw [Module.sums, hitems, filterMap_append]
    rfl
  have hget := Module.get?_sumTypes hsums hlast
  have hnotBlank (v : VariantDef) (hv : v ∈ d.variants) : v.name ≠ "_" := by
    intro heq
    exact hblank (heq ▸ mem_map_of_mem hv)
  have howner (v : VariantDef) (hv : v ∈ d.variants) :
      tree.declared.registry.ownerFor? v.name w.target.ty = some d.name := by
    rw [htarget]
    exact ownerFor?_of_mem hget hdistinct hv
  have hlisted (a : Bound.Arm) (ha : a ∈ w.arms) (name : String)
      (hname : nameAt? source a.pattern.span = some name) : Listed d.name name a.pattern := by
    obtain ⟨v, hv, hname'⟩ := hlists.exists_variant ha
    cases hname.symm.trans hname'
    exact listed_of_nameAt? ⟨hparse, hbind, hf, hw⟩ (howner v hv) (hnotBlank v hv) ha hname
  rw [Module.registry_of_bind hbind, ofMatch_eq hlists hlisted hdistinct hget htarget]
  refine ⟨fun v hv => ⟨Grammar.readsName (hnotBlank v hv), Binding.bindsName (howner v hv)⟩, ?_, ?_⟩
  · rw [← hiddenCases_eq_nil_iff hdistinct]
    split <;> simp_all
  · split <;> simp

def leadingEnum? : List Item → Option (SumDef × List Item)
  | .enumeration d :: rest => some (d, rest)
  | _ => none

theorem leadingEnum?_eq_some {items rest : List Item} (h : leadingEnum? items = some (d, rest)) :
    items = [] ++ .enumeration d :: rest := by
  unfold leadingEnum? at h
  split at h
  · cases h
    rfl
  · cases h

/-- A module that begins with an enumeration, and the first match of its first function. -/
structure EnumMatch where
  variants : List String
  laterSums : List String
  isTarget : Bool
  unguarded : Bool
  names : List (Option String)
  faults : List PatternFault
deriving DecidableEq

def enumMatch? (source : String) : Option EnumMatch :=
  (cleanFront? source).bind fun (tree, out) => (leadingEnum? tree.items).bind fun (d, rest) =>
    out.module.functions.head?.bind fun f => (Matches.stmts f.body).head?.map fun w =>
      { variants := d.variants.map (·.name)
        laterSums := (rest.filterMap Item.sum?).map (·.name)
        isTarget := decide (w.target.ty = .named d.name [])
        unguarded := w.arms.all (·.guard.isNone)
        names := w.arms.map fun a => nameAt? source a.pattern.span
        faults := (ofMatch out.module.registry w).map (·.fault) }

theorem enumMatch?_eq_some {e : EnumMatch} (h : enumMatch? source = some e) (htarget : e.isTarget = true)
    (hunguarded : e.unguarded = true) (hnames : e.names.Perm (e.variants.map some)) :
    ∃ tree out f w d rest, CleanFront source tree out ∧ f ∈ out.module.functions ∧
      Bound.MatchOccurs f.body w ∧
      tree.items = [] ++ .enumeration d :: rest ∧ d.variants.map (·.name) = e.variants ∧
      (rest.filterMap Item.sum?).map (·.name) = e.laterSums ∧ w.target.ty = .named d.name [] ∧
      ListsVariants source d w ∧ (ofMatch out.module.registry w).map (·.fault) = e.faults := by
  obtain ⟨⟨tree, out⟩, hfront, h⟩ := Option.bind_eq_some_iff.mp h
  obtain ⟨⟨d, rest⟩, hitems, h⟩ := Option.bind_eq_some_iff.mp h
  obtain ⟨f, hf, h⟩ := Option.bind_eq_some_iff.mp h
  obtain ⟨w, hw, rfl⟩ := Option.map_eq_some_iff.mp h
  have hoccurs : Bound.MatchOccurs f.body w := Bound.mem_matches_iff.mp (mem_of_mem_head? hw)
  rw [map_map] at hnames
  have hlists : ListsVariants source d w := ⟨all_eq_true.mp hunguarded, hnames⟩
  exact ⟨tree, out, f, w, d, rest, cleanFront?_eq_some hfront, mem_of_mem_head? hf, hoccurs,
    leadingEnum?_eq_some hitems, rfl, rfl, of_decide_eq_true htarget, hlists, rfl⟩

/-- Lists two variants, the last one first. -/
def switchSource (first second : String) : String :=
  "§M\x7bm1:T\x7d\n§EN\x7be1:Status\x7d " ++ first ++ " " ++ second ++ " §/EN\x7be1\x7d\n" ++
  "§F\x7bf1:code\x7d\n§I\x7bStatus:s\x7d\n§O\x7bi32\x7d\n" ++
  "§R §W\x7bw1\x7d s §K " ++ second ++ " → 0 §K " ++ first ++
    " → 1 §/W\x7bw1\x7d\n§/F\x7bf1\x7d\n§/M\x7bm1\x7d\n"

set_option maxRecDepth 100000 in
theorem enumMatch?_offOn : enumMatch? (switchSource "Off" "On") =
    some ⟨["Off", "On"], [], true, true, [some "On", some "Off"], []⟩ := by
  decide +kernel

theorem listed_variants_accepted_offOn :
    ∃ tree out f w d rest, CleanFront (switchSource "Off" "On") tree out ∧
    f ∈ out.module.functions ∧ Bound.MatchOccurs f.body w ∧ tree.items = .enumeration d :: rest ∧
    d.variants.map (·.name) = ["Off", "On"] ∧ ListsVariants (switchSource "Off" "On") d w ∧
    ofMatch out.module.registry w = [] := by
  obtain ⟨tree, out, f, w, d, rest, hclean, hf, hoccurs, hitems, hvariants, hlater, htarget, hlists, -⟩ :=
    enumMatch?_eq_some enumMatch?_offOn rfl rfl (List.Perm.swap _ _ _)
  have hlast : ∀ d' ∈ rest.filterMap Item.sum?, d'.name ≠ d.name := by simp [map_eq_nil_iff.mp hlater]
  have hdistinct : (d.variants.map (·.name)).Nodup := by
    rw [hvariants]
    decide
  have hblank : "_" ∉ d.variants.map (·.name) := by
    rw [hvariants]
    decide
  have hplain : ∀ v ∈ d.variants, v.name ∉ builtinNames := by
    intro v hv
    have hname : v.name ∈ d.variants.map (·.name) := mem_map_of_mem hv
    rw [hvariants] at hname
    have hall : ∀ name ∈ ["Off", "On"], name ∉ builtinNames := by decide
    exact hall _ hname
  have haccepted := listed_variants_accepted_iff hclean.read hclean.bound hf hoccurs.hasMatch hitems
    hlast hdistinct hblank htarget hlists
  exact ⟨tree, out, f, w, d, rest, hclean, hf, hoccurs, hitems, hvariants, hlists,
    haccepted.2.1.mpr hplain⟩

set_option maxRecDepth 100000 in
theorem enumMatch?_okErr : enumMatch? (switchSource "Ok" "Err") =
    some ⟨["Ok", "Err"], [], true, true, [some "Err", some "Ok"],
      [.nonExhaustive ["Ok", "Err"] true]⟩ := by
  decide +kernel

/-- An enumeration of `Ok` and `Err` is matched by both names, and both are reported as missing. -/
theorem listed_variants_missing : ∃ tree out f w d rest, CleanFront (switchSource "Ok" "Err") tree out ∧
    f ∈ out.module.functions ∧ Bound.MatchOccurs f.body w ∧ tree.items = .enumeration d :: rest ∧
    d.variants.map (·.name) = ["Ok", "Err"] ∧ w.target.ty = .named d.name [] ∧
    ListsVariants (switchSource "Ok" "Err") d w ∧
    ∃ span, ⟨.nonExhaustive ["Ok", "Err"] true, span⟩ ∈ checkMatches out.module := by
  obtain ⟨tree, out, f, w, d, rest, hclean, hf, hoccurs, hitems, hvariants, -, htarget, hlists,
      hfaults⟩ :=
    enumMatch?_eq_some enumMatch?_okErr rfl rfl (List.Perm.swap _ _ _)
  have hmem : .nonExhaustive ["Ok", "Err"] true ∈ (ofMatch out.module.registry w).map
      (·.fault) := by simp [hfaults]
  obtain ⟨⟨fault, span⟩, he, rfl⟩ := mem_map.mp hmem
  exact ⟨tree, out, f, w, d, rest, hclean, hf, hoccurs, hitems, hvariants, htarget, hlists, span,
    mem_checkMatches_iff.mpr ⟨f, hf, w, hoccurs, he⟩⟩

end Matches

end Coverage

end TagLang
