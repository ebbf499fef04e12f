import TagLang.Proofs.Binding.Identity
import TagLang.Proofs.Coverage.Exhaustive
import TagLang.Proofs.Grammar.Module

/-! # Matches as they are written

A match of a function that comes from a text has arms whose patterns are read from the text one
behind the other. So they start at different places, and the variants that they name have names as
the language writes them.
-/

namespace TagLang
open List

def Bound.Function.HasMatch (f : Bound.Function) (w : Bound.Match) : Prop :=
  f.Contains (.stmt (.matching w)) ∨ ∃ ty span, f.Contains (.expr (.mk (.matching w) ty span))

theorem Bound.MatchOccurs.hasMatch {f : Bound.Function} {w : Bound.Match}
    (h : Bound.MatchOccurs f.body w) : f.HasMatch w := by
  rcases h with h | ⟨ty, span, h⟩
  · exact .inl (.inl h)
  · exact .inr ⟨ty, span, .inl h⟩

section Patterns

variable {r : Registry} {ty : Ty} {p : Pattern} {b : Bound.Pattern} {ts : List Token} {ps : List Pattern}

theorem Pattern.BoundTo.span_eq (h : p.BoundTo r ty b) : b.span = p.span := by cases h <;> rfl

theorem Pattern.BoundTo.name?_eq {owner : Option String} {name : String} {args : List Bound.Pattern}
    {span : Span} (h : p.BoundTo r ty (.variant owner name args span)) :
    p.name? = some name := by cases h <;> rfl

theorem PatternsRead.exists_readAt (h : PatternsRead ts ps) :
    ∀ p ∈ ps, ∃ t us, t :: us <:+ ts ∧ p.ReadAt t us := by
  induction h with
  | nil => exact forall_mem_nil _
  | cons hts hp _ ih =>
    refine forall_mem_cons.mpr ⟨⟨_, _, hts, hp⟩, fun q hq => ?_⟩
    obtain ⟨u, vs, hvs, hread⟩ := ih q hq
    exact ⟨u, vs, (hvs.trans (suffix_cons _ _)).trans hts, hread⟩

theorem PatternsRead.pairwise (h : PatternsRead ts ps) (hts : Laid ts) :
    ps.Pairwise fun p q => p.span.start < q.span.start := by
  induction h with
  | nil => exact .nil
  | cons hsuffix hp hps ih =>
    have hlaid := hts.suffix hsuffix
    refine pairwise_cons.mpr ⟨fun q hq => ?_, ih (hlaid.suffix (suffix_cons _ _))⟩
    obtain ⟨u, vs, hvs, hread⟩ := hps.exists_readAt q hq
    have hwide := hlaid.wide _ mem_cons_self hp.kind
    have hle := hlaid.stop_le (hvs.subset mem_cons_self)
    rw [hp.start, hread.start]
    omega

end Patterns

/-- A match of a function, with the text and the tree from which it was read and bound. -/
structure ReadMatch (source : String) (tree : Module) (out : BindOutput) (f : Bound.Function)
    (w : Bound.Match) : Prop where
  read : (parse source).module = some tree
  bound : bind tree = .ok out
  mem : f ∈ out.module.functions
  occurs : f.HasMatch w

section Matches

variable {source : String} {tree : Module} {out : BindOutput} {f : Bound.Function} {w : Bound.Match}

theorem FunctionDef.Read.patterned {ts : List Token} {f : FunctionDef} (h : f.Read ts) :
    f.Patterned (PatternsIn ts) where
  preconditions e he := (h.preconditions e he).patterns
  postconditions e he := (h.postconditions e he).patterns
  body s hs := (h.body s hs).patterns

theorem bindsMatch_of_parse (hw : ReadMatch source tree out f w) :
    tree.BindsMatch (PatternsRead (lex source).tokens) w := by
  rw [← patternsIn_eq (laid_lex source)]
  have hfinds {n : Bound.Node} (hn : f.Contains n) : tree.FindsAt (PatternsIn (lex source).tokens) n :=
    findsAt_of_contains (fun f hf => (parse_read hw.read f hf).patterned) hw.bound hw.mem hn
  rcases hw.occurs with hw | ⟨ty, span, hw⟩
  · exact hfinds hw
  · exact hfinds hw

theorem pairwise_start_patterns (hw : ReadMatch source tree out f w) :
    (w.arms.map (·.pattern)).Pairwise fun p q => p.span.start < q.span.start := by
  obtain ⟨ps, hread, hbound⟩ := bindsMatch_of_parse hw
  have hspans : (w.arms.map (·.pattern)).map (·.span.start) = ps.map (·.span.start) := by
    rw [eq_comm, ← forall₂_eq_eq_eq, forall₂_map_left_iff, forall₂_map_right_iff]
    exact hbound.imp fun p b hpb => by rw [hpb.span_eq]
  have hpairwise : (ps.map (·.span.start)).Pairwise (· < ·) :=
    pairwise_map.mpr (hread.pairwise (laid_lex source))
  rw [← hspans] at hpairwise
  exact pairwise_map.mp hpairwise

theorem exists_readAt_of_mem (hw : ReadMatch source tree out f w) {b : Bound.Pattern}
    (hb : b ∈ w.arms.map (·.pattern)) :
    ∃ (p : Pattern) (t : Token) (us : List Token), t :: us <:+ (lex source).tokens ∧ p.ReadAt t us ∧
      p.BoundTo tree.declared.registry w.target.ty b := by
  obtain ⟨ps, hread, hbound⟩ := bindsMatch_of_parse hw
  obtain ⟨i, hi, rfl⟩ := mem_iff_getElem.mp hb
  have hlt : i < ps.length := hbound.length_eq ▸ hi
  obtain ⟨t, us, hsuffix, hat⟩ := hread.exists_readAt _ (getElem_mem hlt)
  exact ⟨ps[i], t, us, hsuffix, hat, hbound.get hlt hi⟩

theorem isName_of_variant (hw : ReadMatch source tree out f w) {owner : Option String}
    {name : String} {args : List Bound.Pattern} {span : Span}
    (hp : .variant owner name args span ∈ w.arms.map (·.pattern)) : Lexeme.IsName name.toList := by
  obtain ⟨p, t, us, hsuffix, hread, hbound⟩ := exists_readAt_of_mem hw hp
  obtain ⟨u, hu, hkind⟩ := hread.named name hbound.name?_eq
  exact lex_isName (hsuffix.subset hu) hkind

end Matches

end TagLang
