import TagLang.Proofs.Coverage.Constructor
import TagLang.Proofs.Effect.Occurrence
import TagLang.Proofs.FrontEnd

/-! # Matches that nothing falls through

All matches of the bodies are examined, wherever they stand. One of them is reported if the
outermost constructor of some value is in no arm without a guard. So a value falls through an
unreported match only if each arm that has its constructor looks further than that.
-/

namespace TagLang
open List

namespace Bound

def MatchOccurs (body : List Stmt) (w : Match) : Prop :=
  Occurs body (.stmt (.matching w)) ∨ ∃ ty span, Occurs body (.expr (.mk (.matching w) ty span))

def Node.matches : Node → List Match
  | .expr e => Matches.expr e
  | .stmt s => Matches.stmt s

def Node.ownMatches : Node → List Match
  | .expr (.mk (.matching w) _ _) => [w]
  | .stmt (.matching w) => [w]
  | _ => []

theorem matches_exprs (es : List Expr) : Matches.exprs es = (es.map Node.expr).flatMap Node.matches := by
  rw [flatMap_map]
  exact eq_flatMap rfl (fun _ _ => rfl) es

theorem matches_expr? (e : Option Expr) :
    Matches.expr? e = (e.toList.map Node.expr).flatMap Node.matches := by
  cases e <;> simp [Matches.expr?, Node.matches]

theorem matches_stmts (ss : List Stmt) : Matches.stmts ss = (ss.map Node.stmt).flatMap Node.matches := by
  rw [flatMap_map]
  exact eq_flatMap rfl (fun _ _ => rfl) ss

theorem matches_stmts? (ss : Option (List Stmt)) :
    Matches.stmts? ss = ((ss.getD []).map Node.stmt).flatMap Node.matches := by
  cases ss with
  | none => simp [Matches.stmts?]
  | some ss => simpa [Matches.stmts?] using matches_stmts ss

theorem matches_matching (w : Match) : Matches.matching w = w :: w.parts.flatMap Node.matches := by
  obtain ⟨_, target, arms, _, _⟩ := w
  have harms : Matches.matchArms arms = (arms.flatMap Arm.parts).flatMap Node.matches := by
    rw [flatMap_assoc]
    refine eq_flatMap rfl (fun a more => ?_) arms
    obtain ⟨_, guard, _ | _, _⟩ := a <;>
      simp [Matches.matchArms, Matches.armBody, Arm.parts, ArmBody.parts, matches_expr?,
        matches_stmts, Node.matches]
  simp only [Matches.matching, Match.parts, flatMap_cons, Node.matches, harms]

theorem matches_elseIfs (others : List ElseIf) :
    Matches.elseIfs others = (others.flatMap ElseIf.parts).flatMap Node.matches := by
  rw [flatMap_assoc]
  refine eq_flatMap rfl (fun ⟨test, body⟩ more => ?_) others
  simp [Matches.elseIfs, ElseIf.parts, Node.matches, matches_stmts]

theorem matches_catches (clauses : List Catch) :
    Matches.catches clauses = (clauses.flatMap Catch.parts).flatMap Node.matches := by
  rw [flatMap_assoc]
  refine eq_flatMap rfl (fun ⟨_, _, body⟩ more => ?_) clauses
  simp [Matches.catches, Catch.parts, matches_stmts]

theorem Node.matches_eq (n : Node) : n.matches = n.ownMatches ++ n.parts.flatMap Node.matches := by
  cases n with
  | expr e =>
    obtain ⟨kind, ty, span⟩ := e
    cases kind <;>
      simp [Node.matches, Matches.expr, Matches.exprKind, Node.ownMatches, Node.parts, Expr.kind,
      ExprKind.parts, matches_exprs, matches_expr?, matches_stmts, matches_matching]
  | stmt s =>
    cases s <;> simp [Node.matches, Matches.stmt, Node.ownMatches, Node.parts, Stmt.parts, matches_expr?,
      matches_stmts, matches_stmts?, matches_matching, matches_elseIfs, matches_catches]

theorem mem_matches_iff {body : List Stmt} {w : Match} : w ∈ Matches.stmts body ↔ MatchOccurs body w := by
  have hall (n : Node) (x : Match) : x ∈ n.matches ↔ x ∈ n.ownMatches ∨ ∃ p ∈ n.parts, x ∈ p.matches := by
    rw [Node.matches_eq, mem_append, mem_flatMap]
  rw [matches_stmts, mem_flatMap_iff_occurs hall]
  constructor
  · rintro ⟨n, hn, hw⟩
    unfold Node.ownMatches at hw
    split at hw
    · obtain rfl := mem_singleton.mp hw
      exact Or.inr ⟨_, _, hn⟩
    · obtain rfl := mem_singleton.mp hw
      exact Or.inl hn
    · simp at hw
  · rintro (h | ⟨ty, span, h⟩)
    · exact ⟨_, h, mem_singleton.mpr rfl⟩
    · exact ⟨_, h, mem_singleton.mpr rfl⟩

end Bound

theorem mem_checkMatches_iff {m : Bound.Module} {e : PatternError} :
    e ∈ checkMatches m ↔ ∃ f ∈ m.functions, ∃ w, Bound.MatchOccurs f.body w ∧
      e ∈ Coverage.ofMatch m.registry w := by
  unfold checkMatches
  simp only [mem_flatMap, Bound.mem_matches_iff]
  constructor
  · rintro ⟨w, ⟨f, hf, hw⟩, he⟩
    exact ⟨f, hf, w, hw, he⟩
  · rintro ⟨f, hf, w, hw, he⟩
    exact ⟨w, ⟨f, hf, hw⟩, he⟩

namespace Coverage

variable {r : Registry} {ty : Ty} {w : Bound.Match} {v : Value} {lacking : List String}

def Reported (r : Registry) (w : Bound.Match) : Prop :=
  ∃ lacking, ⟨.nonExhaustive lacking w.isExpression, w.span⟩ ∈ ofMatch r w

theorem nonExhaustive_notMem_deadArms {b : Bool} {span : Span} (catchAll : Option Span)
    (seen : List (String × Span)) (ps : List Bound.Pattern) :
    ⟨.nonExhaustive lacking b, span⟩ ∉ deadArms catchAll seen ps := by
  fun_induction deadArms catchAll seen ps <;> simp_all

theorem nonExhaustive_mem_ofMatch_iff {b : Bool} {span : Span} :
    ⟨.nonExhaustive lacking b, span⟩ ∈ ofMatch r w ↔
      (unguarded w).any Bound.Pattern.isCatchAll = false ∧ lacking = missing r w.target.ty (unguarded w) ∧
        lacking ≠ [] ∧ b = w.isExpression ∧ span = w.span := by
  unfold ofMatch
  simp only [mem_append, nonExhaustive_notMem_deadArms, false_or]
  cases hcatch : (unguarded w).any Bound.Pattern.isCatchAll with
  | true => simp
  | false =>
    by_cases hempty : missing r w.target.ty (unguarded w) = []
    · have hnone : ¬(lacking = [] ∧ lacking ≠ []) := fun h => h.2 h.1
      simpa [hempty] using fun h hne => absurd ⟨h, hne⟩ hnone
    · simp only [hempty, Bool.false_eq_true, if_false, List.isEmpty_iff, mem_singleton,
        PatternError.mk.injEq, PatternFault.nonExhaustive.injEq, true_and]
      constructor
      · rintro ⟨⟨rfl, rfl⟩, rfl⟩
        exact ⟨rfl, hempty, rfl, rfl⟩
      · rintro ⟨rfl, -, rfl, rfl⟩
        exact ⟨⟨rfl, rfl⟩, rfl⟩

theorem reported_iff :
    Reported r w ↔ (unguarded w).any Bound.Pattern.isCatchAll = false ∧
      ∃ c ∈ cases r w.target.ty, ∀ p ∈ unguarded w, c.taken p = false := by
  have hmissing : missing r w.target.ty (unguarded w) = [] ↔
      ¬∃ c ∈ cases r w.target.ty, ∀ p ∈ unguarded w, c.taken p = false := by
    simp [missing, filter_eq_nil_iff]
  unfold Reported
  simp only [nonExhaustive_mem_ofMatch_iff]
  constructor
  · rintro ⟨lacking, hcatch, rfl, hne, -⟩
    exact ⟨hcatch, not_not.mp (mt hmissing.mpr hne)⟩
  · rintro ⟨hcatch, hlacks⟩
    exact ⟨_, hcatch, rfl, fun hempty => hmissing.mp hempty hlacks, trivial, trivial⟩

theorem exists_fits (hclosed : r.isClosed w.target.ty = true) (hreported : ¬Reported r w)
    (hv : HasType r v w.target.ty) : ∃ p ∈ unguarded w, p.fits v = true := by
  obtain ⟨c, hc, hheads⟩ := exists_case hclosed hv
  by_contra hnone
  apply hreported
  have hunfit : ∀ p ∈ unguarded w, p.fits v = false := by
    intro p hp
    by_contra hfits
    exact hnone ⟨p, hp, Bool.eq_true_of_not_eq_false hfits⟩
  have hspecific : ∀ p ∈ unguarded w, p.isCatchAll = false := by
    intro p hp
    by_contra hall
    have hfits : p.fits v = true := Bound.Pattern.fits_of_isCatchAll (Bool.eq_true_of_not_eq_false hall)
    exact hnone ⟨p, hp, hfits⟩
  rw [reported_iff]
  constructor
  · exact any_eq_false.mpr fun p hp => by simp [hspecific p hp]
  · exact ⟨c, hc, fun p hp => (hheads p (hspecific p hp)).trans (hunfit p hp)⟩

theorem exists_unfit (hpayloads : ∀ t ∈ payloads r w.target.ty, ∃ v, HasType r v t)
    (hreported : Reported r w) :
    ∃ v, HasType r v w.target.ty ∧ ∀ p ∈ unguarded w, p.fits v = false := by
  obtain ⟨hcatch, c, hc, hlacks⟩ := reported_iff.mp hreported
  obtain ⟨v, hv, hheads⟩ := exists_value hpayloads hc
  refine ⟨v, hv, ?_⟩
  intro p hp
  have hspecific : p.isCatchAll = false := by simpa using any_eq_false.mp hcatch p hp
  rw [← hheads p hspecific, hlacks p hp]

/-- The errors of the matches in bodies are reported, and no others. A match lacks a case exactly if
some value fits no arm without a guard, and a value falls through a match that lacks none only if
every such arm that it fits looks into its parts. -/
theorem checkMatches_covers {m : Bound.Module} {f : Bound.Function} (hf : f ∈ m.functions)
    (hw : Bound.MatchOccurs f.body w) (hclosed : m.registry.isClosed w.target.ty = true) :
    (∀ e ∈ ofMatch m.registry w, e ∈ checkMatches m) ∧
    (∀ e ∈ checkMatches m, ∃ g ∈ m.functions, ∃ x, Bound.MatchOccurs g.body x ∧
      e ∈ ofMatch m.registry x) ∧
    ((∀ t ∈ payloads m.registry w.target.ty, ∃ v, HasType m.registry v t) →
      (Reported m.registry w ↔
        ∃ v, HasType m.registry v w.target.ty ∧ ∀ p ∈ unguarded w, p.fits v = false)) ∧
    (¬Reported m.registry w → ∀ v, HasType m.registry v w.target.ty →
      (∃ p ∈ unguarded w, p.takes v = true) ∨
      (∃ p ∈ unguarded w, p.fits v = true) ∧ ∀ p ∈ unguarded w, p.fits v = true →
        p.isShallow = false) := by
  constructor
  · intro e he
    exact mem_checkMatches_iff.mpr ⟨f, hf, w, hw, he⟩
  constructor
  · intro e he
    exact mem_checkMatches_iff.mp he
  constructor
  · intro hpayloads
    constructor
    · intro hreported
      exact exists_unfit hpayloads hreported
    · rintro ⟨v, hv, hunfit⟩
      by_contra hreported
      obtain ⟨p, hp, hfits⟩ := exists_fits hclosed hreported hv
      simp [hunfit p hp] at hfits
  · intro hreported v hv
    by_cases htaken : ∃ p ∈ unguarded w, p.takes v = true
    · exact Or.inl htaken
    · right
      constructor
      · exact exists_fits hclosed hreported hv
      · intro p hp hfits
        by_contra hshallow
        exact htaken ⟨p, hp, Bound.Pattern.takes_of_fits (Bool.eq_true_of_not_eq_false hshallow) hfits⟩

def match? : Bound.Expr → Option Bound.Match
  | .mk (.matching w) _ _ => some w
  | _ => none

/-- Takes `None` and `Some(1)` apart in its body, and only `Some` in its precondition. -/
def partialSource : String :=
  "§M\x7bm1:T\x7d\n§F\x7bf1:pick\x7d\n§I\x7b?i32:x\x7d\n§O\x7bi32\x7d\n" ++
  "§Q §W\x7bw1\x7d x §K Some(_) → true §/W\x7bw1\x7d\n" ++
  "§R §W\x7bw2\x7d x §K Some(1) → 1 §K None → 0 §/W\x7bw2\x7d\n§/F\x7bf1\x7d\n§/M\x7bm1\x7d\n"

set_option maxRecDepth 100000 in
theorem coverage_partialSource :
    (cleanFront? partialSource).bind (fun (_, out) => out.module.functions.head?.bind fun f =>
      (Matches.stmts f.body).head?.bind fun w => (f.preconditions.head?.bind match?).map fun q =>
        (checkMatches out.module, (w.target.ty, (unguarded w).map (·.takes (.someOf (.int 2)))),
          q.target.ty, (unguarded q).map (·.takes .noneOf))) =
    some ([], (.option (.int 32 true), [false, false]), .option (.int 32 true), [false]) := by
  decide +kernel

theorem exists_partial : ∃ tree out f w q, CleanFront partialSource tree out ∧ f ∈ out.module.functions ∧
    Bound.MatchOccurs f.body w ∧ (∃ ty span, .mk (.matching q) ty span ∈ f.preconditions) ∧
    checkMatches out.module = [] ∧
    (w.target.ty = .option (.int 32 true) ∧ ∀ p ∈ unguarded w, p.takes (.someOf (.int 2)) = false) ∧
    q.target.ty = .option (.int 32 true) ∧ ∀ p ∈ unguarded q, p.takes .noneOf = false := by
  obtain ⟨⟨tree, out⟩, hfront, hout⟩ := Option.bind_eq_some_iff.mp coverage_partialSource
  obtain ⟨f, hf, hout⟩ := Option.bind_eq_some_iff.mp hout
  obtain ⟨w, hw, hout⟩ := Option.bind_eq_some_iff.mp hout
  obtain ⟨q, hq, hout⟩ := Option.map_eq_some_iff.mp hout
  obtain ⟨e, he, heq⟩ := Option.bind_eq_some_iff.mp hq
  simp only [Prod.mk.injEq] at hout
  obtain ⟨hnone, ⟨hwty, hwtakes⟩, hqty, hqtakes⟩ := hout
  have hcondition : ∃ ty span, .mk (.matching q) ty span ∈ f.preconditions := by
    unfold match? at heq
    split at heq
    · cases heq
      exact ⟨_, _, mem_of_mem_head? he⟩
    · cases heq
  have hwall : ∀ p ∈ unguarded w, p.takes (.someOf (.int 2)) = false := by
    intro p hp
    have hmem := mem_map_of_mem (f := (·.takes (.someOf (.int 2)))) hp
    simpa [hwtakes] using hmem
  have hqall : ∀ p ∈ unguarded q, p.takes .noneOf = false := by
    intro p hp
    have hmem := mem_map_of_mem (f := (·.takes .noneOf)) hp
    simpa [hqtakes] using hmem
  exact ⟨tree, out, f, w, q, cleanFront?_eq_some hfront, mem_of_mem_head? hf,
    Bound.mem_matches_iff.mp (mem_of_mem_head? hw), hcondition, hnone, ⟨hwty, hwall⟩, hqty, hqall⟩

theorem hasType_two : HasType r (.someOf (.int 2)) (.option (.int 32 true)) :=
  .someOf (.int (by decide) (by decide))

theorem checkMatches_covers_partial : ∃ tree out f w, CleanFront partialSource tree out ∧
    f ∈ out.module.functions ∧ Bound.MatchOccurs f.body w ∧
      out.module.registry.isClosed w.target.ty = true ∧
    ¬Reported out.module.registry w ∧ HasType out.module.registry (.someOf (.int 2)) w.target.ty ∧
    (∃ p ∈ unguarded w, p.fits (.someOf (.int 2)) = true) ∧
    ∀ p ∈ unguarded w, p.fits (.someOf (.int 2)) = true → p.isShallow = false := by
  obtain ⟨tree, out, f, w, -, hfront, hf, hw, -, hnone, ⟨hty, htakes⟩, -⟩ := exists_partial
  have hclosed : out.module.registry.isClosed w.target.ty = true := by rw [hty]; rfl
  have hvalue : HasType out.module.registry (.someOf (.int 2)) w.target.ty := hty ▸ hasType_two
  obtain ⟨hreports, -, -, hcovers⟩ := checkMatches_covers hf hw hclosed
  have hreported : ¬Reported out.module.registry w := by
    rintro ⟨lacking, hlacking⟩
    simpa [hnone] using hreports _ hlacking
  refine ⟨tree, out, f, w, hfront, hf, hw, hclosed, hreported, hvalue, ?_⟩
  rcases hcovers hreported _ hvalue with ⟨p, hp, htaken⟩ | hfits
  · simp [htakes p hp] at htaken
  · exact hfits

/-- Nothing is found in a program in which `Some(2)` falls through a match of a body, and `None`
through a match of a precondition. -/
theorem unreported_match_falls_through : ∃ tree out f w q, CleanFront partialSource tree out ∧
    checkMatches out.module = [] ∧ f ∈ out.module.functions ∧
    (Bound.MatchOccurs f.body w ∧ out.module.registry.isClosed w.target.ty = true ∧
      ∃ v, HasType out.module.registry v w.target.ty ∧ ∀ p ∈ unguarded w, p.takes v = false) ∧
    (∃ ty span, .mk (.matching q) ty span ∈ f.preconditions) ∧
      out.module.registry.isClosed q.target.ty = true ∧
      ∃ v, HasType out.module.registry v q.target.ty ∧ ∀ p ∈ unguarded q, p.takes v = false := by
  obtain ⟨tree, out, f, w, q, hfront, hf, hw, hq, hnone, ⟨hwty, hwtakes⟩, hqty, hqtakes⟩ := exists_partial
  have hwclosed : out.module.registry.isClosed w.target.ty = true := by rw [hwty]; rfl
  have hqclosed : out.module.registry.isClosed q.target.ty = true := by rw [hqty]; rfl
  exact ⟨tree, out, f, w, q, hfront, hnone, hf, ⟨hw, hwclosed, _, hwty ▸ hasType_two, hwtakes⟩, hq,
    hqclosed, _, hqty ▸ .noneOf, hqtakes⟩

end Coverage

end TagLang
