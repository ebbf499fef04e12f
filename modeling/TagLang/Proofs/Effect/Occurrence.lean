import TagLang.Effect.Site
import Mathlib.Logic.Relation
import Mathlib.Tactic.Tauto

/-! # Where effects occur in a body

The parts of a body are all expressions and statements in it at any depth: operands, arguments, arms
and guards of matches, clauses, and the bodies of lambdas. What a part contributes by itself is said
here for each kind of part on its own, and the sites of a body turn out to be exactly these
contributions.
-/

namespace TagLang.Bound
open List

variable {p : Node} {α : Type} {all own : Node → List α}

inductive Node
  | expr (e : Expr)
  | stmt (s : Stmt)

def ArmBody.parts : ArmBody → List Node
  | .block body => body.map .stmt
  | .value e => [.expr e]

def Arm.parts : Arm → List Node
  | .mk _ guard body _ => guard.toList.map .expr ++ body.parts

def Match.parts : Match → List Node
  | .mk _ target arms _ _ => .expr target :: arms.flatMap Arm.parts

def ElseIf.parts : ElseIf → List Node
  | .mk test body => .expr test :: body.map .stmt

def Catch.parts : Catch → List Node
  | .mk _ _ body => body.map .stmt

def ExprKind.parts : ExprKind → List Node
  | .field base _ => [.expr base]
  | .index base place => [.expr base, .expr place]
  | .binary left _ right => [.expr left, .expr right]
  | .unary _ operand => [.expr operand]
  | .conditional test yes no => [.expr test, .expr yes, .expr no]
  | .call _ _ receiver args => receiver.toList.map .expr ++ args.map .expr
  | .create _ _ args => args.map .expr
  | .someOf value => [.expr value]
  | .okOf value => [.expr value]
  | .errOf value => [.expr value]
  | .await value => [.expr value]
  | .lambda _ body => body.map .stmt
  | .matching m => m.parts
  | .quantifier _ _ body => [.expr body]
  | _ => []

def Stmt.parts : Stmt → List Node
  | .bind _ value _ => [.expr value]
  | .assign target value _ => [.expr target, .expr value]
  | .branch test body others otherwise _ =>
    .expr test :: body.map .stmt ++ others.flatMap ElseIf.parts ++ (otherwise.getD []).map .stmt
  | .count _ start stop step body _ =>
    [.expr start, .expr stop] ++ step.toList.map .expr ++ body.map .stmt
  | .each _ source body _ => .expr source :: body.map .stmt
  | .loop test body _ => .expr test :: body.map .stmt
  | .matching m => m.parts
  | .attempt body clauses finish _ =>
    body.map .stmt ++ clauses.flatMap Catch.parts ++ (finish.getD []).map .stmt
  | .ret value _ => value.toList.map .expr
  | .raise value _ => [.expr value]
  | .call e _ => [.expr e]

def Node.parts : Node → List Node
  | .expr e => e.kind.parts
  | .stmt s => s.parts

def Occurs (body : List Stmt) (n : Node) : Prop :=
  ∃ s ∈ body, Relation.ReflTransGen (fun a b => b ∈ a.parts) (Node.stmt s) n

/-- What a part contributes by itself, calls within the module apart: a raised exception, a write to
a member or an element, a use of something outside the module as the catalog has it, and anything at
all for a call that has no callee. -/
inductive Primitive (catalog : Catalog) : Node → EffectSet → Prop
  | raise (value : Expr) (span : Span) :
    Primitive catalog (.stmt (.raise value span)) (.known [.throwing])
  | writeField (base : Expr) (name : String) (ty : Ty) (loc : Span) (value : Expr) (span : Span) :
    Primitive catalog (.stmt (.assign (.mk (.field base name) ty loc) value span)) (.known [.heapWrite])
  | writeElement (base place : Expr) (ty : Ty) (loc : Span) (value : Expr) (span : Span) :
    Primitive catalog (.stmt (.assign (.mk (.index base place) ty loc) value span)) (.known [.heapWrite])
  | external (target receiver method : String) (object : Option Expr) (args : List Expr) (ty : Ty)
      (span : Span) :
    Primitive catalog (.expr (.mk (.call target (.external receiver method) object args) ty span))
      ((catalog.lookup (Signature.ofCall receiver method (args.map (·.ty)))).getD .unknown)
  | creation (type : Ty) (args : List Expr) (ty : Ty) (span : Span) :
    Primitive catalog (.expr (.mk (.create type none args) ty span))
      ((catalog.lookup (Signature.ofCreation type)).getD .unknown)
  | getter {path receiver property : String} {set : EffectSet} (ty : Ty) (span : Span)
    (hpath : Text.cutLast? '.' path = some (receiver, property))
    (hset : catalog.lookupCall receiver ("get_" ++ property) [] = some set) :
    Primitive catalog (.expr (.mk (.static path) ty span)) set
  | unresolved (target : String) (object : Option Expr) (args : List Expr) (ty : Ty) (span : Span) :
    Primitive catalog (.expr (.mk (.call target .unresolved object args) ty span)) .unknown

inductive CallsId : Node → String → Prop
  | function (target : String) (symbol : SymbolId) (id : String) (object : Option Expr)
    (args : List Expr) (ty : Ty) (span : Span) :
    CallsId (.expr (.mk (.call target (.function symbol id) object args) ty span)) id
  | method (target className id : String) (object : Option Expr) (args : List Expr) (ty : Ty)
    (span : Span) :
    CallsId (.expr (.mk (.call target (.method className id) object args) ty span)) id

theorem eq_flatMap {β : Type} {f : List α → List β} {g : α → List β} (hnil : f [] = [])
    (hcons : ∀ a as, f (a :: as) = g a ++ f as) (as : List α) : f as = as.flatMap g := by
  induction as with
  | nil => exact hnil
  | cons a as ih => rw [hcons, ih, flatMap_cons]

/-! ## The sites of a part -/

section Sites
variable (catalog : Catalog)

def Node.sites : Node → List Site
  | .expr e => Sites.expr catalog e
  | .stmt s => Sites.stmt catalog s

def Node.ownSites : Node → List Site
  | .expr (.mk (.static path) _ span) => Site.ofStatic catalog path span
  | .expr (.mk (.call target callee _ args) _ span) =>
    Site.ofCall catalog target callee (args.map (·.ty)) span
  | .expr (.mk (.create ty className _) _ span) => Site.ofCreation catalog ty className span
  | .stmt (.assign target _ span) => Site.ofAssignment target span
  | .stmt (.raise _ span) => [Site.ofEffect .throwing span]
  | _ => []

theorem sites_exprs (es : List Expr) :
    Sites.exprs catalog es = (es.map Node.expr).flatMap (Node.sites catalog) := by
  rw [flatMap_map]
  exact eq_flatMap rfl (fun _ _ => rfl) es

theorem sites_expr? (e : Option Expr) :
    Sites.expr? catalog e = (e.toList.map Node.expr).flatMap (Node.sites catalog) := by
  cases e <;> simp [Sites.expr?, Node.sites]

theorem sites_stmts (ss : List Stmt) :
    Sites.stmts catalog ss = (ss.map Node.stmt).flatMap (Node.sites catalog) := by
  rw [flatMap_map]
  exact eq_flatMap rfl (fun _ _ => rfl) ss

theorem sites_stmts? (ss : Option (List Stmt)) :
    Sites.stmts? catalog ss = ((ss.getD []).map Node.stmt).flatMap (Node.sites catalog) := by
  cases ss with
  | none => simp [Sites.stmts?]
  | some ss => simpa [Sites.stmts?] using sites_stmts catalog ss

theorem sites_matchArms (arms : List Arm) :
    Sites.matchArms catalog arms = (arms.flatMap Arm.parts).flatMap (Node.sites catalog) := by
  rw [flatMap_assoc]
  refine eq_flatMap rfl (fun a more => ?_) arms
  obtain ⟨_, guard, _ | _, _⟩ := a <;>
    simp [Sites.matchArms, Sites.armBody, Arm.parts, ArmBody.parts, sites_expr?, sites_stmts, Node.sites]

theorem sites_matching (m : Match) : Sites.matching catalog m = m.parts.flatMap (Node.sites catalog) := by
  obtain ⟨_, target, arms, _, _⟩ := m
  simp only [Sites.matching, Match.parts, flatMap_cons, Node.sites, sites_matchArms]

theorem sites_elseIfs (others : List ElseIf) :
    Sites.elseIfs catalog others = (others.flatMap ElseIf.parts).flatMap (Node.sites catalog) := by
  rw [flatMap_assoc]
  refine eq_flatMap rfl (fun ⟨test, body⟩ more => ?_) others
  simp [Sites.elseIfs, ElseIf.parts, Node.sites, sites_stmts]

theorem sites_catches (clauses : List Catch) :
    Sites.catches catalog clauses = (clauses.flatMap Catch.parts).flatMap (Node.sites catalog) := by
  rw [flatMap_assoc]
  refine eq_flatMap rfl (fun ⟨_, _, body⟩ more => ?_) clauses
  simp [Sites.catches, Catch.parts, sites_stmts]

theorem Node.mem_sites_iff (n : Node) (x : Site) :
    x ∈ n.sites catalog ↔ x ∈ n.ownSites catalog ∨ ∃ p ∈ n.parts, x ∈ p.sites catalog := by
  rw [← mem_flatMap]
  cases n with
  | expr e =>
    obtain ⟨kind, ty, span⟩ := e
    simp only [Node.sites, Sites.expr, Node.parts, Expr.kind]
    cases kind with
    | call target callee receiver args =>
      simp only [Sites.exprKind, Node.ownSites, ExprKind.parts, sites_exprs, sites_expr?, mem_append,
        flatMap_append]
      tauto
    | create ty className args =>
      simp only [Sites.exprKind, Node.ownSites, ExprKind.parts, sites_exprs, mem_append]
      tauto
    | _ =>
      simp [Sites.exprKind, Node.ownSites, ExprKind.parts, sites_stmts, sites_matching, Node.sites]
  | stmt s =>
    simp only [Node.sites, Node.parts]
    cases s with
    | raise value span =>
      simp only [Sites.stmt, Node.ownSites, Stmt.parts, mem_append, flatMap_cons, flatMap_nil,
        Node.sites]
      tauto
    | _ =>
      simp [Sites.stmt, Node.ownSites, Stmt.parts, sites_expr?, sites_stmts, sites_stmts?, sites_matching,
        sites_elseIfs, sites_catches, Node.sites]

end Sites

/-! ## All parts of a body -/

theorem sizeOf_le_of_mem_stmts {ss : List Stmt} (h : p ∈ ss.map Node.stmt) : sizeOf p ≤ sizeOf ss := by
  obtain ⟨s, hs, rfl⟩ := mem_map.mp h
  have hlt := sizeOf_lt_of_mem hs
  simp only [Node.stmt.sizeOf_spec]
  omega

theorem sizeOf_le_of_mem_exprs {es : List Expr} (h : p ∈ es.map Node.expr) : sizeOf p ≤ sizeOf es := by
  obtain ⟨e, he, rfl⟩ := mem_map.mp h
  have hlt := sizeOf_lt_of_mem he
  simp only [Node.expr.sizeOf_spec]
  omega

theorem sizeOf_le_of_mem_expr? {e : Option Expr} (h : p ∈ e.toList.map Node.expr) :
    sizeOf p ≤ sizeOf e := by
  cases e with
  | none => simp at h
  | some e =>
    obtain rfl : p = .expr e := by simpa using h
    simp

theorem sizeOf_le_of_mem_stmts? {ss : Option (List Stmt)} (h : p ∈ (ss.getD []).map Node.stmt) :
    sizeOf p ≤ sizeOf ss := by
  cases ss with
  | none => simp at h
  | some ss =>
    have hle := sizeOf_le_of_mem_stmts h
    simp only [Option.getD_some, Option.some.sizeOf_spec] at hle ⊢
    omega

theorem sizeOf_le_of_mem_flatMap [SizeOf α] {parts : α → List Node}
    (hparts : ∀ a, ∀ p ∈ parts a, sizeOf p ≤ sizeOf a) {as : List α} (h : p ∈ as.flatMap parts) :
    sizeOf p ≤ sizeOf as := by
  obtain ⟨a, ha, hp⟩ := mem_flatMap.mp h
  exact Nat.le_trans (hparts a p hp) (Nat.le_of_lt (sizeOf_lt_of_mem ha))

theorem Arm.sizeOf_le_of_mem_parts (a : Arm) (p : Node) (h : p ∈ a.parts) : sizeOf p ≤ sizeOf a := by
  obtain ⟨_, guard, body, _⟩ := a
  simp only [Arm.mk.sizeOf_spec]
  rcases mem_append.mp h with h | h
  · have := sizeOf_le_of_mem_expr? h
    omega
  · cases body with
    | block body =>
      have := sizeOf_le_of_mem_stmts h
      simp only [ArmBody.block.sizeOf_spec]
      omega
    | value e =>
      obtain rfl : p = .expr e := by simpa [ArmBody.parts] using h
      simp only [ArmBody.value.sizeOf_spec, Node.expr.sizeOf_spec]
      omega

theorem Match.sizeOf_le_of_mem_parts (m : Match) (p : Node) (h : p ∈ m.parts) : sizeOf p ≤ sizeOf m := by
  obtain ⟨_, target, arms, _, _⟩ := m
  simp only [Match.mk.sizeOf_spec]
  rcases mem_cons.mp h with rfl | h
  · simp only [Node.expr.sizeOf_spec]
    omega
  · have := sizeOf_le_of_mem_flatMap Arm.sizeOf_le_of_mem_parts h
    omega

theorem ElseIf.sizeOf_le_of_mem_parts (e : ElseIf) (p : Node) (h : p ∈ e.parts) :
    sizeOf p ≤ sizeOf e := by
  obtain ⟨test, body⟩ := e
  simp only [ElseIf.mk.sizeOf_spec]
  rcases mem_cons.mp h with rfl | h
  · simp only [Node.expr.sizeOf_spec]
    omega
  · have := sizeOf_le_of_mem_stmts h
    omega

theorem Catch.sizeOf_le_of_mem_parts (c : Catch) (p : Node) (h : p ∈ c.parts) : sizeOf p ≤ sizeOf c := by
  obtain ⟨_, _, body⟩ := c
  have hp : p ∈ body.map Node.stmt := h
  have := sizeOf_le_of_mem_stmts hp
  simp only [Catch.mk.sizeOf_spec]
  omega

theorem ExprKind.sizeOf_le_of_mem_parts (k : ExprKind) (p : Node) (h : p ∈ k.parts) :
    sizeOf p ≤ sizeOf k := by
  cases k <;> simp only [ExprKind.parts, mem_append, mem_cons, not_mem_nil, or_false] at h <;>
    simp only [field.sizeOf_spec, index.sizeOf_spec, binary.sizeOf_spec, unary.sizeOf_spec,
      conditional.sizeOf_spec, call.sizeOf_spec, create.sizeOf_spec, someOf.sizeOf_spec, okOf.sizeOf_spec,
      errOf.sizeOf_spec, await.sizeOf_spec, lambda.sizeOf_spec, matching.sizeOf_spec,
      quantifier.sizeOf_spec] <;>
    grind [Node.expr.sizeOf_spec, → sizeOf_le_of_mem_exprs, → sizeOf_le_of_mem_expr?,
      → sizeOf_le_of_mem_stmts, → Match.sizeOf_le_of_mem_parts]

theorem Stmt.sizeOf_le_of_mem_parts (s : Stmt) (p : Node) (h : p ∈ s.parts) : sizeOf p ≤ sizeOf s := by
  have helse {others : List ElseIf} : p ∈ others.flatMap ElseIf.parts → sizeOf p ≤ sizeOf others :=
    sizeOf_le_of_mem_flatMap ElseIf.sizeOf_le_of_mem_parts
  have hcatch {clauses : List Catch} : p ∈ clauses.flatMap Catch.parts → sizeOf p ≤ sizeOf clauses :=
    sizeOf_le_of_mem_flatMap Catch.sizeOf_le_of_mem_parts
  cases s <;> simp only [Stmt.parts, mem_append, mem_cons, not_mem_nil, or_false] at h <;>
    simp only [bind.sizeOf_spec, assign.sizeOf_spec, branch.sizeOf_spec, count.sizeOf_spec,
      each.sizeOf_spec,
      loop.sizeOf_spec, matching.sizeOf_spec, attempt.sizeOf_spec, ret.sizeOf_spec, raise.sizeOf_spec,
      call.sizeOf_spec] <;>
    grind [Node.expr.sizeOf_spec, → sizeOf_le_of_mem_expr?, → sizeOf_le_of_mem_stmts,
      → sizeOf_le_of_mem_stmts?, → Match.sizeOf_le_of_mem_parts]

theorem Node.sizeOf_lt_of_mem_parts {n p : Node} (h : p ∈ n.parts) : sizeOf p < sizeOf n := by
  cases n with
  | expr e =>
    obtain ⟨kind, ty, span⟩ := e
    have := ExprKind.sizeOf_le_of_mem_parts kind p h
    simp only [Node.expr.sizeOf_spec, Expr.mk.sizeOf_spec]
    omega
  | stmt s =>
    have := Stmt.sizeOf_le_of_mem_parts s p h
    simp only [Node.stmt.sizeOf_spec]
    omega

/-- A list of what a part has by itself and of what the parts directly inside have is one of what
all parts within have by themselves. -/
theorem Node.mem_iff_within (hall : ∀ n x, x ∈ all n ↔ x ∈ own n ∨ ∃ p ∈ n.parts, x ∈ all p)
    (n : Node) (x : α) :
    x ∈ all n ↔ ∃ p, Relation.ReflTransGen (fun a b => b ∈ Node.parts a) n p ∧ x ∈ own p := by
  constructor
  · -- The size of a part bounds the descent to the place that an element comes from.
    intro h
    induction hsize : sizeOf n using Nat.strongRecOn generalizing n with
    | _ size ih =>
      rcases (hall n x).mp h with h | ⟨p, hp, hx⟩
      · exact ⟨n, .refl, h⟩
      · obtain ⟨q, hpq, hq⟩ := ih (sizeOf p) (hsize ▸ Node.sizeOf_lt_of_mem_parts hp) p hx rfl
        exact ⟨q, hpq.head hp, hq⟩
  · rintro ⟨p, hnp, hx⟩
    induction hnp using Relation.ReflTransGen.head_induction_on with
    | refl => exact (hall p x).mpr (.inl hx)
    | head hstep _ ih => exact (hall _ x).mpr (.inr ⟨_, hstep, ih⟩)

theorem mem_flatMap_iff_occurs (hall : ∀ n x, x ∈ all n ↔ x ∈ own n ∨ ∃ p ∈ n.parts, x ∈ all p)
    {body : List Stmt} {x : α} :
    x ∈ (body.map Node.stmt).flatMap all ↔ ∃ n, Occurs body n ∧ x ∈ own n := by
  rw [flatMap_map]
  simp only [mem_flatMap, Node.mem_iff_within hall, Occurs]
  constructor
  · rintro ⟨s, hs, n, hn, hx⟩
    exact ⟨n, ⟨s, hs, hn⟩, hx⟩
  · rintro ⟨n, ⟨s, hs, hn⟩, hx⟩
    exact ⟨s, hs, n, hn, hx⟩

section Contributions
variable {catalog : Catalog} {body : List Stmt}

theorem mem_sites_iff_occurs {x : Site} :
    x ∈ Sites.stmts catalog body ↔ ∃ n, Occurs body n ∧ x ∈ n.ownSites catalog := by
  rw [sites_stmts]
  exact mem_flatMap_iff_occurs (Node.mem_sites_iff catalog)

theorem cause_of_mem_ownSites {n : Node} {x : Site} (hx : x ∈ n.ownSites catalog) :
    (∃ set source, x.cause = .effects set source ∧ Primitive catalog n set) ∨
      ∃ id target, x.cause = .call id target ∧ CallsId n id := by
  unfold Node.ownSites at hx
  split at hx
  · next path ty span =>
    unfold Site.ofStatic at hx
    split at hx
    · simp at hx
    · next receiver property hpath =>
      split at hx
      · next found hset =>
        obtain rfl := mem_singleton.mp hx
        exact .inl ⟨found, path, rfl, .getter ty span hpath hset⟩
      · simp at hx
  · next target callee object args ty span =>
    cases callee <;> simp only [Site.ofCall, mem_singleton, not_mem_nil] at hx <;> subst hx
    · exact .inr ⟨_, _, rfl, .function target _ _ object args ty span⟩
    · exact .inr ⟨_, _, rfl, .method target _ _ object args ty span⟩
    · exact .inl ⟨_, _, rfl, .external target _ _ object args ty span⟩
    · exact .inl ⟨_, _, rfl, .unresolved target object args ty span⟩
  · next type className args ty span =>
    cases className <;> simp only [Site.ofCreation, mem_singleton, not_mem_nil] at hx
    subst hx
    exact .inl ⟨_, _, rfl, .creation type args ty span⟩
  · next target value span =>
    obtain ⟨kind, ty, loc⟩ := target
    cases kind <;> simp only [Site.ofAssignment, Expr.kind, mem_singleton, not_mem_nil] at hx <;> subst hx
    · exact .inl ⟨_, _, rfl, .writeField _ _ ty loc value span⟩
    · exact .inl ⟨_, _, rfl, .writeElement _ _ ty loc value span⟩
  · next value span =>
    obtain rfl := mem_singleton.mp hx
    exact .inl ⟨_, _, rfl, .raise value span⟩
  · simp at hx

theorem ownSites_effects_iff {n : Node} {set : EffectSet} :
    (∃ x ∈ n.ownSites catalog, ∃ source, x.cause = .effects set source) ↔ Primitive catalog n set := by
  constructor
  · rintro ⟨x, hx, source, hc⟩
    rcases cause_of_mem_ownSites hx with ⟨_, _, hc', h⟩ | ⟨_, _, hc', _⟩ <;> cases hc.symm.trans hc'
    exact h
  · intro h
    cases h with
    | getter ty span hpath hset => simp [Node.ownSites, Site.ofStatic, hpath, hset]
    | _ => simp [Node.ownSites, Site.ofEffect, Site.ofAssignment, Expr.kind, Site.ofCall, Site.ofCreation,
        Site.ofSignature]

theorem ownSites_call_iff {n : Node} {id : String} :
    (∃ x ∈ n.ownSites catalog, ∃ target, x.cause = .call id target) ↔ CallsId n id := by
  constructor
  · rintro ⟨x, hx, target, hc⟩
    rcases cause_of_mem_ownSites hx with ⟨_, _, hc', _⟩ | ⟨_, _, hc', h⟩ <;> cases hc.symm.trans hc'
    exact h
  · intro h
    cases h <;> simp [Node.ownSites, Site.ofCall]

theorem exists_site_iff {P : Site → Prop} :
    (∃ x ∈ Sites.stmts catalog body, P x) ↔ ∃ n, Occurs body n ∧ ∃ x ∈ n.ownSites catalog, P x := by
  simp only [mem_sites_iff_occurs]
  constructor
  · rintro ⟨x, ⟨n, hn, hx⟩, hP⟩
    exact ⟨n, hn, x, hx, hP⟩
  · rintro ⟨n, hn, x, hx, hP⟩
    exact ⟨x, ⟨n, hn, hx⟩, hP⟩

theorem exists_site_effects_iff {set : EffectSet} :
    (∃ x ∈ Sites.stmts catalog body, ∃ source, x.cause = .effects set source) ↔
      ∃ n, Occurs body n ∧ Primitive catalog n set := by
  simp only [exists_site_iff, ownSites_effects_iff]

theorem exists_site_call_iff {id : String} :
    (∃ x ∈ Sites.stmts catalog body, ∃ target, x.cause = .call id target) ↔ ∃ n, Occurs body n ∧
      CallsId n id := by
  simp only [exists_site_iff, ownSites_call_iff]

end Contributions

end TagLang.Bound
