import TagLang.Tree
import Mathlib.Logic.Relation

/-! # The parts of a tree

The parts of a tree are all expressions and statements in it at any depth: operands, arguments, arms
and guards of matches, clauses, and the bodies of lambdas. What is said of a tree here is said of
each of its parts.
-/

namespace TagLang

/-- What holds of everything within reach holds of the start, and of everything within reach of each
first step. -/
theorem forall_reflTransGen_iff {α : Type} {r : α → α → Prop} {P : α → Prop} {a : α} :
    (∀ b, Relation.ReflTransGen r a b → P b) ↔ P a ∧ ∀ b, r a b → ∀ c, Relation.ReflTransGen r b c →
      P c := by
  constructor
  · intro h
    exact ⟨h a .refl, fun b hab c hbc => h c (hbc.head hab)⟩
  · rintro ⟨ha, hsteps⟩ b hab
    rcases hab.cases_head with rfl | ⟨c, hac, hcb⟩
    · exact ha
    · exact hsteps c hac b hcb

inductive Node
  | expr (e : Expr)
  | stmt (s : Stmt)

def ArmBody.parts : ArmBody → List Node
  | .block body => body.map .stmt
  | .value e => [.expr e]

def Arm.parts : Arm → List Node
  | .mk _ guard body _ => guard.toList.map .expr ++ body.parts

def Arm.pattern : Arm → Pattern
  | .mk p _ _ _ => p

def Match.parts : Match → List Node
  | .mk _ target arms _ _ => .expr target :: arms.flatMap Arm.parts

def Match.patterns : Match → List Pattern
  | .mk _ _ arms _ _ => arms.map Arm.pattern

def ElseIf.parts : ElseIf → List Node
  | .mk test body _ => .expr test :: body.map .stmt

def Catch.parts : Catch → List Node
  | .mk _ _ body _ => body.map .stmt

def Expr.parts : Expr → List Node
  | .field base _ _ => [.expr base]
  | .index base place _ => [.expr base, .expr place]
  | .binary left _ right _ => [.expr left, .expr right]
  | .unary _ operand _ => [.expr operand]
  | .conditional test yes no _ => [.expr test, .expr yes, .expr no]
  | .call _ args _ => args.map .expr
  | .create _ args _ => args.map .expr
  | .someOf value _ => [.expr value]
  | .okOf value _ => [.expr value]
  | .errOf value _ => [.expr value]
  | .await value _ => [.expr value]
  | .lambda _ _ body _ => body.map .stmt
  | .matching m => m.parts
  | .quantifier _ _ body _ => [.expr body]
  | _ => []

def Stmt.parts : Stmt → List Node
  | .bind _ _ _ value _ => [.expr value]
  | .assign target value _ => [.expr target, .expr value]
  | .branch _ test body others otherwise _ =>
    .expr test :: body.map .stmt ++ others.flatMap ElseIf.parts ++ (otherwise.getD []).map .stmt
  | .count _ _ start stop step body _ =>
    [.expr start, .expr stop] ++ step.toList.map .expr ++ body.map .stmt
  | .each _ _ source body _ => .expr source :: body.map .stmt
  | .loop _ test body _ => .expr test :: body.map .stmt
  | .matching m => m.parts
  | .attempt _ body clauses finish _ =>
    body.map .stmt ++ clauses.flatMap Catch.parts ++ (finish.getD []).map .stmt
  | .ret value _ => value.toList.map .expr
  | .raise value _ => [.expr value]
  | .call _ args _ => args.map .expr
  | .error _ => []

namespace Node

variable {n : Node} {T U : List Pattern → Prop}

def parts : Node → List Node
  | .expr e => e.parts
  | .stmt s => s.parts

def All (P : Node → Prop) (n : Node) : Prop :=
  ∀ p, Relation.ReflTransGen (fun a b => b ∈ parts a) n p → P p

theorem all_iff {P : Node → Prop} : n.All P ↔ P n ∧ ∀ p ∈ n.parts, p.All P := forall_reflTransGen_iff

theorem All.part {P : Node → Prop} {n p : Node} (h : n.All P) (hp : p ∈ n.parts) : p.All P :=
  (all_iff.mp h).2 p hp

/-- A part is no match, or the list of its patterns has a property. -/
def HasPatterns (T : List Pattern → Prop) : Node → Prop
  | .expr (.matching m) => T m.patterns
  | .stmt (.matching m) => T m.patterns
  | _ => True

abbrev Patterned (T : List Pattern → Prop) (n : Node) : Prop := n.All (HasPatterns T)

theorem HasPatterns.mono (h : ∀ ps, T ps → U ps) (hn : n.HasPatterns T) : n.HasPatterns U := by
  unfold HasPatterns at hn ⊢
  split
  · exact h _ hn
  · exact h _ hn
  · trivial

theorem Patterned.mono (h : ∀ ps, T ps → U ps) (hn : n.Patterned T) : n.Patterned U :=
  fun p hp => (hn p hp).mono h

theorem patterned_of_forall {T : List Pattern → Prop} (h : ∀ ps, T ps) (n : Node) : n.Patterned T := by
  intro p _
  unfold HasPatterns
  split
  · exact h _
  · exact h _
  · trivial

end Node

structure FunctionDef.Patterned (T : List Pattern → Prop) (f : FunctionDef) : Prop where
  preconditions : ∀ e ∈ f.preconditions, (Node.expr e).Patterned T
  postconditions : ∀ e ∈ f.postconditions, (Node.expr e).Patterned T
  body : ∀ s ∈ f.body, (Node.stmt s).Patterned T

theorem FunctionDef.patterned_of_forall {T : List Pattern → Prop} (h : ∀ ps, T ps)
    (f : FunctionDef) : f.Patterned T :=
  ⟨fun _ _ => Node.patterned_of_forall h _, fun _ _ => Node.patterned_of_forall h _,
    fun _ _ => Node.patterned_of_forall h _⟩

end TagLang
