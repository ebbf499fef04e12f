import TagLang.Grammar.Expression
import TagLang.Token.Lex

/-! # Assignment targets

A target is written inside an attribute block. Its text is an expression of its own: a name or a
literal with member accesses and subscripts behind it. Every part takes the span of the block.
-/

namespace TagLang.Grammar

section Reading

variable [Fallback]

/-- The parsers for a target with fewer than `n` tokens left. Only lambdas and matches have blocks,
and they are no targets, so that blocks are left unread. -/
def targetRules : Nat → Rules
  | 0 => { expr := Fallback.expr, block := pure [] }
  | n + 1 => { expr := exprRule (targetRules n), block := pure [] }

/-- Tokens as one expression, if they are one without errors. -/
def targetExpr? (tokens : List Token) : Option Expr :=
  let s := Stream.ofTokens tokens
  match (targetRules (s.rest.length + 1)).expr.run.run s with
  | (.ok e, s) => if s.kind = .eof && s.errors.isEmpty then some e else none
  | (.error _, _) => none

end Reading

/-- A target with the span of its block, unless the expression is no target. -/
def relocate (span : Span) : Expr → Option Expr
  | .ident name _ => some (.ident name span)
  | .int n _ => some (.int n span)
  | .str text _ => some (.str text span)
  | .field base name _ => do return .field (← relocate span base) name span
  | .index base place _ => do return .index (← relocate span base) (← relocate span place) span
  | _ => none

def target? (text : String) (span : Span) : Option Expr :=
  let lexed := lex text
  if lexed.errors.isEmpty then (targetExpr? lexed.tokens).bind (relocate span) else none

end TagLang.Grammar
