import TagLang.Bound
import TagLang.Proofs.Token.Name

/-! # The variables that contracts read

Which variables the value of an expression, and the result of a body, can depend on as far as
contracts can speak of them.
-/

namespace TagLang

abbrev SymbolTable.PlainId (symbols : SymbolTable) (id : SymbolId) : Prop := Plain (symbols.name id)

namespace Contract

section Reads

variable (P : SymbolId → Prop)

mutual

/-- Every variable that the translation of an expression looks up satisfies a property. -/
def ExprReads : Bound.Expr → Prop
  | .mk kind _ _ => KindReads kind

def KindReads : Bound.ExprKind → Prop
  | .var id => P id
  | .index base place => ExprReads base ∧ ExprReads place
  | .binary left _ right => ExprReads left ∧ ExprReads right
  | .unary _ operand => ExprReads operand
  | .conditional test yes no => ExprReads test ∧ ExprReads yes ∧ ExprReads no
  | .quantifier _ _ body => ExprReads body
  | _ => True

end

mutual

def StmtsRead : List Bound.Stmt → Prop
  | [] => True
  | .bind _ value _ :: more => ExprReads P value ∧ StmtsRead more
  | .ret (some value) _ :: more => ExprReads P value ∧ StmtsRead more
  | .branch test body others otherwise _ :: more =>
    (ExprReads P test ∧ StmtsRead body ∧ ElseIfsRead others ∧ OtherwiseReads otherwise) ∧ StmtsRead more
  | _ :: more => StmtsRead more

def OtherwiseReads : Option (List Bound.Stmt) → Prop
  | none => True
  | some body => StmtsRead body

def ElseIfsRead : List Bound.ElseIf → Prop
  | [] => True
  | .mk test body :: more => (ExprReads P test ∧ StmtsRead body) ∧ ElseIfsRead more

end

end Reads

end Contract

end TagLang
