import TagLang.Tree

/-! # Trees without places

What is left of a tree when every span is forgotten. Two trees with the same bare form say the same,
perhaps at different places of their texts.
-/

namespace TagLang

def TypeRef.bare (t : TypeRef) : TypeRef := { t with span := .nowhere }

def Param.bare (p : Param) : Param := { p with ty := p.ty.bare, span := .nowhere }

mutual

def Pattern.bare : Pattern → Pattern
  | .wildcard _ => .wildcard .nowhere
  | .binding name _ => .binding name .nowhere
  | .literal value _ => .literal value .nowhere
  | .someOf inner _ => .someOf inner.bare .nowhere
  | .noneOf _ => .noneOf .nowhere
  | .okOf inner _ => .okOf inner.bare .nowhere
  | .errOf inner _ => .errOf inner.bare .nowhere
  | .variant owner name args _ => .variant owner name (barePatterns args) .nowhere

def barePatterns : List Pattern → List Pattern
  | [] => []
  | p :: ps => p.bare :: barePatterns ps

end

@[simp] theorem barePatterns_eq_map (ps : List Pattern) : barePatterns ps = ps.map Pattern.bare := by
  induction ps with
  | nil => rfl
  | cons p ps ih => rw [barePatterns, ih, List.map_cons]

mutual

def Expr.bare : Expr → Expr
  | .int value _ => .int value .nowhere
  | .float value _ => .float value .nowhere
  | .str value _ => .str value .nowhere
  | .bool value _ => .bool value .nowhere
  | .null _ => .null .nowhere
  | .ident name _ => .ident name .nowhere
  | .field base name _ => .field base.bare name .nowhere
  | .index base place _ => .index base.bare place.bare .nowhere
  | .binary left op right _ => .binary left.bare op right.bare .nowhere
  | .unary op operand _ => .unary op operand.bare .nowhere
  | .conditional test yes no _ => .conditional test.bare yes.bare no.bare .nowhere
  | .call target args _ => .call target (bareExprs args) .nowhere
  | .create ty args _ => .create ty.bare (bareExprs args) .nowhere
  | .someOf value _ => .someOf value.bare .nowhere
  | .noneOf _ => .noneOf .nowhere
  | .okOf value _ => .okOf value.bare .nowhere
  | .errOf value _ => .errOf value.bare .nowhere
  | .lambda id params body _ => .lambda id (params.map Param.bare) (bareStmts body) .nowhere
  | .await value _ => .await value.bare .nowhere
  | .matching m => .matching m.bare
  | .quantifier kind vars body _ =>
    .quantifier kind (vars.map fun v => (v.1, v.2.bare)) body.bare .nowhere
  | .error _ => .error .nowhere

def bareExprs : List Expr → List Expr
  | [] => []
  | e :: es => e.bare :: bareExprs es

def bareExpr? : Option Expr → Option Expr
  | none => none
  | some e => some e.bare

def Match.bare : Match → Match
  | .mk id target arms isExpression _ => .mk id target.bare (bareArms arms) isExpression .nowhere

def bareArms : List Arm → List Arm
  | [] => []
  | a :: more => a.bare :: bareArms more

def Arm.bare : Arm → Arm
  | .mk pattern guard body _ => .mk pattern.bare (bareExpr? guard) body.bare .nowhere

def ArmBody.bare : ArmBody → ArmBody
  | .block body => .block (bareStmts body)
  | .value value => .value value.bare

def Stmt.bare : Stmt → Stmt
  | .bind name isMutable ty value _ => .bind name isMutable (ty.map TypeRef.bare) value.bare .nowhere
  | .assign target value _ => .assign target.bare value.bare .nowhere
  | .branch id test body elseIfs otherwise _ =>
    .branch id test.bare (bareStmts body) (bareElseIfs elseIfs) (bareStmts? otherwise) .nowhere
  | .count id var start stop step body _ =>
    .count id var start.bare stop.bare (bareExpr? step) (bareStmts body) .nowhere
  | .each id var source body _ => .each id var source.bare (bareStmts body) .nowhere
  | .loop id test body _ => .loop id test.bare (bareStmts body) .nowhere
  | .matching m => .matching m.bare
  | .attempt id body catches finish _ =>
    .attempt id (bareStmts body) (bareCatches catches) (bareStmts? finish) .nowhere
  | .ret value _ => .ret (bareExpr? value) .nowhere
  | .raise value _ => .raise value.bare .nowhere
  | .call target args _ => .call target (bareExprs args) .nowhere
  | .error _ => .error .nowhere

def bareStmts : List Stmt → List Stmt
  | [] => []
  | s :: more => s.bare :: bareStmts more

def bareStmts? : Option (List Stmt) → Option (List Stmt)
  | none => none
  | some body => some (bareStmts body)

def ElseIf.bare : ElseIf → ElseIf
  | .mk test body _ => .mk test.bare (bareStmts body) .nowhere

def bareElseIfs : List ElseIf → List ElseIf
  | [] => []
  | e :: more => e.bare :: bareElseIfs more

def Catch.bare : Catch → Catch
  | .mk exceptionType var body _ => .mk (exceptionType.map TypeRef.bare) var (bareStmts body) .nowhere

def bareCatches : List Catch → List Catch
  | [] => []
  | c :: more => c.bare :: bareCatches more

end

@[simp] theorem bareExprs_eq_map (es : List Expr) : bareExprs es = es.map Expr.bare := by
  induction es with
  | nil => rfl
  | cons e es ih => rw [bareExprs, ih, List.map_cons]

@[simp] theorem bareExpr?_eq_map (e : Option Expr) : bareExpr? e = e.map Expr.bare := by
  cases e <;> rfl

@[simp] theorem bareArms_eq_map (arms : List Arm) : bareArms arms = arms.map Arm.bare := by
  induction arms with
  | nil => rfl
  | cons a more ih => rw [bareArms, ih, List.map_cons]

@[simp] theorem bareStmts_eq_map (body : List Stmt) : bareStmts body = body.map Stmt.bare := by
  induction body with
  | nil => rfl
  | cons s more ih => rw [bareStmts, ih, List.map_cons]

@[simp] theorem bareStmts?_eq_map (body : Option (List Stmt)) :
    bareStmts? body = body.map (List.map Stmt.bare) := by
  cases body <;> simp [bareStmts?]

@[simp] theorem bareElseIfs_eq_map (others : List ElseIf) :
    bareElseIfs others = others.map ElseIf.bare := by
  induction others with
  | nil => rfl
  | cons e more ih => rw [bareElseIfs, ih, List.map_cons]

@[simp] theorem bareCatches_eq_map (catches : List Catch) :
    bareCatches catches = catches.map Catch.bare := by
  induction catches with
  | nil => rfl
  | cons c more ih => rw [bareCatches, ih, List.map_cons]

def EffectDecl.bare (e : EffectDecl) : EffectDecl := ⟨e.codes.map fun c => (c.1, .nowhere), .nowhere⟩

def BreakingMarker.bare (b : BreakingMarker) : BreakingMarker := { b with span := .nowhere }

def FunctionDef.bare (f : FunctionDef) : FunctionDef :=
  { f with
    params := f.params.map Param.bare
    returnType := f.returnType.map TypeRef.bare
    effects := f.effects.map EffectDecl.bare
    preconditions := f.preconditions.map Expr.bare
    postconditions := f.postconditions.map Expr.bare
    breaking := f.breaking.map BreakingMarker.bare
    body := f.body.map Stmt.bare
    span := .nowhere }

def MemberDef.bare (m : MemberDef) : MemberDef := { m with ty := m.ty.bare, span := .nowhere }

def ClassDef.bare (c : ClassDef) : ClassDef :=
  { c with
    fields := c.fields.map MemberDef.bare
    properties := c.properties.map MemberDef.bare
    methods := c.methods.map FunctionDef.bare
    span := .nowhere }

def InterfaceDef.bare (i : InterfaceDef) : InterfaceDef :=
  { i with methods := i.methods.map FunctionDef.bare, span := .nowhere }

def VariantDef.bare (v : VariantDef) : VariantDef :=
  { v with payload := v.payload.map TypeRef.bare, span := .nowhere }

def SumDef.bare (s : SumDef) : SumDef :=
  { s with variants := s.variants.map VariantDef.bare, span := .nowhere }

def Item.bare : Item → Item
  | .function f => .function f.bare
  | .classDef c => .classDef c.bare
  | .interface i => .interface i.bare
  | .enumeration e => .enumeration e.bare
  | .union u => .union u.bare

/-- What a module says, without the places where it says it. -/
def Module.bare (m : Module) : Module := { m with items := m.items.map Item.bare, span := .nowhere }

end TagLang
