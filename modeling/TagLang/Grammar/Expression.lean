import TagLang.Grammar.Attribute
import TagLang.Grammar.Pattern

/-! # Expressions

Expressions and statements contain each other, so the rules are written against parsers for what
stands inside. Every use of one of them comes behind a token that the rule has taken itself.
-/

namespace TagLang.Grammar

variable [Fallback]

structure Rules where
  expr : TryParser Expr
  block : Parser (List Stmt)

def Rules.exprOrError (r : Rules) : Parser Expr := do
  let span ← here
  match ← r.expr.run with
  | .ok e => return e
  | .error e =>
    report e
    skipToTag
    return .error span

def startsPlainExpr : TokenKind → Bool
  | .int _ => true
  | .float _ => true
  | .str _ => true
  | .bool _ => true
  | .null => true
  | .ident _ => true
  | .lParen => true
  | .minus => true
  | .bang => true
  | .tilde => true
  | _ => false

def startsExpr : TokenKind → Bool
  | .tag name => ["C", "NEW", "SM", "NN", "OK", "ERR", "AWAIT", "LAM", "W"].contains name
  | kind => startsPlainExpr kind

/-! ## Calls and objects -/

def args (r : Rules) : Parser (List Expr) :=
  many do
    if (← peek) = .tag "A" then
      let _ ← take
      return .found (← r.exprOrError)
    else return .done

def call (r : Rules) : Parser (String × List Expr × Span) := do
  let start := (← take).span
  let target ← match ← takeAttrs with
    | some (fields, _) =>
      if (fields.headD "").isEmpty then
        missingAttr "C" "target" start
        pure ""
      else pure (":".intercalate fields)
    | none =>
      missingAttr "C" "target" start
      pure ""
  let (args, stop) ← withOpen "C" do
    let args ← args r
    return (args, ← expectSimpleClose "C" "call" start)
  return (target, args, start.merge stop)

def create (r : Rules) : Parser Expr := do
  let start := (← take).span
  let missing : Parser TypeRef := do
    missingAttr "NEW" "type" start
    return ⟨"", .error, start⟩
  let ty ← match ← takeAttrs with
    | some (fields, attrs) =>
      if (fields.headD "").isEmpty then missing else typeRef (fields.headD "") attrs.span
    | none => missing
  let (args, stop) ← withOpen "NEW" do
    let args ← args r
    return (args, ← expectSimpleClose "NEW" "object creation" start)
  return .create ty args (start.merge stop)

/-! ## Lambdas -/

def param : Parser (Option Param) := do
  let t ← take
  match ← takeAttrs with
  | some (fields, attrs) =>
    if (fields.getD 1 "").isEmpty then
      missingAttr "I" "type:name" attrs.span
      return none
    else
      let ty ← typeRef (fields.headD "") attrs.span
      return some ⟨fields.getD 1 "", ty, t.span.merge attrs.span⟩
  | none =>
    missingAttr "I" "type:name" t.span
    return none

def params : Parser (List Param) :=
  many do
    if (← peek) = .tag "I" then
      match ← param with
      | some p => return .found p
      | none => return .skip
    else return .done

/-- The body of a lambda is a block, or one expression whose value it returns. -/
def lambda (r : Rules) : Parser Expr := do
  let start := (← take).span
  let (fields, head) ← structuralAttrs "LAM" start
  let id := fields.headD ""
  let params ← params
  let (body, stop) ← withOpen "LAM" do
    let body ← if startsPlainExpr (← peek) then do
        let value ← r.exprOrError
        pure [Stmt.ret (some value) value.span]
      else r.block
    return (body, ← expectClose "LAM" "lambda" id head)
  return .lambda id params body (head.merge stop)

/-! ## Matches -/

def patternOrNone : Parser (Option Pattern) := do
  match ← (pattern ((← get).rest.length + 1)).run with
  | .ok p => return some p
  | .error e =>
    report e
    modify (·.skipUntil fun kind => kind = .arrow || isTagLike kind)
    return none

/-- An arm of a match whose first tag is the current token. An arm without a pattern is left out, so
that it does not count for coverage. -/
def arm (r : Rules) (isExpression : Bool) : Parser (Option Arm) := do
  let start := (← take).span
  let pattern ← patternOrNone
  let guard ← if (← peek) = .tag "WHEN" then do
      let _ ← take
      pure (some (← r.exprOrError))
    else pure none
  skipArrow
  let body ← if isExpression then ArmBody.value <$> r.exprOrError else ArmBody.block <$> r.block
  return pattern.map fun p => ⟨p, guard, body, start⟩

def arms (r : Rules) (isExpression : Bool) : Parser (List Arm) :=
  many do
    let s ← get
    let stray : Parser (Round Arm) := do
      reportUnexpected "match arm (§K)"
      recover
      return .skip
    match s.kind with
    | .tag "K" =>
      match ← arm r isExpression with
      | some a => return .found a
      | none => return .skip
    | .eof => return .done
    | .closeTag _ => return .done
    | .tag name => if name ≠ "WHEN" && s.isOpenClause name then return .done else stray
    | _ => stray

def matching (r : Rules) (isExpression : Bool) : Parser Match := do
  let start := (← take).span
  let (fields, head) ← structuralAttrs "W" start
  let id := fields.headD ""
  let target ← r.exprOrError
  let (arms, stop) ← withOpen "W" do
    let arms ← arms r isExpression
    return (arms, ← expectClose "W" "match" id head)
  return ⟨id, target, arms, isExpression, head.merge stop⟩

/-! ## Parentheses -/

def binOp? : TokenKind → Option BinOp
  | .plus => some .add
  | .minus => some .sub
  | .star => some .mul
  | .slash => some .div
  | .percent => some .mod
  | .eq => some .eq
  | .notEq => some .notEq
  | .lt => some .lt
  | .ltEq => some .ltEq
  | .gt => some .gt
  | .gtEq => some .gtEq
  | .andAnd => some .and
  | .orOr => some .or
  | .amp => some .bitAnd
  | .pipe => some .bitOr
  | .caret => some .bitXor
  | .shl => some .shl
  | .shr => some .shr
  | .coalesce => some .coalesce
  | .implies => some .implies
  | _ => none

def leadsGroup (kind : TokenKind) : Bool :=
  kind = .bang || kind = .tilde || kind = .question || (binOp? kind).isSome

def widen (outer : Span) : Expr → Expr
  | .binary l op r s => .binary l op r (s.merge outer)
  | .unary op e s => .unary op e (s.merge outer)
  | .conditional c a b s => .conditional c a b (s.merge outer)
  | e => e

def joinLeft (op : BinOp) (l r : Expr) : Expr := .binary l op r (l.span.merge r.span)

def applyLeading (op : Token) (operands : List Expr) (span : Span) : Except ParseError Expr :=
  let wrong (expected : String) (n : Nat) : Except ParseError Expr :=
    .error ⟨.unexpected s!"{n} operand(s)" s!"{expected} for '{op.text}'", span⟩
  match op.kind, operands with
  | .bang, [e] => .ok (.unary .not e span)
  | .bang, es => wrong "one operand" es.length
  | .tilde, [e] => .ok (.unary .bitNot e span)
  | .tilde, es => wrong "one operand" es.length
  | .minus, [e] => .ok (.unary .neg e span)
  | .question, [c, a, b] => .ok (.conditional c a b span)
  | .question, es => wrong "three operands" es.length
  | kind, es =>
    match binOp? kind with
    | none => wrong "an operator" 0
    | some o =>
      if o.isComparison || o = .implies then
        match es with
        | [l, r] => .ok (.binary l o r span)
        | es => wrong "exactly two operands" es.length
      else
        match es with
        | l :: r :: es => .ok (widen span (es.foldl (joinLeft o) (joinLeft o l r)))
        | es => wrong "at least two operands" es.length

def leadingGroup (r : Rules) (opened : Span) : TryParser Expr := do
  let op ← take
  let operands ← tryMany do
    match ← peek with
    | .rParen => return .done
    | .eof => return .done
    | _ => return .found (← r.expr)
  let closed ← expect .rParen "')'"
  ExceptT.mk (pure (applyLeading op operands (opened.merge closed.span)))

def unaryOp? (kind next : TokenKind) : Option UnaryOp :=
  match kind, next with
  | .minus, .int _ => none
  | .minus, .float _ => none
  | .minus, _ => some .neg
  | .bang, _ => some .not
  | .tilde, _ => some .bitNot
  | _, _ => none

def operand (r : Rules) : Nat → TryParser Expr
  | 0 => Fallback.expr
  | fuel + 1 => do
    match unaryOp? (← peek) (← peekNext) with
    | some op =>
      let start := (← take).span
      let e ← operand r fuel
      return .unary op e (start.merge e.span)
    | none => r.expr

mutual

/-- Operands joined by operators of at least a level. Each operand and each operator takes a token. -/
def infixFrom (r : Rules) : Nat → Nat → TryParser Expr
  | 0, _ => Fallback.expr
  | fuel + 1, level => do
    let left ← operand r (fuel + 1)
    infixRest r fuel level left

def infixRest (r : Rules) : Nat → Nat → Expr → TryParser Expr
  | 0, _, left => Fallback.extend left
  | fuel + 1, level, left => do
    match binOp? (← peek) with
    | some op =>
      if op.precedence < level then return left
      else
        let _ ← take
        let right ← infixFrom r fuel (if op.isRightAssoc then op.precedence else op.precedence + 1)
        infixRest r fuel level (joinLeft op left right)
    | none => return left

end

def infixGroup (r : Rules) (opened : Span) : TryParser Expr := do
  let e ← infixFrom r ((← get).rest.length + 2) 0
  let closed ← expect .rParen "')'"
  return widen (opened.merge closed.span) e

def boundVar : TryParser (String × TypeRef) := do
  let _ ← take
  let (name, _) ← expectIdent
  match ← peek with
  | .ident text =>
    let t ← take
    let ty ← typeRef text t.span
    let _ ← expect .rParen "')'"
    return (name, ty)
  | _ => giveUp "bound variable type"

def quantifier (r : Rules) (opened : Span) (kind : QuantifierKind) : TryParser Expr := do
  let _ ← take
  let _ ← expect .lParen "'(' before bound variables"
  let vars ← tryMany do
    if (← peek) = .lParen then return .found (← boundVar) else return .done
  let _ ← expect .rParen "')' after bound variables"
  let body ← r.expr
  let closed ← expect .rParen "')'"
  return .quantifier kind vars body (opened.merge closed.span)

def quantifierKind? (kind next : TokenKind) : Option QuantifierKind :=
  match kind, next with
  | .ident "forall", .lParen => some .universal
  | .ident "exists", .lParen => some .existential
  | _, _ => none

/-- A group in parentheses. An operator in front makes it a leading group; a sign in front may as
well belong to the first of several operands, so then the other form is tried from the same place. -/
def group (r : Rules) : TryParser Expr := do
  let opened := (← take).span
  let s ← get
  match quantifierKind? s.kind s.nextKind with
  | some kind => quantifier r opened kind
  | none =>
    if s.kind = .minus || s.kind = .bang || s.kind = .tilde then
      tryCatch (leadingGroup r opened) fun e => do
        set s
        tryCatch (infixGroup r opened) fun _ => throw e
    else if leadsGroup s.kind then leadingGroup r opened
    else infixGroup r opened

/-! ## The whole -/

def postfixes (r : Rules) : Nat → Expr → TryParser Expr
  | 0, e => Fallback.extend e
  | fuel + 1, e => do
    match ← peek with
    | .dot =>
      let _ ← take
      let (name, span) ← expectIdent
      postfixes r fuel (.field e name (e.span.merge span))
    | .lBracket =>
      let _ ← take
      let place ← r.expr
      let closed ← expect .rBracket "']'"
      postfixes r fuel (.index e place (e.span.merge closed.span))
    | _ => return e

def wrapped (r : Rules) (wrap : Expr → Span → Expr) : TryParser Expr := do
  let start := (← take).span
  let e ← r.expr
  return wrap e (start.merge e.span)

def primary (r : Rules) : TryParser Expr := do
  let s ← get
  let span := s.current.span
  match s.kind with
  | .int n =>
    let _ ← take
    return .int n span
  | .float x =>
    let _ ← take
    return .float x span
  | .str text =>
    let _ ← take
    return .str text span
  | .bool b =>
    let _ ← take
    return .bool b span
  | .null =>
    let _ ← take
    return .null span
  | .ident name =>
    let _ ← take
    return .ident name span
  | .minus =>
    match s.nextKind with
    | .int n =>
      let _ ← take
      let number ← take
      return .int (negateSigned 64 n) (span.merge number.span)
    | .float x =>
      let _ ← take
      let number ← take
      return .float x.neg (span.merge number.span)
    | _ => giveUp "expression"
  | .lParen => group r
  | .tag "C" =>
    let (target, args, span) ← call r
    return .call target args span
  | .tag "NEW" => create r
  | .tag "SM" => wrapped r .someOf
  | .tag "OK" => wrapped r .okOf
  | .tag "ERR" => wrapped r .errOf
  | .tag "AWAIT" => wrapped r .await
  | .tag "NN" =>
    let _ ← take
    return .noneOf span
  | .tag "LAM" => lambda r
  | .tag "W" => return .matching (← matching r true)
  | _ => giveUp "expression"

def exprRule (r : Rules) : TryParser Expr := do
  let e ← primary r
  postfixes r ((← get).rest.length + 1) e

end TagLang.Grammar
