import TagLang.Proofs.Grammar.Module

/-! # Tags stay balanced

Every parser of the grammar leaves exactly those tags open that were open before it, from any place
of any tokens. It does so also if it gives up inside a structure that it opened, or goes back and
tries another form.
-/

namespace TagLang.Grammar

variable {α : Type}

/-- The same tags are open behind a parser as before it. -/
def Balanced (p : Parser α) : Prop := ∀ s : Stream, (p.run s).2.openTags = s.openTags

abbrev TryBalanced (p : TryParser α) : Prop := Balanced p.run

structure BalancedPatterns : Prop where
  pathTail : TryBalanced pathTail
  patternArgs : ∀ fuel, TryBalanced (patternArgs (pattern fuel))
  pattern : ∀ fuel, TryBalanced (pattern fuel)
  patternOrNone : Balanced patternOrNone

structure BalancedExpressions (r : Rules) : Prop where
  args : Balanced (args r)
  call : Balanced (call r)
  create : Balanced (create r)
  lambda : Balanced (lambda r)
  arm : ∀ isExpression, Balanced (arm r isExpression)
  arms : ∀ isExpression, Balanced (arms r isExpression)
  matching : ∀ isExpression, Balanced (matching r isExpression)
  leadingGroup : ∀ opened, TryBalanced (leadingGroup r opened)
  operand : ∀ fuel, TryBalanced (operand r fuel)
  infixFrom : ∀ fuel level, TryBalanced (infixFrom r fuel level)
  infixRest : ∀ fuel level left, TryBalanced (infixRest r fuel level left)
  infixGroup : ∀ opened, TryBalanced (infixGroup r opened)
  boundVar : TryBalanced boundVar
  quantifier : ∀ opened kind, TryBalanced (quantifier r opened kind)
  group : TryBalanced (group r)
  postfixes : ∀ fuel e, TryBalanced (postfixes r fuel e)
  primary : TryBalanced (primary r)
  exprRule : TryBalanced (exprRule r)
  exprOrError : Balanced r.exprOrError
  expr : TryBalanced expr

structure BalancedStatements (r : Rules) : Prop where
  bindStmt : Balanced (bindStmt r)
  assignStmt : Balanced (assignStmt r)
  elseIfs : Balanced (elseIfs r)
  clauseBlock : ∀ tag mayPoint, Balanced (clauseBlock r tag mayPoint)
  branchStmt : Balanced (branchStmt r)
  countStmt : Balanced (countStmt r)
  eachStmt : Balanced (eachStmt r)
  loopStmt : Balanced (loopStmt r)
  catches : Balanced (catches r)
  attemptStmt : Balanced (attemptStmt r)
  retStmt : Balanced (retStmt r)
  raiseStmt : Balanced (raiseStmt r)
  strayStmt : Balanced strayStmt
  stmt : ∀ tag, Balanced (stmt r tag)
  blockRule : Balanced (blockRule r)

structure BalancedItems (r : Rules) : Prop where
  param : Balanced param
  effectDecl : Balanced effectDecl
  headParts : Balanced (headParts r)
  function : ∀ tag, Balanced (function tag)
  memberDef : ∀ tag, Balanced (memberDef tag)
  classDef : Balanced classDef
  interfaceDef : Balanced interfaceDef
  variantDef : Balanced variantDef
  enumDef : ∀ tag construct expected, Balanced (sumDef tag construct expected enumMember)
  unionDef : ∀ tag construct expected, Balanced (sumDef tag construct expected unionMember)
  topLevel : Balanced topLevel
  module : Balanced module

/-- What a parser yields is said for a list of tokens that the stream shows the end of; here this is
the whole list. -/
theorem balanced {U C : List Token → α → Prop} {p : Parser α}
    (h : ∀ {ts}, Yields ts (U ts) (C ts) p) : Balanced p := fun s => (h s List.suffix_rfl).openTags

theorem balancedPatterns : BalancedPatterns where
  pathTail := balanced tryYields_pathTail
  patternArgs fuel := balanced (tryYields_patternArgs (tryPasses_pattern fuel))
  pattern fuel := balanced (tryPasses_pattern fuel)
  patternOrNone := balanced passes_patternOrNone

theorem balancedExpressions (n : Nat) : BalancedExpressions (rules n) where
  args := balanced (rules_yield n).args
  call := balanced (rules_yield n).call
  create := balanced (rules_yield n).create
  lambda := balanced (rules_yield n).lambda
  arm b := balanced ((rules_yield n).arm b)
  arms b := balanced ((rules_yield n).arms b)
  matching b := balanced ((rules_yield n).matching b)
  leadingGroup opened := balanced ((rules_yield n).leadingGroup opened)
  operand fuel := balanced ((rules_yield n).operand fuel)
  infixFrom fuel level := balanced (((rules_yield n).infixes fuel).1 level)
  infixRest fuel level left := balanced (((rules_yield n).infixes fuel).2 level left)
  infixGroup opened := balanced ((rules_yield n).infixGroup opened)
  boundVar := balanced tryYields_boundVar
  quantifier opened kind := balanced ((rules_yield n).quantifier opened kind)
  group := balanced (rules_yield n).group
  postfixes fuel e := balanced ((rules_yield n).postfixes fuel e)
  primary := balanced (rules_yield n).primary
  exprRule := balanced (rules_yield n).exprRule
  exprOrError := balanced (rules_yield n).exprOrError
  expr := balanced ((tryYields_lift yields_currentRules).bind_of fun _ hr => hr.expr)

theorem balancedStatements (n : Nat) : BalancedStatements (rules n) where
  bindStmt := balanced (rules_yield n).bindStmt
  assignStmt := balanced (rules_yield n).assignStmt
  elseIfs := balanced (rules_yield n).elseIfs
  clauseBlock tag mayPoint := balanced ((rules_yield n).clauseBlock tag mayPoint)
  branchStmt := balanced (rules_yield n).branchStmt
  countStmt := balanced (rules_yield n).countStmt
  eachStmt := balanced (rules_yield n).eachStmt
  loopStmt := balanced (rules_yield n).loopStmt
  catches := balanced (rules_yield n).catches
  attemptStmt := balanced (rules_yield n).attemptStmt
  retStmt := balanced (rules_yield n).retStmt
  raiseStmt := balanced (rules_yield n).raiseStmt
  strayStmt := balanced yields_strayStmt
  stmt tag := balanced ((rules_yield n).stmt tag)
  blockRule := balanced (rules_yield n).blockRule

theorem balancedItems (n : Nat) : BalancedItems (rules n) where
  param := balanced yields_param
  effectDecl := balanced passes_effectDecl
  headParts := balanced (yields_headParts (rules_yield n))
  function tag := balanced (yields_function tag)
  memberDef tag := balanced (yields_memberDef tag)
  classDef := balanced yields_classDef
  interfaceDef := balanced yields_interfaceDef
  variantDef := balanced yields_variantDef
  enumDef tag construct expected := balanced (yields_sumDef tag construct expected yields_enumMember)
  unionDef tag construct expected := balanced (yields_sumDef tag construct expected yields_unionMember)
  topLevel := balanced yields_topLevel
  module := balanced yields_module

/-- Whatever tokens a parser is given and whatever is wrong with them, behind a pattern, an
expression, a statement or an item the same tags are open as before it. -/
theorem openTags_balanced (n : Nat) : BalancedPatterns ∧ BalancedExpressions (rules n) ∧
    BalancedStatements (rules n) ∧ BalancedItems (rules n) :=
  ⟨balancedPatterns, balancedExpressions n, balancedStatements n, balancedItems n⟩

end TagLang.Grammar
