import TagLang.Proofs.Grammar.Pattern
import TagLang.Proofs.Token.Name
import TagLang.Proofs.Tree.Node

/-! # The names and patterns of a tree

The variables and members that the expressions of a body mention are names of the source text, so
they are plain. Names in attribute blocks can be any text: they are declared but never mentioned
that way. The patterns of every match, at any depth, are read from the text one behind the other.
-/

namespace TagLang
open List

section Names

variable (P : String → Prop)

/-- Every name that the value of an expression depends on has a property. What stands in calls,
objects, lambdas and matches does not count. -/
def Expr.Names : Expr → Prop
  | .ident name _ => P name
  | .field base name _ => base.Names ∧ P name
  | .index base place _ => base.Names ∧ place.Names
  | .binary left _ right _ => left.Names ∧ right.Names
  | .unary _ operand _ => operand.Names
  | .conditional test yes no _ => test.Names ∧ yes.Names ∧ no.Names
  | .quantifier _ _ body _ => body.Names
  | _ => True

mutual

/-- Every name that the bindings, tests and results of statements mention has a property. -/
def Stmt.Names : Stmt → Prop
  | .bind _ _ _ value _ => value.Names P
  | .ret (some value) _ => value.Names P
  | .branch _ test body others otherwise _ =>
    test.Names P ∧ bodyNames body ∧ othersNames others ∧ otherwiseNames otherwise
  | _ => True

def bodyNames : List Stmt → Prop
  | [] => True
  | s :: more => s.Names ∧ bodyNames more

def otherwiseNames : Option (List Stmt) → Prop
  | none => True
  | some body => bodyNames body

def othersNames : List ElseIf → Prop
  | [] => True
  | .mk test body _ :: more => (test.Names P ∧ bodyNames body) ∧ othersNames more

end

theorem bodyNames_iff {body : List Stmt} : bodyNames P body ↔ ∀ s ∈ body, s.Names P := by
  induction body with
  | nil => simp [bodyNames]
  | cons s more ih => simp [bodyNames, ih]

structure FunctionDef.Names (f : FunctionDef) : Prop where
  preconditions : ∀ e ∈ f.preconditions, e.Names P
  postconditions : ∀ e ∈ f.postconditions, e.Names P
  body : bodyNames P f.body

end Names

section Readings

variable (ts : List Token)

def PlainIn (name : String) : Prop := (∀ t ∈ ts, t.PlainName) → Plain name

/-- Patterns are read from some tokens if these are laid out as in a text. -/
def PatternsIn (ps : List Pattern) : Prop := Laid ts → PatternsRead ts ps

/-- The patterns of the matches of some nodes are read from some tokens. -/
abbrev NodesRead (ns : List Node) : Prop := ∀ p ∈ ns, p.Patterned (PatternsIn ts)

/-- The names of an expression are plain, and the patterns of its matches are read from some tokens. -/
structure Expr.Read (e : Expr) : Prop where
  names : e.Names (PlainIn ts)
  patterns : (Node.expr e).Patterned (PatternsIn ts)

structure Stmt.Read (s : Stmt) : Prop where
  names : s.Names (PlainIn ts)
  patterns : (Node.stmt s).Patterned (PatternsIn ts)

def BlockRead (body : List Stmt) : Prop := ∀ s ∈ body, s.Read ts

/-- A declaration of effects is read from its tag and from the attribute block behind the tag, if
there is one. -/
inductive EffectDecl.Read : EffectDecl → Prop
  | bare {t : Token} {us : List Token} : t :: us <:+ ts → t.kind = .tag "E" →
    (∀ x ∈ us.head?, ∀ fields, x.kind ≠ .attrs fields) → Read ⟨[], t.span⟩
  | block {t x : Token} {us : List Token} {fields : List String} : t :: x :: us <:+ ts →
    t.kind = .tag "E" → x.kind = .attrs fields →
    Read ⟨Grammar.codeSpans x 0 (Grammar.effectCodes fields), t.span.merge x.span⟩

structure FunctionDef.Read (f : FunctionDef) : Prop where
  effects : ∀ d ∈ f.effects, EffectDecl.Read ts d
  preconditions : ∀ e ∈ f.preconditions, e.Read ts
  postconditions : ∀ e ∈ f.postconditions, e.Read ts
  body : BlockRead ts f.body

/-- The patterns of the arms of a match are read one behind the other, and so is what stands inside
them. -/
structure ArmsRead (arms : List Arm) : Prop where
  patterns : PatternsIn ts (arms.map Arm.pattern)
  parts : ∀ a ∈ arms, NodesRead ts a.parts

structure ArmRead (us : List Token) (a : Arm) : Prop where
  suffix : us <:+ ts
  pattern : Laid ts → ∃ t, t :: us <:+ ts ∧ a.pattern.ReadAt t us
  parts : NodesRead ts a.parts

variable {ts} {us : List Token}

theorem plainIn_eq (h : ∀ t ∈ ts, t.PlainName) : PlainIn ts = Plain :=
  funext fun _ => propext ⟨fun hname => hname h, fun hname _ => hname⟩

theorem patternsIn_eq (h : Laid ts) : PatternsIn ts = PatternsRead ts :=
  funext fun _ => propext ⟨fun hps => hps h, fun hps _ => hps⟩

theorem Expr.read_mk {e : Expr} (hnames : e.Names (PlainIn ts))
    (hown : (Node.expr e).HasPatterns (PatternsIn ts))
    (hparts : ∀ p ∈ e.parts, p.Patterned (PatternsIn ts)) : e.Read ts :=
  ⟨hnames, Node.all_iff.mpr ⟨hown, hparts⟩⟩

theorem Stmt.read_mk {s : Stmt} (hnames : s.Names (PlainIn ts))
    (hown : (Node.stmt s).HasPatterns (PatternsIn ts))
    (hparts : ∀ p ∈ s.parts, p.Patterned (PatternsIn ts)) : s.Read ts :=
  ⟨hnames, Node.all_iff.mpr ⟨hown, hparts⟩⟩

theorem BlockRead.parts {body : List Stmt} (h : BlockRead ts body) :
    NodesRead ts (body.map Node.stmt) := forall_mem_map.mpr fun s hs => (h s hs).patterns

theorem BlockRead.names {body : List Stmt} (h : BlockRead ts body) : bodyNames (PlainIn ts) body :=
  (bodyNames_iff _).mpr fun s hs => (h s hs).names

theorem Node.Patterned.suffix {n : Node} (h : n.Patterned (PatternsIn us)) (hus : us <:+ ts) :
    n.Patterned (PatternsIn ts) := Patterned.mono (fun _ hps hts => (hps (hts.suffix hus)).mono hus) h

theorem armsRead_nil : ArmsRead ts [] := ⟨fun _ => .nil ts, forall_mem_nil _⟩

theorem ArmsRead.cons {a : Arm} {arms : List Arm} (ha : ArmRead ts us a) (harms : ArmsRead us arms) :
    ArmsRead ts (a :: arms) := by
  refine ⟨fun hlaid => ?_, forall_mem_cons.mpr ⟨ha.parts, fun b hb p hp => ?_⟩⟩
  · obtain ⟨t, hts, hread⟩ := ha.pattern hlaid
    exact .cons hts hread (harms.patterns (hlaid.suffix ha.suffix))
  · exact (harms.parts b hb p hp).suffix ha.suffix

end Readings

namespace Grammar

variable {α : Type} {ts : List Token}

theorem plainIn_of {name : String} {span : Span}
    (h : ∃ t ∈ ts, t.kind = .ident name ∧ t.span = span) : PlainIn ts name := by
  obtain ⟨t, ht, hkind, -⟩ := h
  exact fun hplain => hplain t ht name hkind

theorem passes_takeAttrs : Passes ts takeAttrs :=
  passes_of_respects fun _ hP => respects_takeAttrs hP.calm

theorem passes_structuralAttrs (tag : String) (start : Span) : Passes ts (structuralAttrs tag start) :=
  passes_of_respects fun _ hP => respects_structuralAttrs hP.calm tag start

theorem passes_expectClose (tag construct openId : String) (openSpan : Span) :
    Passes ts (expectClose tag construct openId openSpan) :=
  passes_of_respects fun _ hP => respects_expectClose hP tag construct openId openSpan

theorem passes_expectSimpleClose (tag construct : String) (openSpan : Span) :
    Passes ts (expectSimpleClose tag construct openSpan) :=
  passes_of_respects fun _ hP => respects_expectSimpleClose hP tag construct openSpan

theorem passes_requiredField (fields : List String) (i : Nat) (tag name : String) (span : Span) :
    Passes ts (requiredField fields i tag name span) :=
  passes_of_respects fun _ hP => respects_requiredField hP.calm fields i tag name span

theorem yields_typeRef (text : String) (span : Span) :
    Yields ts (fun _ => True) TypeRef.Clean (typeRef text span) := by
  unfold typeRef
  split
  · next hread => exact yields_pure trivial (Ty.clean_read? hread)
  · exact yields_reported fun _ => passes_pure

/-- Parsers for what stands inside a structure, at any end of a text. -/
structure Rules.Yield (ts : List Token) (r : Rules) : Prop where
  exprWithin : ∀ us, us <:+ ts → TryYields us (Expr.Read us) Expr.Clean r.expr
  blockWithin : ∀ us, us <:+ ts → Yields us (BlockRead us) stmtsClean r.block

section Expressions

variable {r : Rules} (hr : r.Yield ts)

include hr

theorem Rules.Yield.suffix {us : List Token} (hus : us <:+ ts) : r.Yield us where
  exprWithin vs hvs := hr.exprWithin vs (hvs.trans hus)
  blockWithin vs hvs := hr.blockWithin vs (hvs.trans hus)

theorem Rules.Yield.expr : TryYields ts (Expr.Read ts) Expr.Clean r.expr := hr.exprWithin ts suffix_rfl

theorem Rules.Yield.block : Yields ts (BlockRead ts) stmtsClean r.block := hr.blockWithin ts suffix_rfl

theorem Rules.Yield.exprOrError : Yields ts (Expr.Read ts) Expr.Clean r.exprOrError := by
  refine passes_here.bind fun span => Yields.bind hr.expr fun result hresult => ?_
  split
  · exact yields_pure (hresult _ rfl) fun hclean => hclean _ rfl
  · refine yields_reported fun _ => passes_skipToTag.bind fun _ => yields_pure ?_ trivial
    exact Expr.read_mk trivial trivial (forall_mem_nil _)

theorem Rules.Yield.args :
    Yields ts (fun es => NodesRead ts (es.map Node.expr)) exprsClean (args r) := by
  have hmany : Yields ts (fun es => ∀ e ∈ es, e.Read ts) (fun es => ∀ e ∈ es, e.Clean)
      (Grammar.args r) := by
    refine yields_many (passes_peek.bind fun kind => ?_)
    split
    · exact passes_take.bind fun _ => hr.exprOrError.found
    · exact yields_done
  exact hmany.mono (fun es hes => forall_mem_map.mpr fun e he => (hes e he).patterns) fun es =>
    exprsClean_iff.mpr

theorem Rules.Yield.call : Yields ts (fun c => NodesRead ts (c.2.1.map Node.expr))
    (fun c => exprsClean c.2.1) (call r) := by
  refine passes_take.bind fun t => passes_takeAttrs.bind fun found => ?_
  have hargs (target : String) : Yields ts (fun c => NodesRead ts (c.2.1.map Node.expr))
      (fun c => exprsClean c.2.1) (do
        let closed ← withOpen "C" do
          let args ← Grammar.args r
          return (args, ← expectSimpleClose "C" "call" t.span)
        return (target, closed.1, t.span.merge closed.2)) :=
    (yields_closed "C" hr.args (passes_expectSimpleClose _ _ _)).bind fun _ h =>
      yields_pure h fun hclean => hclean
  dsimp only
  split
  · split
    · exact yields_reported fun _ => (hargs _).clean fun _ _ => trivial
    · exact yields_pure_bind (hargs _)
  · exact yields_reported fun _ => (hargs _).clean fun _ _ => trivial

theorem Rules.Yield.create : Yields ts (Expr.Read ts) Expr.Clean (create r) := by
  refine passes_take.bind fun t => passes_takeAttrs.bind fun found => ?_
  have hargs (ty : TypeRef) : Yields ts (Expr.Read ts) (fun e => ty.Clean → e.Clean) (do
      let closed ← withOpen "NEW" do
        let args ← Grammar.args r
        return (args, ← expectSimpleClose "NEW" "object creation" t.span)
      return .create ty closed.1 (t.span.merge closed.2)) :=
    (yields_closed "NEW" hr.args (passes_expectSimpleClose _ _ _)).bind fun _ h =>
      yields_pure (Expr.read_mk trivial trivial h) fun hargs hty => ⟨hty, hargs⟩
  have hmissing : Yields ts (fun _ => True) TypeRef.Clean (do
      missingAttr "NEW" "type" t.span
      return ⟨"", .error, t.span⟩) := yields_reported fun _ => passes_pure
  dsimp only
  split
  · split
    · exact hmissing.bind fun ty _ => hargs ty
    · exact (yields_typeRef _ _).bind fun ty _ => hargs ty
  · exact hmissing.bind fun ty _ => hargs ty

omit hr in
theorem yields_param : Yields ts (fun _ => True) (fun p => ∀ p' ∈ p, p'.ty.Clean) param := by
  refine passes_take.bind fun t => passes_takeAttrs.bind fun found => ?_
  split
  · split
    · exact yields_reported fun _ => passes_pure
    · refine (yields_typeRef _ _).bind fun ty _ => yields_pure trivial fun hty p hp => ?_
      cases hp
      exact hty
  · exact yields_reported fun _ => passes_pure

omit hr in
theorem yields_params : Yields ts (fun _ => True) (fun ps => ∀ p ∈ ps, p.ty.Clean) params := by
  refine (yields_many (U := fun _ => True) (passes_peek.bind fun kind => ?_)).mono
    (fun _ _ => trivial) fun _ h => h
  split
  · refine yields_param.bind fun p _ => ?_
    split
    · next p => exact yields_pure (Round.finds_found trivial) fun hp => Round.finds_found (hp p rfl)
    · exact yields_pure Round.finds_skip fun _ => Round.finds_skip
  · exact yields_done

theorem Rules.Yield.lambda : Yields ts (Expr.Read ts) Expr.Clean (lambda r) := by
  refine passes_take.bind fun t => (passes_structuralAttrs _ _).bind fun head =>
    yields_params.bind fun ps _ => ?_
  have hbody : Yields ts (fun r => NodesRead ts (r.1.map Node.stmt)) (fun r => stmtsClean r.1) (do
      let body ← if startsPlainExpr (← peek) then do
          let value ← r.exprOrError
          pure [Stmt.ret (some value) value.span]
        else r.block
      return (body, ← expectClose "LAM" "lambda" (head.1.headD "") head.2)) := by
    have hclose {body : List Stmt} (h : BlockRead ts body) :
        Yields ts (fun r => NodesRead ts (r.1.map Node.stmt))
          (fun r => stmtsClean body → stmtsClean r.1) (do
            return (body, ← expectClose "LAM" "lambda" (head.1.headD "") head.2)) :=
      (passes_expectClose _ _ _ _).bind fun _ => yields_pure h.parts fun hclean => hclean
    refine passes_peek.bind fun kind => ?_
    split
    · refine hr.exprOrError.bind fun value hvalue => yields_pure_bind ?_
      have hread : (Stmt.ret (some value) value.span).Read ts :=
        Stmt.read_mk hvalue.names trivial (forall_mem_singleton.mpr hvalue.patterns)
      exact (hclose (forall_mem_singleton.mpr hread)).clean fun _ hbody hvalue => hbody ⟨hvalue, trivial⟩
    · exact hr.block.bind fun body hbody => hclose hbody
  exact (yields_withOpen "LAM" hbody).bind fun _ h =>
    yields_pure (Expr.read_mk trivial trivial h) fun hbody hps => ⟨hps, hbody⟩

def armRest (r : Rules) (isExpression : Bool) (pattern : Option Pattern) (start : Span) :
    Parser (Option Arm) := do
  let guard ← if (← peek) = .tag "WHEN" then do
      let _ ← take
      pure (some (← r.exprOrError))
    else pure none
  skipArrow
  let body ← if isExpression then ArmBody.value <$> r.exprOrError else ArmBody.block <$> r.block
  return pattern.map fun p => Arm.mk p guard body start

theorem Rules.Yield.armRest (isExpression : Bool) (pattern : Option Pattern) (start : Span) :
    Yields ts (fun a => ∀ a' ∈ a, some a'.pattern = pattern ∧ NodesRead ts a'.parts)
      (fun a => ∀ a' ∈ a, a'.Clean) (armRest r isExpression pattern start) := by
  have hmade {guard : Option Expr} (hguard : ∀ e ∈ guard, e.Read ts) {p : Parser ArmBody}
      (hp : Yields ts (fun b => NodesRead ts b.parts) ArmBody.Clean p) :
      Yields ts (fun a => ∀ a' ∈ a, some a'.pattern = pattern ∧ NodesRead ts a'.parts)
        (fun a => exprClean? guard → ∀ a' ∈ a, a'.Clean) (do
          let body ← p
          return pattern.map fun p => Arm.mk p guard body start) := by
    refine hp.bind fun body hbody => yields_pure (fun a' ha' => ?_) fun hbody hguard a' ha' => ?_
    · obtain ⟨p, rfl, rfl⟩ := Option.map_eq_some_iff.mp ha'
      refine ⟨rfl, forall_mem_append.mpr ⟨?_, hbody⟩⟩
      simpa using fun e he => (hguard e he).patterns
    · obtain ⟨p, -, rfl⟩ := Option.map_eq_some_iff.mp ha'
      exact ⟨hguard, hbody⟩
  have hrest (guard : Option Expr) (hguard : ∀ e ∈ guard, e.Read ts) :
      Yields ts (fun a => ∀ a' ∈ a, some a'.pattern = pattern ∧ NodesRead ts a'.parts)
        (fun a => exprClean? guard → ∀ a' ∈ a, a'.Clean) (do
          skipArrow
          let body ← if isExpression then ArmBody.value <$> r.exprOrError else ArmBody.block <$> r.block
          return pattern.map fun p => Arm.mk p guard body start) := by
    refine passes_skipArrow.bind fun _ => ?_
    split
    · exact hmade hguard
        (hr.exprOrError.map (fun e he => forall_mem_singleton.mpr he.patterns) fun _ h => h)
    · exact hmade hguard (hr.block.map (fun b hb => hb.parts) fun _ h => h)
  refine passes_peek.bind fun kind => ?_
  dsimp only
  split
  · refine passes_take.bind fun _ => hr.exprOrError.bind fun e he => yields_pure_bind (hrest (some e) ?_)
    rintro e' ⟨⟩
    exact he
  · exact yields_pure_bind ((hrest none nofun).clean fun a ha => ha trivial)

theorem Rules.Yield.arm (isExpression : Bool) :
    Yields ts (fun a => ∀ a' ∈ a, NodesRead ts a'.parts) (fun a => ∀ a' ∈ a, a'.Clean)
      (arm r isExpression) :=
  passes_take.bind fun t => passes_patternOrNone.bind fun pattern =>
    (hr.armRest isExpression pattern t.span).mono (fun _ ha a' ha' => (ha a' ha').2) fun _ h => h

theorem Rules.Yield.exists_armRead (isExpression : Bool) {s : Stream} (hs : s.Within ts) {a : Arm}
    (ha : ((Grammar.arm r isExpression).run s).1 = some a) :
    ∃ us, ArmRead ts us a ∧ ((Grammar.arm r isExpression).run s).2.Within us := by
  have harm := hr.arm isExpression s hs
  by_cases hlaid : Laid ts
  · have hadvance := hs.advance
    have hus : s.advance.rest <:+ ts := (suffix_cons _ _).trans hadvance
    have hrun : (Grammar.arm r isExpression).run s =
        (Grammar.armRest r isExpression (patternOrNone.run s.advance).1 s.current.span).run
          (patternOrNone.run s.advance).2 := rfl
    have hpattern : some a.pattern = (patternOrNone.run s.advance).1 :=
      ((hr.armRest isExpression _ _ _ (passes_patternOrNone _ hadvance).within).result a (hrun ▸ ha)).1
    obtain ⟨hwithin, hread⟩ := opensAt_patternOrNone (hlaid.suffix hadvance) hpattern.symm
    refine ⟨_, ⟨hus, fun _ => ⟨_, hadvance, hread⟩, harm.result a ha⟩, ?_⟩
    rw [hrun]
    exact ((hr.suffix hus).armRest isExpression _ _ _ hwithin).within
  · exact ⟨ts, ⟨suffix_rfl, fun h => absurd h hlaid, harm.result a ha⟩, harm.within⟩

theorem Rules.Yield.arms (isExpression : Bool) :
    Yields ts (ArmsRead ts) armsClean (arms r isExpression) := by
  refine (yields_many_behind (G := (r.Yield ·)) (R := ArmsRead) (C := Arm.Clean) (fun _ _ => armsRead_nil)
    (fun ts hr s hs => ?_) hr).clean fun _ => armsClean_iff.mpr
  have hdone : FindsBehind (r.Yield ·) ArmsRead Arm.Clean ts s
      ((pure .done : Parser (Round Arm)).run s) :=
    findsBehind_of_none (yields_done s hs)
  have hstray : FindsBehind (r.Yield ·) ArmsRead Arm.Clean ts s ((do
      reportUnexpected "match arm (§K)"
      recover
      return .skip : Parser (Round Arm)).run s) :=
        findsBehind_of_none (yields_stray Round.finds_skip _ s hs)
  refine findsBehind_get ?_
  dsimp only
  split
  · obtain ⟨-, hleft, htags, hclears⟩ := hr.arm isExpression s hs
    refine findsBehind_bind ?_
    cases harm : ((Grammar.arm r isExpression).run s).1 with
    | none => exact ⟨hleft, htags, nofun, fun hnone => ⟨(hclears hnone).1, nofun⟩⟩
    | some a =>
      obtain ⟨us, hread, hwithin⟩ := hr.exists_armRead isExpression hs harm
      refine ⟨hleft, htags, fun a' ha' => ?_, fun hnone => ⟨(hclears hnone).1, ?_⟩⟩
      · cases ha'
        exact ⟨us, hread.suffix, hr.suffix hread.suffix, hwithin, fun _ has => .cons hread has⟩
      · exact Round.finds_found ((hclears hnone).2 a harm)
  · exact hdone
  · exact hdone
  · split
    · exact hdone
    · exact hstray
  · exact hstray

theorem Rules.Yield.matching (isExpression : Bool) :
    Yields ts (fun w => PatternsIn ts w.patterns ∧ NodesRead ts w.parts) Match.Clean
      (matching r isExpression) := by
  refine passes_take.bind fun t => (passes_structuralAttrs _ _).bind fun head =>
    hr.exprOrError.bind fun target htarget => ?_
  refine (yields_closed "W" (hr.arms isExpression) (passes_expectClose _ _ _ _)).bind fun _ harms =>
    yields_pure ?_ ?_
  · refine ⟨harms.patterns, forall_mem_cons.mpr ⟨htarget.patterns, fun p hp => ?_⟩⟩
    obtain ⟨a, ha, hp⟩ := mem_flatMap.mp hp
    exact harms.parts a ha p hp
  · exact fun harms htarget => ⟨htarget, harms⟩

end Expressions

section Groups

variable {r : Rules} {e : Expr} {span : Span}

theorem read_widen (span : Span) (h : e.Read ts) : (widen span e).Read ts := by
  have hparts := (Node.all_iff.mp h.patterns).2
  unfold widen
  split
  case h_4 => exact h
  all_goals exact Expr.read_mk h.names trivial hparts

theorem clean_widen (span : Span) (h : e.Clean) : (widen span e).Clean := by
  unfold widen
  split <;> exact h

theorem read_unary {op : UnaryOp} (h : e.Read ts) : (Expr.unary op e span).Read ts :=
  Expr.read_mk h.names trivial (forall_mem_singleton.mpr h.patterns)

theorem read_binary {op : BinOp} {l e : Expr} (hl : l.Read ts) (he : e.Read ts) :
    (Expr.binary l op e span).Read ts :=
  Expr.read_mk ⟨hl.names, he.names⟩ trivial (by simp [Expr.parts, hl.patterns, he.patterns])

theorem read_conditional {test yes no : Expr} (htest : test.Read ts) (hyes : yes.Read ts)
    (hno : no.Read ts) : (Expr.conditional test yes no span).Read ts :=
  Expr.read_mk ⟨htest.names, hyes.names, hno.names⟩ trivial
    (by simp [Expr.parts, htest.patterns, hyes.patterns, hno.patterns])

theorem applyLeading_induct {P : Expr → Prop} (hunary : ∀ op e span, P e → P (.unary op e span))
    (hbinary : ∀ op l e span, P l → P e → P (.binary l op e span))
    (hconditional : ∀ test yes no span, P test → P yes → P no → P (.conditional test yes no span))
    (hwiden : ∀ span e, P e → P (widen span e)) {op : Token} {operands : List Expr}
    (hoperands : ∀ e ∈ operands, P e) (h : applyLeading op operands span = .ok e) : P e := by
  have hfold (op : BinOp) (es : List Expr) (first : Expr) (hfirst : P first) (hes : ∀ e ∈ es, P e) :
      P (es.foldl (joinLeft op) first) := by
    induction es generalizing first with
    | nil => exact hfirst
    | cons e es ih =>
      obtain ⟨he, hes⟩ := forall_mem_cons.mp hes
      exact ih _ (hbinary _ _ _ _ hfirst he) hes
  unfold applyLeading at h
  dsimp only at h
  split at h
  case h_1 | h_3 | h_5 =>
    cases h
    exact hunary _ _ _ (hoperands _ mem_cons_self)
  · cases h
  · cases h
  · cases h
    exact hconditional _ _ _ _ (hoperands _ (by simp)) (hoperands _ (by simp)) (hoperands _ (by simp))
  · cases h
  · split at h
    · cases h
    · split at h
      · split at h
        · cases h
          exact hbinary _ _ _ _ (hoperands _ (by simp)) (hoperands _ (by simp))
        · cases h
      · split at h
        · cases h
          refine hwiden _ _ (hfold _ _ _ (hbinary _ _ _ _ ?_ ?_) fun e he => ?_)
          · exact hoperands _ (by simp)
          · exact hoperands _ (by simp)
          · exact hoperands _ (by simp [he])
        · cases h

variable (hr : r.Yield ts)

include hr

theorem Rules.Yield.leadingGroup (opened : Span) :
    TryYields ts (Expr.Read ts) Expr.Clean (leadingGroup r opened) := by
  refine tryPasses_take.bind fun op =>
    (tryYields_tryMany (U := Expr.Read ts) (C := Expr.Clean) ?_).bind fun operands hall => ?_
  · refine tryPasses_peek.bind fun kind => ?_
    split
    · exact tryYields_done
    · exact tryYields_done
    · exact hr.expr.found
  · refine (tryPasses_expect _ _).bind fun _ => tryYields_mk (fun _ => ?_) fun _ he hclean => ?_
    · exact applyLeading_induct (fun _ _ _ => read_unary) (fun _ _ _ _ => read_binary)
        (fun _ _ _ _ => read_conditional) (fun _ _ => read_widen _) hall
    · exact applyLeading_induct (P := Expr.Clean) (fun _ _ _ h => h) (fun _ _ _ _ hl he => ⟨hl, he⟩)
        (fun _ _ _ _ htest hyes hno => ⟨htest, hyes, hno⟩) (fun _ _ => clean_widen _) hclean he

theorem Rules.Yield.operand (fuel : Nat) : TryYields ts (Expr.Read ts) Expr.Clean (operand r fuel) := by
  induction fuel with
  | zero => exact tryYields_giveUp _
  | succ fuel ih =>
    refine tryPasses_peek.bind fun kind => TryPasses.bind (tryYields_lift passes_peekNext) fun next => ?_
    split
    · exact tryPasses_take.bind fun _ => ih.bind fun _ he =>
        tryYields_pure (read_unary he) fun hclean => hclean
    · exact hr.expr

theorem Rules.Yield.infixes (fuel : Nat) :
    (∀ level, TryYields ts (Expr.Read ts) Expr.Clean (infixFrom r fuel level)) ∧
      ∀ level left, TryYields ts (fun e => left.Read ts → e.Read ts) (fun e => left.Clean → e.Clean)
        (infixRest r fuel level left) := by
  induction fuel with
  | zero => exact ⟨fun level => tryYields_giveUp _, fun level left =>
    tryYields_pure (fun h => h) fun h => h⟩
  | succ fuel ih =>
    refine ⟨fun level => ?_, fun level left => ?_⟩
    · rw [infixFrom]
      exact (hr.operand _).bind fun left hleft =>
        (ih.2 level left).mono (fun e he => he hleft) fun _ h => h
    · rw [infixRest]
      refine tryPasses_peek.bind fun kind => ?_
      split
      · split
        · exact tryYields_pure (fun h => h) fun h => h
        · refine tryPasses_take.bind fun _ => (ih.1 _).bind fun right hright => ?_
          exact (ih.2 level _).mono (fun e he hleft => he (read_binary hleft hright))
            fun e he hright hleft =>
            he ⟨hleft, hright⟩
      · exact tryYields_pure (fun h => h) fun h => h

theorem Rules.Yield.infixGroup (opened : Span) :
    TryYields ts (Expr.Read ts) Expr.Clean (infixGroup r opened) :=
  tryYields_get.bind_of fun _ _ => ((hr.infixes _).1 0).bind fun _ he =>
    (tryPasses_expect _ _).bind fun _ =>
    tryYields_pure (read_widen _ he) (clean_widen _)

omit hr in
theorem tryYields_boundVar : TryYields ts (fun _ => True) (fun v => v.2.Clean) boundVar := by
  refine tryPasses_take.bind fun _ => tryYields_expectIdent.passes.bind fun found =>
    tryPasses_peek.bind fun kind => ?_
  split
  · refine tryPasses_take.bind fun t => (tryYields_lift (yields_typeRef _ _)).bind fun ty _ => ?_
    exact (tryPasses_expect _ _).bind fun _ => tryYields_pure trivial fun hty => hty
  · exact tryYields_giveUp _

theorem Rules.Yield.quantifier (opened : Span) (kind : QuantifierKind) :
    TryYields ts (Expr.Read ts) Expr.Clean (quantifier r opened kind) := by
  have hvars : TryYields ts (fun vars => ∀ v ∈ vars, True) (fun vars => ∀ v ∈ vars, v.2.Clean) (tryMany do
      if (← peek) = .lParen then return .found (← boundVar) else return .done) := by
    refine tryYields_tryMany (tryPasses_peek.bind fun kind => ?_)
    split
    · exact tryYields_boundVar.found
    · exact tryYields_done
  refine tryPasses_take.bind fun _ => (tryPasses_expect _ _).bind fun _ => hvars.bind fun vars _ => ?_
  refine (tryPasses_expect _ _).bind fun _ => hr.expr.bind fun body hbody =>
    (tryPasses_expect _ _).bind fun _ => ?_
  refine tryYields_pure ?_ fun hbody hvars => ⟨hvars, hbody⟩
  exact Expr.read_mk hbody.names trivial (forall_mem_singleton.mpr hbody.patterns)

theorem Rules.Yield.group : TryYields ts (Expr.Read ts) Expr.Clean (group r) := by
  have hget {f : Stream → TryParser Expr} (hf : ∀ s : Stream, s.Within ts →
      Outcome ts (Gives (Expr.Read ts)) (Gives Expr.Clean) s ((f s).run.run s)) :
      TryYields ts (Expr.Read ts) Expr.Clean (get >>= f) := hf
  refine tryPasses_take.bind fun t => hget fun s hs => ?_
  split
  · exact hr.quantifier _ _ s hs
  · split
    · exact (hr.leadingGroup _).retry (hr.infixGroup _) hs
    · split
      · exact hr.leadingGroup _ s hs
      · exact hr.infixGroup _ s hs

theorem Rules.Yield.postfixes (fuel : Nat) (e : Expr) :
    TryYields ts (fun e' => e.Read ts → e'.Read ts) (fun e' => e.Clean → e'.Clean)
      (postfixes r fuel e) := by
  induction fuel generalizing e with
  | zero => exact tryYields_pure (fun h => h) fun h => h
  | succ fuel ih =>
    refine tryPasses_peek.bind fun kind => ?_
    split
    · refine tryPasses_take.bind fun _ => tryYields_expectIdent.bind_of fun found hfound => ?_
      refine (ih _).mono (fun e' he' he =>
        he' (Expr.read_mk ⟨he.names, plainIn_of hfound⟩ trivial ?_)) fun _ he' he => he' he
      exact forall_mem_singleton.mpr he.patterns
    · refine tryPasses_take.bind fun _ => hr.expr.bind fun place hplace =>
        (tryPasses_expect _ _).bind fun _ => ?_
      refine (ih _).mono (fun e' he' he => he' (Expr.read_mk ⟨he.names, hplace.names⟩ trivial ?_))
        fun _ he' hplace he =>
        he' ⟨he, hplace⟩
      simp [Expr.parts, he.patterns, hplace.patterns]
    · exact tryYields_pure (fun h => h) fun h => h

theorem Rules.Yield.primary : TryYields ts (Expr.Read ts) Expr.Clean (primary r) := by
  have hleaf {e : Expr} (hnames : e.Names (PlainIn ts)) (hown : (Node.expr e).HasPatterns (PatternsIn ts))
      (hparts : e.parts = []) : e.Read ts := Expr.read_mk hnames hown (by simp [hparts])
  have hliteral {e : Expr} (he : e.Read ts) (hclean : e.Clean) :
      TryYields ts (Expr.Read ts) Expr.Clean (do
      let _ ← take
      return e) := tryPasses_take.bind fun _ => tryYields_pure he hclean
  have hwrap {wrap : Expr → Span → Expr} (hnames : ∀ e span, (wrap e span).Names (PlainIn ts))
      (hown : ∀ e span, (Node.expr (wrap e span)).HasPatterns (PatternsIn ts))
      (hparts : ∀ e span, (wrap e span).parts = [.expr e])
        (hclean : ∀ e span, e.Clean → (wrap e span).Clean) :
      TryYields ts (Expr.Read ts) Expr.Clean (wrapped r wrap) := by
    refine tryPasses_take.bind fun _ => hr.expr.bind fun e he => tryYields_pure ?_ (hclean e _)
    exact Expr.read_mk (hnames e _) (hown e _) (by simp [hparts, he.patterns])
  refine tryYields_get.bind_of fun s hs => ?_
  dsimp only
  split
  case h_1 | h_2 | h_3 | h_4 | h_5 | h_15 => exact hliteral (hleaf trivial trivial rfl) trivial
  case h_11 | h_12 | h_13 | h_14 =>
    exact hwrap (fun _ _ => trivial) (fun _ _ => trivial) (fun _ _ => rfl) fun _ _ h => h
  · next name hname =>
    exact hliteral (hleaf (plainIn_of ⟨_, hs.current_mem, hname, rfl⟩) trivial rfl) trivial
  · split
    case h_3 => exact tryYields_giveUp _
    all_goals
      exact tryPasses_take.bind fun _ => tryPasses_take.bind fun _ =>
        tryYields_pure (hleaf trivial trivial rfl) trivial
  · exact hr.group
  · exact (tryYields_lift hr.call).bind fun _ hargs =>
      tryYields_pure (Expr.read_mk trivial trivial hargs) fun h => h
  · exact tryYields_lift hr.create
  · exact tryYields_lift hr.lambda
  · exact (tryYields_lift (hr.matching true)).bind fun _ hw =>
      tryYields_pure (Expr.read_mk trivial hw.1 hw.2) fun h => h
  · exact tryYields_giveUp _

theorem Rules.Yield.exprRule : TryYields ts (Expr.Read ts) Expr.Clean (exprRule r) :=
  hr.primary.bind fun e he => tryYields_get.bind_of fun _ _ =>
    (hr.postfixes _ e).mono (fun _ he' => he' he) fun _ h => h

end Groups

end Grammar

end TagLang
