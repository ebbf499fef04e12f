import TagLang.Proofs.Grammar.Expression

/-! # Names and patterns in modules

The rules for statements and items, up to the tree of a whole source text: the names that each of
its functions mentions are plain, and the patterns of its matches are read from the text. If nothing
is reported, there is a module, and nothing is left in it of recovery.
-/

namespace TagLang.Grammar
open List

variable {source : String} {m : Module}

variable {ts : List Token}

theorem patterned_target? {T : List Pattern → Prop} {text : String} {span : Span} {e : Expr}
    (h : target? text span = some e) : (Node.expr e).Patterned T := by
  have hleaf {e : Expr} (hown : (Node.expr e).HasPatterns T) (hparts : e.parts = []) :
      (Node.expr e).Patterned T :=
    Node.all_iff.mpr ⟨hown, by simp [Node.parts, hparts]⟩
  refine target?_induct (P := fun e => (Node.expr e).Patterned T) (fun _ => hleaf trivial rfl)
    (fun _ => hleaf trivial rfl) (fun _ => hleaf trivial rfl) (fun base name hbase => ?_)
    (fun base place hbase hplace => ?_) h
  · exact Node.all_iff.mpr ⟨trivial, forall_mem_singleton.mpr hbase⟩
  · exact Node.all_iff.mpr ⟨trivial, by simp [Node.parts, Expr.parts, hbase, hplace]⟩

theorem clean_target? {text : String} {span : Span} {e : Expr} (h : target? text span = some e) :
    e.Clean :=
  target?_induct (P := Expr.Clean) (fun _ => trivial) (fun _ => trivial) (fun _ => trivial)
    (fun _ _ hbase => hbase) (fun _ _ hbase hplace => ⟨hbase, hplace⟩) h

section Statements

variable {r : Rules} (hr : r.Yield ts)

include hr

omit hr in
theorem read_error (span : Span) : (Stmt.error span).Read ts :=
  Stmt.read_mk trivial trivial (forall_mem_nil _)

theorem Rules.Yield.bindStmt : Yields ts (Stmt.Read ts) Stmt.Clean (bindStmt r) := by
  refine passes_take.bind fun t => passes_takeAttrs.bind fun attrs =>
    hr.exprOrError.bind fun value hvalue => ?_
  have hnamed (ty : Option TypeRef) (field : String) (attrs : Token) :
      Yields ts (Stmt.Read ts) (fun s : Stmt => typeClean? ty → value.Clean → s.Clean) (do
        if (bindingName field).2.isEmpty then
          missingAttr "B" "name" attrs.span
          return .error (t.span.merge value.span)
        else
          return .bind (bindingName field).2 (bindingName field).1 ty value
            (t.span.merge value.span)) := by
    split
    · exact yields_reported fun _ => yields_pure (read_error _) trivial
    · refine yields_pure ?_ fun hty hvalue => ⟨hty, hvalue⟩
      exact Stmt.read_mk hvalue.names trivial (forall_mem_singleton.mpr hvalue.patterns)
  dsimp only
  split
  · exact (hnamed none _ _).clean fun s hs => hs nofun
  · refine (yields_typeRef _ _).bind fun ty _ => (hnamed (some ty) _ _).clean fun s hs hty => hs ?_
    rintro ty' ⟨⟩
    exact hty
  · exact yields_reported fun _ => yields_pure (read_error _) trivial

theorem Rules.Yield.assignStmt : Yields ts (Stmt.Read ts) Stmt.Clean (assignStmt r) := by
  have hvalue (start : Span) (target : Expr) (htarget : (Node.expr target).Patterned (PatternsIn ts)) :
      Yields ts (Stmt.Read ts) (fun s => target.Clean → s.Clean) (do
        let value ← r.exprOrError
        return .assign target value (start.merge value.span)) := by
    refine hr.exprOrError.bind fun value hvalue => yields_pure (Stmt.read_mk trivial trivial ?_) ?_
    · simp [Stmt.parts, htarget, hvalue.patterns]
    · exact fun hvalue htarget => ⟨htarget, hvalue⟩
  refine passes_take.bind fun t => passes_takeAttrs.bind fun found => ?_
  dsimp only
  split
  · split
    · next he =>
      refine yields_pure_bind ((hvalue _ _ (patterned_target? he)).clean fun s hs => ?_)
      exact hs (clean_target? he)
    · refine yields_reported fun _ => yields_pure_bind ((hvalue _ _ ?_).clean fun _ _ => trivial)
      exact Node.all_iff.mpr ⟨trivial, forall_mem_nil _⟩
  · exact hr.exprOrError.bind fun target htarget => hvalue _ target htarget.patterns

theorem Rules.Yield.elseIfs : Yields ts (fun others => othersNames (PlainIn ts) others ∧
    NodesRead ts (others.flatMap ElseIf.parts)) elseIfsClean (elseIfs r) := by
  have hall (others : List ElseIf)
      (h : ∀ e ∈ others, othersNames (PlainIn ts) [e] ∧ NodesRead ts e.parts) :
      othersNames (PlainIn ts) others ∧ NodesRead ts (others.flatMap ElseIf.parts) := by
    induction others with
    | nil => exact ⟨trivial, forall_mem_nil _⟩
    | cons e others ih =>
      obtain ⟨test, body, span⟩ := e
      obtain ⟨he, hothers⟩ := forall_mem_cons.mp h
      obtain ⟨hnames, hparts⟩ := ih hothers
      exact ⟨⟨he.1.1, hnames⟩, forall_mem_append.mpr ⟨he.2, hparts⟩⟩
  refine (yields_many (C := ElseIf.Clean) (passes_peek.bind fun kind => ?_)).mono hall fun _ =>
    elseIfsClean_iff.mpr
  split
  · refine passes_take.bind fun _ => hr.exprOrError.bind fun test htest =>
      passes_skipArrow.bind fun _ => ?_
    refine hr.block.bind fun body hbody => yields_pure (Round.finds_found ⟨?_, ?_⟩) ?_
    · exact ⟨⟨htest.names, hbody.names⟩, trivial⟩
    · exact forall_mem_cons.mpr ⟨htest.patterns, hbody.parts⟩
    · exact fun hbody htest => Round.finds_found ⟨htest, hbody⟩
  · exact yields_done

theorem Rules.Yield.clauseBlock (tag : String) (mayPoint : Bool) :
    Yields ts (fun body => otherwiseNames (PlainIn ts) body ∧
      NodesRead ts ((body.getD []).map Node.stmt)) blockClean? (clauseBlock r tag mayPoint) := by
  have hblock : Yields ts
      (fun body => otherwiseNames (PlainIn ts) body ∧ NodesRead ts ((body.getD []).map Node.stmt))
      blockClean? (do return some (← r.block)) :=
    hr.block.bind fun _ hbody => yields_pure ⟨hbody.names, hbody.parts⟩ fun hclean => hclean
  refine passes_peek.bind fun kind => ?_
  split
  · refine passes_take.bind fun _ => ?_
    split
    · exact passes_skipArrow.bind fun _ => hblock
    · exact hblock
  · exact yields_pure ⟨trivial, forall_mem_nil _⟩ trivial

theorem Rules.Yield.branchStmt : Yields ts (Stmt.Read ts) Stmt.Clean (branchStmt r) := by
  refine passes_take.bind fun t => (passes_structuralAttrs _ _).bind fun head =>
    hr.exprOrError.bind fun test htest => passes_skipArrow.bind fun _ => yields_withOpen "IF" ?_
  refine hr.block.bind fun body hbody => hr.elseIfs.bind fun others hothers =>
    (hr.clauseBlock _ _).bind fun otherwise hotherwise => (passes_expectClose _ _ _ _).bind fun _ => ?_
  refine yields_pure (Stmt.read_mk ⟨htest.names, hbody.names, hothers.1, hotherwise.1⟩ trivial ?_)
    fun hotherwise hothers hbody htest => ⟨htest, hbody, hothers, hotherwise⟩
  refine forall_mem_cons.mpr ⟨htest.patterns, forall_mem_append.mpr ⟨?_, hotherwise.2⟩⟩
  exact forall_mem_append.mpr ⟨hbody.parts, hothers.2⟩

theorem Rules.Yield.countStmt : Yields ts (Stmt.Read ts) Stmt.Clean (countStmt r) := by
  refine passes_take.bind fun t => (passes_structuralAttrs _ _).bind fun head =>
    (passes_requiredField _ _ _ _ _).bind fun var => hr.exprOrError.bind fun first hfirst =>
      hr.exprOrError.bind fun last hlast => passes_peek.bind fun kind => ?_
  have hbody (step : Option Expr) (hstep : ∀ e ∈ step, e.Read ts) :
      Yields ts (Stmt.Read ts) (fun s => exprClean? step → last.Clean → first.Clean → s.Clean)
        (withOpen "L" do
        let body ← r.block
        let stop ← expectClose "L" "loop" (head.1.headD "") head.2
        return .count (head.1.headD "") var first last step body (head.2.merge stop)) := by
    refine yields_withOpen "L"
      (hr.block.bind fun body hbody => (passes_expectClose _ _ _ _).bind fun _ => ?_)
    refine yields_pure (Stmt.read_mk trivial trivial (forall_mem_append.mpr ⟨?_, hbody.parts⟩))
      fun hbody hstep hlast hfirst => ⟨hfirst, hlast, hstep, hbody⟩
    refine forall_mem_append.mpr ⟨by simp [hfirst.patterns, hlast.patterns], ?_⟩
    simpa using fun e he => (hstep e he).patterns
  have hstep : Yields ts (fun step => ∀ e ∈ step, e.Read ts) exprClean? (some <$> r.exprOrError) :=
    hr.exprOrError.map (fun e he e' he' => by cases he'; exact he) fun _ h => h
  dsimp only
  split
  · exact hstep.bind fun step hstep => hbody step hstep
  · exact yields_pure_bind ((hbody none nofun).clean fun s hs => hs trivial)

theorem Rules.Yield.eachStmt : Yields ts (Stmt.Read ts) Stmt.Clean (eachStmt r) := by
  refine passes_take.bind fun t => (passes_structuralAttrs _ _).bind fun head =>
    (passes_requiredField _ _ _ _ _).bind fun var => hr.exprOrError.bind fun source hsource =>
      yields_withOpen "EACH" ?_
  refine hr.block.bind fun body hbody => (passes_expectClose _ _ _ _).bind fun _ => yields_pure ?_ ?_
  · exact Stmt.read_mk trivial trivial (forall_mem_cons.mpr ⟨hsource.patterns, hbody.parts⟩)
  · exact fun hbody hsource => ⟨hsource, hbody⟩

theorem Rules.Yield.loopStmt : Yields ts (Stmt.Read ts) Stmt.Clean (loopStmt r) := by
  refine passes_take.bind fun t => (passes_structuralAttrs _ _).bind fun head =>
    hr.exprOrError.bind fun test htest => yields_withOpen "WH" ?_
  refine hr.block.bind fun body hbody => (passes_expectClose _ _ _ _).bind fun _ => yields_pure ?_ ?_
  · exact Stmt.read_mk trivial trivial (forall_mem_cons.mpr ⟨htest.patterns, hbody.parts⟩)
  · exact fun hbody htest => ⟨htest, hbody⟩

theorem Rules.Yield.catches :
    Yields ts (fun clauses => NodesRead ts (clauses.flatMap Catch.parts)) catchesClean (catches r) := by
  have hblock (ty : Option TypeRef) (var : Option String) (span : Span) :
      Yields ts (Round.Finds fun c => NodesRead ts c.parts)
        (fun c => typeClean? ty → c.Finds Catch.Clean) (do
        return .found (Catch.mk ty var (← r.block) span)) :=
    hr.block.bind fun body hbody => yields_pure (Round.finds_found hbody.parts) fun hbody hty =>
      Round.finds_found ⟨hty, hbody⟩
  have hall (clauses : List Catch) (h : ∀ c ∈ clauses, NodesRead ts c.parts) :
      NodesRead ts (clauses.flatMap Catch.parts) := by
    intro p hp
    obtain ⟨c, hc, hp⟩ := mem_flatMap.mp hp
    exact h c hc p hp
  refine (yields_many (C := Catch.Clean) (passes_peek.bind fun kind => ?_)).mono hall fun _ =>
    catchesClean_iff.mpr
  split
  · refine passes_take.bind fun t => passes_takeAttrs.bind fun found => ?_
    dsimp only
    split
    · refine (yields_typeRef _ _).bind fun ty _ =>
        yields_pure_bind ((hblock (some ty) _ _).clean fun c hc hty => hc ?_)
      rintro ty' ⟨⟩
      exact hty
    · exact yields_pure_bind ((hblock none none _).clean fun c hc => hc nofun)
  · exact yields_done

theorem Rules.Yield.attemptStmt : Yields ts (Stmt.Read ts) Stmt.Clean (attemptStmt r) := by
  refine passes_take.bind fun t => (passes_structuralAttrs _ _).bind fun head => yields_withOpen "TR" ?_
  refine hr.block.bind fun body hbody => hr.catches.bind fun clauses hclauses =>
    (hr.clauseBlock _ _).bind fun finish hfinish => (passes_expectClose _ _ _ _).bind fun _ =>
      yields_pure ?_ ?_
  · refine Stmt.read_mk trivial trivial (forall_mem_append.mpr ⟨?_, hfinish.2⟩)
    exact forall_mem_append.mpr ⟨hbody.parts, hclauses⟩
  · exact fun hfinish hclauses hbody => ⟨hbody, hclauses, hfinish⟩

theorem Rules.Yield.retStmt : Yields ts (Stmt.Read ts) Stmt.Clean (retStmt r) := by
  refine passes_take.bind fun t => passes_peek.bind fun kind => ?_
  split
  · refine hr.exprOrError.bind fun value hvalue => yields_pure ?_ fun hclean => hclean
    exact Stmt.read_mk hvalue.names trivial (forall_mem_singleton.mpr hvalue.patterns)
  · exact yields_pure (Stmt.read_mk trivial trivial (forall_mem_nil _)) trivial

theorem Rules.Yield.raiseStmt : Yields ts (Stmt.Read ts) Stmt.Clean (raiseStmt r) :=
  passes_take.bind fun _ => hr.exprOrError.bind fun _ hvalue =>
    yields_pure (Stmt.read_mk trivial trivial (forall_mem_singleton.mpr hvalue.patterns))
      fun hclean => hclean

omit hr in
theorem yields_strayStmt : Yields ts (Stmt.Read ts) Stmt.Clean strayStmt :=
  passes_here.bind fun _ => yields_stray (read_error _) _

theorem Rules.Yield.stmt (tag : String) : Yields ts (Stmt.Read ts) Stmt.Clean (stmt r tag) := by
  unfold Grammar.stmt
  split
  · exact hr.bindStmt
  · exact hr.assignStmt
  · exact hr.branchStmt
  · exact hr.countStmt
  · exact hr.eachStmt
  · exact hr.loopStmt
  · exact (hr.matching false).map (fun _ hw => Stmt.read_mk trivial hw.1 hw.2) fun _ h => h
  · exact hr.attemptStmt
  · exact hr.retStmt
  · exact hr.raiseStmt
  · exact hr.call.bind fun _ hargs => yields_pure (Stmt.read_mk trivial trivial hargs)
      fun hclean => hclean
  · exact yields_strayStmt

omit hr in
theorem yields_skipped {α : Type} {U C : α → Prop} : Yields ts (Round.Finds U) (Round.Finds C) (do
    skipStrayClose
    return .skip) := yields_skipStrayClose.failed fun _ => yields_pure Round.finds_skip trivial

theorem Rules.Yield.blockRule : Yields ts (BlockRead ts) stmtsClean (blockRule r) := by
  refine (yields_many (passes_get.bind fun s => ?_)).clean fun _ => stmtsClean_iff.mpr
  split
  · exact yields_done
  · split
    · exact yields_done
    · exact yields_skipped
  · split
    · exact yields_done
    · exact (hr.stmt _).found
  · exact yields_strayStmt.found

end Statements

theorem rules_yield (n : Nat) : (rules n).Yield ts := by
  induction n with
  | zero => exact ⟨fun _ _ => tryYields_giveUp _, fun _ _ => yields_pure (forall_mem_nil _) trivial⟩
  | succ n ih => exact ⟨fun _ hus => (ih.suffix hus).exprRule, fun _ hus => (ih.suffix hus).blockRule⟩

theorem passes_announced (tag : String) : Passes ts (announced tag) :=
  passes_take.bind fun _ => (passes_structuralAttrs _ _).bind fun _ =>
    (passes_requiredField _ _ _ _ _).bind fun _ =>
    (passes_of_respects fun _ hP => respects_modifiers hP.calm _ _ _).bind fun _ => passes_pure

theorem yields_members {α : Type} {U C : α → Prop} {member : TokenKind → Option (Parser (Round α))}
    (h : ∀ kind p, member kind = some p → Yields ts (Round.Finds U) (Round.Finds C) p)
    (expected : String) :
    Yields ts (fun l => ∀ a ∈ l, U a) (fun l => ∀ a ∈ l, C a) (members member expected) := by
  refine yields_many (passes_get.bind fun s => ?_)
  dsimp only
  split
  · exact yields_done
  · split
    · exact yields_done
    · exact yields_skipped
  · split
    · next p hp => exact h _ p hp
    · exact yields_stray Round.finds_skip _

theorem yields_memberDef (tag : String) :
    Yields ts (fun _ => True) (fun m => ∀ m' ∈ m, m'.ty.Clean) (memberDef tag) := by
  refine passes_take.bind fun t => passes_takeAttrs.bind fun found => ?_
  split
  · split
    · exact yields_reported fun _ => passes_pure
    · refine (yields_typeRef _ _).bind fun ty _ => yields_pure trivial fun hty m hm => ?_
      cases hm
      exact hty
  · exact yields_reported fun _ => passes_pure

abbrev YieldsVariant (ts : List Token) (p : Parser (Round VariantDef)) : Prop :=
  Yields ts (Round.Finds fun _ => True) (Round.Finds fun v => typeClean? v.payload) p

theorem yields_variantDef : YieldsVariant ts variantDef := by
  have hmissing (t : Token) : YieldsVariant ts (do
      missingAttr "V" "name" t.span
      return (.skip : Round VariantDef)) := yields_reported fun _ => yields_pure Round.finds_skip trivial
  refine passes_take.bind fun t => passes_takeAttrs.bind fun found => ?_
  split
  · split
    · exact hmissing t
    · dsimp only
      split
      · exact yields_pure_bind (yields_pure (Round.finds_found trivial) (Round.finds_found nofun))
      · refine (Yields.map (V := fun _ => True) (D := typeClean?) (yields_typeRef _ _)
          (fun _ _ => trivial) ?_).bind
          fun _ _ => yields_pure (Round.finds_found trivial) fun h => Round.finds_found h
        rintro ty hty ty' ⟨⟩
        exact hty
  · exact hmissing t

theorem yields_sumDef (tag construct expected : String)
    {member : TokenKind → Option (Parser (Round VariantDef))}
    (h : ∀ kind p, member kind = some p → YieldsVariant ts p) :
    Yields ts (fun _ => True) SumDef.Clean (sumDef tag construct expected member) := by
  refine (passes_announced _).bind fun a => yields_withOpen _ ?_
  exact (yields_members h _).bind fun _ _ => (passes_expectClose _ _ _ _).bind fun _ =>
    yields_pure trivial fun hvs => hvs

theorem yields_enumMember (kind : TokenKind) (p : Parser (Round VariantDef))
    (h : enumMember kind = some p) : YieldsVariant ts p := by
  unfold enumMember at h
  split at h
  · cases h
    exact passes_take.bind fun _ => yields_skip
  · cases h
    exact passes_take.bind fun _ => yields_pure (Round.finds_found trivial) (Round.finds_found nofun)
  · cases h
    exact yields_variantDef
  · cases h

theorem yields_unionMember (kind : TokenKind) (p : Parser (Round VariantDef))
    (h : unionMember kind = some p) : YieldsVariant ts p := by
  unfold unionMember at h
  split at h
  · cases h
    exact yields_variantDef
  · cases h

structure Head.Read (ts : List Token) (h : Head) : Prop where
  effects : ∀ d ∈ h.effects, EffectDecl.Read ts d
  preconditions : ∀ e ∈ h.preconditions, e.Read ts
  postconditions : ∀ e ∈ h.postconditions, e.Read ts

structure Head.Clean (h : Head) : Prop where
  params : ∀ p ∈ h.params, p.ty.Clean
  returnType : typeClean? h.returnType
  preconditions : ∀ e ∈ h.preconditions, e.Clean
  postconditions : ∀ e ∈ h.postconditions, e.Clean

def Preserves (P : Head → Prop) (part : Head → Head) : Prop := ∀ h, P h → P (part h)

theorem Preserves.foldl {P : Head → Prop} {parts : List (Head → Head)}
    (h : ∀ part ∈ parts, Preserves P part) (head : Head) (hhead : P head) :
    P (parts.foldl (fun h part => part h) head) := by
  induction parts generalizing head with
  | nil => exact hhead
  | cons part parts ih =>
    obtain ⟨hpart, hparts⟩ := forall_mem_cons.mp h
    exact ih hparts _ (hpart head hhead)

theorem passes_effectDecl : Passes ts effectDecl := by
  refine passes_take.bind fun t => passes_takeAttrs.bind fun found => ?_
  split <;> exact passes_pure

theorem read_effectDecl {s : Stream} (hs : s.Within ts) (hkind : s.kind = .tag "E") :
    EffectDecl.Read ts (effectDecl.run s).1 := by
  rw [effectDecl, run_bind_eq (run_take s)]
  rcases attrs_or_not s.advance with ⟨fields, hfields⟩ | hfields
  · have hmore : s.rest ≠ [] := by
      intro hnil
      rw [Stream.advance, hnil, hkind] at hfields
      cases hfields
    rw [run_bind_eq (run_takeAttrs_some hfields)]
    have htokens : s.tokens = s.current :: s.advance.current :: s.advance.rest :=
      congrArg (s.current :: ·) (tokens_advance hmore).symm
    rw [Stream.Within, htokens] at hs
    exact .block hs hkind hfields
  · rw [run_bind_eq (run_takeAttrs_none hfields)]
    refine .bare hs hkind fun x hx fields hx' => hfields fields ?_
    obtain ⟨us, hrest⟩ := head?_eq_some_iff.mp hx
    rwa [Stream.advance, hrest]

theorem yields_headParts {r : Rules} (hr : r.Yield ts) :
    Yields ts (fun parts => ∀ part ∈ parts, Preserves (Head.Read ts) part)
      (fun parts => ∀ part ∈ parts, Preserves Head.Clean part) (headParts r) := by
  refine yields_many (yields_peek fun s hs => ?_)
  split
  · refine yields_param.bind (fun p _ => ?_) s hs
    split
    · next p =>
      refine yields_pure (Round.finds_found fun h hh => { hh with }) fun hp =>
        Round.finds_found fun h hh => ?_
      refine { hh with params := ?_ }
      exact forall_mem_append.mpr ⟨hh.params, forall_mem_singleton.mpr (hp p rfl)⟩
    · exact yields_pure Round.finds_skip fun _ => Round.finds_skip
  · refine passes_take.bind (fun t => passes_takeAttrs.bind fun found => ?_) s hs
    split
    · refine (yields_typeRef _ _).bind fun ty _ =>
        yields_pure (Round.finds_found fun h hh => { hh with }) fun hty =>
        Round.finds_found fun h hh => { hh with returnType := ?_ }
      rintro ty' ⟨⟩
      exact hty
    · exact yields_reported fun _ => yields_pure Round.finds_skip trivial
  · next hkind =>
    have hdecl : Outcome ts (EffectDecl.Read ts) (fun _ => True) s (effectDecl.run s) :=
      { passes_effectDecl s hs with result := read_effectDecl hs hkind }
    refine hdecl.bind fun d hd => yields_pure (Round.finds_found fun h hh => { hh with effects := ?_ })
      fun _ => Round.finds_found fun h hh => { hh with }
    rintro d' ⟨⟩
    exact hd
  · refine passes_take.bind
      (fun _ => hr.exprOrError.bind fun e he => yields_pure (Round.finds_found fun h hh =>
      { hh with preconditions := ?_ }) fun he => Round.finds_found fun h hh =>
        { hh with preconditions := ?_ }) s hs
    · exact forall_mem_append.mpr ⟨hh.preconditions, forall_mem_singleton.mpr he⟩
    · exact forall_mem_append.mpr ⟨hh.preconditions, forall_mem_singleton.mpr he⟩
  · refine passes_take.bind
      (fun _ => hr.exprOrError.bind fun e he => yields_pure (Round.finds_found fun h hh =>
      { hh with postconditions := ?_ }) fun he => Round.finds_found fun h hh =>
        { hh with postconditions := ?_ }) s hs
    · exact forall_mem_append.mpr ⟨hh.postconditions, forall_mem_singleton.mpr he⟩
    · exact forall_mem_append.mpr ⟨hh.postconditions, forall_mem_singleton.mpr he⟩
  · exact passes_take.bind (fun _ => passes_takeAttrs.bind fun _ =>
      yields_pure (Round.finds_found fun h hh => { hh with })
        (Round.finds_found fun h hh => { hh with })) s hs
  · exact yields_done s hs

theorem yields_currentRules : Yields ts (Rules.Yield ts) (fun _ => True) currentRules :=
  passes_get.bind fun _ => yields_pure (rules_yield _) trivial

theorem yields_function (tag : String) :
    Yields ts (FunctionDef.Read ts) FunctionDef.Clean (function tag) := by
  have hrules : Yields ts (Rules.Yield ts) (fun _ => True) currentRules := yields_currentRules
  refine (passes_announced tag).bind fun a => yields_withOpen tag ?_
  refine hrules.bind_of fun _ hhead => (yields_headParts hhead).bind fun parts hparts => ?_
  refine hrules.bind_of fun _ hr => hr.block.bind fun _ hbody =>
    (passes_expectClose _ _ _ _).bind fun _ => ?_
  have hread := Preserves.foldl hparts {} ⟨nofun, forall_mem_nil _, forall_mem_nil _⟩
  refine yields_pure ⟨hread.effects, hread.preconditions, hread.postconditions, hbody⟩
    fun hbody hparts => ?_
  have hclean := Preserves.foldl hparts {}
    ⟨forall_mem_nil _, nofun, forall_mem_nil _, forall_mem_nil _⟩
  exact ⟨hclean.params, hclean.returnType, hclean.preconditions, hclean.postconditions, hbody⟩

def functionsOf : Item → List FunctionDef
  | .function f => [f]
  | .classDef c => c.methods
  | .interface i => i.methods
  | _ => []

def ItemRead (ts : List Token) (i : Item) : Prop := ∀ f ∈ functionsOf i, f.Read ts

def TopLevel.Read (ts : List Token) : TopLevel → Prop
  | .item i => ItemRead ts i
  | .using _ => True

def TopLevel.Clean : TopLevel → Prop
  | .item i => i.Clean
  | .using _ => True

def ClassMember.Read (ts : List Token) : ClassMember → Prop
  | .method f => f.Read ts
  | _ => True

def ClassMember.Clean : ClassMember → Prop
  | .field m => m.ty.Clean
  | .property m => m.ty.Clean
  | .method f => f.Clean

theorem yields_classMember (kind : TokenKind) (p : Parser (Round ClassMember))
    (h : classMember kind = some p) :
    Yields ts (Round.Finds (ClassMember.Read ts)) (Round.Finds ClassMember.Clean) p := by
  have hmember (member : MemberDef → ClassMember) (hread : ∀ m, (member m).Read ts)
      (hclean : ∀ m, m.ty.Clean → (member m).Clean) (tag : String) :
      Yields ts (Round.Finds (ClassMember.Read ts)) (Round.Finds ClassMember.Clean) (do
        return .ofOption ((← memberDef tag).map member)) := by
    refine (yields_memberDef tag).bind fun found _ => ?_
    cases found with
    | none => exact yields_pure Round.finds_skip fun _ => Round.finds_skip
    | some m =>
      exact yields_pure (Round.finds_found (hread m)) fun hm => Round.finds_found (hclean m (hm m rfl))
  unfold classMember at h
  split at h
  · cases h
    exact hmember .field (fun _ => trivial) (fun _ h => h) _
  · cases h
    exact hmember .property (fun _ => trivial) (fun _ h => h) _
  · cases h
    exact (yields_function "MT").bind fun _ hf => yields_pure (Round.finds_found hf) fun h =>
      Round.finds_found h
  · cases h

theorem yields_classDef : Yields ts (fun c => ∀ f ∈ c.methods, f.Read ts) ClassDef.Clean classDef := by
  refine (passes_announced "CL").bind fun a => yields_withOpen "CL" ?_
  refine (yields_members yields_classMember _).bind fun ms hms =>
    (passes_expectClose _ _ _ _).bind fun _ => yields_pure (fun f h => ?_) fun hms =>
      ⟨fun m h => ?_, fun m h => ?_, fun f h => ?_⟩
  all_goals
    obtain ⟨member, hmember, hsome⟩ := mem_filterMap.mp h
    split at hsome <;> cases hsome
    exact hms _ hmember

theorem yields_interfaceDef :
    Yields ts (fun i => ∀ f ∈ i.methods, f.Read ts) (fun i => ∀ f ∈ i.methods, f.Clean) interfaceDef := by
  refine (passes_announced _).bind fun a => yields_withOpen _ ?_
  refine (yields_members (U := FunctionDef.Read ts) (C := FunctionDef.Clean)
    (fun kind p hp => ?_) _).bind fun ms hread =>
    (passes_expectClose _ _ _ _).bind fun _ => yields_pure hread fun hms => hms
  unfold interfaceMember at hp
  split at hp
  · cases hp
    exact (yields_function "MT").found
  · cases hp

theorem yields_topLevel :
    Yields ts (fun l => ∀ t ∈ l, t.Read ts) (fun l => ∀ t ∈ l, t.Clean) topLevel := by
  have hitem {α : Type} {U C : α → Prop} {p : Parser α} {item : α → Item} (hp : Yields ts U C p)
      (hread : ∀ a, U a → ItemRead ts (item a)) (hclean : ∀ a, C a → (item a).Clean) :
      Yields ts (Round.Finds (TopLevel.Read ts)) (Round.Finds TopLevel.Clean)
        (do return .found (.item (item (← p)))) :=
    hp.bind fun a ha => yields_pure (Round.finds_found (hread a ha)) fun h =>
      Round.finds_found (hclean a h)
  refine yields_many (passes_peek.bind fun kind => ?_)
  split
  · exact yields_done
  · exact yields_done
  · exact yields_skipped
  · refine passes_take.bind fun t => passes_takeAttrs.bind fun found => ?_
    split
    · exact yields_pure (Round.finds_found trivial) (Round.finds_found trivial)
    · exact yields_reported fun _ => yields_pure Round.finds_skip trivial
  · exact hitem (yields_function "F") (fun _ h => forall_mem_singleton.mpr h) fun _ h => h
  · exact hitem yields_classDef (fun _ h => h) fun _ h => h
  · exact hitem yields_interfaceDef (fun _ h => h) fun _ h => h
  · exact hitem (yields_sumDef _ _ _ yields_enumMember) (fun _ _ => forall_mem_nil _) fun _ h => h
  · exact hitem (yields_sumDef _ _ _ yields_unionMember) (fun _ _ => forall_mem_nil _) fun _ h => h
  · exact yields_stray Round.finds_skip _
  · exact yields_stray Round.finds_skip _

theorem yields_moduleContents (id name : String) (head : Span) :
    Yields ts (fun m => ∀ i ∈ m.items, ItemRead ts i) Module.Clean (moduleContents id name head) := by
  refine (yields_withOpen (U := fun m : Module => ∀ i ∈ m.items, ItemRead ts i)
    (C := Module.Clean) "M" ?_).bind fun m hm => passes_peek.bind fun kind => ?_
  · have hitem {parts : List TopLevel} {i : Item} (hi : i ∈ parts.filterMap TopLevel.item?) :
        .item i ∈ parts := by
      obtain ⟨t, ht, hsome⟩ := mem_filterMap.mp hi
      unfold TopLevel.item? at hsome
      split at hsome <;> cases hsome
      exact ht
    refine yields_topLevel.bind fun parts hparts => (passes_expectClose _ _ _ _).bind fun _ => ?_
    exact yields_pure (fun i hi => hparts _ (hitem hi)) fun hclean i hi => hclean _ (hitem hi)
  · split
    · exact (yields_reportUnexpected _).failed fun _ => yields_pure hm trivial
    · exact yields_pure hm fun hclean => hclean

theorem yields_moduleBody :
    Yields ts (fun m => ∀ i ∈ m.items, ItemRead ts i) Module.Clean moduleBody := by
  have hheader : Passes ts moduleHeader :=
    passes_take.bind fun t => (passes_structuralAttrs _ _).bind fun head =>
    (passes_requiredField _ _ _ _ _).bind fun name => passes_pure
  exact hheader.bind fun _ => yields_moduleContents _ _ _

theorem yields_module : Yields ts (fun m => ∀ m', m = some m' → ∀ i ∈ m'.items, ItemRead ts i)
    (fun m => ∃ m', m = some m' ∧ m'.Clean) Grammar.module := by
  have hbody : Yields ts (fun m => ∀ m', m = some m' → ∀ i ∈ m'.items, ItemRead ts i)
      (fun m => ∃ m', m = some m' ∧ m'.Clean) (do return some (← moduleBody)) :=
    yields_moduleBody.bind fun m hm =>
      yields_pure (fun _ heq => by cases heq; exact hm) fun hclean => ⟨m, rfl, hclean⟩
  refine passes_peek.bind fun kind => ?_
  split
  · exact hbody
  · refine (yields_reportUnexpected _).failed fun _ => Passes.bind ?_ fun _ =>
      passes_peek.bind fun kind => ?_
    · exact passes_modify (fun _ hs => hs.skipUntil _) (fun s => s.skipUntil_openTags _) fun s =>
        s.skipUntil_errors _
    · split
      · exact yields_pure nofun trivial
      · exact hbody.clean fun _ _ => trivial

end Grammar

open List

theorem parse_outcome (source : String) :
    Grammar.Outcome (lex source).tokens
      (fun m => ∀ m', m = some m' → ∀ i ∈ m'.items, Grammar.ItemRead (lex source).tokens i)
      (fun m => ∃ m', m = some m' ∧ m'.Clean) (.ofTokens (lex source).tokens)
      (Grammar.module.run (.ofTokens (lex source).tokens)) := by
  obtain ⟨s, hs, -, htokens, -⟩ := Grammar.stream_lex source
  rw [hs]
  exact Grammar.yields_module s (Grammar.Stream.within_of_eq htokens)

theorem parse_clean (h : (parse source).errors = []) : ∃ m, (parse source).module = some m ∧ m.Clean :=
  ((parse_outcome source).clears (reverse_eq_nil_iff.mp h)).2

theorem parse_read (h : (parse source).module = some m) :
    ∀ f ∈ m.allFunctions, f.Read (lex source).tokens := by
  have hitems := (parse_outcome source).result m h
  intro f hf
  rcases mem_append.mp hf with hfree | hmethod
  · obtain ⟨i, hi, hsome⟩ := mem_filterMap.mp hfree
    have hread := hitems i hi
    cases i <;> cases hsome
    exact hread f mem_cons_self
  · obtain ⟨c, hc, hmem⟩ := mem_flatMap.mp hmethod
    obtain ⟨i, hi, hsome⟩ := mem_filterMap.mp hc
    have hread := hitems i hi
    cases i <;> cases hsome
    exact hread f hmem

theorem parse_names (h : (parse source).module = some m) : ∀ f ∈ m.allFunctions, f.Names Plain := by
  intro f hf
  have hread := parse_read h f hf
  rw [← plainIn_eq (lex_plainNames source)]
  exact ⟨fun e he => (hread.preconditions e he).names, fun e he =>
    (hread.postconditions e he).names, hread.body.names⟩

theorem parse_plainNames (h : (parse source).module = some m) :
    ∀ f ∈ m.allFunctions, bodyNames Plain f.body :=
  fun f hf => (parse_names h f hf).body

end TagLang
