import TagLang.Proofs.Binding.Scoping
import TagLang.Proofs.Contract.Reads
import TagLang.Proofs.Grammar.Module

/-! # The variables of bound bodies

Each variable that a bound expression reads comes from a name of the tree, as the trace of the names
says. If those names are plain, so are the symbols of the variables.
-/

namespace TagLang.Binding

open Contract List

/-! ## Parts of traces -/

section Parts

variable {α β : Type} {R : α → β → Trace → Prop}

theorem ListTrace.exists_infix {as : List α} {bs : List β} {tr : Trace} (h : ListTrace R as bs tr)
    {b : β} (hb : b ∈ bs) : ∃ a ∈ as, ∃ new, R a b new ∧ new <:+: tr := by
  induction h with
  | nil => cases hb
  | @cons a b' as bs tr rest hab _ ih =>
    rcases mem_cons.mp hb with rfl | hb
    · exact ⟨a, mem_cons_self, tr, hab, (List.prefix_append tr rest).isInfix⟩
    · obtain ⟨a', ha', new, hnew, hpart⟩ := ih hb
      exact ⟨a', mem_cons_of_mem a ha', new, hnew, hpart.trans (suffix_append tr rest).isInfix⟩

theorem infix_region (inside : Trace) : inside <:+: region inside :=
  List.infix_append [Event.enter] inside [.leave]

theorem ModuleTrace.exists_infix {m : Module} {gs : List Bound.Function} {tr : Trace}
    (h : ModuleTrace m gs tr) {g : Bound.Function} (hg : g ∈ gs) :
    ∃ f ∈ m.allFunctions, ∃ new, FunctionTrace f g new ∧ new <:+: tr := by
  obtain @⟨ids, free, methods, items, tr', tr'', -, hfree, hmethods, rfl⟩ := h
  rcases mem_append.mp hg with hg | hg
  · obtain ⟨f, hf, new, hnew, hpart⟩ := hfree.exists_infix hg
    exact ⟨f, mem_append_left _ hf, new, hnew, hpart.trans (List.infix_append' items tr' tr'')⟩
  · obtain ⟨gs, hgs, hg⟩ := mem_flatten.mp hg
    obtain ⟨c, hc, inner, hclass, hinner⟩ := hmethods.exists_infix hgs
    obtain @⟨this, members, first, rest, -, hfunctions⟩ := hclass
    obtain ⟨f, hf, new, hnew, hpart⟩ := hfunctions.exists_infix hg
    have hclass : rest <:+: .declare "this" this :: (first ++ rest) :=
      (suffix_append (Event.declare "this" this :: first) rest).isInfix
    have hclasses : tr'' <:+: items ++ (tr' ++ tr'') :=
      (suffix_append tr' tr'').isInfix.trans (suffix_append items _).isInfix
    refine ⟨f, mem_append_right _ (mem_flatMap.mpr ⟨c, hc, hf⟩), new, hnew, ?_⟩
    exact (hpart.trans hclass).trans ((infix_region _).trans (hinner.trans hclasses))

end Parts

/-! ## Names in traces -/

section Names

variable {t : SymbolTable}

def Event.Named (t : SymbolTable) : Event → Prop
  | .declare name id | .refer name id | .undefined name id _ => HasName name t id
  | _ => True

abbrev TraceNamed (t : SymbolTable) (tr : Trace) : Prop := ∀ e ∈ tr, e.Named t

theorem Follows.traceNamed {s : State} {tr : Trace} (h : Follows s tr) : TraceNamed s.symbols tr := by
  have hdeclared {name : String} {id : SymbolId} (hmem : .declare name id ∈ tr) :
      HasName name s.symbols id := by
    obtain ⟨kind, span, -, hget⟩ := h.recorded _ hmem
    exact ⟨_, hget, rfl⟩
  intro e he
  cases e with
  | declare name id => exact hdeclared he
  | undefined name id span => exact ⟨_, (h.recorded _ he).1, rfl⟩
  | refer name id =>
    -- what a name means was declared before it is used
    obtain ⟨before, after, rfl⟩ := append_of_mem he
    obtain ⟨r, hr, hid⟩ := exists_mem_of_resolve (h.lexical before _ after rfl)
    obtain ⟨r', hr', hid'⟩ | hmem := mem_foldl [[]] hr hid
    · cases mem_singleton.mp hr'
      cases hid'
    · exact hdeclared (mem_append_left _ hmem)
  | enter | leave | missing => trivial

theorem HasName.name_eq {name : String} {id : SymbolId} (h : HasName name t id) : t.name id = name := by
  obtain ⟨sym, hsym, rfl⟩ := h
  rw [SymbolTable.name, hsym]
  rfl

theorem HasName.plainId {name : String} {id : SymbolId} (h : HasName name t id)
    (hname : Plain name) : t.PlainId id := by
  rw [SymbolTable.PlainId, h.name_eq]
  exact hname

theorem plain_dotted {path name : String} (hpath : Plain path) (hname : Plain name) :
    Plain (path ++ "." ++ name) := by
  have hdot : Plain "." := by simp [Plain]
  exact (hpath.append hdot).append hname

theorem plain_path {path : String} : (e : Expr) → e.Names Plain → e.path? = some path → Plain path
  | .ident name _, h, hpath => by
    cases hpath
    exact h
  | .field base name _, h, hpath => by
    obtain ⟨outer, houter, rfl⟩ := Option.map_eq_some_iff.mp hpath
    exact plain_dotted (plain_path base h.1 houter) h.2

theorem exprReads_of_trace :
    (e : Expr) → {b : Bound.Expr} → {tr : Trace} → ExprTrace e b tr → TraceNamed t tr →
    e.Names Plain → ExprReads t.PlainId b
  | .int _ _, _, _, h, _, _ | .float _ _, _, _, h, _, _ | .str _ _, _, _, h, _, _
  | .bool _ _, _, _, h, _, _ | .null _, _, _, h, _, _ | .noneOf _, _, _, h, _, _
  | .error _, _, _, h, _, _ | .call _ _ _, _, _, h, _, _ | .create _ _ _, _, _, h, _, _
  | .someOf _ _, _, _, h, _, _ | .okOf _ _, _, _, h, _, _ | .errOf _ _, _, _, h, _, _
  | .await _ _, _, _, h, _, _ | .lambda _ _ _ _, _, _, h, _, _ | .matching _, _, _, h, _, _ => by
    cases h
    trivial
  | .ident _ _, _, _, h, htr, hname => by
    cases h with
    | found => exact (htr _ mem_cons_self).plainId hname
    | variant => trivial
    | undefined => exact (htr _ (mem_cons_of_mem _ mem_cons_self)).plainId hname
  | .field base _ _, _, _, h, htr, hname => by
    cases h with
    | field | fieldOfVariant | fieldVariant | fieldStatic => trivial
    | fieldUndefined hroot hpath =>
      refine (htr _ (mem_cons_of_mem _ mem_cons_self)).plainId ?_
      exact plain_dotted (plain_path base hname.1 hpath) hname.2
  | .index base place _, _, _, h, htr, hname => by
    cases h with | index hbase hplace =>
    obtain ⟨hfirst, hrest⟩ := forall_mem_append.mp htr
    exact ⟨exprReads_of_trace base hbase hfirst hname.1, exprReads_of_trace place hplace hrest hname.2⟩
  | .binary left _ right _, _, _, h, htr, hname => by
    cases h with | binary hleft hright =>
    obtain ⟨hfirst, hrest⟩ := forall_mem_append.mp htr
    exact ⟨exprReads_of_trace left hleft hfirst hname.1, exprReads_of_trace right hright hrest hname.2⟩
  | .unary _ operand _, _, _, h, htr, hname => by
    cases h with | unary h =>
    have hoperand := exprReads_of_trace operand h htr hname
    exact hoperand
  | .conditional test yes no _, _, _, h, htr, hname => by
    cases h with | conditional htest hyes hno =>
    obtain ⟨hfirst, hrest⟩ := forall_mem_append.mp htr
    obtain ⟨hsecond, hlast⟩ := forall_mem_append.mp hrest
    exact ⟨exprReads_of_trace test htest hfirst hname.1, exprReads_of_trace yes hyes hsecond hname.2.1,
      exprReads_of_trace no hno hlast hname.2.2⟩
  | .quantifier _ _ body _, _, _, h, htr, hname => by
    cases h with | quantifier hvars hbody =>
    have hreads := exprReads_of_trace body hbody (fun e he => htr e (by simp [region, he])) hname
    exact hreads

theorem exprsRead_of_trace {es : List Expr} {bs : List Bound.Expr} {tr : Trace}
    (h : ListTrace ExprTrace es bs tr) (htr : TraceNamed t tr) (hnames : ∀ e ∈ es, e.Names Plain) :
    ∀ b ∈ bs, ExprReads t.PlainId b := by
  intro b hb
  obtain ⟨e, he, new, hnew, hpart⟩ := h.exists_infix hb
  exact exprReads_of_trace e hnew (fun ev hev => htr ev (hpart.subset hev)) (hnames e he)

theorem stmtsRead_append {P : SymbolId → Prop} : (first : List Bound.Stmt) → (rest : List Bound.Stmt) →
    StmtsRead P first → StmtsRead P rest → StmtsRead P (first ++ rest)
  | [], _, _, hrest => hrest
  | .bind _ _ _ :: more, rest, h, hrest | .ret (some _) _ :: more, rest, h, hrest
  | .branch _ _ _ _ _ :: more, rest, h, hrest => by
    rw [cons_append]
    rw [StmtsRead] at h ⊢
    exact ⟨h.1, stmtsRead_append more rest h.2 hrest⟩
  | .ret none _ :: more, rest, h, hrest | .assign _ _ _ :: more, rest, h, hrest
  | .count _ _ _ _ _ _ :: more, rest, h, hrest | .each _ _ _ _ :: more, rest, h, hrest
  | .loop _ _ _ :: more, rest, h, hrest | .matching _ :: more, rest, h, hrest
  | .attempt _ _ _ _ :: more, rest, h, hrest | .raise _ _ :: more, rest, h, hrest
  | .call _ _ :: more, rest, h, hrest => by
    rw [cons_append]
    simp only [StmtsRead] at h ⊢
    exact stmtsRead_append more rest h hrest

mutual

theorem stmtReads_of_trace :
    (s : Stmt) → {b : Option Bound.Stmt} → {tr : Trace} → StmtTrace s b tr → TraceNamed t tr →
    s.Names Plain → StmtsRead t.PlainId b.toList
  | .bind _ _ _ value _, _, _, h, htr, hnames => by
    cases h with | bind h =>
    rw [Stmt.Names] at hnames
    simp only [Option.toList_some, StmtsRead, and_true]
    exact exprReads_of_trace value h (forall_mem_append.mp htr).1 hnames
  | .ret (some value) _, _, _, h, htr, hnames => by
    cases h with | ret h =>
    cases h with | some h =>
    rw [Stmt.Names] at hnames
    simp only [Option.toList_some, StmtsRead, and_true]
    exact exprReads_of_trace value h htr hnames
  | .branch _ test body others otherwise _, _, _, h, htr, hnames => by
    cases h with | branch htest hbody hothers hotherwise =>
    obtain ⟨hfirst, hrest⟩ := forall_mem_append.mp htr
    obtain ⟨hsecond, hrest⟩ := forall_mem_append.mp hrest
    obtain ⟨hthird, hlast⟩ := forall_mem_append.mp hrest
    rw [Stmt.Names] at hnames
    simp only [Option.toList_some, StmtsRead, and_true]
    exact ⟨exprReads_of_trace test htest hfirst hnames.1,
      blockReads_of_trace body hbody hsecond hnames.2.1,
      elseIfsRead_of_trace others hothers hthird hnames.2.2.1,
        otherwiseReads_of_trace otherwise hotherwise hlast hnames.2.2.2⟩
  | .ret none _, _, _, h, _, _ => by
    cases h with | ret h =>
    cases h
    simp [StmtsRead]
  | .assign _ _ _, _, _, h, _, _ | .count _ _ _ _ _ _ _, _, _, h, _, _ | .each _ _ _ _ _, _, _, h, _, _
  | .loop _ _ _ _, _, _, h, _, _ | .matching _, _, _, h, _, _ | .attempt _ _ _ _ _, _, _, h, _, _
  | .raise _ _, _, _, h, _, _ | .call _ _ _, _, _, h, _, _ | .error _, _, _, h, _, _ => by
    cases h
    simp [StmtsRead]

theorem stmtsRead_of_trace :
    (body : List Stmt) → {bs : List Bound.Stmt} → {tr : Trace} → StmtsTrace body bs tr →
    TraceNamed t tr → bodyNames Plain body → StmtsRead t.PlainId bs
  | [], _, _, h, _, _ => by
    cases h
    simp [StmtsRead]
  | s :: more, _, _, h, htr, hnames => by
    cases h with | cons h hrest =>
    obtain ⟨hfirst, hlast⟩ := forall_mem_append.mp htr
    rw [bodyNames] at hnames
    exact stmtsRead_append _ _ (stmtReads_of_trace s h hfirst hnames.1)
      (stmtsRead_of_trace more hrest hlast hnames.2)

theorem blockReads_of_trace (body : List Stmt) {bs : List Bound.Stmt} {tr : Trace}
    (h : BlockTrace body bs tr) (htr : TraceNamed t tr) (hnames : bodyNames Plain body) :
    StmtsRead t.PlainId bs := by
  obtain ⟨h⟩ := h
  exact stmtsRead_of_trace body h (fun e he => htr e ((infix_region _).subset he)) hnames

theorem otherwiseReads_of_trace :
    (otherwise : Option (List Stmt)) → {b : Option (List Bound.Stmt)} → {tr : Trace} →
    OptionTrace BlockTrace otherwise b tr → TraceNamed t tr → otherwiseNames Plain otherwise →
    OtherwiseReads t.PlainId b
  | none, _, _, h, _, _ => by
    cases h
    simp [OtherwiseReads]
  | some body, _, _, h, htr, hnames => by
    cases h with | some h =>
    rw [otherwiseNames] at hnames
    rw [OtherwiseReads]
    exact blockReads_of_trace body h htr hnames

theorem elseIfsRead_of_trace : (others : List ElseIf) → {bs : List Bound.ElseIf} → {tr : Trace} →
    ListTrace ElseIfTrace others bs tr → TraceNamed t tr → othersNames Plain others →
    ElseIfsRead t.PlainId bs
  | [], _, _, h, _, _ => by
    cases h
    simp [ElseIfsRead]
  | .mk test body _ :: more, _, _, h, htr, hnames => by
    cases h with | cons h hrest =>
    cases h with | mk htest hbody =>
    obtain ⟨hfirst, hlast⟩ := forall_mem_append.mp htr
    obtain ⟨hfirst, hsecond⟩ := forall_mem_append.mp hfirst
    rw [othersNames] at hnames
    rw [ElseIfsRead]
    exact ⟨⟨exprReads_of_trace test htest hfirst hnames.1.1,
      blockReads_of_trace body hbody hsecond hnames.1.2⟩,
      elseIfsRead_of_trace more hrest hlast hnames.2⟩

end

end Names

/-! ## Functions -/

section Functions

variable {t : SymbolTable}

/-- The parameters of a bound function have the names that a definition gives them. Its conditions
and its body are those of the definition, and read variables of plain names if the definition
mentions plain names there. -/
structure FunctionReads (f : FunctionDef) (t : SymbolTable) (g : Bound.Function) : Prop where
  params : List.Forall₂ (fun p id => HasName p.name t id) f.params g.params
  preconditions : (∀ e ∈ f.preconditions, e.Names Plain) → ∀ b ∈ g.preconditions, ExprReads t.PlainId b
  postconditions : (∀ e ∈ f.postconditions, e.Names Plain) → ∀ b ∈ g.postconditions, ExprReads t.PlainId b
  body : bodyNames Plain f.body → StmtsRead t.PlainId g.body

theorem hasName_of_trace {names : List String} {ids : List SymbolId} {tr : Trace}
    (h : ListTrace Declares names ids tr) (htr : TraceNamed t tr) :
    List.Forall₂ (fun name id => HasName name t id) names ids := by
  induction h with
  | nil => exact .nil
  | cons hdeclare _ ih =>
    subst hdeclare
    obtain ⟨hfirst, hrest⟩ := forall_mem_append.mp htr
    exact .cons (hfirst _ mem_cons_self) (ih hrest)

theorem FunctionTrace.reads {f : FunctionDef} {g : Bound.Function} {tr : Trace}
    (h : FunctionTrace f g tr) (htr : TraceNamed t tr) : FunctionReads f t g := by
  obtain ⟨hparams, hbefore, hafter, hbody⟩ := h
  obtain ⟨hfirst, hrest⟩ := forall_mem_append.mp fun e he => htr e ((infix_region _).subset he)
  obtain ⟨hsecond, hrest⟩ := forall_mem_append.mp hrest
  obtain ⟨hthird, hlast⟩ := forall_mem_append.mp hrest
  obtain ⟨-, hposts⟩ := forall_mem_append.mp fun e he => hthird e ((infix_region _).subset he)
  exact ⟨forall₂_map_left_iff.mp (hasName_of_trace hparams hfirst), exprsRead_of_trace hbefore hsecond,
    exprsRead_of_trace hafter hposts, stmtsRead_of_trace f.body hbody hlast⟩

theorem exists_follows {m : Module} {out : BindOutput} (h : TagLang.bind m = .ok out) :
    ∃ s tr, s.symbols = out.module.symbols ∧ Follows s tr ∧ ModuleTrace m out.module.functions tr := by
  obtain ⟨s, hrun, -, hsymbols, -⟩ := run_functions h
  obtain ⟨tr, hfollows, htrace⟩ := exists_trace m
  rw [hrun] at hfollows htrace
  exact ⟨s, tr, hsymbols.symm, hfollows, htrace⟩

end Functions

end TagLang.Binding

namespace TagLang

open Contract List

theorem bind_functionReads {m : Module} {out : BindOutput} (h : bind m = .ok out) :
    ∀ g ∈ out.module.functions, ∃ f ∈ m.allFunctions, Binding.FunctionReads f out.module.symbols g := by
  intro g hg
  obtain ⟨s, tr, hsymbols, hfollows, htrace⟩ := Binding.exists_follows h
  obtain ⟨f, hf, new, hnew, hpart⟩ := htrace.exists_infix hg
  rw [← hsymbols]
  exact ⟨f, hf, hnew.reads fun e he => hfollows.traceNamed e (hpart.subset he)⟩

theorem bind_plainNames {m : Module} {out : BindOutput}
    (hm : ∀ f ∈ m.allFunctions, bodyNames Plain f.body) (h : bind m = .ok out) :
    ∀ g ∈ out.module.functions, StmtsRead out.module.symbols.PlainId g.body := by
  intro g hg
  obtain ⟨f, hf, hreads⟩ := bind_functionReads h g hg
  exact hreads.body (hm f hf)

end TagLang
