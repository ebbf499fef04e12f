import TagLang.Proofs.Binding.Identity
import TagLang.Proofs.Contract.Account

/-! # The name of the result

Postconditions name the returned value `result`. The binder keeps it apart from everything else, but
contracts are translated by names. So where the body of a function has no summary, nothing is found
for the name, and a postcondition about the returned value is not decided; unless a parameter has
this name, too.
-/

namespace TagLang
open List

/-! ## Mentions -/

namespace Bound

def ExprKind.symbol? : ExprKind → Option SymbolId
  | .var id => some id
  | .call _ callee _ _ => callee.symbol?
  | _ => none

def Node.Mentions (n : Node) (id : SymbolId) : Prop :=
  ∃ kind ty span, Relation.ReflTransGen (fun a b => b ∈ a.parts) n (.expr (.mk kind ty span)) ∧
    kind.symbol? = some id

def Expr.Mentions (e : Expr) (id : SymbolId) : Prop := Node.Mentions (.expr e) id

theorem mentions_iff {kind : ExprKind} {ty : Ty} {span : Span} {id : SymbolId} :
    Node.Mentions (.expr (.mk kind ty span)) id ↔ kind.symbol? = some id ∨ ∃ n ∈
      kind.parts, n.Mentions id := by
  constructor
  · rintro ⟨kind', ty', span', hreach, hid⟩
    rcases hreach.cases_head with heq | ⟨n, hn, hrest⟩
    · cases heq
      exact .inl hid
    · exact .inr ⟨n, hn, kind', ty', span', hrest, hid⟩
  · rintro (hid | ⟨n, hn, kind', ty', span', hreach, hid⟩)
    · exact ⟨kind, ty, span, .refl, hid⟩
    · exact ⟨kind', ty', span', .head hn hreach, hid⟩

end Bound

/-! ## Parts of traces -/

namespace Binding

variable {tr : Trace} {id : SymbolId} {names : List String} {ids : List SymbolId} {regions : List Region}

def LexicalFrom (regions : List Region) (tr : Trace) : Prop :=
  ∀ before e after, tr = before ++ e :: after → e.Resolved (before.foldl Event.apply regions)

theorem Lexical.middle {before new after : Trace} (h : Lexical (before ++ (new ++ after))) :
    LexicalFrom (openRegions before) new := by
  rintro first e last rfl
  rw [← openRegions_append]
  exact h (before ++ first) e (last ++ after) (by simp)

theorem LexicalFrom.left {tr new : Trace} (h : LexicalFrom regions (tr ++ new)) :
    LexicalFrom regions tr := by
  rintro first e last rfl
  exact h first e (last ++ new) (by simp)

theorem LexicalFrom.right {tr new : Trace} (h : LexicalFrom regions (tr ++ new)) :
    LexicalFrom (tr.foldl Event.apply regions) new := by
  rintro first e last rfl
  rw [← foldl_append]
  exact h (tr ++ first) e last (by simp)

theorem FunctionTrace.exists_infix {f : FunctionDef} {g : Bound.Function} (h : FunctionTrace f g tr)
    {r : SymbolId} (hr : g.result = some r) :
    ∃ new, ListTrace ExprTrace f.postconditions g.postconditions new ∧
      .declare "result" r :: new <:+: tr := by
  obtain @⟨first, before, new, last, -, -, hafter, -⟩ := h
  rw [hr]
  refine ⟨new, hafter, (infix_region _).trans (.trans ?_ (infix_region _))⟩
  exact (List.infix_append' before _ last).trans (suffix_append first _).isInfix

theorem foldl_declares (h : ListTrace Declares names ids tr) (current : Region) (outer : List Region) :
    tr.foldl Event.apply (current :: outer) = (current ++ names.zip ids) :: outer := by
  induction h generalizing current with
  | nil => rw [foldl_nil, zip_nil_left, append_nil]
  | cons hdeclare _ ih =>
    subst hdeclare
    rw [singleton_append, foldl_cons, Event.apply, ih, zip_cons_cons, append_assoc,
      singleton_append]

theorem declare_mem_of_zip (h : ListTrace Declares names ids tr) {x : String}
    (hmem : (x, id) ∈ names.zip ids) : .declare x id ∈ tr := by
  induction h with
  | nil => cases hmem
  | cons hdeclare _ ih =>
    subst hdeclare
    rcases mem_cons.mp hmem with heq | hmem
    · cases heq
      exact mem_cons_self
    · exact mem_append_right _ (ih hmem)

theorem exists_mem_zip (h : ListTrace Declares names ids tr) (hid : id ∈ ids) :
    ∃ x, (x, id) ∈ names.zip ids := by
  induction h with
  | nil => cases hid
  | @cons x id' names ids tr rest _ _ ih =>
    rcases mem_cons.mp hid with rfl | hid
    · exact ⟨x, mem_cons_self⟩
    · obtain ⟨y, hy⟩ := ih hid
      exact ⟨y, mem_cons_of_mem _ hy⟩

theorem exprTrace_var {e : Expr} {ty : Ty} {span : Span} (h : ExprTrace e (.mk (.var id) ty span) tr) :
    (∃ x, tr = [.refer x id]) ∨ ∃ x y, tr = [.missing x, .undefined y id span] := by
  cases h with
  | found => exact .inl ⟨_, rfl⟩
  | undefined => exact .inr ⟨_, _, rfl⟩
  | fieldUndefined => exact .inr ⟨_, _, rfl⟩

theorem foldl_exprTrace_var {e : Expr} {ty : Ty} {span : Span}
    (h : ExprTrace e (.mk (.var id) ty span) tr) (regions : List Region) :
    tr.foldl Event.apply regions = regions := by
  rcases exprTrace_var h with ⟨x, rfl⟩ | ⟨x, y, rfl⟩ <;> simp [Event.apply]

end Binding

namespace Contract
open Binding

/-! ## Names in contracts -/

section Names

variable {symbols : SymbolTable} {r : SymbolId} {c c' : Context}

theorem find?_quantified {span : Span} {ids : List SymbolId} {bound : List (String × VarSort)}
    (h : Runs (Encode.quantified symbols span ids) c bound c') {x : String}
    (hx : x ∉ ids.map symbols.name) : c'.find? x = c.find? x := by
  induction ids generalizing c bound with
  | nil =>
    obtain ⟨-, rfl⟩ := runs_quantified_nil.mp h
    rfl
  | cons id ids ih =>
    obtain ⟨t, rest, -, -, hrest⟩ := runs_quantified_cons.mp h
    rw [map_cons, mem_cons, not_or] at hx
    rw [ih hrest hx.2, find?_quantify, if_neg hx.1]

theorem Encodes.foldl_trace {b : Bound.Expr} {t : Term} (h : Encodes symbols b c t c') {e : Expr}
    {tr : Trace} (htrace : ExprTrace e b tr) (regions : List Region) :
    tr.foldl Event.apply regions = regions := by
  induction h generalizing e tr regions with
  | int | bool =>
    cases htrace
    rfl
  | var => exact foldl_exprTrace_var htrace regions
  | index _ _ _ _ _ _ _ ih =>
    cases htrace with
    | index hbase hplace => rw [foldl_append, foldl_exprTrace_var hbase, ih hplace]
  | binary _ _ _ _ _ _ ihleft ihright =>
    cases htrace with
    | binary hleft hright => rw [foldl_append, ihleft hleft, ihright hright]
  | unary _ _ _ _ ih =>
    cases htrace with
    | unary hoperand => exact ih hoperand regions
  | conditional _ _ _ _ _ _ _ ihtest ihyes ihno =>
    cases htrace with
    | conditional htest hyes hno => rw [foldl_append, foldl_append, ihtest htest, ihyes hyes, ihno hno]
  | quantifier _ _ _ _ _ _ ih =>
    cases htrace with
    | quantifier hvars hbody =>
      rw [foldl_region, foldl_append, foldl_declares hvars, ih hbody]
      rfl

/-- A part of a trace is read in some regions and translated in some context. Where the symbol is
what a name means there, the name has no meaning in the context. The symbol is not made in the part. -/
structure Hidden (symbols : SymbolTable) (r : SymbolId) (regions : List Region) (c : Context)
    (tr : Trace) : Prop where
  lexical : LexicalFrom regions tr
  names : ∀ x id, .declare x id ∈ tr → symbols.name id = x
  created : r ∉ created tr
  find? : ∀ x, resolve regions x = some r → symbols.name r = x ∧ c.find? x = none

namespace Hidden

variable {regions : List Region} {c c' : Context} {tr tr' : Trace}

theorem left (h : Hidden symbols r regions c (tr ++ tr')) : Hidden symbols r regions c tr where
  lexical := h.lexical.left
  names x id hmem := h.names x id (mem_append_left _ hmem)
  created hmem := h.created (by rw [created_append]; exact mem_append_left _ hmem)
  find? := h.find?

theorem right (h : Hidden symbols r regions c (tr ++ tr'))
    (hregions : tr.foldl Event.apply regions = regions) (hkeeps : Keeps c c') :
    Hidden symbols r regions c' tr' where
  lexical := by
    have hlexical := h.lexical.right
    rwa [hregions] at hlexical
  names x id hmem := h.names x id (mem_append_right _ hmem)
  created hmem := h.created (by rw [created_append]; exact mem_append_right _ hmem)
  find? x hx := by
    rw [hkeeps.find?]
    exact h.find? x hx

theorem quantified {span : Span} {names : List String} {ids : List SymbolId}
    {bound : List (String × VarSort)} (h : Hidden symbols r regions c (region (tr ++ tr')))
    (htrace : ListTrace Binding.Declares names ids tr)
    (hrun : Runs (Encode.quantified symbols span ids) c.push bound c') :
    Hidden symbols r (names.zip ids :: regions) c' tr' := by
  have hregions : (.enter :: tr).foldl Event.apply regions = names.zip ids :: regions := by
    rw [foldl_cons, Event.apply, foldl_declares htrace, nil_append]
  have hregion : Hidden symbols r regions c ((.enter :: tr ++ tr') ++ [.leave]) := h
  have hinside : Hidden symbols r regions c (.enter :: tr ++ tr') := hregion.left
  have hlexical := hinside.lexical.right
  rw [hregions] at hlexical
  refine ⟨hlexical, fun x id hmem => hinside.names x id (mem_append_right _ hmem), fun hmem =>
    ?_, fun x hx => ?_⟩
  · exact hinside.created (by rw [created_append]; exact mem_append_right _ hmem)
  rw [resolve, findSome?_cons] at hx
  split at hx
  · next id hlookup =>
    -- A variable of the quantifier is a new symbol, so it cannot be the hidden one.
    cases hx
    have hdeclared : .declare x r ∈ tr := declare_mem_of_zip htrace (Table.mem_of_lookup hlookup)
    exact absurd (mem_created (mem_append_left _ (mem_cons_of_mem _ hdeclared))) hinside.created
  · next hlookup =>
    have hnot : x ∉ ids.map symbols.name := by
      intro hmem
      obtain ⟨id, hid, rfl⟩ := mem_map.mp hmem
      obtain ⟨y, hy⟩ := exists_mem_zip htrace hid
      have hname :=
        hinside.names y id (mem_append_left _ (mem_cons_of_mem _ (declare_mem_of_zip htrace hy)))
      have hne := lookup_eq_none_iff.mp hlookup (y, id) hy
      simp [hname] at hne
    have hpush : c.push.find? x = c.find? x := rfl
    rw [find?_quantified hrun hnot, hpush]
    exact h.find? x hx

theorem ne_of_find? {e : Expr} {id : SymbolId} {ty : Ty} {span : Span} {m : Meaning}
    (h : Hidden symbols r regions c tr) (htrace : ExprTrace e (.mk (.var id) ty span) tr)
    (hfind : c.find? (symbols.name id) = some m) : id ≠ r := by
  rintro rfl
  rcases exprTrace_var htrace with ⟨x, rfl⟩ | ⟨x, y, rfl⟩
  · obtain ⟨rfl, hnone⟩ := h.find? x (h.lexical [] _ [] rfl)
    rw [hnone] at hfind
    cases hfind
  · exact h.created (by simp [Binding.created, Event.created?])

end Hidden

theorem not_mentions_of_parts {kind : Bound.ExprKind} {ty : Ty} {span : Span}
    (hsymbol : kind.symbol? ≠ some r) (hparts : ∀ n ∈ kind.parts, ¬n.Mentions r) :
    ¬Bound.Node.Mentions (.expr (.mk kind ty span)) r := by
  rw [Bound.mentions_iff]
  rintro (heq | ⟨n, hn, hmention⟩)
  · exact hsymbol heq
  · exact hparts n hn hmention

theorem Encodes.not_mentions {b : Bound.Expr} {t : Term} (h : Encodes symbols b c t c') {e : Expr}
    {tr : Trace} (htrace : ExprTrace e b tr) {regions : List Region}
    (hhidden : Hidden symbols r regions c tr) : ¬Bound.Node.Mentions (.expr b) r := by
  -- Over the parts that are translated. The trace says in which scopes a part was bound, the
  -- context where it is read.
  induction h generalizing e tr regions with
  | int | bool => exact not_mentions_of_parts nofun nofun
  | var ty span hfind =>
    refine not_mentions_of_parts (fun heq => ?_) nofun
    exact hhidden.ne_of_find? htrace hfind (Option.some.inj heq)
  | index baseTy ty baseSpan span hfind _ _ ih =>
    cases htrace with
    | index hbase hplace =>
      refine not_mentions_of_parts nofun (forall_mem_cons.mpr ⟨?_, forall_mem_singleton.mpr ?_⟩)
      · refine not_mentions_of_parts (fun heq => ?_) nofun
        exact hhidden.left.ne_of_find? hbase hfind (Option.some.inj heq)
      · exact ih hplace (hhidden.right (foldl_exprTrace_var hbase regions) (.refl _))
  | binary _ _ _ hleft _ _ ihleft ihright =>
    cases htrace with
    | binary hl hr =>
      have hright := ihright hr (hhidden.right (hleft.foldl_trace hl regions) hleft.keeps)
      refine not_mentions_of_parts nofun (forall_mem_cons.mpr ⟨ihleft hl hhidden.left, ?_⟩)
      exact forall_mem_singleton.mpr hright
  | unary _ _ _ _ ih =>
    cases htrace with
    | unary hoperand => exact not_mentions_of_parts nofun (forall_mem_singleton.mpr (ih hoperand hhidden))
  | conditional _ _ htest _ hyes _ _ ihtest ihyes ihno =>
    cases htrace with
    | conditional ht hy hn =>
      have hrest := hhidden.right (htest.foldl_trace ht regions) htest.keeps
      have hno := ihno hn (hrest.right (hyes.foldl_trace hy regions) hyes.keeps)
      refine not_mentions_of_parts nofun (forall_mem_cons.mpr ⟨ihtest ht hhidden.left, ?_⟩)
      exact forall_mem_cons.mpr ⟨ihyes hy hrest.left, forall_mem_singleton.mpr hno⟩
  | quantifier _ _ _ hrun _ _ ih =>
    cases htrace with
    | quantifier hvars hbody =>
      exact not_mentions_of_parts nofun
        (forall_mem_singleton.mpr (ih hbody (hhidden.quantified hvars hrun)))

end Names

/-! ## Functions without a summary -/

section Functions

variable {m : Module} {out : BindOutput} {f : Bound.Function} {r : SymbolId} {post : Bound.Expr}

theorem exists_moduleTrace (h : TagLang.bind m = .ok out) :
    ∃ tr, ModuleTrace m out.module.functions tr ∧ Lexical tr ∧
    (created tr).Nodup ∧ ∀ x id, .declare x id ∈ tr → out.module.symbols.name id = x := by
  obtain ⟨s, tr, hsymbols, hfollows, htrace⟩ := exists_follows h
  refine ⟨tr, htrace, hfollows.lexical, ?_, fun x id hmem => ?_⟩
  · rw [hfollows.created]
    exact nodup_range
  · obtain ⟨kind, span, -, hget⟩ := hfollows.recorded _ hmem
    rw [← hsymbols, SymbolTable.name, hget]
    rfl

theorem name_result (h : TagLang.bind m = .ok out) (hf : f ∈ out.module.functions)
    (hr : f.result = some r) : out.module.symbols.name r = "result" := by
  obtain ⟨tr, hmodule, -, -, hnames⟩ := exists_moduleTrace h
  obtain ⟨d, -, inner, hfunction, hinner⟩ := hmodule.exists_infix hf
  obtain ⟨posts, -, hdeclared⟩ := hfunction.exists_infix hr
  exact hnames _ _ ((hdeclared.trans hinner).subset mem_cons_self)

/-- In a postcondition the result is hidden from every context that has nothing for its name. -/
theorem exists_hidden (h : TagLang.bind m = .ok out) (hf : f ∈ out.module.functions)
    (hr : f.result = some r) (hpost : post ∈ f.postconditions) :
    ∃ e regions tr, ExprTrace e post tr ∧
      ∀ c : Context, c.find? "result" = none → Hidden out.module.symbols r regions c tr := by
  obtain ⟨tr, hmodule, hlexical, hcreated, hnames⟩ := exists_moduleTrace h
  obtain ⟨d, -, inner, hfunction, hinner⟩ := hmodule.exists_infix hf
  obtain ⟨posts, hposts, hdeclared⟩ := hfunction.exists_infix hr
  obtain ⟨e, -, new, hnew, first, last, rfl⟩ := hposts.exists_infix hpost
  obtain ⟨before, after, rfl⟩ := hdeclared.trans hinner
  have hsplit : before ++ .declare "result" r :: (first ++ new ++ last) ++ after =
      (before ++ .declare "result" r :: first) ++ (new ++ (last ++ after)) := by simp
  rw [hsplit] at hlexical hcreated hnames
  have hresult : .declare "result" r ∈ before ++ .declare "result" r :: first := by simp
  refine ⟨e, openRegions (before ++ .declare "result" r :: first), new, hnew, fun c hc =>
    ⟨hlexical.middle, ?_, ?_, ?_⟩⟩
  · exact fun x id hmem => hnames x id (mem_append_right _ (mem_append_left _ hmem))
  · intro hmem
    rw [created_append, nodup_append, created_append new] at hcreated
    exact hcreated.2.2 r (mem_created hresult) r (mem_append_left _ hmem) rfl
  · intro x hx
    obtain ⟨region, hregion, hmem⟩ := exists_mem_of_resolve hx
    obtain ⟨region', hregion', hmem'⟩ | hdeclare := mem_foldl [[]] hregion hmem
    · cases mem_singleton.mp hregion'
      cases hmem'
    · have hx := hnames x r (mem_append_left _ hdeclare)
      refine ⟨hx, ?_⟩
      rw [← hx, name_result h hf hr]
      exact hc

variable {symbols : SymbolTable} {k : Nat} {cause : SummaryError}

theorem getElem?_formulas {es : List Bound.Expr} {e : Bound.Expr} (h : es[k]? = some e) (c : Context) :
    ∃ c', Keeps c c' ∧
      ((formulas symbols es).run c).1[k]? = some (outcome (Encode.condition symbols e) c').1 := by
  induction es generalizing c k with
  | nil => simp at h
  | cons e' es ih =>
    rw [run_formulas_cons]
    cases k with
    | zero =>
      cases h
      exact ⟨c, .refl c, rfl⟩
    | succ k =>
      obtain ⟨c', hkeeps, hget⟩ := ih h (outcome (Encode.condition symbols e') c).2
      exact ⟨c', (steady_condition e' c).trans hkeeps, hget⟩

theorem find?_postContext (hsummary : summary symbols f = .error cause) {x : String}
    (hparams : ∀ p ∈ f.params, symbols.name p = x → Context.meaning? x (symbols.ty p) = none) :
    (postContext symbols f).find? x = none := by
  have hcontext : postContext symbols f =
      ((Summary.ofFunction symbols f).run (bodyContext symbols f)).2 := by
    unfold postContext
    rw [summary] at hsummary
    rcases hrun : (Summary.ofFunction symbols f).run (bodyContext symbols f) with ⟨result, c⟩
    rw [hrun] at hsummary
    cases hsummary
    rfl
  rw [hcontext, (ofFunction_keeps f _).find?, bodyContext, (preconditions_keeps _ _).find?,
    declareParams_context]
  have hlookup : (Store.paramMeanings symbols f.params).reverse.lookup x = none := by
    refine Option.eq_none_iff_forall_ne_some.mpr fun m hm => ?_
    obtain ⟨id, hid, hname, hmeaning⟩ := exists_param hm
    rw [hparams id hid hname] at hmeaning
    cases hmeaning
  simp [Context.find?, hlookup]

theorem postFormulas_of_mentions (h : TagLang.bind m = .ok out) (hf : f ∈ out.module.functions)
    (hr : f.result = some r) (hsummary : summary out.module.symbols f = .error cause)
    (hparams : ∀ p ∈ f.params, out.module.symbols.name p = "result" →
      Context.meaning? "result" (out.module.symbols.ty p) = none) (hpost :
      f.postconditions[k]? = some post)
    (hmentions : post.Mentions r) : ∃ e, (postFormulas out.module.symbols f)[k]? = some (.error e) := by
  obtain ⟨c, hkeeps, hget⟩ := getElem?_formulas hpost (postContext out.module.symbols f)
  rcases hrun : outcome (Encode.condition out.module.symbols post) c with ⟨result, c'⟩
  rw [hrun] at hget
  cases result with
  | error e => exact ⟨e, hget⟩
  | ok p =>
    obtain ⟨t, c₁, ht, -⟩ := runs_bind.mp hrun
    obtain ⟨e, regions, tr, htrace, hhidden⟩ := exists_hidden h hf hr (mem_of_getElem? hpost)
    have hfind : c.find? "result" = none := (hkeeps.find? _).trans (find?_postContext hsummary hparams)
    exact absurd hmentions ((encodes_of_runs post ht).not_mentions htrace (hhidden c hfind))

theorem getElem?_of_forall₂ {α β : Type} {R : α → β → Prop} {as : List α} {bs : List β}
    (h : Forall₂ R as bs) {a : α} (ha : as[k]? = some a) : ∃ b, bs[k]? = some b ∧ R a b := by
  induction h generalizing k with
  | nil => simp at ha
  | @cons a' b as bs hab _ ih =>
    cases k with
    | zero =>
      cases ha
      exact ⟨b, rfl, hab⟩
    | succ k => exact ih ha

theorem exists_unknown {e : EncodeError} (h : (postFormulas symbols f)[k]? = some (.error e))
    (answer : Nat → Query → Answer) (log : SolverLog) :
    ∃ result reason, ((verifyFunction symbols (recording answer) f).run log).1.results[k]? = some result ∧
      result.outcome = .unknown reason := by
  obtain ⟨share, hrun, -, hsound⟩ := exists_share symbols answer f log
  obtain ⟨check, hcheck, hsound⟩ := getElem?_of_forall₂ hsound.checks h
  have hasked : check.asked = [] := by
    have hquery : query? (preFormulas symbols f) (.error e) = none := by
      rw [query?]
      cases allFormulas? (preFormulas symbols f) <;> rfl
    have hqueries := hsound.asked
    rw [hquery] at hqueries
    exact map_eq_nil_iff.mp hqueries
  obtain ⟨reason, hreason⟩ := hsound.unknown_iff.mpr (by simp [hasked])
  refine ⟨check.result, reason, ?_, hreason⟩
  rw [hrun, Share.report, getElem?_map, hcheck]
  rfl

end Functions

end Contract

/-! ## Two symbols of one name -/

namespace Bound

mutual

def Expr.replace (old new : SymbolId) : Expr → Expr
  | .mk kind ty span => .mk (kind.replace old new) ty span

def ExprKind.replace (old new : SymbolId) : ExprKind → ExprKind
  | .var id => .var (if id = old then new else id)
  | .index base place => .index (base.replace old new) (place.replace old new)
  | .binary left op right => .binary (left.replace old new) op (right.replace old new)
  | .unary op operand => .unary op (operand.replace old new)
  | .conditional test yes no =>
    .conditional (test.replace old new) (yes.replace old new) (no.replace old new)
  | .quantifier kind vars body => .quantifier kind vars (body.replace old new)
  | kind => kind

end

theorem Expr.span_replace (old new : SymbolId) (e : Expr) : (e.replace old new).span = e.span := by
  cases e
  rfl

theorem Expr.ty_replace (old new : SymbolId) (e : Expr) : (e.replace old new).ty = e.ty := by
  cases e
  rfl

def Function.speaksOf (f : Function) (p : SymbolId) : Function :=
  { f with postconditions := f.postconditions.map fun e => f.result.elim e (e.replace · p) }

end Bound

namespace Contract

section Replacement

variable {symbols : SymbolTable} {old new : SymbolId}

theorem name_replace (hname : symbols.name new = symbols.name old) (id : SymbolId) :
    symbols.name (if id = old then new else id) = symbols.name id := by
  split
  · next heq => rw [hname, heq]
  · rfl

theorem arrayOf_replace (hname : symbols.name new = symbols.name old) (base : Bound.Expr) (span : Span) :
    Encode.arrayOf symbols (base.replace old new) span = Encode.arrayOf symbols base span := by
  obtain ⟨kind, ty, span'⟩ := base
  cases kind
  case var id =>
    simp only [Encode.arrayOf, Bound.Expr.replace, Bound.ExprKind.replace, Bound.Expr.kind, Bound.Expr.ty,
      name_replace hname]
  all_goals rfl

mutual

theorem expr_replace (hname : symbols.name new = symbols.name old) : (e : Bound.Expr) →
    Encode.expr symbols (e.replace old new) = Encode.expr symbols e
  | .mk kind ty span => exprKind_replace hname ty span kind

theorem exprKind_replace (hname : symbols.name new = symbols.name old) (ty : Ty) (span : Span) :
    (kind : Bound.ExprKind) →
      Encode.exprKind symbols ty span (kind.replace old new) = Encode.exprKind symbols ty span kind
  | .var id => by
    simp only [Bound.ExprKind.replace, Encode.exprKind, Encode.ident, name_replace hname]
  | .index base place => by
    have helement (name : String) (ty : TermType) (t : Term) :
        Encode.element name (base.replace old new) ty t span = Encode.element name base ty t span := by
      simp only [Encode.element, Bound.Expr.ty_replace]
    simp only [Bound.ExprKind.replace, Encode.exprKind, arrayOf_replace hname,
      expr_replace hname place, helement]
  | .binary left op right => by
    simp only [Bound.ExprKind.replace, Encode.exprKind, expr_replace hname left, expr_replace hname right]
  | .unary op operand => by
    simp only [Bound.ExprKind.replace, Encode.exprKind, expr_replace hname operand]
  | .conditional test yes no => by
    simp only [Bound.ExprKind.replace, Encode.exprKind, expr_replace hname test, expr_replace hname yes,
      expr_replace hname no, Bound.Expr.span_replace]
  | .quantifier kind vars body => by
    simp only [Bound.ExprKind.replace, Encode.exprKind, expr_replace hname body, Bound.Expr.span_replace]
  | .int _ | .float _ | .str _ | .bool _ | .null | .variant _ _ | .static _ | .field _ _ | .call _ _ _ _
  | .create _ _ _ | .someOf _ | .noneOf | .okOf _ | .errOf _ | .await _ | .lambda _ _ | .matching
      _ | .error => rfl

end

theorem condition_replace (hname : symbols.name new = symbols.name old) (e : Bound.Expr) :
    Encode.condition symbols (e.replace old new) = Encode.condition symbols e := by
  rw [Encode.condition, Encode.condition, expr_replace hname, Bound.Expr.span_replace]

variable {n : Type → Type} [Monad n]

theorem postconditions_replace (hname : symbols.name new = symbols.name old) (solver : Solver n)
    (s : Setting) (index : Nat) (posts : List Bound.Expr) :
    postconditions symbols solver s index (posts.map (·.replace old new)) =
      postconditions symbols solver s index posts := by
  induction posts generalizing index with
  | nil => rfl
  | cons post posts ih =>
    simp only [map_cons, postconditions, postcondition, condition_replace hname,
      Bound.Expr.span_replace, ih]

/-- Contracts cannot tell the result from a variable of its name. -/
theorem verifyFunction_speaksOf {f : Bound.Function} {r p : SymbolId} (hr : f.result = some r)
    (hname : symbols.name p = symbols.name r) (solver : Solver n) :
    verifyFunction symbols solver (f.speaksOf p) = verifyFunction symbols solver f := by
  have hposts : (f.speaksOf p).postconditions = f.postconditions.map (·.replace r p) := by
    rw [Bound.Function.speaksOf, hr]
    rfl
  have hpostcondition (params : List (String × TermType)) (pres : List Formula) (usable : Bool)
      (result : Except SummaryError Term) (index : Nat) (posts : List Bound.Expr) :
      postconditions symbols solver ⟨f.speaksOf p, params, pres, usable, result⟩ index posts =
        postconditions symbols solver ⟨f, params, pres, usable, result⟩ index posts := by
    induction posts generalizing index with
    | nil => rfl
    | cons post posts ih =>
      rw [postconditions, postconditions, ih]
      rfl
  have hparams : (f.speaksOf p).params = f.params := rfl
  have hpres : (f.speaksOf p).preconditions = f.preconditions := rfl
  have hcheck : checkPreconditions solver (f.speaksOf p) = checkPreconditions solver f := rfl
  have herror : unencodable (f.speaksOf p) = unencodable f := rfl
  have hsummary : Summary.ofFunction symbols (f.speaksOf p) = Summary.ofFunction symbols f := rfl
  simp only [verifyFunction, hparams, hpres, hcheck, herror, hsummary, hposts, isEmpty_map,
    hpostcondition, postconditions_replace hname]

end Replacement

/-- Where the body of a function has no summary, a postcondition that mentions the result is not
decided, whatever the solver answers, if no parameter that contracts can speak of is called
`result`. If a parameter is called so, the verification takes the result for this parameter. -/
theorem result_undecided {m : Module} {out : BindOutput} (h : TagLang.bind m = .ok out)
    {f : Bound.Function} (hf : f ∈ out.module.functions) {r : SymbolId} (hr : f.result = some r)
    {cause : SummaryError} (hsummary : summary out.module.symbols f = .error cause) :
    ((∀ p ∈ f.params, out.module.symbols.name p = "result" →
        Context.meaning? "result" (out.module.symbols.ty p) = none) →
      ∀ (k : Nat) (post : Bound.Expr), f.postconditions[k]? = some post → post.Mentions r →
        ∀ answer log, ∃ result reason,
          ((verifyFunction out.module.symbols (recording answer) f).run log).1.results[k]? = some result ∧
            result.outcome = .unknown reason) ∧
    ∀ p ∈ f.params, out.module.symbols.name p = "result" →
      ∀ (n : Type → Type) [Monad n] (solver : Solver n),
      verifyFunction out.module.symbols solver f =
        verifyFunction out.module.symbols solver (f.speaksOf p) := by
  refine ⟨fun hparams k post hpost hmentions answer log => ?_, fun p _ hp n _ solver => ?_⟩
  · obtain ⟨e, he⟩ := postFormulas_of_mentions h hf hr hsummary hparams hpost hmentions
    exact exists_unknown he answer log
  · exact (verifyFunction_speaksOf hr (hp.trans (name_result h hf hr).symm) solver).symm

/-- Returns `false` behind a loop. What it promises is that the result holds, if a parameter does. -/
def spinSource (param : String) : String :=
  "§M\x7bm1:T\x7d\n§F\x7bf1:f\x7d\n§I\x7bbool:" ++ param ++ "\x7d\n§O\x7bbool\x7d\n§Q " ++ param ++
  "\n§S result\n§WH\x7bw1\x7d false\n§/WH\x7bw1\x7d\n§R false\n§/F\x7bf1\x7d\n§/M\x7bm1\x7d\n"

structure SpinFacts where
  result : Option SymbolId
  params : List String
  postconditions : List (Option SymbolId)
  summary : Bool
  outcomes : List Outcome
deriving DecidableEq

def spinFacts (symbols : SymbolTable) (f : Bound.Function) : SpinFacts where
  result := f.result
  params := f.params.map symbols.name
  postconditions := f.postconditions.map (·.kind.symbol?)
  summary := (Contract.summary symbols f).toOption.isSome
  outcomes := (Id.run (verifyFunction symbols (Search.solver 16) f)).results.map (·.outcome)

def spinFacts? (param : String) : Option SpinFacts :=
  (cleanFront? (spinSource param)).bind fun (_, out) =>
    out.module.functions.head?.map (spinFacts out.module.symbols)

set_option maxRecDepth 100000 in
theorem spinFacts?_flag :
    spinFacts? "flag" = some
      ⟨some 2, ["flag"], [some 2], false, [.unknown "function body is not straight-line"]⟩ := by
  decide +kernel

set_option maxRecDepth 100000 in
theorem spinFacts?_result :
    spinFacts? "result" = some ⟨some 2, ["result"], [some 2], false, [.proven]⟩ := by
  decide +kernel

theorem exists_spin {param : String} {id : SymbolId} {outcome : Outcome}
    (h : spinFacts? param = some ⟨some id, [param], [some id], false, [outcome]⟩) :
    ∃ tree out f post cause, CleanFront (spinSource param) tree out ∧ f ∈ out.module.functions ∧
      f.result = some id ∧
      f.params.map out.module.symbols.name = [param] ∧ f.postconditions = [post] ∧ post.Mentions id ∧
      summary out.module.symbols f = .error cause ∧
      (Id.run (verifyFunction out.module.symbols (Search.solver 16) f)).results.map (·.outcome) =
        [outcome] := by
  obtain ⟨⟨tree, out⟩, hfront, hout⟩ := Option.bind_eq_some_iff.mp h
  obtain ⟨f, hhead, hfacts⟩ := Option.map_eq_some_iff.mp hout
  simp only [spinFacts, SpinFacts.mk.injEq] at hfacts
  obtain ⟨hresult, hparams, hposts, hsummary, houtcomes⟩ := hfacts
  obtain ⟨⟨kind, ty, span⟩, hpost, hsymbol⟩ := map_eq_singleton_iff.mp hposts
  cases hcause : summary out.module.symbols f with
  | ok t =>
    rw [hcause] at hsummary
    cases hsummary
  | error cause =>
    refine ⟨tree, out, f, _, cause, cleanFront?_eq_some hfront, mem_of_mem_head? hhead, hresult,
      hparams, hpost, ?_, hcause, houtcomes⟩
    exact Bound.mentions_iff.mpr (.inl hsymbol)

theorem result_undecided_flag : ∃ tree out f post cause, CleanFront (spinSource "flag") tree out ∧
    f ∈ out.module.functions ∧ f.result = some 2 ∧ summary out.module.symbols f = .error cause ∧
    f.params.map out.module.symbols.name = ["flag"] ∧ f.postconditions = [post] ∧ post.Mentions 2 ∧
    ∀ answer log, ∃ result reason,
      ((verifyFunction out.module.symbols (recording answer) f).run log).1.results[0]? = some result ∧
        result.outcome = .unknown reason := by
  obtain ⟨tree, out, f, post, cause, hfront, hf, hr, hparams, hposts, hmentions, hsummary, -⟩ :=
    exists_spin spinFacts?_flag
  have hother (p : SymbolId) (hp : p ∈ f.params) (hname : out.module.symbols.name p = "result") :
      Context.meaning? "result" (out.module.symbols.ty p) = none := by
    have hmem := mem_map_of_mem (f := out.module.symbols.name) hp
    rw [hparams, hname, mem_singleton] at hmem
    exact absurd hmem (by decide)
  have hpost : f.postconditions[0]? = some post := by rw [hposts]; rfl
  refine ⟨tree, out, f, post, cause, hfront, hf, hr, hsummary, hparams, hposts, hmentions, ?_⟩
  exact (result_undecided hfront.bound hf hr hsummary).1 hother 0 post hpost hmentions

/-- With the name of the result for the parameter, the postcondition counts as proven, although the
function returns `false` and its body has no summary. -/
theorem result_decided_without_summary :
    ∃ tree out f post cause, CleanFront (spinSource "result") tree out ∧
    f ∈ out.module.functions ∧ f.result = some 2 ∧ summary out.module.symbols f = .error cause ∧
    f.postconditions = [post] ∧ post.Mentions 2 ∧
    (Id.run (verifyFunction out.module.symbols (Search.solver 16) f)).results.map (·.outcome) =
      [.proven] := by
  obtain ⟨tree, out, f, post, cause, hfront, hf, hr, -, hposts, hmentions, hsummary, houtcomes⟩ :=
    exists_spin spinFacts?_result
  exact ⟨tree, out, f, post, cause, hfront, hf, hr, hsummary, hposts, hmentions, houtcomes⟩

end Contract

end TagLang
