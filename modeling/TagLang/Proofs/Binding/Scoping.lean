import TagLang.Proofs.Binding.Tree

/-! # Scoping

Every name of a module means what the innermost region around it says, no symbol is used outside of
its region, and binding never fails. Functions are bound in the order of their declarations, and
what is declared stays as it is. A clean module is bound to a clean one unless an error is left.
-/

namespace TagLang
open List

variable {out : BindOutput} {m : Module}

namespace Binding

variable {α β : Type} {m : Module} {T : List Pattern → Prop} {p : Prop}

/-! ## Functions -/

section Functions

variable {R : α → β → Trace → Prop}

theorem binds_mapM {C : α → β → Prop} {f : α → Binder β} {as : List α}
    (hf : ∀ a ∈ as, Binds m p (R a) (C a) (f a)) :
    Binds m p (ListTrace R as) (Forall₂ C as) (as.mapM f) := by
  induction as with
  | nil => exact binds_pure .nil fun _ => .nil
  | cons a as ih =>
    rw [mapM_cons]
    obtain ⟨ha, has⟩ := forall_mem_cons.mp hf
    refine ha.bind fun b => ((ih has).pre And.left).bind_pure ?_ fun bs h hbs => .cons h.2 hbs
    exact fun bs rest hrest first hfirst => .cons hfirst hrest

theorem ListTrace.and {Q : α → β → Prop} {as : List α} {bs : List β} {tr : Trace}
    (h : ListTrace (fun a b new => R a b new ∧ Q a b) as bs tr) :
    ListTrace R as bs tr ∧ Forall₂ Q as bs := by
  induction h with
  | nil => exact ⟨.nil, .nil⟩
  | cons hab _ ih => exact ⟨.cons hab.1 ih.1, .cons hab.2 ih.2⟩

/-- Parameters that are declared without an error have different names, which were free. -/
theorem params_distinct {ps : List Param} {s : State} (hs : s.Grounded m)
    (h : ((params ps).run s).2.errors = []) :
    (ps.map (·.name)).Nodup ∧ ∀ q ∈ ps, s.scopes.lookupLocal q.name = none := by
  induction ps generalizing s with
  | nil => exact ⟨nodup_nil, forall_mem_nil _⟩
  | cons q ps ih =>
    have hrest : ((params ps).run ((declareParam q).run s).2).2.errors = [] := h
    have hs₁ := (binds_declare q.name q.ty.ty false true q.span s hs).grounded
    obtain ⟨hnodup, hfree⟩ := ih hs₁ hrest
    obtain ⟨-, hq, hrun⟩ := declare_free ((binds_params ps _ hs₁).errors hrest)
    -- the other names were free behind the first declaration, so they differ from its name
    have hothers (q' : Param) (hq' : q' ∈ ps) : q'.name ≠ q.name ∧
        s.scopes.lookupLocal q'.name = none := by
      have hnone := hfree q' hq'
      rw [hrun, Scopes.lookupLocal, Table.lookup_cons_ite] at hnone
      split at hnone
      · cases hnone
      · next hne => exact ⟨hne, hnone⟩
    constructor
    · refine nodup_cons.mpr ⟨fun hmem => ?_, hnodup⟩
      obtain ⟨q', hq', heq⟩ := mem_map.mp hmem
      exact (hothers q' hq').1 heq
    · exact forall_mem_cons.mpr ⟨hq, fun q' hq' => (hothers q' hq').2⟩

theorem binds_distinct (ps : List Param) :
    Binds m (∀ q ∈ ps, q.ty.Clean) (ListTrace Declares (ps.map (·.name)))
      (fun _ => (ps.map (·.name)).Nodup) (params ps) := by
  refine fun s hs => { binds_params ps s hs with clean := fun h hp hclean => ?_ }
  exact ⟨((binds_params ps s hs).clean h hp hclean).1, (params_distinct hs h).1⟩

theorem binds_conditions (context : String) {es : List Expr} (h : ∀ e ∈ es, (Node.expr e).Patterned T) :
    Binds m (∀ e ∈ es, e.Clean) (fun bs => Made m T (ListTrace ExprTrace es bs) (bs.map .expr))
      (fun bs => ∀ b ∈ bs, b.Clean) (conditions context es) := by
  induction es with
  | nil => exact binds_pure ⟨.nil, forall_mem_nil _⟩ fun _ => forall_mem_nil _
  | cons e es ih =>
    obtain ⟨he, hes⟩ := forall_mem_cons.mp h
    refine ((binds_expr e he).condition.pre fun h => h e mem_cons_self).bind fun b => ?_
    refine ((ih hes).pre fun h e' he' => h.1 e' (mem_cons_of_mem e he')).bind_pure ?_ ?_
    · exact fun bs rest hbs tr hb => ⟨.cons hb.trace hbs.trace, hb.append hbs⟩
    · exact fun bs h hbs => forall_mem_cons.mpr ⟨h.2, hbs⟩

theorem binds_postconditions {f : FunctionDef} (h : ∀ e ∈ f.postconditions, (Node.expr e).Patterned T) :
    Binds m f.Clean
      (fun r => Made m T (fun new => ∃ tr, new = region (r.1.toList.map (.declare "result") ++ tr) ∧
      ListTrace ExprTrace f.postconditions r.2 tr) (r.2.map .expr)) (fun r =>
        ∀ b ∈ r.2, b.Clean) (postconditions f) := by
  refine Binds.inScope ?_
  have hconditions (declared : Binder (Option SymbolId))
      (hdeclared : Binds m f.Clean (fun r new => new = r.toList.map (.declare "result"))
        (fun _ => True) declared) :
      Binds m f.Clean (fun r new => Made m T
        (fun new => ∃ tr, new = region (r.1.toList.map (.declare "result") ++ tr) ∧
        ListTrace ExprTrace f.postconditions r.2 tr) (r.2.map .expr) (region new)) (fun r =>
          ∀ b ∈ r.2, b.Clean) (do
          let result ← declared
          return (result, ← conditions "postcondition" f.postconditions)) := by
    refine hdeclared.andThen fun result => ?_
    refine ((binds_conditions _ h).pre FunctionDef.Clean.postconditions).bind_pure ?_ fun _ _ hbs => hbs
    rintro bs tr hbs first rfl
    exact ⟨⟨tr, rfl, hbs.trace⟩, hbs.found⟩
  dsimp only
  split
  · exact hconditions _ (binds_pure rfl fun _ => trivial)
  · refine hconditions _
      (binds_map (((binds_declareVar _ _ _).pre fun h => ?_).mono (fun _ _ h => h) fun _ _ h => h))
    exact clean_resultType h.returnType

def FunctionClean (f : FunctionDef) (g : Bound.Function) : Prop := g.Clean ∧ (f.params.map (·.name)).Nodup

theorem binds_function (owner : Option String) {f : FunctionDef} (h : f.Patterned T) :
    Binds m f.Clean (fun g new => FunctionTrace f g new ∧ HeaderBound m T owner f g) (FunctionClean f)
      (function owner f) := by
  refine Binds.inScope (((binds_distinct f.params).pre FunctionDef.Clean.params).bind fun ids => ?_)
  refine ((binds_conditions _ h.preconditions).pre fun h => h.1.preconditions).bind fun before => ?_
  refine ((binds_postconditions h.postconditions).pre fun h => h.1.1).bind fun after => ?_
  have hbody := binds_stmts (m := m) f.body (forall_mem_map.mpr h.body)
  refine ((hbody.returning _).pre fun h => h.1.1.1.body).bind_pure ?_ ?_
  · rintro body tr₄ hbody _ ⟨⟨tr₃, rfl, hafter⟩, hfound⟩ tr₂ hbefore tr₁ hparams
    refine ⟨.mk hparams hbefore.trace hafter hbody.trace, rfl, rfl, rfl, rfl, rfl, rfl, rfl, ?_, ?_⟩
    · exact forall_mem_append.mpr ⟨forall_mem_map.mp hbefore.found, forall_mem_map.mp hfound⟩
    · exact forall_mem_map.mp hbody.found
  · exact fun body ⟨⟨⟨hf, hnodup⟩, hbefore⟩, hafter⟩ hbody =>
      ⟨⟨clean_resultType hf.returnType, hbefore, hafter, hbody⟩, hnodup⟩

theorem binds_declareMembers (members : List MemberDef) :
    Binds m (∀ d ∈ members, d.ty.Clean)
      (fun _ new => ∃ ids, ListTrace Declares (members.map (·.name)) ids new)
      (fun _ => True) (declareMembers members) := by
  induction members with
  | nil => exact binds_pure ⟨[], .nil⟩ fun _ => trivial
  | cons d members ih =>
    have hd : Binds m d.ty.Clean (fun _ new => ∃ id, new = [.declare d.name id]) (fun _ => True)
        (discard (declare d.name (.var d.ty.ty true false) d.span)) :=
      binds_map ((binds_declare _ _ _ _ _).mono (fun id _ hnew => ⟨id, hnew⟩) fun _ _ h => h)
    refine (hd.pre fun h => h d mem_cons_self).andThen fun _ => ?_
    refine (ih.pre fun h d' hd' => h d' (mem_cons_of_mem d hd')).mono ?_ fun _ _ h => h
    rintro _ rest ⟨ids, hrest⟩ first ⟨id, hfirst⟩
    exact ⟨id :: ids, .cons hfirst hrest⟩

theorem binds_classMethods {c : ClassDef} (h : ∀ f ∈ c.methods, f.Patterned T) :
    Binds m c.Clean
      (fun gs new => ClassTrace c gs new ∧ Forall₂ (HeaderBound m T (some c.name)) c.methods gs)
      (Forall₂ FunctionClean c.methods) (classMethods c) := by
  refine Binds.bind (R := fun gs new => ClassTrace c gs new ∧
    Forall₂ (HeaderBound m T (some c.name)) c.methods gs) (C := Forall₂ FunctionClean c.methods)
    (Binds.inScope ?_) fun gs => ?_
  · have hthis : Binds m c.Clean (fun _ new => ∃ id, new = [.declare "this" id]) (fun _ => True)
        (discard (declareVar "this" (.named c.name []) c.span)) := by
      refine binds_map (Binds.mono ?_ (fun id _ hnew => ⟨id, hnew⟩) fun _ _ h => h)
      exact (binds_declareVar _ _ _).pre fun _ => trivial
    have hmembers := (binds_declareMembers (m := m) c.members).pre fun (h : c.Clean) =>
      forall_mem_append.mpr ⟨h.fields, h.properties⟩
    refine hthis.andThen fun _ => hmembers.andThen fun _ s => (binds_setClass _ s).silent_bind fun _ => ?_
    refine (binds_mapM fun f hf => (binds_function _ (h f hf)).pre fun hc => hc.1.methods f hf).mono
      ?_ fun _ _ h => h
    rintro gs tr' hgs tr ⟨members, hmembers⟩ _ ⟨this, rfl⟩
    rw [singleton_append]
    exact ⟨.mk hmembers hgs.and.1, hgs.and.2⟩
  · refine (binds_setClass _).bind_pure ?_ fun _ h _ => h.2
    rintro _ _ rfl first hfirst
    rw [append_nil]
    exact hfirst

theorem binds_functions (h : ∀ f ∈ m.allFunctions, f.Patterned T) :
    Binds m m.Clean (fun gs new => (∀ ids tr, ListTrace Declares (m.items.map Item.name) ids tr →
      ModuleTrace m gs (tr ++ new)) ∧ Forall₂ (fun f g =>
        ∃ owner, HeaderBound m T owner f g) m.allFunctions gs)
      (Forall₂ FunctionClean m.allFunctions) (do
        let free ← m.functions.mapM (function none)
        let methods ← m.classes.mapM classMethods
        return free ++ methods.flatten) := by
  obtain ⟨hfunctions, hclasses⟩ := forall_mem_append.mp h
  have hmethods : ∀ c ∈ m.classes, ∀ f ∈ c.methods, f.Patterned T :=
    fun c hc f hf => hclasses f (mem_flatMap.mpr ⟨c, hc, hf⟩)
  refine (binds_mapM fun f hf => (binds_function none (hfunctions f hf)).pre fun hm =>
    hm.function hf).bind fun free => ?_
  refine (binds_mapM fun c hc => (binds_classMethods (hmethods c hc)).pre fun h =>
    h.1.classDef hc).bind_pure ?_ ?_
  · intro methods tr'' hmethods tr' hfree
    refine ⟨fun ids tr hids => .mk hids hfree.and.1 hmethods.and.1 rfl, ?_⟩
    refine rel_append (hfree.and.2.imp fun _ _ h => ⟨none, h⟩) ?_
    rw [flatMap_def]
    refine rel_flatten (forall₂_map_left_iff.mpr (hmethods.and.2.imp fun c gs h => ?_))
    exact h.imp fun _ _ h => ⟨some c.name, h⟩
  · intro methods h hmethods
    rw [Module.allFunctions, flatMap_def]
    exact rel_append h.2 (rel_flatten (forall₂_map_left_iff.mpr hmethods))

end Functions

/-! ## Modules -/

theorem headerBound_functions (h : ∀ f ∈ m.allFunctions, f.Patterned T) :
    Forall₂ (fun f g => ∃ owner, HeaderBound m T owner f g) m.allFunctions ((functions m).run {}).1 := by
  obtain ⟨-, -, -, -, hheaders⟩ := (binds_functions h m.declared (grounded_declared m)).trace
  exact hheaders

theorem outcome_functions (m : Module) :
    Outcome m m.Clean (fun gs new => ∀ ids tr, ListTrace Declares (m.items.map Item.name) ids tr →
      ModuleTrace m gs (tr ++ new)) (Forall₂ FunctionClean m.allFunctions) m.declared
        ((functions m).run {}) := by
  have hfunctions := binds_functions (T := fun _ => True) (m := m) fun f _ =>
    f.patterned_of_forall fun _ => trivial
  exact hfunctions.mono (fun _ _ h => h.1) (fun _ _ h => h) m.declared (grounded_declared m)

theorem registry_functions (m : Module) : ((functions m).run {}).2.registry = m.declared.registry :=
  (outcome_functions m).grounded.registry

theorem exists_trace (m : Module) :
    ∃ tr, Follows ((functions m).run {}).2 tr ∧ ModuleTrace m ((functions m).run {}).1 tr := by
  obtain ⟨ids, tr, hids, hitems⟩ := follows_declareItems m.items follows_start
  obtain ⟨new, -, hfollows, htrace⟩ := (outcome_functions m).trace
  exact ⟨tr ++ new, hfollows tr hitems, htrace ids tr hids⟩

end Binding

open Binding

/-- Every scope is left where it was entered, so binding never fails. -/
theorem bind_ok (m : Module) : ∃ out, bind m = .ok out := by
  obtain ⟨tr, hfollows, -⟩ := exists_trace m
  unfold bind
  rcases hrun : (functions m).run {} with ⟨gs, s⟩
  rw [hrun] at hfollows
  dsimp only at hfollows ⊢
  rw [hfollows.fault]
  exact ⟨_, rfl⟩

theorem run_functions (h : bind m = .ok out) :
    ∃ s, (functions m).run {} = (out.module.functions, s) ∧ out.module.registry = s.registry ∧
      out.module.symbols = s.symbols ∧ out.errors = s.errors.reverse := by
  unfold bind at h
  split at h
  next functions s hrun =>
    split at h
    · cases h
    · cases h
      exact ⟨s, hrun, rfl, rfl, rfl⟩

theorem Module.registry_of_bind (h : bind m = .ok out) : out.module.registry = m.declared.registry := by
  obtain ⟨s, hrun, hregistry, -⟩ := run_functions h
  rw [hregistry, ← registry_functions, hrun]

theorem Module.errors_declared (h : bind m = .ok out) (herrors : out.errors = []) :
    m.declared.errors = [] := by
  obtain ⟨s, hrun, -, -, hreverse⟩ := run_functions h
  refine (outcome_functions m).errors ?_
  rw [hrun]
  exact reverse_eq_nil_iff.mp (hreverse.symm.trans herrors)

/-- A clean module is bound to a clean one unless an error is left, and then the parameters of each
of its functions have different names. -/
theorem bind_clean (hm : m.Clean) (h : bind m = .ok out) (herrors : out.errors = []) :
    out.module.Clean ∧ ∀ f ∈ m.allFunctions, (f.params.map (·.name)).Nodup := by
  obtain ⟨s, hrun, hregistry, hsymbols, hreverse⟩ := run_functions h
  have houtcome := (outcome_functions m).clean
  rw [hrun] at houtcome
  obtain ⟨hclean, hall⟩ :=
    houtcome (reverse_eq_nil_iff.mp (hreverse.symm.trans herrors)) hm (clean_declared hm)
  obtain ⟨hbound, hnames⟩ := (forall₂_and_left _ _).mp hall.flip
  have hdistinct := (forall₂_and_left (R := fun _ _ => True) _ _).mp
    (hnames.flip.imp fun _ _ h => ⟨h, trivial⟩)
  exact ⟨⟨hbound, hregistry ▸ hclean.registry, hsymbols ▸ hclean.symbols⟩, hdistinct.1⟩

/-- Every module can be bound, and its names are scoped lexically. There is a trace of what happens
to the names of the module, region by region, in which every name that is used means what the
innermost open region that declares it says by its first declaration; no symbol is used outside of
the region that declares it; and the symbols are made in the order of the table, each for a
declaration or for a name without a meaning, which is an error. -/
theorem bind_lexically_scoped (m : Module) :
    ∃ out tr, bind m = .ok out ∧ ModuleTrace m out.module.functions tr ∧ Lexical tr ∧ Contained tr ∧
      created tr = List.range out.module.symbols.size ∧
      ∀ e ∈ tr, e.Recorded out.module.symbols out.errors := by
  obtain ⟨tr, hfollows, htrace⟩ := exists_trace m
  have hcreated : (created tr).Nodup := by
    rw [hfollows.created]
    exact nodup_range
  unfold bind
  rcases hrun : (functions m).run {} with ⟨gs, s⟩
  rw [hrun] at hfollows htrace
  dsimp only at hfollows htrace ⊢
  rw [hfollows.fault]
  refine ⟨_, tr, rfl, htrace, hfollows.lexical, hfollows.lexical.contained hcreated, hfollows.created, ?_⟩
  intro e he
  exact (hfollows.recorded e he).mono (.refl _) fun _ h => mem_reverse.mpr h

end TagLang
