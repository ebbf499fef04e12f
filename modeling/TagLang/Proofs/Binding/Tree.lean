import TagLang.Proofs.Binding.Outcome

/-! # Names, calls and trees

Each part of a tree is bound in the regions that it opens, its callees and patterns are found in the
module, and a clean part is bound to a clean one unless an error is left.
-/

namespace TagLang.Binding
open List

variable {α : Type} {m : Module} {T : List Pattern → Prop} {p : Prop}

/-- What is made has a trace, and its parts are found. -/
structure Made (m : Module) (T : List Pattern → Prop) (R : Trace → Prop) (parts : List Bound.Node)
    (tr : Trace) : Prop where
  trace : R tr
  found : ∀ n ∈ parts, m.FindsIn T n

abbrev MadeExpr (m : Module) (T : List Pattern → Prop) (e : Expr) (b : Bound.Expr) : Trace → Prop :=
  Made m T (ExprTrace e b) [.expr b]

theorem made_expr {e : Expr} {kind : Bound.ExprKind} {ty : Ty} {span : Span} {tr : Trace}
    (htrace : ExprTrace e (.mk kind ty span) tr)
    (hparts : ∀ n ∈ kind.parts, m.FindsIn T n := by exact forall_mem_nil _)
    (hown : m.FindsAt T (.expr (.mk kind ty span)) := by trivial) :
    MadeExpr m T e (.mk kind ty span) tr :=
  ⟨htrace, forall_mem_singleton.mpr (Bound.Node.all_iff.mpr ⟨hown, hparts⟩)⟩

theorem Made.append {R R' : Trace → Prop} {ns ns' : List Bound.Node} {tr tr' : Trace}
    (h : Made m T R ns tr) (h' : Made m T R' ns' tr') : ∀ n ∈ ns ++ ns', m.FindsIn T n :=
  forall_mem_append.mpr ⟨h.found, h'.found⟩

/-! ## Names -/

section Names

variable {span : Span}

theorem binds_ident (x : String) :
    Binds m p (MadeExpr m T (.ident x span)) Bound.Expr.Clean (ident x span) := by
  refine binds_lookup (binds_registry ?_) fun s id hid => ?_
  · split
    · exact binds_pure (made_expr .variant) fun _ => ⟨trivial, trivial⟩
    · refine (binds_undefinedName x).mono ?_ fun _ _ h => h.elim
      rintro b new ⟨id, ty, rfl, rfl⟩
      exact made_expr .undefined
  · refine (bindsAt_symbolType hid).silent_bind fun ty => binds_pure ?_ fun h => ⟨trivial, h.2⟩
    exact made_expr .found

/-- A dotted name with a meaning of its own has a root that nothing declares; so has one whose root
is a variant. -/
theorem binds_qualified? (base : Expr) (x : String) :
    Binds m p (fun found new => match found with
      | some b => MadeExpr m T (.field base x span) b new
      | none => new = [] ∨ ∃ root, base.root? = some root ∧ new = [.missing root])
      (fun found => ∀ b ∈ found, b.Clean) (qualified? base x span) := by
  unfold qualified?
  split
  · next root path hroot hpath =>
    refine binds_lookup_of (binds_registry ?_) fun s id _ => binds_pure (.inl rfl) (fun _ => nofun) s
    split
    · split
      · refine binds_pure (made_expr (.fieldVariant hroot hpath)) fun _ => ?_
        rintro b ⟨⟩
        exact ⟨trivial, trivial⟩
      · refine (binds_undefinedName _).bind_pure ?_ fun _ _ h => h.elim
        rintro b new ⟨id, ty, rfl, rfl⟩
        exact made_expr (.fieldUndefined hroot hpath)
    · split
      · exact binds_pure (.inr ⟨root, hroot, rfl⟩) fun _ => nofun
      · refine binds_pure (made_expr (.fieldStatic hroot hpath)) fun _ => ?_
        rintro b ⟨⟩
        exact ⟨trivial, trivial⟩
  · exact binds_pure (.inl rfl) fun _ => nofun

theorem binds_memberType (ty : Ty) (x : String) :
    Binds m p (fun _ new => new = []) Ty.Clean (memberType ty x span) := by
  unfold memberType
  split
  · refine binds_registry ?_
    split
    · exact binds_pure rfl fun _ => trivial
    · next info hinfo =>
      split
      · next t ht => exact binds_pure rfl fun ⟨_, hr⟩ => (hr.classes _ info hinfo).members _ t ht
      · exact (binds_report _ _).bind_pure (fun _ _ h => h) fun _ _ h => h.elim
  · exact binds_pure rfl fun _ => by split <;> trivial
  · exact binds_pure rfl fun _ => by split <;> trivial
  · exact binds_pure rfl fun _ => trivial

theorem bindsAt_path {s : State} {x : String} {id : SymbolId} (hid : s.scopes.lookup x = some id)
    (names : List String) :
    BindsAt m p (fun b new => (PathFrom id names b ∧ m.FindsIn T (.expr b)) ∧ new = []) Bound.Expr.Clean
      (path id names span) s := by
  have hmembers (names : List String) (base : Bound.Expr) (first : List String)
      (hbase : PathFrom id first base ∧ m.FindsIn T (.expr base)) :
      Binds m base.Clean
        (fun b new => (PathFrom id (first ++ names) b ∧ m.FindsIn T (.expr b)) ∧ new = [])
        Bound.Expr.Clean (names.foldlM (fun base x => member base x span) base) := by
    induction names generalizing base first with
    | nil =>
      rw [append_nil]
      exact binds_pure ⟨hbase, rfl⟩ fun h => h
    | cons x names ih =>
      rw [foldlM_cons, member, bind_assoc]
      refine fun s => (binds_memberType base.ty x s).silent_bind fun ty => ?_
      rw [pure_bind, append_cons]
      refine (ih _ _ ⟨.field hbase.1, Bound.Node.all_iff.mpr ⟨trivial, ?_⟩⟩).pre fun h => h
      exact forall_mem_singleton.mpr hbase.2
  refine (bindsAt_symbolType hid).silent_bind fun ty =>
    (hmembers names _ [] ⟨.var, ?_⟩).pre fun h => ⟨trivial, h.2⟩
  exact Bound.Node.all_iff.mpr ⟨trivial, forall_mem_nil _⟩

end Names

/-! ## Calls -/

section Calls

variable {span : Span} {args : List Bound.Expr}

theorem binds_callable? (x : String) :
    Binds m p (fun r new => ∃ found, new = [used x found] ∧ ∀ c, r = some c → c.1.symbol? = found ∧
      m.Finds x c.1) (fun r => ∀ c ∈ r, CalleeClean c) (callable? x args span) := by
  refine binds_lookup (binds_pure ⟨none, rfl, nofun⟩ fun _ => nofun) fun s id hid =>
    bindsAt_get fun hs => ?_
  obtain ⟨sym, hsym, hname⟩ := hs.named.lookup hid
  have hfound (c : Bound.Callee × Ty) (hc : c.1.symbol? = some id) (hfinds : m.Finds x c.1) :
      ∃ found, [.refer x id] = [used x found] ∧ ∀ c', some c = some c' → c'.1.symbol? = found ∧
        m.Finds x c'.1 := by
    refine ⟨some id, rfl, ?_⟩
    rintro _ ⟨⟩
    exact ⟨hc, hfinds⟩
  split
  · next symName fid ps returnType _ heq =>
    refine (quiet_expectArgs _ _ _ _).bind_binds
      (fun _ => binds_pure (hfound _ rfl ?_) fun ⟨_, hclean⟩ => ?_) s
    · -- the symbol of the name is a function, so it is that of an item
      cases hsym.symm.trans heq
      obtain ⟨f, hitem, hf⟩ := hs.functions id _ heq rfl
      simp only [FunctionDef.symbol, Symbol.mk.injEq, SymbolKind.function.injEq] at hf
      exact ⟨f, hitem, hf.2.1.1.symm, hf.1.symm.trans hname⟩
    · rintro c ⟨⟩
      exact ⟨nofun, (hclean.symbols id _ heq).ty.2⟩
  · next heq =>
    refine binds_pure (hfound (.value id, _) rfl trivial) (fun ⟨_, hclean⟩ => ?_) s
    rintro c ⟨⟩
    exact ⟨nofun, (hclean.symbols id _ heq).ty.2⟩
  · split
    · refine binds_pure (hfound (.value id, .unknown) rfl trivial) (fun _ => ?_) s
      rintro c ⟨⟩
      exact ⟨nofun, trivial⟩
    · exact binds_pure ⟨some id, rfl, nofun⟩ (fun _ => nofun) s
  · exact binds_pure ⟨some id, rfl, nofun⟩ (fun _ => nofun) s

def Searched (m : Module) (target : String) (c : Bound.Callee × Ty) (new : Trace) : Prop :=
  (c.1.symbol? = none ∧ m.Finds target c.1) ∧ new = []

theorem binds_method {target className name : String} {i : MethodInfo}
    (hi : m.declared.registry.method? className (calledName target) = some i) :
    Binds m i.returnType.Clean (Searched m target) CalleeClean (method className name i args span) :=
  (quiet_expectArgs _ _ _ _).bind_binds fun _ => binds_pure ⟨⟨rfl, i, hi, rfl⟩, rfl⟩ fun h => ⟨nofun, h⟩

theorem binds_unresolved {target : String} (name : String) (suggestion : Option String) :
    Binds m p (Searched m target) (fun _ => False) (unresolved name suggestion span) :=
  (binds_report _ _).bind_pure (fun _ _ hnew => ⟨⟨rfl, trivial⟩, hnew⟩) fun _ _ h => h

theorem clean_method {r : Registry} (h : r.Clean) {className name : String} {i : MethodInfo}
    (hi : r.method? className name = some i) : i.returnType.Clean := by
  obtain ⟨info, hinfo, hi⟩ := Option.bind_eq_some_iff.mp hi
  exact ((h.classes className info hinfo).methods name i hi).returnType

theorem binds_freeCallee {target : String} (hcut : Text.cutLast? '.' target = none) :
    Binds m p (fun c new => CalleeTrace target c.1 none new ∧ m.Finds target c.1) CalleeClean
      (freeCallee target args span) := by
  have hname : calledName target = target := by
    rw [calledName, hcut]
    rfl
  refine (binds_callable? target).bind fun found => ?_
  split
  · next c =>
    refine binds_pure ?_ fun h => h.2 c rfl
    rintro first ⟨found, rfl, hfound⟩
    exact ⟨.free hcut fun id hid => (hfound c rfl).1.symm.trans hid, (hfound c rfl).2⟩
  · have hother (c : Bound.Callee × Ty) (new : Trace) (hc : Searched m target c new) (first : Trace)
        (hfirst : ∃ found, first = [used target found] ∧
          ∀ c : Bound.Callee × Ty, none = some c → c.1.symbol? = found ∧ m.Finds target c.1) :
        CalleeTrace target c.1 none (first ++ new) ∧ m.Finds target c.1 := by
      obtain ⟨found, rfl, -⟩ := hfirst
      rw [hc.2]
      refine ⟨.free hcut fun id hid => ?_, hc.1.2⟩
      rw [hc.1.1] at hid
      cases hid
    refine fun s => bindsAt_get fun hs => ?_
    split
    · next className _ =>
      split
      · next i hi =>
        have hfound : m.declared.registry.method? className (calledName target) = some i := by
          rw [hname, ← hs.registry]
          exact hi
        exact ((binds_method hfound).mono hother fun _ _ h => h).pre
          (fun h => clean_method h.2.registry hi) s
      · exact (binds_unresolved _ _).mono hother (fun _ _ h => h.elim) s
    · exact (binds_unresolved _ _).mono hother (fun _ _ h => h.elim) s

theorem binds_methodOf {R : α → Trace → Prop} {C : α → Prop} {target className name unknown : String}
    {suggestion : Option String} {info : ClassInfo} {f : Bound.Callee × Ty → Binder α}
    (hname : calledName target = name)
    (hinfo : m.declared.registry.classes.get? className = some info)
    (hf : ∀ c, Binds m ((p ∧ m.declared.registry.Clean) ∧ CalleeClean c)
      (fun b new => ∀ first, Searched m target c first → R b (first ++ new)) C (f c)) :
    Binds m (p ∧ m.declared.registry.Clean) R C (match info.methods.get? name with
      | some i => method className name i args span >>= f
      | none => unresolved unknown suggestion span >>= f) := by
  split
  · next i hi =>
    have hfound : m.declared.registry.method? className (calledName target) = some i := by
      rw [hname, Registry.method?, hinfo]
      exact hi
    exact ((binds_method hfound).pre fun h => clean_method h.2 hfound).bind hf
  · exact (binds_unresolved _ _).bind fun c => (hf c).pre fun h => h.2.elim

theorem binds_memberCallee {target receiver name : String}
    (hcut : Text.cutLast? '.' target = some (receiver, name)) :
    Binds m p (fun c new => (CalleeTrace target c.1 c.2.1 new ∧ m.Finds target c.1) ∧ ∀ b ∈ c.2.1,
      m.FindsIn T (.expr b))
      (fun c => c.1 ≠ .unresolved ∧ Bound.exprClean? c.2.1 ∧ c.2.2.Clean)
        (memberCallee receiver name args span) := by
  have hname : calledName target = name := by
    rw [calledName, hcut]
    rfl
  refine binds_lookup (binds_registry ?_) fun s id hid =>
    (bindsAt_path (T := T) hid _).bind fun value => ?_
  · split
    · next info hinfo =>
      refine binds_methodOf hname hinfo fun c => binds_pure ?_ fun h => ⟨h.2.1, trivial, h.2.2⟩
      rintro _ ⟨⟨hsymbol, hfinds⟩, rfl⟩
      exact ⟨⟨.static hcut hsymbol, hfinds⟩, nofun⟩
    · exact binds_pure ⟨⟨.static hcut rfl, trivial⟩, nofun⟩ fun _ =>
        ⟨Bound.Callee.noConfusion, trivial, trivial⟩
  · have hmember (callee : Bound.Callee) (hcallee : callee.symbol? = none)
        (hfinds : m.Finds target callee) (new : Trace)
        (hvalue : (PathFrom id ((Text.split '.' receiver).drop 1) value ∧
          m.FindsIn T (.expr value)) ∧ new = []) :
        (CalleeTrace target callee (some value)
          (.refer ((Text.split '.' receiver).headD receiver) id :: (new ++ [])) ∧
          m.Finds target callee) ∧ ∀ b ∈ some value, m.FindsIn T (.expr b) := by
      rw [hvalue.2]
      refine ⟨⟨.member hcut hvalue.1.1 hcallee, hfinds⟩, ?_⟩
      rintro b ⟨⟩
      exact hvalue.1.2
    dsimp only
    split
    · refine binds_registry ?_
      split
      · exact binds_pure (hmember _ rfl trivial) fun h => ⟨Bound.Callee.noConfusion, h.1.2, trivial⟩
      · next info hinfo =>
        refine binds_methodOf hname hinfo fun c => binds_pure ?_ fun h => ⟨h.2.1, h.1.1.2, h.2.2⟩
        rintro _ ⟨⟨hsymbol, hfinds⟩, rfl⟩
        exact hmember c.1 hsymbol hfinds
    · exact binds_pure (hmember _ rfl trivial) fun h => ⟨Bound.Callee.noConfusion, h.2, trivial⟩

theorem binds_call (target : String) (es : List Expr) :
    Binds m (Bound.exprsClean args)
      (fun b new => ∀ first, Made m T (ListTrace ExprTrace es args) (args.map .expr) first →
      MadeExpr m T (.call target es span) b (first ++ new)) Bound.Expr.Clean (call target args span) := by
  unfold call
  split
  · next hcut =>
    refine (binds_freeCallee hcut).bind_pure (fun c new hc first hargs => ?_) fun c hargs hc => ?_
    · exact made_expr (.call hargs.trace hc.1) hargs.found hc.2
    · exact ⟨⟨hc.1, trivial, hargs⟩, hc.2⟩
  · next hcut =>
    refine (binds_memberCallee (T := T) hcut).bind_pure (fun c new hc first hargs => ?_)
      fun c hargs hc => ?_
    · refine made_expr (.call hargs.trace hc.1.1) (forall_mem_append.mpr ⟨?_, hargs.found⟩) hc.1.2
      simpa using hc.2
    · exact ⟨⟨hc.1, hc.2.1, hargs⟩, hc.2.2⟩

end Calls

/-! ## Patterns and parameters -/

theorem binds_payloadType (owner : Option String) (name : String) (arity : Nat) (span : Span) :
    Binds m p (fun _ new => new = []) Ty.Clean (payloadType owner name arity span) := by
  unfold payloadType
  split
  · exact binds_pure rfl fun _ => trivial
  · refine binds_registry ?_
    split
    · exact binds_pure rfl fun _ => trivial
    · next variants hvariants =>
      split
      · next v hv =>
        refine binds_pure rfl fun h => ?_
        have hpayload := h.2.payloads _ variants hvariants v (mem_of_find?_eq_some hv)
        split
        · cases hty : v.payload with
          | none => trivial
          | some ty => exact hpayload ty hty
        · trivial
      · exact (binds_report _ _).bind_pure (fun _ _ h => h) fun _ _ h => h.elim

mutual

theorem binds_pattern : (pat : Pattern) → (expected : Ty) →
    Binds m expected.Clean
      (fun b new => PatternTrace pat b new ∧ pat.BoundTo m.declared.registry expected b)
      (fun _ => True) (pattern pat expected)
  | .wildcard span, _ => by
    rw [pattern]
    exact binds_pure ⟨.wildcard, .wildcard span⟩ fun _ => trivial
  | .literal value span, _ => by
    rw [pattern]
    exact binds_pure ⟨.literal, .literal value span⟩ fun _ => trivial
  | .noneOf span, _ => by
    rw [pattern]
    exact binds_pure ⟨.noneOf, .noneOf span⟩ fun _ => trivial
  | .binding name span, expected => by
    rw [pattern]
    refine binds_registry ?_
    split
    · next howner => exact binds_pure ⟨.bare, .named span howner⟩ fun _ => trivial
    · next howner =>
      refine ((binds_declareVar name expected span).pre And.left).bind_pure ?_ fun _ _ _ => trivial
      rintro id _ rfl
      exact ⟨.binding, .binding id span howner⟩
  | .someOf inner span, _ => by
    rw [pattern]
    refine ((binds_pattern inner _).pre Ty.Clean.someType).bind_pure (fun b _ hb => ?_) fun _ _ _ =>
      trivial
    exact ⟨.someOf hb.1, .someOf inner b span⟩
  | .okOf inner span, _ => by
    rw [pattern]
    refine ((binds_pattern inner _).pre Ty.Clean.okType).bind_pure (fun b _ hb => ?_) fun _ _ _ => trivial
    exact ⟨.okOf hb.1, .okOf inner b span⟩
  | .errOf inner span, _ => by
    rw [pattern]
    refine ((binds_pattern inner _).pre Ty.Clean.errType).bind_pure (fun b _ hb => ?_) fun _ _ _ =>
      trivial
    exact ⟨.errOf hb.1, .errOf inner b span⟩
  | .variant typeName name args span, _ => by
    rw [pattern]
    refine binds_registry fun s => (binds_payloadType _ _ _ _ s).silent_bind fun ty => ?_
    refine ((binds_patterns args ty).pre And.right).bind_pure (fun bs _ hbs => ?_) fun _ _ _ => trivial
    exact ⟨.variant hbs, .variant typeName name args bs span⟩

theorem binds_patterns : (ps : List Pattern) → (expected : Ty) →
    Binds m expected.Clean (ListTrace PatternTrace ps) (fun _ => True) (patterns ps expected)
  | [], _ => by
    rw [patterns]
    exact binds_pure .nil fun _ => trivial
  | pat :: ps, expected => by
    rw [patterns]
    refine (binds_pattern pat expected).andThen fun b =>
      (binds_patterns ps expected).bind_pure ?_ fun _ _ _ => trivial
    exact fun bs rest hrest first hfirst => .cons hfirst.1 hrest

end

theorem binds_quantified (vars : List (String × TypeRef)) :
    Binds m (∀ v ∈ vars, v.2.Clean) (ListTrace Declares (vars.map (·.1))) (fun _ => True)
      (quantified vars) := by
  induction vars with
  | nil => exact binds_pure .nil fun _ => trivial
  | cons v vars ih =>
    refine ((binds_declareVar v.1 v.2.ty v.2.span).pre fun h => h v mem_cons_self).andThen fun id => ?_
    refine (ih.pre fun h v' hv' => h v' (mem_cons_of_mem v hv')).bind_pure ?_ fun _ _ _ => trivial
    exact fun ids rest hrest first hfirst => .cons hfirst hrest

theorem binds_params (ps : List Param) :
    Binds m (∀ q ∈ ps, q.ty.Clean) (ListTrace Declares (ps.map (·.name))) (fun _ => True)
      (params ps) := by
  induction ps with
  | nil => exact binds_pure .nil fun _ => trivial
  | cons q ps ih =>
    refine ((binds_declare q.name q.ty.ty false true q.span).pre fun h => h q mem_cons_self).andThen
      fun id => ?_
    refine (ih.pre fun h q' hq' => h q' (mem_cons_of_mem q hq')).bind_pure ?_ fun _ _ _ => trivial
    exact fun ids rest hrest first hfirst => .cons hfirst hrest

/-! ## Trees -/

section Tree

variable {x : Binder (List Bound.Stmt)}

theorem Binds.condition {R : Bound.Expr → Trace → Prop} {C : Bound.Expr → Prop} {x : Binder Bound.Expr}
    {context : String} (hx : Binds m p R C x) : Binds m p R C (condition context x) := by
  refine hx.bind fun b => (quiet_expectBool context b).bind_binds fun _ =>
    binds_pure (fun tr htr => ?_) And.right
  rw [append_nil]
  exact htr

theorem Binds.block {body : List Stmt} {C : List Bound.Stmt → Prop}
    (hx : Binds m p (fun bs => Made m T (StmtsTrace body bs) (bs.map .stmt)) C x) :
    Binds m p (fun bs => Made m T (BlockTrace body bs) (bs.map .stmt)) C (Binding.inScope x) :=
  Binds.inScope (hx.mono (fun _ _ h => ⟨.mk h.trace, h.found⟩) fun _ _ h => h)

theorem Binds.loop {body : List Stmt} (name : String) {ty : Ty} (span : Span) (hty : p → ty.Clean)
    (hx : Binds m p (fun bs => Made m T (StmtsTrace body bs) (bs.map .stmt)) Bound.stmtsClean x) :
    Binds m p (fun r => Made m T (fun tr => ∃ inside, tr = region (.declare name r.1 :: inside) ∧
      StmtsTrace body r.2 inside) (r.2.map .stmt)) (fun r => Bound.stmtsClean r.2) (Binding.inScope do
        let id ← declareVar name ty span
        return (id, ← x)) := by
  refine Binds.inScope
    (((binds_declareVar name ty span).pre hty).andThen fun id => hx.bind_pure ?_ fun _ _ h => h)
  rintro bs tr hbody first rfl
  exact ⟨⟨tr, rfl, hbody.trace⟩, hbody.found⟩

theorem made_stmt {s : Stmt} {b : Bound.Stmt} {tr : Trace} (htrace : StmtTrace s (some b) tr)
    (hparts : ∀ n ∈ b.parts, m.FindsIn T n) (hown : m.FindsAt T (.stmt b) := by trivial) :
    Made m T (StmtTrace s (some b)) [.stmt b] tr :=
  ⟨htrace, forall_mem_singleton.mpr (Bound.Node.all_iff.mpr ⟨hown, hparts⟩)⟩

mutual

theorem binds_expr : (e : Expr) → (Node.expr e).Patterned T →
    Binds m e.Clean (MadeExpr m T e) Bound.Expr.Clean (expr e)
  | .int n _, _ => by
    rw [expr]
    exact binds_pure (made_expr .int) fun _ => ⟨trivial, Ty.clean_ofLiteral n⟩
  | .float _ _, _ | .str _ _, _ | .bool _ _, _ | .null _, _ | .noneOf _, _ => by
    rw [expr]
    exact binds_pure (made_expr (by constructor)) fun _ => ⟨trivial, trivial⟩
  | .error _, _ => by
    rw [expr]
    exact binds_pure (made_expr .error) fun h => h.elim
  | .ident x span, _ => by
    rw [expr]
    exact binds_ident x
  | .field base x span, h => by
    rw [expr]
    refine (binds_qualified? (T := T) base x).bind fun found => ?_
    cases found with
    | some b =>
      refine binds_pure (fun first hfirst => ?_) fun h => h.2 b rfl
      rw [append_nil]
      exact hfirst
    | none =>
      refine ((binds_expr base (h.part mem_cons_self)).pre And.left).bind fun b => ?_
      refine (binds_memberType b.ty x).bind_pure ?_ fun ty h hty => ⟨h.2, hty⟩
      rintro ty _ rfl tr hb first (rfl | ⟨root, hroot, rfl⟩)
      · rw [append_nil]
        exact made_expr (.field hb.trace) hb.found
      · rw [append_nil]
        exact made_expr (.fieldOfVariant hroot hb.trace) hb.found
  | .index base place span, h => by
    rw [expr]
    have hbase := binds_expr base (h.part (by simp [Node.parts, Expr.parts]))
    have hplace := binds_expr place (h.part (by simp [Node.parts, Expr.parts]))
    refine (hbase.pre And.left).bind fun b => (hplace.pre fun h => h.1.2).bind fun q => ?_
    refine (quiet_expectInteger _ _).bind_binds fun _ => binds_pure (fun tr' hq tr hb => ?_) ?_
    · rw [append_nil]
      exact made_expr (.index hb.trace hq.trace) (hb.append hq)
    · exact fun ⟨⟨_, hb⟩, hq⟩ => ⟨⟨hb, hq⟩, hb.ty.element⟩
  | .binary left op right span, h => by
    rw [expr]
    have hleft := binds_expr left (h.part (by simp [Node.parts, Expr.parts]))
    have hright := binds_expr right (h.part (by simp [Node.parts, Expr.parts]))
    refine (hleft.pre And.left).bind fun l => (hright.pre fun h => h.1.2).bind fun r => ?_
    have hmade (tr' : Trace) (hr : MadeExpr m T right r tr') (tr : Trace) (hl : MadeExpr m T left l tr) :
        MadeExpr m T (.binary left op right span) (.mk (.binary l op r) (op.resultType l.ty r.ty) span)
          (tr ++ (tr' ++ [])) := by
      rw [append_nil]
      exact made_expr (.binary hl.trace hr.trace) (hl.append hr)
    dsimp only
    split
    · refine (quiet_expectBool _ _).bind_binds fun _ => (quiet_expectBool _ _).bind_binds fun _ => ?_
      exact binds_pure hmade fun ⟨⟨_, hl⟩, hr⟩ => ⟨⟨hl, hr⟩, hl.ty.binary hr.ty⟩
    · exact binds_pure hmade fun ⟨⟨_, hl⟩, hr⟩ => ⟨⟨hl, hr⟩, hl.ty.binary hr.ty⟩
  | .unary op operand span, h => by
    rw [expr]
    refine (binds_expr operand (h.part mem_cons_self)).bind fun b => ?_
    have hmade (ty : Ty) (tr : Trace) (hb : MadeExpr m T operand b tr) :
        MadeExpr m T (.unary op operand span) (.mk (.unary op b) ty span) (tr ++ []) := by
      rw [append_nil]
      exact made_expr (.unary hb.trace) hb.found
    dsimp only
    split
    · exact (quiet_expectBool _ _).bind_binds fun _ => binds_pure (hmade _) fun h => ⟨h.2, trivial⟩
    · exact binds_pure (hmade _) fun h => ⟨h.2, h.2.ty⟩
  | .conditional test yes no span, h => by
    rw [expr]
    have htest := binds_expr test (h.part (by simp [Node.parts, Expr.parts]))
    have hyes := binds_expr yes (h.part (by simp [Node.parts, Expr.parts]))
    have hno := binds_expr no (h.part (by simp [Node.parts, Expr.parts]))
    refine (htest.condition.pre And.left).bind fun t => (hyes.pre fun h => h.1.2.1).bind fun y => ?_
    refine (hno.pre fun h => h.1.1.2.2).bind_pure (fun n tr'' hn tr' hy tr ht => ?_) ?_
    · refine made_expr (.conditional ht.trace hy.trace hn.trace) (forall_mem_append.mpr ⟨ht.found, ?_⟩)
      exact hy.append hn
    · refine fun n ⟨⟨_, ht⟩, hy⟩ hn => ⟨⟨ht, hy, hn⟩, ?_⟩
      split
      · exact hn.ty
      · exact hy.ty
  | .call target args span, h => by
    rw [expr]
    exact (binds_exprs args fun _ => h.part).bind fun bs => (binds_call target args).pre And.right
  | .create ty args span, h => by
    rw [expr]
    refine ((binds_exprs args fun _ => h.part).pre And.right).bind fun bs =>
      quiet_registry.bind_binds fun r => ?_
    refine binds_pure (fun tr hbs => ?_) fun ⟨⟨hty, _⟩, hbs⟩ => ⟨⟨hty, hbs⟩, hty⟩
    rw [append_nil]
    exact made_expr (.create hbs.trace) hbs.found
  | .someOf value span, h => by
    rw [expr]
    refine (binds_expr value (h.part mem_cons_self)).bind_pure (fun b tr hb => ?_) fun b _ hb =>
      ⟨hb, hb.ty⟩
    exact made_expr (.someOf hb.trace) hb.found
  | .okOf value span, h => by
    rw [expr]
    refine (binds_expr value (h.part mem_cons_self)).bind_pure (fun b tr hb => ?_) fun b _ hb =>
      ⟨hb, hb.ty, trivial⟩
    exact made_expr (.okOf hb.trace) hb.found
  | .errOf value span, h => by
    rw [expr]
    refine (binds_expr value (h.part mem_cons_self)).bind_pure (fun b tr hb => ?_) fun b _ hb =>
      ⟨hb, trivial, hb.ty⟩
    exact made_expr (.errOf hb.trace) hb.found
  | .await value span, h => by
    rw [expr]
    refine (binds_expr value (h.part mem_cons_self)).bind_pure (fun b tr hb => ?_) fun b _ hb =>
      ⟨hb, hb.ty⟩
    exact made_expr (.await hb.trace) hb.found
  | .lambda _ ps body span, h => by
    rw [expr]
    have hbody := (binds_stmts body fun _ => h.part).returning .unknown
    refine binds_bind_pure (Binds.inScope (((binds_params ps).pre And.left).andThen fun ids => ?_))
    refine (hbody.pre And.right).bind_pure (fun bs tr' hbs tr hids => ?_) fun bs hlambda hbs =>
      ⟨hbs, ?_, trivial⟩
    · exact made_expr (.lambda hids hbs.trace) hbs.found
    · refine Ty.allClean_iff.mpr fun ty hty => ?_
      obtain ⟨q, hq, rfl⟩ := mem_map.mp hty
      exact hlambda.1 q hq
  | .matching w, h => by
    rw [expr]
    refine (binds_matching w (h _ .refl) fun _ => h.part).bind_pure (fun b tr hb => ?_) fun b _ hb =>
      ⟨hb, ?_⟩
    · exact made_expr (.matching hb.2.trace) hb.2.found hb.1
    · obtain ⟨id, target, arms, isExpression, span⟩ := b
      exact clean_armsType hb.2
  | .quantifier kind vars body span, h => by
    rw [expr]
    have hbody := binds_expr body (h.part mem_cons_self)
    refine binds_bind_pure (Binds.inScope (((binds_quantified vars).pre And.left).andThen fun ids => ?_))
    refine (hbody.condition.pre And.right).bind_pure (fun b tr' hb tr hids => ?_) fun b _ hb =>
      ⟨hb, trivial⟩
    exact made_expr (.quantifier hids hb.trace) hb.found

theorem binds_exprs : (es : List Expr) → (∀ n ∈ es.map Node.expr, n.Patterned T) →
    Binds m (exprsClean es) (fun bs => Made m T (ListTrace ExprTrace es bs) (bs.map .expr))
      Bound.exprsClean (exprs es)
  | [], _ => by
    rw [exprs]
    exact binds_pure ⟨.nil, forall_mem_nil _⟩ fun _ => trivial
  | e :: es, h => by
    rw [exprs]
    obtain ⟨he, hes⟩ := forall_mem_cons.mp h
    refine ((binds_expr e he).pre And.left).bind fun b => ?_
    refine ((binds_exprs es hes).pre fun h => h.1.2).bind_pure ?_ fun bs h hbs => ⟨h.2, hbs⟩
    exact fun bs rest hbs tr hb => ⟨.cons hb.trace hbs.trace, hb.append hbs⟩

theorem binds_expr? : (e : Option Expr) → (∀ n ∈ e.toList.map Node.expr, n.Patterned T) →
    Binds m (exprClean? e) (fun b => Made m T (OptionTrace ExprTrace e b) (b.toList.map .expr))
      Bound.exprClean? (expr? e)
  | none, _ => by
    rw [expr?]
    exact binds_pure ⟨.none, forall_mem_nil _⟩ fun _ => trivial
  | some e, h => by
    rw [expr?]
    exact (binds_expr e (h _ mem_cons_self)).bind_pure (fun b tr hb => ⟨.some hb.trace, hb.found⟩)
      fun _ _ hb => hb

theorem binds_matching : (w : Match) → T w.patterns → (∀ n ∈ w.parts, n.Patterned T) →
    Binds m w.Clean (fun b tr => m.BindsMatch T b ∧ Made m T (MatchTrace w b) b.parts tr)
      Bound.Match.Clean (matching w)
  | .mk id target arms isExpression span, hpatterns, h => by
    rw [matching]
    obtain ⟨htarget, harms⟩ := forall_mem_cons.mp h
    refine ((binds_expr target htarget).pre And.left).bind fun t => ?_
    refine ((binds_matchArms t.ty arms harms).pre fun h => ⟨h.2.ty, h.1.2⟩).bind_pure ?_
      fun bs h hbs => ⟨h.2, hbs⟩
    exact fun bs tr' hbs tr ht => ⟨⟨_, hpatterns, hbs.1⟩, .mk ht.trace hbs.2.trace, ht.append hbs.2⟩

theorem binds_matchArms (target : Ty) :
    (arms : List Arm) → (∀ n ∈ arms.flatMap Arm.parts, n.Patterned T) →
    Binds m (target.Clean ∧ armsClean arms)
      (fun bs tr => Forall₂ (Pattern.BoundTo m.declared.registry target)
      (arms.map Arm.pattern) (bs.map (·.pattern)) ∧
        Made m T (ListTrace ArmTrace arms bs) (bs.flatMap Bound.Arm.parts) tr) Bound.armsClean
          (matchArms target arms)
  | [], _ => by
    rw [matchArms]
    exact binds_pure ⟨.nil, .nil, forall_mem_nil _⟩ fun _ => trivial
  | a :: more, h => by
    rw [matchArms]
    obtain ⟨ha, hmore⟩ := forall_mem_append.mp h
    refine ((binds_arm target a ha).pre fun h => ⟨h.1, h.2.1⟩).bind fun b => ?_
    refine ((binds_matchArms target more hmore).pre fun h => ⟨h.1.1, h.1.2.2⟩).bind_pure ?_
      fun bs h hbs => ⟨h.2, hbs⟩
    exact fun bs rest hbs tr hb => ⟨.cons hb.1 hbs.1, .cons hb.2.trace hbs.2.trace, hb.2.append hbs.2⟩

theorem binds_arm (target : Ty) : (a : Arm) → (∀ n ∈ a.parts, n.Patterned T) →
    Binds m (target.Clean ∧ a.Clean) (fun b tr => a.pattern.BoundTo m.declared.registry target b.pattern ∧
      Made m T (ArmTrace a b) b.parts tr) Bound.Arm.Clean (arm target a)
  | .mk pat guard body span, h => by
    rw [arm]
    obtain ⟨hguard, hbody⟩ := forall_mem_append.mp h
    refine Binds.inScope (((binds_pattern pat target).pre And.left).andThen fun q => ?_)
    refine ((binds_guardOf guard hguard).pre fun h => h.2.1).bind fun g => ?_
    refine ((binds_armBody body hbody).pre fun h => h.1.2.2).bind_pure ?_ fun b h hb => ⟨h.2, hb⟩
    exact fun b tr'' hb tr' hg tr hq => ⟨hq.2, .mk hq.1 hg.trace hb.trace, hg.append hb⟩

theorem binds_guardOf : (guard : Option Expr) → (∀ n ∈ guard.toList.map Node.expr, n.Patterned T) →
    Binds m (exprClean? guard)
      (fun b => Made m T (OptionTrace ExprTrace guard b) (b.toList.map .expr)) Bound.exprClean?
      (guardOf guard)
  | none, _ => by
    rw [guardOf]
    exact binds_pure ⟨.none, forall_mem_nil _⟩ fun _ => trivial
  | some e, h => by
    rw [guardOf]
    have he := binds_expr e (h _ mem_cons_self)
    exact he.condition.bind_pure (fun b tr hb => ⟨.some hb.trace, hb.found⟩) fun _ _ hb => hb

theorem binds_armBody : (body : ArmBody) → (∀ n ∈ body.parts, n.Patterned T) →
    Binds m body.Clean (fun b => Made m T (ArmBodyTrace body b) b.parts) Bound.ArmBody.Clean
      (armBody body)
  | .block body, h => by
    rw [armBody]
    exact (binds_stmts body h).bind_pure (fun bs tr hbs => ⟨.block hbs.trace, hbs.found⟩)
      fun _ _ hbs => hbs
  | .value e, h => by
    rw [armBody]
    exact (binds_expr e (h _ mem_cons_self)).bind_pure (fun b tr hb => ⟨.value hb.trace, hb.found⟩)
      fun _ _ hb => hb

theorem binds_stmt : (s : Stmt) → (Node.stmt s).Patterned T →
    Binds m s.Clean (fun b => Made m T (StmtTrace s b) (b.toList.map .stmt))
      (fun b => Bound.stmtsClean b.toList) (stmt s)
  | .bind x isMutable declared source span, h => by
    rw [stmt]
    refine ((binds_expr source (h.part mem_cons_self)).pre And.right).bind fun b => ?_
    have hdeclare : Binds m ((Stmt.bind x isMutable declared source span).Clean ∧ b.Clean)
        (fun r new => ∀ first, MadeExpr m T source b first →
          Made m T (StmtTrace (.bind x isMutable declared source span) r) (r.toList.map .stmt)
            (first ++ new))
        (fun r => Bound.stmtsClean r.toList) (do
          let symbol ← declare x (.var ((declared.map (·.ty)).getD b.ty) isMutable false) span
          return some (.bind symbol b span)) := by
      refine Binds.bind_pure ((binds_declare x _ isMutable false span).pre fun ⟨hs, hb⟩ => ?_) ?_
        fun _ h _ => ⟨h.2, trivial⟩
      · cases declared with
        | none => exact hb.ty
        | some ty => exact hs.1 ty rfl
      · rintro id new rfl first hb
        exact made_stmt (.bind hb.trace) hb.found
    dsimp only
    split
    · exact (quiet_expect _ _ _).bind_binds fun _ => hdeclare
    · exact hdeclare
  | .assign target value span, h => by
    rw [stmt]
    have htarget := binds_expr target (h.part (by simp [Node.parts, Stmt.parts]))
    have hvalue := binds_expr value (h.part (by simp [Node.parts, Stmt.parts]))
    refine (htarget.pre And.left).bind fun t => (hvalue.pre fun h => h.1.2).bind fun v => ?_
    refine (quiet_checkMutable t).bind_binds fun _ => (quiet_expect _ _ _).bind_binds fun _ => ?_
    refine binds_pure (fun tr' hv tr ht => ?_) fun ⟨⟨_, ht⟩, hv⟩ => ⟨⟨ht, hv⟩, trivial⟩
    rw [append_nil]
    exact made_stmt (.assign ht.trace hv.trace) (ht.append hv)
  | .branch _ test body others otherwise span, h => by
    rw [stmt]
    obtain ⟨htest, hparts⟩ := forall_mem_cons.mp (Node.all_iff.mp h).2
    obtain ⟨hparts, hotherwise⟩ := forall_mem_append.mp hparts
    obtain ⟨hbody, hothers⟩ := forall_mem_append.mp hparts
    refine ((binds_expr test htest).condition.pre And.left).bind fun t => ?_
    refine ((binds_stmts body hbody).block.pre fun h => h.1.2.1).bind fun bs => ?_
    refine ((binds_elseIfs others hothers).pre fun h => h.1.1.2.2.1).bind fun os => ?_
    refine ((binds_block? otherwise hotherwise).pre fun h => h.1.1.1.2.2.2).bind_pure ?_ ?_
    · intro o tr₄ ho tr₃ hos tr₂ hbs tr₁ ht
      refine made_stmt (.branch ht.trace hbs.trace hos.trace ho.trace) ?_
      exact forall_mem_append.mpr ⟨forall_mem_append.mpr ⟨ht.append hbs, hos.found⟩, ho.found⟩
    · exact fun o ⟨⟨⟨_, ht⟩, hbs⟩, hos⟩ ho => ⟨⟨ht, hbs, hos, ho⟩, trivial⟩
  | .count id x start stop step body span, h => by
    rw [stmt]
    obtain ⟨hparts, hbody⟩ := forall_mem_append.mp (Node.all_iff.mp h).2
    obtain ⟨hbounds, hstep⟩ := forall_mem_append.mp hparts
    refine ((binds_expr start (hbounds _ (by simp))).pre And.left).bind fun a => ?_
    refine ((binds_expr stop (hbounds _ (by simp))).pre fun h => h.1.2.1).bind fun b => ?_
    refine ((binds_expr? step hstep).pre fun h => h.1.1.2.2.1).bind fun c => ?_
    refine (quiet_expectInteger _ _).bind_binds fun _ => (quiet_expectInteger _ _).bind_binds fun _ => ?_
    have hloop : Binds m ((((Stmt.count id x start stop step body span).Clean ∧ a.Clean) ∧ b.Clean) ∧
        Bound.exprClean? c) (fun r new =>
          ∀ tr'', Made m T (OptionTrace ExprTrace step c) (c.toList.map .expr) tr'' →
        ∀ tr', MadeExpr m T stop b tr' → ∀ tr, MadeExpr m T start a tr →
        Made m T (StmtTrace (.count id x start stop step body span) r) (r.toList.map .stmt)
          (tr ++ (tr' ++ (tr'' ++ new)))) (fun r => Bound.stmtsClean r.toList) (do
          let (id, body) ← inScope do
            let id ← declareVar x (if a.ty.isInteger then a.ty else .i32) span
            return (id, ← stmts body)
          return some (.count id a b c body span)) := by
      refine (((binds_stmts body hbody).pre fun h => h.1.1.1.2.2.2).loop x span fun h =>
        ?_).bind_pure ?_ ?_
      · split
        · exact h.1.1.2.ty
        · trivial
      · rintro r _ ⟨⟨inside, rfl, hr⟩, hfound⟩ tr'' hc tr' hb tr ha
        refine made_stmt (.count ha.trace hb.trace hc.trace hr) ?_
        exact forall_mem_append.mpr ⟨forall_mem_append.mpr ⟨ha.append hb, hc.found⟩, hfound⟩
      · exact fun r ⟨⟨⟨_, ha⟩, hb⟩, hc⟩ hr => ⟨⟨ha, hb, hc, hr⟩, trivial⟩
    dsimp only
    split
    · exact (quiet_expectInteger _ _).bind_binds fun _ => hloop
    · exact hloop
  | .each _ x source body span, h => by
    rw [stmt]
    obtain ⟨hsource, hbody⟩ := forall_mem_cons.mp (Node.all_iff.mp h).2
    refine ((binds_expr source hsource).pre And.left).bind fun a => ?_
    refine (((binds_stmts body hbody).pre fun h => h.1.2).loop x span fun h =>
      h.2.ty.element).bind_pure ?_ ?_
    · rintro r _ ⟨⟨inside, rfl, hr⟩, hfound⟩ tr ha
      exact made_stmt (.each ha.trace hr) (forall_mem_append.mpr ⟨ha.found, hfound⟩)
    · exact fun r ⟨_, ha⟩ hr => ⟨⟨ha, hr⟩, trivial⟩
  | .loop _ test body span, h => by
    rw [stmt]
    obtain ⟨htest, hbody⟩ := forall_mem_cons.mp (Node.all_iff.mp h).2
    refine ((binds_expr test htest).condition.pre And.left).bind fun t => ?_
    refine ((binds_stmts body hbody).block.pre fun h => h.1.2).bind_pure ?_ fun bs h hbs =>
      ⟨⟨h.2, hbs⟩, trivial⟩
    exact fun bs tr' hbs tr ht => made_stmt (.loop ht.trace hbs.trace) (ht.append hbs)
  | .matching w, h => by
    rw [stmt]
    refine (binds_matching w (h _ .refl) fun _ => h.part).bind_pure (fun b tr hb => ?_) fun _ _ hb =>
      ⟨hb, trivial⟩
    exact made_stmt (.matching hb.2.trace) hb.2.found hb.1
  | .attempt _ body clauses finish span, h => by
    rw [stmt]
    obtain ⟨hparts, hfinish⟩ := forall_mem_append.mp (Node.all_iff.mp h).2
    obtain ⟨hbody, hclauses⟩ := forall_mem_append.mp hparts
    refine ((binds_stmts body hbody).block.pre And.left).bind fun bs => ?_
    refine ((binds_catches clauses hclauses).pre fun h => h.1.2.1).bind fun cs => ?_
    refine ((binds_block? finish hfinish).pre fun h => h.1.1.2.2).bind_pure
      (fun f tr'' hf tr' hcs tr hbs => ?_) ?_
    · refine made_stmt (.attempt hbs.trace hcs.trace hf.trace) ?_
      exact forall_mem_append.mpr ⟨hbs.append hcs, hf.found⟩
    · exact fun f ⟨⟨_, hbs⟩, hcs⟩ hf => ⟨⟨hbs, hcs, hf⟩, trivial⟩
  | .ret value span, h => by
    rw [stmt]
    refine (binds_expr? value fun _ => h.part).bind fun v =>
      (quiet_checkReturn _ _).bind_binds fun _ => ?_
    refine binds_pure (fun tr hv => ?_) fun h => ⟨h.2, trivial⟩
    rw [append_nil]
    exact made_stmt (.ret hv.trace) hv.found
  | .raise value span, h => by
    rw [stmt]
    refine (binds_expr value (h.part mem_cons_self)).bind_pure (fun v tr hv => ?_) fun _ _ hv =>
      ⟨hv, trivial⟩
    exact made_stmt (.raise hv.trace) hv.found
  | .call target args span, h => by
    rw [stmt]
    refine (binds_exprs args fun _ => h.part).bind fun bs => ?_
    refine ((binds_call (T := T) target args).pre And.right).bind_pure (fun b new hb tr hbs => ?_)
      fun _ _ hb => ⟨hb, trivial⟩
    exact made_stmt (.call (hb tr hbs).trace) (hb tr hbs).found
  | .error _, _ => by
    rw [stmt]
    exact binds_pure ⟨.error, forall_mem_nil _⟩ fun h => h.elim

theorem binds_stmts : (body : List Stmt) → (∀ n ∈ body.map Node.stmt, n.Patterned T) →
    Binds m (stmtsClean body) (fun bs => Made m T (StmtsTrace body bs) (bs.map .stmt))
      Bound.stmtsClean (stmts body)
  | [], _ => by
    rw [stmts]
    exact binds_pure ⟨.nil, forall_mem_nil _⟩ fun _ => trivial
  | s :: ss, h => by
    rw [stmts]
    obtain ⟨hs, hss⟩ := forall_mem_cons.mp h
    refine ((binds_stmt s hs).pre And.left).bind fun b => ?_
    refine ((binds_stmts ss hss).pre fun h => h.1.2).bind_pure (fun bs rest hbs tr hb => ?_)
      fun bs h hbs => ?_
    · refine ⟨.cons hb.trace hbs.trace, ?_⟩
      rw [map_append]
      exact hb.append hbs
    · exact stmtClean_append h.2 hbs

theorem binds_block? : (body : Option (List Stmt)) → (∀ n ∈ (body.getD []).map Node.stmt, n.Patterned T) →
    Binds m (blockClean? body) (fun r => Made m T (OptionTrace BlockTrace body r) ((r.getD []).map .stmt))
      Bound.blockClean? (block? body)
  | none, _ => by
    rw [block?]
    exact binds_pure ⟨.none, forall_mem_nil _⟩ fun _ => trivial
  | some body, h => by
    rw [block?]
    exact (binds_stmts body h).block.bind_pure (fun bs tr hbs => ⟨.some hbs.trace, hbs.found⟩)
      fun _ _ hbs => hbs

theorem binds_elseIfs : (others : List ElseIf) → (∀ n ∈ others.flatMap ElseIf.parts, n.Patterned T) →
    Binds m (elseIfsClean others)
      (fun bs => Made m T (ListTrace ElseIfTrace others bs) (bs.flatMap Bound.ElseIf.parts))
      Bound.elseIfsClean (elseIfs others)
  | [], _ => by
    rw [elseIfs]
    exact binds_pure ⟨.nil, forall_mem_nil _⟩ fun _ => trivial
  | .mk test body _ :: rest, h => by
    rw [elseIfs]
    obtain ⟨hparts, hrest⟩ := forall_mem_append.mp h
    obtain ⟨htest, hbody⟩ := forall_mem_cons.mp hparts
    refine ((binds_expr test htest).condition.pre fun h => h.1.1).bind fun t => ?_
    refine ((binds_stmts body hbody).block.pre fun h => h.1.1.2).bind fun bs => ?_
    refine ((binds_elseIfs rest hrest).pre fun h => h.1.1.2).bind_pure
      (fun os tr'' hos tr' hbs tr ht => ?_) ?_
    · rw [← append_assoc]
      exact ⟨.cons (.mk ht.trace hbs.trace) hos.trace, forall_mem_append.mpr ⟨ht.append hbs, hos.found⟩⟩
    · exact fun os ⟨⟨_, ht⟩, hbs⟩ hos => ⟨⟨ht, hbs⟩, hos⟩

theorem binds_catches : (clauses : List Catch) → (∀ n ∈ clauses.flatMap Catch.parts, n.Patterned T) →
    Binds m (catchesClean clauses)
      (fun bs => Made m T (ListTrace CatchTrace clauses bs) (bs.flatMap Bound.Catch.parts))
      Bound.catchesClean (catches clauses)
  | [], _ => by
    rw [catches]
    exact binds_pure ⟨.nil, forall_mem_nil _⟩ fun _ => trivial
  | .mk written x body span :: rest, h => by
    rw [catches]
    obtain ⟨hparts, hrest⟩ := forall_mem_append.mp h
    have hclause (declared : Binder (Option SymbolId))
        (hdeclared : Binds m (typeClean? written) (OptionTrace Declares x) (fun _ => True) declared) :
        Binds m (Catch.mk written x body span).Clean
          (fun c new => Made m T (CatchTrace (.mk written x body span) c) c.parts (region new))
          (fun c => Bound.catchesClean [c]) (do
            let id ← declared
            return .mk (written.map (·.ty)) id (← stmts body)) := by
      refine (hdeclared.pre And.left).andThen fun id =>
        ((binds_stmts body hparts).pre And.right).bind_pure ?_ ?_
      · exact fun bs tr' hbs tr hid => ⟨.mk hid hbs.trace, hbs.found⟩
      · refine fun bs ⟨hwritten, _⟩ hbs => ⟨⟨fun ty hty => ?_, hbs⟩, trivial⟩
        obtain ⟨t, ht, rfl⟩ := Option.map_eq_some_iff.mp hty
        exact hwritten t ht
    -- a clause is clean if it is the only one of a clean list
    refine Binds.bind (R := fun c => Made m T (CatchTrace (.mk written x body span) c) c.parts)
      (C := fun c => Bound.catchesClean [c]) (Binds.inScope ?_) fun c => ?_
    · cases x with
      | none => exact (hclause _ (binds_pure .none fun _ => trivial)).pre And.left
      | some name =>
        refine (hclause _ (binds_map ((Binds.mono ?_ (fun _ _ h => .some h) fun _ _ h => h)))).pre
          And.left
        refine (binds_declareVar name _ span).pre fun h => ?_
        cases written with
        | none => trivial
        | some t => exact h t rfl
    · refine ((binds_catches rest hrest).pre fun h => h.1.2).bind_pure (fun cs tr' hcs tr hc => ?_)
        fun cs h hcs => ?_
      · exact ⟨.cons hc.trace hcs.trace, hc.append hcs⟩
      · obtain ⟨ty, id, bs⟩ := c
        exact ⟨h.2.1, hcs⟩

end

end Tree

end TagLang.Binding
