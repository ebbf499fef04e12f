import TagLang.Proofs.Binding.Callee
import TagLang.Proofs.Binding.Clean

/-! # What a part of the binder comes to

Binding follows the tree once. Each part of it adds events to the trace, declares no function, and
takes no error back; and it makes an erroneous type, symbol or callee only where it reports one.
-/

namespace TagLang.Binding
open List

variable {α β : Type} {m : Module}

/-- What is left of a state in which the functions of a module are declared. The new events have a
property together with the result. If there are no errors in the end and a condition holds, a clean
state stays clean, and the result has one more property. -/
structure Outcome (m : Module) (p : Prop) (R : α → Trace → Prop) (C : α → Prop) (s : State)
    (r : α × State) : Prop where
  trace : ∃ new, Balanced new ∧ (∀ tr, Follows s tr → Follows r.2 (tr ++ new)) ∧ R r.1 new
  grounded : r.2.Grounded m
  errors : r.2.errors = [] → s.errors = []
  clean : r.2.errors = [] → p → s.Clean → r.2.Clean ∧ C r.1

def BindsAt (m : Module) (p : Prop) (R : α → Trace → Prop) (C : α → Prop) (x : Binder α)
    (s : State) : Prop :=
  s.Grounded m → Outcome m p R C s (x.run s)

def Binds (m : Module) (p : Prop) (R : α → Trace → Prop) (C : α → Prop) (x : Binder α) : Prop :=
  ∀ s, BindsAt m p R C x s

section Combinators

variable {p p' : Prop} {R : α → Trace → Prop} {R' : β → Trace → Prop} {C : α → Prop} {C' : β → Prop}
  {x y : Binder α} {f : α → Binder β} {s : State} {g : α → β}

theorem binds_pure {a : α} (hR : R a []) (hC : p → C a) : Binds m p R C (pure a) := by
  refine fun s hs => ⟨⟨[], .nil, fun tr htr => ?_, hR⟩, hs, id, fun _ hp hclean => ⟨hclean, hC hp⟩⟩
  rw [append_nil]
  exact htr

/-- The rest may rely on what holds of the first result. -/
theorem BindsAt.bind (hx : BindsAt m p R C x s)
    (hf : ∀ a, Binds m (p ∧ C a) (fun b new => ∀ first, R a first → R' b (first ++ new)) C' (f a)) :
    BindsAt m p R' C' (x >>= f) s := by
  intro hs
  obtain ⟨⟨first, hfirst, hfollows, ha⟩, hs₁, herrors, hclean⟩ := hx hs
  obtain ⟨⟨new, hnew, hfollows', hb⟩, hs₂, herrors', hclean'⟩ := hf _ _ hs₁
  refine ⟨⟨first ++ new, hfirst.append hnew, fun tr htr => ?_, hb first ha⟩, hs₂, fun h =>
    herrors (herrors' h), ?_⟩
  · rw [← append_assoc]
    exact hfollows' _ (hfollows tr htr)
  · intro h hp hs₀
    obtain ⟨hclean₁, hCa⟩ := hclean (herrors' h) hp hs₀
    exact hclean' h ⟨hp, hCa⟩ hclean₁

theorem Binds.bind (hx : Binds m p R C x)
    (hf : ∀ a, Binds m (p ∧ C a) (fun b new => ∀ first, R a first → R' b (first ++ new)) C' (f a)) :
    Binds m p R' C' (x >>= f) :=
  fun s => (hx s).bind hf

theorem Binds.pre (hx : Binds m p R C x) (h : p' → p) : Binds m p' R C x :=
  fun s hs => { hx s hs with clean := fun herrors hp => (hx s hs).clean herrors (h hp) }

theorem Binds.mono {R₂ : α → Trace → Prop} {C₂ : α → Prop} (hx : Binds m p R C x)
    (hR : ∀ a new, R a new → R₂ a new) (hC : ∀ a, p → C a → C₂ a) : Binds m p R₂ C₂ x := by
  intro s hs
  obtain ⟨⟨new, hnew, hfollows, ha⟩, hs₁, herrors, hclean⟩ := hx s hs
  refine ⟨⟨new, hnew, hfollows, hR _ _ ha⟩, hs₁, herrors, fun h hp hs₀ => ?_⟩
  obtain ⟨hclean₁, hCa⟩ := hclean h hp hs₀
  exact ⟨hclean₁, hC _ hp hCa⟩

theorem Binds.andThen (hx : Binds m p R (fun _ => True) x)
    (hf : ∀ a, Binds m p (fun b new => ∀ first, R a first → R' b (first ++ new)) C' (f a)) :
    Binds m p R' C' (x >>= f) :=
  hx.bind fun a => (hf a).pre And.left

theorem BindsAt.silent_bind (hx : BindsAt m p (fun _ new => new = []) C x s)
    (hf : ∀ a, Binds m (p ∧ C a) R' C' (f a)) : BindsAt m p R' C' (x >>= f) s := by
  refine hx.bind fun a => (hf a).mono ?_ fun _ _ hb => hb
  rintro b new hb first rfl
  exact hb

theorem binds_map (hx : Binds m p (fun a => R' (g a)) (fun a => C' (g a)) x) :
    Binds m p R' C' (g <$> x) :=
  fun s hs => ⟨(hx s hs).trace, (hx s hs).grounded, (hx s hs).errors, (hx s hs).clean⟩

theorem binds_bind_pure (hx : Binds m p (fun a => R' (g a)) (fun a => C' (g a)) x) :
    Binds m p R' C' (x >>= fun a => pure (g a)) :=
  fun s hs => ⟨(hx s hs).trace, (hx s hs).grounded, (hx s hs).errors, (hx s hs).clean⟩

theorem Binds.bind_pure (hx : Binds m p R C x) (hR : ∀ a new, R a new → R' (g a) new)
    (hC : ∀ a, p → C a → C' (g a)) : Binds m p R' C' (x >>= fun a => pure (g a)) :=
  binds_bind_pure (hx.mono hR hC)

theorem Quiet.binds (hx : Quiet x) : Binds m p (fun _ new => new = []) (fun _ => True) x := by
  intro s hs
  obtain ⟨new, hnew⟩ := hx s
  rw [← Prod.eta (x.run s), hnew]
  refine ⟨⟨[], .nil, fun tr htr => ?_, rfl⟩, ⟨hs.named, hs.registry, hs.functions⟩, fun h =>
    ?_, fun _ _ hclean => ?_⟩
  · rw [append_nil]
    exact htr.of_eq rfl rfl rfl (subset_append_right _ _)
  · exact (append_eq_nil_iff.mp h).2
  · exact ⟨⟨hclean.symbols, hclean.registry⟩, trivial⟩

theorem Quiet.bind_binds (hx : Quiet x) (hf : ∀ a, Binds m p R' C' (f a)) : Binds m p R' C' (x >>= f) :=
  fun s => (hx.binds s).silent_bind fun a => (hf a).pre And.left

theorem binds_report (fault : BindFault) (span : Span) :
    Binds m p (fun _ new => new = []) (fun _ => False) (report fault span) :=
  fun s hs => { (quiet_report fault span).binds (p := p) s hs with clean := fun h => by cases h }

theorem bindsAt_get {f : State → Binder β}
    (h : s.Grounded m → BindsAt m (p ∧ s.Clean) R' C' (f s) s) : BindsAt m p R' C' (get >>= f) s :=
  fun hs => { h hs hs with clean := fun herrors hp hclean => (h hs hs).clean herrors ⟨hp, hclean⟩ hclean }

theorem binds_registry {f : Registry → Binder β}
    (h : Binds m (p ∧ m.declared.registry.Clean) R' C' (f m.declared.registry)) :
    Binds m p R' C' (registry >>= f) := by
  refine fun s => bindsAt_get fun hs => ?_
  rw [hs.registry]
  exact h.pre (fun ⟨hp, hclean⟩ => ⟨hp, hs.registry ▸ hclean.registry⟩) s

end Combinators

section Scopes

variable {p : Prop} {R : α → Trace → Prop} {C : α → Prop} {x : Binder α}

theorem Binds.inScope (hx : Binds m p (fun a new => R a (region new)) C x) :
    Binds m p R C (inScope x) := by
  intro s hs
  obtain ⟨⟨inside, hinside, hfollows, ha⟩, hs₁, herrors, hclean⟩ :=
    hx { s with scopes := s.scopes.enter } ⟨keeps_enter s hs.named, hs.registry, hs.functions⟩
  generalize hr : x.run { s with scopes := s.scopes.enter } = r at hfollows ha hs₁ herrors hclean
  have hrun : (Binding.inScope x).run s = (r.1, ((leave s.scopes.enter.current).run r.2).2) := by
    rw [← hr]
    rfl
  have hnamed := keeps_leave s.scopes.enter.current r.2 hs₁.named
  obtain ⟨herrors', hsymbols, hregistry⟩ :
    ((leave s.scopes.enter.current).run r.2).2.errors = r.2.errors ∧
      ((leave s.scopes.enter.current).run r.2).2.symbols = r.2.symbols ∧
      ((leave s.scopes.enter.current).run r.2).2.registry = r.2.registry := by
    rw [leave, run_modify]
    split <;> exact ⟨rfl, rfl, rfl⟩
  rw [hrun]
  refine ⟨⟨region inside, ?_, fun tr htr => htr.leave hinside (hfollows _ htr.enter), ha⟩, ?_, ?_, ?_⟩
  · rw [← append_nil (region inside)]
    exact .nest hinside .nil
  · exact ⟨hnamed, hregistry.trans hs₁.registry, hsymbols ▸ hs₁.functions⟩
  · exact fun h => herrors (herrors'.symm.trans h)
  · intro h hp hs₀
    obtain ⟨hclean₁, hCa⟩ := hclean (herrors'.symm.trans h) hp ⟨hs₀.symbols, hs₀.registry⟩
    exact ⟨⟨hsymbols ▸ hclean₁.symbols, hregistry ▸ hclean₁.registry⟩, hCa⟩

theorem Binds.returning (ty : Ty) (hx : Binds m p R C x) : Binds m p R C (returning ty x) := by
  intro s hs
  obtain ⟨⟨new, hnew, hfollows, ha⟩, hs₁, herrors, hclean⟩ :=
    hx { s with returnTypes := ty :: s.returnTypes } ⟨hs.named, hs.registry, hs.functions⟩
  refine ⟨⟨new, hnew, fun tr htr => ?_, ha⟩, ⟨hs₁.named, hs₁.registry, hs₁.functions⟩, herrors,
    fun h hp hs₀ => ?_⟩
  · have hstart := hfollows tr (htr.of_eq rfl rfl rfl (List.Subset.refl _))
    exact hstart.of_eq rfl rfl rfl (List.Subset.refl _)
  · obtain ⟨hclean₁, hCa⟩ := hclean h hp ⟨hs₀.symbols, hs₀.registry⟩
    exact ⟨⟨hclean₁.symbols, hclean₁.registry⟩, hCa⟩

theorem binds_setClass (className : Option String) :
    Binds m p (fun _ new => new = []) (fun _ => True)
      (modify fun s => { s with className } : Binder PUnit) := by
  intro s hs
  refine ⟨⟨[], .nil, fun tr htr => ?_, rfl⟩, ⟨hs.named, hs.registry, hs.functions⟩, id,
    fun _ _ hclean => ?_⟩
  · rw [append_nil]
    exact htr.of_eq rfl rfl rfl (List.Subset.refl _)
  · exact ⟨⟨hclean.symbols, hclean.registry⟩, trivial⟩

theorem binds_declare (name : String) (ty : Ty) (isMutable isParam : Bool) (span : Span) :
    Binds m ty.Clean (Declares name) (fun _ => True) (declare name (.var ty isMutable isParam) span) := by
  intro s hs
  have hdeclared := declared_declare ⟨name, .var ty isMutable isParam, span⟩ nofun s
  have hregistry := registry_declare name (.var ty isMutable isParam) span s
  refine ⟨⟨[.declare name s.symbols.size], .cons nofun nofun .nil, hdeclared.follows, ?_⟩, ?_, ?_, ?_⟩
  · rw [run_declare]
  · exact Grounded.add hs rfl (hdeclared.named hs.named) hregistry hdeclared.symbols
  · exact fun h => (hdeclared.free h).1
  · intro _ hty hclean
    refine ⟨⟨?_, hregistry ▸ hclean.registry⟩, trivial⟩
    rw [hdeclared.symbols]
    exact clean_add hclean.symbols ⟨nofun, hty⟩

theorem binds_declareVar (name : String) (ty : Ty) (span : Span) :
    Binds m ty.Clean (Declares name) (fun _ => True) (declareVar name ty span) :=
  binds_declare name ty false false span

end Scopes

section Uses

variable {p : Prop} {R : α → Trace → Prop} {C : α → Prop} {x : Binder α} {s : State} {span : Span}
  {name : String} {f : Option SymbolId → Binder α}

theorem BindsAt.after (e : Event) (henter : e ≠ .enter) (hleave : e ≠ .leave)
    (he : ∀ tr, Follows s tr → Follows s (tr ++ [e]))
    (hx : BindsAt m p (fun a new => R a (e :: new)) C x s) : BindsAt m p R C x s := by
  intro hs
  obtain ⟨⟨new, hnew, hfollows, ha⟩, hs₁, herrors, hclean⟩ := hx hs
  refine ⟨⟨e :: new, .cons henter hleave hnew, fun tr htr => ?_, ha⟩, hs₁, herrors, hclean⟩
  rw [append_cons]
  exact hfollows _ (he tr htr)

/-- A lookup that finds nothing is an event, and one that finds a symbol may be. -/
theorem binds_lookup_of (hnone : Binds m p (fun a new => R a (.missing name :: new)) C (f none))
    (hsome : ∀ s id, s.scopes.lookup name = some id → BindsAt m p R C (f (some id)) s) :
    Binds m p R C (lookup name >>= f) := by
  intro s
  have hrun : BindsAt m p R C (f (s.scopes.lookup name)) s := by
    cases hid : s.scopes.lookup name with
    | none => exact (hnone s).after (.missing name) nofun nofun fun tr htr => htr.missing hid
    | some id => exact hsome s id hid
  exact hrun

theorem binds_lookup (hnone : Binds m p (fun a new => R a (.missing name :: new)) C (f none))
    (hsome : ∀ s id, s.scopes.lookup name = some id →
      BindsAt m p (fun a new => R a (.refer name id :: new)) C
      (f (some id)) s) : Binds m p R C (lookup name >>= f) :=
  binds_lookup_of hnone fun s id hid => (hsome s id hid).after (.refer name id) nofun nofun
    fun _ htr => htr.refer hid

theorem bindsAt_symbolType {id : SymbolId} (hid : s.scopes.lookup name = some id) :
    BindsAt m p (fun _ new => new = []) Ty.Clean (symbolType id) s := by
  refine fun hs =>
    { (quiet_symbolType id).binds (p := p) s hs with clean := fun _ _ hclean => ⟨hclean, ?_⟩ }
  obtain ⟨sym, hsym, -⟩ := hs.named.lookup hid
  have hty : (s.symbols.ty id).Clean := by
    rw [SymbolTable.ty, hsym]
    exact (hclean.symbols id sym hsym).ty
  exact hty

theorem binds_undefinedName (name : String) :
    Binds m p (fun b new => ∃ id ty, b = .mk (.var id) ty span ∧ new = [.undefined name id span])
      (fun _ => False) (undefinedName name span) := by
  intro s hs
  refine ⟨⟨[.undefined name s.symbols.size span], .cons nofun nofun .nil, fun tr htr =>
    ?_, _, .error, rfl, rfl⟩,
    Grounded.add hs rfl (keeps_addSymbol _ s hs.named) rfl rfl, (by cases ·), (by cases ·)⟩
  have hregions : Event.apply (openRegions tr) (.undefined name s.symbols.size span) =
      openRegions tr := by
    simp [Event.apply]
  refine htr.step rfl (hregions ▸ htr.scopes) (extends_add s.symbols ⟨name, .error, span⟩) ?_ ?_
    ?_ trivial
  · exact subset_cons_self _ _
  · exact range_add _ _
  · exact ⟨get?_add_size _ _, _, mem_cons_self⟩

end Uses

end TagLang.Binding
