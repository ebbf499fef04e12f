import TagLang.Proofs.Binding.Regions

/-! # The items of a module

Declaring the items of a module makes one symbol for each of them, in their order. The class that a
name stands for is the last one of that name. Without errors no two items have the same name, and
each name in scope means its item.
-/

namespace TagLang
open List

def FunctionDef.symbol (f : FunctionDef) : Symbol :=
  ⟨f.name, .function f.id (f.params.map fun p => (p.name, p.ty.ty)) f.resultType, f.span⟩

def Item.symbol : Item → Symbol
  | .function f => f.symbol
  | item => ⟨item.name, .type (.named item.name []), item.span⟩

theorem Item.eq_function_of_isFunction {item : Item} (h : item.symbol.isFunction = true) :
    ∃ f, item = .function f := by
  cases item with
  | function f => exact ⟨f, rfl⟩
  | classDef | interface | enumeration | union => cases h

theorem Item.kind_symbol_ne (item : Item) : item.symbol.kind ≠ .error := by
  cases item <;> nofun

theorem Item.name_symbol (item : Item) : item.symbol.name = item.name := by
  cases item <;> rfl

def Item.addTo (classes : Table ClassInfo) (item : Item) : Table ClassInfo :=
  match item.class? with
  | some c => classes.insert c.name c.info
  | none => classes

namespace Binding

variable {s : State}

/-- What the declaration of a symbol leaves, whatever happens to the registry and however many
errors there are. -/
structure Declared (sym : Symbol) (s s' : State) : Prop where
  symbols : s'.symbols = s.symbols.add sym
  named : s.Named → s'.Named
  follows : ∀ tr, Follows s tr → Follows s' (tr ++ [.declare sym.name s.symbols.size])
  free : s'.errors = [] → s.errors = [] ∧ s.scopes.lookupLocal sym.name = none ∧
    s'.scopes = { s.scopes with inner := (sym.name, s.symbols.size) :: s.scopes.inner }

theorem declared_declare (sym : Symbol) (hkind : sym.kind ≠ .error) (s : State) :
    Declared sym s ((declare sym.name sym.kind sym.span).run s).2 where
  symbols := by
    rw [run_declare]
    dsimp only
    split <;> rfl
  named := keeps_declare sym.name sym.kind sym.span s
  follows := fun tr htr => htr.declare sym.name sym.span hkind
  free := by
    intro herrors
    obtain ⟨hs, hfree, hrun⟩ := declare_free herrors
    rw [hrun]
    exact ⟨hs, hfree, rfl⟩

theorem registry_declare (name : String) (kind : SymbolKind) (span : Span) (s : State) :
    ((declare name kind span).run s).2.registry = s.registry := by
  rw [run_declare]
  dsimp only
  split <;> rfl

theorem Declared.of_eq {sym : Symbol} {s s₁ s₂ : State} (h : Declared sym s s₁)
    (new : List BindError) (hsymbols : s₂.symbols = s₁.symbols) (hscopes : s₂.scopes = s₁.scopes)
    (herrors : s₂.errors = new ++ s₁.errors) (hfault : s₂.fault = s₁.fault) :
    Declared sym s s₂ where
  symbols := hsymbols.trans h.symbols
  named := by
    unfold State.Named
    rw [hsymbols, hscopes]
    exact h.named
  follows := fun tr htr =>
    (h.follows tr htr).of_eq hfault hscopes hsymbols (herrors ▸ subset_append_right new s₁.errors)
  free := by
    intro hnone
    rw [herrors] at hnone
    rw [hscopes]
    exact h.free (append_eq_nil_iff.mp hnone).2

theorem declared_declareSum (d : SumDef) (s : State) :
    Declared ⟨d.name, .type (.named d.name []), d.span⟩ s ((declareSum d).run s).2 ∧
      ((declareSum d).run s).2.registry.classes = s.registry.classes := by
  have hdeclared := declared_declare ⟨d.name, .type (.named d.name []), d.span⟩ nofun s
  have hclasses := congrArg Registry.classes (registry_declare d.name (.type (.named d.name [])) d.span s)
  obtain ⟨new, hnew⟩ := quiet_variants d.name d.variants [] ((declareType d.name d.span).run s).2
  -- The variants are in the registry in the end, and nothing else is changed but the errors.
  have hrun : ((declareSum d).run s).2 =
      let infos := ((variants d.name [] d.variants).run ((declareType d.name d.span).run s).2).1
      let s₂ := ((variants d.name [] d.variants).run ((declareType d.name d.span).run s).2).2
      { s₂ with registry :=
        { s₂.registry with sumTypes := s₂.registry.sumTypes.insert d.name infos } } := rfl
  rw [hrun, hnew]
  exact ⟨hdeclared.of_eq new rfl rfl rfl rfl, hclasses⟩

theorem declared_declareItem (item : Item) (s : State) :
    Declared item.symbol s ((declareItem item).run s).2 ∧
      ((declareItem item).run s).2.registry.classes = item.addTo s.registry.classes := by
  have hdeclared := declared_declare item.symbol item.kind_symbol_ne s
  have hclasses := congrArg Registry.classes
    (registry_declare item.symbol.name item.symbol.kind item.symbol.span s)
  cases item with
  | function f => exact ⟨hdeclared, hclasses⟩
  | classDef c =>
    exact ⟨hdeclared.of_eq [] rfl rfl rfl rfl, congrArg (Table.insert · c.name c.info) hclasses⟩
  | interface i => exact ⟨hdeclared.of_eq [] rfl rfl rfl rfl, hclasses⟩
  | enumeration d => exact declared_declareSum d s
  | union d => exact declared_declareSum d s

/-! ## All items -/

theorem run_declareItems_cons (item : Item) (items : List Item) (s : State) :
    (((item :: items).forM declareItem).run s).2 =
      ((items.forM declareItem).run ((declareItem item).run s).2).2 := rfl

theorem symbols_declareItems (items : List Item) (s : State) :
    ((items.forM declareItem).run s).2.symbols.symbols.toList =
      s.symbols.symbols.toList ++ items.map Item.symbol := by
  induction items generalizing s with
  | nil => exact (append_nil _).symm
  | cons item items ih =>
    rw [run_declareItems_cons, ih, (declared_declareItem item s).1.symbols, map_cons, append_cons,
      SymbolTable.add, Array.toList_push]

theorem named_declareItems (items : List Item) (hs : s.Named) :
    ((items.forM declareItem).run s).2.Named := by
  induction items generalizing s with
  | nil => exact hs
  | cons item items ih => exact ih ((declared_declareItem item s).1.named hs)

theorem follows_declareItems (items : List Item) {tr : Trace} (hs : Follows s tr) :
    ∃ ids new, ListTrace Declares (items.map Item.name) ids new ∧
      Follows ((items.forM declareItem).run s).2 (tr ++ new) := by
  induction items generalizing s tr with
  | nil => exact ⟨[], [], .nil, (append_nil tr).symm ▸ hs⟩
  | cons item items ih =>
    have hitem := (declared_declareItem item s).1.follows tr hs
    rw [item.name_symbol] at hitem
    obtain ⟨ids, new, hids, hfollows⟩ := ih hitem
    refine ⟨s.symbols.size :: ids, [.declare item.name s.symbols.size] ++ new, .cons rfl hids, ?_⟩
    rw [← append_assoc]
    exact hfollows

theorem classes_declareItems (items : List Item) (s : State) :
    ((items.forM declareItem).run s).2.registry.classes = items.foldl Item.addTo s.registry.classes := by
  induction items generalizing s with
  | nil => rfl
  | cons item items ih =>
    rw [run_declareItems_cons, ih, (declared_declareItem item s).2, foldl_cons]

theorem declareItems_free {items : List Item} (h : ((items.forM declareItem).run s).2.errors = []) :
    s.errors = [] ∧ (items.map Item.name).Nodup ∧
      (∀ item ∈ items, s.scopes.lookupLocal item.name = none) ∧
      ((items.forM declareItem).run s).2.scopes.outer = s.scopes.outer ∧
      ∀ name, ((items.forM declareItem).run s).2.scopes.lookupLocal name =
        ((items.findIdx? (·.name = name)).map (s.symbols.size + ·)).or (s.scopes.lookupLocal name) := by
  induction items generalizing s with
  | nil => exact ⟨h, nodup_nil, forall_mem_nil _, rfl, fun _ => rfl⟩
  | cons item items ih =>
    obtain ⟨hs₁, hnodup, hfree, houter, hlookup⟩ := ih (s := ((declareItem item).run s).2) h
    obtain ⟨hs, hname, hscopes⟩ := (declared_declareItem item s).1.free hs₁
    have hsize : ((declareItem item).run s).2.symbols.size = s.symbols.size + 1 := by
      rw [(declared_declareItem item s).1.symbols]
      exact Array.size_push _
    rw [item.name_symbol] at hname hscopes
    -- The other names were free behind the first declaration, so they differ from its name.
    have hothers (other : Item) (hother : other ∈ items) :
        other.name ≠ item.name ∧ s.scopes.lookupLocal other.name = none := by
      have hnone := hfree other hother
      rw [hscopes, Scopes.lookupLocal, Table.lookup_cons_ite] at hnone
      split at hnone
      · cases hnone
      · next hne => exact ⟨hne, hnone⟩
    refine ⟨hs, ?_, ?_, ?_, fun name => ?_⟩
    · refine nodup_cons.mpr ⟨fun hmem => ?_, hnodup⟩
      obtain ⟨other, hother, heq⟩ := mem_map.mp hmem
      exact (hothers other hother).1 heq
    · exact forall_mem_cons.mpr ⟨hname, fun other hother => (hothers other hother).2⟩
    · rw [hscopes] at houter
      exact houter
    · have hfirst : ((declareItem item).run s).2.scopes.lookupLocal name =
          if name = item.name then some s.symbols.size else s.scopes.lookupLocal name := by
        rw [hscopes, Scopes.lookupLocal, Table.lookup_cons_ite]
        rfl
      rw [run_declareItems_cons, hlookup, hsize, hfirst, findIdx?_cons]
      by_cases heq : item.name = name
      · have hnone : items.findIdx? (·.name = name) = none := by
          refine findIdx?_eq_none_iff.mpr fun other hother => ?_
          simpa [heq] using (hothers other hother).1
        simp [hnone, heq]
      · simp [heq, Ne.symm heq, Option.map_map, Function.comp_def, Nat.add_assoc, Nat.add_comm 1]

end Binding

open Binding

def Module.declared (m : Module) : State := ((m.items.forM declareItem).run {}).2

namespace Module

variable {m : Module}

theorem get?_declared (id : SymbolId) : m.declared.symbols.get? id = m.items[id]?.map Item.symbol := by
  have hsymbols := symbols_declareItems m.items {}
  have hget : m.declared.symbols.get? id = m.declared.symbols.symbols.toList[id]? :=
    Array.getElem?_toList.symm
  rw [hget, Module.declared, hsymbols]
  simp

theorem exists_class {name : String} {info : ClassInfo}
    (h : m.declared.registry.classes.get? name = some info) :
    ∃ before c after, m.classes = before ++ c :: after ∧ c.name = name ∧ c.info = info ∧
      ∀ c' ∈ after, c'.name ≠ name := by
  have hfold (items : List Item) (t : Table ClassInfo) : items.foldl Item.addTo t =
      ((items.filterMap Item.class?).map fun c => (c.name, c.info)).foldl
        (fun t (k, v) => t.insert k v) t := by
    induction items generalizing t with
    | nil => rfl
    | cons item items ih =>
      rw [foldl_cons, ih]
      cases item <;> rfl
  rw [Module.declared, classes_declareItems, hfold] at h
  exact Table.exists_last_of_get?_map h

theorem lookup_declared (h : m.declared.errors = []) (name : String) :
    m.declared.scopes.lookup name = m.items.findIdx? (·.name = name) := by
  obtain ⟨-, -, -, houter, hlookup⟩ := declareItems_free h
  have hscopes : m.declared.scopes.outer = [] := houter
  have hinner : m.declared.scopes.inner.lookup name = m.items.findIdx? (·.name = name) := by
    refine (hlookup name).trans ?_
    simp [Scopes.lookupLocal, SymbolTable.size]
  rw [Scopes.lookup, hscopes, findSome?_cons, hinner]
  cases m.items.findIdx? (·.name = name) <;> rfl

end Module

end TagLang
