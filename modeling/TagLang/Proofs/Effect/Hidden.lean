import TagLang.Proofs.Effect.Fixpoint
import TagLang.Proofs.FrontEnd

/-! # Calls through variables

A variable can hold a function, and a call of the variable is a call of that function. The analysis
follows calls by name only. Where this loses nothing at any function, the stored sets are the
effects along all calls; elsewhere they are not.
-/

namespace TagLang.Bound
open List

/-- A part that calls the value of a variable. -/
inductive CallsValue : Node → SymbolId → Prop
  | mk (target : String) (x : SymbolId) (object : Option Expr) (args : List Expr) (ty : Ty)
    (span : Span) : CallsValue (.expr (.mk (.call target (.value x) object args) ty span)) x

/-- A variable is bound to an expression in a body, directly or through other variables. -/
inductive BoundTo (body : List Stmt) : SymbolId → Expr → Prop
  | direct {x : SymbolId} {e : Expr} {span : Span} (h : Occurs body (.stmt (.bind x e span))) :
    BoundTo body x e
  | through {x y : SymbolId} {e : Expr} {ty : Ty} {loc span : Span}
    (h : Occurs body (.stmt (.bind x (.mk (.var y) ty loc) span))) (hy : BoundTo body y e) :
    BoundTo body x e

def Module.Alias (m : Module) (body : List Stmt) (x : SymbolId) (id : String) : Prop :=
  ∃ symbol ty span s params returnType, BoundTo body x (.mk (.var symbol) ty span) ∧
    m.symbols.get? symbol = some s ∧ s.kind = .function id params returnType

def Module.CallsAlias (m : Module) (f : Function) (id : String) : Prop :=
  ∃ n x, Occurs f.body n ∧ CallsValue n x ∧ m.Alias f.body x id

def Module.CallsAnything (m : Module) (f : Function) : Prop :=
  ∃ n x s, Occurs f.body n ∧ CallsValue n x ∧ m.symbols.get? x = some s ∧ s.ty = .unknown

/-- What a call by name contributes: what the function declares, or else what was found for it. -/
inductive Module.CallEffects (m : Module) (catalog : Catalog) (id : String) : EffectSet → Prop
  | missing (h : m.function? id = none) : CallEffects m catalog id .unknown
  | declared {g : Function} (h : m.function? id = some g) (hd : g.declaredEffects ≠ none) :
    CallEffects m catalog id g.declaredSet
  | inferred {g : Function} {set : EffectSet} (h : m.function? id = some g)
      (hd : g.declaredEffects = none)
      (hset : (analyzeEffects m catalog).effects.get? g.id = some set) : CallEffects m catalog id set

/-- The set stored for a function has what its calls of variables would contribute as calls by name,
and is unknown if nothing is known of such a variable. -/
structure Module.HidesNothing (m : Module) (catalog : Catalog) (f : Function) (set : EffectSet) :
    Prop where
  held : ∀ id part, m.CallsAlias f id → m.CallEffects catalog id part → part.subset set = true
  anything : m.CallsAnything f → set = .unknown

/-! ## Effects along all calls -/

def Module.Invokes (m : Module) (f g : Function) : Prop :=
  m.Calls f g ∨ ∃ id, m.CallsAlias f id ∧ m.function? id = some g

def Module.InvokesUndeclared (m : Module) (f g : Function) : Prop :=
  m.Invokes f g ∧ g.declaredEffects = none

/-- What a function contributes without the bodies of other functions, if calls of variables count. -/
inductive Module.ContributesAll (m : Module) (catalog : Catalog) (f : Function) : EffectSet → Prop
  | performed {set : EffectSet} (h : m.Performs catalog f set) : ContributesAll m catalog f set
  | missing {id : String} (hc : m.CallsAlias f id) (h : m.function? id = none) :
    ContributesAll m catalog f .unknown
  | anything (h : m.CallsAnything f) : ContributesAll m catalog f .unknown
  | declared {g : Function} (hc : m.Invokes f g) (hd : g.declaredEffects ≠ none) :
    ContributesAll m catalog f g.declaredSet

def Module.InvokedPart (m : Module) (catalog : Catalog) (f : Function) (set : EffectSet) : Prop :=
  ∃ g, Relation.ReflTransGen m.InvokesUndeclared f g ∧ m.ContributesAll catalog g set

variable {m : Module} {catalog : Catalog} {f g : Function} {set part : EffectSet} {x : Option Effect}

theorem exists_stored (catalog : Catalog) (hids : (m.functions.map (·.id)).Nodup) (hf : f ∈ m.functions) :
    ∃ set, (analyzeEffects m catalog).effects.get? f.id = some set ∧
      set.IsUnion (m.ReachedPart catalog f) := by
  obtain ⟨found, hmem, hunion⟩ := exists_findings hids catalog hf
  exact ⟨found.toSet, get?_analyzeEffects hids hmem, hunion⟩

theorem mem_of_invokes (h : m.Invokes f g) : g ∈ m.functions := by
  rcases h with ⟨n, id, -, -, hg⟩ | ⟨id, -, hg⟩
  · exact mem_of_function? hg
  · exact mem_of_function? hg

theorem invokedPart_of_reachedPart (h : m.ReachedPart catalog f set) : m.InvokedPart catalog f set := by
  obtain ⟨g, hfg, hset⟩ := h
  have hpath : Relation.ReflTransGen m.InvokesUndeclared f g :=
    hfg.lift id fun _ _ hcall => ⟨.inl hcall.1, hcall.2⟩
  rcases hset with hset | ⟨k, hcalls, hd, rfl⟩
  · exact ⟨g, hpath, .performed hset⟩
  · exact ⟨g, hpath, .declared (.inl hcalls) hd⟩

theorem InvokedPart.head (hcall : m.InvokesUndeclared f g) (h : m.InvokedPart catalog g set) :
    m.InvokedPart catalog f set := by
  obtain ⟨k, hgk, hset⟩ := h
  exact ⟨k, hgk.head hcall, hset⟩

section Stored

variable (hids : (m.functions.map (·.id)).Nodup) (hf : f ∈ m.functions)
  (hset : (analyzeEffects m catalog).effects.get? f.id = some set)

include hids hf hset

theorem covers_stored_iff : set.Covers x ↔ ∃ part, m.ReachedPart catalog f part ∧ part.Covers x := by
  obtain ⟨stored, hstored, hunion⟩ := exists_stored catalog hids hf
  cases hset.symm.trans hstored
  exact hunion.covers_iff x

theorem covers_of_invokes (hhides : m.HidesNothing catalog f set) (hcall : m.InvokesUndeclared f g)
    (hg : (analyzeEffects m catalog).effects.get? g.id = some part) (hx : part.Covers x) :
    set.Covers x := by
  obtain ⟨hcalls | ⟨id, halias, hid⟩, hd⟩ := hcall
  · obtain ⟨piece, ⟨k, hgk, hpiece⟩, hx⟩ :=
      (covers_stored_iff hids (mem_of_invokes (.inl hcalls)) hg).mp hx
    exact (covers_stored_iff hids hf hset).mpr ⟨piece, ⟨k, hgk.head ⟨hcalls, hd⟩, hpiece⟩, hx⟩
  · exact EffectSet.subset_iff.mp (hhides.held id part halias (.inferred hid hd hg)) x hx

theorem covers_of_contributesAll (hhides : m.HidesNothing catalog f set)
    (hpart : m.ContributesAll catalog f part) (hx : part.Covers x) : set.Covers x := by
  have hown {piece : EffectSet} (hpiece : m.Contributes catalog f piece) (hx : piece.Covers x) :
      set.Covers x :=
    (covers_stored_iff hids hf hset).mpr ⟨piece, ⟨f, .refl, hpiece⟩, hx⟩
  cases hpart with
  | performed h => exact hown (.inl h) hx
  | missing hc h => exact EffectSet.subset_iff.mp (hhides.held _ _ hc (.missing h)) x hx
  | anything h => rw [hhides.anything h]; trivial
  | declared hc hd =>
    rcases hc with hcalls | ⟨id, halias, hid⟩
    · exact hown (.inr ⟨_, hcalls, hd, rfl⟩) hx
    · exact EffectSet.subset_iff.mp (hhides.held id _ halias (.declared hid hd)) x hx

end Stored

/-- If no function hides anything, then what is stored covers all that is reached along all calls. -/
theorem covers_of_invokedPart (hids : (m.functions.map (·.id)).Nodup)
    (hhides : ∀ f ∈ m.functions, ∀ set, (analyzeEffects m catalog).effects.get? f.id = some set →
      m.HidesNothing catalog f set)
    (hf : f ∈ m.functions) (hset : (analyzeEffects m catalog).effects.get? f.id = some set)
    (hpart : m.InvokedPart catalog f part) (hx : part.Covers x) : set.Covers x := by
  obtain ⟨g, hfg, hg⟩ := hpart
  induction hfg using Relation.ReflTransGen.head_induction_on generalizing set with
  | refl => exact covers_of_contributesAll hids hf hset (hhides _ hf _ hset) hg hx
  | @head f k hcall _ ih =>
    have hk : k ∈ m.functions := mem_of_invokes hcall.1
    obtain ⟨stored, hstored, -⟩ := exists_stored catalog hids hk
    exact covers_of_invokes hids hf hset (hhides _ hf _ hset) hcall hstored (ih hk hstored)

theorem hidesNothing_of_isUnion
    (hunion : ∀ f ∈ m.functions, ∃ set, (analyzeEffects m catalog).effects.get? f.id = some set ∧
      set.IsUnion (m.InvokedPart catalog f))
    (hf : f ∈ m.functions) (hset : (analyzeEffects m catalog).effects.get? f.id = some set) :
    m.HidesNothing catalog f set := by
  obtain ⟨stored, hstored, hf⟩ := hunion f hf
  cases hset.symm.trans hstored
  have hown {piece : EffectSet} (hpiece : m.ContributesAll catalog f piece) :
      piece.subset set = true :=
    EffectSet.subset_iff.mpr fun x hx => (hf.covers_iff x).mpr ⟨piece, ⟨f, .refl, hpiece⟩, hx⟩
  constructor
  · intro id part halias hpart
    cases hpart with
    | missing h => exact hown (.missing halias h)
    | declared h hd => exact hown (.declared (.inr ⟨id, halias, h⟩) hd)
    | @inferred g _ h hd hg =>
      -- What is stored for the function behind the variable is a union along all calls as well.
      obtain ⟨stored, hstored, hg'⟩ := hunion g (mem_of_function? h)
      cases hg.symm.trans hstored
      apply EffectSet.subset_iff.mpr
      intro x hx
      obtain ⟨piece, hpiece, hx⟩ := (hg'.covers_iff x).mp hx
      exact (hf.covers_iff x).mpr ⟨piece, InvokedPart.head ⟨.inr ⟨id, halias, h⟩, hd⟩ hpiece, hx⟩
  · intro hany
    have hsubset := EffectSet.subset_iff.mp (hown (.anything hany)) none trivial
    exact EffectSet.covers_none_iff.mp hsubset

/-- What is stored for every function is the union of what is contributed along all calls, calls of
variables included, exactly if no function hides what its calls of variables contribute. -/
theorem effects_along_all_calls_iff (m : Module) (catalog : Catalog)
    (hids : (m.functions.map (·.id)).Nodup) :
    (∀ f ∈ m.functions, ∃ set, (analyzeEffects m catalog).effects.get? f.id = some set ∧
      set.IsUnion (m.InvokedPart catalog f)) ↔
    ∀ f ∈ m.functions, ∃ set, (analyzeEffects m catalog).effects.get? f.id = some set ∧
      m.HidesNothing catalog f set := by
  constructor
  · intro hunion f hf
    obtain ⟨set, hset, -⟩ := hunion f hf
    exact ⟨set, hset, hidesNothing_of_isUnion hunion hf hset⟩
  · intro hhides f hf
    have hall : ∀ f ∈ m.functions, ∀ set, (analyzeEffects m catalog).effects.get? f.id = some set →
        m.HidesNothing catalog f set := by
      intro f hf set hset
      obtain ⟨stored, hstored, hnothing⟩ := hhides f hf
      cases hset.symm.trans hstored
      exact hnothing
    obtain ⟨set, hset, hunion⟩ := exists_stored catalog hids hf
    refine ⟨set, hset, hunion.canonical, fun x => ?_⟩
    constructor
    · intro hx
      obtain ⟨part, hpart, hx⟩ := (hunion.covers_iff x).mp hx
      exact ⟨part, invokedPart_of_reachedPart hpart, hx⟩
    · rintro ⟨part, hpart, hx⟩
      exact covers_of_invokedPart hids hall hf hset hpart hx

def copied? : Stmt → Option (SymbolId × SymbolId)
  | .bind x (.mk (.var y) _ _) _ => some (x, y)
  | _ => none

def calledVar? : Stmt → Option SymbolId
  | .call (.mk (.call _ (.value x) _ _) _ _) _ => some x
  | _ => none

theorem occurs_of_copied {body : List Stmt} {x y : SymbolId} (h : (x, y) ∈ body.filterMap copied?) :
    ∃ ty loc span, Occurs body (.stmt (.bind x (.mk (.var y) ty loc) span)) := by
  obtain ⟨s, hs, hcopied⟩ := mem_filterMap.mp h
  unfold copied? at hcopied
  split at hcopied
  · cases hcopied
    exact ⟨_, _, _, _, hs, .refl⟩
  · cases hcopied

theorem callsValue_of_calledVar {body : List Stmt} {x : SymbolId}
    (h : x ∈ body.filterMap calledVar?) : ∃ n, Occurs body n ∧ CallsValue n x := by
  obtain ⟨s, hs, hcalled⟩ := mem_filterMap.mp h
  unfold calledVar? at hcalled
  split at hcalled
  · cases hcalled
    exact ⟨_, ⟨_, hs, .single (mem_singleton_self _)⟩, .mk _ _ _ _ _ _⟩
  · cases hcalled

/-- `main` calls `shout`, which raises an exception, through two variables, and `other` calls a
variable of which nothing is known. -/
def hiddenSource : String :=
  "§M\x7bm1:T\x7d\n§F\x7bf1:shout\x7d\n§TH 1\n§/F\x7bf1\x7d\n" ++
  "§F\x7bf2:main\x7d\n§B\x7bp\x7d shout\n§B\x7bq\x7d p\n§C\x7bq\x7d §/C\n§/F\x7bf2\x7d\n" ++
  "§F\x7bf3:other\x7d\n§B\x7bu\x7d Math.PI\n§C\x7bu\x7d §/C\n§/F\x7bf3\x7d\n§/M\x7bm1\x7d\n"

set_option maxRecDepth 100000 in
set_option synthInstance.maxSize 1000 in
theorem effects_hiddenSource :
    (cleanFront? hiddenSource).map (fun (_, out) =>
      ((analyzeEffects out.module {}).effects.entries,
        out.module.functions.map fun f => (f.id, f.declaredEffects.isNone,
          f.body.filterMap copied?, f.body.filterMap calledVar?),
        (out.module.symbols.get? 0).map (·.kind), (out.module.symbols.get? 5).map (·.ty))) =
    some ([("f1", .known [.throwing]), ("f2", .empty), ("f3", .empty)],
      [("f1", true, [], []), ("f2", true, [(3, 0), (4, 3)], [4]), ("f3", true, [], [5])],
      some (.function "f1" [] .void), some .unknown) := by
  decide +kernel

theorem exists_hidden : ∃ tree out main other, CleanFront hiddenSource tree out ∧
    (out.module.functions.map (·.id)).Nodup ∧
    (main ∈ out.module.functions ∧ (analyzeEffects out.module {}).effects.get? main.id = some .empty ∧
      out.module.CallsAlias main "f1" ∧ out.module.CallEffects {} "f1" (.known [.throwing])) ∧
    other ∈ out.module.functions ∧ (analyzeEffects out.module {}).effects.get? other.id = some .empty ∧
      out.module.CallsAnything other := by
  obtain ⟨⟨tree, out⟩, hfront, hout⟩ := Option.map_eq_some_iff.mp effects_hiddenSource
  simp only [Prod.mk.injEq, map_eq_cons_iff, map_eq_nil_iff] at hout
  obtain ⟨hentries, ⟨shout, _, hfunctions, ⟨hid, hnone, -⟩, main, _, rfl,
    ⟨hmain, -, hcopied, hcalled⟩, other, _, rfl, ⟨hother, -, -, hvalue⟩, rfl⟩, hkind, hty⟩ := hout
  have hget (id : String) : (analyzeEffects out.module {}).effects.get? id =
      lookup id [("f1", .known [.throwing]), ("f2", .empty), ("f3", .empty)] := congrArg _ hentries
  obtain ⟨symbol, hsymbol, hkind⟩ := Option.map_eq_some_iff.mp hkind
  obtain ⟨u, hu, hty⟩ := Option.map_eq_some_iff.mp hty
  have halias : out.module.CallsAlias main "f1" := by
    obtain ⟨n, hn, hc⟩ := callsValue_of_calledVar (hcalled ▸ mem_singleton_self 4)
    obtain ⟨_, _, _, hp⟩ := @occurs_of_copied main.body 3 0 (by simp [hcopied])
    obtain ⟨_, _, _, hq⟩ := @occurs_of_copied main.body 4 3 (by simp [hcopied])
    exact ⟨n, 4, hn, hc, 0, _, _, symbol, _, _, .through hq (.direct hp), hsymbol, hkind⟩
  have heffects : out.module.CallEffects {} "f1" (.known [.throwing]) := by
    refine .inferred (g := shout) ?_ (Option.isNone_iff_eq_none.mp hnone) ?_
    · simp [Module.function?, hfunctions, hid]
    · rw [hget, hid]
      rfl
  have hanything : out.module.CallsAnything other := by
    obtain ⟨n, hn, hc⟩ := callsValue_of_calledVar (hvalue ▸ mem_singleton_self 5)
    exact ⟨n, 5, u, hn, hc, hu, hty⟩
  refine ⟨tree, out, main, other, cleanFront?_eq_some hfront, ?_, ⟨?_, ?_, halias, heffects⟩, ?_,
    ?_, hanything⟩
  · rw [hfunctions]
    simp [hid, hmain, hother]
  · simp [hfunctions]
  · rw [hget, hmain]
    rfl
  · simp [hfunctions]
  · rw [hget, hother]
    rfl

theorem effects_along_all_calls_hidden : ∃ tree out, CleanFront hiddenSource tree out ∧
    (out.module.functions.map (·.id)).Nodup ∧
    ¬∀ f ∈ out.module.functions, ∃ set, (analyzeEffects out.module {}).effects.get? f.id = some set ∧
      set.IsUnion (out.module.InvokedPart {} f) := by
  obtain ⟨tree, out, main, -, hfront, hids, ⟨hmain, hstored, halias, heffects⟩, -⟩ := exists_hidden
  refine ⟨tree, out, hfront, hids, fun hunion => ?_⟩
  obtain ⟨set, hset, hhides⟩ := (effects_along_all_calls_iff out.module {} hids).mp hunion main hmain
  cases hset.symm.trans hstored
  exact absurd (hhides.held "f1" _ halias heffects) (by decide)

/-- A function that calls a raising function through variables is stored as pure, and so is one that
calls a variable of which nothing is known. -/
theorem variable_calls_stored_pure : ∃ tree out main other, CleanFront hiddenSource tree out ∧
    (main ∈ out.module.functions ∧ out.module.CallsAlias main "f1" ∧
      out.module.CallEffects {} "f1" (.known [.throwing]) ∧
      (analyzeEffects out.module {}).effects.get? main.id = some .empty) ∧
    other ∈ out.module.functions ∧ out.module.CallsAnything other ∧
      (analyzeEffects out.module {}).effects.get? other.id = some .empty := by
  obtain ⟨tree, out, main, other, hfront, -, ⟨hmain, hstored, halias, heffects⟩, hother, hpure,
      hanything⟩ :=
    exists_hidden
  exact ⟨tree, out, main, other, hfront, ⟨hmain, halias, heffects, hstored⟩, hother, hanything, hpure⟩

end TagLang.Bound
