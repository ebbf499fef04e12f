import TagLang.Api
import TagLang.Proofs.FrontEnd

/-! # Callers of a public function

Two versions of a module are compared by identifier, and callers find a function by its name. If
nothing that breaks is reported, a public function of the old version is still there with the same
parameters and the same result. It may have another name, or be a method now, and then its callers
do not find it.
-/

namespace TagLang
open List

namespace Binding

/-! ## Calls by name -/

section Calls

variable {m : Module} {s : State} {name id : String} {args : List Bound.Expr} {span : Span} {ty : Ty}

theorem run_report_ne (fault : BindFault) (span : Span) : (report fault span).run s ≠ ((), s) := by
  intro hrun
  have herrors := congrArg (fun r => r.2.errors.length) hrun
  exact Nat.succ_ne_self s.errors.length herrors

theorem run_expect_eq_iff (context : String) (ty : Ty) (arg : Bound.Expr) :
    (expect context ty arg).run s = ((), s) ↔ arg.fits ty = true := by
  unfold expect
  split
  · next hfits => exact iff_of_true rfl hfits
  · next hfits => exact iff_of_false (run_report_ne _ _) hfits

theorem Quiet.length_errors_le {α : Type} {x : Binder α} (hx : Quiet x) (s : State) :
    s.errors.length ≤ (x.run s).2.errors.length := by
  obtain ⟨new, hnew⟩ := hx s
  rw [hnew, length_append]
  exact Nat.le_add_left _ _

theorem run_andThen_eq_iff {x y : Binder Unit} (hx : Quiet x) (hy : Quiet y) :
    (do x; y : Binder Unit).run s = ((), s) ↔ x.run s = ((), s) ∧ y.run s = ((), s) := by
  have hrun : (do x; y : Binder Unit).run s = y.run (x.run s).2 := rfl
  rw [hrun]
  constructor
  · intro h
    have hstate : (x.run s).2 = s := by
      obtain ⟨new, hnew⟩ := hx s
      -- What the first check records stays recorded.
      have hle : new.length + s.errors.length ≤ s.errors.length := by
        have hlength := hy.length_errors_le (x.run s).2
        rw [h, hnew, length_append] at hlength
        exact hlength
      rw [hnew, eq_nil_of_length_eq_zero (Nat.le_zero.mp (add_le_iff_nonpos_left.mp hle))]
      rfl
    refine ⟨Prod.ext rfl hstate, ?_⟩
    rw [hstate] at h
    exact h
  · rintro ⟨hfirst, hrest⟩
    rw [hfirst]
    exact hrest

theorem run_expectArgs_eq_iff (tys : List Ty) :
    (expectArgs name tys args span).run s = ((), s) ↔
      Forall₂ (fun ty arg => arg.fits ty = true) tys args := by
  have hfrom (n : Nat) (hlength : tys.length = args.length) :
      (expectArgsFrom name n tys args).run s = ((), s) ↔
        Forall₂ (fun ty arg => arg.fits ty = true) tys args := by
    induction tys generalizing n args with
    | nil =>
      obtain rfl := eq_nil_of_length_eq_zero hlength.symm
      exact iff_of_true rfl .nil
    | cons ty tys ih =>
      obtain ⟨arg, args, rfl⟩ := exists_cons_of_length_eq_add_one hlength.symm
      rw [expectArgsFrom, run_andThen_eq_iff (quiet_expect _ _ _) (quiet_expectArgsFrom _ _ _ _),
        run_expect_eq_iff, ih (n + 1) (Nat.succ.inj hlength), forall₂_cons]
  unfold expectArgs
  split
  · next hlength => exact hfrom 1 hlength
  · next hlength => exact iff_of_false (run_report_ne _ _) fun hfits => hlength hfits.length_eq

/-- A call is bound without an error to the function of the module that has an identifier. -/
def BindsTo (s : State) (name : String) (args : List Bound.Expr) (span : Span) (id : String)
    (ty : Ty) : Prop :=
  ∃ symbol, (call name args span).run s = (.mk (.call name (.function symbol id) none args) ty span, s)

/-- A place where a module is in scope and nothing nearer hides what a name means in the module. -/
structure CallSite (m : Module) (name : String) (s : State) : Prop where
  grounded : s.Grounded m
  symbols : Extends m.declared.symbols s.symbols
  lookup : s.scopes.lookup name = m.declared.scopes.lookup name

theorem callSite_declared (m : Module) (name : String) : CallSite m name m.declared :=
  ⟨grounded_declared m, .refl _, rfl⟩

theorem CallSite.enter (hs : CallSite m name s) : CallSite m name (enter.run s).2 where
  grounded := ⟨keeps_enter s hs.grounded.named, hs.grounded.registry, hs.grounded.functions⟩
  symbols := hs.symbols
  lookup := hs.lookup

theorem CallSite.declareParam (hs : CallSite m name s) {p : Param} (hp : p.name ≠ name) :
    CallSite m name ((declareParam p).run s).2 where
  grounded := (binds_declare p.name p.ty.ty false true p.span s hs.grounded).grounded
  symbols := by
    have hsymbols := (declared_declare ⟨p.name, .var p.ty.ty false true, p.span⟩ nofun s).symbols
    exact hs.symbols.trans (hsymbols ▸ extends_add _ _)
  lookup := by
    rw [Binding.declareParam, run_declare, Scopes.declare, ← hs.lookup]
    cases s.scopes.lookupLocal p.name with
    | some previous => rfl
    | none =>
      simp only [Scopes.lookup, findSome?_cons, Table.lookup_cons_ite]
      rw [if_neg (Ne.symm hp)]

theorem run_call (hcut : Text.cutLast? '.' name = none) :
    (call name args span).run s =
      (.mk (.call name ((freeCallee name args span).run s).1.1 none args)
        ((freeCallee name args span).run s).1.2 span, ((freeCallee name args span).run s).2) := by
  unfold call
  rw [hcut]
  rfl

theorem run_freeCallee_function {symbol : SymbolId} {f : FunctionDef}
    (hlookup : s.scopes.lookup name = some symbol)
    (hsymbol : s.symbols.get? symbol = some f.symbol) :
    (freeCallee name args span).run s =
      ((.function symbol f.id, f.resultType), ((expectArgs name f.paramTypes args span).run s).2) := by
  have hcallable : (callable? name args span).run s =
      (some (.function symbol f.id, f.resultType),
        ((expectArgs name f.paramTypes args span).run s).2) := by
    simp only [callable?, lookup, bind_assoc, pure_bind, StateT.run_bind, StateT.run_get, hlookup,
      hsymbol, FunctionDef.symbol, map_map]
    rfl
  rw [freeCallee, StateT.run_bind, hcallable]
  rfl

theorem CallSite.run_call (hs : CallSite m name s) (herrors : m.declared.errors = [])
    (hcut : Text.cutLast? '.' name = none) {symbol : SymbolId} {f : FunctionDef}
    (hitem : m.items[symbol]? = some (.function f)) (hname : f.name = name) :
    (call name args span).run s = (.mk (.call name (.function symbol f.id) none args) f.resultType span,
      ((expectArgs name f.paramTypes args span).run s).2) := by
  obtain ⟨hlt, hget⟩ := List.getElem?_eq_some_iff.mp hitem
  have hlookup : s.scopes.lookup name = some symbol := by
    obtain ⟨-, hnodup, -⟩ := declareItems_free herrors
    have hat : m.items[symbol].name = name := by
      rw [hget]
      exact hname
    rw [hs.lookup, Module.lookup_declared herrors, findIdx?_eq_some_iff_getElem]
    refine ⟨hlt, decide_eq_true hat, fun j hj hother => ?_⟩
    -- No two items have the same name, so no earlier one has this name.
    rw [List.Nodup, pairwise_map] at hnodup
    exact pairwise_iff_getElem.mp hnodup j symbol _ hlt hj ((of_decide_eq_true hother).trans hat.symm)
  have hsymbol : s.symbols.get? symbol = some f.symbol := by
    refine hs.symbols symbol _ ?_
    rw [Module.get?_declared, hitem]
    rfl
  rw [Binding.run_call hcut, run_freeCallee_function hlookup hsymbol]

/-- A call by name is bound without an error exactly if there is a function of this name that takes
the arguments. -/
theorem CallSite.bindsTo_iff (hs : CallSite m name s) (herrors : m.declared.errors = [])
    (hcut : Text.cutLast? '.' name = none) :
    BindsTo s name args span id ty ↔ ∃ f ∈ m.functions, f.id = id ∧ f.name = name ∧ f.resultType = ty ∧
      Forall₂ (fun ty arg => arg.fits ty = true) f.paramTypes args := by
  constructor
  · rintro ⟨symbol, hrun⟩
    have hfinds : m.Finds name (.function symbol id) := by
      obtain ⟨-, -, -, -, hcallee⟩ := (binds_freeCallee (p := True) hcut s hs.grounded).trace
      rw [Binding.run_call hcut, Prod.mk.injEq, Bound.Expr.mk.injEq, Bound.ExprKind.call.injEq] at hrun
      rw [hrun.1.1.2.1] at hcallee
      exact hcallee
    obtain ⟨f, hitem, rfl, hname⟩ := hfinds
    rw [hs.run_call herrors hcut hitem hname, Prod.mk.injEq, Bound.Expr.mk.injEq] at hrun
    refine ⟨f, ?_, rfl, hname, hrun.1.2.1, (run_expectArgs_eq_iff f.paramTypes).mp (Prod.ext rfl hrun.2)⟩
    exact mem_filterMap.mpr ⟨_, mem_of_getElem? hitem, rfl⟩
  · rintro ⟨f, hf, rfl, hname, rfl, hfits⟩
    obtain ⟨item, hitem, hfunction⟩ := mem_filterMap.mp hf
    cases item <;> cases hfunction
    obtain ⟨symbol, hsymbol⟩ := mem_iff_getElem?.mp hitem
    refine ⟨symbol, ?_⟩
    rw [hs.run_call herrors hcut hsymbol hname, (run_expectArgs_eq_iff f.paramTypes).mpr hfits]

end Calls

end Binding

/-! ## Reports -/

namespace Api

variable {old new m : Module} {f : FunctionDef} {e : Entry}

theorem paramChanges_eq_nil_iff {as bs : List Param} (n : Nat) (hlength : as.length = bs.length) :
    paramChanges n as bs = [] ↔ as.map (fun p => (p.ty.ty, p.name)) = bs.map fun p =>
      (p.ty.ty, p.name) := by
  induction as generalizing n bs with
  | nil =>
    obtain rfl := eq_nil_of_length_eq_zero hlength.symm
    exact iff_of_true rfl rfl
  | cons a as ih =>
    obtain ⟨b, bs, rfl⟩ := exists_cons_of_length_eq_add_one hlength.symm
    rw [paramChanges, append_eq_nil_iff, append_eq_nil_iff, ih (n + 1) (Nat.succ.inj hlength)]
    simp

theorem changes_eq_nil_iff : changes f e = [] ↔ e.isPublic = true ∧
    f.params.map (fun p => (p.ty.ty, p.name)) = e.function.params.map (fun p => (p.ty.ty, p.name)) ∧
    f.resultType = e.function.resultType ∧ e.function.preconditions.length ≤ f.preconditions.length := by
  have hvisibility : visibilityChanges e = [] ↔ e.isPublic = true := by
    unfold visibilityChanges
    split
    · next hpublic => exact iff_of_true rfl hpublic
    · next hpublic => exact iff_of_false (by split <;> simp) hpublic
  have hparams : ((if f.params.length = e.function.params.length then [] else
        [s!"parameter count changed from {f.params.length} to {e.function.params.length}"]) = [] ∧
      paramChanges 1 f.params e.function.params = []) ↔
      f.params.map (fun p => (p.ty.ty, p.name)) = e.function.params.map fun p => (p.ty.ty, p.name) := by
    by_cases hlength : f.params.length = e.function.params.length
    · simp [hlength, paramChanges_eq_nil_iff 1 hlength]
    · refine iff_of_false (by simp [hlength]) fun hmap => hlength ?_
      simpa using congrArg List.length hmap
  simp only [changes, append_eq_nil_iff, hvisibility, and_assoc]
  rw [← and_assoc (b := paramChanges 1 f.params e.function.params = []), hparams]
  simp

theorem mem_changed_iff {found : List String} : (e, found) ∈ changed old new ↔ e ∈ surface new ∧
    ∃ before, find? (publicSurface old) e.id = some before ∧ changes before.function e = found ∧
      found ≠ [] := by
  unfold changed
  rw [mem_filterMap]
  constructor
  · rintro ⟨e', he', hfound⟩
    split at hfound
    · next before hbefore =>
      simp only [Option.ite_none_left_eq_some, Option.some.injEq, Prod.mk.injEq] at hfound
      obtain ⟨hne, rfl, rfl⟩ := hfound
      exact ⟨he', before, hbefore, rfl, by simpa using hne⟩
    · cases hfound
  · rintro ⟨he, before, hbefore, rfl, hne⟩
    refine ⟨e, he, ?_⟩
    rw [hbefore]
    simpa using hne

/-- No break is reported exactly if every public function of the old version is still there, and
nothing has changed for its callers. -/
theorem hasBreaking_eq_false_iff : (compareApis old new).report.hasBreaking = false ↔
    (∀ e ∈ surface new, ∀ before, find? (publicSurface old) e.id = some before →
      changes before.function e = []) ∧
    ∀ e ∈ publicSurface old, ∃ e' ∈ surface new, e'.id = e.id := by
  have hbreaking : (compareApis old new).report.breaking = [] ↔
      ∀ e ∈ surface new, ∀ before, find? (publicSurface old) e.id = some before →
        changes before.function e = [] := by
    simp only [compareApis, flatMap_eq_nil_iff, map_eq_nil_iff, Prod.forall, mem_changed_iff]
    constructor
    · intro h e he before hbefore
      by_contra hne
      exact hne (h e _ ⟨he, before, hbefore, rfl, hne⟩)
    · rintro h e found ⟨he, before, hbefore, rfl, -⟩
      exact h e he before hbefore
  have hremoved : (compareApis old new).report.removed = [] ↔
      ∀ e ∈ publicSurface old, ∃ e' ∈ surface new, e'.id = e.id := by
    simp [compareApis, removed, find?]
  rw [← hbreaking, ← hremoved, ApiReport.hasBreaking]
  simp

theorem ids_surface (m : Module) : (surface m).map Entry.id = m.allFunctions.map (·.id) := by
  simp [surface, Module.allFunctions, Entry.id, map_flatMap, Function.comp_def]

theorem mem_surface (hf : f ∈ m.functions) : ⟨f, f.isPublic⟩ ∈ surface m :=
  mem_append_left _ (mem_map_of_mem hf)

theorem ids_nodup (h : (m.allFunctions.map (·.id)).Nodup) : ((surface m).map Entry.id).Nodup := by
  rw [ids_surface]
  exact h

theorem publicIds_nodup (h : (m.allFunctions.map (·.id)).Nodup) :
    ((publicSurface m).map Entry.id).Nodup :=
  (ids_nodup h).sublist (filter_sublist.map Entry.id)

theorem mem_of_find?_eq_some {entries : List Entry} {id : String} (h : find? entries id = some e) :
    e ∈ entries ∧ e.id = id :=
  ⟨mem_reverse.mp (List.mem_of_find?_eq_some h), by simpa using find?_some h⟩

theorem find?_eq_some_of_nodup {entries : List Entry} (h : (entries.map Entry.id).Nodup)
    (he : e ∈ entries) : find? entries e.id = some e := by
  cases hfound : find? entries e.id with
  | none =>
    have hnone := find?_eq_none.mp hfound e (mem_reverse.mpr he)
    simp at hnone
  | some e' =>
    obtain ⟨he', hid⟩ := mem_of_find?_eq_some hfound
    rw [inj_on_of_nodup_map h he' he hid]

theorem unchanged_of_hasBreaking_eq_false (hids : (old.allFunctions.map (·.id)).Nodup)
    (h : (compareApis old new).report.hasBreaking = false) (he : e ∈ publicSurface old) :
    (∃ e' ∈ surface new, e'.id = e.id) ∧ ∀ e' ∈ surface new, e'.id = e.id →
      changes e.function e' = [] := by
  obtain ⟨hchanged, hremoved⟩ := hasBreaking_eq_false_iff.mp h
  refine ⟨hremoved e he, fun e' he' hid => hchanged e' he' e ?_⟩
  rw [hid]
  exact find?_eq_some_of_nodup (publicIds_nodup hids) he

end Api

open Binding

def Bound.Expr.FitsLike (a b : Bound.Expr) : Prop := ∀ ty, a.fits ty = b.fits ty

theorem Bound.Expr.FitsLike.forall₂ {tys : List Ty} {args args' : List Bound.Expr}
    (hargs : Forall₂ Bound.Expr.FitsLike args args')
    (h : Forall₂ (fun ty arg => arg.fits ty = true) tys args) :
    Forall₂ (fun ty arg => arg.fits ty = true) tys args' := by
  induction hargs generalizing tys with
  | nil => exact h
  | cons hlike _ ih =>
    cases h with
    | cons hfits hrest => exact .cons ((hlike _).symm.trans hfits) (ih hrest)

/-- If no break is reported, a public function is still there, public, with the same parameter types
and the same result type. What is bound to it by name is still bound to it, with any arguments that
fit alike, exactly if it is still a free function of the same name. -/
theorem call_preserved_iff_named {old new : Module} {oldOut newOut : BindOutput}
    (hold : bind old = .ok oldOut) (holdErrors : oldOut.errors = []) (hnew : bind new = .ok newOut)
    (hnewErrors : newOut.errors = []) (hids : (old.allFunctions.map (·.id)).Nodup)
    (hreport : (compareApis old new).report.hasBreaking = false) {f : FunctionDef}
    (hf : f ∈ old.functions) (hpublic : f.isPublic = true) {name : String}
    (hcut : Text.cutLast? '.' name = none) {s s' : State} (hs : CallSite old name s)
    (hs' : CallSite new name s') {args args' : List Bound.Expr}
    (hargs : Forall₂ Bound.Expr.FitsLike args args') {span span' : Span} {ty : Ty}
    (hcall : BindsTo s name args span f.id ty) :
    (∃ e ∈ Api.surface new, e.id = f.id ∧ e.isPublic = true ∧ e.function.paramTypes = f.paramTypes ∧
      e.function.resultType = f.resultType) ∧
    (BindsTo s' name args' span' f.id ty ↔ ∃ f' ∈ new.functions, f'.id = f.id ∧ f'.name = name) := by
  obtain ⟨⟨e, he, hid⟩, hunchanged⟩ := Api.unchanged_of_hasBreaking_eq_false hids hreport
    (mem_filter.mpr ⟨Api.mem_surface hf, hpublic⟩)
  have hsame (e : Api.Entry) (he : e ∈ Api.surface new) (hid : e.id = f.id) :
      e.isPublic = true ∧ e.function.paramTypes = f.paramTypes ∧
        e.function.resultType = f.resultType := by
    obtain ⟨hvisible, hparams, hresult, -⟩ := Api.changes_eq_nil_iff.mp (hunchanged e he hid)
    have htypes := congrArg (List.map Prod.fst) hparams
    rw [map_map, map_map] at htypes
    exact ⟨hvisible, htypes.symm, hresult.symm⟩
  refine ⟨⟨e, he, hid, hsame e he hid⟩, ?_⟩
  rw [hs'.bindsTo_iff (Module.errors_declared hnew hnewErrors) hcut]
  constructor
  · rintro ⟨f', hf', hid', hname', -⟩
    exact ⟨f', hf', hid', hname'⟩
  · rintro ⟨f', hf', hid', hname'⟩
    obtain ⟨f₀, hf₀, hid₀, -, rfl, hfits⟩ :=
      (hs.bindsTo_iff (Module.errors_declared hold holdErrors) hcut).mp hcall
    have heq : f₀ = f := by
      exact inj_on_of_nodup_map hids (mem_append_left _ hf₀) (mem_append_left _ hf) hid₀
    subst heq
    obtain ⟨-, htypes, hresult⟩ := hsame ⟨f', f'.isPublic⟩ (Api.mem_surface hf') hid'
    refine ⟨f', hf', hid', hname', hresult, ?_⟩
    rw [htypes]
    exact Bound.Expr.FitsLike.forall₂ hargs hfits

/-! ## Two next versions -/

structure Outline where
  id : String
  name : String
  isPublic : Bool
  params : List Ty
  result : Ty
deriving DecidableEq

def FunctionDef.outline (f : FunctionDef) : Outline :=
  ⟨f.id, f.name, f.isPublic, f.paramTypes, f.resultType⟩

def Module.inBody (m : Module) : State :=
  ((declareParam ⟨"x", ⟨"i32", .i32, default⟩, default⟩).run (enter.run m.declared).2).2

/-- The parameter as an argument: its symbol comes after those of the items. -/
def Module.argument (m : Module) : Bound.Expr := .mk (.var m.items.length) .i32 default

theorem callSite_inBody (m : Module) : CallSite m "add" m.inBody :=
  (callSite_declared m "add").enter.declareParam (by decide)

theorem cutLast?_add : Text.cutLast? '.' "add" = none := by decide +kernel

theorem Module.fitsLike_argument (m m' : Module) : m.argument.FitsLike m'.argument :=
  fun ty => by cases ty <;> rfl

theorem bindsTo_inBody_iff {m : Module} (herrors : m.declared.errors = []) {id : String} {ty : Ty} :
    BindsTo m.inBody "add" [m.argument] default id ty ↔
      ∃ o ∈ m.functions.map FunctionDef.outline, o.id = id ∧ o.name = "add" ∧ o.result = ty ∧
        Forall₂ (fun ty arg => arg.fits ty = true) o.params [m.argument] := by
  rw [(callSite_inBody m).bindsTo_iff herrors cutLast?_add]
  simp [FunctionDef.outline]

/-- Two versions without errors, each by the identifiers of all functions and by what callers know
of the free ones, and whether a break is reported. -/
def versions? (source source' : String) :
    Option ((List String × List Outline) × (List String × List Outline) × Bool) := do
  let (old, _) ← cleanFront? source
  let (new, _) ← cleanFront? source'
  return ((old.allFunctions.map (·.id), old.functions.map FunctionDef.outline),
    (new.allFunctions.map (·.id), new.functions.map FunctionDef.outline),
      (compareApis old new).report.hasBreaking)

theorem exists_versions {source source' : String} {ids ids' : List String}
    {outlines outlines' : List Outline} {hasBreaking : Bool}
    (h : versions? source source' = some ((ids, outlines), (ids', outlines'), hasBreaking)) :
    ∃ old oldOut new newOut, CleanFront source old oldOut ∧ CleanFront source' new newOut ∧
      old.allFunctions.map (·.id) = ids ∧ old.functions.map FunctionDef.outline = outlines ∧
      new.allFunctions.map (·.id) = ids' ∧ new.functions.map FunctionDef.outline = outlines' ∧
      (compareApis old new).report.hasBreaking = hasBreaking := by
  obtain ⟨⟨old, oldOut⟩, hold, h⟩ := Option.bind_eq_some_iff.mp h
  obtain ⟨⟨new, newOut⟩, hnew, h⟩ := Option.bind_eq_some_iff.mp h
  cases h
  exact ⟨old, oldOut, new, newOut, cleanFront?_eq_some hold, cleanFront?_eq_some hnew, rfl, rfl,
    rfl, rfl, rfl⟩

def publishedSource : String :=
  "§M\x7bm1:T\x7d\n§F\x7bf1:add:pub\x7d\n§I\x7bi32:a\x7d\n§/F\x7bf1\x7d\n§/M\x7bm1\x7d\n"

/-- Another function comes first. -/
def extendedSource : String :=
  "§M\x7bm1:T\x7d\n§F\x7bf0:zero:pub\x7d\n§/F\x7bf0\x7d\n" ++
  "§F\x7bf1:add:pub\x7d\n§I\x7bi32:a\x7d\n§/F\x7bf1\x7d\n§/M\x7bm1\x7d\n"

/-- The function has another name. -/
def renamedSource : String :=
  "§M\x7bm1:T\x7d\n§F\x7bf1:plus:pub\x7d\n§I\x7bi32:a\x7d\n§/F\x7bf1\x7d\n§/M\x7bm1\x7d\n"

set_option maxRecDepth 100000 in
theorem versions?_extended : versions? publishedSource extendedSource =
    some ((["f1"], [⟨"f1", "add", true, [.i32], .void⟩]),
      (["f0", "f1"], [⟨"f0", "zero", true, [], .void⟩, ⟨"f1", "add", true, [.i32], .void⟩]), false) := by
  decide +kernel

set_option maxRecDepth 100000 in
theorem versions?_renamed : versions? publishedSource renamedSource =
    some ((["f1"], [⟨"f1", "add", true, [.i32], .void⟩]),
      (["f1"], [⟨"f1", "plus", true, [.i32], .void⟩]), false) := by
  decide +kernel

/-- The published function is called in both versions, though by another symbol. -/
theorem call_preserved_iff_named_extended : ∃ old oldOut new newOut,
    CleanFront publishedSource old oldOut ∧ CleanFront extendedSource new newOut ∧
    (compareApis old new).report.hasBreaking = false ∧
    BindsTo old.inBody "add" [old.argument] default "f1" .void ∧
    BindsTo new.inBody "add" [new.argument] default "f1" .void := by
  obtain ⟨old, oldOut, new, newOut, hold, hnew, hids, houtlines, -, houtlines', hreport⟩ :=
    exists_versions versions?_extended
  have hcall : BindsTo old.inBody "add" [old.argument] default "f1" .void := by
    rw [bindsTo_inBody_iff (Module.errors_declared hold.bound hold.bindErrors), houtlines]
    exact ⟨_, mem_singleton_self _, rfl, rfl, rfl, .cons rfl .nil⟩
  have hmem : ⟨"f1", "add", true, [.i32], .void⟩ ∈ old.functions.map FunctionDef.outline := by
    simp [houtlines]
  have hmem' : ⟨"f1", "add", true, [.i32], .void⟩ ∈ new.functions.map FunctionDef.outline := by
    simp [houtlines']
  obtain ⟨f, hf, hf₁⟩ := mem_map.mp hmem
  obtain ⟨f', hf', hf₁'⟩ := mem_map.mp hmem'
  have hid : f.id = "f1" := congrArg Outline.id hf₁
  have hnodup : (old.allFunctions.map (·.id)).Nodup := by
    rw [hids]
    decide
  have hpreserved : BindsTo new.inBody "add" [new.argument] default f.id .void ↔
      ∃ f' ∈ new.functions, f'.id = f.id ∧ f'.name = "add" :=
    (call_preserved_iff_named hold.bound hold.bindErrors hnew.bound hnew.bindErrors hnodup hreport hf
      (congrArg Outline.isPublic hf₁) cutLast?_add (callSite_inBody old) (callSite_inBody new)
      (.cons (old.fitsLike_argument new) .nil) (hid.symm ▸ hcall)).2
  rw [hid] at hpreserved
  refine ⟨old, oldOut, new, newOut, hold, hnew, hreport, hcall, hpreserved.mpr ⟨f', hf', ?_, ?_⟩⟩
  · exact congrArg Outline.id hf₁'
  · exact congrArg Outline.name hf₁'

/-- A public function has another name in the next version. No break is reported, and what called it
by name is bound to no function any more. -/
theorem renamed_function_not_called : ∃ old oldOut new newOut,
    CleanFront publishedSource old oldOut ∧ CleanFront renamedSource new newOut ∧
    (old.allFunctions.map (·.id)).Nodup ∧ (new.allFunctions.map (·.id)).Nodup ∧
    (compareApis old new).report.hasBreaking = false ∧
    BindsTo old.inBody "add" [old.argument] default "f1" .void ∧
    ∀ id ty, ¬ BindsTo new.inBody "add" [new.argument] default id ty := by
  obtain ⟨old, oldOut, new, newOut, hold, hnew, hids, houtlines, hids', houtlines', hreport⟩ :=
    exists_versions versions?_renamed
  refine ⟨old, oldOut, new, newOut, hold, hnew, ?_, ?_, hreport, ?_, fun id ty => ?_⟩
  · rw [hids]
    decide
  · rw [hids']
    decide
  · rw [bindsTo_inBody_iff (Module.errors_declared hold.bound hold.bindErrors), houtlines]
    exact ⟨_, mem_singleton_self _, rfl, rfl, rfl, .cons rfl .nil⟩
  · rw [bindsTo_inBody_iff (Module.errors_declared hnew.bound hnew.bindErrors), houtlines']
    simp

end TagLang
