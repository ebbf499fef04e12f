import TagLang.Compile
import TagLang.Proofs.Binding.Scoping
import TagLang.Proofs.Grammar.Module

/-! # The front end

Reading and binding recover from every error, and leave placeholders where they did. Contracts are
verified after a clean front end only, which leaves none.
-/

namespace TagLang
open List

theorem Bag.list_extend (b : Bag) (ds : List Diagnostic) :
    (b.extend ds).list = b.list ++ ds.map fun d => { d with file := d.file <|> b.file } := by
  induction ds generalizing b with
  | nil => exact (append_nil _).symm
  | cons d ds ih =>
    have hfile : (b.push d).file = b.file := rfl
    have hpush : (b.push d).list = b.list ++ [{ d with file := d.file <|> b.file }] := rfl
    have hextend : b.extend (d :: ds) = (b.push d).extend ds := rfl
    rw [hextend, ih, hfile, hpush, append_assoc]
    rfl

theorem Bag.hasErrors_extend (b : Bag) (ds : List Diagnostic) :
    (b.extend ds).hasErrors = (b.hasErrors || ds.any (·.isError)) := by
  rw [hasErrors, list_extend, any_append, any_map]
  rfl

theorem any_isError {α : Type} {diagnostic : α → Diagnostic}
    (h : ∀ a, (diagnostic a).isError = true) (as : List α) :
    (as.map diagnostic).any (·.isError) = !as.isEmpty := by
  cases as with
  | nil => rfl
  | cons a as => rw [map_cons, any_cons, h a, Bool.true_or, isEmpty_cons, Bool.not_false]

theorem LexError.isError_diagnostic (e : LexError) : e.diagnostic.isError = true := rfl

theorem ParseError.isError_diagnostic (e : ParseError) : e.diagnostic.isError = true := by
  unfold ParseError.diagnostic
  cases e.fault <;> rfl

theorem BindError.isError_diagnostic (e : BindError) : e.diagnostic.isError = true := by
  unfold BindError.diagnostic
  cases e.suggestion? <;> cases e.fault <;> rfl

theorem any_isError_catalog (es : List CatalogError) :
    (es.map fun e => (EffectError.ofCatalog e).diagnostic).any (·.isError) = false := by
  rw [any_map, any_eq_false]
  intro e _
  exact Bool.false_ne_true

theorem hasErrors_front {options : Options} {out : ParseOutput} {file : Option String}
    {bindErrors : List BindError} :
    ((Bag.extend { file } (frontDiagnostics options out)).extend
      (bindErrors.map (·.diagnostic))).hasErrors = false ↔
      out.lexErrors = [] ∧ out.errors = [] ∧ bindErrors = [] := by
  rw [Bag.hasErrors_extend, Bag.hasErrors_extend, frontDiagnostics, any_append, any_append,
    any_isError_catalog, any_isError LexError.isError_diagnostic,
      any_isError ParseError.isError_diagnostic,
    any_isError BindError.isError_diagnostic]
  simp [Bag.hasErrors, and_assoc]

/-- The stages before the analyses find no error in a source text. -/
structure CleanFront (source : String) (tree : Module) (out : BindOutput) : Prop where
  lexErrors : (parse source).lexErrors = []
  errors : (parse source).errors = []
  read : (parse source).module = some tree
  bound : bind tree = .ok out
  bindErrors : out.errors = []

theorem CleanFront.clean {source : String} {tree : Module} {out : BindOutput}
    (h : CleanFront source tree out) : tree.Clean ∧ out.module.Clean := by
  obtain ⟨tree', htree, hclean⟩ := parse_clean h.errors
  cases h.read.symm.trans htree
  exact ⟨hclean, (bind_clean hclean h.bound h.bindErrors).1⟩

def cleanFront? (source : String) : Option (Module × BindOutput) := do
  let front := parse source
  let tree ← front.module
  let out ← (bind tree).toOption
  if front.lexErrors.isEmpty && front.errors.isEmpty && out.errors.isEmpty then some (tree, out) else none

theorem cleanFront?_eq_some {source : String} {tree : Module} {out : BindOutput}
    (h : cleanFront? source = some (tree, out)) : CleanFront source tree out := by
  unfold cleanFront? at h
  obtain ⟨tree', htree, h⟩ := Option.bind_eq_some_iff.mp h
  obtain ⟨out', hout, h⟩ := Option.bind_eq_some_iff.mp h
  simp only [Option.ite_none_right_eq_some, Option.some.injEq, Prod.mk.injEq, Bool.and_eq_true,
    List.isEmpty_iff] at h
  obtain ⟨⟨⟨hlex, herrors⟩, hbind⟩, rfl, rfl⟩ := h
  refine ⟨hlex, herrors, htree, ?_, hbind⟩
  cases hbound : bind tree' with
  | error e =>
    rw [hbound] at hout
    cases hout
  | ok bound =>
    rw [hbound] at hout
    cases hout
    rfl

section Pipeline

variable {m : Type → Type} [Monad m] [LawfulMonad m]

theorem analyze_verifies (options : Options) (solver : Solver m) (bag : Bag) (module : Bound.Module) :
    ∃ finish : Option Contract.Report → Compilation, (∀ report, (finish report).verification = report) ∧
      analyze options (some solver) bag module =
        if bag.hasErrors then pure (finish none)
          else (finish ∘ some) <$> verifyContracts module solver := by
  refine ⟨fun verification =>
    let effects := if options.effects then analyzeEffects module options.catalog else {}
    let patterns := if options.coverage then checkMatches module else []
    let found := effects.errors.map (·.diagnostic) ++ patterns.map (·.diagnostic) ++
      ((verification.map (·.errors)).getD []).map (·.diagnostic)
    ⟨some module, effects.effects, (bag.extend found).sort, verification⟩, fun _ => rfl, ?_⟩
  unfold analyze
  cases bag.hasErrors with
  | true => exact pure_bind _ _
  | false =>
    rw [← bind_pure_comp]
    simp only [Bool.false_eq_true, if_false, map_eq_pure_bind, bind_assoc, pure_bind, Function.comp]

def frontBag (source : String) (file : Option String) (options : Options) (out : BindOutput) : Bag :=
  (Bag.extend { file } (frontDiagnostics options (parse source))).extend (out.errors.map (·.diagnostic))

theorem compileWith_of_bound {source : String} {tree : Module} {out : BindOutput}
    {solver : Option (Solver m)} (htree : (parse source).module = some tree)
    (hout : bind tree = .ok out) (file : Option String) (options : Options) :
    compileWith source file options solver =
      .ok <$> analyze options solver (frontBag source file options out) out.module := by
  unfold compileWith frontBag
  simp only [htree, hout, bind_pure_comp]

theorem frontBag_hasErrors {source : String} {tree : Module} {out : BindOutput}
    (htree : (parse source).module = some tree) (hout : bind tree = .ok out) (file : Option String)
    (options : Options) :
    (frontBag source file options out).hasErrors = false ↔ ∃ tree out, CleanFront source tree out := by
  refine hasErrors_front.trans
    ⟨fun ⟨hlex, herrors, hbind⟩ => ⟨tree, out, hlex, herrors, htree, hout, hbind⟩, ?_⟩
  rintro ⟨tree', out', hfront⟩
  cases htree.symm.trans hfront.read
  cases hout.symm.trans hfront.bound
  exact ⟨hfront.lexErrors, hfront.errors, hfront.bindErrors⟩

/-- A source text in which parsing finds no error is read as a module without placeholders, and
binding makes none unless it finds an error. Compiling verifies the contracts exactly if none of
these stages finds an error, and then those of a bound module without placeholders. -/
theorem compileWith_verifies_clean (source : String) (file : Option String) (options : Options)
    (solver : Solver m) : ((parse source).errors = [] →
      ∃ tree out, (parse source).module = some tree ∧ tree.Clean ∧ bind tree = .ok out ∧
        (out.errors = [] → out.module.Clean)) ∧
    ∃ finish : Option Contract.Report → Compilation, (∀ report, (finish report).verification = report) ∧
      ((∃ tree out, CleanFront source tree out ∧ tree.Clean ∧ out.module.Clean ∧
          compileWith source file options (some solver) =
            (fun report => .ok (finish (some report))) <$> verifyContracts out.module solver) ∨
        (¬∃ tree out, CleanFront source tree out) ∧
          compileWith source file options (some solver) = pure (.ok (finish none))) := by
  refine ⟨fun herrors => ?_, ?_⟩
  · obtain ⟨tree, htree, hclean⟩ := parse_clean herrors
    obtain ⟨out, hout⟩ := bind_ok tree
    exact ⟨tree, out, htree, hclean, hout, fun h => (bind_clean hclean hout h).1⟩
  · cases htree : (parse source).module with
    | none =>
      refine ⟨fun report =>
        { diagnostics := (Bag.extend { file } (frontDiagnostics options (parse source))).sort
          verification := report }, fun _ => rfl, .inr ⟨?_, ?_⟩⟩
      · rintro ⟨tree, out, hfront⟩
        cases htree.symm.trans hfront.read
      · unfold compileWith
        simp only [htree]
    | some tree =>
      obtain ⟨out, hout⟩ := bind_ok tree
      obtain ⟨finish, hfinish, hanalyze⟩ :=
        analyze_verifies options solver (frontBag source file options out) out.module
      -- Whether contracts are verified is decided by the diagnostics before the analyses.
      have hclean := frontBag_hasErrors htree hout file options
      refine ⟨finish, hfinish, ?_⟩
      rw [compileWith_of_bound htree hout, hanalyze]
      split
      · next hbag => exact .inr ⟨fun h => by simp [hclean.mpr h] at hbag, map_pure _ _⟩
      · next hbag =>
        obtain ⟨tree', out', hfront⟩ := hclean.mp (Bool.eq_false_iff.mpr hbag)
        cases htree.symm.trans hfront.read
        cases hout.symm.trans hfront.bound
        exact .inl ⟨tree, out, hfront, hfront.clean.1, hfront.clean.2, Functor.map_map _ _ _⟩

end Pipeline

/-- Returns whether both arguments hold, of which the first one does. -/
def bothSource : String :=
  "§M\x7bm1:T\x7d\n§F\x7bf1:both\x7d\n§I\x7bbool:a\x7d\n§I\x7bbool:b\x7d\n§O\x7bbool\x7d\n§Q a\n" ++
  "§S (result == b)\n§S (result == a)\n§R (a && b)\n§/F\x7bf1\x7d\n§/M\x7bm1\x7d\n"

set_option maxRecDepth 100000 in
theorem outcomes_both :
    (cleanFront? bothSource).bind (fun (_, out) => out.module.functions.head?.map fun f =>
      (Id.run (Contract.verifyFunction out.module.symbols (Search.solver 16) f)).results.map
        (·.outcome)) =
    some [.proven, .refuted ⟨[("a", "true"), ("b", "false"), ("result", "false")]⟩] := by
  decide +kernel

theorem exists_both : ∃ tree out f, CleanFront bothSource tree out ∧ f ∈ out.module.functions ∧
    (Id.run (Contract.verifyFunction out.module.symbols (Search.solver 16) f)).results.map (·.outcome) =
      [.proven, .refuted ⟨[("a", "true"), ("b", "false"), ("result", "false")]⟩] := by
  obtain ⟨⟨tree, out⟩, hfront, hout⟩ := Option.bind_eq_some_iff.mp outcomes_both
  obtain ⟨f, hhead, houtcomes⟩ := Option.map_eq_some_iff.mp hout
  exact ⟨tree, out, f, cleanFront?_eq_some hfront, mem_of_mem_head? hhead, houtcomes⟩

theorem compileWith_both : ∃ tree out, CleanFront bothSource tree out ∧ tree.Clean ∧ out.module.Clean ∧
    ∃ finish : Option Contract.Report → Compilation, (∀ report, (finish report).verification = report) ∧
      compileWith bothSource none {} (some (Search.solver 16)) =
        (.ok (finish (some (verifyContracts out.module (Search.solver 16)))) : Id
          (Except ScopeError Compilation)) := by
  obtain ⟨-, finish, hfinish, hverified | ⟨hnone, -⟩⟩ :=
    compileWith_verifies_clean (m := Id) bothSource none {} (Search.solver 16)
  · obtain ⟨tree, out, hfront, htree, hbound, hrun⟩ := hverified
    exact ⟨tree, out, hfront, htree, hbound, finish, hfinish, hrun⟩
  · obtain ⟨tree, out, -, hfront, -⟩ := exists_both
    exact absurd ⟨tree, out, hfront⟩ hnone

end TagLang
