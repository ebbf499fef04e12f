import TagLang.Proofs.Binding.Body
import TagLang.Proofs.Contract.Verdict
import TagLang.Proofs.FrontEnd
import TagLang.Proofs.Solver.Sound

/-! # Verdicts on programs

After a clean front end the parameters of every function have names apart, and its conditions and
its body mention plain names only. So the search judges the contracts of the function as they are,
within its own limits.
-/

namespace TagLang.Contract
open List

section Names

variable {symbols : SymbolTable} {f : Bound.Function}

theorem exists_typed {params : List SymbolId} (hnodup : (params.map symbols.name).Nodup) :
    ∃ ρ, Typed symbols params ρ := by
  choose value hvalue using Denotation.exists_sort_eq
  refine ⟨fun name => value (paramSorting symbols params name), fun x hx => ?_⟩
  rw [hvalue, paramSorting_of_declares hnodup hx]

theorem map_name_eq {ps : List Param} {ids : List SymbolId}
    (h : Forall₂ (fun p id => Binding.HasName p.name symbols id) ps ids) :
    ids.map symbols.name = ps.map (·.name) := by
  induction h with
  | nil => rfl
  | cons hid _ ih => rw [map_cons, map_cons, ih, hid.name_eq]

theorem wellNamed_of_cleanFront {source : String} {tree : Module} {out : BindOutput}
    (h : CleanFront source tree out) (hf : f ∈ out.module.functions) :
    WellNamed out.module.symbols f := by
  obtain ⟨d, hd, hreads⟩ := bind_functionReads h.bound f hf
  have hnames := parse_names h.read d hd
  constructor
  · rw [map_name_eq hreads.params]
    exact (bind_clean h.clean.1 h.bound h.bindErrors).2 d hd
  · exact hreads.preconditions hnames.preconditions
  · exact hreads.postconditions hnames.postconditions
  · exact hreads.body hnames.body

end Names

/-- What a result says of a postcondition is so, as far as the search for it goes. -/
structure Genuine (symbols : SymbolTable) (f : Bound.Function) (budget : UInt64) (r : Result) : Prop where
  refuted : ∀ c, r.outcome = .refuted c →
    ∃ post, (postFormulas symbols f)[r.index - 1]? = some (.ok post) ∧ Refutes symbols f post c
  proven : r.outcome = .proven →
    ∃ post, (postFormulas symbols f)[r.index - 1]? = some (.ok post) ∧ Supported symbols f budget post

theorem WellNamed.genuine {symbols : SymbolTable} {f : Bound.Function} {budget : UInt64}
    {r : Result} (h : WellNamed symbols f)
    (hr : r ∈ (Id.run (verifyFunction symbols (Search.solver budget) f)).results) :
    Genuine symbols f budget r := by
  refine ⟨fun c hc => ?_, fun hproven => ?_⟩
  · obtain ⟨post, hpost, hrefutes, -⟩ := h.verdict hr (by rw [hc]; trivial)
    exact ⟨post, hpost, hrefutes c hc⟩
  · obtain ⟨post, hpost, -, hsupported⟩ := h.verdict hr (by rw [hproven]; trivial)
    exact ⟨post, hpost, hsupported hproven⟩

theorem results_verifyFunctions (symbols : SymbolTable) (solver : Solver Id) (fs : List Bound.Function) :
    (Id.run (verifyFunctions symbols solver fs)).results =
      fs.flatMap fun f => (Id.run (verifyFunction symbols solver f)).results := by
  induction fs with
  | nil => rfl
  | cons f fs ih =>
    rw [flatMap_cons, ← ih]
    rfl

/-- The results on a program without errors are those of its functions, and each of them is genuine:
a counterexample refutes the postcondition under the preconditions, and a proof means that it
follows from them unless the search overlooks a counterexample. -/
theorem verifyContracts_genuine {source : String} {tree : Module} {out : BindOutput}
    (h : CleanFront source tree out) (budget : UInt64) :
    (Id.run (verifyContracts out.module (Search.solver budget))).results =
        out.module.functions.flatMap (fun f =>
          (Id.run (verifyFunction out.module.symbols (Search.solver budget) f)).results) ∧
      ∀ f ∈ out.module.functions, (∃ ρ, Typed out.module.symbols f.params ρ) ∧
        ∀ r ∈ (Id.run (verifyFunction out.module.symbols (Search.solver budget) f)).results,
          Genuine out.module.symbols f budget r := by
  refine ⟨results_verifyFunctions _ _ _, fun f hf => ?_⟩
  have hnamed := wellNamed_of_cleanFront h hf
  exact ⟨exists_typed hnamed.params, fun r hr => hnamed.genuine hr⟩

theorem verifyContracts_genuine_both :
    ∃ tree out f, CleanFront bothSource tree out ∧ f ∈ out.module.functions ∧
    (Id.run (verifyFunction out.module.symbols (Search.solver 16) f)).results.map (·.outcome) =
      [.proven, .refuted ⟨[("a", "true"), ("b", "false"), ("result", "false")]⟩] ∧
    (∃ ρ, Typed out.module.symbols f.params ρ) ∧
    ∀ r ∈ (Id.run (verifyFunction out.module.symbols (Search.solver 16) f)).results,
      Genuine out.module.symbols f 16 r := by
  obtain ⟨tree, out, f, hfront, hf, houtcomes⟩ := exists_both
  exact ⟨tree, out, f, hfront, hf, houtcomes, (verifyContracts_genuine hfront 16).2 f hf⟩

section Overlooked

theorem outcomes_single {symbols : SymbolTable} {f : Bound.Function} {post : Bound.Expr}
    {p : Formula} (solver : Solver Id) (husable : unassumed symbols f = [])
    (hpost : f.postconditions = [post]) (hp : postFormulas symbols f = [.ok p])
    (hunsat : (solver ⟨assumed symbols f ++ [p.negation], true⟩).result = .unsat) :
    (Id.run (verifyFunction symbols solver f)).results.map (·.outcome) = [.proven] := by
  have hresults : (Id.run (verifyFunction symbols solver f)).results.map (·.outcome) =
      [((postcondition symbols solver (setting symbols f) 1 post).run (postContext symbols f)).1.1] := by
    rw [verifyFunction_eq, hpost]
    rfl
  have hformula : (outcome (Encode.condition symbols post) (postContext symbols f)).1 = .ok p := by
    rw [postFormulas, hpost, run_formulas_cons] at hp
    exact (cons.inj hp).1
  rw [hresults]
  rcases run_postcondition_cases symbols solver (setting symbols f) 1 post (postContext symbols f) with
    ⟨hunusable, -⟩ | ⟨-, ⟨p', hp', hrun⟩ | ⟨cause, -, -, hcause, -⟩⟩
  · simp [setting, husable] at hunusable
  · cases hformula.symm.trans hp'
    rcases judge_cases f 1 post.span (setting symbols f).params (summary symbols f).toOption
      (solver ⟨assumed symbols f ++ [p.negation], true⟩) with ⟨-, hjudge⟩ | ⟨hsat, -⟩ | ⟨hne, -⟩
    · rw [hrun]
      exact congrArg (fun judged => [judged.1]) hjudge
    · cases hunsat.symm.trans hsat
    · exact absurd hunsat hne
  · cases hformula.symm.trans hcause

def bytes? : Formula → Option (String × List String)
  | .var name (.bitVec 8) => some (name, [])
  | .binary .and (.var name (.bitVec 8)) rest =>
    (bytes? rest).map fun (next, names) => (name, next :: names)
  | _ => none

theorem eq_byteAnd_of_bytes? {g : Formula} {name : String} {names : List String}
    (h : bytes? g = some (name, names)) : g = Search.byteAnd name names := by
  fun_induction bytes? g generalizing name names with
  | case1 name' =>
    cases h
    rfl
  | case2 name' rest ih =>
    obtain ⟨⟨next, others⟩, hrest, h⟩ := Option.map_eq_some_iff.mp h
    cases h
    rw [ih hrest, Search.byteAnd]
  | case3 => cases h

def isEightOnes : Formula → Bool
  | .eq (.zeroExtend 24 g) (.const 255 32) => bytes? g = some ("a", Search.otherNames)
  | _ => false

theorem eq_of_isEightOnes {g : Formula} (h : isEightOnes g = true) : g = Search.eightOnes := by
  unfold isEightOnes at h
  split at h
  · rw [eq_byteAnd_of_bytes? (of_decide_eq_true h), Search.eightOnes]
  · cases h

/-- Says that of eight bytes one has a bit that is not set. -/
def eightSource : String :=
  "§M\x7bm1:T\x7d\n§F\x7bf1:f\x7d\n§I\x7bu8:a\x7d\n§I\x7bu8:b\x7d\n§I\x7bu8:c\x7d\n§I\x7bu8:d\x7d\n" ++
  "§I\x7bu8:e\x7d\n§I\x7bu8:f\x7d\n§I\x7bu8:g\x7d\n§I\x7bu8:h\x7d\n" ++
  "§S ((a & (b & (c & (d & (e & (f & (g & h))))))) != 255)\n§/F\x7bf1\x7d\n§/M\x7bm1\x7d\n"

set_option maxRecDepth 100000 in
theorem formulas_eight :
    (cleanFront? eightSource).bind (fun (_, out) => out.module.functions.head?.map fun f =>
      ((unassumed out.module.symbols f).length, (assumed out.module.symbols f).length,
        f.postconditions.length,
        (postFormulas out.module.symbols f).map fun r => r.toOption.any fun p =>
          isEightOnes p.negation)) =
    some (0, 0, 1, [true]) := by
  decide +kernel

theorem exists_eight : ∃ tree out f post p, CleanFront eightSource tree out ∧ f ∈ out.module.functions ∧
    unassumed out.module.symbols f = [] ∧ f.postconditions = [post] ∧
      postFormulas out.module.symbols f = [.ok p] ∧
    assumed out.module.symbols f ++ [p.negation] = [Search.eightOnes] := by
  obtain ⟨⟨tree, out⟩, hfront, hout⟩ := Option.bind_eq_some_iff.mp formulas_eight
  obtain ⟨f, hhead, hf⟩ := Option.map_eq_some_iff.mp hout
  simp only [Prod.mk.injEq, length_eq_zero_iff, length_eq_one_iff] at hf
  obtain ⟨husable, hassumed, ⟨post, hpost⟩, hformulas⟩ := hf
  obtain ⟨r, hr, hones⟩ := map_eq_singleton_iff.mp hformulas
  cases r with
  | error e => cases hones
  | ok p =>
    refine ⟨tree, out, f, post, p, cleanFront?_eq_some hfront, mem_of_mem_head? hhead, husable,
      hpost, hr, ?_⟩
    rw [hassumed, eq_of_isEightOnes hones, nil_append]

/-- With the largest budget a postcondition of eight bytes counts as proven that does not hold. -/
theorem proven_eight : ∃ tree out f post, CleanFront eightSource tree out ∧ f ∈ out.module.functions ∧
    postFormulas out.module.symbols f = [.ok post] ∧ ¬Proves out.module.symbols f post ∧
    (Id.run (verifyFunction out.module.symbols (Search.solver 18446744073709551615) f)).results.map
      (·.outcome) = [.proven] := by
  obtain ⟨tree, out, f, post, p, hfront, hf, husable, hpost, hp, hassertions⟩ := exists_eight
  have hquery (budget : UInt64) (assertions : List Formula) :
      (Search.solver budget ⟨assertions, true⟩).result = (Search.solve budget assertions).result := rfl
  refine ⟨tree, out, f, p, hfront, hf, hp, ?_, outcomes_single _ husable hpost hp ?_⟩
  · rw [(wellNamed_of_cleanFront hfront hf).proves_iff
      (by rw [hp]; exact mem_singleton_self _), hassertions, not_not]
    exact Search.satisfiable_eightOnes
  · rw [hassertions, hquery]
    exact Search.solve_eightOnes

end Overlooked

end TagLang.Contract
