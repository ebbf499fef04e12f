import TagLang.Proofs.Binding.Body
import TagLang.Proofs.Contract.Summary

/-! # Summaries and runs

The summary of a function of a source text has the value that its body returns if the names bound in
an arm stay visible behind the branch. This is also what the body returns lexically, unless the run
reads such a name behind its branch: there the summary can differ, because what follows a branch is
summarised in the scope of each arm.
-/

namespace TagLang.Contract

/-- A summary has the value of the run in which arms leak their names, and that of the lexical run
if no name of a left arm is read. -/
theorem summary_denotes_run {source : String} {m : Module} {out : BindOutput} {f : Bound.Function}
    {t : Term} (hparse : (parse source).module = some m) (hbind : TagLang.bind m = .ok out)
    (hf : f ∈ out.module.functions)
    (ht : ((Summary.ofFunction out.module.symbols f).run (bodyContext out.module.symbols f)).1 = .ok t)
    (ρ : Valuation) :
    runFunction out.module.symbols .leaking f ρ = .returned (t.formula.denote ρ) ∧
      (runFunction out.module.symbols .hidden f ρ ≠ .stuck →
        runFunction out.module.symbols .lexical f ρ = .returned (t.formula.denote ρ)) := by
  have hplain := bind_plainNames (parse_plainNames hparse) hbind f hf
  have hleaking := run_leaking_of_summary hplain ht ρ
  refine ⟨hleaking, fun hstuck => ?_⟩
  have hdecides := runFunction_decides hplain .leaking ρ
  rw [hleaking] at hdecides
  have hhidden := hdecides.of_returned hstuck
  have hlexical := runFunction_decides hplain .lexical ρ
  rw [hhidden] at hlexical
  exact hlexical.returned_eq

/-! ## A name that leaks

The two runs differ where an arm binds a name once more that is read behind its branch.
-/

def firstFunction? (source : String) : Option (BindOutput × Bound.Function) := do
  let m ← (parse source).module
  let out ← (TagLang.bind m).toOption
  let f ← out.module.functions.head?
  return (out, f)

theorem firstFunction?_eq_some {source : String} {out : BindOutput} {f : Bound.Function}
    (h : firstFunction? source = some (out, f)) :
    ∃ m, (parse source).module = some m ∧ TagLang.bind m = .ok out ∧ f ∈ out.module.functions := by
  simp only [firstFunction?, Option.bind_eq_bind, Option.bind_eq_some_iff, Option.pure_def,
    Option.some.injEq, Prod.mk.injEq] at h
  obtain ⟨m, hm, out', hout, f', hf, rfl, rfl⟩ := h
  refine ⟨m, hm, ?_, List.mem_of_mem_head? hf⟩
  cases hbind : TagLang.bind m with
  | error e =>
    rw [hbind] at hout
    cases hout
  | ok bound =>
    rw [hbind] at hout
    cases hout
    rfl

/-- Binds `y` to `false`, and to `true` in a branch that `flag` decides, and returns `y`. -/
def pickSource : String :=
  "§M\x7bm1:T\x7d\n§F\x7bf1:pick\x7d\n§I\x7bbool:flag\x7d\n§O\x7bbool\x7d\n§B\x7bbool:y\x7d false\n" ++
  "§IF\x7bi1\x7d flag\n§B\x7bbool:y\x7d true\n§/IF\x7bi1\x7d\n§R y\n§/F\x7bf1\x7d\n§/M\x7bm1\x7d\n"

def pickTerm : Term where
  formula := .ite (.var "flag" .bool) (.bool true) (.bool false)
  ty := .bool

def isPick : Except SummaryError Term × Flow × Flow → Bool
  | (.ok ⟨.ite (.var "flag" .bool) (.bool true) (.bool false), .bool, none⟩,
      .returned (.bool false), .returned (.bool false)) => true
  | _ => false

theorem eq_of_isPick {r : Except SummaryError Term × Flow × Flow} (h : isPick r = true) :
    r = (.ok pickTerm, .returned (.bool false), .returned (.bool false)) := by
  unfold isPick at h
  split at h
  · rfl
  · cases h

set_option maxRecDepth 100000 in
theorem firstFunction?_pick :
    (firstFunction? pickSource).any (fun (out, f) => isPick
      (((Summary.ofFunction out.module.symbols f).run (bodyContext out.module.symbols f)).1,
        runFunction out.module.symbols .lexical f fun _ => .bool true,
        runFunction out.module.symbols .hidden f fun _ => .bool false)) = true := by
  decide +kernel

theorem exists_pick : ∃ m out f,
    (parse pickSource).module = some m ∧ TagLang.bind m = .ok out ∧ f ∈ out.module.functions ∧
    ((Summary.ofFunction out.module.symbols f).run (bodyContext out.module.symbols f)).1 = .ok pickTerm ∧
    runFunction out.module.symbols .lexical f (fun _ => .bool true) = .returned (.bool false) ∧
    runFunction out.module.symbols .hidden f (fun _ => .bool false) = .returned (.bool false) := by
  obtain ⟨⟨out, f⟩, hfirst, hruns⟩ := (Option.any_eq_true _ _).mp firstFunction?_pick
  obtain ⟨m, hm, hout, hf⟩ := firstFunction?_eq_some hfirst
  exact ⟨m, out, f, hm, hout, hf, by simpa using eq_of_isPick hruns⟩

theorem summary_denotes_run_pick : ∃ m out f,
    (parse pickSource).module = some m ∧ TagLang.bind m = .ok out ∧ f ∈ out.module.functions ∧
    ((Summary.ofFunction out.module.symbols f).run (bodyContext out.module.symbols f)).1 = .ok pickTerm ∧
    runFunction out.module.symbols .hidden f (fun _ => .bool false) ≠ .stuck ∧
    runFunction out.module.symbols .lexical f (fun _ => .bool false) =
      .returned (pickTerm.formula.denote fun _ => .bool false) := by
  obtain ⟨m, out, f, hm, hout, hf, ht, -, hhidden⟩ := exists_pick
  have hstuck : runFunction out.module.symbols .hidden f (fun _ => .bool false) ≠ .stuck := by
    rw [hhidden]
    nofun
  exact ⟨m, out, f, hm, hout, hf, ht, hstuck, (summary_denotes_run hm hout hf ht _).2 hstuck⟩

/-- If `flag` holds, the function returns `false` lexically, but its summary is `true`. -/
theorem lexical_run_ne_summary : ∃ m out f,
    (parse pickSource).module = some m ∧ TagLang.bind m = .ok out ∧ f ∈ out.module.functions ∧
    ((Summary.ofFunction out.module.symbols f).run (bodyContext out.module.symbols f)).1 = .ok pickTerm ∧
    runFunction out.module.symbols .lexical f (fun _ => .bool true) ≠
      .returned (pickTerm.formula.denote fun _ => .bool true) := by
  obtain ⟨m, out, f, hm, hout, hf, ht, hlexical, -⟩ := exists_pick
  refine ⟨m, out, f, hm, hout, hf, ht, ?_⟩
  have hvalue : pickTerm.formula.denote (fun _ => .bool true) = .bool true := by
    simp [pickTerm, Formula.denote, Denotation.isTrue]
  rw [hlexical, hvalue]
  simp

end TagLang.Contract
