import Mathlib
import TagLang.Proofs.Contract.Conditions
import TagLang.Proofs.Solver.Search

/-! # Verdicts are genuine

What is shown of a counterexample can be read back: whatever the values of the parameters that it
leaves out, the preconditions hold and the postcondition does not. A postcondition that is proven
holds wherever the preconditions do.
-/

namespace TagLang.Contract
open List

/-- The value that a text shows at a type: for an integer, the bits that stand for the number. -/
def readValue : TermType → String → Option Denotation
  | .bool, text =>
    if text = "true" then some (.bool true) else if text = "false" then some (.bool false) else none
  | .int width signed, text => do
    let n ← text.toInt?
    let x := BitVec.ofInt width n
    if (if signed then x.toInt else x.toNat) = n then some (.bits width x) else none

theorem readValue_renderValue {ty : TermType} {v : BitValue} {x : Denotation}
    (h : Represents ty.sort v x) : readValue ty (renderValue v ty) = some x := by
  cases ty with
  | bool =>
    cases h with
    | bool b => cases b <;> rfl
  | int width signed =>
    cases h with
    | @bits word _ valid fits =>
      have hnumber : (if signed then Bits.toSigned word width else (word.toNat : Int)) =
          Bits.read signed (Bits.low word width) := by
        rw [Bits.toSigned_eq_toInt word valid.1 valid.2, Bits.read, Bits.toNat_low_of_fits fits]
      -- This lemma comes with the whole library only, which is why no part of it is imported here.
      have hread (n : Int) : (toString n).toInt? = some n := Int.toInt?_repr n
      have hrender : renderValue (.bits word width) (.int width signed) =
          toString (if signed then Bits.toSigned word width else (word.toNat : Int)) := rfl
      rw [hrender, hnumber]
      simp only [readValue, hread, Option.bind_eq_bind, Option.bind_some, Bits.ofInt_read,
        ← Bits.read.eq_1, if_true]

section Parameters

variable {symbols : SymbolTable} {params : List SymbolId}

def paramTypes (symbols : SymbolTable) (params : List SymbolId) : List (String × TermType) :=
  params.filterMap fun id => (TermType.ofTy? (symbols.ty id)).map fun ty => (symbols.name id, ty)

theorem meaning?_cases (name : String) (ty : Ty) :
    (∃ t, TermType.ofTy? ty = some t ∧ Context.meaning? name ty = some (.term (.var name t))) ∨
      TermType.ofTy? ty = none ∧
        (Context.meaning? name ty = none ∨
          ∃ element, Context.meaning? name ty = some (.array element)) := by
  unfold Context.meaning?
  cases ht : TermType.ofTy? ty with
  | some t => exact .inl ⟨t, rfl, rfl⟩
  | none =>
    refine .inr ⟨rfl, ?_⟩
    cases ty with
    | array element =>
      dsimp only
      split
      · exact .inr ⟨_, rfl⟩
      · exact .inl rfl
    | _ => exact .inl rfl

theorem declareParams_types (params : List SymbolId) (c : Context) :
    ((declareParams symbols params).run c).1 = paramTypes symbols params := by
  induction params generalizing c with
  | nil => rfl
  | cons id params ih =>
    have hcons : paramTypes symbols (id :: params) =
        ((TermType.ofTy? (symbols.ty id)).map fun ty => (symbols.name id, ty)).toList ++
          paramTypes symbols params := by
      rw [paramTypes, filterMap_cons]
      cases TermType.ofTy? (symbols.ty id) <;> rfl
    rw [hcons, run_declareParams_cons, Context.declare?]
    rcases meaning?_cases (symbols.name id) (symbols.ty id) with ⟨t, ht, hm⟩ | ⟨ht, hm | ⟨element, hm⟩⟩
    case inr.inl =>
      rw [ht, hm, ← ih c]
      rfl
    all_goals
      rw [hm, ht, ← ih (c.put (symbols.name id) _)]
      simp only [Option.map_some, Context.lookup?, find?_put]
      rfl

def paramSorting (symbols : SymbolTable) (params : List SymbolId) : Sorting := fun name =>
  ((params.find? (symbols.name · = name)).bind fun id => paramSort? (symbols.ty id)).getD .bool

theorem paramSorting_of_declares (hnodup : (params.map symbols.name).Nodup) {x : String × VarSort}
    (hx : Declares symbols params x) : paramSorting symbols params x.1 = x.2 := by
  obtain ⟨id, hid, hname, hsort⟩ := hx
  have hfind : params.find? (symbols.name · = x.1) = some id := by
    obtain ⟨other, hother⟩ : ∃ other, params.find? (symbols.name · = x.1) = some other := by
      rw [← Option.isSome_iff_exists, find?_isSome]
      exact ⟨id, hid, by simpa using hname⟩
    have hsame : symbols.name other = x.1 := by simpa using find?_some hother
    rw [hother, inj_on_of_nodup_map hnodup (mem_of_find?_eq_some hother) hid (hsame.trans hname.symm)]
  rw [paramSorting, hfind]
  simp [hsort]

end Parameters

section Counterexamples

variable {symbols : SymbolTable} {params : List SymbolId} {f : Bound.Function} {name : String}

def Typed (symbols : SymbolTable) (params : List SymbolId) (ρ : Valuation) : Prop :=
  ∀ x, Declares symbols params x → (ρ x.1).sort = x.2

def Shown (symbols : SymbolTable) (params : List SymbolId) (inputs : List (String × String))
    (ρ : Valuation) : Prop :=
  ∀ name text, (name, text) ∈ inputs →
    ∃ ty, (name, ty) ∈ paramTypes symbols params ∧ readValue ty text = some (ρ name)

def preFormulas (symbols : SymbolTable) (f : Bound.Function) : List (Except EncodeError Formula) :=
  ((formulas symbols f.preconditions).run ((declareParams symbols f.params).run {}).2).1

def postFormulas (symbols : SymbolTable) (f : Bound.Function) : List (Except EncodeError Formula) :=
  ((formulas symbols f.postconditions).run (postContext symbols f)).1

def summary (symbols : SymbolTable) (f : Bound.Function) : Except SummaryError Term :=
  ((Summary.ofFunction symbols f).run (bodyContext symbols f)).1

/-- A counterexample lists parameters with their values, and then the result if it is known. However
the other parameters are chosen, the preconditions hold, the postcondition does not, and the result
is that of the body. -/
def Refutes (symbols : SymbolTable) (f : Bound.Function) (post : Formula) (c : Counterexample) : Prop :=
  ∃ inputs output, c.values = inputs ++ output ∧ (inputs.map (·.1)).Sublist (f.params.map symbols.name) ∧
    (∀ ρ, Typed symbols f.params ρ → ∃ σ, Typed symbols f.params σ ∧ Shown symbols f.params inputs σ ∧
      ∀ name, name ∉ inputs.map (·.1) → σ name = ρ name) ∧
    ∀ ρ, Typed symbols f.params ρ → Shown symbols f.params inputs ρ →
      (∀ pre, .ok pre ∈ preFormulas symbols f → pre.denote ρ = .bool true) ∧ post.denote ρ = .bool false ∧
      (output = [] ∨ ∃ t text, summary symbols f = .ok t ∧ output = [("result", text)] ∧
        readValue t.ty text = some (t.formula.denote ρ))

theorem mem_paramTypes {ty : TermType} :
    (name, ty) ∈ paramTypes symbols params ↔
      ∃ id ∈ params, symbols.name id = name ∧ TermType.ofTy? (symbols.ty id) = some ty := by
  simp only [paramTypes, mem_filterMap, Option.map_eq_some_iff, Prod.mk.injEq]
  grind

theorem declares_of_mem_paramTypes {ty : TermType} (h : (name, ty) ∈ paramTypes symbols params) :
    Declares symbols params (name, ty.sort) := by
  obtain ⟨id, hid, hname, hty⟩ := mem_paramTypes.mp h
  exact ⟨id, hid, hname, paramSort?_of_ofTy? hty⟩

theorem mem_paramTypes_of_represents {sort : VarSort} {v : BitValue} {x : Denotation}
    (hdeclares : Declares symbols params (name, sort)) (h : Represents sort v x) :
    ∃ ty, (name, ty) ∈ paramTypes symbols params ∧ ty.sort = sort := by
  obtain ⟨id, hid, hname, hsort⟩ := hdeclares
  unfold paramSort? at hsort
  split at hsort
  · split at hsort
    · cases hsort
      cases h
    · cases hsort
  · obtain ⟨ty, hty, hsort⟩ := Option.map_eq_some_iff.mp hsort
    exact ⟨ty, mem_paramTypes.mpr ⟨id, hid, hname, hty⟩, hsort⟩

theorem paramTypes_unique (hnodup : (params.map symbols.name).Nodup) {ty ty' : TermType}
    (h : (name, ty) ∈ paramTypes symbols params) (h' : (name, ty') ∈ paramTypes symbols params) :
    ty = ty' := by
  obtain ⟨id, hid, hname, hty⟩ := mem_paramTypes.mp h
  obtain ⟨id', hid', hname', hty'⟩ := mem_paramTypes.mp h'
  have heq : id = id' := inj_on_of_nodup_map hnodup hid hid' (hname.trans hname'.symm)
  rw [heq, hty'] at hty
  exact (Option.some.inj hty).symm

def shownInputs (symbols : SymbolTable) (params : List SymbolId) (model : SolverModel) :
    List (String × String) :=
  (paramTypes symbols params).filterMap fun (name, ty) => (model.get? name).map fun v =>
    (name, renderValue v ty)

theorem mem_shownInputs {model : SolverModel} {name text : String} :
    (name, text) ∈ shownInputs symbols params model ↔
      ∃ ty v, (name, ty) ∈ paramTypes symbols params ∧ model.get? name = some v ∧
        text = renderValue v ty := by
  simp only [shownInputs, mem_filterMap, Option.map_eq_some_iff, Prod.mk.injEq, Prod.exists]
  grind

theorem names_filterMap_sublist {α β γ : Type} (key : α → γ) (g : α → Option β) (name : β → γ)
    (h : ∀ a b, g a = some b → name b = key a) (l : List α) :
    ((l.filterMap g).map name).Sublist (l.map key) := by
  induction l with
  | nil => exact .slnil
  | cons a l ih =>
    rw [filterMap_cons, map_cons]
    split
    · exact ih.cons _
    · next b hb =>
      rw [map_cons, h a b hb]
      exact ih.cons_cons _

theorem names_shownInputs_sublist (model : SolverModel) :
    ((shownInputs symbols params model).map (·.1)).Sublist (params.map symbols.name) := by
  have htypes : ((paramTypes symbols params).map (·.1)).Sublist (params.map symbols.name) := by
    apply names_filterMap_sublist
    intro id b hb
    obtain ⟨ty, -, rfl⟩ := Option.map_eq_some_iff.mp hb
    rfl
  have hinputs : ((shownInputs symbols params model).map (·.1)).Sublist
      ((paramTypes symbols params).map (·.1)) := by
    apply names_filterMap_sublist
    intro x b hb
    obtain ⟨v, -, rfl⟩ := Option.map_eq_some_iff.mp hb
    rfl
  exact hinputs.trans htypes

section Models

variable (hnodup : (f.params.map symbols.name).Nodup) {assertions : List Formula} {model : SolverModel}
  (hmodel : Search.IsModel (paramSorting symbols f.params) assertions model)

include hnodup

theorem hasSort_params {g : Formula} {B : String → Prop} {s : VarSort}
    (h : g.Proper (Variables symbols f) B s) : g.HasSort (paramSorting symbols f.params) s :=
  h.hasSort fun _ hx => paramSorting_of_declares hnodup hx.2

include hmodel

theorem represents_of_shown (hfree : ∀ a ∈ assertions, ∀ x, a.Free x → Variables symbols f x)
    {ρ : Valuation} (hshown : Shown symbols f.params (shownInputs symbols f.params model) ρ)
    {v : BitValue} (hv : model.get? name = some v) :
    Represents (paramSorting symbols f.params name) v (ρ name) := by
  have hcontains : model.contains name = true := by rw [Table.contains, hv, Option.isSome_some]
  obtain ⟨a, ha, sort, hx⟩ := (hmodel.assigns_iff name).mp hcontains
  have hdeclares := (hfree a ha (name, sort) hx).2
  obtain ⟨x, hrepresents⟩ := hmodel.represents name v hv
  have hsort : paramSorting symbols f.params name = sort := paramSorting_of_declares hnodup hdeclares
  rw [hsort] at hrepresents ⊢
  obtain ⟨ty, hty, rfl⟩ := mem_paramTypes_of_represents hdeclares hrepresents
  obtain ⟨ty', hty', hread⟩ := hshown name _ (mem_shownInputs.mpr ⟨ty, v, hty, hv, rfl⟩)
  rw [paramTypes_unique hnodup hty' hty, readValue_renderValue hrepresents] at hread
  exact Option.some.inj hread ▸ hrepresents

theorem exists_shown {ρ : Valuation} (hρ : Typed symbols f.params ρ) :
    ∃ σ, Typed symbols f.params σ ∧ Shown symbols f.params (shownInputs symbols f.params model) σ ∧
      ∀ name, name ∉ (shownInputs symbols f.params model).map (·.1) → σ name = ρ name := by
  classical
  have hvalue (name : String) : ∃ x, name ∈ (shownInputs symbols f.params model).map (·.1) →
      ∃ v, model.get? name = some v ∧ Represents (paramSorting symbols f.params name) v x := by
    by_cases hname : name ∈ (shownInputs symbols f.params model).map (·.1)
    · obtain ⟨⟨_, text⟩, hmem, rfl⟩ := mem_map.mp hname
      obtain ⟨ty, v, -, hv, -⟩ := mem_shownInputs.mp hmem
      obtain ⟨x, hx⟩ := hmodel.represents _ v hv
      exact ⟨x, fun _ => ⟨v, hv, hx⟩⟩
    · exact ⟨.bool true, fun h => absurd h hname⟩
  choose value hvalue using hvalue
  refine ⟨fun name => if name ∈ (shownInputs symbols f.params model).map (·.1) then value name
    else ρ name, ?_, ?_, ?_⟩
  · intro x hx
    dsimp only
    split
    · next hlisted =>
      obtain ⟨v, -, hrepresents⟩ := hvalue x.1 hlisted
      rw [hrepresents.sort_eq, paramSorting_of_declares hnodup hx]
    · exact hρ x hx
  · intro name text hmem
    have hlisted : name ∈ (shownInputs symbols f.params model).map (·.1) := mem_map_of_mem hmem
    obtain ⟨ty, v, hty, hv, rfl⟩ := mem_shownInputs.mp hmem
    obtain ⟨w, hw, hrepresents⟩ := hvalue name hlisted
    cases hv.symm.trans hw
    have hsort : paramSorting symbols f.params name = ty.sort :=
      paramSorting_of_declares hnodup (declares_of_mem_paramTypes hty)
    rw [hsort] at hrepresents
    refine ⟨ty, hty, ?_⟩
    dsimp only
    rw [if_pos hlisted, readValue_renderValue hrepresents]
  · exact fun name hname => if_neg hname

theorem refutes_of_isModel {post : Formula} (hassertions : post.negation ∈ assertions)
    (hpres : ∀ pre, .ok pre ∈ preFormulas symbols f → pre ∈ assertions)
    (hfree : ∀ a ∈ assertions, ∀ x, a.Free x → Variables symbols f x)
    (hsummary : ∀ t, summary symbols f = .ok t →
      t.formula.HasSort (paramSorting symbols f.params) t.ty.sort) :
    Refutes symbols f post
      (counterexample (paramTypes symbols f.params) model (summary symbols f).toOption) := by
  refine ⟨shownInputs symbols f.params model, _, rfl, names_shownInputs_sublist model,
    fun ρ hρ => exists_shown hnodup hmodel hρ, fun ρ _ hshown => ?_⟩
  have hvalues (name : String) (v : BitValue) (hv : model.get? name = some v) :
      Represents (paramSorting symbols f.params name) v (ρ name) :=
    represents_of_shown hnodup hmodel hfree hshown hv
  have htrue := hmodel.satisfies ρ hvalues
  refine ⟨fun pre hpre => htrue pre (hpres pre hpre), ?_, ?_⟩
  · have hnegated := htrue _ hassertions
    rw [Formula.denote_negation] at hnegated
    rw [← Denotation.negate_negate (post.denote ρ), hnegated, Denotation.negate, Bool.not_true]
  · cases hterm : summary symbols f with
    | error e => exact .inl rfl
    | ok t =>
      dsimp only [Except.toOption]
      cases heval : t.formula.eval model.entries with
      | error e => exact .inl rfl
      | ok v =>
        have hrepresents := (hsummary t hterm).eval_represents (fun name _ => hvalues name) heval
        exact .inr ⟨t, _, rfl, rfl, readValue_renderValue hrepresents⟩

end Models

end Counterexamples

section Verdicts

variable {symbols : SymbolTable} {f : Bound.Function} {budget : UInt64} {s : Setting} {r : Result}

def Outcome.IsDecided : Outcome → Prop
  | .proven | .refuted _ => True
  | .unknown _ => False

theorem judge_cases (f : Bound.Function) (index : Nat) (span : Span)
    (params : List (String × TermType)) (result : Option Term) (a : Answer) :
    (a.result = .unsat ∧ judge f index span params result a = (.proven, [])) ∨
      (a.result = .sat ∧ ∃ c, judge f index span params result a =
        (.refuted c, [⟨.refuted f.name index c, span⟩]) ∧
        ∀ model, a.model = some model → c = counterexample params model result) ∨
      (a.result ≠ .unsat ∧ a.result ≠ .sat ∧
        ∃ reason, judge f index span params result a =
          (.unknown reason, [⟨.undecided f.name index reason, span⟩])) := by
  unfold judge
  dsimp only
  cases a.result with
  | unsat => exact .inl ⟨rfl, rfl⟩
  | sat => exact .inr (.inl ⟨rfl, _, rfl, fun model hmodel => by rw [hmodel]⟩)
  | timeout | unknown | error => exact .inr (.inr ⟨nofun, nofun, _, rfl⟩)

section Postconditions

variable (symbols) {m : Type → Type} [Monad m] [LawfulMonad m] (solver : Solver m) (s : Setting)
  (index : Nat) (post : Bound.Expr) (c : Context)

theorem run_postcondition_cases :
    (s.usable = false ∧ (postcondition symbols solver s index post).run c =
      pure ((.unknown "a precondition could not be translated", []), c)) ∨
    s.usable = true ∧
      ((∃ p, (outcome (Encode.condition symbols post) c).1 = .ok p ∧
        (postcondition symbols solver s index post).run c = do
        let a ← solver ⟨s.pres ++ [p.negation], true⟩
        return (judge s.function index post.span s.params s.summary.toOption a,
          (outcome (Encode.condition symbols post) c).2)) ∨
      ∃ cause reason error, (outcome (Encode.condition symbols post) c).1 = .error cause ∧
        (postcondition symbols solver s index post).run c =
          pure ((.unknown reason, [error]), (outcome (Encode.condition symbols post) c).2) ∧
        (error.fault = .undecided s.function.name index reason ∨
          error = unencodable s.function cause ∧ reason = cause.message)) := by
  have hrun : (Encode.condition symbols post).run.run c = outcome (Encode.condition symbols post) c := rfl
  unfold postcondition
  cases s.usable with
  | false => exact .inl ⟨rfl, by simp⟩
  | true =>
    refine .inr ⟨rfl, ?_⟩
    simp only [Bool.not_true, Bool.false_eq_true, if_false, StateT.run_bind, StateT.run_get,
      pure_bind, hrun]
    rcases outcome (Encode.condition symbols post) c with ⟨r, c'⟩
    cases r with
    | ok p => exact .inl ⟨p, rfl, by simp⟩
    | error cause =>
      simp only [StateT.run_set, pure_bind]
      split
      · next heq => cases heq
      · next span heq =>
        cases heq
        exact .inr ⟨_, _, _, rfl, rfl, .inl rfl⟩
      · next heq =>
        cases heq
        exact .inr ⟨_, _, _, rfl, rfl, .inr ⟨rfl, rfl⟩⟩

end Postconditions

theorem result_of_postconditions {posts : List Bound.Expr} {index : Nat} {c : Context}
    (hr : r ∈ ((postconditions symbols (Search.solver budget) s index posts).run c).1.results)
    (hdecided : r.outcome.IsDecided) :
    s.usable = true ∧ ∃ k p, r.index = index + k ∧ ((formulas symbols posts).run c).1[k]? = some (.ok p) ∧
      r.outcome = (judge s.function r.index r.span s.params s.summary.toOption
        (Search.solve budget (s.pres ++ [p.negation]))).1 := by
  induction posts generalizing index c with
  | nil => cases hr
  | cons post posts ih =>
    have hresults :
        ((postconditions symbols (Search.solver budget) s index (post :: posts)).run c).1.results =
        ⟨s.function.id, index,
          ((postcondition symbols (Search.solver budget) s index post).run c).1.1, post.span⟩ ::
          ((postconditions symbols (Search.solver budget) s (index + 1) posts).run
            ((postcondition symbols (Search.solver budget) s index post).run c).2).1.results := rfl
    rw [hresults] at hr
    rcases run_postcondition_cases symbols (Search.solver budget) s index post c with
      ⟨husable, hrun⟩ | ⟨husable, ⟨p, hp, hrun⟩ | ⟨cause, reason, error, hcause, hrun, -⟩⟩
    · rw [hrun] at hr
      rcases mem_cons.mp hr with rfl | hr
      · exact hdecided.elim
      · exact absurd (ih hr).1 (by rw [husable]; decide)
    · rw [hrun] at hr
      refine ⟨husable, ?_⟩
      rcases mem_cons.mp hr with rfl | hr
      · exact ⟨0, p, rfl, by rw [run_formulas_cons, getElem?_cons_zero, hp], rfl⟩
      · obtain ⟨k, p, hindex, hp, hjudge⟩ := (ih hr).2
        exact ⟨k + 1, p, by omega, by rw [run_formulas_cons, getElem?_cons_succ]; exact hp, hjudge⟩
    · rw [hrun] at hr
      rcases mem_cons.mp hr with rfl | hr
      · exact hdecided.elim
      · obtain ⟨k, p, hindex, hp, hjudge⟩ := (ih hr).2
        exact ⟨husable, k + 1, p, by omega, by
          rw [run_formulas_cons, getElem?_cons_succ]; exact hp, hjudge⟩

def assumed (symbols : SymbolTable) (f : Bound.Function) : List Formula :=
  ((preconditions symbols f.preconditions).run ((declareParams symbols f.params).run {}).2).1.1

def unassumed (symbols : SymbolTable) (f : Bound.Function) : List EncodeError :=
  ((preconditions symbols f.preconditions).run ((declareParams symbols f.params).run {}).2).1.2

def setting (symbols : SymbolTable) (f : Bound.Function) : Setting where
  function := f
  params := ((declareParams symbols f.params).run {}).1
  pres := assumed symbols f
  usable := (unassumed symbols f).isEmpty
  summary := summary symbols f

theorem verifyFunction_eq {m : Type → Type} [Monad m] [LawfulMonad m] (solver : Solver m) :
    verifyFunction symbols solver f =
      (if (setting symbols f).usable then checkPreconditions solver f (assumed symbols f)
        else pure []) >>= fun found =>
        (fun r => Report.append ⟨[], (unassumed symbols f).map (unencodable f) ++ found⟩ r.1) <$>
          (postconditions symbols solver (setting symbols f) 1 f.postconditions).run
            (postContext symbols f) := by
  unfold verifyFunction setting assumed unassumed summary postContext bodyContext
  rcases (declareParams symbols f.params).run {} with ⟨params, c₀⟩
  dsimp only
  rcases (preconditions symbols f.preconditions).run c₀ with ⟨⟨pres, failures⟩, c₁⟩
  dsimp only
  rcases (Summary.ofFunction symbols f).run c₁ with ⟨result, c₂⟩
  cases f.postconditions with
  | nil => cases failures <;> simp [postconditions, Report.append]
  | cons post posts => cases failures <;> cases result <;> simp

theorem result_of_verifyFunction (hr : r ∈ (verifyFunction symbols (Search.solver budget) f).run.results)
    (hdecided : r.outcome.IsDecided) :
    ∃ k p, r.index = 1 + k ∧ (postFormulas symbols f)[k]? = some (.ok p) ∧
      r.outcome = (judge f r.index r.span (paramTypes symbols f.params) (summary symbols f).toOption
        (Search.solve budget (assumed symbols f ++ [p.negation]))).1 := by
  rw [verifyFunction_eq] at hr
  have hresult := (result_of_postconditions hr hdecided).2
  have hparams : (setting symbols f).params = paramTypes symbols f.params := declareParams_types _ _
  rwa [hparams] at hresult

/-- The conditions of a function and its body mention plain names only, and its parameters have
names apart. -/
structure WellNamed (symbols : SymbolTable) (f : Bound.Function) : Prop where
  params : (f.params.map symbols.name).Nodup
  preconditions : ∀ e ∈ f.preconditions, ExprReads (fun id => Plain (symbols.name id)) e
  postconditions : ∀ e ∈ f.postconditions, ExprReads (fun id => Plain (symbols.name id)) e
  body : StmtsRead (fun id => Plain (symbols.name id)) f.body

def Proves (symbols : SymbolTable) (f : Bound.Function) (post : Formula) : Prop :=
  ∀ ρ, Typed symbols f.params ρ → (∀ pre, .ok pre ∈ preFormulas symbols f → pre.denote ρ = .bool true) →
    post.denote ρ = .bool true

/-- A postcondition holds wherever the preconditions do, unless the search overlooks a
counterexample, which takes the largest budget and more combinations of values than 64 bits count. -/
structure Supported (symbols : SymbolTable) (f : Bound.Function) (budget : UInt64)
    (post : Formula) : Prop where
  proves_iff : Proves symbols f post ↔
    ¬Search.Overlooks (paramSorting symbols f.params) budget (assumed symbols f ++ [post.negation])
  saturated : Search.Overlooks (paramSorting symbols f.params) budget
    (assumed symbols f ++ [post.negation]) → budget.toNat = UInt64.size - 1 ∧ UInt64.size ≤
      (Search.combinations (Search.domainsOf (.conjunction (assumed symbols f ++ [post.negation])))
        []).length

namespace WellNamed

variable (h : WellNamed symbols f) {post : Formula}

include h

theorem proper_pre {pre : Formula} (hpre : .ok pre ∈ preFormulas symbols f) :
    ∃ B, pre.Proper (Variables symbols f) B .bool :=
  proper_formulas proper_declareParams h.preconditions hpre

section Posts

variable (hpost : .ok post ∈ postFormulas symbols f)
include hpost

theorem proper_post : ∃ B, post.Proper (Variables symbols f) B .bool :=
  proper_formulas (proper_postContext h.body) h.postconditions hpost

theorem proper_assertions :
    ∀ a ∈ assumed symbols f ++ [post.negation], ∃ B, a.Proper (Variables symbols f) B .bool := by
  intro a ha
  rcases mem_append.mp ha with ha | ha
  · exact h.proper_pre (mem_preconditions_iff.mp ha)
  · rw [mem_singleton.mp ha]
    obtain ⟨B, hproper⟩ := h.proper_post hpost
    exact ⟨B, hproper.negation⟩

theorem hasSort_assertions :
    ∀ a ∈ assumed symbols f ++ [post.negation], a.HasSort (paramSorting symbols f.params) .bool := by
  intro a ha
  obtain ⟨B, hproper⟩ := h.proper_assertions hpost a ha
  exact hasSort_params h.params hproper

theorem refutes_of_sat {model : SolverModel}
    (hsat : (Search.solve budget (assumed symbols f ++ [post.negation])).result = .sat)
    (hmodel : (Search.solve budget (assumed symbols f ++ [post.negation])).model = some model) :
    Refutes symbols f post
      (counterexample (paramTypes symbols f.params) model (summary symbols f).toOption) := by
  obtain ⟨_, hmodel', hisModel⟩ := Search.isModel_of_solve_sat (h.hasSort_assertions hpost) hsat
  cases hmodel.symm.trans hmodel'
  apply refutes_of_isModel h.params hisModel
  · exact mem_append_right _ (mem_singleton_self _)
  · exact fun pre hpre => mem_append_left _ (mem_preconditions_iff.mpr hpre)
  · intro a ha
    obtain ⟨B, hproper⟩ := h.proper_assertions hpost a ha
    exact hproper.free
  · exact fun t ht => hasSort_params h.params (proper_summary h.body proper_bodyContext ht).formula

theorem proves_iff :
    Proves symbols f post ↔ ¬Search.Satisfiable (assumed symbols f ++ [post.negation]) := by
  constructor
  · intro hproves hsat
    obtain ⟨ρ, hρ, htrue⟩ := hsat.exists_sorted (h.hasSort_assertions hpost)
    have hnegation := htrue _ (mem_append_right _ (mem_singleton_self _))
    rw [Formula.denote_negation, hproves ρ ?_ ?_] at hnegation
    · cases hnegation
    · intro x hx
      rw [hρ, paramSorting_of_declares h.params hx]
    · exact fun pre hpre => htrue pre (mem_append_left _ (mem_preconditions_iff.mpr hpre))
  · intro hnone ρ hρ hpres
    obtain ⟨B, hproper⟩ := h.proper_post hpost
    obtain ⟨b, hb⟩ := (hasSort_params h.params hproper).denote_bool rfl fun x hx =>
      hρ x (hproper.free x hx).2
    cases b with
    | true => exact hb
    | false =>
      refine absurd ⟨ρ, fun a ha name sort hx => ?_, fun a ha => ?_⟩ hnone
      · obtain ⟨B, hproper⟩ := h.proper_assertions hpost a ha
        exact hρ _ (hproper.free _ hx).2
      · rcases mem_append.mp ha with ha | ha
        · exact hpres a (mem_preconditions_iff.mp ha)
        · rw [mem_singleton.mp ha, Formula.denote_negation, hb]
          rfl

theorem supported_of_unsat
    (hunsat : (Search.solve budget (assumed symbols f ++ [post.negation])).result = .unsat) :
    Supported symbols f budget post :=
  ⟨(h.proves_iff hpost).trans
    (not_congr (Search.satisfiable_iff_overlooks (h.hasSort_assertions hpost) hunsat)),
    fun hover => hover.saturated hunsat⟩

end Posts

/-- A counterexample to a postcondition is one, and a proof is right unless the search overlooks a
counterexample. -/
theorem verdict (hr : r ∈ (verifyFunction symbols (Search.solver budget) f).run.results)
    (hdecided : r.outcome.IsDecided) :
    ∃ post, (postFormulas symbols f)[r.index - 1]? = some (.ok post) ∧
      (∀ c, r.outcome = .refuted c → Refutes symbols f post c) ∧
      (r.outcome = .proven → Supported symbols f budget post) := by
  obtain ⟨k, post, hindex, hpost, houtcome⟩ := result_of_verifyFunction hr hdecided
  have hmem := mem_of_getElem? hpost
  refine ⟨post, by rw [hindex, Nat.add_sub_cancel_left, hpost], ?_⟩
  rcases judge_cases f r.index r.span (paramTypes symbols f.params) (summary symbols f).toOption
    (Search.solve budget (assumed symbols f ++ [post.negation])) with
    ⟨hunsat, hjudge⟩ | ⟨hsat, c, hjudge, hmodel⟩ | ⟨-, -, reason, hjudge⟩
  · rw [houtcome, hjudge]
    exact ⟨nofun, fun _ => h.supported_of_unsat hmem hunsat⟩
  · obtain ⟨-, env, -, -, henv⟩ := Search.solve_sat rfl hsat
    rw [houtcome, hjudge, hmodel _ henv]
    refine ⟨fun c' hc' => ?_, nofun⟩
    cases hc'
    exact h.refutes_of_sat hmem hsat henv
  · rw [houtcome, hjudge]
    exact ⟨nofun, nofun⟩

end WellNamed

end Verdicts

end TagLang.Contract
