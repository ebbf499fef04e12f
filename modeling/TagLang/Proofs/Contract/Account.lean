import TagLang.Proofs.Contract.Verdict
import TagLang.Solver.Record

/-! # The account of a verification

Whatever a solver answers, each postcondition has one result, and the queries, the answers and the
errors of a verification can be shared out among the postconditions and the functions that they are
about. A postcondition is proven only by an answer to its own query.
-/

namespace TagLang.Contract
open List

/-! ## Logs -/

section Logs

def Recorded (answer : Nat → Query → Answer) (log entries : SolverLog) : Prop :=
  ∀ n q a, entries[n]? = some (q, a) → a = answer (log.length + n) q

variable {answer : Nat → Query → Answer} {log entries more : SolverLog}

theorem recorded_nil : Recorded answer log [] := nofun

theorem recorded_query (q : Query) : Recorded answer log [(q, answer log.length q)] := by
  intro n q' a h
  cases n with
  | zero =>
    cases h
    rfl
  | succ n => cases h

theorem Recorded.append (h : Recorded answer log entries)
    (hmore : Recorded answer (log ++ entries) more) : Recorded answer log (entries ++ more) := by
  intro n q a hget
  by_cases hn : n < entries.length
  · rw [getElem?_append_left hn] at hget
    exact h n q a hget
  · rw [getElem?_append_right (Nat.le_of_not_lt hn)] at hget
    have ha := hmore _ q a hget
    rwa [length_append, Nat.add_assoc, Nat.add_sub_cancel' (Nat.le_of_not_lt hn)] at ha

end Logs

/-! ## Shares -/

def allFormulas? : List (Except EncodeError Formula) → Option (List Formula)
  | [] => some []
  | .ok p :: rest => (allFormulas? rest).map (p :: ·)
  | .error _ :: _ => none

def failures (conditions : List (Except EncodeError Formula)) : List EncodeError :=
  conditions.filterMap fun
    | .ok _ => none
    | .error e => some e

theorem allFormulas?_eq_none_iff {conditions : List (Except EncodeError Formula)} :
    allFormulas? conditions = none ↔ failures conditions ≠ [] := by
  induction conditions with
  | nil => simp [allFormulas?, failures]
  | cons r rest ih =>
    cases r with
    | ok p => rw [allFormulas?, Option.map_eq_none_iff, ih, failures, failures, filterMap_cons]
    | error e => simp [allFormulas?, failures]

/-- What came of a postcondition: its result, the errors about it, and the queries with their
answers. -/
structure Check where
  result : Result
  errors : List Error
  asked : SolverLog

/-- What came of a function: the errors about its preconditions, the queries about them, and its
postconditions. -/
structure Share where
  errors : List Error
  asked : SolverLog
  checks : List Check

def Share.report (s : Share) : Report :=
  ⟨s.checks.map (·.result), s.errors ++ s.checks.flatMap (·.errors)⟩

def Share.log (s : Share) : SolverLog := s.asked ++ s.checks.flatMap (·.asked)

/-- The error about preconditions that cannot hold together, by the answer to their query. -/
def contradictions (f : Bound.Function) (asked : SolverLog) : List Error :=
  if asked.any (·.2.result.isUnsat) then [⟨.contradictory f.name, f.span⟩] else []

/-- An error gives the reason for a result that is not proven. -/
def Error.Explains (e : Error) (f : Bound.Function) (r : Result) : Prop :=
  match r.outcome with
  | .proven => False
  | .refuted c => e.fault = .refuted f.name r.index c
  | .unknown reason =>
    e.fault = .undecided f.name r.index reason ∨ ∃ cause, e.fault = .unencodable f.name cause ∧
      reason = cause.message

/-- The query about a postcondition: its negation behind the preconditions. There is none if a
formula is missing. -/
def query? (pres : List (Except EncodeError Formula)) (post : Except EncodeError Formula) :
    Option Query := do
  let assumed ← allFormulas? pres
  let p ← post.toOption
  return ⟨assumed ++ [p.negation], true⟩

/-- A postcondition is asked about once, and the answer alone decides it. A result that is not
proven has one error of its own, but where a precondition has no formula. -/
structure Check.Sound (f : Bound.Function) (pres : List (Except EncodeError Formula))
    (post : Except EncodeError Formula) (k : Check) : Prop where
  asked : k.asked.map (·.1) = (query? pres post).toList
  proven_iff : k.result.outcome = .proven ↔ ∃ q a, (q, a) ∈ k.asked ∧ a.result = .unsat
  refuted_iff : (∃ c, k.result.outcome = .refuted c) ↔ ∃ q a, (q, a) ∈ k.asked ∧ a.result = .sat
  unknown_iff : (∃ reason, k.result.outcome = .unknown reason) ↔
    ∀ q a, (q, a) ∈ k.asked → a.result ≠ .unsat ∧ a.result ≠ .sat
  explained : failures pres = [] → k.result.outcome ≠ .proven → ∃ e, k.errors = [e] ∧
    e.Explains f k.result
  silent : failures pres ≠ [] ∨ k.result.outcome = .proven → k.errors = []

/-- The postconditions of a function have results in order, counted from 1, and its preconditions
are asked about once at most. Each precondition without a formula has an error. -/
structure Share.Sound (symbols : SymbolTable) (f : Bound.Function) (s : Share) : Prop where
  results : s.checks.map (fun k => (k.result.function, k.result.index, k.result.span)) =
    f.postconditions.mapIdx fun i post => (f.id, i + 1, post.span)
  checks : Forall₂ (Check.Sound f (preFormulas symbols f)) (postFormulas symbols f) s.checks
  asked : s.asked.map (·.1) =
    ((allFormulas? (preFormulas symbols f)).filter (!·.isEmpty)).toList.map (⟨·, false⟩)
  errors : s.errors = (failures (preFormulas symbols f)).map (unencodable f) ++ contradictions f s.asked

/-! ## Postconditions -/

section Postconditions

variable {pres : List (Except EncodeError Formula)} {index : Nat} {span : Span}
  {post : Except EncodeError Formula} {f : Bound.Function} {reason : String}

theorem sound_judge {q : Query} (hquery : query? pres post = some q)
    (params : List (String × TermType)) (result : Option Term) (a : Answer) :
    Check.Sound f pres post ⟨⟨f.id, index, (judge f index span params result a).1, span⟩,
      (judge f index span params result a).2, [(q, a)]⟩ := by
  have hasked : [(q, a)].map (·.1) = (query? pres post).toList := by
    rw [hquery]
    rfl
  have hpres : failures pres = [] := by
    by_contra hfailures
    rw [query?, allFormulas?_eq_none_iff.mpr hfailures] at hquery
    cases hquery
  rcases judge_cases f index span params result a with
    ⟨hunsat, hjudge⟩ | ⟨hsat, c, hjudge, -⟩ | ⟨hunsat, hsat, reason, hjudge⟩
  · rw [hjudge]
    refine ⟨hasked, ?_, ?_, ?_, fun _ hproven => absurd rfl hproven, fun _ => rfl⟩
    all_goals simp [hunsat]
  · rw [hjudge]
    refine ⟨hasked, ?_, ?_, ?_, fun _ _ => ⟨_, rfl, rfl⟩, fun h => absurd h ?_⟩
    · simp [hsat]
    · simp [hsat]
    · simp [hsat]
    · simp [hpres]
  · rw [hjudge]
    refine ⟨hasked, ?_, ?_, ?_, fun _ _ => ⟨_, rfl, .inl rfl⟩, fun h => absurd h ?_⟩
    · simp [hunsat]
    · simp [hsat]
    · simp [hunsat, hsat]
    · simp [hpres]

theorem sound_unasked {errors : List Error} (hquery : query? pres post = none)
    (hexplained : failures pres = [] → ∃ e, errors = [e] ∧
      e.Explains f ⟨f.id, index, .unknown reason, span⟩)
    (hsilent : failures pres ≠ [] → errors = []) :
    Check.Sound f pres post ⟨⟨f.id, index, .unknown reason, span⟩, errors, []⟩ := by
  refine ⟨by rw [hquery]; rfl, by simp, by simp, by simp, fun hpres _ => hexplained hpres, ?_⟩
  rintro (hpres | hproven)
  · exact hsilent hpres
  · cases hproven

theorem sound_error {e : EncodeError} {error : Error} (hpres : failures pres = [])
    (herror : error.Explains f ⟨f.id, index, .unknown reason, span⟩) :
    Check.Sound f pres (.error e) ⟨⟨f.id, index, .unknown reason, span⟩, [error], []⟩ := by
  apply sound_unasked
  · rw [query?]
    cases allFormulas? pres <;> rfl
  · exact fun _ => ⟨error, rfl, herror⟩
  · exact fun hfailures => absurd hpres hfailures

theorem sound_unassumed (hpres : failures pres ≠ []) :
    Check.Sound f pres post ⟨⟨f.id, index, .unknown reason, span⟩, [], []⟩ := by
  apply sound_unasked
  · rw [query?, allFormulas?_eq_none_iff.mpr hpres]
    rfl
  · exact fun hnil => absurd hnil hpres
  · exact fun _ => rfl

variable {symbols : SymbolTable} {answer : Nat → Query → Answer} {s : Setting}

theorem exists_check (answer : Nat → Query → Answer)
    (hpres : allFormulas? pres = if s.usable then some s.pres else none) (index : Nat)
    (post : Bound.Expr) (c : Context) {encoded : Except EncodeError Formula}
    (hencoded : s.usable = true → encoded = (outcome (Encode.condition symbols post) c).1)
    (log : SolverLog) :
    ∃ (k : Check) (c' : Context),
      ((postcondition symbols (recording answer) s index post).run c).run log =
        (((k.result.outcome, k.errors), c'), log ++ k.asked) ∧
      (s.usable = true → c' = (outcome (Encode.condition symbols post) c).2) ∧
      k.result = ⟨s.function.id, index, k.result.outcome, post.span⟩ ∧ Recorded answer log k.asked ∧
      k.Sound s.function pres encoded := by
  rcases run_postcondition_cases symbols (recording answer) s index post c with
    ⟨husable, hrun⟩ | ⟨husable, hrun⟩
  · rw [husable] at hpres
    refine ⟨⟨⟨s.function.id, index, .unknown "a precondition could not be translated", post.span⟩,
      [], []⟩, c, ?_, ?_, rfl, recorded_nil, sound_unassumed (allFormulas?_eq_none_iff.mp hpres)⟩
    · rw [hrun, append_nil]
      rfl
    · rw [husable]
      nofun
  · rw [if_pos husable] at hpres
    have hnil : failures pres = [] := by
      by_contra hfailures
      cases hpres.symm.trans (allFormulas?_eq_none_iff.mpr hfailures)
    obtain rfl := hencoded husable
    rcases hrun with ⟨p, hp, hrun⟩ | ⟨cause, reason, error, hcause, hrun, herror⟩
    · have hquery : query? pres (.ok p) = some ⟨s.pres ++ [p.negation], true⟩ := by
        rw [query?, hpres]
        rfl
      rw [hp, hrun]
      exact ⟨_, _, rfl, fun _ => rfl, rfl, recorded_query _,
        sound_judge hquery s.params s.summary.toOption _⟩
    · rw [hcause, hrun]
      refine ⟨⟨⟨_, index, .unknown reason, _⟩, [error], []⟩, _, by rw [append_nil]; rfl, fun _ =>
        rfl, rfl, recorded_nil, sound_error hnil (herror.imp_right ?_)⟩
      rintro ⟨rfl, hreason⟩
      exact ⟨cause, rfl, hreason⟩

theorem run_postconditions_cons (index : Nat) (post : Bound.Expr) (posts : List Bound.Expr) (c : Context)
    (log : SolverLog) {r : Outcome × List Error} {c₁ c₂ : Context} {log₁ log₂ : SolverLog}
    {report : Report}
    (hpost : ((postcondition symbols (recording answer) s index post).run c).run log = ((r, c₁), log₁))
    (hposts : ((postconditions symbols (recording answer) s (index + 1) posts).run c₁).run log₁ =
      ((report, c₂), log₂)) :
    ((postconditions symbols (recording answer) s index (post :: posts)).run c).run log =
      ((Report.append ⟨[⟨s.function.id, index, r.1, post.span⟩], r.2⟩ report, c₂), log₂) := by
  have hstep : ((postconditions symbols (recording answer) s index (post :: posts)).run c).run log =
      let first := ((postcondition symbols (recording answer) s index post).run c).run log
      let rest :=
        ((postconditions symbols (recording answer) s (index + 1) posts).run first.1.2).run first.2
      ((Report.append ⟨[⟨s.function.id, index, first.1.1.1, post.span⟩], first.1.1.2⟩ rest.1.1,
        rest.1.2), rest.2) := rfl
  rw [hstep]
  dsimp only
  rw [hpost, hposts]

theorem exists_checks (answer : Nat → Query → Answer)
    (hpres : allFormulas? pres = if s.usable then some s.pres else none) (posts : List Bound.Expr)
    (index : Nat) (c : Context) {encoded : List (Except EncodeError Formula)}
    (hlength : encoded.length = posts.length)
    (hencoded : s.usable = true → encoded = ((formulas symbols posts).run c).1) (log : SolverLog) :
    ∃ (checks : List Check) (c' : Context),
      ((postconditions symbols (recording answer) s index posts).run c).run log =
        ((⟨checks.map (·.result), checks.flatMap (·.errors)⟩, c'), log ++ checks.flatMap (·.asked)) ∧
      checks.map (fun k => (k.result.function, k.result.index, k.result.span)) =
        posts.mapIdx (fun i post => (s.function.id, index + i, post.span)) ∧
      Recorded answer log (checks.flatMap (·.asked)) ∧
        Forall₂ (Check.Sound s.function pres) encoded checks := by
  induction posts generalizing index c encoded log with
  | nil =>
    obtain rfl := length_eq_zero_iff.mp hlength
    exact ⟨[], c, congrArg (Prod.mk _) (append_nil log).symm, rfl, recorded_nil, .nil⟩
  | cons post posts ih =>
    obtain ⟨e, es, rfl⟩ := exists_cons_of_length_eq_add_one hlength
    have hfirst (husable : s.usable = true) : e = (outcome (Encode.condition symbols post) c).1 :=
      (cons.inj (hencoded husable)).1
    obtain ⟨k, c₁, hrun, hcontext, hresult, hrecorded, hsound⟩ :=
      exists_check answer hpres index post c hfirst log
    have hrest (husable : s.usable = true) : es = ((formulas symbols posts).run c₁).1 := by
      rw [hcontext husable]
      exact (cons.inj (hencoded husable)).2
    obtain ⟨checks, c₂, hruns, hkeys, hrecordeds, hsounds⟩ :=
      ih (index + 1) c₁ (Nat.succ.inj hlength) hrest (log ++ k.asked)
    refine ⟨k :: checks, c₂, ?_, ?_, ?_, .cons hsound hsounds⟩
    · rw [run_postconditions_cons index post posts c log hrun hruns, ← hresult, append_assoc]
      rfl
    · rw [map_cons, mapIdx_cons, hkeys, hresult]
      simp only [Nat.add_zero, Nat.add_assoc, Nat.add_comm 1]
    · exact hrecorded.append hrecordeds

end Postconditions

/-! ## Preconditions -/

section Preconditions

variable {symbols : SymbolTable} {answer : Nat → Query → Answer}

theorem failures_formulas (es : List Bound.Expr) (c : Context) :
    failures ((formulas symbols es).run c).1 = ((preconditions symbols es).run c).1.2 := by
  induction es generalizing c with
  | nil => rfl
  | cons e es ih =>
    rw [run_formulas_cons, run_preconditions_cons]
    dsimp only
    rw [failures, filterMap_cons, ← failures, ih]
    cases (outcome (Encode.condition symbols e) c).1 <;> rfl

theorem allFormulas?_formulas (es : List Bound.Expr) (c : Context) :
    allFormulas? ((formulas symbols es).run c).1 =
      if ((preconditions symbols es).run c).1.2.isEmpty
        then some ((preconditions symbols es).run c).1.1 else none := by
  induction es generalizing c with
  | nil => rfl
  | cons e es ih =>
    rw [run_formulas_cons, run_preconditions_cons]
    rcases outcome (Encode.condition symbols e) c with ⟨r, c₁⟩
    cases r with
    | ok p =>
      rw [allFormulas?, ih]
      dsimp only
      split <;> rfl
    | error cause => rfl

theorem exists_asked (answer : Nat → Query → Answer) (f : Bound.Function) (pres : List Formula)
    (log : SolverLog) :
    ∃ asked, (checkPreconditions (recording answer) f pres).run log =
      (contradictions f asked, log ++ asked) ∧
      asked.map (·.1) = (if pres.isEmpty then [] else [⟨pres, false⟩]) ∧ Recorded answer log asked := by
  unfold checkPreconditions
  cases pres.isEmpty with
  | true => exact ⟨[], congrArg (Prod.mk _) (append_nil log).symm, rfl, recorded_nil⟩
  | false =>
    refine ⟨[(⟨pres, false⟩, answer log.length ⟨pres, false⟩)], ?_, rfl, recorded_query _⟩
    rw [contradictions, any_cons, any_nil, Bool.or_false]
    rfl

end Preconditions

/-! ## Functions -/

section Functions

variable {symbols : SymbolTable} {answer : Nat → Query → Answer} {f : Bound.Function}

theorem length_formulas (es : List Bound.Expr) (c : Context) :
    ((formulas symbols es).run c).1.length = es.length := by
  induction es generalizing c with
  | nil => rfl
  | cons e es ih =>
    rw [run_formulas_cons, length_cons, ih, length_cons]

theorem exists_share (symbols : SymbolTable) (answer : Nat → Query → Answer) (f : Bound.Function)
    (log : SolverLog) :
    ∃ share : Share, (verifyFunction symbols (recording answer) f).run log =
      (share.report, log ++ share.log) ∧ Recorded answer log share.log ∧ share.Sound symbols f := by
  have hformulas : allFormulas? (preFormulas symbols f) =
      if (setting symbols f).usable then some (setting symbols f).pres else none :=
    allFormulas?_formulas _ _
  have hcheck : ∃ asked, (if (setting symbols f).usable then
      checkPreconditions (recording answer) f (assumed symbols f) else pure []).run log =
        (contradictions f asked, log ++ asked) ∧
      asked.map (·.1) = ((allFormulas? (preFormulas symbols f)).filter (!·.isEmpty)).toList.map
        (⟨·, false⟩) ∧
      Recorded answer log asked := by
    rw [hformulas]
    cases (setting symbols f).usable with
    | false => exact ⟨[], congrArg (Prod.mk _) (append_nil log).symm, rfl, recorded_nil⟩
    | true =>
      obtain ⟨asked, hrun, hqueries, hrecorded⟩ := exists_asked answer f (assumed symbols f) log
      have hpres : (setting symbols f).pres = assumed symbols f := rfl
      refine ⟨asked, hrun, hqueries.trans ?_, hrecorded⟩
      rw [if_pos rfl, hpres, Option.filter_some]
      cases (assumed symbols f).isEmpty <;> rfl
  obtain ⟨asked, hrun, hasked, hrecorded⟩ := hcheck
  obtain ⟨checks, c, hruns, hkeys, hrecordeds, hsounds⟩ :=
    exists_checks answer hformulas f.postconditions 1
    (postContext symbols f) (length_formulas _ _) (fun _ => rfl) (log ++ asked)
  refine ⟨⟨(failures (preFormulas symbols f)).map (unencodable f) ++ contradictions f asked, asked,
    checks⟩, ?_, hrecorded.append hrecordeds, ?_, hsounds, hasked, rfl⟩
  · have hfailures : failures (preFormulas symbols f) = unassumed symbols f := failures_formulas _ _
    rw [verifyFunction_eq, StateT.run_bind, hrun, hfailures]
    refine (congrArg (fun r => (Report.append ⟨[], _⟩ r.1.1, r.2)) hruns).trans ?_
    rw [append_assoc]
    rfl
  · rw [hkeys]
    simp only [Nat.add_comm 1]
    rfl

theorem exists_shares (symbols : SymbolTable) (answer : Nat → Query → Answer)
    (fs : List Bound.Function) (log : SolverLog) :
    ∃ shares : List Share, (verifyFunctions symbols (recording answer) fs).run log =
        (⟨shares.flatMap (·.report.results), shares.flatMap (·.report.errors)⟩,
          log ++ shares.flatMap (·.log)) ∧
      Recorded answer log (shares.flatMap (·.log)) ∧
        Forall₂ (fun f share => share.Sound symbols f) fs shares := by
  induction fs generalizing log with
  | nil => exact ⟨[], congrArg (Prod.mk _) (append_nil log).symm, recorded_nil, .nil⟩
  | cons f fs ih =>
    obtain ⟨share, hrun, hrecorded, hsound⟩ := exists_share symbols answer f log
    obtain ⟨shares, hruns, hrecordeds, hsounds⟩ := ih (log ++ share.log)
    refine ⟨share :: shares, ?_, hrecorded.append hrecordeds, .cons hsound hsounds⟩
    have hstep : (verifyFunctions symbols (recording answer) (f :: fs)).run log =
        let first := (verifyFunction symbols (recording answer) f).run log
        let rest := (verifyFunctions symbols (recording answer) fs).run first.2
        (first.1.append rest.1, rest.2) := rfl
    rw [hstep]
    dsimp only
    rw [hrun, hruns, append_assoc]
    rfl

end Functions

end TagLang.Contract

namespace TagLang

open Contract List

/-- Whatever the solver answers, the report and the log of a verification are the shares of the
functions, one behind the other, and every share is sound. The log holds the answers that were
given. -/
theorem verifyContracts_shares (module : Bound.Module) (answer : Nat → Query → Answer) :
    ∃ shares : List Share,
      (verifyContracts module (recording answer)).run [] =
        (⟨shares.flatMap (·.report.results), shares.flatMap (·.report.errors)⟩, shares.flatMap (·.log)) ∧
      (∀ n q a, (shares.flatMap (·.log))[n]? = some (q, a) → a = answer n q) ∧
      Forall₂ (fun f share => share.Sound module.symbols f) module.functions shares := by
  obtain ⟨shares, hrun, hrecorded, hsound⟩ := exists_shares module.symbols answer module.functions []
  refine ⟨shares, hrun, ?_, hsound⟩
  intro n q a h
  have ha := hrecorded n q a h
  rwa [length_nil, Nat.zero_add] at ha

end TagLang
