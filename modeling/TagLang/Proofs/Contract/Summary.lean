import TagLang.Proofs.Contract.Run
import TagLang.Contract.Verify

/-! # Summaries of bodies and direct runs

The summary of a body takes what follows a branch into each arm, inside the scope of the arm. Its
value is therefore that of the run in which the names of left arms leak, and that of the lexical run
whenever no statement reads a name that a left arm has bound.
-/

namespace TagLang.Contract

/-- Two valuations that differ only in names which a context with this supply can still give out. -/
def AgreeBelow (k : Nat) (ρ ρ' : Valuation) : Prop := ∀ name, ¬FreshFrom k name → ρ' name = ρ name

/-- A name that means this in a context has a value and a shape in a store. -/
inductive Shows (k : Nat) (ρ : Valuation) (name : String) (v : Denotation) : Meaning → Shape → Prop
  | term {t : Term} : (∀ ρ', AgreeBelow k ρ ρ' → t.formula.denote ρ' = v) →
    Shows k ρ name v (.term t) (.value t.ty t.literal)
  | array (element : TermType) : ρ name = v → Shows k ρ name v (.array element) (.array element)

/-- A store holds the values that the names of a context have under the values of the parameters. -/
def Tracks (ρ : Valuation) (c : Context) (s : Store) : Prop :=
  ∀ name, Plain name → ∀ m, c.find? name = some m →
    ∃ shape, s.names.lookup name = some shape ∧ Shows c.fresh ρ name (s.values name) m shape

namespace Tracks

variable {symbols : SymbolTable} {ρ : Valuation} {c c' : Context} {s : Store}

theorem keeps (h : Tracks ρ c s) (hc : Keeps c c') : Tracks ρ c' s := by
  intro name hname m hm
  rw [hc.find?] at hm
  obtain ⟨shape, hshape, hshows⟩ := h name hname m hm
  refine ⟨shape, hshape, ?_⟩
  cases hshows with
  | term h => exact .term fun ρ' hρ' => h ρ' fun n hn => hρ' n fun hfresh => hn (hfresh.mono hc.fresh)
  | array element h => exact .array element h

def world (ρ : Valuation) (c : Context) (s : Store) : World := fun ρ' σ =>
  AgreeBelow c.fresh ρ ρ' ∧ ∀ name, Plain name → σ name = s.values name

theorem closed_world : Closed c.fresh 0 (world ρ c s) := by
  rintro ρ' σ ⟨hρ, hσ⟩ n m hn hm x
  constructor
  · intro name hname
    have hne : name ≠ n := fun he => hname (he ▸ hn)
    rw [Function.update_of_ne hne]
    exact hρ name hname
  · intro name hname
    have hne : name ≠ m := fun he => hm.not_plain (he ▸ hname)
    rw [Function.update_of_ne hne]
    exact hσ name hname

theorem world_self : world ρ c s ρ s.values := ⟨fun _ _ => rfl, fun _ _ => rfl⟩

theorem world_keeps (hc : Keeps c c') (ρ' σ : Valuation) (h : world ρ c' s ρ' σ) : world ρ c s ρ' σ :=
  ⟨fun name hname => h.1 name fun hfresh => hname (hfresh.mono hc.fresh), h.2⟩

theorem simulates (h : Tracks ρ c s) : Simulates (world ρ c s) c s.context := by
  intro name hname m hm
  obtain ⟨shape, hshape, hshows⟩ := h name hname m hm
  rw [Store.find?_context, hshape]
  refine ⟨_, rfl, ?_⟩
  cases hshows with
  | term h =>
    refine .term ⟨rfl, rfl, fun ρ' σ hW => ?_⟩
    rw [h ρ' hW.1, Formula.denote, hW.2 name hname]
  | array element h =>
    refine .array element fun ρ' σ hW => ?_
    rw [hW.1 name (fun hfresh => hfresh.not_plain hname), h, hW.2 name hname]

theorem term? (h : Tracks ρ c s) {e : Bound.Expr} {t : Term} (hplain : ExprReads symbols.PlainId e)
    (ht : Encodes symbols e c t c') : ∃ u, s.term? symbols e = some u ∧ Equates (world ρ c s) t u :=
  Store.term?_of_encodes ht hplain closed_world h.simulates

theorem bind (h : Tracks ρ c s) (name : String) {t u : Term} (htu : Equates (world ρ c s) t u) :
    Tracks ρ (c.bind name t) (s.bind name u) := by
  intro other hother m hm
  rw [Context.bind, find?_put] at hm
  simp only [Store.bind, Table.lookup_cons_ite]
  split at hm
  · next he =>
    cases hm
    refine ⟨_, if_pos he, ?_⟩
    rw [he, Function.update_self, htu.ty, htu.literal]
    exact .term fun ρ' hρ' => htu.denote ρ' _ ⟨hρ', fun _ _ => rfl⟩
  · next he =>
    rw [if_neg he, Function.update_of_ne he]
    exact h other hother m hm

theorem test? (h : Tracks ρ c s) {test : Bound.Expr} {i : Term}
    (hplain : ExprReads symbols.PlainId test) (hi : Encodes symbols test c i c')
    (hbool : i.ty = .bool) : s.test? symbols test = some (i.formula.denote ρ).isTrue := by
  obtain ⟨u, hu, htu⟩ := h.term? hplain hi
  exact Store.test?_eq_some_iff.mpr ⟨u, hu, htu.ty.trans hbool, by rw [htu.denote _ _ world_self]⟩

end Tracks

section Scopes

variable {symbols : SymbolTable} {ret : TermType} {rest : Encoder (Option Term)}

theorem runs_bindSymbol {symbol : SymbolId} {t : Term} {span : Span} {c c' : Context} {u : Unit} :
    Runs (Summary.bindSymbol symbols symbol t span) c u c' ↔
      ∃ t', Store.convert? symbols symbol span t = some t' ∧ c' = c.bind (symbols.name symbol) t' := by
  unfold Summary.bindSymbol Store.convert?
  cases TermType.ofTy? (symbols.ty symbol) with
  | none => simp [runs_modify]
  | some target =>
    by_cases he : target = t.ty
    · simp [he, runs_modify]
    · cases hcoerce : t.coerce target span <;>
        simp [he, hcoerce, runs_bind, runs_ofExcept, runs_modify, Except.toOption]

theorem inside_bindSymbol (symbol : SymbolId) (t : Term) (span : Span) :
    Inside (Summary.bindSymbol symbols symbol t span) := by
  have hbind (t : Term) : Inside (modify (·.bind (symbols.name symbol) t)) :=
    fun c => ⟨rfl, Nat.le_refl _, fun _ h => h⟩
  unfold Summary.bindSymbol
  split
  · split
    · exact (steady_pure t).inside.bind hbind
    · exact (steady_ofExcept _).inside.bind hbind
  · exact (steady_pure t).inside.bind hbind

theorem steady_condition (e : Bound.Expr) : Steady (Encode.condition symbols e) :=
  (steady_expr e).bind fun t => steady_toBool t

/-- The value of a branch: `others` is taken where the test does not hold, and `body` where it does. -/
def joined (symbols : SymbolTable) (ret : TermType) (test : Bound.Expr)
    (others body : Encoder (Option Term)) : Encoder (Option Term) := do
  let some acc ← others | return none
  let c ← Encode.condition symbols test
  let some yes ← body | return none
  return some (Summary.choose ret c yes acc)

theorem runs_joined {test : Bound.Expr} {others body : Encoder (Option Term)} {c c' : Context}
    {t : Term} (h : Runs (joined symbols ret test others body) c (some t) c') :
    ∃ acc c₁ i c₂ yes, Runs others c (some acc) c₁ ∧
      Runs (Encode.expr symbols test) c₁ i c₂ ∧ i.ty = .bool ∧ Runs body c₂ (some yes) c' ∧
      t = Summary.choose ret i.formula yes acc := by
  obtain ⟨acc, c₁, hacc, htest⟩ := runs_bind.mp h
  cases acc with
  | none => cases (runs_pure.mp htest).1
  | some acc =>
    obtain ⟨f, c₂, hf, harm⟩ := runs_bind.mp htest
    obtain ⟨i, c₃, hi, htoBool⟩ := runs_bind.mp hf
    obtain ⟨hbool, rfl, rfl⟩ := runs_toBool.mp htoBool
    obtain ⟨yes, c₄, hyes, hchoose⟩ := runs_bind.mp harm
    cases yes with
    | none => cases (runs_pure.mp hchoose).1
    | some yes =>
      obtain ⟨heq, rfl⟩ := runs_pure.mp hchoose
      exact ⟨acc, c₁, i, c₂, yes, hacc, hi, hbool, hyes, Option.some.inj heq⟩

theorem runs_return {value : Bound.Expr} {span : Span} {c c' : Context} {t : Term}
    (h : Runs (do let t ← Encode.expr symbols value; return some (← ofExcept (t.coerce ret span))) c
      (some t) c') :
    ∃ v, Runs (Encode.expr symbols value) c v c' ∧ v.coerce ret span = .ok t := by
  obtain ⟨v, c₁, hv, hreturn⟩ := runs_bind.mp h
  obtain ⟨v', c₂, hv', hpure⟩ := runs_bind.mp hreturn
  obtain ⟨hcoerce, rfl⟩ := runs_ofExcept.mp hv'
  obtain ⟨heq, rfl⟩ := runs_pure.mp hpure
  exact ⟨v, hv, hcoerce.trans (congrArg _ (Option.some.inj heq.symm))⟩

/-- Properties that go from what follows a body to the summary of the body: `P` inside the scope of
the body, and `Q` around it. They may depend on the names that the body reads. -/
structure Carries (symbols : SymbolTable) (ret : TermType) (plain : Prop)
    (P Q : Encoder (Option Term) → Prop) : Prop where
  inside {x : Encoder (Option Term)} : Q x → P x
  nested {x : Encoder (Option Term)} : P x → Q (nested x)
  stop : Q (pure none)
  bind {x : Encoder (Option Term)} (symbol : SymbolId) {value : Bound.Expr} (span : Span) :
    (plain → ExprReads symbols.PlainId value) → P x →
      P (do let t ← Encode.expr symbols value; Summary.bindSymbol symbols symbol t span; x)
  result {value : Bound.Expr} (span : Span) : (plain → ExprReads symbols.PlainId value) →
    Q (do let t ← Encode.expr symbols value; return some (← ofExcept (t.coerce ret span)))
  arm {test : Bound.Expr} {others body : Encoder (Option Term)} :
      (plain → ExprReads symbols.PlainId test) →
    Q others → Q body → Q (joined symbols ret test others body)

variable {plain : Prop} {P Q : Encoder (Option Term) → Prop}

mutual

theorem Carries.stmts (h : Carries symbols ret plain P Q) : (body : List Bound.Stmt) →
    (plain → StmtsRead symbols.PlainId body) → {rest : Encoder (Option Term)} → P rest →
      P (Summary.stmts symbols ret rest body)
  | [], _, rest, hrest => by
    rw [Summary.stmts]
    exact hrest
  | .bind symbol value span :: more, hplain, rest, hrest => by
    rw [StmtsRead] at hplain
    rw [Summary.stmts]
    exact h.bind symbol span (fun hp => (hplain hp).1) (h.stmts more (fun hp => (hplain hp).2) hrest)
  | .ret (some value) span :: more, hplain, _, _ => by
    rw [StmtsRead] at hplain
    rw [Summary.stmts]
    exact h.inside (h.result span fun hp => (hplain hp).1)
  | .branch test body others otherwise span :: more, hplain, rest, hrest => by
    rw [StmtsRead] at hplain
    rw [Summary.stmts]
    have hmore := h.stmts more (fun hp => (hplain hp).2) hrest
    have hfallback := h.nested (h.otherwise otherwise (fun hp => (hplain hp).1.2.2.2) hmore)
    exact h.inside (h.arm (fun hp => (hplain hp).1.1)
      (h.arms others (fun hp => (hplain hp).1.2.2.1) hmore hfallback)
      (h.nested (h.stmts body (fun hp => (hplain hp).1.2.1) hmore)))
  | .ret none _ :: _, _, _, _ | .assign _ _ _ :: _, _, _, _ | .count _ _ _ _ _ _ :: _, _, _, _
  | .each _ _ _ _ :: _, _, _, _ | .loop _ _ _ :: _, _, _, _ | .matching _ :: _, _, _, _
  | .attempt _ _ _ _ :: _, _, _, _ | .raise _ _ :: _, _, _, _ | .call _ _ :: _, _, _, _ => by
    rw [Summary.stmts]
    · exact h.inside h.stop
    all_goals simp

theorem Carries.otherwise (h : Carries symbols ret plain P Q) : (otherwise : Option (List Bound.Stmt)) →
    (plain → OtherwiseReads symbols.PlainId otherwise) → {rest : Encoder (Option Term)} → P rest →
    P (Summary.otherwiseBody symbols ret rest otherwise)
  | none, _, rest, hrest => by
    rw [Summary.otherwiseBody]
    exact hrest
  | some body, hplain, rest, hrest => by
    rw [OtherwiseReads] at hplain
    rw [Summary.otherwiseBody]
    exact h.stmts body hplain hrest

theorem Carries.arms (h : Carries symbols ret plain P Q) : (others : List Bound.ElseIf) →
    (plain → ElseIfsRead symbols.PlainId others) → {rest fallback : Encoder (Option Term)} →
      P rest → Q fallback →
    Q (Summary.arms symbols ret rest fallback others)
  | [], _, rest, fallback, _, hfallback => by
    rw [Summary.arms]
    exact hfallback
  | .mk test body :: more, hplain, rest, fallback, hrest, hfallback => by
    rw [ElseIfsRead] at hplain
    rw [Summary.arms]
    exact h.arm (fun hp => (hplain hp).1.1) (h.arms more (fun hp => (hplain hp).2) hrest hfallback)
      (h.nested (h.stmts body (fun hp => (hplain hp).1.2) hrest))

end

variable (ret) in
theorem carries_scopes : Carries symbols ret False Inside Steady where
  inside := Steady.inside
  nested := steady_nested
  stop := steady_pure _
  bind symbol _ span _ hx := (steady_expr _).inside.bind fun t =>
    (inside_bindSymbol symbol t span).bind fun _ => hx
  result span _ := (steady_expr _).bind fun _ => (steady_ofExcept _).bind fun _ => steady_pure _
  arm {test others body} _ hothers hbody := by
    refine hothers.bind fun acc => ?_
    cases acc with
    | none => exact steady_pure _
    | some acc =>
      refine (steady_condition test).bind fun c => hbody.bind fun yes => ?_
      cases yes <;> exact steady_pure _

theorem inside_stmts (body : List Bound.Stmt) (hrest : Inside rest) :
    Inside (Summary.stmts symbols ret rest body) :=
  (carries_scopes ret).stmts body nofun hrest

theorem inside_otherwise (otherwise : Option (List Bound.Stmt)) (hrest : Inside rest) :
    Inside (Summary.otherwiseBody symbols ret rest otherwise) :=
  (carries_scopes ret).otherwise otherwise nofun hrest

theorem steady_arms {fallback : Encoder (Option Term)} (others : List Bound.ElseIf) (hrest : Inside rest)
    (hfallback : Steady fallback) : Steady (Summary.arms symbols ret rest fallback others) :=
  (carries_scopes ret).arms others nofun hrest hfallback

end Scopes

theorem Flow.andThen_assoc (a : Flow) (f g : Store → Flow) :
    (a.andThen f).andThen g = a.andThen fun s => (f s).andThen g := by
  cases a <;> rfl

theorem Flow.choose_andThen (test : Option Bool) (yes no : Flow) (f : Store → Flow) :
    (Flow.choose test yes no).andThen f = Flow.choose test (yes.andThen f) (no.andThen f) := by
  match test with
  | some true => rfl
  | some false => rfl
  | none => rfl

/-- Wherever a store is tracked, an encoder that ends with a term gives the value that a run
returns. -/
def Gives (ρ : Valuation) (s : Store) (x : Encoder (Option Term)) (a : Flow) : Prop :=
  ∀ c t c', Tracks ρ c s → Runs x c (some t) c' → a = .returned (t.formula.denote ρ)

section Bodies

variable {symbols : SymbolTable} {ret : TermType} {ρ : Valuation}

theorem Gives.nested {s : Store} {x : Encoder (Option Term)} {a : Flow} (h : Gives ρ s x a) :
    Gives ρ s (nested x) a := by
  intro c t c' hc hx
  obtain ⟨c₁, hrun, -⟩ := runs_nested.mp hx
  exact h c.push t c₁ hc hrun

theorem gives_arm {s : Store} {others body : Encoder (Option Term)} {test : Bound.Expr} {a b : Flow}
    (hplain : ExprReads symbols.PlainId test) (hsteady : Steady others)
    (hothers : Gives ρ s others b) (hbody : Gives ρ s body a) :
    Gives ρ s (joined symbols ret test others body) (Flow.choose (s.test? symbols test) a b) := by
  intro c t c' hc h
  obtain ⟨acc, c₁, i, c₂, yes, hacc, hi, hbool, hyes, rfl⟩ := runs_joined h
  have hc₁ := hc.keeps (hsteady.keeps hacc)
  have hencodes := encodes_of_runs test hi
  rw [hc₁.test? hplain hencodes hbool, hothers c acc c₁ hc hacc,
    hbody c₂ yes c' (hc₁.keeps hencodes.keeps) hyes]
  simp only [Summary.choose, Formula.denote]
  cases (i.formula.denote ρ).isTrue <;> rfl

mutual

/-- The term of a body has the value that the run returns in which the names of left arms leak. -/
theorem stmts_gives : (body : List Bound.Stmt) → StmtsRead symbols.PlainId body →
    {rest : Encoder (Option Term)} → {next : Store → Flow} → Inside rest →
      (∀ s, Gives ρ s rest (next s)) →
    (s : Store) → Gives ρ s (Summary.stmts symbols ret rest body)
      ((run symbols ret .leaking body s).andThen next)
  | [], _, rest, next, _, hnext, s => by
    rw [Summary.stmts, run]
    exact hnext s
  | .bind symbol value span :: more, hplain, rest, next, hrest, hnext, s => by
    rw [StmtsRead] at hplain
    rw [Summary.stmts, run]
    intro c t c' hc h
    obtain ⟨v, c₁, hv, hassign⟩ := runs_bind.mp h
    obtain ⟨_, c₂, hbind, hmore⟩ := runs_bind.mp hassign
    obtain ⟨v', hconvert, rfl⟩ := runs_bindSymbol.mp hbind
    have hkeeps := (steady_expr value).keeps hv
    obtain ⟨u, hu, hvu⟩ := hc.term? hplain.1 (encodes_of_runs value hv)
    obtain ⟨u', hu', hvu'⟩ := hvu.convert? hconvert
    rw [Store.assign?_eq_some_iff.mpr ⟨u, u', hu, hu', rfl⟩]
    -- the name is bound in the context behind its value, where fewer names are left to be given out
    have hbound := (hc.keeps hkeeps).bind (symbols.name symbol) (hvu'.mono (Tracks.world_keeps hkeeps))
    exact stmts_gives more hplain.2 hrest hnext _ _ t c' hbound hmore
  | .ret (some value) span :: more, hplain, rest, next, hrest, hnext, s => by
    rw [StmtsRead] at hplain
    rw [Summary.stmts, run]
    intro c t c' hc h
    obtain ⟨v, hv, hcoerce⟩ := runs_return h
    obtain ⟨u, hu, hvu⟩ := hc.term? hplain.1 (encodes_of_runs value hv)
    obtain ⟨u', hu', hvu'⟩ := hvu.coerce hcoerce
    rw [Store.result?_eq_some_iff.mpr ⟨u, u', hu, hu', rfl⟩, hvu'.denote _ _ Tracks.world_self]
    rfl
  | .branch test body others otherwise span :: more, hplain, rest, next, hrest, hnext, s => by
    rw [StmtsRead] at hplain
    obtain ⟨⟨htest, hbody, hothers, hotherwise⟩, hmore⟩ := hplain
    have hinside : Inside (Summary.stmts symbols ret rest more) := inside_stmts more hrest
    rw [Summary.stmts, run, Flow.andThen_assoc, Flow.choose_andThen]
    have hfollow (s' : Store) := stmts_gives more hmore hrest hnext (Scoping.leave .leaking s s')
    have hfallback := otherwise_gives otherwise hotherwise hinside hfollow s.enter
    exact gives_arm htest
      (steady_arms others hinside (steady_nested (inside_otherwise otherwise hinside)))
      (arms_gives others hothers hinside hfollow
        (steady_nested (inside_otherwise otherwise hinside)) hfallback.nested)
      (stmts_gives body hbody hinside hfollow s.enter).nested
  | .ret none _ :: _, _, _, _, _, _, _ | .assign _ _ _ :: _, _, _, _, _, _, _
  | .count _ _ _ _ _ _ :: _, _, _, _, _, _, _ | .each _ _ _ _ :: _, _, _, _, _, _, _
  | .loop _ _ _ :: _, _, _, _, _, _, _ | .matching _ :: _, _, _, _, _, _, _
  | .attempt _ _ _ _ :: _, _, _, _, _, _, _ | .raise _ _ :: _, _, _, _, _, _, _
  | .call _ _ :: _, _, _, _, _, _, _ => by
    rw [Summary.stmts]
    · intro c t c' _ h
      cases (runs_pure.mp h).1
    all_goals simp

theorem otherwise_gives : (otherwise : Option (List Bound.Stmt)) →
    OtherwiseReads symbols.PlainId otherwise → {rest : Encoder (Option Term)} →
    {next : Store → Flow} → Inside rest → (∀ s, Gives ρ s rest (next s)) → (s : Store) →
    Gives ρ s (Summary.otherwiseBody symbols ret rest otherwise)
      ((runOtherwise symbols ret .leaking otherwise s).andThen next)
  | none, _, rest, next, _, hnext, s => by
    rw [Summary.otherwiseBody, runOtherwise]
    exact hnext s
  | some body, hplain, rest, next, hrest, hnext, s => by
    rw [OtherwiseReads] at hplain
    rw [Summary.otherwiseBody, runOtherwise]
    exact stmts_gives body hplain hrest hnext s

theorem arms_gives : (others : List Bound.ElseIf) → ElseIfsRead symbols.PlainId others →
    {rest fallback : Encoder (Option Term)} → {next : Store → Flow} → {s : Store} → {a : Flow} →
      Inside rest →
    (∀ s, Gives ρ s rest (next s)) → Steady fallback → Gives ρ s fallback (a.andThen next) →
    Gives ρ s (Summary.arms symbols ret rest fallback others)
      ((runArms symbols ret .leaking others a s).andThen next)
  | [], _, rest, fallback, next, s, a, _, _, _, hfallback => by
    rw [Summary.arms, runArms]
    exact hfallback
  | .mk test body :: more, hplain, rest, fallback, next, s, a, hrest, hnext, hsteady, hfallback => by
    rw [ElseIfsRead] at hplain
    obtain ⟨⟨htest, hbody⟩, hmore⟩ := hplain
    rw [Summary.arms, runArms, Flow.choose_andThen]
    exact gives_arm htest (steady_arms more hrest hsteady)
      (arms_gives more hmore hrest hnext hsteady hfallback)
      (stmts_gives body hbody hrest hnext s.enter).nested

end

end Bodies

section Functions

variable {symbols : SymbolTable} {f : Bound.Function}

theorem run_declareParams_cons (id : SymbolId) (params : List SymbolId) (c : Context) :
    (declareParams symbols (id :: params)).run c =
      match c.declare? (symbols.name id) (symbols.ty id) with
      | none => (declareParams symbols params).run c
      | some c₁ =>
        let found := match c₁.lookup? (symbols.name id) with
          | some t => [(symbols.name id, t.ty)]
          | none => []
        (found ++ ((declareParams symbols params).run c₁).1,
          ((declareParams symbols params).run c₁).2) := by
  simp only [declareParams, StateT.run_bind, StateT.run_get, pure_bind]
  cases c.declare? (symbols.name id) (symbols.ty id) <;> rfl

theorem declareParams_context (params : List SymbolId) (c : Context) :
    ((declareParams symbols params).run c).2 =
      { c with inner := (Store.paramMeanings symbols params).reverse ++ c.inner } := by
  induction params generalizing c with
  | nil => rfl
  | cons id params ih =>
    rw [run_declareParams_cons, Context.declare?]
    cases hm : Context.meaning? (symbols.name id) (symbols.ty id) with
    | none => simp [ih, Store.paramMeanings, hm]
    | some m => simp [ih, Store.paramMeanings, hm, Context.put]

theorem exists_param {params : List SymbolId} {name : String} {m : Meaning}
    (h : (Store.paramMeanings symbols params).reverse.lookup name = some m) :
    ∃ id ∈ params, symbols.name id = name ∧ Context.meaning? name (symbols.ty id) = some m := by
  obtain ⟨id, hid, hsome⟩ := List.mem_filterMap.mp (List.mem_reverse.mp (Table.mem_of_lookup h))
  obtain ⟨m', hm, heq⟩ := Option.map_eq_some_iff.mp hsome
  cases heq
  exact ⟨id, hid, rfl, hm⟩

theorem run_preconditions_cons (e : Bound.Expr) (es : List Bound.Expr) (c : Context) :
    (preconditions symbols (e :: es)).run c =
      let first := outcome (Encode.condition symbols e) c
      let rest := (preconditions symbols es).run first.2
      match first.1 with
      | .ok p => ((p :: rest.1.1, rest.1.2), rest.2)
      | .error cause => ((rest.1.1, cause :: rest.1.2), rest.2) := by
  have hrun : (Encode.condition symbols e).run.run c = outcome (Encode.condition symbols e) c := rfl
  simp only [preconditions, StateT.run_bind, hrun]
  rcases outcome (Encode.condition symbols e) c with ⟨r, c₁⟩
  cases r <;> rfl

theorem preconditions_keeps (es : List Bound.Expr) (c : Context) :
    Keeps c ((preconditions symbols es).run c).2 := by
  induction es generalizing c with
  | nil => exact .refl c
  | cons e es ih =>
    rw [run_preconditions_cons]
    dsimp only
    split <;> exact (steady_condition e c).trans (ih _)

def bodyContext (symbols : SymbolTable) (f : Bound.Function) : Context :=
  ((preconditions symbols f.preconditions).run ((declareParams symbols f.params).run {}).2).2

theorem shows_of_meaning? {name : String} {ty : Ty} {m : Meaning} (h : Context.meaning? name ty = some m)
    (hname : Plain name) (ρ : Valuation) : Shows 0 ρ name (ρ name) m m.shape := by
  unfold Context.meaning? at h
  split at h
  · cases h
    refine .term fun ρ' hρ' => ?_
    rw [Term.var, Formula.denote, hρ' name (fun hfresh => hfresh.not_plain hname)]
  · split at h
    · cases h
      exact .array _ rfl
    · cases h
  · cases h

theorem tracks_bodyContext (f : Bound.Function) (ρ : Valuation) :
    Tracks ρ (bodyContext symbols f) (.ofParams symbols f.params ρ) := by
  refine Tracks.keeps ?_ (preconditions_keeps _ _)
  rw [declareParams_context]
  intro name hname m hm
  have hlookup : (Store.paramMeanings symbols f.params).reverse.lookup name = some m := by
    simp only [Context.find?, List.findSome?_cons, List.findSome?_nil, List.append_nil] at hm
    split at hm
    · next hfound => rw [hfound, hm]
    · cases hm
  refine ⟨m.shape, ?_, ?_⟩
  · have hnames := Table.lookup_mapEntry (fun _ => Meaning.shape) name
      (Store.paramMeanings symbols f.params).reverse
    rw [hlookup] at hnames
    exact hnames
  · obtain ⟨id, -, -, hmeaning⟩ := exists_param hlookup
    exact shows_of_meaning? hmeaning hname ρ

theorem run_ofFunction (f : Bound.Function) (c : Context) :
    (((Summary.ofFunction symbols f).run c).2 = c ∧
      ∀ t, ((Summary.ofFunction symbols f).run c).1 ≠ .ok t) ∨
      ∃ ret, TermType.ofTy? f.returnType = some ret ∧
        ((Summary.ofFunction symbols f).run c).2 =
          (outcome (nested (Summary.stmts symbols ret (pure none) f.body)) c).2 ∧
        ∀ t, ((Summary.ofFunction symbols f).run c).1 = .ok t →
          (outcome (nested (Summary.stmts symbols ret (pure none) f.body)) c).1 = .ok (some t) := by
  unfold Summary.ofFunction
  split
  · exact .inl ⟨rfl, nofun⟩
  · split
    · exact .inl ⟨rfl, nofun⟩
    · next ret hret =>
      have hrun : (nested (Summary.stmts symbols ret (pure none) f.body)).run.run c =
          outcome (nested (Summary.stmts symbols ret (pure none) f.body)) c := rfl
      refine .inr ⟨ret, hret, ?_⟩
      rw [StateT.run_bind, hrun]
      rcases outcome (nested (Summary.stmts symbols ret (pure none) f.body)) c with ⟨r, c'⟩
      match r with
      | .ok (some u) => exact ⟨rfl, fun t h => by cases h; rfl⟩
      | .ok none => exact ⟨rfl, nofun⟩
      | .error e => exact ⟨rfl, nofun⟩

theorem run_leaking_of_summary {t : Term} (hplain : StmtsRead symbols.PlainId f.body)
    (h : ((Summary.ofFunction symbols f).run (bodyContext symbols f)).1 = .ok t) (ρ : Valuation) :
    runFunction symbols .leaking f ρ = .returned (t.formula.denote ρ) := by
  rcases run_ofFunction f (bodyContext symbols f) with ⟨-, hnone⟩ | ⟨ret, hret, -, hvalue⟩
  · exact absurd h (hnone t)
  · have hend (s : Store) : Gives ρ s (pure none) (Flow.passed s) := by
      intro c t c' _ hpure
      cases (runs_pure.mp hpure).1
    have hbody : Gives ρ (.ofParams symbols f.params ρ)
        (Summary.stmts symbols ret (pure none) f.body) _ :=
      stmts_gives f.body hplain (steady_pure none).inside hend (.ofParams symbols f.params ρ)
    have hreturned := hbody.nested _ t _ (tracks_bodyContext f ρ) (Prod.ext (hvalue t h) rfl)
    have hpassed (a : Flow) : a.andThen .passed = a := by cases a <;> rfl
    rw [runFunction, hret, ← hreturned, hpassed]

theorem runFunction_decides (hplain : StmtsRead symbols.PlainId f.body) (k : Scoping) (ρ : Valuation) :
    Flow.Decides (.ofParams symbols f.params ρ) (runFunction symbols .hidden f ρ)
      (runFunction symbols k f ρ) := by
  unfold runFunction
  split
  · exact run_decides f.body hplain ⟨fun _ _ hshape => ⟨hshape, rfl⟩, rfl⟩
  · exact .stuck _

end Functions

end TagLang.Contract
