import TagLang.Proofs.Contract.Sorted
import TagLang.Proofs.Contract.Summary

/-! # The formulas of a function

The parameters of a function are the only variables of the formulas of its conditions and of the
summary of its body. Each of these formulas is well-sorted, with every parameter at the sort of its
type. Whether there is such a formula or not, the context in which it is looked for keeps its
scopes.
-/

namespace TagLang.Contract

section Bodies

variable {symbols : SymbolTable} {ret : TermType} {M : String × VarSort → Prop}

def Returns (ret : TermType) (M : String × VarSort → Prop) (x : Encoder (Option Term)) : Prop :=
  ∀ c t c', c.Proper Plain M → Runs x c (some t) c' → t.ty = ret ∧ t.Proper M (Spent M c'.fresh)

theorem Returns.nested {x : Encoder (Option Term)} (h : Returns ret M x) : Returns ret M (nested x) := by
  intro c t c' hc hx
  obtain ⟨c₁, hrun, rfl⟩ := runs_nested.mp hx
  rw [pop_fresh]
  exact h c.push t c₁ hc.push hrun

theorem proper_condition {e : Bound.Expr} {c c' : Context} {f : Formula} (hc : c.Proper Plain M)
    (hplain : ExprReads symbols.PlainId e) (h : Runs (Encode.condition symbols e) c f c') :
    f.Proper M (Spent M c'.fresh) .bool := by
  obtain ⟨t, c₁, ht, htoBool⟩ := runs_bind.mp h
  obtain ⟨hbool, rfl, rfl⟩ := runs_toBool.mp htoBool
  have hformula := ((encodes_of_runs e ht).proper hplain hc).formula
  rw [hbool] at hformula
  exact hformula

theorem proper_convert? {symbol : SymbolId} {t t' : Term} {span : Span} {B : String → Prop}
    (ht : t.Proper M B) (h : Store.convert? symbols symbol span t = some t') : t'.Proper M B := by
  rcases Store.convert?_eq_some h with rfl | ⟨target, htarget, hcoerce⟩
  · exact ht
  · exact (ht.coerce (TermType.standard_of_ofTy? htarget) hcoerce).2

theorem returns_joined {others body : Encoder (Option Term)} {test : Bound.Expr} (hret : ret.Standard)
    (hplain : ExprReads symbols.PlainId test) (hothers : Steady others ∧ Returns ret M others)
    (hbody : Steady body ∧ Returns ret M body) : Returns ret M (joined symbols ret test others body) := by
  intro c t c' hc h
  obtain ⟨acc, c₁, i, c₂, yes, hacc, hi, hbool, hyes, rfl⟩ := runs_joined h
  have hc₁ := hc.keeps (hothers.1.keeps hacc)
  have hkeeps₂ : Keeps c₁ c₂ := (steady_expr test).keeps hi
  have hkeeps₃ : Keeps c₂ c' := hbody.1.keeps hyes
  have hi := ((encodes_of_runs test hi).proper hplain hc₁).formula.mono
    (fun _ => id) fun _ hspent => hspent.mono hkeeps₃.fresh
  obtain ⟨hty, hacc⟩ := hothers.2 c acc c₁ hc hacc
  obtain ⟨hty', hyes⟩ := hbody.2 c₂ yes c' (hc₁.keeps hkeeps₂) hyes
  have hacc := (hacc.mono (fun _ => id) fun _ hspent => hspent.mono (hkeeps₂.trans hkeeps₃).fresh).formula
  have hyes := hyes.formula
  rw [hbool] at hi
  rw [hty] at hacc
  rw [hty'] at hyes
  exact ⟨rfl, hret, hi.ite hyes hacc⟩

theorem carries_returns (hret : ret.Standard) :
    Carries symbols ret True (fun x => Inside x ∧ Returns ret M x)
    (fun x => Steady x ∧ Returns ret M x) where
  inside h := ⟨h.1.inside, h.2⟩
  nested h := ⟨steady_nested h.1, h.2.nested⟩
  stop := ⟨steady_pure _, fun c t c' _ h => by cases (runs_pure.mp h).1⟩
  bind symbol value span hplain hx := by
    refine ⟨(carries_scopes ret).bind symbol span nofun hx.1, fun c t c' hc h => ?_⟩
    obtain ⟨v, c₁, hv, hassign⟩ := runs_bind.mp h
    obtain ⟨_, c₂, hbind, hmore⟩ := runs_bind.mp hassign
    obtain ⟨v', hconvert, rfl⟩ := runs_bindSymbol.mp hbind
    have hv' := proper_convert? ((encodes_of_runs value hv).proper (hplain trivial) hc) hconvert
    exact hx.2 _ t c' ((hc.keeps ((steady_expr value).keeps hv)).bind _ hv') hmore
  result {value} span hplain := by
    refine ⟨(carries_scopes ret).result span nofun, fun c t c' hc h => ?_⟩
    obtain ⟨v, hv, hcoerce⟩ := runs_return h
    exact ((encodes_of_runs value hv).proper (hplain trivial) hc).coerce hret hcoerce
  arm hplain hothers hbody :=
    ⟨(carries_scopes ret).arm nofun hothers.1 hbody.1, returns_joined hret (hplain trivial) hothers hbody⟩

end Bodies

section Formulas

variable {symbols : SymbolTable} {M : String × VarSort → Prop} {es : List Bound.Expr}

def formulas (symbols : SymbolTable) :
    List Bound.Expr → StateM Context (List (Except EncodeError Formula))
  | [] => return []
  | e :: es => do
    let r ← (Encode.condition symbols e).run
    return r :: (← formulas symbols es)

theorem run_formulas_cons (e : Bound.Expr) (es : List Bound.Expr) (c : Context) :
    (formulas symbols (e :: es)).run c =
      ((outcome (Encode.condition symbols e) c).1 ::
        ((formulas symbols es).run (outcome (Encode.condition symbols e) c).2).1,
        ((formulas symbols es).run (outcome (Encode.condition symbols e) c).2).2) := rfl

theorem proper_formulas {c : Context} {f : Formula} (hc : c.Proper Plain M)
    (hplain : ∀ e ∈ es, ExprReads symbols.PlainId e) (hf : .ok f ∈ ((formulas symbols es).run c).1) :
    ∃ B, f.Proper M B .bool := by
  induction es generalizing c with
  | nil => cases hf
  | cons e es ih =>
    obtain ⟨he, hes⟩ := List.forall_mem_cons.mp hplain
    rw [run_formulas_cons] at hf
    rcases List.mem_cons.mp hf with heq | hmem
    · exact ⟨_, proper_condition hc he (Prod.ext heq.symm rfl)⟩
    · exact ih (hc.keeps (steady_condition e c)) hes hmem

theorem mem_preconditions_iff {c : Context} {f : Formula} :
    f ∈ ((preconditions symbols es).run c).1.1 ↔ .ok f ∈ ((formulas symbols es).run c).1 := by
  induction es generalizing c with
  | nil =>
    constructor <;> intro h <;> cases h
  | cons e es ih =>
    rw [run_preconditions_cons, run_formulas_cons]
    dsimp only
    cases (outcome (Encode.condition symbols e) c).1 <;> simp [ih]

end Formulas

section Functions

variable {symbols : SymbolTable} {params : List SymbolId} {f : Bound.Function}

def paramSort? : Ty → Option VarSort
  | .array element =>
    match TermType.ofTy? element with
    | some (.int width _) => some (.array 64 width)
    | _ => none
  | ty => (TermType.ofTy? ty).map TermType.sort

def Declares (symbols : SymbolTable) (params : List SymbolId) (x : String × VarSort) : Prop :=
  ∃ id ∈ params, symbols.name id = x.1 ∧ paramSort? (symbols.ty id) = some x.2

theorem paramSort?_of_ofTy? {ty : Ty} {t : TermType} (h : TermType.ofTy? ty = some t) :
    paramSort? ty = some t.sort := by
  cases ty with
  | array element => cases h
  | _ => simp [paramSort?, h]

theorem proper_of_meaning? {name : String} {ty : Ty} {m : Meaning}
    (h : Context.meaning? name ty = some m) :
    ∃ sort, paramSort? ty = some sort ∧ ∀ M B, M (name, sort) → m.Proper M B name := by
  cases ht : TermType.ofTy? ty with
  | some t =>
    simp only [Context.meaning?, ht] at h
    cases h
    have hstandard := TermType.standard_of_ofTy? ht
    exact ⟨t.sort, paramSort?_of_ofTy? ht, fun M B hM => .var hM hstandard⟩
  | none =>
    cases ty with
    | array element =>
      simp only [Context.meaning?, ht] at h
      split at h
      · next width signed helement =>
        cases h
        refine ⟨.array 64 width, ?_, fun M B hM => ⟨TermType.standard_of_ofTy? helement, hM⟩⟩
        rw [paramSort?, helement]
      · cases h
    | _ => simp [Context.meaning?, ht] at h

theorem proper_declareParams : ((declareParams symbols params).run {}).2.Proper Plain
    fun x => Plain x.1 ∧ Declares symbols params x := by
  rw [declareParams_context]
  constructor
  · exact fun x hx hfresh => hfresh.not_plain hx.1
  · intro name hname m hm
    obtain ⟨scope, hscope, hlookup⟩ := Context.holds_of_find? hm
    have hscope : scope = (Store.paramMeanings symbols params).reverse := by simpa using hscope
    rw [hscope] at hlookup
    obtain ⟨id, hid, hid', hmeaning⟩ := exists_param hlookup
    obtain ⟨sort, hsort, hproper⟩ := proper_of_meaning? hmeaning
    exact hproper _ _ ⟨hname, id, hid, hid', hsort⟩

def Variables (symbols : SymbolTable) (f : Bound.Function) (x : String × VarSort) : Prop :=
  Plain x.1 ∧ Declares symbols f.params x

theorem proper_bodyContext : (bodyContext symbols f).Proper Plain (Variables symbols f) :=
  proper_declareParams.keeps (preconditions_keeps _ _)

theorem ofFunction_keeps (f : Bound.Function) (c : Context) :
    Keeps c ((Summary.ofFunction symbols f).run c).2 := by
  rcases run_ofFunction f c with ⟨hc, -⟩ | ⟨ret, -, hc, -⟩
  · rw [hc]
    exact .refl c
  · rw [hc]
    exact steady_nested (inside_stmts f.body (steady_pure none).inside) c

/-- Translations and summaries give back the names of all scopes as they were in any context,
whether they end with a term or fail somewhere inside. The arrays and the fresh names that they met
stay in use. -/
theorem translation_keeps (symbols : SymbolTable) (c : Context) :
    (∀ e, Keeps c (outcome (Encode.expr symbols e) c).2) ∧
      (∀ e, Keeps c (outcome (Encode.condition symbols e) c).2) ∧
      ∀ f, Keeps c ((Summary.ofFunction symbols f).run c).2 := by
  refine ⟨fun e => ?_, fun e => ?_, fun f => ?_⟩
  · exact steady_expr e c
  · exact steady_condition e c
  · exact ofFunction_keeps f c

theorem proper_summary {c : Context} {M : String × VarSort → Prop} {t : Term}
    (hplain : StmtsRead symbols.PlainId f.body) (hc : c.Proper Plain M)
    (h : ((Summary.ofFunction symbols f).run c).1 = .ok t) :
    t.Proper M (Spent M ((Summary.ofFunction symbols f).run c).2.fresh) := by
  rcases run_ofFunction f c with ⟨-, hnone⟩ | ⟨ret, hret, hend, hvalue⟩
  · exact absurd h (hnone t)
  · have hcarries : Carries symbols ret True (fun x => Inside x ∧ Returns ret M x) _ :=
      carries_returns (TermType.standard_of_ofTy? hret)
    have hreturns := hcarries.stmts f.body (fun _ => hplain) (hcarries.inside hcarries.stop)
    rw [hend]
    exact (hreturns.2.nested c t _ hc (Prod.ext (hvalue t h) rfl)).2

def postContext (symbols : SymbolTable) (f : Bound.Function) : Context :=
  match (Summary.ofFunction symbols f).run (bodyContext symbols f) with
  | (.ok t, c) => c.bind "result" t
  | (.error _, c) => c

theorem proper_postContext (hplain : StmtsRead symbols.PlainId f.body) :
    (postContext symbols f).Proper Plain (Variables symbols f) := by
  have hbody : (bodyContext symbols f).Proper Plain (Variables symbols f) := proper_bodyContext
  have hc : ((Summary.ofFunction symbols f).run (bodyContext symbols f)).2.Proper Plain
      (Variables symbols f) :=
    hbody.keeps (ofFunction_keeps f (bodyContext symbols f))
  unfold postContext
  split
  · next t c hrun =>
    have ht := proper_summary hplain hbody (congrArg Prod.fst hrun)
    rw [hrun] at hc ht
    exact hc.bind "result" ht
  · next e c hrun =>
    rw [hrun] at hc
    exact hc

end Functions

end TagLang.Contract
