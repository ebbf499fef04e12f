import TagLang.Proofs.Contract.Simulation

/-! # Direct runs of bodies

A body runs on a store: bindings take effect in order, a branch runs the first arm whose test holds,
and the first return gives the result. Runs differ in what a left arm leaves behind. Lexically
nothing of it stays; if it leaks, the names that it bound stay visible; and if it hides, these names
cannot be read at all. A run that never gets stuck where names are hidden ends in the same way under
every scoping.
-/

namespace TagLang.Contract
open List

/-- What the translation of expressions has to know of a name, besides its value. -/
inductive Shape
  | value (ty : TermType) (literal : Option Int)
  | array (element : TermType)

def Shape.meaning (name : String) : Shape → Meaning
  | .value ty literal => .term { formula := .var name ty.sort, ty, literal }
  | .array element => .array element

def Meaning.shape : Meaning → Shape
  | .term t => .value t.ty t.literal
  | .array element => .array element

structure Store where
  names : List (String × Shape)
  values : Valuation
  /-- The names that were bound since the current arm was entered. -/
  bound : List String := []

namespace Store

variable (symbols : SymbolTable) (ret : TermType)

def paramMeanings (params : List SymbolId) : List (String × Meaning) :=
  params.filterMap fun id =>
    (Context.meaning? (symbols.name id) (symbols.ty id)).map fun m => (symbols.name id, m)

/-- The store in which a function starts; of two parameters of one name the later one counts. -/
def ofParams (params : List SymbolId) (ρ : Valuation) : Store where
  names := (paramMeanings symbols params).reverse.map fun (name, m) => (name, m.shape)
  values := ρ

def context (s : Store) : Context where
  inner := s.names.map fun (name, shape) => (name, shape.meaning name)

def term? (s : Store) (e : Bound.Expr) : Option Term :=
  (outcome (Encode.expr symbols e) s.context).1.toOption

noncomputable def bind (s : Store) (name : String) (t : Term) : Store where
  names := (name, .value t.ty t.literal) :: s.names
  values := Function.update s.values name (t.formula.denote s.values)
  bound := name :: s.bound

def convert? (symbol : SymbolId) (span : Span) (t : Term) : Option Term :=
  match TermType.ofTy? (symbols.ty symbol) with
  | some target => if target = t.ty then some t else (t.coerce target span).toOption
  | none => some t

noncomputable def assign? (s : Store) (symbol : SymbolId) (value : Bound.Expr) (span : Span) :
    Option Store := do
  let t ← s.term? symbols value
  let t ← convert? symbols symbol span t
  return s.bind (symbols.name symbol) t

noncomputable def result? (s : Store) (value : Bound.Expr) (span : Span) : Option Denotation := do
  let t ← s.term? symbols value
  let t ← (t.coerce ret span).toOption
  return t.formula.denote s.values

noncomputable def test? (s : Store) (test : Bound.Expr) : Option Bool := do
  let t ← s.term? symbols test
  if t.ty = .bool then some (t.formula.denote s.values).isTrue else none

def enter (s : Store) : Store := { s with bound := [] }

end Store

inductive Scoping
  | lexical
  | leaking
  | hidden

/-- The store behind a branch, where `before` is the store from before it and `after` the one in
which an arm ended. -/
def Scoping.leave (k : Scoping) (before after : Store) : Store :=
  let bound := after.bound ++ before.bound
  match k with
  | .lexical => { before with bound }
  | .leaking => { after with bound }
  | .hidden => { before with names := before.names.filter (!after.bound.contains ·.1), bound }

inductive Flow
  | returned (value : Denotation)
  | passed (s : Store)
  | stuck

namespace Flow

def andThen : Flow → (Store → Flow) → Flow
  | .returned v, _ => .returned v
  | .passed s, next => next s
  | .stuck, _ => .stuck

def choose : Option Bool → Flow → Flow → Flow
  | some true, yes, _ => yes
  | some false, _, no => no
  | none, _, _ => .stuck

end Flow

section Run

variable (symbols : SymbolTable) (ret : TermType) (k : Scoping)

mutual

noncomputable def run : List Bound.Stmt → Store → Flow
  | [], s => .passed s
  | .bind symbol value span :: more, s =>
    match s.assign? symbols symbol value span with
    | some s' => run more s'
    | none => .stuck
  | .ret (some value) span :: _, s =>
    match s.result? symbols ret value span with
    | some v => .returned v
    | none => .stuck
  | .branch test body others otherwise _ :: more, s =>
    let arm := Flow.choose (s.test? symbols test) (run body s.enter)
      (runArms others (runOtherwise otherwise s.enter) s)
    arm.andThen fun s' => run more (k.leave s s')
  | _ :: _, _ => .stuck

noncomputable def runOtherwise : Option (List Bound.Stmt) → Store → Flow
  | none, s => .passed s
  | some body, s => run body s

noncomputable def runArms : List Bound.ElseIf → Flow → Store → Flow
  | [], fallback, _ => fallback
  | .mk test body :: more, fallback, s =>
    .choose (s.test? symbols test) (run body s.enter) (runArms more fallback s)

end

noncomputable def runFunction (f : Bound.Function) (ρ : Valuation) : Flow :=
  match TermType.ofTy? f.returnType with
  | some ret => run symbols ret k f.body (.ofParams symbols f.params ρ)
  | none => .stuck

end Run

namespace Store

variable {symbols : SymbolTable} {s h : Store} {name : String}

theorem find?_context : s.context.find? name = (s.names.lookup name).map (·.meaning name) := by
  have hlookup : s.context.inner.lookup name = (s.names.lookup name).map (·.meaning name) :=
    Table.lookup_mapEntry Shape.meaning name s.names
  rw [Context.find?, findSome?_cons, hlookup]
  cases s.names.lookup name <;> rfl

theorem term?_eq_some_iff {e : Bound.Expr} {t : Term} :
    s.term? symbols e = some t ↔ ∃ c, Encodes symbols e s.context t c := by
  unfold term?
  constructor
  · intro h
    rcases hrun : outcome (Encode.expr symbols e) s.context with ⟨r, c⟩
    rw [hrun] at h
    cases r with
    | error fault => cases h
    | ok u =>
      cases h
      exact ⟨c, encodes_of_runs e hrun⟩
  · rintro ⟨c, h⟩
    rw [h.runs]
    rfl

theorem assign?_eq_some_iff {symbol : SymbolId} {value : Bound.Expr} {span : Span} {s' : Store} :
    s.assign? symbols symbol value span = some s' ↔
      ∃ t t', s.term? symbols value = some t ∧ convert? symbols symbol span t = some t' ∧
        s' = s.bind (symbols.name symbol) t' := by
  simp only [assign?, Option.bind_eq_bind, Option.bind_eq_some_iff, Option.pure_def, Option.some.injEq]
  constructor
  · rintro ⟨t, ht, t', ht', rfl⟩
    exact ⟨t, t', ht, ht', rfl⟩
  · rintro ⟨t, t', ht, ht', rfl⟩
    exact ⟨t, ht, t', ht', rfl⟩

theorem result?_eq_some_iff {ret : TermType} {value : Bound.Expr} {span : Span} {v : Denotation} :
    s.result? symbols ret value span = some v ↔
      ∃ t t', s.term? symbols value = some t ∧ t.coerce ret span = .ok t' ∧
        v = t'.formula.denote s.values := by
  simp only [result?, Option.bind_eq_bind, Option.bind_eq_some_iff, Option.pure_def, Option.some.injEq]
  constructor
  · rintro ⟨t, ht, t', ht', rfl⟩
    cases hcoerce : t.coerce ret span with
    | error fault =>
      rw [hcoerce] at ht'
      cases ht'
    | ok u =>
      rw [hcoerce] at ht'
      cases ht'
      exact ⟨t, _, ht, hcoerce, rfl⟩
  · rintro ⟨t, t', ht, ht', rfl⟩
    exact ⟨t, ht, t', by rw [ht']; rfl, rfl⟩

theorem test?_eq_some_iff {test : Bound.Expr} {b : Bool} :
    s.test? symbols test = some b ↔
      ∃ t, s.term? symbols test = some t ∧ t.ty = .bool ∧ b = (t.formula.denote s.values).isTrue := by
  simp only [test?, Option.bind_eq_bind, Option.bind_eq_some_iff]
  refine exists_congr fun t => and_congr_right fun _ => ?_
  split <;> simp_all [eq_comm]

theorem term?_of_encodes {W : World} {c c' : Context} {e : Bound.Expr} {t : Term}
    (h : Encodes symbols e c t c') (hplain : ExprReads symbols.PlainId e)
    (hclosed : Closed c.fresh 0 W) (hsim : Simulates W c s.context) :
    ∃ u, s.term? symbols e = some u ∧ Equates W t u := by
  obtain ⟨u, d, hu, heq⟩ := h.simulates hplain hclosed hsim
  exact ⟨u, term?_eq_some_iff.mpr ⟨d, hu⟩, heq⟩

end Store

theorem Store.convert?_eq_some {symbols : SymbolTable} {symbol : SymbolId} {span : Span}
    {t t' : Term} (h : convert? symbols symbol span t = some t') :
    t' = t ∨ ∃ target, TermType.ofTy? (symbols.ty symbol) = some target ∧
      t.coerce target span = .ok t' := by
  unfold convert? at h
  split at h
  · next target htarget =>
    split at h
    · exact .inl (Option.some.inj h).symm
    · cases hcoerce : t.coerce target span <;> rw [hcoerce] at h <;> cases h
      exact .inr ⟨target, htarget, hcoerce⟩
  · exact .inl (Option.some.inj h).symm

theorem Equates.convert? {symbols : SymbolTable} {W : World} {t t' u : Term} {symbol : SymbolId}
    {span : Span} (h : Equates W t u) (ht : Store.convert? symbols symbol span t = some t') :
    ∃ u', Store.convert? symbols symbol span u = some u' ∧ Equates W t' u' := by
  unfold Store.convert? at ht ⊢
  rw [h.ty]
  split at ht
  · next target _ =>
    split at ht
    · next he =>
      cases ht
      exact ⟨u, if_pos he, h⟩
    · next he =>
      rw [if_neg he]
      cases hcoerce : t.coerce target span with
      | error fault =>
        rw [hcoerce] at ht
        cases ht
      | ok v =>
        rw [hcoerce] at ht
        cases ht
        obtain ⟨u', hu', heq⟩ := h.coerce hcoerce
        rw [hu']
        exact ⟨u', rfl, heq⟩
  · cases ht
    exact ⟨u, rfl, h⟩

structure Below (h s : Store) : Prop where
  names : ∀ name shape, h.names.lookup name = some shape →
    s.names.lookup name = some shape ∧ s.values name = h.values name
  bound : s.bound = h.bound

namespace Below

variable {symbols : SymbolTable} {h h' s s' : Store}

def world (h : Store) : World :=
  fun ρ σ => ∀ name, Plain name → (h.names.lookup name).isSome → ρ name = σ name

theorem closed_world : Closed 0 0 (world h) := by
  intro ρ σ hρ n m hn hm x name hname hsome
  have hne : name ≠ n := fun he => hn.not_plain (he ▸ hname)
  have hme : name ≠ m := fun he => hm.not_plain (he ▸ hname)
  rw [Function.update_of_ne hne, Function.update_of_ne hme]
  exact hρ name hname hsome

theorem world_values (hs : Below h s) : world h h.values s.values := by
  intro name _ hsome
  obtain ⟨shape, hshape⟩ := Option.isSome_iff_exists.mp hsome
  exact (hs.names name shape hshape).2.symm

theorem simulates (hs : Below h s) : Simulates (world h) h.context s.context := by
  intro name hname m hm
  rw [Store.find?_context] at hm ⊢
  obtain ⟨shape, hshape, rfl⟩ := Option.map_eq_some_iff.mp hm
  have hsome : (h.names.lookup name).isSome := by rw [hshape, Option.isSome_some]
  rw [(hs.names name shape hshape).1]
  refine ⟨_, rfl, ?_⟩
  cases shape with
  | value ty literal =>
    refine .term ⟨rfl, rfl, fun ρ σ hW => ?_⟩
    simp only [Formula.denote, hW name hname hsome]
  | array element => exact .array element fun ρ σ hW => hW name hname hsome

theorem term? (hs : Below h s) {e : Bound.Expr} {t : Term} (hplain : ExprReads symbols.PlainId e)
    (ht : h.term? symbols e = some t) : ∃ u, s.term? symbols e = some u ∧ Equates (world h) t u := by
  obtain ⟨c, hc⟩ := Store.term?_eq_some_iff.mp ht
  exact Store.term?_of_encodes hc hplain closed_world hs.simulates

theorem bind (hs : Below h s) (name : String) {t u : Term} (htu : Equates (world h) t u) :
    Below (h.bind name t) (s.bind name u) := by
  refine ⟨fun other shape hshape => ?_, congrArg (name :: ·) hs.bound⟩
  simp only [Store.bind, Table.lookup_cons_ite] at hshape ⊢
  split at hshape
  · next he =>
    cases hshape
    rw [if_pos he, htu.ty, htu.literal, he, Function.update_self, Function.update_self,
      htu.denote _ _ hs.world_values]
    exact ⟨rfl, rfl⟩
  · next he =>
    rw [if_neg he, Function.update_of_ne he, Function.update_of_ne he]
    exact hs.names other shape hshape

theorem assign? (hs : Below h s) {symbol : SymbolId} {value : Bound.Expr} {span : Span}
    (hplain : ExprReads symbols.PlainId value) (hh : h.assign? symbols symbol value span = some h') :
    ∃ s', s.assign? symbols symbol value span = some s' ∧ Below h' s' := by
  obtain ⟨t, t', ht, ht', rfl⟩ := Store.assign?_eq_some_iff.mp hh
  obtain ⟨u, hu, htu⟩ := hs.term? hplain ht
  obtain ⟨u', hu', htu'⟩ := htu.convert? ht'
  exact ⟨_, Store.assign?_eq_some_iff.mpr ⟨u, u', hu, hu', rfl⟩, hs.bind _ htu'⟩

theorem result? (hs : Below h s) {ret : TermType} {value : Bound.Expr} {span : Span} {v : Denotation}
    (hplain : ExprReads symbols.PlainId value) (hh : h.result? symbols ret value span = some v) :
    s.result? symbols ret value span = some v := by
  obtain ⟨t, t', ht, ht', rfl⟩ := Store.result?_eq_some_iff.mp hh
  obtain ⟨u, hu, htu⟩ := hs.term? hplain ht
  obtain ⟨u', hu', htu'⟩ := htu.coerce ht'
  exact Store.result?_eq_some_iff.mpr ⟨u, u', hu, hu', htu'.denote _ _ hs.world_values⟩

theorem test? (hs : Below h s) {test : Bound.Expr} {b : Bool}
    (hplain : ExprReads symbols.PlainId test) (hh : h.test? symbols test = some b) :
    s.test? symbols test = some b := by
  obtain ⟨t, ht, hbool, rfl⟩ := Store.test?_eq_some_iff.mp hh
  obtain ⟨u, hu, htu⟩ := hs.term? hplain ht
  exact Store.test?_eq_some_iff.mpr ⟨u, hu, htu.ty.trans hbool, by rw [htu.denote _ _ hs.world_values]⟩

theorem enter (hs : Below h s) : Below h.enter s.enter := ⟨hs.names, rfl⟩

end Below

theorem lookup_filter {names : List (String × Shape)} {hidden : List String} {name : String}
    (h : name ∉ hidden) :
    (names.filter (!hidden.contains ·.1)).lookup name = names.lookup name := by
  rw [Table.lookup_filter (fun name => !hidden.contains name), if_pos (by simpa using h)]

structure Framed (s s' : Store) : Prop where
  bound : ∀ name ∈ s.bound, name ∈ s'.bound
  names : ∀ name, name ∉ s'.bound → s'.names.lookup name = s.names.lookup name
  values : ∀ name, name ∉ s'.bound → s'.values name = s.values name

namespace Framed

variable {symbols : SymbolTable} {s s' s'' : Store}

theorem refl (s : Store) : Framed s s := ⟨fun _ h => h, fun _ _ => rfl, fun _ _ => rfl⟩

theorem trans (h : Framed s s') (h' : Framed s' s'') : Framed s s'' where
  bound name hname := h'.bound name (h.bound name hname)
  names name hname := (h'.names name hname).trans (h.names name fun hmem => hname (h'.bound name hmem))
  values name hname := (h'.values name hname).trans (h.values name fun hmem => hname (h'.bound name hmem))

theorem assign? {symbol : SymbolId} {value : Bound.Expr} {span : Span}
    (h : s.assign? symbols symbol value span = some s') : Framed s s' := by
  obtain ⟨t, t', -, -, rfl⟩ := Store.assign?_eq_some_iff.mp h
  have hne (name : String) (hname : name ∉ (s.bind (symbols.name symbol) t').bound) :
      name ≠ symbols.name symbol :=
    fun he => hname (he ▸ mem_cons_self)
  refine ⟨fun name hname => mem_cons_of_mem _ hname, fun name hname => ?_, fun name hname => ?_⟩
  · simp only [Store.bind, Table.lookup_cons_ite, if_neg (hne name hname)]
  · simp only [Store.bind, Function.update_of_ne (hne name hname)]

/-- Whatever a left arm leaves behind, only names that it bound can differ from before. -/
theorem leave (k : Scoping) (h : Framed s.enter s') : Framed s (k.leave s s') := by
  have hbound (name : String) (hname : name ∉ s'.bound ++ s.bound) : name ∉ s'.bound :=
    fun hmem => hname (mem_append_left _ hmem)
  cases k with
  | lexical => exact ⟨fun _ hmem => mem_append_right _ hmem, fun _ _ => rfl, fun _ _ => rfl⟩
  | leaking =>
    exact ⟨fun _ hmem => mem_append_right _ hmem, fun name hname => h.names name (hbound name hname),
      fun name hname => h.values name (hbound name hname)⟩
  | hidden =>
    exact ⟨fun _ hmem => mem_append_right _ hmem, fun name hname => lookup_filter (hbound name hname),
      fun _ _ => rfl⟩

end Framed

theorem Below.leave {h h' s s' : Store} (k : Scoping) (hs : Below h s) (hs' : Below h' s')
    (hframed : Framed s.enter s') : Below (Scoping.leave .hidden h h') (k.leave s s') := by
  have hbound : (k.leave s s').bound = (Scoping.leave .hidden h h').bound := by
    cases k <;> simp only [Scoping.leave, hs.bound, hs'.bound]
  refine ⟨fun name shape hshape => ?_, hbound⟩
  have hname : name ∉ h'.bound := by
    intro hmem
    simp only [Scoping.leave, lookup_eq_some_iff] at hshape
    obtain ⟨l, r, heq, -⟩ := hshape
    have hin : (name, shape) ∈ h.names.filter (!h'.bound.contains ·.1) := by
      rw [heq]
      simp
    simp [hmem] at hin
  have hvisible := hs.names name shape ((lookup_filter hname).symm.trans hshape)
  rw [← hs'.bound] at hname
  cases k with
  | lexical => exact hvisible
  | leaking => exact ⟨(hframed.names name hname).trans hvisible.1,
    (hframed.values name hname).trans hvisible.2⟩
  | hidden => exact ⟨(lookup_filter hname).trans hvisible.1, hvisible.2⟩

/-- The first end tells the second one, unless it is stuck. The second store comes from `s₀`. -/
inductive Flow.Decides (s₀ : Store) : Flow → Flow → Prop
  | returned (v : Denotation) : Decides s₀ (.returned v) (.returned v)
  | passed {h s : Store} : Below h s → Framed s₀ s → Decides s₀ (.passed h) (.passed s)
  | stuck (b : Flow) : Decides s₀ .stuck b

namespace Flow.Decides

variable {s₀ s₁ : Store} {a a' b b' : Flow}

theorem framed (h : Decides s₁ a b) (hs : Framed s₀ s₁) : Decides s₀ a b := by
  cases h with
  | returned v => exact .returned v
  | passed hbelow hframed => exact .passed hbelow (hs.trans hframed)
  | stuck b => exact .stuck b

theorem andThen {f g : Store → Flow} (hab : Decides s₁ a b)
    (hnext : ∀ h s, Below h s → Framed s₁ s → Decides s₀ (f h) (g s)) :
    Decides s₀ (a.andThen f) (b.andThen g) := by
  cases hab with
  | returned v => exact .returned v
  | passed hs hframed => exact hnext _ _ hs hframed
  | stuck b => exact .stuck _

theorem choose {test test' : Option Bool} (htest : ∀ x, test = some x → test' = some x)
    (hyes : Decides s₀ a b) (hno : Decides s₀ a' b') :
    Decides s₀ (Flow.choose test a a') (Flow.choose test' b b') := by
  cases test with
  | none => exact .stuck _
  | some x =>
    rw [htest x rfl]
    cases x with
    | false => exact hno
    | true => exact hyes

theorem of_returned {v : Denotation} (h : Decides s₀ a (.returned v)) (ha : a ≠ .stuck) :
    a = .returned v := by
  cases h with
  | returned v => rfl
  | stuck b => exact absurd rfl ha

theorem returned_eq {v : Denotation} (h : Decides s₀ (.returned v) b) : b = .returned v := by
  cases h
  rfl

end Flow.Decides

section Scopings

variable {symbols : SymbolTable} {ret : TermType} {k : Scoping}

mutual

/-- A run that hides the names of left arms tells how every run ends. -/
theorem run_decides : (body : List Bound.Stmt) → StmtsRead symbols.PlainId body → {h s : Store} →
    Below h s → Flow.Decides s (run symbols ret .hidden body h) (run symbols ret k body s)
  | [], _, h, s, hs => by
    rw [run, run]
    exact .passed hs (.refl s)
  | .bind symbol value span :: more, hplain, h, s, hs => by
    rw [StmtsRead] at hplain
    rw [run, run]
    cases hh : h.assign? symbols symbol value span with
    | none => exact .stuck _
    | some h' =>
      obtain ⟨s', hs', hbelow⟩ := hs.assign? hplain.1 hh
      rw [hs']
      exact (run_decides more hplain.2 hbelow).framed (.assign? hs')
  | .ret (some value) span :: more, hplain, h, s, hs => by
    rw [StmtsRead] at hplain
    rw [run, run]
    cases hh : h.result? symbols ret value span with
    | none => exact .stuck _
    | some v =>
      rw [hs.result? hplain.1 hh]
      exact .returned v
  | .branch test body others otherwise span :: more, hplain, h, s, hs => by
    rw [StmtsRead] at hplain
    obtain ⟨⟨htest, hbody, hothers, hotherwise⟩, hmore⟩ := hplain
    rw [run, run]
    have hfallback := runOtherwise_decides otherwise hotherwise hs.enter
    have harm := (run_decides body hbody hs.enter).choose (fun _ => hs.test? htest)
      (runArms_decides others hothers hs hfallback)
    exact harm.andThen fun h' s' hs' hframed =>
      (run_decides more hmore (hs.leave k hs' hframed)).framed (hframed.leave k)
  | .ret none _ :: _, _, _, _, _ | .assign _ _ _ :: _, _, _, _, _ | .count _ _ _ _ _ _ :: _, _, _, _, _
  | .each _ _ _ _ :: _, _, _, _, _ | .loop _ _ _ :: _, _, _, _, _ | .matching _ :: _, _, _, _, _
  | .attempt _ _ _ _ :: _, _, _, _, _ | .raise _ _ :: _, _, _, _, _ | .call _ _ :: _, _, _, _, _ => by
    rw [run]
    · exact .stuck _
    all_goals simp

theorem runOtherwise_decides : (otherwise : Option (List Bound.Stmt)) →
    OtherwiseReads symbols.PlainId otherwise → {h s : Store} → Below h s →
    Flow.Decides s (runOtherwise symbols ret .hidden otherwise h) (runOtherwise symbols ret k otherwise s)
  | none, _, h, s, hs => by
    rw [runOtherwise, runOtherwise]
    exact .passed hs (.refl s)
  | some body, hplain, h, s, hs => by
    rw [OtherwiseReads] at hplain
    rw [runOtherwise, runOtherwise]
    exact run_decides body hplain hs

theorem runArms_decides : (others : List Bound.ElseIf) → ElseIfsRead symbols.PlainId others →
    {h s : Store} → {a b : Flow} → Below h s → Flow.Decides s.enter a b →
    Flow.Decides s.enter (runArms symbols ret .hidden others a h) (runArms symbols ret k others b s)
  | [], _, h, s, a, b, _, hab => by
    rw [runArms, runArms]
    exact hab
  | .mk test body :: more, hplain, h, s, a, b, hs, hab => by
    rw [ElseIfsRead] at hplain
    obtain ⟨⟨htest, hbody⟩, hmore⟩ := hplain
    rw [runArms, runArms]
    exact (run_decides body hbody hs.enter).choose (fun _ => hs.test? htest)
      (runArms_decides more hmore hs hab)

end

end Scopings

end TagLang.Contract
