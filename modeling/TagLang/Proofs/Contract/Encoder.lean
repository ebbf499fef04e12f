import TagLang.Contract.Summary
import TagLang.Proofs.Table
import TagLang.Proofs.Token.Name
import Mathlib.Logic.Function.Basic
import Mathlib.Data.List.Basic

/-! # Runs of encoders

What it means that an encoder ends with a value, step by step, and what every run of an encoding
leaves as it was: the scopes stay, and the arrays and fresh names in use only become more.
-/

namespace TagLang.Contract
open List

/-- A name that some context gives out as a fresh one, with a number from `k` on. -/
def FreshFrom (k : Nat) (name : String) : Prop := ∃ base : String, ∃ i, k ≤ i ∧ name = s!"{base}!q{i}"

theorem FreshFrom.mono {k k' : Nat} {name : String} (h : FreshFrom k' name) (hk : k ≤ k') :
    FreshFrom k name := by
  obtain ⟨base, i, hi, rfl⟩ := h
  exact ⟨base, i, Nat.le_trans hk hi, rfl⟩

theorem Context.freshFrom_freshName (c : Context) (base : String) :
    FreshFrom c.fresh (c.freshName base) :=
  ⟨base, c.fresh, Nat.le_refl _, rfl⟩

theorem toList_freshName (base : String) (i : Nat) :
    (s!"{base}!q{i}").toList = base.toList ++ '!' :: 'q' :: Nat.toDigits 10 i := by
  simp [toString, Nat.repr]

theorem FreshFrom.not_plain {k : Nat} {name : String} (h : FreshFrom k name) : ¬Plain name := by
  obtain ⟨base, i, -, rfl⟩ := h
  intro hplain
  apply hplain
  rw [toList_freshName]
  simp

theorem toDigits_injective {m n : Nat} (h : Nat.toDigits 10 m = Nat.toDigits 10 n) : m = n := by
  rw [← Nat.ofDigitChars_ten_toDigits (n := m), h, Nat.ofDigitChars_ten_toDigits]

theorem freshName_number {base other : String} {i j : Nat}
    (h : s!"{base}!q{i}" = s!"{other}!q{j}") : i = j := by
  have hdigit (k : Nat) : 'q' ∉ Nat.toDigits 10 k := by
    intro hq
    simpa using Nat.isDigit_of_mem_toDigits (by decide) (by decide) hq
  have hlist := congrArg String.toList h
  rw [toList_freshName, toList_freshName] at hlist
  -- what stands behind the last `q` is the number
  have hsuffix (b : String) (k : Nat) :
      (b.toList ++ '!' :: 'q' :: Nat.toDigits 10 k).reverse.takeWhile (· ≠ 'q') =
        (Nat.toDigits 10 k).reverse := by
    have hnone : ∀ c ∈ (Nat.toDigits 10 k).reverse, decide (c ≠ 'q') = true := by
      intro c hc
      exact decide_eq_true fun he => hdigit k (he ▸ mem_reverse.mp hc)
    simp only [reverse_append, reverse_cons, append_assoc, singleton_append]
    rw [takeWhile_append_of_pos hnone]
    simp
  apply toDigits_injective
  rw [← reverse_inj, ← hsuffix base i, hlist, hsuffix other j]

theorem Context.not_freshFrom_succ (c : Context) (base : String) :
    ¬FreshFrom (c.fresh + 1) (c.freshName base) := by
  rintro ⟨other, i, hi, heq⟩
  have hnumber : c.fresh = i := freshName_number heq
  omega

variable {α β : Type}

def outcome (x : Encoder α) (c : Context) : Except EncodeError α × Context := x.run.run c

def Runs (x : Encoder α) (c : Context) (a : α) (c' : Context) : Prop := outcome x c = (.ok a, c')

theorem outcome_bind (x : Encoder α) (f : α → Encoder β) (c : Context) :
    outcome (x >>= f) c = match outcome x c with
      | (.ok a, c₁) => outcome (f a) c₁
      | (.error e, c₁) => (.error e, c₁) := by
  unfold outcome ExceptT.run StateT.run
  simp only [Bind.bind, ExceptT.bind, ExceptT.mk, StateT.bind, ExceptT.bindCont]
  rcases x c with ⟨r, c₁⟩
  cases r <;> rfl

section Steps

variable {c c' : Context} {a b : α} {span : Span}

theorem runs_pure : Runs (pure a) c b c' ↔ b = a ∧ c' = c := by
  rw [Runs, show outcome (pure a) c = (.ok a, c) from rfl]
  simp [eq_comm]

theorem runs_bind {x : Encoder α} {f : α → Encoder β} {b : β} :
    Runs (x >>= f) c b c' ↔ ∃ a c₁, Runs x c a c₁ ∧ Runs (f a) c₁ b c' := by
  unfold Runs
  rw [outcome_bind]
  rcases outcome x c with ⟨r, c₁⟩
  cases r <;> simp

theorem runs_get {a : Context} : Runs get c a c' ↔ a = c ∧ c' = c := by
  rw [Runs, show outcome get c = (.ok c, c) from rfl]
  simp [eq_comm]

theorem runs_set {s : Context} {u : PUnit} : Runs (set s) c u c' ↔ c' = s := by
  rw [Runs, show outcome (set s) c = (.ok ⟨⟩, s) from rfl]
  simp [eq_comm]

theorem runs_modify {f : Context → Context} {u : PUnit} : Runs (modify f) c u c' ↔ c' = f c := by
  rw [Runs, show outcome (modify f) c = (.ok ⟨⟩, f c) from rfl]
  simp [eq_comm]

theorem not_runs_fail {fault : EncodeFault} : ¬Runs (fail fault span) c a c' := by
  rw [Runs, show outcome (fail fault span : Encoder α) c = (.error ⟨fault, span⟩, c) from rfl]
  simp

theorem not_runs_unsupported {construct : String} : ¬Runs (unsupported construct span) c a c' :=
  not_runs_fail

theorem runs_orFail {fault : EncodeFault} {o : Option α} :
    Runs (orFail fault span o) c a c' ↔ o = some a ∧ c' = c := by
  cases o with
  | none => simp [orFail, not_runs_fail]
  | some b =>
    rw [orFail, runs_pure]
    simp [eq_comm]

theorem runs_ofExcept {r : Except EncodeError α} : Runs (ofExcept r) c a c' ↔ r = .ok a ∧ c' = c := by
  cases r with
  | error e =>
    rw [Runs, show outcome (ofExcept (.error e) : Encoder α) c = (.error e, c) from rfl]
    simp
  | ok b =>
    rw [Runs, show outcome (ofExcept (.ok b) : Encoder α) c = (.ok b, c) from rfl]
    simp [eq_comm]

theorem runs_toBool {t : Term} {f : Formula} :
    Runs (toBool t span) c f c' ↔ t.ty = .bool ∧ f = t.formula ∧ c' = c := by
  unfold toBool
  cases t.ty with
  | bool => simp [runs_pure]
  | int width signed => simp [not_runs_unsupported]

theorem runs_nested {x : Encoder α} :
    Runs (nested x) c a c' ↔ ∃ c₁, Runs x c.push a c₁ ∧ c' = c₁.pop := by
  have hrun : outcome (nested x) c = ((outcome x c.push).1, (outcome x c.push).2.pop) := rfl
  unfold Runs
  rw [hrun]
  rcases outcome x c.push with ⟨r, c₁⟩
  simp [and_assoc, eq_comm]

end Steps

def Context.ArraysIn (c c' : Context) : Prop :=
  ∀ name, c.arrays.contains name = true → c'.arrays.contains name = true

theorem Context.ArraysIn.useArray {c c' : Context} (h : c.ArraysIn c') (array : String) :
    c.ArraysIn (c'.useArray array) := by
  intro name hname
  change ((c'.arrays.insert array ()).get? name).isSome = true
  rw [Table.get?_insert]
  split
  · rfl
  · exact h name hname

/-- Both contexts show the same scopes, and the second has given out no fewer fresh names and uses
no fewer arrays. -/
structure Keeps (c c' : Context) : Prop where
  inner : c'.inner = c.inner
  outer : c'.outer = c.outer
  fresh : c.fresh ≤ c'.fresh
  arrays : c.ArraysIn c'

namespace Keeps

variable {c c' c'' : Context}

theorem refl (c : Context) : Keeps c c := ⟨rfl, rfl, Nat.le_refl _, fun _ h => h⟩

theorem trans (h : Keeps c c') (h' : Keeps c' c'') : Keeps c c'' :=
  ⟨h'.inner.trans h.inner, h'.outer.trans h.outer, Nat.le_trans h.fresh h'.fresh,
    fun name hname => h'.arrays name (h.arrays name hname)⟩

theorem find? (h : Keeps c c') (name : String) : c'.find? name = c.find? name := by
  rw [Context.find?, Context.find?, h.inner, h.outer]

theorem useArray (h : Keeps c c') (name : String) : Keeps c (c'.useArray name) :=
  ⟨h.inner, h.outer, h.fresh, h.arrays.useArray name⟩

theorem pop (houter : c'.outer = c.push.outer) (hfresh : c.fresh ≤ c'.fresh)
    (harrays : c.ArraysIn c') : Keeps c c'.pop := by
  have hpop : c'.pop = { c' with inner := c.inner, outer := c.outer } := by
    rw [Context.pop, houter, Context.push]
  rw [hpop]
  exact ⟨rfl, rfl, hfresh, harrays⟩

end Keeps

def Steady (x : Encoder α) : Prop := ∀ c, Keeps c (outcome x c).2

def Inside (x : Encoder α) : Prop :=
  ∀ c, (outcome x c).2.outer = c.outer ∧ c.fresh ≤ (outcome x c).2.fresh ∧ c.ArraysIn (outcome x c).2

section Scopes

variable {x : Encoder α} {f : α → Encoder β} {span : Span}

theorem Steady.inside (h : Steady x) : Inside x := fun c => ⟨(h c).outer, (h c).fresh, (h c).arrays⟩

theorem Steady.keeps (h : Steady x) {c c' : Context} {a : α} (hx : Runs x c a c') : Keeps c c' := by
  have := h c
  rwa [hx] at this

theorem Inside.bind (hx : Inside x) (hf : ∀ a, Inside (f a)) : Inside (x >>= f) := by
  intro c
  have hfirst := hx c
  rw [outcome_bind]
  rcases hr : outcome x c with ⟨r, c₁⟩
  rw [hr] at hfirst
  cases r with
  | error e => exact hfirst
  | ok a =>
    obtain ⟨houter, hfresh, harrays⟩ := hfirst
    obtain ⟨houter', hfresh', harrays'⟩ := hf a c₁
    exact ⟨houter'.trans houter, Nat.le_trans hfresh hfresh', fun name hname =>
      harrays' name (harrays name hname)⟩

theorem Steady.bind (hx : Steady x) (hf : ∀ a, Steady (f a)) : Steady (x >>= f) := by
  intro c
  have hkeeps := hx c
  rw [outcome_bind]
  rcases hr : outcome x c with ⟨r, c₁⟩
  rw [hr] at hkeeps
  cases r with
  | error e => exact hkeeps
  | ok a => exact hkeeps.trans (hf a c₁)

theorem steady_nested (h : Inside x) : Steady (nested x) := by
  intro c
  obtain ⟨houter, hfresh, harrays⟩ := h c.push
  exact .pop houter hfresh harrays

theorem steady_pure (a : α) : Steady (pure a) := .refl

theorem steady_get : Steady get := .refl

theorem steady_fail (fault : EncodeFault) : Steady (fail fault span : Encoder α) := .refl

theorem steady_orFail (fault : EncodeFault) (o : Option α) : Steady (orFail fault span o) := by
  cases o with
  | none => exact steady_fail fault
  | some a => exact steady_pure a

theorem steady_ofExcept (r : Except EncodeError α) : Steady (ofExcept r) := by
  cases r <;> exact fun c => .refl c

theorem steady_useArray (name : String) : Steady (modify (·.useArray name)) :=
  fun c => (Keeps.refl c).useArray name

theorem steady_toBool (t : Term) : Steady (toBool t span) := by
  unfold toBool
  split
  · exact steady_pure _
  · exact steady_fail _

end Scopes

section Expressions

variable (symbols : SymbolTable)

/-- How an expression that contracts can speak of becomes a term, case by case. -/
inductive Encodes : Bound.Expr → Context → Term → Context → Prop
  | int (n : Int) (ty : Ty) (span : Span) (c : Context) :
    Encodes (.mk (.int n) ty span) c (.ofLiteral n) c
  | bool (b : Bool) (ty : Ty) (span : Span) (c : Context) :
    Encodes (.mk (.bool b) ty span) c { formula := .bool b, ty := .bool } c
  | var {id : SymbolId} {c : Context} {t : Term} (ty : Ty) (span : Span) :
    c.find? (symbols.name id) = some (.term t) → Encodes (.mk (.var id) ty span) c t c
  | index {id : SymbolId} {place : Bound.Expr} {c c' : Context} {t : Term} {width w : Nat} {signed : Bool}
    (baseTy ty : Ty) (baseSpan span : Span) :
    c.find? (symbols.name id) = some (.array (.int width signed)) → Encodes place c t c' →
      t.width? = some w →
    Encodes (.mk (.index (.mk (.var id) baseTy baseSpan) place) ty span) c
      { formula := .select (.var (symbols.name id) (.array Context.indexWidth width))
          (t.extendTo Context.indexWidth),
        ty := .int width signed }
      (c'.useArray (symbols.name id))
  | binary {left right : Bound.Expr} {op : BinOp} {c c₁ c₂ : Context} {a b t : Term} (ty : Ty)
    (span : Span) : op ≠ .coalesce → Encodes left c a c₁ → Encodes right c₁ b c₂ →
    Term.binary? op a b = some t → Encodes (.mk (.binary left op right) ty span) c t c₂
  | unary {operand : Bound.Expr} {op : UnaryOp} {c c' : Context} {a t : Term} (ty : Ty)
    (span : Span) : Encodes operand c a c' → Term.unary? op a = some t →
    Encodes (.mk (.unary op operand) ty span) c t c'
  | conditional {test yes no : Bound.Expr} {c c₁ c₂ c₃ : Context} {i a b t : Term} (ty : Ty)
    (span : Span) : Encodes test c i c₁ → i.ty = .bool → Encodes yes c₁ a c₂ → Encodes no c₂ b c₃ →
    Term.choose? i.formula a b = some t → Encodes (.mk (.conditional test yes no) ty span) c t c₃
  | quantifier {vars : List SymbolId} {body : Bound.Expr} {c c₁ c₂ : Context} {t : Term}
    {bound : List (String × VarSort)} (kind : QuantifierKind) (ty : Ty) (span : Span) :
    Runs (Encode.quantified symbols span vars) c.push bound c₁ → Encodes body c₁ t c₂ → t.ty = .bool →
    Encodes (.mk (.quantifier kind vars body) ty span) c
      { formula := .quantifier kind bound t.formula, ty := .bool } c₂.pop

variable {symbols} {c c' : Context} {span : Span} {bound : List (String × VarSort)}

theorem Encodes.runs {e : Bound.Expr} {t : Term} (h : Encodes symbols e c t c') :
    Runs (Encode.expr symbols e) c t c' := by
  induction h with
  | int n ty span c => exact runs_pure.mpr ⟨rfl, rfl⟩
  | bool b ty span c => exact runs_pure.mpr ⟨rfl, rfl⟩
  | @var id c t ty span hfind =>
    simp only [Encode.expr, Encode.exprKind, Encode.ident, runs_bind, runs_get]
    refine ⟨c, c, ⟨rfl, rfl⟩, ?_⟩
    rw [Context.lookup?, hfind]
    exact runs_pure.mpr ⟨rfl, rfl⟩
  | @index id place c c' t width w signed baseTy ty baseSpan span hfind _ hwidth ih =>
    have hbase : Runs (Encode.arrayOf symbols (.mk (.var id) baseTy baseSpan) span) c
        (symbols.name id, .int width signed) c := by
      simp only [Encode.arrayOf, Bound.Expr.kind, runs_bind, runs_get]
      refine ⟨c, c, ⟨rfl, rfl⟩, ?_⟩
      rw [hfind]
      exact runs_pure.mpr ⟨rfl, rfl⟩
    simp only [Encode.expr, Encode.exprKind, runs_bind]
    refine ⟨_, _, hbase, _, _, ih, ?_⟩
    simp only [Encode.element, hwidth, Option.isNone_some, Bool.false_eq_true, if_false, runs_bind,
      runs_modify, runs_pure]
    exact ⟨⟨⟩, _, rfl, trivial, rfl⟩
  | binary ty span hop _ _ ht iha ihb =>
    simp only [Encode.expr, Encode.exprKind, if_neg hop, runs_bind, runs_orFail]
    exact ⟨_, _, iha, _, _, ihb, ht, rfl⟩
  | unary ty span _ ht ih =>
    simp only [Encode.expr, Encode.exprKind, runs_bind, runs_orFail]
    exact ⟨_, _, ih, ht, rfl⟩
  | conditional ty span _ hi _ _ ht ihi iha ihb =>
    simp only [Encode.expr, Encode.exprKind, runs_bind, runs_orFail, runs_toBool]
    exact ⟨_, _, ihi, _, _, ⟨hi, rfl, rfl⟩, _, _, iha, _, _, ihb, ht, rfl⟩
  | quantifier kind ty span hbound _ ht ih =>
    simp only [Encode.expr, Encode.exprKind, runs_bind, runs_nested, runs_toBool, runs_pure]
    exact ⟨(_, _), _, ⟨_, ⟨_, _, hbound, _, _, ih, _, _, ⟨ht, rfl, rfl⟩, rfl, rfl⟩, rfl⟩, rfl, rfl⟩

theorem runs_arrayOf {base : Bound.Expr} {found : String × TermType}
    (h : Runs (Encode.arrayOf symbols base span) c found c') :
    ∃ id ty baseSpan, base = .mk (.var id) ty baseSpan ∧ found.1 = symbols.name id ∧ c' = c ∧
      c.find? (symbols.name id) = some (.array found.2) := by
  obtain ⟨kind, ty, baseSpan⟩ := base
  unfold Encode.arrayOf at h
  simp only [Bound.Expr.kind] at h
  split at h
  · next id =>
    simp only [runs_bind, runs_get] at h
    obtain ⟨_, _, ⟨rfl, rfl⟩, h⟩ := h
    split at h
    · next hfind =>
      obtain ⟨rfl, rfl⟩ := runs_pure.mp h
      exact ⟨id, ty, baseSpan, rfl, rfl, rfl, hfind⟩
    · exact absurd h not_runs_fail
  · exact absurd h not_runs_unsupported

theorem runs_element {name : String} {base : Bound.Expr} {elementType : TermType} {i t : Term}
    (h : Runs (Encode.element name base elementType i span) c t c') :
    ∃ width signed w, elementType = .int width signed ∧ i.width? = some w ∧
      t = ⟨.select (.var name (.array Context.indexWidth width)) (i.extendTo Context.indexWidth),
        .int width signed, none⟩ ∧
      c' = c.useArray name := by
  unfold Encode.element at h
  cases hw : i.width? with
  | none => simp [hw, runs_bind, not_runs_fail] at h
  | some w =>
    simp only [hw, Option.isNone_some, Bool.false_eq_true, if_false, runs_bind, runs_modify] at h
    obtain ⟨_, _, rfl, h⟩ := h
    cases elementType with
    | bool => exact absurd h not_runs_fail
    | int width signed =>
      obtain ⟨rfl, rfl⟩ := runs_pure.mp h
      exact ⟨width, signed, w, rfl, rfl, rfl, rfl⟩

mutual

theorem encodes_of_runs : (e : Bound.Expr) → {c c' : Context} → {t : Term} →
    Runs (Encode.expr symbols e) c t c' → Encodes symbols e c t c'
  | .mk kind ty span, _, _, _, h => encodes_of_runs_kind ty span kind h

theorem encodes_of_runs_kind (ty : Ty) (span : Span) :
    (kind : Bound.ExprKind) → {c c' : Context} → {t : Term} →
    Runs (Encode.exprKind symbols ty span kind) c t c' → Encodes symbols (.mk kind ty span) c t c'
  | .int n, c, c', t, h => by
    obtain ⟨rfl, rfl⟩ := runs_pure.mp h
    exact .int n ty span c'
  | .bool b, c, c', t, h => by
    obtain ⟨rfl, rfl⟩ := runs_pure.mp h
    exact .bool b ty span c'
  | .var id, c, c', t, h => by
    simp only [Encode.exprKind, Encode.ident, runs_bind, runs_get] at h
    obtain ⟨_, _, ⟨rfl, rfl⟩, h⟩ := h
    split at h
    · next u hlookup =>
      obtain ⟨rfl, rfl⟩ := runs_pure.mp h
      refine .var ty span ?_
      unfold Context.lookup? at hlookup
      split at hlookup
      · next hfind => rw [hfind, Option.some.inj hlookup]
      · cases hlookup
    · split at h <;> exact absurd h not_runs_fail
  | .index base place, c, c', t, h => by
    simp only [Encode.exprKind, runs_bind] at h
    obtain ⟨⟨name, elementType⟩, c₁, hbase, i, c₂, hi, h⟩ := h
    obtain ⟨id, baseTy, baseSpan, rfl, rfl, rfl, hfind⟩ := runs_arrayOf hbase
    obtain ⟨width, signed, w, rfl, hwidth, rfl, rfl⟩ := runs_element h
    exact .index baseTy ty baseSpan span hfind (encodes_of_runs place hi) hwidth
  | .binary left op right, c, c', t, h => by
    by_cases hop : op = .coalesce
    · simp only [Encode.exprKind, if_pos hop, runs_bind, not_runs_unsupported, false_and,
        exists_false] at h
    · simp only [Encode.exprKind, if_neg hop, runs_bind, runs_orFail] at h
      obtain ⟨a, c₁, ha, b, c₂, hb, ht, rfl⟩ := h
      exact .binary ty span hop (encodes_of_runs left ha) (encodes_of_runs right hb) ht
  | .unary op operand, c, c', t, h => by
    simp only [Encode.exprKind, runs_bind, runs_orFail] at h
    obtain ⟨a, c₁, ha, ht, rfl⟩ := h
    exact .unary ty span (encodes_of_runs operand ha) ht
  | .conditional test yes no, c, c', t, h => by
    simp only [Encode.exprKind, runs_bind, runs_orFail, runs_toBool] at h
    obtain ⟨i, c₁, hi, _, _, ⟨hbool, rfl, rfl⟩, a, c₂, ha, b, c₃, hb, ht, rfl⟩ := h
    exact .conditional ty span (encodes_of_runs test hi) hbool (encodes_of_runs yes ha)
      (encodes_of_runs no hb) ht
  | .quantifier kind vars body, c, c', t, h => by
    simp only [Encode.exprKind, runs_bind, runs_nested, runs_toBool, runs_pure] at h
    obtain ⟨_, _, ⟨c₂, ⟨bound, c₁, hbound, t, c₃, ht, _, _, ⟨hbool, rfl, rfl⟩, rfl, rfl⟩, rfl⟩, rfl,
        rfl⟩ := h
    exact .quantifier kind ty span hbound (encodes_of_runs body ht) hbool
  | .call target callee receiver args, c, c', t, h => by
    cases callee <;> exact absurd h not_runs_unsupported
  | .float _, _, _, _, h | .str _, _, _, _, h | .null, _, _, _, h | .variant _ _, _, _, _, h
  | .static _, _, _, _, h | .field _ _, _, _, _, h | .create _ _ _, _, _, _, h
  | .someOf _, _, _, _, h | .noneOf, _, _, _, h | .okOf _, _, _, _, h | .errOf _, _, _, _, h
  | .await _, _, _, _, h | .lambda _ _, _, _, _, h | .matching _, _, _, _, h | .error, _, _, _, h =>
    absurd h not_runs_unsupported

end

def Context.quantify (c : Context) (name : String) (t : TermType) : Context :=
  { c.bind name (.var (c.freshName name) t) with fresh := c.fresh + 1 }

theorem runs_quantified_nil :
    Runs (Encode.quantified symbols span []) c bound c' ↔ bound = [] ∧ c' = c := runs_pure

theorem runs_quantified_cons {id : SymbolId} {ids : List SymbolId} :
    Runs (Encode.quantified symbols span (id :: ids)) c bound c' ↔
      ∃ t rest, TermType.ofTy? (symbols.ty id) = some t ∧
        bound = (c.freshName (symbols.name id), t.sort) :: rest ∧
        Runs (Encode.quantified symbols span ids) (c.quantify (symbols.name id) t) rest c' := by
  simp only [Encode.quantified]
  cases TermType.ofTy? (symbols.ty id) with
  | none => simp [not_runs_fail]
  | some t =>
    simp only [runs_bind, runs_get, runs_set, runs_pure]
    constructor
    · rintro ⟨_, _, ⟨rfl, rfl⟩, _, _, rfl, rest, c₂, hrest, rfl, rfl⟩
      exact ⟨t, rest, rfl, rfl, hrest⟩
    · rintro ⟨t, rest, ⟨⟩, rfl, hrest⟩
      exact ⟨_, _, ⟨rfl, rfl⟩, ⟨⟩, _, rfl, rest, c', hrest, rfl, rfl⟩

theorem inside_quantified (span : Span) (ids : List SymbolId) :
    Inside (Encode.quantified symbols span ids) := by
  induction ids with
  | nil => exact (steady_pure _).inside
  | cons id ids ih =>
    unfold Encode.quantified
    dsimp only
    split
    · exact (steady_fail _).inside
    · next t ht =>
      intro c
      have hrest :=
        (ih.bind fun rest => (steady_pure ((c.freshName (symbols.name id), t.sort) :: rest)).inside)
        (c.quantify (symbols.name id) t)
      exact ⟨hrest.1, Nat.le_of_succ_le hrest.2.1, hrest.2.2⟩

theorem steady_arrayOf (base : Bound.Expr) (span : Span) : Steady (Encode.arrayOf symbols base span) := by
  unfold Encode.arrayOf
  split
  · refine steady_get.bind fun c => ?_
    split
    · exact steady_pure _
    · exact steady_fail _
  · exact steady_fail _

theorem steady_element (name : String) (base : Bound.Expr) (ty : TermType) (t : Term) (span : Span) :
    Steady (Encode.element name base ty t span) := by
  cases ty <;> cases hw : t.width? <;>
    simp only [Encode.element, hw, Option.isNone_none, Option.isNone_some, Bool.false_eq_true,
      if_true, if_false]
  · exact (steady_fail _).bind fun _ => (steady_useArray name).bind fun _ => steady_fail _
  · exact (steady_useArray name).bind fun _ => steady_fail _
  · exact (steady_fail _).bind fun _ => (steady_useArray name).bind fun _ => steady_pure _
  · exact (steady_useArray name).bind fun _ => steady_pure _

mutual

/-- The translation of an expression leaves the scopes as they were, also if it fails. -/
theorem steady_expr : (e : Bound.Expr) → Steady (Encode.expr symbols e)
  | .mk kind ty span => steady_exprKind ty span kind

theorem steady_exprKind (ty : Ty) (span : Span) :
    (kind : Bound.ExprKind) → Steady (Encode.exprKind symbols ty span kind)
  | .int _ | .bool _ => steady_pure _
  | .var id => by
    refine steady_get.bind fun c => ?_
    split
    · exact steady_pure _
    · split <;> exact steady_fail _
  | .index base place =>
    (steady_arrayOf base span).bind fun _ => (steady_expr place).bind fun _ => steady_element _ _ _ _ _
  | .binary left op right => by
    have hoperands : Steady (do
        let a ← Encode.expr symbols left
        let b ← Encode.expr symbols right
        orFail (.sortMismatch op.sign) span (Term.binary? op a b)) :=
      (steady_expr left).bind fun _ => (steady_expr right).bind fun _ => steady_orFail _ _
    unfold Encode.exprKind
    split
    · exact (steady_fail _).bind fun _ => hoperands
    · exact hoperands
  | .unary op operand => (steady_expr operand).bind fun t => steady_orFail _ _
  | .conditional test yes no =>
    (steady_expr test).bind fun i => (steady_toBool i).bind fun f => (steady_expr yes).bind fun a =>
      (steady_expr no).bind fun b => steady_orFail _ _
  | .quantifier kind vars body =>
    (steady_nested ((inside_quantified span vars).bind fun bound => ((steady_expr body).bind fun t =>
      (steady_toBool t).bind fun f => steady_pure _).inside)).bind fun _ => steady_pure _
  | .call target callee receiver args => by cases callee <;> exact steady_fail _
  | .float _ | .str _ | .null | .variant _ _ | .static _ | .field _ _ | .create _ _ _ | .someOf _
  | .noneOf | .okOf _ | .errOf _ | .await _ | .lambda _ _ | .matching _ | .error => steady_fail _

end

theorem Encodes.keeps {e : Bound.Expr} {t : Term} (h : Encodes symbols e c t c') : Keeps c c' :=
  (steady_expr e).keeps h.runs

end Expressions

end TagLang.Contract
