import Mathlib.Data.Int.ModEq
import Mathlib.Logic.Relation
import TagLang.Proofs.Contract.Account
import TagLang.Proofs.Contract.Genuine

/-! # The values of literals

A term that comes from an integer literal keeps the value of the literal, through negations,
conversions and bindings. Its formula holds that value modulo the words of its width. So the two
agree exactly if the type of the term has the value: nothing drops the value where a negation or a
conversion leaves the type.
-/

namespace TagLang
open List

namespace Bits

theorem mask_min (width : Nat) : mask width = mask (min width 64) := by
  by_cases h : 64 ≤ width
  · rw [Nat.min_eq_right h, mask, mask, if_pos h, if_pos (Nat.le_refl 64)]
  · rw [Nat.min_eq_left (Nat.le_of_not_le h)]

theorem toSigned_min (word : UInt64) (width : Nat) :
    toSigned word width = toSigned word (min width 64) := by
  rw [toSigned, toSigned, Nat.min_assoc, Nat.min_self]

theorem neg_ofInt (v : Int) (width : Nat) :
    -(ofInt v &&& mask width) &&& mask width = ofInt (-v) &&& mask width := by
  have h64 : min width 64 ≤ 64 := Nat.min_le_right _ _
  rw [mask_min]
  refine (low_inj (fits_and_mask _ h64) (fits_and_mask _ h64)).mp ?_
  rw [low_and_mask _ h64, low_neg _ h64, low_and_mask _ h64, low_and_mask _ h64, low_ofInt _ h64,
    low_ofInt _ h64, BitVec.ofInt_neg]

theorem toSigned_ofInt (v : Int) (width : Nat) :
    toSigned (ofInt v &&& mask width) width = v.bmod (2 ^ min width 64) := by
  have h64 : min width 64 ≤ 64 := Nat.min_le_right _ _
  rw [toSigned_min, mask_min]
  rcases Nat.eq_zero_or_pos (min width 64) with hzero | hpos
  · rw [hzero]
    have hmask : ofInt v &&& mask 0 = 0 := UInt64.and_zero
    rw [hmask, Nat.pow_zero, Int.bmod_one]
    rfl
  · rw [toSigned_eq_toInt _ hpos h64, low_and_mask _ h64, low_ofInt _ h64, BitVec.toInt_ofInt]

theorem toNat_ofInt (v : Int) (width : Nat) :
    ((ofInt v &&& mask width).toNat : Int) = v % (2 ^ min width 64 : Nat) := by
  have h64 : min width 64 ≤ 64 := Nat.min_le_right _ _
  rw [mask_min, ← toNat_low_of_fits (fits_and_mask _ h64), low_and_mask _ h64, low_ofInt _ h64,
    BitVec.toNat_ofInt]
  exact Int.toNat_of_nonneg (Int.emod_nonneg _ (Int.natCast_ne_zero.mpr (Nat.two_pow_pos _).ne'))

end Bits

namespace TermType

/-- The integers of a type. A word has 64 bits, so a wider type has no more integers than that. -/
def Holds : TermType → Int → Prop
  | .bool, _ => False
  | .int width true, v => -2 ^ min width 64 ≤ 2 * v ∧ 2 * v < 2 ^ min width 64
  | .int width false, v => 0 ≤ v ∧ v < 2 ^ min width 64

instance : DecidableRel Holds
  | .bool, _ => inferInstanceAs (Decidable False)
  | .int _ true, _ => inferInstanceAs (Decidable (_ ∧ _))
  | .int _ false, _ => inferInstanceAs (Decidable (_ ∧ _))

end TermType

/-- The integer of a word is the one that the word was made for, modulo the words of the width; and
this integer itself exactly if the type has it. -/
theorem BitValue.toInt?_ofInt (v : Int) (width : Nat) (signed : Bool) :
    ∃ n, (BitValue.ofBits (Bits.ofInt v) width).toInt? signed = some n ∧ n ≡ v [ZMOD 2 ^ min width 64] ∧
      (n = v ↔ (TermType.int width signed).Holds v) := by
  have hpos : 0 < 2 ^ min width 64 := Nat.two_pow_pos _
  have hcast : ((2 ^ min width 64 : Nat) : Int) = 2 ^ min width 64 := Nat.cast_pow 2 _
  cases signed with
  | true =>
    refine ⟨v.bmod (2 ^ min width 64), congrArg some (Bits.toSigned_ofInt v width), ?_, ?_⟩
    · rw [← hcast]
      exact Int.bmod_emod
    · rw [TermType.Holds, ← hcast]
      refine ⟨fun h => ?_, fun h => Int.bmod_eq_of_le (by omega) (by omega)⟩
      have hle : -(((2 ^ min width 64 : Nat) : Int) / 2) ≤ v := h ▸ Int.le_bmod hpos
      have hlt : v < (((2 ^ min width 64 : Nat) : Int) + 1) / 2 := h ▸ Int.bmod_lt hpos
      omega
  | false =>
    refine ⟨v % (2 ^ min width 64 : Nat), congrArg some (Bits.toNat_ofInt v width), ?_, ?_⟩
    · rw [← hcast]
      exact Int.emod_emod _ _
    · rw [TermType.Holds, ← hcast]
      refine ⟨fun h => ?_, fun h => Int.emod_eq_of_lt h.1 h.2⟩
      rw [← h]
      exact ⟨Int.emod_nonneg _ (by omega), Int.emod_lt_of_pos _ (by omega)⟩

namespace Term

/-- A value that the term keeps is in its formula, as far as the width goes. -/
def Tagged (t : Term) : Prop :=
  ∀ v, t.literal = some v → ∃ width signed, t.ty = .int width signed ∧
    ∀ env, t.formula.eval env = .ok (.ofBits (Bits.ofInt v) width)

theorem tagged_of_none {t : Term} (h : t.literal = none) : t.Tagged := by
  intro v hv
  rw [h] at hv
  cases hv

theorem eval_constant (v : Int) (width : Nat) (env : Assignment) :
    (Formula.constant v width).eval env = .ok (.ofBits (Bits.ofInt v) width) := by
  rw [Formula.constant, Formula.eval, BitValue.ofBits, UInt64.and_assoc, UInt64.and_self, BitValue.ofBits]

theorem tagged_ofLiteral (v : Int) : (ofLiteral v).Tagged := by
  intro v' hv'
  cases hv'
  exact ⟨_, true, rfl, fun env => eval_constant v _ env⟩

theorem tagged_var (name : String) (ty : TermType) : (var name ty).Tagged := tagged_of_none rfl

theorem Tagged.negated {t : Term} (h : t.Tagged) : t.negated.Tagged := by
  intro v hv
  obtain ⟨v', hv', hneg⟩ := Option.bind_eq_some_iff.mp hv
  split at hneg
  · cases hneg
  · cases hneg
    obtain ⟨width, signed, hty, heval⟩ := h v' hv'
    refine ⟨width, signed, hty, fun env => ?_⟩
    rw [Term.negated, Formula.eval, heval env, BitValue.ofBits, BitValue.ofBits, ← Bits.neg_ofInt]
    rfl

theorem Tagged.unary? {op : UnaryOp} {a t : Term} (ha : a.Tagged) (h : Term.unary? op a = some t) :
    t.Tagged := by
  unfold Term.unary? at h
  split at h
  · cases h
    exact tagged_of_none rfl
  · cases h
    exact ha.negated
  · cases h
    exact tagged_of_none rfl
  · cases h

theorem tagged_binary? {op : BinOp} {a b t : Term} (h : Term.binary? op a b = some t) : t.Tagged := by
  unfold Term.binary? at h
  split at h
  · obtain ⟨f, -, rfl⟩ := Option.map_eq_some_iff.mp h
    exact tagged_of_none rfl
  · unfold Term.arithmetic? at h
    cases op <;> cases h <;> exact tagged_of_none rfl
  · cases h

theorem tagged_choose? {test : Formula} {a b t : Term} (h : Term.choose? test a b = some t) :
    t.Tagged := by
  unfold Term.choose? at h
  split at h
  · cases h
    exact tagged_of_none rfl
  · cases h
    exact tagged_of_none rfl
  · cases h

theorem Tagged.coerce {a t : Term} {target : TermType} {span : Span} (ha : a.Tagged)
    (h : a.coerce target span = .ok t) : t.Tagged := by
  unfold Term.coerce at h
  split at h
  · cases h
    exact ha
  · next wanted signed _ =>
    split at h
    · next v _ =>
      -- The new constant is `v` at the new width; whether the type can hold `v` is not asked here.
      cases h
      intro v' hv'
      cases hv'
      exact ⟨wanted, signed, rfl, fun env => eval_constant v wanted env⟩
    · split at h <;>
      · cases h
        exact tagged_of_none rfl
  · cases h

end Term

namespace Contract

/-! ## Sequences of translations and conversions -/

structure Stock where
  context : Context := {}
  terms : List Term := []

def Stock.Has (s : Stock) (t : Term) : Prop := t ∈ s.terms ∨ ∃ name, s.context.Holds name (.term t)

inductive Stock.Step (symbols : SymbolTable) : Stock → Stock → Prop
  | translate {s : Stock} {e : Bound.Expr} {t : Term} {c : Context} :
    Runs (Encode.expr symbols e) s.context t c → Step symbols s ⟨c, t :: s.terms⟩
  | fail {s : Stock} {e : Bound.Expr} {cause : EncodeError} {c : Context} :
    outcome (Encode.expr symbols e) s.context = (.error cause, c) →
    Step symbols s { s with context := c }
  | coerce {s : Stock} {a t : Term} {target : TermType} {span : Span} : a ∈ s.terms →
    a.coerce target span = .ok t → Step symbols s { s with terms := t :: s.terms }
  | choose {s : Stock} {yes no : Term} (ret : TermType) (test : Formula) : yes ∈ s.terms →
    no ∈ s.terms → Step symbols s { s with terms := Summary.choose ret test yes no :: s.terms }
  | declare {s : Stock} {name : String} {ty : Ty} {c : Context} :
    s.context.declare? name ty = some c → Step symbols s { s with context := c }
  | bind {s : Stock} {t : Term} (name : String) : t ∈ s.terms →
    Step symbols s { s with context := s.context.bind name t }
  | enter {s : Stock} : Step symbols s { s with context := s.context.push }
  | leave {s : Stock} : Step symbols s { s with context := s.context.pop }

abbrev Stock.Run (symbols : SymbolTable) : Stock → Stock → Prop :=
  Relation.ReflTransGen (Stock.Step symbols)

def Stock.Tagged (s : Stock) : Prop := ∀ t, s.Has t → t.Tagged

section Invariant

variable {symbols : SymbolTable} {name : String} {c c' : Context} {m : Meaning}

theorem Context.tagged_of_holds {s : Stock} (hs : s.Tagged)
    (hc : ∀ name t, c.Holds name (.term t) → s.Has t) : Stock.Tagged { s with context := c } := by
  rintro t (ht | ⟨name, ht⟩)
  · exact hs t (.inl ht)
  · exact hs t (hc name t ht)

theorem Keeps.holds (h : Keeps c c') (hm : c'.Holds name m) : c.Holds name m := by
  rwa [Context.Holds, h.inner, h.outer] at hm

theorem Context.holds_push (h : c.push.Holds name m) : c.Holds name m := by
  obtain ⟨scope, hscope, hlookup⟩ := h
  rcases mem_cons.mp hscope with rfl | hscope
  · cases hlookup
  · exact ⟨scope, hscope, hlookup⟩

theorem Context.holds_pop (h : c.pop.Holds name m) : c.Holds name m := by
  unfold Context.pop at h
  split at h
  · exact h
  · next frame outer houter =>
    obtain ⟨scope, hscope, hlookup⟩ := h
    exact ⟨scope, houter ▸ mem_cons_of_mem _ hscope, hlookup⟩

/-- A translation makes a term with a value from literals, names and negations only. -/
theorem Encodes.tagged {e : Bound.Expr} {t : Term} (h : Encodes symbols e c t c')
    (hc : ∀ name t, c.Holds name (.term t) → t.Tagged) : t.Tagged := by
  induction h with
  | int n ty span c => exact Term.tagged_ofLiteral n
  | bool b ty span c => exact Term.tagged_of_none rfl
  | var ty span hfind => exact hc _ _ (Context.holds_of_find? hfind)
  | index baseTy ty baseSpan span hfind _ _ _ => exact Term.tagged_of_none rfl
  | binary ty span _ _ _ ht _ _ => exact Term.tagged_binary? ht
  | unary ty span _ ht ih => exact (ih hc).unary? ht
  | conditional ty span _ _ _ _ ht _ _ _ => exact Term.tagged_choose? ht
  | quantifier kind ty span _ _ _ _ => exact Term.tagged_of_none rfl

theorem Context.tagged_of_declare? {ty : Ty} (h : c.declare? name ty = some c') {other : String}
    {t : Term} (ht : c'.Holds other (.term t)) : t.Tagged ∨ c.Holds other (.term t) := by
  obtain ⟨m, hm, rfl⟩ := Option.map_eq_some_iff.mp h
  rcases holds_put ht with ⟨-, rfl⟩ | ht
  · unfold meaning? at hm
    split at hm
    · cases hm
      exact .inl (Term.tagged_var name _)
    · split at hm <;> cases hm
    · cases hm
  · exact .inr ht

theorem Stock.Step.tagged {s s' : Stock} (h : Step symbols s s') (hs : s.Tagged) : s'.Tagged := by
  have hcontext (name : String) (t : Term) (ht : s.context.Holds name (.term t)) : t.Tagged :=
    hs t (.inr ⟨name, ht⟩)
  have hadd {u : Term} (hu : u.Tagged) : Stock.Tagged { s with terms := u :: s.terms } := by
    rintro t (ht | ht)
    · rcases mem_cons.mp ht with rfl | ht
      · exact hu
      · exact hs t (.inl ht)
    · exact hs t (.inr ht)
  cases h with
  | @translate e t c hrun =>
    have ht := (encodes_of_runs e hrun).tagged hcontext
    have hkeeps : Keeps s.context c := (steady_expr e).keeps hrun
    exact Context.tagged_of_holds (hadd ht) fun name u hu => .inr ⟨name, hkeeps.holds hu⟩
  | @fail e cause c hrun =>
    have hsteady : Steady (Encode.expr symbols e) := steady_expr e
    have hkeeps : Keeps s.context c := by
      have := hsteady s.context
      rwa [hrun] at this
    exact Context.tagged_of_holds hs fun name u hu => .inr ⟨name, hkeeps.holds hu⟩
  | coerce ha ht => exact hadd ((hs _ (.inl ha)).coerce ht)
  | choose ret test _ _ => exact hadd (Term.tagged_of_none rfl)
  | declare hc =>
    rintro t (ht | ⟨name, ht⟩)
    · exact hs t (.inl ht)
    · exact (Context.tagged_of_declare? hc ht).elim id (hcontext name t)
  | bind name ht =>
    refine Context.tagged_of_holds hs fun other u hu => ?_
    rcases Context.holds_put hu with ⟨-, heq⟩ | hu
    · cases heq
      exact .inl ht
    · exact .inr ⟨other, hu⟩
  | enter => exact Context.tagged_of_holds hs fun name u hu => .inr ⟨name, Context.holds_push hu⟩
  | leave => exact Context.tagged_of_holds hs fun name u hu => .inr ⟨name, Context.holds_pop hu⟩

theorem Stock.Run.tagged {s s' : Stock} (h : Stock.Run symbols s s') (hs : s.Tagged) : s'.Tagged := by
  induction h with
  | refl => exact hs
  | tail _ hstep ih => exact hstep.tagged ih

theorem Stock.tagged_empty : Stock.Tagged {} := by
  rintro t (ht | ⟨name, ht⟩)
  · cases ht
  · exact absurd ht (Context.not_holds_empty name _)

end Invariant

/-! ## Bodies -/

section Bodies

variable {symbols : SymbolTable} {ret : TermType} {t : Term}

/-- An encoder that ends with a term goes through a sequence of steps, and the term is made there. -/
def Stocks (symbols : SymbolTable) (x : Encoder (Option Term)) : Prop :=
  ∀ terms c t c', Runs x c (some t) c' → ∃ more, Stock.Run symbols ⟨c, terms⟩ ⟨c', more⟩ ∧
    terms ⊆ more ∧ t ∈ more

theorem Stocks.nested {x : Encoder (Option Term)} (h : Stocks symbols x) : Stocks symbols (nested x) := by
  intro terms c t c' hx
  obtain ⟨c₁, hrun, rfl⟩ := runs_nested.mp hx
  obtain ⟨more, hsteps, hsub, hmem⟩ := h terms c.push t c₁ hrun
  exact ⟨more, (Relation.ReflTransGen.head .enter hsteps).tail .leave, hsub, hmem⟩

theorem run_translate {e : Bound.Expr} {terms : List Term} {c c' : Context}
    (h : Runs (Encode.expr symbols e) c t c') : Stock.Run symbols ⟨c, terms⟩ ⟨c', t :: terms⟩ :=
  .single (.translate (s := ⟨c, terms⟩) h)

theorem run_convert? {symbol : SymbolId} {span : Span} {terms : List Term} {t' : Term} (c : Context)
    (h : Store.convert? symbols symbol span t = some t') (ht : t ∈ terms) :
    ∃ more, Stock.Run symbols ⟨c, terms⟩ ⟨c, more⟩ ∧ terms ⊆ more ∧ t' ∈ more := by
  rcases Store.convert?_eq_some h with rfl | ⟨target, -, hcoerce⟩
  · exact ⟨terms, .refl, List.Subset.refl _, ht⟩
  · exact ⟨t' :: terms, .single (.coerce (s := ⟨c, terms⟩) ht hcoerce), subset_cons_self _ _,
      mem_cons_self⟩

variable (ret) in
theorem carries_stocks : Carries symbols ret False (Stocks symbols) (Stocks symbols) where
  inside := id
  nested := Stocks.nested
  stop terms c t c' h := by cases (runs_pure.mp h).1
  bind symbol value span _ hx := by
    intro terms c t c' h
    obtain ⟨v, c₁, hv, hassign⟩ := runs_bind.mp h
    obtain ⟨_, c₂, hbind, hmore⟩ := runs_bind.mp hassign
    obtain ⟨v', hconvert, rfl⟩ := runs_bindSymbol.mp hbind
    have hv' : v ∈ v :: terms := mem_cons_self
    obtain ⟨terms₂, hsteps₂, hsub₂, hmem₂⟩ := run_convert? c₁ hconvert hv'
    obtain ⟨terms₃, hsteps₃, hsub₃, hmem⟩ := hx terms₂ _ t c' hmore
    refine ⟨terms₃, (run_translate hv).trans (hsteps₂.trans (.head (.bind _ hmem₂) hsteps₃)), ?_, hmem⟩
    exact fun t ht => hsub₃ (hsub₂ (mem_cons_of_mem v ht))
  result span _ := by
    intro terms c t c' h
    obtain ⟨v, hv, hcoerce⟩ := runs_return h
    refine ⟨t :: v :: terms, ?_, fun t ht => by simp [ht], mem_cons_self⟩
    exact (run_translate hv).tail (.coerce (s := ⟨c', v :: terms⟩) mem_cons_self hcoerce)
  arm _ hothers hbody := by
    intro terms c t c' h
    obtain ⟨acc, c₁, i, c₂, yes, hacc, hi, -, hyes, rfl⟩ := runs_joined h
    -- The other arms are summarised first, so their value is in stock when this arm is joined to it.
    obtain ⟨more, hsteps, hsub, hmem⟩ := hothers terms c acc c₁ hacc
    obtain ⟨more', hsteps', hsub', hmem'⟩ := hbody (i :: more) c₂ yes c' hyes
    have hmore : more ⊆ more' := List.Subset.trans (subset_cons_self _ _) hsub'
    have hrun : Stock.Run symbols ⟨c, terms⟩ ⟨c', more'⟩ :=
      hsteps.trans ((run_translate hi).trans hsteps')
    refine ⟨Summary.choose ret i.formula yes acc :: more', ?_, ?_, mem_cons_self⟩
    · exact hrun.tail (.choose (s := ⟨c', more'⟩) ret i.formula hmem' (hmore hmem))
    · exact fun t ht => mem_cons_of_mem _ (hmore (hsub ht))

theorem run_declareParams (params : List SymbolId) (c : Context) :
    Stock.Run symbols ⟨c, []⟩ ⟨((declareParams symbols params).run c).2, []⟩ := by
  induction params generalizing c with
  | nil => exact .refl
  | cons id params ih =>
    rw [run_declareParams_cons]
    cases hdeclare : c.declare? (symbols.name id) (symbols.ty id) with
    | none => exact ih c
    | some c₁ => exact .head (.declare (s := ⟨c, []⟩) hdeclare) (ih c₁)

theorem context_condition (e : Bound.Expr) (c : Context) :
    (outcome (Encode.condition symbols e) c).2 = (outcome (Encode.expr symbols e) c).2 := by
  rw [Encode.condition, outcome_bind]
  rcases outcome (Encode.expr symbols e) c with ⟨r, c₁⟩
  cases r with
  | error cause => rfl
  | ok t =>
    dsimp only
    unfold toBool
    split <;> rfl

variable (symbols) in
theorem run_preconditions (es : List Bound.Expr) (terms : List Term) (c : Context) :
    ∃ more, Stock.Run symbols ⟨c, terms⟩ ⟨((preconditions symbols es).run c).2, more⟩ := by
  induction es generalizing terms c with
  | nil => exact ⟨terms, .refl⟩
  | cons e es ih =>
    have hstep : ((preconditions symbols (e :: es)).run c).2 =
        ((preconditions symbols es).run (outcome (Encode.expr symbols e) c).2).2 := by
      rw [run_preconditions_cons, ← context_condition]
      dsimp only
      cases (outcome (Encode.condition symbols e) c).1 <;> rfl
    rw [hstep]
    rcases hrun : outcome (Encode.expr symbols e) c with ⟨r, c₁⟩
    cases r with
    | error cause =>
      obtain ⟨more, hsteps⟩ := ih terms c₁
      exact ⟨more, .head (.fail (s := ⟨c, terms⟩) hrun) hsteps⟩
    | ok t =>
      obtain ⟨more, hsteps⟩ := ih (t :: terms) c₁
      exact ⟨more, .head (.translate (s := ⟨c, terms⟩) hrun) hsteps⟩

theorem exists_run_summary {f : Bound.Function} (h : summary symbols f = .ok t) :
    ∃ s, Stock.Run symbols {} s ∧ t ∈ s.terms := by
  obtain ⟨terms, hbefore⟩ := run_preconditions symbols f.preconditions []
    ((declareParams symbols f.params).run {}).2
  rcases run_ofFunction f (bodyContext symbols f) with ⟨-, hnone⟩ | ⟨ret, -, -, hvalue⟩
  · exact absurd h (hnone t)
  · obtain ⟨more, hsteps, -, hmem⟩ :=
      ((carries_stocks ret).stmts f.body nofun (carries_stocks ret).stop).nested terms _ _ _
      (Prod.ext (hvalue t h) rfl)
    exact ⟨_, (run_declareParams f.params {}).trans (hbefore.trans hsteps), hmem⟩

end Bodies

/-- Whatever translations, conversions, bindings and branches made a term, if it keeps the value of
a literal then its formula is a bit-vector under every assignment, and the integer of this
bit-vector at the type of the term is the value modulo the words of the width. It is the value
exactly if the type has it. The summaries of bodies are such terms. -/
theorem literal_value_iff (symbols : SymbolTable) :
    (∀ f t, summary symbols f = .ok t → ∃ s, Stock.Run symbols {} s ∧ t ∈ s.terms) ∧
    ∀ s, Stock.Run symbols {} s → ∀ t, s.Has t → ∀ v, t.literal = some v →
      ∃ width signed word n, t.ty = .int width signed ∧
        (∀ env, t.formula.eval env = .ok (.bits word width)) ∧
        (BitValue.bits word width).toInt? signed = some n ∧ n ≡ v [ZMOD 2 ^ min width 64] ∧
          (n = v ↔ t.ty.Holds v) := by
  refine ⟨fun f t => exists_run_summary, fun s hs t ht v hv => ?_⟩
  obtain ⟨width, signed, hty, heval⟩ := hs.tagged Stock.tagged_empty t ht v hv
  obtain ⟨n, hn, hmod, hiff⟩ := BitValue.toInt?_ofInt v width signed
  exact ⟨width, signed, Bits.ofInt v &&& Bits.mask width, n, hty, heval, hn, hmod, hty ▸ hiff⟩

/-! ## A value that is out of date -/

/-- Binds `-1` to a variable of an unsigned type, and returns what it has as an integer of 64 bits. -/
def staleSource : String :=
  "§M\x7bm1:T\x7d\n§F\x7bf1:f\x7d\n§O\x7bi64\x7d\n§S (result == 4294967295)\n§B\x7bx\x7d -1\n" ++
  "§B\x7bu32:y\x7d x\n§B\x7bi64:z\x7d y\n§R z\n§/F\x7bf1\x7d\n§/M\x7bm1\x7d\n"

set_option maxRecDepth 100000 in
theorem outcomes_stale :
    (cleanFront? staleSource).bind (fun (_, out) => out.module.functions.head?.map fun f =>
      ((summary out.module.symbols f).toOption.map fun t => (t.ty, t.literal),
        (Id.run (verifyFunction out.module.symbols (Search.solver 16) f)).results.map (·.outcome))) =
    some (some (.int 64 true, some (-1)), [.refuted ⟨[("result", "-1")]⟩]) := by
  decide +kernel

theorem exists_stale : ∃ tree out f t, CleanFront staleSource tree out ∧ f ∈ out.module.functions ∧
    summary out.module.symbols f = .ok t ∧ t.ty = .int 64 true ∧ t.literal = some (-1) ∧
    (Id.run (verifyFunction out.module.symbols (Search.solver 16) f)).results.map (·.outcome) =
      [.refuted ⟨[("result", "-1")]⟩] := by
  obtain ⟨⟨tree, out⟩, hfront, hout⟩ := Option.bind_eq_some_iff.mp outcomes_stale
  obtain ⟨f, hhead, hfacts⟩ := Option.map_eq_some_iff.mp hout
  obtain ⟨hsummary, houtcomes⟩ := Prod.mk.inj hfacts
  obtain ⟨t, ht, htags⟩ := Option.map_eq_some_iff.mp hsummary
  obtain ⟨hty, hliteral⟩ := Prod.mk.inj htags
  refine ⟨tree, out, f, t, cleanFront?_eq_some hfront, mem_of_mem_head? hhead, ?_, hty, hliteral,
    houtcomes⟩
  cases hsum : summary out.module.symbols f with
  | error e =>
    rw [hsum] at ht
    cases ht
  | ok t' =>
    rw [hsum] at ht
    cases ht
    rfl

theorem literal_value_iff_stale :
    ∃ tree out f t, CleanFront staleSource tree out ∧ f ∈ out.module.functions ∧
    summary out.module.symbols f = .ok t ∧ (∃ s, Stock.Run out.module.symbols {} s ∧ s.Has t) ∧
    t.literal = some (-1) ∧ ∃ word, (∀ env, t.formula.eval env = .ok (.bits word 64)) ∧
      (BitValue.bits word 64).toInt? true = some (-1) := by
  obtain ⟨tree, out, f, t, hfront, hf, ht, hty, hliteral, -⟩ := exists_stale
  obtain ⟨hsummaries, hterms⟩ := literal_value_iff out.module.symbols
  obtain ⟨s, hs, hmem⟩ := hsummaries f t ht
  obtain ⟨width, signed, word, n, hty', heval, hn, -, hiff⟩ := hterms s hs t (.inl hmem) (-1) hliteral
  rw [hty] at hty' hiff
  cases hty'
  cases hiff.mpr (by decide)
  exact ⟨tree, out, f, t, hfront, hf, ht, ⟨s, hs, .inl hmem⟩, hliteral, word, heval, hn⟩

/-- The variable keeps `-1`, although its formula is 4294967295. The next conversion goes by what it
keeps, so the verdict is about a result that the function does not have. -/
theorem stale_literal : ∃ tree out f s t, CleanFront staleSource tree out ∧ f ∈ out.module.functions ∧
    Stock.Run out.module.symbols {} s ∧ s.context.Holds "y" (.term t) ∧ t.ty = .int 32 false ∧
      t.literal = some (-1) ∧
    (∀ env, t.formula.eval env = .ok (.bits 4294967295 32)) ∧
    (BitValue.bits 4294967295 32).toInt? false = some 4294967295 ∧
    (Id.run (verifyFunction out.module.symbols (Search.solver 16) f)).results.map (·.outcome) =
      [.refuted ⟨[("result", "-1")]⟩] := by
  obtain ⟨tree, out, f, -, hfront, hf, -, -, -, houtcomes⟩ := exists_stale
  let t : Term := { formula := .constant (-1) 32, ty := .int 32 false, literal := some (-1) }
  have hliteral :
      Runs (Encode.expr out.module.symbols (.mk (.int (-1)) (.int 32 true) default)) {}
        (.ofLiteral (-1)) {} :=
    (Encodes.int (-1) _ _ _).runs
  have hcoerce : (Term.ofLiteral (-1)).coerce (.int 32 false) default = .ok t := rfl
  have hrun : Stock.Run out.module.symbols {} ⟨Context.bind {} "y" t, [t, .ofLiteral (-1)]⟩ :=
    ((run_translate hliteral).tail (.coerce mem_cons_self hcoerce)).tail (.bind "y" mem_cons_self)
  refine ⟨tree, out, f, _, t, hfront, hf, hrun, ⟨_, mem_cons_self, rfl⟩, rfl, rfl, fun env =>
    ?_, ?_, houtcomes⟩
  · exact Term.eval_constant (-1) 32 env
  · decide

end Contract

end TagLang
