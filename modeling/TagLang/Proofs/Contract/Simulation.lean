import TagLang.Proofs.Contract.Encoder
import TagLang.Proofs.Contract.Reads
import TagLang.Proofs.Logic.Denote
import TagLang.Proofs.Table

/-! # Encodings in related contexts

An expression can be encoded where its names stand for whole formulas, and where they stand for
variables that hold the values of these formulas. Both encodings give terms of one type and of one
value. The relation between the two contexts is kept for a set of pairs of valuations, which is
closed under changes of names that are not given out yet: this is what carries it below quantifiers.
-/

namespace TagLang.Contract

theorem Encodes.exprReads {symbols : SymbolTable} {e : Bound.Expr} {t : Term} {c c' : Context}
    {P : SymbolId → Prop} (h : Encodes symbols e c t c') (hP : ∀ id, P id) : ExprReads P e := by
  induction h with
  | int | bool => trivial
  | var => exact hP _
  | index _ _ _ _ _ _ _ ih => exact ⟨hP _, ih⟩
  | binary _ _ _ _ _ _ ihleft ihright => exact ⟨ihleft, ihright⟩
  | unary _ _ _ _ ih => exact ih
  | conditional _ _ _ _ _ _ _ ihtest ihyes ihno => exact ⟨ihtest, ihyes, ihno⟩
  | quantifier _ _ _ _ _ _ ih => exact ih

abbrev World := Valuation → Valuation → Prop

/-- Terms that the encoding of what stands around them treats alike, and that have one value. -/
structure Equates (W : World) (t u : Term) : Prop where
  ty : u.ty = t.ty
  literal : u.literal = t.literal
  denote : ∀ ρ σ, W ρ σ → t.formula.denote ρ = u.formula.denote σ

namespace Equates

variable {W : World} {a a' b b' t : Term}

theorem isSigned (h : Equates W a a') : a'.isSigned = a.isSigned := by
  rw [Term.isSigned, Term.isSigned, h.ty]

theorem width? (h : Equates W a a') : a'.width? = a.width? := by
  rw [Term.width?, Term.width?, h.ty]

theorem signedWith (ha : Equates W a a') (hb : Equates W b b') : a'.signedWith b' = a.signedWith b := by
  simp only [Term.signedWith, Term.isNonnegativeLiteral, ha.isSigned, hb.isSigned, ha.literal, hb.literal]

theorem extendTo (h : Equates W a a') (width : Nat) {ρ σ : Valuation} (hW : W ρ σ) :
    (a.extendTo width).denote ρ = (a'.extendTo width).denote σ := by
  simp only [Term.extendTo, h.ty]
  split
  · split
    · split <;> simp only [Formula.denote, h.denote ρ σ hW]
    · exact h.denote ρ σ hW
  · exact h.denote ρ σ hW

theorem negation (h : Equates W a a') {ρ σ : Valuation} (hW : W ρ σ) :
    a.formula.negation.denote ρ = a'.formula.negation.denote σ := by
  rw [Formula.denote_negation, Formula.denote_negation, h.denote ρ σ hW]

theorem arithmetic? (op : BinOp) (ha : Equates W a a') (hb : Equates W b b')
    (h : Term.arithmetic? op a b = some t) :
    ∃ t', Term.arithmetic? op a' b' = some t' ∧ Equates W t t' := by
  have hx (w : Nat) {ρ σ : Valuation} (hW : W ρ σ) := ha.extendTo w hW
  have hy (w : Nat) {ρ σ : Valuation} (hW : W ρ σ) := hb.extendTo w hW
  simp only [Term.arithmetic?, Term.unify, ha.signedWith hb, ha.isSigned, ha.width?, hb.width?] at h ⊢
  cases op <;> simp only [Option.some.injEq, reduceCtorEq] at h <;> subst h <;>
    refine ⟨_, rfl, rfl, rfl, fun ρ σ hW => ?_⟩ <;>
    simp only [Formula.negation, Formula.denote, hx _ hW, hy _ hW]

theorem binary? (op : BinOp) (ha : Equates W a a') (hb : Equates W b b')
    (h : Term.binary? op a b = some t) :
    ∃ t', Term.binary? op a' b' = some t' ∧ Equates W t t' := by
  unfold Term.binary? at h ⊢
  rw [ha.ty, hb.ty]
  split at h
  · obtain ⟨f, hf, rfl⟩ := Option.map_eq_some_iff.mp h
    cases op <;> simp only [Term.logical?, Option.some.injEq, reduceCtorEq] at hf <;> subst hf <;>
      refine ⟨_, rfl, rfl, rfl, fun ρ σ hW => ?_⟩ <;>
      simp only [Formula.negation, Formula.denote, Formula.denoteAll, ha.denote ρ σ hW, hb.denote ρ σ hW]
  · exact ha.arithmetic? op hb h
  · cases h

theorem unary? (op : UnaryOp) (ha : Equates W a a') (h : Term.unary? op a = some t) :
    ∃ t', Term.unary? op a' = some t' ∧ Equates W t t' := by
  unfold Term.unary? at h ⊢
  rw [ha.ty]
  split at h
  · cases h
    exact ⟨_, rfl, rfl, rfl, fun ρ σ hW => ha.negation hW⟩
  · cases h
    refine ⟨_, rfl, ha.ty, by rw [Term.negated, Term.negated, ha.literal], fun ρ σ hW => ?_⟩
    simp only [Term.negated, Formula.denote, ha.denote ρ σ hW]
  · cases h
    refine ⟨_, rfl, rfl, rfl, fun ρ σ hW => ?_⟩
    simp only [Formula.denote, ha.denote ρ σ hW]
  · cases h

theorem choose? {test test' : Formula} (htest : ∀ ρ σ, W ρ σ → test.denote ρ = test'.denote σ)
    (ha : Equates W a a') (hb : Equates W b b') (h : Term.choose? test a b = some t) :
    ∃ t', Term.choose? test' a' b' = some t' ∧ Equates W t t' := by
  unfold Term.choose? at h ⊢
  simp only [Term.unify, ha.signedWith hb, ha.width?, hb.width?] at h ⊢
  rw [ha.ty, hb.ty]
  split at h
  · cases h
    refine ⟨_, rfl, rfl, rfl, fun ρ σ hW => ?_⟩
    simp only [Formula.denote, htest ρ σ hW, ha.denote ρ σ hW, hb.denote ρ σ hW]
  · cases h
    refine ⟨_, rfl, rfl, rfl, fun ρ σ hW => ?_⟩
    simp only [Formula.denote, htest ρ σ hW, ha.extendTo _ hW, hb.extendTo _ hW]
  · cases h

theorem coerce {target : TermType} {span : Span} (ha : Equates W a a')
    (h : a.coerce target span = .ok t) : ∃ t', a'.coerce target span = .ok t' ∧ Equates W t t' := by
  unfold Term.coerce at h ⊢
  rw [ha.ty, ha.literal]
  split at h
  · cases h
    exact ⟨a', rfl, ha⟩
  · split at h
    · cases h
      exact ⟨_, rfl, rfl, rfl, fun _ _ _ => by simp only [Formula.constant, Formula.denote]⟩
    · split at h
      · next hlt =>
        cases h
        rw [if_pos hlt]
        refine ⟨_, rfl, rfl, rfl, fun ρ σ hW => ?_⟩
        simp only [Formula.denote, ha.denote ρ σ hW]
      · next hlt =>
        cases h
        rw [if_neg hlt]
        exact ⟨_, rfl, rfl, rfl, fun ρ σ hW => ha.extendTo _ hW⟩
  · cases h

theorem mono {W' : World} (h : Equates W a a') (hW : ∀ ρ σ, W' ρ σ → W ρ σ) : Equates W' a a' :=
  ⟨h.ty, h.literal, fun ρ σ hρ => h.denote ρ σ (hW ρ σ hρ)⟩

end Equates

section Worlds

variable {W : World}

/-- Names that are not given out yet may take any value, the same on both sides. -/
def Closed (k l : Nat) (W : World) : Prop :=
  ∀ ρ σ, W ρ σ → ∀ n m, FreshFrom k n → FreshFrom l m → ∀ x,
    W (Function.update ρ n x) (Function.update σ m x)

theorem Closed.mono {k l k' l' : Nat} (h : Closed k l W) (hk : k ≤ k') (hl : l ≤ l') : Closed k' l' W :=
  fun ρ σ hW n m hn hm x => h ρ σ hW n m (hn.mono hk) (hm.mono hl) x

def World.fix (W : World) (n m : String) (sort : VarSort) : World := fun ρ σ =>
  ∃ ρ₀ σ₀ x, W ρ₀ σ₀ ∧ x.sort = sort ∧ ρ = Function.update ρ₀ n x ∧ σ = Function.update σ₀ m x

theorem Closed.fix_subset {k l : Nat} (h : Closed k l W) {n m : String} (hn : FreshFrom k n)
    (hm : FreshFrom l m) {sort : VarSort} {ρ σ : Valuation} (hW : W.fix n m sort ρ σ) : W ρ σ := by
  obtain ⟨ρ₀, σ₀, x, hW, -, rfl, rfl⟩ := hW
  exact h ρ₀ σ₀ hW n m hn hm x

theorem Closed.fix {k l k' l' : Nat} (h : Closed k l W) {n m : String} {sort : VarSort}
    (hk : k ≤ k') (hl : l ≤ l') (hn : ¬FreshFrom k' n) (hm : ¬FreshFrom l' m) :
    Closed k' l' (W.fix n m sort) := by
  rintro _ _ ⟨ρ, σ, x, hW, hx, rfl, rfl⟩ n' m' hn' hm' y
  have hne : n' ≠ n := fun he => hn (he ▸ hn')
  have hme : m' ≠ m := fun he => hm (he ▸ hm')
  exact ⟨_, _, x, h ρ σ hW n' m' (hn'.mono hk) (hm'.mono hl) y, hx, Function.update_comm hne.symm x y ρ,
    Function.update_comm hme.symm x y σ⟩

inductive SameMeaning (W : World) (name : String) : Meaning → Meaning → Prop
  | term {t u : Term} : Equates W t u → SameMeaning W name (.term t) (.term u)
  | array (element : TermType) : (∀ ρ σ, W ρ σ → ρ name = σ name) →
    SameMeaning W name (.array element) (.array element)

theorem SameMeaning.mono {W W' : World} {name : String} {m m' : Meaning}
    (h : SameMeaning W name m m') (hW : ∀ ρ σ, W' ρ σ → W ρ σ) : SameMeaning W' name m m' := by
  cases h with
  | term h => exact .term (h.mono hW)
  | array element h => exact .array element fun ρ σ hρ => h ρ σ (hW ρ σ hρ)

/-- Every name that means something in the first context means the like in the second. -/
def Simulates (W : World) (c d : Context) : Prop :=
  ∀ name, Plain name → ∀ m, c.find? name = some m → ∃ m', d.find? name = some m' ∧ SameMeaning W name m m'

theorem find?_put (c : Context) (name other : String) (m : Meaning) :
    (c.put name m).find? other = if other = name then some m else c.find? other := by
  by_cases h : other = name <;>
    simp [Context.find?, Context.put, List.findSome?_cons, Table.lookup_cons_ite, h]

theorem find?_quantify (c : Context) (name other : String) (t : TermType) :
    (c.quantify name t).find? other =
      if other = name then some (.term (.var (c.freshName name) t)) else c.find? other :=
  find?_put c name other _

namespace Simulates

variable {W : World} {c c' d d' : Context}

theorem keeps (h : Simulates W c d) (hc : Keeps c c') (hd : Keeps d d') : Simulates W c' d' := by
  intro name hname m hm
  rw [hc.find?] at hm
  rw [hd.find?]
  exact h name hname m hm

theorem push (h : Simulates W c d) : Simulates W c.push d.push := h

/-- A quantified variable stands for fresh names on both sides, which take all values of its sort. -/
theorem quantify (h : Simulates W c d) (hclosed : Closed c.fresh d.fresh W) (name : String)
    (t : TermType) : let W' := W.fix (c.freshName name) (d.freshName name) t.sort
    Closed (c.quantify name t).fresh (d.quantify name t).fresh W' ∧
      Simulates W' (c.quantify name t) (d.quantify name t) := by
  intro W'
  have hsub : ∀ ρ σ, W' ρ σ → W ρ σ := fun ρ σ hW =>
    hclosed.fix_subset (c.freshFrom_freshName name) (d.freshFrom_freshName name) hW
  refine ⟨hclosed.fix (Nat.le_succ _) (Nat.le_succ _) (c.not_freshFrom_succ name)
    (d.not_freshFrom_succ name), ?_⟩
  intro other hother m hm
  rw [find?_quantify] at hm ⊢
  split at hm
  · next he =>
    cases hm
    rw [if_pos he]
    refine ⟨_, rfl, .term ⟨rfl, rfl, ?_⟩⟩
    rintro _ _ ⟨ρ, σ, x, -, -, rfl, rfl⟩
    simp [Term.var, Formula.denote]
  · next he =>
    rw [if_neg he]
    obtain ⟨m', hm', hsame⟩ := h other hother m hm
    exact ⟨m', hm', hsame.mono hsub⟩

end Simulates

end Worlds

section Expressions

variable {symbols : SymbolTable} {W : World} {c c' d : Context}

theorem quantified_simulates {span : Span} {ids : List SymbolId} {bound : List (String × VarSort)}
    (hclosed : Closed c.fresh d.fresh W) (hsim : Simulates W c d)
    (h : Runs (Encode.quantified symbols span ids) c bound c') :
    ∃ bound' d' W', Runs (Encode.quantified symbols span ids) d bound' d' ∧ Closed c'.fresh d'.fresh W' ∧
      Simulates W' c' d' ∧
      ∀ (kind : QuantifierKind) (body body' : Valuation → Denotation),
        (∀ ρ σ, W' ρ σ → body ρ = body' σ) →
        ∀ ρ σ, W ρ σ → Formula.denoteQuantifier kind body bound ρ =
          Formula.denoteQuantifier kind body' bound' σ := by
  induction ids generalizing W c d bound with
  | nil =>
    obtain ⟨rfl, rfl⟩ := runs_quantified_nil.mp h
    exact ⟨[], d, W, runs_quantified_nil.mpr ⟨rfl, rfl⟩, hclosed, hsim, fun _ _ _ hbody => hbody⟩
  | cons id ids ih =>
    obtain ⟨t, rest, ht, rfl, hrest⟩ := runs_quantified_cons.mp h
    obtain ⟨hclosed', hsim'⟩ := hsim.quantify hclosed (symbols.name id) t
    obtain ⟨rest', d', W', hruns, hW', hcd, hmeans⟩ := ih hclosed' hsim' hrest
    refine ⟨_, d', W', runs_quantified_cons.mpr ⟨t, rest', ht, rfl, hruns⟩, hW', hcd, ?_⟩
    intro kind body body' hbody ρ σ hW
    have hinner (x : Denotation) (hx : x.sort = t.sort) :=
      hmeans kind body body' hbody _ _ ⟨ρ, σ, x, hW, hx, rfl, rfl⟩
    cases kind with
    | universal =>
      simp only [Formula.denoteQuantifier, Denotation.bool.injEq, decide_eq_decide]
      exact forall_congr' fun x => forall_congr' fun hx => by rw [hinner x hx]
    | existential =>
      simp only [Formula.denoteQuantifier, Denotation.bool.injEq, decide_eq_decide]
      exact exists_congr fun x => and_congr_right fun hx => by rw [hinner x hx]

theorem Encodes.simulates {e : Bound.Expr} {t : Term} (h : Encodes symbols e c t c')
    (hplain : ExprReads symbols.PlainId e) (hclosed : Closed c.fresh d.fresh W)
    (hsim : Simulates W c d) : ∃ u d', Encodes symbols e d u d' ∧ Equates W t u := by
  induction h generalizing W d with
  | int n ty span c =>
    refine ⟨_, d, .int n ty span d, rfl, rfl, fun _ _ _ => ?_⟩
    simp only [Term.ofLiteral, Formula.constant, Formula.denote]
  | bool b ty span c =>
    refine ⟨_, d, .bool b ty span d, rfl, rfl, fun _ _ _ => ?_⟩
    simp only [Formula.denote]
  | var ty span hfind =>
    obtain ⟨m, hm, hsame⟩ := hsim _ hplain _ hfind
    cases hsame with
    | term h => exact ⟨_, d, .var ty span hm, h⟩
  | index baseTy ty baseSpan span hfind _ hwidth ih =>
    obtain ⟨hbase, hplace⟩ := hplain
    obtain ⟨m, hm, hsame⟩ := hsim _ hbase _ hfind
    cases hsame with
    | array element hname =>
      obtain ⟨u, d', hu, heq⟩ := ih hplace hclosed hsim
      refine ⟨_, _, .index baseTy ty baseSpan span hm hu (heq.width?.trans hwidth), rfl, rfl,
        fun ρ σ hW => ?_⟩
      simp only [Formula.denote, hname ρ σ hW, heq.extendTo _ hW]
  | binary ty span hop hleft hright ht iha ihb =>
    obtain ⟨hl, hr⟩ := hplain
    obtain ⟨a', d₁, ha', hea⟩ := iha hl hclosed hsim
    obtain ⟨b', d₂, hb', heb⟩ := ihb hr (hclosed.mono hleft.keeps.fresh ha'.keeps.fresh)
      (hsim.keeps hleft.keeps ha'.keeps)
    obtain ⟨u, hu, heq⟩ := hea.binary? _ heb ht
    exact ⟨u, d₂, .binary ty span hop ha' hb' hu, heq⟩
  | unary ty span _ ht ih =>
    obtain ⟨a', d', ha', hea⟩ := ih hplain hclosed hsim
    obtain ⟨u, hu, heq⟩ := hea.unary? _ ht
    exact ⟨u, d', .unary ty span ha' hu, heq⟩
  | conditional ty span hi hbool hyes hno ht ihi iha ihb =>
    obtain ⟨hpi, hpy, hpn⟩ := hplain
    obtain ⟨i', d₁, hi', hei⟩ := ihi hpi hclosed hsim
    have hclosed₁ := hclosed.mono hi.keeps.fresh hi'.keeps.fresh
    have hsim₁ := hsim.keeps hi.keeps hi'.keeps
    obtain ⟨a', d₂, ha', hea⟩ := iha hpy hclosed₁ hsim₁
    obtain ⟨b', d₃, hb', heb⟩ := ihb hpn (hclosed₁.mono hyes.keeps.fresh ha'.keeps.fresh)
      (hsim₁.keeps hyes.keeps ha'.keeps)
    obtain ⟨u, hu, heq⟩ := hea.choose? hei.denote heb ht
    exact ⟨u, d₃, .conditional ty span hi' (hei.ty.trans hbool) ha' hb' hu, heq⟩
  | @quantifier vars body c c₁ c₂ t bound kind ty span hbound _ hbool ih =>
    have hpush : Closed c.push.fresh d.push.fresh W := hclosed
    obtain ⟨bound', d₁, W', hbound', hclosed', hsim', hmeans⟩ :=
      quantified_simulates hpush hsim.push hbound
    obtain ⟨u, d₂, hu, heq⟩ := ih hplain hclosed' hsim'
    refine ⟨_, _, .quantifier kind ty span hbound' hu (heq.ty.trans hbool), rfl, rfl, fun ρ σ hW => ?_⟩
    simp only [Formula.denote]
    exact hmeans kind _ _ heq.denote ρ σ hW

end Expressions

end TagLang.Contract
