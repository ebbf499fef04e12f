import TagLang.Proofs.Contract.Simulation
import TagLang.Proofs.Logic.Hygiene

/-! # Terms are well-sorted and capture nothing

The translation of an expression brings both sides of every operator to one sort, and gives the
variables of each quantifier names that stand nowhere around it. Both hold for whatever the names of
the context stand for, as long as that is itself well-sorted and speaks of no name that is still to
be given out.
-/

namespace TagLang
open List

namespace TermType

def Standard : TermType → Prop
  | .bool => True
  | .int width _ => width ∈ [8, 16, 32, 64]

instance : DecidablePred Standard
  | .bool => inferInstanceAs (Decidable True)
  | .int _ _ => inferInstanceAs (Decidable (_ ∈ _))

theorem standard_of_ofTy? {ty : Ty} {t : TermType} (h : ofTy? ty = some t) : t.Standard := by
  unfold ofTy? at h
  split at h
  · cases h
    trivial
  · split at h
    · next hwidth =>
      cases h
      exact contains_iff_mem.mp hwidth
    · cases h
  · cases h

theorem Standard.width_le {width : Nat} {signed : Bool} (h : (TermType.int width signed).Standard) :
    1 ≤ width ∧ width ≤ 64 := by
  have hwidth : width ∈ [8, 16, 32, 64] := h
  simp only [mem_cons, not_mem_nil, or_false] at hwidth
  omega

theorem Standard.valid {t : TermType} (h : t.Standard) : t.sort.Valid := by
  cases t with
  | bool => trivial
  | int width signed => exact h.width_le

end TermType

namespace Term

/-- A term whose formula has the sort of its type, with free variables of `M` and quantifiers over
names of `B`. -/
structure Proper (M : String × VarSort → Prop) (B : String → Prop) (t : Term) : Prop where
  standard : t.ty.Standard
  formula : t.formula.Proper M B t.ty.sort

structure Sorted (t : Term) : Prop where
  formula : t.formula.WellSorted
  sort : t.formula.sort = t.ty.sort
  width : t.ty.Standard

namespace Proper

variable {M : String × VarSort → Prop} {B : String → Prop} {a b t : Term} {signed signed' : Bool}

theorem mono {M' : String × VarSort → Prop} {B' : String → Prop} (h : t.Proper M B)
    (hM : ∀ x, M x → M' x) (hB : ∀ name, B name → B' name) : t.Proper M' B' :=
  ⟨h.standard, h.formula.mono hM hB⟩

theorem ofLiteral (value : Int) : (Term.ofLiteral value).Proper M B := by
  unfold Term.ofLiteral
  dsimp only
  split
  · exact ⟨mem_of_elem_eq_true rfl, .constant value (by decide)⟩
  · exact ⟨mem_of_elem_eq_true rfl, .constant value (by decide)⟩

theorem var {name : String} {ty : TermType} (hM : M (name, ty.sort)) (hty : ty.Standard) :
    (Term.var name ty).Proper M B := ⟨hty, .var hM hty.valid⟩

theorem width_le (h : t.Proper M B) {w : Nat} (hw : t.width? = some w) : w ≤ 64 := by
  have hstandard := h.standard
  unfold Term.width? at hw
  split at hw
  · next hty =>
    cases hw
    rw [hty] at hstandard
    exact hstandard.width_le.2
  · cases hw

theorem extendTo (h : t.Proper M B) {w width : Nat} (hw : t.width? = some w) (hle : w ≤ width)
    (h64 : width ≤ 64) : (t.extendTo width).Proper M B (.bitVec width) := by
  obtain ⟨formula, ty, literal⟩ := t
  cases ty with
  | bool => cases hw
  | int w' signed =>
    cases hw
    have hformula : formula.Proper M B (.bitVec w) := h.formula
    simp only [Term.extendTo]
    split
    · next hlt =>
      have hsum : w + (width - w) = width := by omega
      have hshort : w + (width - w) ≤ 64 := by omega
      split
      · simpa only [hsum] using hformula.signExtend hshort
      · simpa only [hsum] using hformula.zeroExtend hshort
    · next hlt =>
      have heq : w = width := by omega
      exact heq ▸ hformula

theorem unify (ha : a.Proper M B) (hb : b.Proper M B) {v w : Nat} (hv : a.ty = .int v signed)
    (hw : b.ty = .int w signed') :
    max v w ∈ [8, 16, 32, 64] ∧ (a.unify b).2.2 = max v w ∧ (a.unify b).1.Proper M B (.bitVec (max v w)) ∧
      (a.unify b).2.1.Proper M B (.bitVec (max v w)) := by
  have hav : a.width? = some v := by rw [Term.width?, hv]
  have hbw : b.width? = some w := by rw [Term.width?, hw]
  have hsa : (TermType.int v signed).Standard := hv ▸ ha.standard
  have hsb : (TermType.int w signed').Standard := hw ▸ hb.standard
  have hmax : max v w ∈ [8, 16, 32, 64] := by
    rcases max_choice v w with h | h <;> rw [h]
    · exact hsa
    · exact hsb
  have hstandard : (TermType.int (max v w) signed).Standard := hmax
  have h64 : max v w ≤ 64 := hstandard.width_le.2
  have hunify : a.unify b = (a.extendTo (max v w), b.extendTo (max v w), max v w) := by
    simp [Term.unify, hav, hbw]
  rw [hunify]
  exact ⟨hmax, rfl, ha.extendTo hav (le_max_left v w) h64, hb.extendTo hbw (le_max_right v w) h64⟩

theorem arithmetic? (op : BinOp) (ha : a.Proper M B) (hb : b.Proper M B) {v w : Nat}
    (hv : a.ty = .int v signed)
    (hw : b.ty = .int w signed') (h : Term.arithmetic? op a b = some t) : t.Proper M B := by
  obtain ⟨hmax, hwidth, hx, hy⟩ := ha.unify hb hv hw
  unfold Term.arithmetic? at h
  rcases hunify : a.unify b with ⟨x, y, width⟩
  rw [hunify] at h hwidth hx hy
  dsimp only at h hwidth hx hy
  subst hwidth
  cases op with
  | eq =>
    cases h
    exact ⟨trivial, .eq hx hy⟩
  | notEq =>
    cases h
    exact ⟨trivial, (Formula.Proper.eq hx hy).negation⟩
  | lt | ltEq | gt | gtEq =>
    cases h
    exact ⟨trivial, .compare _ hx hy⟩
  | add | sub | mul | div | mod | bitAnd | bitOr | bitXor | shl | shr =>
    cases h
    exact ⟨hmax, .binary _ hx hy⟩
  | and | or | implies | coalesce => cases h

theorem logical? (op : BinOp) {f g r : Formula} (hf : f.Proper M B .bool) (hg : g.Proper M B .bool)
    (h : Term.logical? op f g = some r) : r.Proper M B .bool := by
  cases op with
  | and | bitAnd =>
    cases h
    exact hf.and hg
  | or | bitOr =>
    cases h
    exact hf.or hg
  | bitXor =>
    cases h
    exact hf.xor hg
  | implies =>
    cases h
    exact hf.implies hg
  | eq =>
    cases h
    exact .eq hf hg
  | notEq =>
    cases h
    exact (Formula.Proper.eq hf hg).negation
  | _ => cases h

theorem binary? (op : BinOp) (ha : a.Proper M B) (hb : b.Proper M B)
    (h : Term.binary? op a b = some t) : t.Proper M B := by
  unfold Term.binary? at h
  split at h
  · next hta htb =>
    obtain ⟨r, hr, rfl⟩ := Option.map_eq_some_iff.mp h
    have hf := ha.formula
    have hg := hb.formula
    rw [hta] at hf
    rw [htb] at hg
    exact ⟨trivial, logical? op hf hg hr⟩
  · next hta htb => exact ha.arithmetic? op hb hta htb h
  · cases h

theorem unary? (op : UnaryOp) (ha : a.Proper M B) (h : Term.unary? op a = some t) : t.Proper M B := by
  have hformula := ha.formula
  unfold Term.unary? at h
  split at h
  · next hty =>
    cases h
    rw [hty] at hformula
    exact ⟨trivial, hformula.negation⟩
  · next hty =>
    cases h
    rw [hty] at hformula
    exact ⟨ha.standard, by rw [Term.negated, hty]; exact hformula.neg⟩
  · next hty =>
    cases h
    rw [hty] at hformula
    exact ⟨ha.standard, by rw [hty]; exact hformula.bitNot⟩
  · cases h

theorem choose? {test : Formula} (htest : test.Proper M B .bool) (ha : a.Proper M B)
    (hb : b.Proper M B) (h : Term.choose? test a b = some t) : t.Proper M B := by
  unfold Term.choose? at h
  split at h
  · next hta htb =>
    cases h
    have hf := ha.formula
    have hg := hb.formula
    rw [hta] at hf
    rw [htb] at hg
    exact ⟨trivial, htest.ite hf hg⟩
  · next hta htb =>
    obtain ⟨hmax, hwidth, hx, hy⟩ := ha.unify hb hta htb
    cases h
    rw [← hwidth] at hmax hx hy
    exact ⟨hmax, htest.ite hx hy⟩
  · cases h

theorem coerce {target : TermType} {span : Span} (ha : a.Proper M B) (htarget : target.Standard)
    (h : a.coerce target span = .ok t) : t.ty = target ∧ t.Proper M B := by
  unfold Term.coerce at h
  split at h
  · next hta =>
    cases h
    exact ⟨hta, ha⟩
  · next width _ wanted signed hta =>
    have hwanted := htarget.width_le
    have hformula := ha.formula
    rw [hta] at hformula
    split at h
    · cases h
      exact ⟨rfl, htarget, .constant _ hwanted⟩
    · split at h
      · next hlt =>
        cases h
        exact ⟨rfl, htarget, hformula.extract hwanted.1 (by omega)⟩
      · next hlt =>
        cases h
        exact ⟨rfl, htarget, ha.extendTo (by rw [Term.width?, hta]) (by omega) hwanted.2⟩
  · cases h

end Proper

end Term

namespace Contract

/-- Quantifiers may bind these names: no variable of `M` has them, and they are not given out any
more. -/
def Spent (M : String × VarSort → Prop) (k : Nat) (name : String) : Prop :=
  (∀ sort, ¬M (name, sort)) ∧ ¬FreshFrom k name

theorem Spent.mono {M : String × VarSort → Prop} {k k' : Nat} {name : String} (h : Spent M k name)
    (hk : k ≤ k') : Spent M k' name :=
  ⟨h.1, fun hfresh => h.2 (hfresh.mono hk)⟩

/-- What a name stands for: a proper term, or an array of integers that is a variable of `M`. -/
def Meaning.Proper (M : String × VarSort → Prop) (B : String → Prop) (name : String) : Meaning → Prop
  | .term t => t.Proper M B
  | .array .bool => True
  | .array (.int width signed) => (TermType.int width signed).Standard ∧ M (name, .array 64 width)

theorem Meaning.Proper.mono {M M' : String × VarSort → Prop} {B B' : String → Prop} {name : String}
    {m : Meaning} (h : m.Proper M B name) (hM : ∀ x, M x → M' x) (hB : ∀ n, B n → B' n) :
    m.Proper M' B' name := by
  match m, h with
  | .term t, h => exact Term.Proper.mono h hM hB
  | .array .bool, _ => trivial
  | .array (.int width signed), h => exact ⟨h.1, hM _ h.2⟩

/-- The names of `R` stand for what speaks of the variables of `M`, none of which is still to be
given out. -/
structure Context.Proper (R : String → Prop) (M : String × VarSort → Prop) (c : Context) : Prop where
  old : ∀ x, M x → ¬FreshFrom c.fresh x.1
  meaning : ∀ name, R name → ∀ m, c.find? name = some m → m.Proper M (Spent M c.fresh) name

namespace Context.Proper

variable {R : String → Prop} {M : String × VarSort → Prop} {c c' : Context}

theorem keeps (h : c.Proper R M) (hkeeps : Keeps c c') : c'.Proper R M where
  old x hx hfresh := h.old x hx (hfresh.mono hkeeps.fresh)
  meaning name hname m hm := by
    rw [hkeeps.find?] at hm
    exact (h.meaning name hname m hm).mono (fun _ => id) fun _ hspent => hspent.mono hkeeps.fresh

theorem push (h : c.Proper R M) : c.push.Proper R M := ⟨h.old, h.meaning⟩

theorem bind {t : Term} (h : c.Proper R M) (name : String) (ht : t.Proper M (Spent M c.fresh)) :
    (c.bind name t).Proper R M where
  old := h.old
  meaning other hother m hm := by
    rw [Context.bind, find?_put] at hm
    split at hm
    · cases hm
      exact ht
    · exact h.meaning other hother m hm

theorem quantify (h : c.Proper R M) (name : String) {t : TermType} (ht : t.Standard) :
    (c.quantify name t).Proper R fun x => x = (c.freshName name, t.sort) ∨ M x where
  old x hx hfresh := by
    rcases hx with rfl | hx
    · exact c.not_freshFrom_succ name hfresh
    · exact h.old x hx (hfresh.mono (Nat.le_succ _))
  meaning other hother m hm := by
    rw [find?_quantify] at hm
    split at hm
    · cases hm
      exact .var (.inl rfl) ht
    · refine (h.meaning other hother m hm).mono (fun x => .inr) fun n hn => ⟨?_, ?_⟩
      · rintro sort (heq | hM)
        · cases heq
          exact hn.2 (c.freshFrom_freshName name)
        · exact hn.1 sort hM
      · exact fun hfresh => hn.2 (hfresh.mono (Nat.le_succ _))

end Context.Proper

variable {symbols : SymbolTable} {R : String → Prop} {M : String × VarSort → Prop} {c c' : Context}

theorem quantified_proper {span : Span} {ids : List SymbolId} {bound : List (String × VarSort)}
    (hc : c.Proper R M) (h : Runs (Encode.quantified symbols span ids) c bound c') :
    c'.Proper R (fun x => x ∈ bound ∨ M x) ∧ c.fresh ≤ c'.fresh ∧ (bound.map (·.1)).Nodup ∧
      ∀ x ∈ bound, x.2.Valid ∧ FreshFrom c.fresh x.1 ∧ ¬FreshFrom c'.fresh x.1 := by
  induction ids generalizing M c bound with
  | nil =>
    obtain ⟨rfl, rfl⟩ := runs_quantified_nil.mp h
    simpa using hc
  | cons id ids ih =>
    obtain ⟨t, rest, ht, rfl, hrest⟩ := runs_quantified_cons.mp h
    have hstandard := TermType.standard_of_ofTy? ht
    obtain ⟨hproper, hle, hnodup, hrest⟩ := ih (hc.quantify (symbols.name id) hstandard) hrest
    have hsucc : c.fresh + 1 ≤ c'.fresh := hle
    have hold : ¬FreshFrom c'.fresh (c.freshName (symbols.name id)) :=
      fun hfresh => c.not_freshFrom_succ _ (hfresh.mono hsucc)
    refine ⟨?_, by omega, ?_, ?_⟩
    · simpa only [mem_cons, or_assoc, or_left_comm] using hproper
    · rw [map_cons, nodup_cons]
      refine ⟨fun hmem => ?_, hnodup⟩
      obtain ⟨x, hx, heq⟩ := mem_map.mp hmem
      have hfresh : FreshFrom (c.fresh + 1) x.1 := (hrest x hx).2.1
      exact c.not_freshFrom_succ _ (heq ▸ hfresh)
    · intro x hx
      rcases mem_cons.mp hx with rfl | hx
      · exact ⟨hstandard.valid, c.freshFrom_freshName _, hold⟩
      · obtain ⟨hvalid, hfresh, hspent⟩ := hrest x hx
        exact ⟨hvalid, hfresh.mono (Nat.le_succ _), hspent⟩

theorem pop_fresh (c : Context) : c.pop.fresh = c.fresh := by
  unfold Context.pop
  split <;> rfl

theorem Encodes.proper {e : Bound.Expr} {t : Term} (h : Encodes symbols e c t c')
    (hreads : ExprReads (fun id => R (symbols.name id)) e) (hc : c.Proper R M) :
    t.Proper M (Spent M c'.fresh) := by
  induction h generalizing M with
  | int n ty span c => exact .ofLiteral n
  | bool b ty span c => exact ⟨trivial, .bool b⟩
  | @var id c t ty span hfind => exact hc.meaning _ hreads _ hfind
  | @index id place c c' i width w signed baseTy ty baseSpan span hfind hplace hwidth ih =>
    obtain ⟨hstandard, hM⟩ := hc.meaning _ hreads.1 _ hfind
    have hi := ih hreads.2 hc
    have harray : (Formula.var (symbols.name id) (.array 64 width)).Proper M (Spent M c'.fresh)
        (.array 64 width) :=
      .var hM ⟨by decide, hstandard.width_le⟩
    exact ⟨hstandard, harray.select (hi.extendTo hwidth (hi.width_le hwidth) (Nat.le_refl 64))⟩
  | binary ty span hop hleft hright ht iha ihb =>
    have ha := (iha hreads.1 hc).mono (fun _ => id) fun _ hspent => hspent.mono hright.keeps.fresh
    have hb := ihb hreads.2 (hc.keeps hleft.keeps)
    exact ha.binary? _ hb ht
  | unary ty span hoperand ht ih => exact (ih hreads hc).unary? _ ht
  | conditional ty span htest hbool hyes hno ht ihi iha ihb =>
    have hi := (ihi hreads.1 hc).mono (fun _ => id) fun _ hspent =>
      hspent.mono (hyes.keeps.trans hno.keeps).fresh
    have ha := (iha hreads.2.1 (hc.keeps htest.keeps)).mono (fun _ => id) fun _ hspent =>
      hspent.mono hno.keeps.fresh
    have hb := ihb hreads.2.2 (hc.keeps (htest.keeps.trans hyes.keeps))
    have hformula := hi.formula
    rw [hbool] at hformula
    exact .choose? hformula ha hb ht
  | @quantifier vars body c c₁ c₂ t bound kind ty span hbound hbody hbool ih =>
    obtain ⟨hc₁, hle, hnodup, hvars⟩ := quantified_proper hc.push hbound
    have ht := (ih hreads hc₁).formula
    rw [hbool] at ht
    have hfresh : c₂.pop.fresh = c₂.fresh := pop_fresh c₂
    -- the names of the quantifier are new for whatever stands around it, and used up behind it
    have hnew (name : String) (hname : name ∈ bound.map (·.1)) :
        (∃ sort, (name, sort) ∈ bound) ∧ Spent M c₂.fresh name := by
      obtain ⟨x, hx, rfl⟩ := mem_map.mp hname
      refine ⟨⟨x.2, hx⟩, fun sort hM => hc.old _ hM (hvars x hx).2.1, ?_⟩
      exact fun hfresh => (hvars x hx).2.2 (hfresh.mono hbody.keeps.fresh)
    refine ⟨trivial, ?_⟩
    rw [hfresh]
    refine .quantifier kind ht (fun x hx => (hvars x hx).1) hnodup ?_ ?_ fun name hname =>
      (hnew name hname).2
    · rintro x (hx | hM)
      · exact .inl hx
      · exact .inr ⟨hM, fun hname => (hnew _ hname).2.1 _ hM⟩
    · intro name hspent
      refine ⟨⟨fun sort hM => hspent.1 sort (.inr hM), hspent.2⟩, fun hname => ?_⟩
      obtain ⟨sort, hmem⟩ := (hnew name hname).1
      exact hspent.1 sort (.inl hmem)

def Meaning.Mentions (name : String) : Meaning → String × VarSort → Prop
  | .term t, x => t.formula.Free x
  | .array .bool, _ => False
  | .array (.int width _), x => x = (name, .array 64 width)

def Meaning.Binds : Meaning → String → Prop
  | .term t, name => t.formula.Binds name
  | .array _, _ => False

def Meaning.Sorted : Meaning → Prop
  | .term t => t.Sorted ∧ t.formula.BindsApart
  | .array .bool => True
  | .array (.int width signed) => (TermType.int width signed).Standard

namespace Context

/-- What a name stands for in one of the scopes, be it hidden by an inner scope or not. -/
def Holds (c : Context) (name : String) (m : Meaning) : Prop :=
  ∃ scope ∈ c.inner :: c.outer, scope.lookup name = some m

def Mentions (c : Context) (x : String × VarSort) : Prop := ∃ name m, c.Holds name m ∧ m.Mentions name x

/-- The names of the context stand for well-sorted terms over names of the source. Such a term may
have quantifiers: they capture nothing either, and the names that they bind are used up. -/
structure FromSource (c : Context) : Prop where
  sorted : ∀ name m, c.Holds name m → m.Sorted
  plain : ∀ x, c.Mentions x → Plain x.1
  binds : ∀ name m, c.Holds name m → ∀ n, m.Binds n → Spent c.Mentions c.fresh n

theorem holds_of_find? {name : String} {m : Meaning} (h : c.find? name = some m) : c.Holds name m :=
  exists_of_findSome?_eq_some h

theorem not_holds_empty (name : String) (m : Meaning) : ¬Holds {} name m := by
  rintro ⟨scope, hscope, hlookup⟩
  rw [mem_singleton.mp hscope] at hlookup
  cases hlookup

theorem holds_put {name other : String} {m m' : Meaning} (h : (c.put name m).Holds other m') :
    other = name ∧ m' = m ∨ c.Holds other m' := by
  obtain ⟨scope, hscope, hlookup⟩ := h
  rcases mem_cons.mp hscope with rfl | hscope
  · rw [Context.put, Table.lookup_cons_ite] at hlookup
    split at hlookup
    · next heq => exact .inl ⟨heq, (Option.some.inj hlookup).symm⟩
    · exact .inr ⟨c.inner, mem_cons_self, hlookup⟩
  · exact .inr ⟨scope, mem_cons_of_mem _ hscope, hlookup⟩

theorem mentions_put {name : String} {m : Meaning} {x : String × VarSort}
    (h : (c.put name m).Mentions x) : m.Mentions name x ∨ c.Mentions x := by
  obtain ⟨other, m', hholds, hx⟩ := h
  rcases holds_put hholds with ⟨rfl, rfl⟩ | hholds
  · exact .inl hx
  · exact .inr ⟨other, m', hholds, hx⟩

namespace FromSource

variable {c c' : Context}

theorem empty : FromSource {} :=
  ⟨fun name m h => absurd h (not_holds_empty name m), fun _ ⟨name, m, h, _⟩ =>
    absurd h (not_holds_empty name m), fun name m h => absurd h (not_holds_empty name m)⟩

/-- A new name may stand for anything whose variables no quantifier of the context binds, and the
other way round. -/
theorem put {name : String} {m : Meaning} (h : c.FromSource) (hm : m.Sorted)
    (hplain : ∀ x, m.Mentions name x → Plain x.1)
    (hbinds : ∀ n, m.Binds n → Spent (c.put name m).Mentions c.fresh n)
    (hothers : ∀ other m', c.Holds other m' → ∀ n, m'.Binds n → ∀ sort, ¬m.Mentions name (n, sort)) :
    (c.put name m).FromSource where
  sorted other m' hholds := by
    rcases holds_put hholds with ⟨rfl, rfl⟩ | hholds
    · exact hm
    · exact h.sorted other m' hholds
  plain x hx := (mentions_put hx).elim (hplain x) (h.plain x)
  binds other m' hholds n hn := by
    rcases holds_put hholds with ⟨rfl, rfl⟩ | hholds
    · exact hbinds n hn
    · obtain ⟨hold, hspent⟩ := h.binds other m' hholds n hn
      exact ⟨fun sort hmentions => (mentions_put hmentions).elim (hothers other m' hholds n hn sort)
        (hold sort), hspent⟩

theorem declare? {name : String} {ty : Ty} (h : c.FromSource) (hname : Plain name)
    (hnew : ∀ other m, c.Holds other m → ¬m.Binds name) (hdeclare : c.declare? name ty = some c') :
    c'.FromSource := by
  obtain ⟨m, hm, rfl⟩ := Option.map_eq_some_iff.mp hdeclare
  unfold meaning? at hm
  split at hm
  · next t ht =>
    cases hm
    have hstandard := TermType.standard_of_ofTy? ht
    have hvar : (Formula.var name t.sort).Proper (· = (name, t.sort)) (fun _ => False) t.sort :=
      .var rfl hstandard.valid
    apply h.put
    · exact ⟨⟨hvar.wellSorted, hvar.sort_eq, hstandard⟩, hvar.apart⟩
    · intro x hx
      rw [hvar.free x hx]
      exact hname
    · exact fun n hn => (hvar.binds n hn).elim
    · intro other m' hholds n hn sort hfree
      cases hvar.free _ hfree
      exact hnew other m' hholds hn
  · split at hm
    · next width signed ht =>
      cases hm
      apply h.put
      · exact TermType.standard_of_ofTy? ht
      · rintro x rfl
        exact hname
      · exact fun n hn => hn.elim
      · rintro other m' hholds n hn sort hx
        cases hx
        exact hnew other m' hholds hn
    · cases hm
  · cases hm

theorem bind {t : Term} (h : c.FromSource) (name : String)
    (ht : t.Proper c.Mentions (Spent c.Mentions c.fresh)) : (c.bind name t).FromSource := by
  have hsub (x : String × VarSort) (hx : (c.bind name t).Mentions x) : c.Mentions x :=
    (mentions_put hx).elim (ht.formula.free x) id
  apply h.put
  · exact ⟨⟨ht.formula.wellSorted, ht.formula.sort_eq, ht.standard⟩, ht.formula.apart⟩
  · exact fun x hx => h.plain x (ht.formula.free x hx)
  · intro n hn
    obtain ⟨hold, hspent⟩ := ht.formula.binds n hn
    exact ⟨fun sort hx => hold sort (hsub _ hx), hspent⟩
  · exact fun other m hholds n hn sort hfree =>
      (h.binds other m hholds n hn).1 sort (ht.formula.free _ hfree)

theorem proper (h : c.FromSource) : c.Proper (fun _ => True) c.Mentions where
  old x hx hfresh := hfresh.not_plain (h.plain x hx)
  meaning name _ m hm := by
    have hholds := holds_of_find? hm
    have hsorted := h.sorted name m hholds
    have hbinds := h.binds name m hholds
    have hmentions (x : String × VarSort) (hx : m.Mentions name x) : c.Mentions x := ⟨name, m, hholds, hx⟩
    match m, hsorted, hbinds, hmentions with
    | .term t, ⟨hsorted, hapart⟩, hbinds, hmentions =>
      exact ⟨hsorted.width, hsorted.formula, hsorted.sort, hmentions, hapart, hbinds⟩
    | .array .bool, _, _, _ => trivial
    | .array (.int width signed), hsorted, _, hmentions => exact ⟨hsorted, hmentions _ rfl⟩

end FromSource

end Context

/-- Encoding an expression gives a well-sorted formula of the sort of its type. Its free variables
are those of the context, and no quantifier binds such a variable, one of the formula, or one that
is bound around it. -/
theorem encoded_sorted_captureFree (symbols : SymbolTable) (e : Bound.Expr) {c c' : Context}
    {t : Term} (hc : c.FromSource) (h : Runs (Encode.expr symbols e) c t c') :
    t.Sorted ∧ (∀ x, t.formula.Free x → c.Mentions x) ∧ t.formula.BindsApart ∧
      ∀ name, t.formula.Binds name → ∀ sort, ¬t.formula.Free (name, sort) ∧ ¬c.Mentions (name, sort) := by
  have hencodes := encodes_of_runs e h
  have hproper := hencodes.proper (hencodes.exprReads fun _ => trivial) hc.proper
  have hformula := hproper.formula
  refine ⟨⟨hformula.wellSorted, hformula.sort_eq, hproper.standard⟩, hformula.free, hformula.apart, ?_⟩
  intro name hname sort
  have hnew := (hformula.binds name hname).1 sort
  exact ⟨fun hfree => hnew (hformula.free _ hfree), hnew⟩

theorem encoded_sorted_captureFree_hidden :
    let x := Term.var "x" (.int 8 false)
    let y : Term := { formula := .binary .add x.formula (.constant 1 8), ty := .int 8 false }
    let c := (Context.put {} "x" (.term x)).bind "y" y
    let symbols : SymbolTable :=
      ⟨#[⟨"x", .var (.int 16 false) false false, default⟩,
        ⟨"y", .var (.int 8 false) false false, default⟩]⟩
    let atLeast : Bound.Expr := .mk (.binary (.mk (.var 0) (.int 16 false) default) .gtEq
      (.mk (.var 1) (.int 8 false) default)) .bool default
    let e : Bound.Expr := .mk (.quantifier .universal [0] atLeast) .bool default
    let t : Term :=
      { formula := .quantifier .universal [(c.freshName "x", .bitVec 16)]
          (.compare .uge (.var (c.freshName "x") (.bitVec 16)) (.zeroExtend 8 y.formula)), ty := .bool }
    c.FromSource ∧ Runs (Encode.expr symbols e) c t { c with fresh := 1 } ∧
      t.Sorted ∧ (∀ x, t.formula.Free x → c.Mentions x) ∧ t.formula.BindsApart ∧
        ∀ name, t.formula.Binds name → ∀ sort, ¬t.formula.Free (name, sort) ∧
          ¬c.Mentions (name, sort) := by
  intro x y c symbols atLeast e t
  have hplain : Plain "x" := by
    unfold Plain
    decide
  have hdeclare : Context.declare? {} "x" (.int 8 false) = some (Context.put {} "x" (.term x)) := rfl
  have hx : (Context.put {} "x" (.term x)).FromSource :=
    Context.FromSource.empty.declare? hplain
      (fun other m h => absurd h (Context.not_holds_empty other m)) hdeclare
  have hmentions : (Context.put {} "x" (.term x)).Mentions ("x", .bitVec 8) :=
    ⟨"x", .term x, Context.holds_of_find? rfl, .var "x" (.bitVec 8)⟩
  have hc : c.FromSource :=
    hx.bind "y" ⟨by decide, .binary .add (.var hmentions (by decide)) (.constant 1 (by decide))⟩
  have hrun : Runs (Encode.expr symbols e) c t { c with fresh := 1 } := by
    unfold Runs
    rfl
  exact ⟨hc, hrun, encoded_sorted_captureFree symbols e hc hrun⟩

end Contract

end TagLang
