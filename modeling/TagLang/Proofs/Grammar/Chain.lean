import TagLang.Proofs.Grammar.Infix

/-! # One operator over several operands

An operator that associates to the left can be written once, in front of its operands, or again and
again between them. Both forms are read as the operands joined from the left. They share their first
token if the operator is a minus sign and the first operand a negative number, and then the sign is
taken for the operator wherever this can be.
-/

namespace TagLang
open List

/-- What stands beside an operator in a group: a name, a number, or an expression in parentheses. -/
inductive Operand
  | name (text : String)
  | number (value : Int)
  | group (inside : List TokenKind) (tree : Expr)

namespace Operand
open Grammar

variable {o : Operand}

def kinds : Operand → List TokenKind
  | .name text => [.ident text]
  | .number value => if value < 0 then [.minus, .int (-value)] else [.int value]
  | .group inside _ => grouped inside

def tree : Operand → Expr
  | .name text => .ident text .nowhere
  | .number value => .int value .nowhere
  | .group _ tree => tree

def Sound : Operand → Prop
  | .group inside tree => ReadsAs (grouped inside) tree
  | _ => True

def isNegative : Operand → Bool
  | .number value => value < 0
  | _ => false

def isUnsigned : Operand → Bool
  | .number value => 0 ≤ value
  | _ => false

def negated : Operand → Operand
  | .number value => .number (-value)
  | o => o

theorem Sound.readsAs (h : o.Sound) : ReadsAs o.kinds o.tree := by
  cases o with
  | name text => exact readsAs_ident text
  | number value => exact readsAs_int value
  | group inside tree => exact h

theorem kinds_begins (o : Operand) : ∃ k ks, o.kinds = k :: ks ∧ startsExpr k = true := by
  cases o with
  | name text => exact ⟨_, _, rfl, rfl⟩
  | number value =>
    by_cases hneg : value < 0
    · exact ⟨.minus, [.int (-value)], if_pos hneg, rfl⟩
    · exact ⟨.int value, [], if_neg hneg, rfl⟩
  | group inside tree => exact ⟨_, _, rfl, rfl⟩

theorem kinds_of_isUnsigned (h : o.isUnsigned = true) :
    ∃ value, o = .number value ∧ 0 ≤ value ∧ o.kinds = [.int value] := by
  cases o with
  | name text => cases h
  | number value =>
    have hnonneg : 0 ≤ value := of_decide_eq_true h
    exact ⟨value, rfl, hnonneg, if_neg (by omega)⟩
  | group inside tree => cases h

theorem kinds_of_isNegative (h : o.isNegative = true) :
    ∃ value, o = .number value ∧ o.kinds = [.minus, .int (-value)] := by
  cases o with
  | name text => cases h
  | number value => exact ⟨value, rfl, if_pos (of_decide_eq_true h)⟩
  | group inside tree => cases h

theorem kinds_of_not_isUnsigned (h : o.isUnsigned = false) :
    ∃ k ks, o.kinds = k :: ks ∧ (∀ value, k ≠ .int value) ∧ ∀ value, k ≠ .float value := by
  cases o with
  | name text => exact ⟨_, _, rfl, nofun, nofun⟩
  | number value =>
    have hneg : ¬ 0 ≤ value := of_decide_eq_false h
    exact ⟨.minus, [.int (-value)], if_pos (by omega), nofun, nofun⟩
  | group inside tree => exact ⟨_, _, rfl, nofun, nofun⟩

theorem unaryOp?_eq_none {s : Stream} {t : Token} {more : List Token} (hs : s.Shows o.kinds t more) :
    unaryOp? s.kind s.nextKind = none := by
  cases o with
  | name text =>
    rw [kinds] at hs
    rw [hs.kind_eq]
    rfl
  | number value =>
    rw [kinds] at hs
    split at hs
    · rw [hs.kind_eq, hs.nextKind_eq]
      rfl
    · rw [hs.kind_eq]
      rfl
  | group inside tree =>
    rw [kinds, grouped] at hs
    rw [hs.kind_eq]
    rfl

theorem startsInfix_kinds (h : o.isNegative = false) {k : TokenKind} (hk : k ≠ .lParen)
    (ks : List TokenKind) : startsInfix (o.kinds ++ k :: ks) = true := by
  cases o with
  | name text => exact startsInfix_append rfl hk ks
  | number value =>
    have hnonneg : ¬ value < 0 := of_decide_eq_false h
    rw [kinds, if_neg hnonneg]
    rfl
  | group inside tree => rfl

end Operand

namespace BinOp

def inFront (op : BinOp) (os : List Operand) : List TokenKind :=
  grouped (op.token :: os.flatMap Operand.kinds)

def before (op : BinOp) (p : Operand) : List TokenKind := op.token :: p.kinds

def between (op : BinOp) (o : Operand) (os : List Operand) : List TokenKind :=
  grouped (o.kinds ++ os.flatMap op.before)

def joined (op : BinOp) (o : Operand) (os : List Operand) : Expr :=
  os.foldl (fun left p => .binary left op p.tree .nowhere) o.tree

/-- The tokens between the parentheses are a minus sign and numbers, each of which may have a sign:
they can be understood in both ways. -/
def isAmbiguous (op : BinOp) (o : Operand) (os : List Operand) : Bool :=
  op = .sub && o.isNegative && os.all Operand.isUnsigned

end BinOp

namespace Grammar

section Rules

variable {r : Rules} {op : BinOp} {o : Operand} {os : List Operand} {ks : List TokenKind}
  {after next : TokenKind → Prop} {e : Expr}

theorem noAccess_of_startsExpr {k : TokenKind} (h : startsExpr k = true ∨ k = .rParen) : NoAccess k := by
  constructor
  all_goals
    rintro rfl
    obtain h | h := h <;> cases h

/-! ## The operator in front -/

theorem bare_foldl_joinLeft {as : List Expr} (h : Forall₂ (fun p => Same p.tree) os as) {a : Expr}
    (ha : a.bare = e.bare) :
    (as.foldl (joinLeft op) a).bare =
      (os.foldl (fun left p => .binary left op (Operand.tree p) .nowhere) e).bare := by
  induction h generalizing a e with
  | nil => exact ha
  | cons hb _ ih =>
    refine ih ?_
    rw [joinLeft, Expr.bare, Expr.bare, ha, hb]

section Left

variable (hassoc : op.isRightAssoc = false) (hcomparison : op.isComparison = false)
include hassoc hcomparison

theorem applyLeading_several {t : Token} (ht : t.kind = op.token) (a b : Expr) (as : List Expr)
    (span : Span) :
    applyLeading t (a :: b :: as) span = .ok (widen span ((b :: as).foldl (joinLeft op) a)) := by
  obtain ⟨_, raw, place⟩ := t
  obtain rfl : _ = op.token := ht
  cases op <;> first | rfl | exact absurd hassoc (by decide) | exact absurd hcomparison (by decide)

theorem exists_applyLeading (hne : os ≠ []) {t : Token} (ht : t.kind = op.token) {a : Expr}
    (ha : Same o.tree a)
    {as : List Expr} (has : Forall₂ (fun p => Same p.tree) os as) (span : Span) :
    ∃ e, applyLeading t (a :: as) span = .ok e ∧ Same (op.joined o os) e := by
  obtain ⟨p, os, rfl⟩ := exists_cons_of_ne_nil hne
  obtain ⟨b, as, hb, has', rfl⟩ := forall₂_cons_left_iff.mp has
  refine ⟨_, applyLeading_several hassoc hcomparison ht a b as span, ?_⟩
  rw [Same, bare_widen]
  exact bare_foldl_joinLeft has ha

theorem tryConsumes_inFront (hne : os ≠ [])
    (hread : ∀ p ∈ o :: os, TryConsumes p.kinds NoAccess (Same p.tree) r.expr) :
    TryConsumes (op.inFront (o :: os)) after (Same (op.joined o os)) (group r) := by
  have hleads : leadsGroup op.token = true := by cases op <;> rfl
  refine TryConsumes.leadingGroup hleads fun opened => ?_
  refine tryConsumes_leadingGroup hread (fun p _ => p.kinds_begins)
    (fun _ => noAccess_of_startsExpr) opened ?_
  rintro t _ span ht (_ | ⟨ha, has⟩)
  exact exists_applyLeading hassoc hcomparison hne ht ha has span

end Left

/-! ## The operator between the operands -/

theorem joins_kinds (level : Nat) (hread : TryConsumes o.kinds NoAccess (Same o.tree) r.expr) :
    Joins r level o.kinds NoAccess (Same o.tree) := by
  obtain ⟨k, ks, hkinds, -⟩ := o.kinds_begins
  have hsign {s : Stream} {t : Token} {more : List Token} (hs : s.Shows (k :: ks) t more) :
      unaryOp? s.kind s.nextKind = none := Operand.unaryOp?_eq_none (hkinds ▸ hs)
  rw [hkinds] at hread ⊢
  exact joins_operand level hread hsign

theorem Joins.chain (hassoc : op.isRightAssoc = false)
    (hleft : Joins r 0 ks (Below op.rightLevel) (Same e))
    (hread : ∀ p ∈ os, TryConsumes p.kinds NoAccess (Same p.tree) r.expr) :
    Joins r 0 (ks ++ os.flatMap op.before) (Below op.rightLevel)
      (Same (os.foldl (fun left p => .binary left op p.tree .nowhere) e)) := by
  have hop : Below op.rightLevel op.token := below_token (by simp [BinOp.rightLevel, hassoc])
  induction os generalizing ks e with
  | nil => simpa using hleft
  | cons p os ih =>
    obtain ⟨hp, hos⟩ := forall_mem_cons.mp hread
    have hjoin := hleft.join hop (Nat.zero_le _) (joins_kinds op.rightLevel hp) fun _ hk => hk.noAccess
    rw [flatMap_cons, ← append_assoc]
    refine ih (hjoin.mono (fun _ hk => hk) ?_) hos
    rintro _ ⟨a, b, ha, hb, rfl⟩
    rw [Same, joinLeft, Expr.bare, Expr.bare, ha, hb]

theorem tryConsumes_between (hassoc : op.isRightAssoc = false)
    (hread : ∀ p ∈ o :: os, TryConsumes p.kinds NoAccess (Same p.tree) r.expr) (opened : Span) :
    TryConsumes ((o.kinds ++ os.flatMap op.before) ++ [.rParen]) after (Same (op.joined o os))
      (infixGroup r opened) := by
  obtain ⟨ho, hos⟩ := forall_mem_cons.mp hread
  have hfirst : Joins r 0 o.kinds (Below op.rightLevel) (Same o.tree) :=
    (joins_kinds 0 ho).mono (fun _ hk => hk.noAccess) fun _ ha => ha
  refine ((hfirst.chain hassoc hos).infixGroup (below_rParen _) opened).mono (fun _ hk => hk) ?_
  rintro _ ⟨a, span, ha, rfl⟩
  rw [Same, bare_widen, ha, BinOp.joined]

/-! ## A sign in front -/

def Refuses {α : Type} (ks : List TokenKind) (p : TryParser α) : Prop :=
  ∀ (s : Stream) (t : Token) (more : List Token), s.Shows ks t more → ∃ err s', p.run.run s =
    (.error err, s')

section Refuses

variable {α β : Type} {k : TokenKind} {ks' : List TokenKind} {p : TryParser α} {f : α → TryParser β}
  {P : α → Prop}

theorem run_bind_error {s s' : Stream} {err : ParseError} (h : p.run.run s = (.error err, s')) :
    (p >>= f).run.run s = (.error err, s') := by
  rw [ExceptT.run_bind, run_bind_eq h]
  rfl

theorem Refuses.bind (h : Refuses ks p) : Refuses ks (p >>= f) := by
  intro s t more hs
  obtain ⟨err, s', hrun⟩ := h s t more hs
  exact ⟨err, s', run_bind_error hrun⟩

theorem TryConsumes.refuses (hp : TryConsumes ks after P p)
    (hf : ∀ a, P a → Refuses (k :: ks') (f a)) (hk : after k) :
    Refuses (ks ++ k :: ks') (p >>= f) := by
  intro s t more hs
  obtain ⟨t', more', hfirst, hsecond, hkind⟩ := hs.split
  obtain ⟨_, hrun, a, rfl, ha⟩ := hp s t' more' hfirst (hkind ▸ hk)
  obtain ⟨err, s', hrun'⟩ := hf a ha _ t more hsecond
  exact ⟨err, s', by rw [run_bind_ok hrun, hrun']⟩

theorem refuses_tryMany {round : TryParser (Round α)}
    (h : ∀ fuel, ks.length ≤ fuel → Refuses ks (collect round fuel)) :
    Refuses ks (tryMany round) := by
  intro s t more hs
  have hlength := hs.length_le
  exact h (s.rest.length + 1) (by omega) s t more hs

theorem refuses_expr (n : Nat) (h : Refuses ks (primary (rules n))) :
    Refuses ks (rules (n + 1)).expr := h.bind

theorem refuses_token (hop : op ≠ .sub) (ks : List TokenKind) : Refuses (op.token :: ks) (primary r) := by
  intro s t more hs
  refine ⟨s.unexpected "expression", s, ?_⟩
  rw [primary, run_bind_ok (run_get_ok s), hs.kind_eq]
  cases op <;> first | rfl | exact absurd rfl hop

theorem refuses_minus (hint : ∀ value, k ≠ .int value) (hfloat : ∀ value, k ≠ .float value)
    (ks : List TokenKind) : Refuses (.minus :: k :: ks) (primary r) := by
  intro s t more hs
  refine ⟨s.unexpected "expression", s, ?_⟩
  rw [primary, run_bind_ok (run_get_ok s), hs.kind_eq, hs.nextKind_eq]
  cases k <;> first | rfl | exact absurd rfl (hint _) | exact absurd rfl (hfloat _)

end Refuses

theorem refuses_nextOperand {k : TokenKind} (hparen : k ≠ .rParen) (heof : k ≠ .eof)
    (h : Refuses (k :: ks) r.expr) : Refuses (k :: ks) (nextOperand r) := by
  intro s t more hs
  obtain ⟨err, s', hrun⟩ := h s t more hs
  refine ⟨err, s', ?_⟩
  rw [nextOperand, run_bind_ok (run_peek_ok hs.kind_eq)]
  split
  · next heq => exact absurd heq hparen
  · next heq => exact absurd heq heof
  · exact run_bind_error hrun

/-- The loop over the operands gives up behind the first of them, or where a minus sign belongs to
no number. -/
theorem refuses_collect (n : Nat) (hne : os ≠ [])
    (h : op = .sub → os.all Operand.isUnsigned = false) (ks : List TokenKind) {fuel : Nat}
    (hfuel : os.length ≤ fuel) :
    Refuses (os.flatMap op.before ++ ks) (collect (nextOperand (rules (n + 1))) fuel) := by
  induction os generalizing fuel with
  | nil => exact absurd rfl hne
  | cons p os ih =>
    obtain _ | fuel := fuel
    · simp at hfuel
    rw [flatMap_cons, BinOp.before, cons_append, cons_append]
    by_cases hop : op = .sub
    · subst hop
      have hall := h rfl
      cases hp : p.isUnsigned with
      | true =>
        rw [all_cons, hp, Bool.true_and] at hall
        obtain ⟨value, -, hnonneg, hkinds⟩ := Operand.kinds_of_isUnsigned hp
        obtain ⟨q, os, rfl⟩ := exists_cons_of_ne_nil (l := os) (by rintro rfl; cases hall)
        have hrest := ih (cons_ne_nil q os) (fun _ => hall) (Nat.le_of_succ_le_succ hfuel)
        rw [hkinds]
        refine (tryConsumes_nextOperand rfl (tryConsumes_expr (primary_signed hnonneg))).refuses
          (k := .minus) ?_ ⟨nofun, nofun⟩
        rintro _ ⟨a, rfl, -⟩
        exact hrest.bind
      | false =>
        obtain ⟨k, ks', hkinds, hint, hfloat⟩ := Operand.kinds_of_not_isUnsigned hp
        rw [hkinds]
        exact Refuses.bind
          (refuses_nextOperand nofun nofun (refuses_expr n (refuses_minus hint hfloat _)))
    · refine Refuses.bind (refuses_nextOperand ?_ ?_ (refuses_expr n (refuses_token hop _)))
      · cases op <;> nofun
      · cases op <;> nofun

theorem refuses_leadingGroup (n : Nat) (hne : os ≠ [])
    (h : op = .sub → os.all Operand.isUnsigned = false) (value : Int) (opened : Span) :
    Refuses (.minus :: .int value :: (os.flatMap op.before ++ [.rParen]))
      (leadingGroup (rules (n + 1)) opened) := by
  refine (tryConsumes_lift (consumes_take .minus)).refuses
    (fun sign _ => Refuses.bind (refuses_tryMany ?_)) trivial
  intro fuel hfuel
  obtain _ | fuel := fuel
  · simp at hfuel
  have hchained : Chained op.before (fun _ => True) os := fun p _ => ⟨_, _, rfl, trivial⟩
  have hlength := hchained.length_le
  rw [length_cons, length_append] at hfuel
  have hrest : Refuses _ (collect (nextOperand (rules (n + 1))) fuel) :=
    refuses_collect n hne h [.rParen] (by omega)
  obtain ⟨p, os, rfl⟩ := exists_cons_of_ne_nil hne
  have hop := below_token (Nat.lt_succ_self op.precedence)
  refine (tryConsumes_nextOperand rfl (tryConsumes_expr (primary_number value))).refuses ?_ hop.noAccess
  rintro _ ⟨a, rfl, -⟩
  exact hrest.bind

/-- If the operator cannot come first, the group is read again with the sign as a part of the first
operand. -/
theorem tryConsumes_groupRetry {Q : Expr → Prop}
    (hrefuse : ∀ opened, Refuses (.minus :: ks) (leadingGroup r opened))
    (h : ∀ opened, TryConsumes (.minus :: ks) after Q (infixGroup r opened)) :
    TryConsumes (.lParen :: .minus :: ks) after Q (group r) := by
  refine TryConsumes.take fun opened _ => ?_
  intro s t more hs ht
  obtain ⟨err, s', hfirst⟩ := hrefuse opened.span s t more hs
  obtain ⟨_, hrun, a, rfl, ha⟩ := h opened.span s t more hs ht
  have hset : (set s : TryParser PUnit).run.run s' = (.ok ⟨⟩, s) := rfl
  have hkind : s.kind = .minus := hs.kind_eq
  refine ⟨.ok a, ?_, a, rfl, ha⟩
  rw [run_bind_ok (run_get_ok s), hkind, quantifierKind?_eq_none (k := .minus) nofun]
  dsimp only
  rw [if_pos (by decide), run_tryCatch, hfirst]
  dsimp only
  rw [run_bind_ok hset, run_tryCatch, hrun]

/-- A number, and other numbers with signs before them: their tokens, and what is read. -/
def signedNumbers (value : Int) (os : List Operand) : List (List TokenKind × Expr) :=
  ([.int value], .int value .nowhere) :: os.map fun p => (BinOp.sub.before p, p.negated.tree)

theorem tryConsumes_signs (n : Nat) (hne : os ≠ []) (hall : ∀ p ∈ os, p.isUnsigned = true) (value : Int) :
    TryConsumes (grouped (.minus :: .int value :: os.flatMap BinOp.sub.before)) after
      (Same (BinOp.sub.joined (.number value) (os.map Operand.negated))) (group (rules (n + 1))) := by
  have hsigned : ∀ p ∈ os, TryConsumes (BinOp.sub.before p) NoAccess (Same p.negated.tree)
      (rules (n + 1)).expr := by
    intro p hp
    obtain ⟨value, rfl, hnonneg, hkinds⟩ := Operand.kinds_of_isUnsigned (hall p hp)
    rw [BinOp.before, hkinds]
    exact tryConsumes_expr (primary_signed hnonneg)
  have hread : ∀ b ∈ signedNumbers value os, TryConsumes b.1 NoAccess (Same b.2) (rules (n + 1)).expr :=
    forall_mem_cons.mpr ⟨tryConsumes_expr (primary_number value), forall_mem_map.mpr hsigned⟩
  have hbegins : ∀ b ∈ signedNumbers value os, ∃ k ks, b.1 = k :: ks ∧ startsExpr k = true :=
    forall_mem_cons.mpr ⟨⟨_, _, rfl, rfl⟩, forall_mem_map.mpr fun p _ => ⟨_, _, rfl, rfl⟩⟩
  have htokens : (signedNumbers value os).flatMap Prod.fst =
      .int value :: os.flatMap BinOp.sub.before := by
    rw [signedNumbers, flatMap_cons, flatMap_map]
    rfl
  rw [← htokens]
  refine TryConsumes.leadingGroup rfl fun opened => ?_
  refine tryConsumes_leadingGroup hread hbegins (fun _ => noAccess_of_startsExpr) opened ?_
  rintro t _ span ht (_ | ⟨ha, has⟩)
  rw [forall₂_map_left_iff] at has
  exact exists_applyLeading rfl rfl (by simpa using hne) ht ha (forall₂_map_left_iff.mpr has) span

end Rules

section Chain

variable {op : BinOp} {o : Operand} {os : List Operand}

theorem readsAs_inFront (hassoc : op.isRightAssoc = false) (hcomparison : op.isComparison = false)
    (hne : os ≠ []) (hsound : ∀ p ∈ o :: os, p.Sound) :
    ReadsAs (op.inFront (o :: os)) (op.joined o os) := by
  refine readsAs_grouped fun n hn => tryConsumes_inFront hassoc hcomparison hne fun p hp =>
    (hsound p hp).readsAs n ?_
  have hlength : p.kinds.length ≤ ((o :: os).flatMap Operand.kinds).length := length_le_flatMap hp
  rw [length_cons] at hn
  omega

theorem readsAs_between (hassoc : op.isRightAssoc = false) (hne : os ≠ [])
    (hsound : ∀ p ∈ o :: os, p.Sound) (hambiguous : op.isAmbiguous o os = false) :
    ReadsAs (op.between o os) (op.joined o os) := by
  refine readsAs_grouped fun n hn => ?_
  have hread : ∀ p ∈ o :: os, TryConsumes p.kinds NoAccess (Same p.tree) (rules n).expr := by
    intro p hp
    refine (hsound p hp).readsAs n (Nat.le_trans ?_ hn)
    rw [length_append]
    obtain rfl | hp := mem_cons.mp hp
    · omega
    · have hlength : (op.before p).length ≤ (os.flatMap op.before).length := length_le_flatMap hp
      rw [BinOp.before, length_cons] at hlength
      omega
  cases hsign : o.isNegative with
  | false =>
    obtain ⟨p, os, rfl⟩ := exists_cons_of_ne_nil hne
    have hop : op.token ≠ .lParen := by cases op <;> nofun
    exact TryConsumes.groupInfix (Operand.startsInfix_kinds hsign hop _)
      (tryConsumes_between hassoc hread)
  | true =>
    obtain ⟨value, -, hkinds⟩ := Operand.kinds_of_isNegative hsign
    have hbetween (opened : Span) : TryConsumes _ (fun _ => True) _ (infixGroup (rules n) opened) :=
      tryConsumes_between hassoc hread opened
    rw [hkinds] at hn hbetween ⊢
    obtain _ | n := n
    · simp at hn
    refine tryConsumes_groupRetry (refuses_leadingGroup n hne (fun hop => ?_) (-value)) hbetween
    simpa [BinOp.isAmbiguous, hop, hsign] using hambiguous

/-- Where both ways are possible, the sign is the operator, and the other signs belong to the
numbers behind them. -/
theorem readsAs_between_ambiguous (hne : os ≠ []) (hambiguous : op.isAmbiguous o os = true) :
    ReadsAs (op.between o os) (op.joined o.negated (os.map Operand.negated)) := by
  simp only [BinOp.isAmbiguous, Bool.and_eq_true, decide_eq_true_eq] at hambiguous
  obtain ⟨⟨rfl, hsign⟩, hall⟩ := hambiguous
  obtain ⟨value, rfl, hkinds⟩ := Operand.kinds_of_isNegative hsign
  refine readsAs_grouped fun n hn => ?_
  rw [hkinds] at hn ⊢
  obtain _ | n := n
  · simp at hn
  exact tryConsumes_signs n hne (all_eq_true.mp hall) (-value)

theorem bare_of_foldl {ps : List Operand} {e e' : Expr} (hlength : os.length = ps.length)
    (h : (os.foldl (fun left p => .binary left op p.tree .nowhere) e).bare =
      (ps.foldl (fun left p => .binary left op p.tree .nowhere) e').bare) : e.bare = e'.bare := by
  induction os generalizing ps e e' with
  | nil =>
    obtain rfl := length_eq_zero_iff.mp hlength.symm
    exact h
  | cons p os ih =>
    obtain ⟨q, ps, rfl⟩ := exists_cons_of_length_eq_add_one hlength.symm
    have hbinary := ih (Nat.succ.inj hlength) h
    rw [Expr.bare, Expr.bare] at hbinary
    exact (Expr.binary.inj hbinary).1

theorem bare_joined_negated_ne (hambiguous : op.isAmbiguous o os = true) :
    (op.joined o.negated (os.map Operand.negated)).bare ≠ (op.joined o os).bare := by
  simp only [BinOp.isAmbiguous, Bool.and_eq_true] at hambiguous
  obtain ⟨value, rfl, -⟩ := Operand.kinds_of_isNegative hambiguous.1.2
  have hneg : value < 0 := of_decide_eq_true hambiguous.1.2
  intro h
  have hvalue := (Expr.int.inj (bare_of_foldl (by simp) h)).1
  omega

/-- An operator that associates to the left and compares nothing is read as its operands joined from
the left, whether it stands in front of them or between them. Only a minus sign between numbers, of
which just the first is negative, is read with all signs reversed: the tokens are those of a
subtraction with the operator in front. -/
theorem expr_inFront_between (hassoc : op.isRightAssoc = false)
    (hcomparison : op.isComparison = false) (hne : os ≠ []) (hsound : ∀ p ∈ o :: os, p.Sound) :
    TryConsumes (op.inFront (o :: os)) NoAccess (Same (op.joined o os)) expr ∧
      (op.isAmbiguous o os = false → TryConsumes (op.between o os) NoAccess
        (Same (op.joined o os)) expr) ∧
      (op.isAmbiguous o os = true →
        TryConsumes (op.between o os) NoAccess
          (Same (op.joined o.negated (os.map Operand.negated))) expr ∧
          (op.joined o.negated (os.map Operand.negated)).bare ≠ (op.joined o os).bare) :=
  ⟨(readsAs_inFront hassoc hcomparison hne hsound).expr,
    fun hambiguous => (readsAs_between hassoc hne hsound hambiguous).expr,
    fun hambiguous =>
      ⟨(readsAs_between_ambiguous hne hambiguous).expr, bare_joined_negated_ne hambiguous⟩⟩

def implication : OpTree := .join .implies (.name "a") (.name "b")

def mixedOperands : List Operand := [.group implication.infixForm implication.expr, .number 3, .name "x"]

theorem expr_inFront_between_mixed : (∀ p ∈ .number (-5) :: mixedOperands, p.Sound) ∧
    (∃ a, expr.run.run (.ofKinds (BinOp.sub.inFront (.number (-5) :: mixedOperands))) =
      (.ok a, .ofKinds []) ∧ a.bare = (BinOp.sub.joined (.number (-5)) mixedOperands).bare) ∧
    ∃ a, expr.run.run (.ofKinds (BinOp.sub.between (.number (-5)) mixedOperands)) = (.ok a, .ofKinds []) ∧
      a.bare = (BinOp.sub.joined (.number (-5)) mixedOperands).bare := by
  have hsound : ∀ p ∈ .number (-5) :: mixedOperands, p.Sound := by
    simpa [mixedOperands, Operand.Sound] using implication.climbs.readsAs
  have hne : mixedOperands ≠ [] := cons_ne_nil _ _
  have hassoc : BinOp.sub.isRightAssoc = false := rfl
  obtain ⟨hfront, hbetween, -⟩ := expr_inFront_between hassoc rfl hne hsound
  have hrun {ks : List TokenKind}
      (h : TryConsumes ks NoAccess (Same (BinOp.sub.joined (.number (-5)) mixedOperands)) expr)
      (htokens : (Stream.ofKinds ks).tokens = ks.map (fun k => ⟨k, "", .nowhere⟩) ++ [.eofAt .nowhere]) :
      ∃ a, expr.run.run (.ofKinds ks) = (.ok a, (Stream.ofKinds ks).moveTo (.eofAt .nowhere) []) ∧
        a.bare = (BinOp.sub.joined (.number (-5)) mixedOperands).bare := by
    have hkinds : (ks.map fun k => (⟨k, "", .nowhere⟩ : Token)).map Token.kind = ks := by
      rw [map_map]
      exact map_id ks
    obtain ⟨_, hrun, a, rfl, ha⟩ := h _ _ _ ⟨_, hkinds, htokens⟩ ⟨nofun, nofun⟩
    exact ⟨a, hrun, ha⟩
  exact ⟨hsound, hrun hfront rfl, hrun (hbetween rfl) rfl⟩

/-- In `(-5 - 3)` the minus sign in front is the operator, as in `(- 5 -3)`, which has the same
tokens. -/
theorem expr_between_numbers :
    BinOp.sub.between (.number (-5)) [.number 3] = BinOp.sub.inFront [.number 5, .number (-3)] ∧
    ∃ a, expr.run.run (.ofKinds (BinOp.sub.between (.number (-5)) [.number 3])) = (.ok a, .ofKinds []) ∧
      a.bare = .binary (.int 5 .nowhere) .sub (.int (-3) .nowhere) .nowhere ∧
      a.bare ≠ (BinOp.sub.joined (.number (-5)) [.number 3]).bare :=
  ⟨rfl, _, rfl, rfl, nofun⟩

end Chain

end Grammar

end TagLang
