import TagLang.Proofs.Grammar.Spelling

/-! # Operators between their operands

Inside a group, operators may stand between their operands. How tightly an operator binds decides
what its operands are, and parentheses are needed where this is not what is meant. A tree of
operators that is written with these parentheses and no others is read back.
-/

namespace TagLang
open List

/-! ## The infix form -/

namespace BinOp

/-- How tightly an operator has to bind to stand in the left operand without parentheses. -/
def leftLevel (op : BinOp) : Nat := if op.isRightAssoc then op.precedence + 1 else op.precedence

def rightLevel (op : BinOp) : Nat := if op.isRightAssoc then op.precedence else op.precedence + 1

/-- All operators of one level associate to the same side. -/
theorem isRightAssoc_iff (op : BinOp) : op.isRightAssoc = true ↔ op.precedence = 1 := by
  cases op <;> decide

/-- An operator that stands in the left operand ends where the outer operator begins. -/
theorem precedence_lt_rightLevel {op inner : BinOp} (h : op.leftLevel ≤ inner.precedence) :
    op.precedence < inner.rightLevel := by
  simp only [leftLevel, isRightAssoc_iff] at h
  simp only [rightLevel, isRightAssoc_iff]
  split at h <;> split <;> omega

theorem precedence_le_rightLevel (op : BinOp) : op.precedence ≤ op.rightLevel := by
  unfold rightLevel
  split <;> omega

end BinOp

inductive OpTree
  | name (text : String)
  | number (value : Nat)
  | join (op : BinOp) (left right : OpTree)

namespace OpTree

def expr : OpTree → Expr
  | .name text => .ident text .nowhere
  | .number value => .int value .nowhere
  | .join op left right => .binary left.expr op right.expr .nowhere

/-- Whether the tree needs no parentheses where operators have to bind at a level. -/
def bindsAt (level : Nat) : OpTree → Bool
  | .join op _ _ => level ≤ op.precedence
  | _ => true

/-- The kinds of the tokens of a tree, with parentheses only where an operator would bind too
loosely. -/
def infixForm : OpTree → List TokenKind
  | .name text => [.ident text]
  | .number value => [.int value]
  | .join op left right =>
    (if left.bindsAt op.leftLevel then left.infixForm else grouped left.infixForm) ++
      op.token :: (if right.bindsAt op.rightLevel then right.infixForm else grouped right.infixForm)

end OpTree

namespace Grammar

section Rules

variable {r : Rules} {k : TokenKind} {ks ks' : List TokenKind} {level : Nat}
  {after next : TokenKind → Prop} {P Q : Expr → Prop} {s : Stream}

theorem binOp?_token (op : BinOp) : binOp? op.token = some op := by
  cases op <;> rfl

theorem run_peekNext_ok (s : Stream) :
    (liftM Grammar.peekNext : TryParser TokenKind).run.run s = (.ok s.nextKind, s) := rfl

theorem run_get_ok (s : Stream) : (get : TryParser Stream).run.run s = (.ok s, s) := rfl

theorem run_operand (h : unaryOp? s.kind s.nextKind = none) (fuel : Nat) :
    (operand r (fuel + 1)).run.run s = r.expr.run.run s := by
  rw [operand, run_bind_ok (run_peek_ok rfl), run_bind_ok (run_peekNext_ok s), h]

theorem run_infixRest_stop (h : ∀ op, binOp? s.kind = some op → op.precedence < level) (fuel : Nat)
    (left : Expr) : (infixRest r fuel level left).run.run s = (.ok left, s) := by
  cases fuel with
  | zero => rfl
  | succ fuel =>
    rw [infixRest, run_bind_ok (run_peek_ok rfl)]
    split
    · next op hop =>
      rw [if_pos (h op hop)]
      rfl
    · rfl

/-- Behind tokens of the given kinds the rule for joined operands has an expression in hand, and
looks for an operator. The rule takes the operators in a loop, so a left operand is no parse of its
own: it is a place in this loop, with rounds left for all tokens that are left. -/
def Joins (r : Rules) (level : Nat) (ks : List TokenKind) (after : TokenKind → Prop)
    (Q : Expr → Prop) : Prop :=
  ∀ (s : Stream) (t : Token) (more : List Token) (fuel : Nat), s.Shows ks t more → after t.kind →
    s.rest.length < fuel → ∃ a fuel', more.length < fuel' ∧
      (infixFrom r fuel level).run.run s = (infixRest r fuel' level a).run.run (s.moveTo t more) ∧ Q a

theorem Joins.mono (h : Joins r level ks next Q) (hnext : ∀ k, after k → next k)
    (hQ : ∀ a, Q a → P a) : Joins r level ks after P := by
  intro s t more fuel hs ht hfuel
  obtain ⟨a, fuel', hfuel', hrun, ha⟩ := h s t more fuel hs (hnext _ ht) hfuel
  exact ⟨a, fuel', hfuel', hrun, hQ a ha⟩

theorem joins_operand (level : Nat) (h : TryConsumes (k :: ks) after Q r.expr)
    (hsign : ∀ {s : Stream} {t more}, s.Shows (k :: ks) t more → unaryOp? s.kind s.nextKind = none) :
    Joins r level (k :: ks) after Q := by
  intro s t more fuel hs ht hfuel
  obtain _ | fuel := fuel
  · omega
  obtain ⟨_, hrun, a, rfl, ha⟩ := h s t more hs ht
  have hlength := hs.length_le
  rw [length_cons] at hlength
  refine ⟨a, fuel, by omega, ?_, ha⟩
  rw [infixFrom, run_bind_ok ((run_operand (hsign hs) fuel).trans hrun)]

abbrev NoAccess (k : TokenKind) : Prop := k ≠ .dot ∧ k ≠ .lBracket

/-- The token ends an operand in which operators have to bind at a level. -/
structure Below (level : Nat) (k : TokenKind) : Prop where
  noAccess : NoAccess k
  binds {op : BinOp} : binOp? k = some op → op.precedence < level

theorem below_token {op : BinOp} (h : op.precedence < level) : Below level op.token where
  noAccess := by cases op <;> exact ⟨nofun, nofun⟩
  binds hop := by
    rw [binOp?_token] at hop
    cases hop
    exact h

theorem below_rParen (level : Nat) : Below level .rParen := ⟨⟨nofun, nofun⟩, nofun⟩

theorem Below.mono {level' : Nat} (h : Below level k) (hle : level ≤ level') : Below level' k :=
  ⟨h.noAccess, fun hop => Nat.lt_of_lt_of_le (h.binds hop) hle⟩

theorem Joins.join {op : BinOp} (hleft : Joins r level ks next Q) (hnext : next op.token)
    (hlevel : level ≤ op.precedence) (hright : Joins r op.rightLevel ks' after P)
    (hafter : ∀ k, Below op.rightLevel k → after k) :
    Joins r level (ks ++ op.token :: ks') (Below op.rightLevel)
      (fun e => ∃ a b, Q a ∧ P b ∧ e = joinLeft op a b) := by
  intro s t more fuel hs ht hfuel
  obtain ⟨t', more', hfirst, hsecond, hkind⟩ := hs.split
  obtain ⟨a, fuel', hfuel', hrun, ha⟩ := hleft s t' more' fuel hfirst (hkind ▸ hnext) hfuel
  obtain _ | fuel' := fuel'
  · omega
  obtain ⟨hcurrent, hbehind, hsame⟩ := hsecond.advance
  have hlength : (op.token :: ks').length + more.length ≤ more'.length := hsecond.length_le
  rw [length_cons] at hlength
  have hadvance : (s.moveTo t' more').advance.rest.length + 1 = more'.length :=
    length_advance (ne_nil_of_length_pos (Nat.lt_of_lt_of_le (by omega) hlength))
  obtain ⟨b, fuel'', -, hrun', hb⟩ := hright _ t more fuel' hbehind (hafter _ ht) (by omega)
  rw [hsame] at hrun'
  have hstop : (infixRest r fuel'' op.rightLevel b).run.run (s.moveTo t more) =
      (.ok b, s.moveTo t more) :=
    run_infixRest_stop (s := s.moveTo t more) (fun _ => ht.binds) fuel'' b
  refine ⟨joinLeft op a b, fuel', by omega, ?_, a, b, ha, hb, rfl⟩
  rw [hrun, infixRest, run_bind_ok (run_peek_ok hcurrent), binOp?_token]
  dsimp only
  rw [if_neg (Nat.not_lt.mpr hlevel)]
  have htake : (liftM take : TryParser Token).run.run (s.moveTo t' more') =
      (.ok t', (s.moveTo t' more').advance) := rfl
  rw [run_bind_ok htake]
  have hjoined :
      (infixFrom r fuel' (if op.isRightAssoc then op.precedence else op.precedence + 1)).run.run
      (s.moveTo t' more').advance = (.ok b, s.moveTo t more) := hrun'.trans hstop
  rw [run_bind_ok hjoined]

/-! ## Groups -/

theorem Joins.infixGroup (h : Joins r 0 ks next Q) (hnext : next .rParen) (opened : Span) :
    TryConsumes (ks ++ [.rParen]) after (fun e => ∃ a span, Q a ∧ e = widen span a)
      (infixGroup r opened) := by
  intro s t more hs ht
  obtain ⟨t', more', hfirst, hsecond, hkind⟩ := hs.split
  obtain ⟨a, fuel, -, hrun, ha⟩ := h s t' more' (s.rest.length + 2) hfirst (hkind ▸ hnext) (by omega)
  have hstop : (infixRest r fuel 0 a).run.run (s.moveTo t' more') = (.ok a, s.moveTo t' more') := by
    refine run_infixRest_stop (fun op hop => ?_) fuel a
    rw [show (s.moveTo t' more').kind = .rParen from hkind] at hop
    cases hop
  have hclose : TryConsumes [.rParen] after (fun e => ∃ a span, Q a ∧ e = widen span a)
      (expect .rParen "')'" >>= fun closed => pure (widen (opened.merge closed.span) a)) :=
    TryConsumes.expect _ fun t _ => tryConsumes_pure ⟨a, _, ha, rfl⟩
  rw [Grammar.infixGroup, run_bind_ok (run_get_ok s), run_bind_ok (hrun.trans hstop)]
  exact hclose _ t more hsecond ht

/-- The tokens begin neither an operator with its operands nor a quantifier. -/
def startsInfix : List TokenKind → Bool
  | .int _ :: _ => true
  | .lParen :: _ => true
  | .ident _ :: ks => ks.head? ≠ some .lParen
  | _ => false

theorem startsInfix_append (h : startsInfix ks = true) (hk : k ≠ .lParen) (ks' : List TokenKind) :
    startsInfix (ks ++ k :: ks') = true := by
  unfold startsInfix at h
  split at h
  · rfl
  · rfl
  · next name rest =>
    cases rest with
    | nil => simpa [startsInfix] using hk
    | cons k' rest => simpa [startsInfix] using h
  · cases h

theorem startsInfix_spec (hstart : startsInfix ks = true) {t : Token} {more : List Token}
    (hs : s.Shows (ks ++ [.rParen]) t more) :
    quantifierKind? s.kind s.nextKind = none ∧ leadsGroup s.kind = false := by
  have hkind := hs.kind_eq
  unfold startsInfix at hstart
  split at hstart
  · rw [hkind]
    exact ⟨quantifierKind?_eq_none nofun, rfl⟩
  · rw [hkind]
    exact ⟨quantifierKind?_eq_none nofun, rfl⟩
  · next name rest =>
    have hnext : s.nextKind ≠ .lParen := by
      rw [hs.nextKind_eq]
      cases rest with
      | nil => nofun
      | cons k rest => simpa using hstart
    rw [hkind]
    refine ⟨?_, rfl⟩
    unfold quantifierKind?
    split
    · next heq => exact absurd heq hnext
    · next heq => exact absurd heq hnext
    · rfl
  · cases hstart

theorem TryConsumes.groupInfix (hstart : startsInfix ks = true)
    (h : ∀ opened, TryConsumes (ks ++ [.rParen]) after Q (Grammar.infixGroup r opened)) :
    TryConsumes (grouped ks) after Q (group r) := by
  refine TryConsumes.take fun opened _ => TryConsumes.get fun s t more hs _ => ?_
  obtain ⟨hquantifier, hleads⟩ := startsInfix_spec hstart hs
  have hsign : (decide (s.kind = .minus) || decide (s.kind = .bang) || decide (s.kind = .tilde)) =
      false := by
    generalize s.kind = k at hleads
    cases k <;> first | rfl | cases hleads
  rw [hquantifier, hleads]
  dsimp only
  rw [hsign, if_neg Bool.false_ne_true, if_neg Bool.false_ne_true]
  exact h opened.span

end Rules

/-! ## Reading the infix form -/

/-- The tokens are read as an expression, however deep they stand. -/
def ReadsAs (ks : List TokenKind) (e : Expr) : Prop :=
  ∀ n, ks.length ≤ n → TryConsumes ks NoAccess (Same e) (rules n).expr

section ReadsAs

variable {e : Expr} {ks : List TokenKind} {after : TokenKind → Prop}

theorem ReadsAs.expr (h : ReadsAs ks e) : TryConsumes ks NoAccess (Same e) expr := by
  intro s t more hs ht
  have hlength := hs.length_le
  rw [run_expr]
  exact h _ (by omega) s t more hs ht

theorem Faithful.readsAs (h : Faithful e)
    (hlast : ∀ tag, e.spelling.getLast? ≠ some (.closeTag tag)) : ReadsAs e.spelling e :=
  fun _ hn => (h.expr hn).mono (fun _ hk => ⟨fun tag htag => absurd htag (hlast tag), hk⟩) fun _ ha => ha

theorem readsAs_ident (text : String) : ReadsAs [.ident text] (.ident text .nowhere) :=
  (Atom.ident text .nowhere).faithful.readsAs nofun

theorem tryConsumes_expr {n : Nat} {Q : Expr → Prop}
    (h : TryConsumes ks (fun _ => True) Q (primary (rules n))) :
    TryConsumes ks NoAccess Q (rules (n + 1)).expr :=
  (begins_primary h).exprRule.mono (fun _ hk => ⟨trivial, hk⟩) fun _ ha => ha

theorem readsAs_int (value : Int) :
    ReadsAs (if value < 0 then [.minus, .int (-value)] else [.int value]) (.int value .nowhere) := by
  rintro (_ | n) hn
  · split at hn <;> cases hn
  · split
    · next hneg => exact tryConsumes_expr (primary_negative hneg)
    · exact tryConsumes_expr (primary_number value)

theorem readsAs_grouped
    (h : ∀ n, ks.length ≤ n → TryConsumes (grouped ks) (fun _ => True) (Same e) (group (rules n))) :
    ReadsAs (grouped ks) e := by
  intro n hn
  simp only [grouped, length_cons, length_append] at hn
  obtain _ | n := n
  · omega
  exact tryConsumes_expr (primary_group (h n (by omega)))

end ReadsAs

end Grammar

namespace OpTree
open Grammar

variable {tree : OpTree}

def within (level : Nat) (tree : OpTree) : List TokenKind :=
  if tree.bindsAt level then tree.infixForm else grouped tree.infixForm

theorem infixForm_join (op : BinOp) (left right : OpTree) :
    (join op left right).infixForm = left.within op.leftLevel ++ op.token :: right.within
      op.rightLevel := rfl

theorem bindsAt_mono {level level' : Nat} (hle : level ≤ level') (h : tree.bindsAt level' = true) :
    tree.bindsAt level = true := by
  cases tree with
  | join op left right =>
    rw [bindsAt, decide_eq_true_eq] at h ⊢
    exact Nat.le_trans hle h
  | _ => rfl

theorem startsInfix_infixForm : ∀ tree : OpTree, startsInfix tree.infixForm = true
  | .name _ => rfl
  | .number _ => rfl
  | .join op left right => by
    have hop : op.token ≠ .lParen := by cases op <;> nofun
    rw [infixForm_join, within]
    split
    · exact startsInfix_append (startsInfix_infixForm left) hop _
    · rfl

def EndedBy (tree : OpTree) (k : TokenKind) : Prop :=
  match tree with
  | .join op _ _ => Below op.rightLevel k
  | _ => NoAccess k

theorem endedBy_token {left : OpTree} {op : BinOp} (h : left.bindsAt op.leftLevel = true) :
    left.EndedBy op.token := by
  have hop := below_token (Nat.lt_succ_self op.precedence)
  cases left with
  | join inner => exact below_token (BinOp.precedence_lt_rightLevel (of_decide_eq_true h))
  | _ => exact hop.noAccess

theorem endedBy_of_below {right : OpTree} {level : Nat} {k : TokenKind}
    (h : right.bindsAt level = true) (hk : Below level k) : right.EndedBy k := by
  cases right with
  | join inner => exact hk.mono (Nat.le_trans (of_decide_eq_true h) inner.precedence_le_rightLevel)
  | _ => exact hk.noAccess

/-- The infix form is read where operators have to bind at a level at which the tree needs no
parentheses. -/
def Climbs (tree : OpTree) : Prop :=
  ∀ n level, tree.infixForm.length ≤ n → tree.bindsAt level = true →
    Joins (rules n) level tree.infixForm tree.EndedBy (Same tree.expr)

theorem Climbs.readsAs (h : tree.Climbs) : ReadsAs (grouped tree.infixForm) tree.expr := by
  have hlevel : tree.bindsAt 0 = true := by cases tree <;> rfl
  have hend : tree.EndedBy .rParen := by
    cases tree with
    | join op => exact below_rParen op.rightLevel
    | _ => exact ⟨nofun, nofun⟩
  refine readsAs_grouped fun n hn => TryConsumes.groupInfix tree.startsInfix_infixForm fun opened => ?_
  refine ((h n 0 hn hlevel).infixGroup hend opened).mono (fun _ hk => hk) ?_
  rintro _ ⟨a, span, ha, rfl⟩
  rw [Same, bare_widen, ha]

theorem Climbs.within (h : tree.Climbs) {n level level' : Nat} (hle : level ≤ level')
    (hn : (tree.within level').length ≤ n) :
    Joins (rules n) level (tree.within level')
      (fun k => NoAccess k ∧ (tree.bindsAt level' = true → tree.EndedBy k)) (Same tree.expr) := by
  unfold OpTree.within at hn ⊢
  split at hn
  · next hbinds =>
    rw [if_pos hbinds]
    exact (h n level hn (bindsAt_mono hle hbinds)).mono (fun _ hk => hk.2 hbinds) fun _ ha => ha
  · next hbinds =>
    rw [if_neg hbinds]
    refine (joins_operand level (h.readsAs n hn) fun hs => ?_).mono (fun _ hk => hk.1) fun _ ha => ha
    rw [hs.kind_eq]
    rfl

theorem climbs : ∀ tree : OpTree, tree.Climbs
  | .name text => fun n level hn _ => joins_operand level (readsAs_ident text n hn) fun hs => by
    rw [hs.kind_eq]
    rfl
  | .number value => fun n level hn _ => by
    have hread := readsAs_int value
    rw [if_neg (by omega)] at hread
    refine joins_operand level (hread n hn) fun hs => ?_
    rw [hs.kind_eq]
    rfl
  | .join op left right => fun n level hn hbinds => by
    have hlevel : level ≤ op.precedence := of_decide_eq_true hbinds
    rw [infixForm_join] at hn ⊢
    rw [length_append, length_cons] at hn
    have hle : level ≤ op.leftLevel := by
      unfold BinOp.leftLevel
      split <;> omega
    have hleft := (climbs left).within hle (n := n) (by omega)
    have hright := (climbs right).within (Nat.le_refl op.rightLevel) (n := n) (by omega)
    have hop := below_token (Nat.lt_succ_self op.precedence)
    refine (hleft.join ⟨hop.noAccess, endedBy_token⟩ hlevel hright fun k hk => ?_).mono
      (fun _ hk => hk) ?_
    · exact ⟨hk.noAccess, fun hbinds => endedBy_of_below hbinds hk⟩
    · rintro _ ⟨a, b, ha, hb, rfl⟩
      rw [Same, joinLeft, Expr.bare, ha, hb, expr, Expr.bare]

end OpTree

namespace Grammar

/-- The infix form of a tree of operators, in one pair of parentheses, is read back: the rule for
expressions takes exactly its tokens, reports nothing and yields the tree, apart from places. -/
theorem expr_infixForm (tree : OpTree) {s : Stream} {ts more : List Token} {t : Token}
    (htokens : s.tokens = ts ++ t :: more) (hkinds : ts.map Token.kind = grouped tree.infixForm)
    (hdot : t.kind ≠ .dot) (hbracket : t.kind ≠ .lBracket) :
    ∃ a, expr.run.run s = (.ok a, { s with current := t, rest := more }) ∧ a.bare = tree.expr.bare := by
  obtain ⟨_, hrun, a, rfl, ha⟩ := tree.climbs.readsAs.expr s t more ⟨ts, hkinds, htokens⟩ ⟨hdot, hbracket⟩
  exact ⟨a, hrun, ha⟩

/-- Subtraction of a difference, and implications on the sides of others: `a - (b - 2) => (x => y)
?? 3 * z => w`. -/
def nestedTree : OpTree :=
  .join .implies (.join .sub (.name "a") (.join .sub (.name "b") (.number 2)))
    (.join .implies (.join .coalesce (.join .implies (.name "x") (.name "y"))
      (.join .mul (.number 3) (.name "z"))) (.name "w"))

theorem expr_infixForm_nestedTree : nestedTree.infixForm =
      [.ident "a", .minus, .lParen, .ident "b", .minus, .int 2, .rParen, .implies, .lParen,
        .ident "x", .implies, .ident "y", .rParen, .coalesce, .int 3, .star, .ident "z", .implies,
        .ident "w"] ∧
    ∃ a, expr.run.run (.ofKinds (grouped nestedTree.infixForm)) =
        (.ok a, { Stream.ofKinds (grouped nestedTree.infixForm) with
          current := .eofAt .nowhere, rest := [] }) ∧
      a.bare = nestedTree.expr.bare := by
  have htokens : (Stream.ofKinds (grouped nestedTree.infixForm)).tokens =
      (grouped nestedTree.infixForm).map (fun k => ⟨k, "", .nowhere⟩) ++ [.eofAt .nowhere] := rfl
  refine ⟨rfl, expr_infixForm nestedTree htokens ?_ nofun nofun⟩
  rw [map_map]
  exact map_id _

end Grammar

end TagLang
