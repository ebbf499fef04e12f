import TagLang.Proofs.Grammar.Consume
import TagLang.Proofs.Token.Tag

/-! # Expressions in prefix form

Every expression without lambdas, matches and fractions can be written in such a way that no
operator stands between its operands: each operator opens a group and its operands follow. The
tokens of this form are read back as the same expression.
-/

namespace TagLang
open List

/-! ## The prefix form -/

def BinOp.token : BinOp → TokenKind
  | .add => .plus
  | .sub => .minus
  | .mul => .star
  | .div => .slash
  | .mod => .percent
  | .eq => .eq
  | .notEq => .notEq
  | .lt => .lt
  | .ltEq => .ltEq
  | .gt => .gt
  | .gtEq => .gtEq
  | .and => .andAnd
  | .or => .orOr
  | .bitAnd => .amp
  | .bitOr => .pipe
  | .bitXor => .caret
  | .shl => .shl
  | .shr => .shr
  | .coalesce => .coalesce
  | .implies => .implies

def UnaryOp.token : UnaryOp → TokenKind
  | .neg => .minus
  | .not => .bang
  | .bitNot => .tilde

def QuantifierKind.word : QuantifierKind → String
  | .universal => "forall"
  | .existential => "exists"

def grouped (ks : List TokenKind) : List TokenKind := .lParen :: (ks ++ [.rParen])

def spellVar (v : String × TypeRef) : List TokenKind := grouped [.ident v.1, .ident v.2.text]

/-- Numbers that are written with a sign. The least one is a literal of its own, as its digits alone
are too large for one. -/
def hasSign (value : Int) : Bool := leastSigned 64 < value && value < 0

/-- Expressions that a member access or a subscript may follow directly. In parentheses, the sign of
a negative number would be read as an operator. -/
def Expr.takesPostfix : Expr → Bool
  | .int value _ => hasSign value
  | .ident .. => true
  | .field .. => true
  | .index .. => true
  | .call .. => true
  | _ => false

def Expr.asBase (e : Expr) (ks : List TokenKind) : List TokenKind :=
  if e.takesPostfix then ks else grouped ks

mutual

/-- The kinds of the tokens of an expression in prefix form. -/
def Expr.spelling : Expr → List TokenKind
  | .int value _ => if hasSign value then [.minus, .int (-value)] else [.int value]
  | .str value _ => [.str value]
  | .bool value _ => [.bool value]
  | .null _ => [.null]
  | .ident name _ => [.ident name]
  | .field base name _ => base.asBase base.spelling ++ [.dot, .ident name]
  | .index base place _ => base.asBase base.spelling ++ .lBracket :: (place.spelling ++ [.rBracket])
  | .binary left op right _ => grouped (op.token :: (left.spelling ++ right.spelling))
  | .unary op operand _ => grouped (op.token :: operand.spelling)
  | .conditional test yes no _ => grouped (.question :: (test.spelling ++ (yes.spelling ++ no.spelling)))
  | .call target args _ =>
    .tag "C" :: .attrs (Text.split ':' target) :: (spellArgs args ++ [.closeTag "C"])
  | .create ty args _ => .tag "NEW" :: .attrs [ty.text] :: (spellArgs args ++ [.closeTag "NEW"])
  | .someOf value _ => .tag "SM" :: value.spelling
  | .noneOf _ => [.tag "NN"]
  | .okOf value _ => .tag "OK" :: value.spelling
  | .errOf value _ => .tag "ERR" :: value.spelling
  | .await value _ => .tag "AWAIT" :: value.spelling
  | .quantifier kind vars body _ =>
    grouped (.ident kind.word :: .lParen :: (vars.flatMap spellVar ++ .rParen :: body.spelling))
  | .float .. => []
  | .lambda .. => []
  | .matching _ => []
  | .error _ => []

def spellArgs : List Expr → List TokenKind
  | [] => []
  | e :: es => .tag "A" :: (e.spelling ++ spellArgs es)

end

def TypeRef.Named (t : TypeRef) : Prop := Ty.read? t.text = some t.ty

mutual

/-- Expressions that have a prefix form: their integers have 64 bits, the texts of their types name
these types, and the targets of their calls do not begin with an empty part. -/
def Expr.Spellable : Expr → Prop
  | .int value _ => fitsSigned 64 value = true
  | .str .. => True
  | .bool .. => True
  | .null _ => True
  | .ident .. => True
  | .field base _ _ => base.Spellable
  | .index base place _ => base.Spellable ∧ place.Spellable
  | .binary left _ right _ => left.Spellable ∧ right.Spellable
  | .unary _ operand _ => operand.Spellable
  | .conditional test yes no _ => test.Spellable ∧ yes.Spellable ∧ no.Spellable
  | .call target args _ => (Text.split ':' target).headD "" ≠ "" ∧ spellableExprs args
  | .create ty args _ => ty.Named ∧ spellableExprs args
  | .someOf value _ => value.Spellable
  | .noneOf _ => True
  | .okOf value _ => value.Spellable
  | .errOf value _ => value.Spellable
  | .await value _ => value.Spellable
  | .quantifier _ vars body _ => (∀ v ∈ vars, v.2.Named) ∧ body.Spellable
  | .float .. => False
  | .lambda .. => False
  | .matching _ => False
  | .error _ => False

def spellableExprs : List Expr → Prop
  | [] => True
  | e :: es => e.Spellable ∧ spellableExprs es

end

def spellArg (e : Expr) : List TokenKind := .tag "A" :: e.spelling

theorem spellArgs_eq_flatMap (es : List Expr) : spellArgs es = es.flatMap spellArg := by
  induction es with
  | nil => rfl
  | cons e es ih => rw [spellArgs, ih, flatMap_cons, spellArg, cons_append]

theorem spellableExprs_iff (es : List Expr) : spellableExprs es ↔ ∀ e ∈ es, e.Spellable := by
  induction es with
  | nil => exact ⟨fun _ => forall_mem_nil _, fun _ => trivial⟩
  | cons e es ih => rw [spellableExprs, ih, forall_mem_cons]

namespace Text

theorem intercalate_split (text : String) : ":".intercalate (split ':' text) = text := by
  rw [← String.toList_inj, String.toList_intercalate, split, map_map]
  have hid : (String.toList ∘ String.ofList) = id := funext fun cs => String.toList_ofList
  rw [hid, map_id]
  exact intercalate_splitChars ':' text.toList

end Text

namespace Grammar

/-! ## How an expression begins and ends -/

abbrev Same (e a : Expr) : Prop := a.bare = e.bare

def endsExpr : TokenKind → Bool
  | .dot => false
  | .lBracket => false
  | .attrs _ => false
  | _ => true

def startsOperands : TokenKind → Bool
  | .int _ => true
  | .str _ => true
  | .bool _ => true
  | .null => true
  | .lParen => true
  | .tag _ => true
  | _ => false

theorem endsExpr_of_startsExpr {k : TokenKind} (h : startsExpr k = true) : endsExpr k = true := by
  cases k <;> first | rfl | cases h

abbrev NoAttrs (k : TokenKind) : Prop := ∀ fields, k ≠ .attrs fields

/-- An attribute block behind a closing tag is a part of it. -/
def Detached (ks : List TokenKind) (k : TokenKind) : Prop :=
  ∀ tag, ks.getLast? = some (.closeTag tag) → NoAttrs k

theorem asBase_begins {e : Expr} {k : TokenKind} {ks : List TokenKind} (h : e.spelling = k :: ks)
    (hk : startsExpr k = true) (tail : List TokenKind) :
    ∃ k' ks', e.asBase e.spelling ++ tail = k' :: ks' ∧ startsExpr k' = true := by
  rw [h, Expr.asBase]
  split
  · exact ⟨k, ks ++ tail, rfl, hk⟩
  · exact ⟨_, _, rfl, rfl⟩

theorem spelling_begins : ∀ (e : Expr), e.Spellable → ∃ k ks, e.spelling = k :: ks ∧ startsExpr k = true ∧
      (e.takesPostfix = false → startsOperands k = true)
  | .int value _, _ => by
    by_cases hsign : hasSign value
    · exact ⟨.minus, [.int (-value)], by simp [Expr.spelling, hsign],
        rfl, by simp [Expr.takesPostfix, hsign]⟩
    · exact ⟨.int value, [], by simp [Expr.spelling, hsign], rfl, fun _ => rfl⟩
  | .field base name _, h => by
    obtain ⟨k, ks, hbase, hk, -⟩ := spelling_begins base h
    obtain ⟨k', ks', hspelling, hk'⟩ := asBase_begins hbase hk _
    exact ⟨k', ks', hspelling, hk', nofun⟩
  | .index base place _, h => by
    obtain ⟨k, ks, hbase, hk, -⟩ := spelling_begins base h.1
    obtain ⟨k', ks', hspelling, hk'⟩ := asBase_begins hbase hk _
    exact ⟨k', ks', hspelling, hk', nofun⟩
  | .ident _ _, _ | .call _ _ _, _ => ⟨_, _, rfl, rfl, nofun⟩
  | .str _ _, _ | .bool _ _, _ | .null _, _ | .binary _ _ _ _, _ | .unary _ _ _, _
  | .conditional _ _ _ _, _ | .create _ _ _, _ | .someOf _ _, _ | .noneOf _, _ | .okOf _ _, _
  | .errOf _ _, _ | .await _ _, _ | .quantifier _ _ _ _, _ => ⟨_, _, rfl, rfl, fun _ => rfl⟩

/-! ## Calls and objects -/

section Rules

variable {r : Rules} {e : Expr} {es : List Expr} {k : TokenKind} {ks : List TokenKind}
  {after : TokenKind → Prop}
  {Q : Expr → Prop} {t : Token} {vars : List (String × TypeRef)} {fields : List String}

/-- The parser for expressions reads the tokens of an expression back. -/
def Reads (r : Rules) (e : Expr) : Prop :=
  TryConsumes e.spelling (fun k => endsExpr k = true) (Same e) r.expr

theorem Reads.exprOrError (h : Reads r e) :
    Consumes e.spelling (fun k => endsExpr k = true) (Same e) r.exprOrError := by
  refine Consumes.here fun span => ?_
  rw [← append_nil e.spelling]
  unfold Reads TryConsumes at h
  refine h.bind ?_ fun _ hk => hk
  rintro _ ⟨a, rfl, ha⟩
  exact consumes_pure ha

theorem consumes_args (hread : ∀ e ∈ es, Reads r e) :
    Consumes (spellArgs es) (fun k => ∃ tag, k = .closeTag tag) (Forall₂ Same es)
      (args r) := by
  rw [spellArgs_eq_flatMap]
  have hchained : Chained spellArg (fun k => endsExpr k = true) es := fun e _ => ⟨_, _, rfl, rfl⟩
  refine consumes_many (fun e he => ?_) ?_ hchained ?_
  · refine Consumes.peek ?_
    rw [if_pos rfl]
    exact Consumes.take fun _ _ => (hread e he).exprOrError.bind_pure fun a ha => ⟨a, rfl, ha⟩
  · refine Consumes.peekEnd ?_
    rintro _ ⟨tag, rfl⟩
    rw [if_neg nofun]
    exact consumes_pure rfl
  · rintro _ ⟨tag, rfl⟩
    rfl

theorem consumes_expectSimpleClose (tag construct : String) (span : Span) :
    Consumes [.closeTag tag] NoAttrs (fun _ => True)
      (expectSimpleClose tag construct span) := by
  intro s t more hs ht
  obtain ⟨hkind, hrest, hsame⟩ := hs.advance
  refine ⟨s.current.span, ?_, trivial⟩
  rw [run_expectSimpleClose construct span hkind,
    run_takeAttrs_none (by rw [hrest.kind_eq]; exact ht), ← hsame, hrest.moveTo_eq]

theorem consumes_closedArgs (hread : ∀ e ∈ es, Reads r e) (tag construct : String) (span : Span) :
    Consumes (spellArgs es ++ [.closeTag tag]) NoAttrs
      (fun closed => Forall₂ Same es closed.1)
      (withOpen tag do
        let args ← args r
        return (args, ← expectSimpleClose tag construct span)) := by
  refine Consumes.withOpen tag ((consumes_args hread).bind (fun as has => ?_) fun _ _ => ⟨tag, rfl⟩)
  exact (consumes_expectSimpleClose tag construct span).bind_pure fun _ _ => has

theorem Consumes.takeAttrs {β : Type} {Q : β → Prop} {f : Option (List String × Token) → Parser β}
    (h : ∀ t, Consumes ks after Q (f (some (fields, t)))) :
    Consumes (.attrs fields :: ks) after Q (takeAttrs >>= f) := by
  intro s t more hs ht
  obtain ⟨hkind, hrest, hsame⟩ := hs.advance
  rw [run_bind_eq (run_takeAttrs_some hkind), ← hsame]
  exact h _ _ t more hrest ht

theorem consumes_call (hfields : fields.headD "" ≠ "") (hread : ∀ e ∈ es, Reads r e) :
    Consumes (.tag "C" :: .attrs fields :: (spellArgs es ++ [.closeTag "C"])) NoAttrs
      (fun c => c.1 = ":".intercalate fields ∧ Forall₂ Same es c.2.1) (call r) := by
  refine Consumes.take fun t _ => Consumes.takeAttrs fun attrs => ?_
  dsimp only
  rw [if_neg (by simpa using hfields), pure_bind]
  exact (consumes_closedArgs hread "C" "call" t.span).bind_pure fun _ has => ⟨rfl, has⟩

theorem consumes_typeRef {t : TypeRef} (h : t.Named) (span : Span) :
    Consumes [] (fun _ => True) (fun a => a.bare = t.bare) (typeRef t.text span) := by
  unfold typeRef
  rw [h]
  exact consumes_pure rfl

theorem consumes_create {ty : TypeRef} (hty : ty.Named) (hread : ∀ e ∈ es, Reads r e) :
    Consumes (.tag "NEW" :: .attrs [ty.text] :: (spellArgs es ++ [.closeTag "NEW"]))
      NoAttrs
      (fun a => ∃ ty' as span, a = .create ty' as span ∧ ty'.bare = ty.bare ∧
        Forall₂ Same es as) (create r) := by
  have htext : ¬ ty.text.isEmpty := by
    intro hempty
    rw [TypeRef.Named, String.isEmpty_iff.mp hempty] at hty
    cases hty
  refine Consumes.take fun t _ => Consumes.takeAttrs fun attrs => ?_
  dsimp only
  rw [headD_cons, if_neg htext]
  refine (consumes_typeRef hty attrs.span).bind (fun ty' hty' => ?_) fun _ _ => trivial
  exact (consumes_closedArgs hread "NEW" "object creation" t.span).bind_pure fun closed has =>
    ⟨ty', closed.1, _, rfl, hty', has⟩

/-! ## Groups -/

def nextOperand (r : Rules) : TryParser (Round Expr) := do
  match ← peek with
  | .rParen => return .done
  | .eof => return .done
  | _ => return .found (← r.expr)

theorem tryConsumes_nextOperand (hk : startsExpr k = true) (h : TryConsumes (k :: ks) after Q r.expr) :
    TryConsumes (k :: ks) after (fun x => ∃ a, x = .found a ∧ Q a) (nextOperand r) := by
  refine TryConsumes.peek ?_
  split
  · cases hk
  · cases hk
  · exact h.bind_pure fun a ha => ⟨a, rfl, ha⟩

section Operands

variable {β : Type} {item : β → List TokenKind} {tree : β → Expr} {bs : List β} {next : TokenKind → Prop}
  (hread : ∀ b ∈ bs, TryConsumes (item b) next (Same (tree b)) r.expr)
  (hbegins : ∀ b ∈ bs, ∃ k ks, item b = k :: ks ∧ startsExpr k = true)
  (hnext : ∀ k, startsExpr k = true ∨ k = .rParen → next k)
include hread hbegins hnext

theorem tryConsumes_operands :
    TryConsumes (bs.flatMap item) (· = .rParen) (Forall₂ (fun b => Same (tree b)) bs)
      (tryMany (nextOperand r)) := by
  have hchained : Chained item next bs := by
    intro b hb
    obtain ⟨k, ks, hitem, hk⟩ := hbegins b hb
    exact ⟨k, ks, hitem, hnext k (.inl hk)⟩
  refine tryConsumes_tryMany (fun b hb => ?_) ?_ hchained ?_
  · obtain ⟨k, ks, hitem, hk⟩ := hbegins b hb
    have hb := hread b hb
    rw [hitem] at hb ⊢
    exact tryConsumes_nextOperand hk hb
  · refine TryConsumes.peekEnd ?_
    rintro _ rfl
    exact tryConsumes_pure rfl
  · rintro _ rfl
    exact hnext .rParen (.inr rfl)

theorem tryConsumes_leadingGroup (opened : Span)
    (happly : ∀ (op : Token) (as : List Expr) (span : Span), op.kind = k →
      Forall₂ (fun b => Same (tree b)) bs as → ∃ a, applyLeading op as span = .ok a ∧ Q a) :
    TryConsumes (k :: (bs.flatMap item ++ [.rParen])) after Q (leadingGroup r opened) := by
  refine TryConsumes.take fun op hop => ?_
  refine (tryConsumes_operands hread hbegins hnext).bind (fun as has => ?_) fun _ _ => rfl
  exact TryConsumes.expect _ fun t _ => tryConsumes_mk (happly op as _ hop has)

end Operands

theorem quantifierKind?_eq_none {next : TokenKind} (h : ∀ name, k ≠ .ident name) :
    quantifierKind? k next = none := by
  unfold quantifierKind?
  split
  · exact absurd rfl (h _)
  · exact absurd rfl (h _)
  · rfl

theorem TryConsumes.leadingGroup (hk : leadsGroup k = true)
    (h : ∀ opened, TryConsumes (k :: ks) after Q (leadingGroup r opened)) :
    TryConsumes (.lParen :: k :: ks) after Q (group r) := by
  refine TryConsumes.take fun opened _ => TryConsumes.get fun s t more hs _ => ?_
  have hkind : s.kind = k := hs.kind_eq
  rw [hkind, quantifierKind?_eq_none (by rintro name rfl; cases hk), hk]
  dsimp only
  -- A sign may also belong to the first of several operands, but this form comes first.
  split
  · exact (h _).tryCatch _
  · exact h _

theorem unaryOp?_eq_none {next : TokenKind} (h : startsOperands k = true) : unaryOp? k next = none := by
  unfold unaryOp?
  split <;> first | rfl | cases h

theorem tryConsumes_infixRest (fuel level : Nat) {left : Expr} (h : Q left) :
    TryConsumes [] (· = .rParen) Q (infixRest r fuel level left) := by
  cases fuel with
  | zero => exact tryConsumes_pure h
  | succ fuel =>
    refine TryConsumes.peekEnd ?_
    rintro _ rfl
    exact tryConsumes_pure h

theorem TryConsumes.infixGroup (hk : startsOperands k = true)
    (h : TryConsumes (k :: ks) (· = .rParen) Q r.expr) (hwiden : ∀ span a, Q a → Q (widen span a)) :
    TryConsumes (grouped (k :: ks)) after Q (group r) := by
  refine TryConsumes.take fun opened _ => TryConsumes.get fun s t more hs _ => ?_
  have hkind : s.kind = k := hs.kind_eq
  have hsign : (decide (k = .minus) || decide (k = .bang) || decide (k = .tilde)) = false := by
    cases k <;> first | rfl | cases hk
  have hleads : leadsGroup k = false := by
    cases k <;> first | rfl | cases hk
  rw [hkind, quantifierKind?_eq_none (by rintro name rfl; cases hk)]
  dsimp only
  rw [hsign, hleads, if_neg Bool.false_ne_true, if_neg Bool.false_ne_true]
  have hoperand (fuel : Nat) : TryConsumes (k :: ks) (· = .rParen) Q (operand r (fuel + 1)) := by
    refine TryConsumes.peek (TryConsumes.peekNext fun next => ?_)
    rw [unaryOp?_eq_none hk]
    exact h
  have hjoined (fuel : Nat) : TryConsumes (k :: ks) (· = .rParen) Q (infixFrom r (fuel + 1) 0) := by
    rw [infixFrom, ← append_nil (k :: ks)]
    exact (hoperand fuel).bind (fun left hleft => tryConsumes_infixRest fuel 0 hleft) fun _ hk => hk
  refine TryConsumes.get fun s t more hs _ => ?_
  refine (hjoined _).bind (fun a ha => ?_) fun _ _ => rfl
  exact TryConsumes.expect _ fun t _ => tryConsumes_pure (hwiden _ a ha)

/-! ## Quantifiers -/

theorem TryConsumes.expectIdent {β : Type} {Q : β → Prop} {name : String}
    {f : String × Span → TryParser β} (h : ∀ span, TryConsumes ks after Q (f (name, span))) :
    TryConsumes (.ident name :: ks) after Q (expectIdent >>= f) := by
  have hident : TryConsumes [.ident name] (fun _ => True) (·.1 = name) Grammar.expectIdent :=
    TryConsumes.peek (TryConsumes.take fun _ _ => tryConsumes_pure rfl)
  refine hident.bind ?_ fun _ _ => trivial
  rintro ⟨_, span⟩ rfl
  exact h span

theorem tryConsumes_boundVar {v : String × TypeRef} (h : v.2.Named) :
    TryConsumes (spellVar v) after (fun a => a.1 = v.1 ∧ a.2.bare = v.2.bare) boundVar := by
  refine TryConsumes.take fun _ _ => TryConsumes.expectIdent fun _ =>
    TryConsumes.peek (TryConsumes.take fun t _ => ?_)
  refine (tryConsumes_lift (consumes_typeRef h t.span)).bind (fun ty hty => ?_) fun _ _ => trivial
  exact TryConsumes.expect _ fun _ _ => tryConsumes_pure ⟨rfl, hty⟩

theorem tryConsumes_boundVars (h : ∀ v ∈ vars, v.2.Named) :
    TryConsumes (vars.flatMap spellVar) (· = .rParen)
      (Forall₂ (fun v a => a.1 = v.1 ∧ a.2.bare = v.2.bare) vars)
      (tryMany do if (← peek) = .lParen then return .found (← boundVar) else return .done) := by
  have hchained : Chained spellVar (fun _ => True) vars := fun _ _ => ⟨_, _, rfl, trivial⟩
  refine tryConsumes_tryMany (fun v hv => ?_) ?_ hchained fun _ _ => trivial
  · refine TryConsumes.peek ?_
    rw [if_pos rfl]
    exact (tryConsumes_boundVar (h v hv)).bind_pure fun a ha => ⟨a, rfl, ha⟩
  · refine TryConsumes.peekEnd ?_
    rintro _ rfl
    exact tryConsumes_pure rfl

theorem tryConsumes_quantifier {kind : QuantifierKind} (hvars : ∀ v ∈ vars, v.2.Named)
    (hread : Reads r e) :
    TryConsumes (grouped
      (.ident kind.word :: .lParen :: (vars.flatMap spellVar ++ .rParen :: e.spelling))) after
      (fun a => ∃ vars' a' span, a = .quantifier kind vars' a' span ∧
        Forall₂ (fun v a => a.1 = v.1 ∧ a.2.bare = v.2.bare) vars vars' ∧
          a'.bare = e.bare) (group r) := by
  refine TryConsumes.take fun opened _ => TryConsumes.get fun s t more hs _ => ?_
  have hkind : quantifierKind? s.kind s.nextKind = some kind := by
    rw [hs.kind_eq, hs.nextKind_eq]
    cases kind <;> rfl
  rw [hkind]
  simp only [cons_append, append_assoc]
  refine TryConsumes.take fun _ _ => TryConsumes.expect _ fun _ _ => ?_
  refine (tryConsumes_boundVars hvars).bind (fun vars' hvars' => ?_) fun _ _ => rfl
  refine TryConsumes.expect _ fun _ _ => ?_
  refine TryConsumes.bind hread (fun a ha => ?_) fun _ _ => rfl
  exact TryConsumes.expect _ fun _ _ => tryConsumes_pure ⟨vars', a, _, rfl, hvars', ha⟩

/-! ## What follows an expression -/

/-- Behind tokens of the given kinds the rule for expressions has an expression in hand, and looks
for what follows it. The rule takes the accesses behind an expression in a loop, so the base of an
access is no parse of its own: it is a place in this loop, with rounds left for all tokens that are
left. -/
def Begins (r : Rules) (ks : List TokenKind) (after : TokenKind → Prop) (Q : Expr → Prop) : Prop :=
  ∀ (s : Stream) (t : Token) (more : List Token), s.Shows ks t more → after t.kind → ∃ a fuel,
    more.length < fuel ∧
    (exprRule r).run.run s = (postfixes r fuel a).run.run (s.moveTo t more) ∧ Q a

theorem begins_primary (h : TryConsumes ks after Q (primary r)) : Begins r ks after Q := by
  intro s t more hs ht
  obtain ⟨_, hrun, a, rfl, ha⟩ := h s t more hs ht
  exact ⟨a, more.length + 1, Nat.lt_succ_self _, run_bind_ok hrun, ha⟩

theorem Begins.mono {after' : TokenKind → Prop} {Q' : Expr → Prop} (h : Begins r ks after Q)
    (hafter : ∀ k, after' k → after k) (hQ : ∀ a, Q a → Q' a) : Begins r ks after' Q' := by
  intro s t more hs ht
  obtain ⟨a, fuel, hfuel, hrun, ha⟩ := h s t more hs (hafter _ ht)
  exact ⟨a, fuel, hfuel, hrun, hQ a ha⟩

theorem Begins.exprRule (h : Begins r ks after Q) :
    TryConsumes ks (fun k => after k ∧ k ≠ .dot ∧ k ≠ .lBracket) Q (exprRule r) := by
  intro s t more hs ⟨ht, hdot, hbracket⟩
  obtain ⟨a, fuel, hfuel, hrun, ha⟩ := h s t more hs ht
  obtain _ | fuel := fuel
  · omega
  refine ⟨.ok a, ?_, a, rfl, ha⟩
  rw [hrun, postfixes, run_bind_ok (run_peek_ok rfl)]
  split
  · next heq => exact absurd heq hdot
  · next heq => exact absurd heq hbracket
  · rfl

/-- One more access behind the expression in hand, which begins with the token `k`. -/
theorem Begins.extend {Q' : Expr → Prop} {ks' : List TokenKind} {step : Expr → TryParser Expr}
    (h : Begins r ks after Q) (hk : after k) (hstep : ∀ a fuel (s : Stream), s.kind = k →
      (postfixes r (fuel + 1) a).run.run s = (step a >>= postfixes r fuel).run.run s)
    (hconsumes : ∀ a, Q a → TryConsumes (k :: ks') (fun _ => True) Q' (step a)) :
    Begins r (ks ++ k :: ks') (fun _ => True) Q' := by
  intro s t more hs _
  obtain ⟨t', more', hfirst, hsecond, hkind⟩ := hs.split
  obtain ⟨a, fuel, hfuel, hrun, ha⟩ := h s t' more' hfirst (hkind ▸ hk)
  obtain _ | fuel := fuel
  · omega
  obtain ⟨_, hrun', b, rfl, hb⟩ := hconsumes a ha _ t more hsecond trivial
  have hlength : (k :: ks').length + more.length ≤ more'.length := hsecond.length_le
  refine ⟨b, fuel, by rw [length_cons] at hlength; omega, ?_, hb⟩
  rw [hrun, hstep a fuel _ hsecond.kind_eq, run_bind_ok hrun']
  rfl

def access (a : Expr) : TryParser Expr := do
  let _ ← take
  let (name, span) ← expectIdent
  return .field a name (a.span.merge span)

def subscript (r : Rules) (a : Expr) : TryParser Expr := do
  let _ ← take
  let place ← r.expr
  let closed ← expect .rBracket "']'"
  return .index a place (a.span.merge closed.span)

theorem run_postfixes_dot (a : Expr) (fuel : Nat) (s : Stream) (hk : s.kind = .dot) :
    (postfixes r (fuel + 1) a).run.run s = (access a >>= postfixes r fuel).run.run s := by
  rw [postfixes, run_bind_ok (run_peek_ok hk)]
  simp only [access, bind_assoc, pure_bind]

theorem run_postfixes_lBracket (a : Expr) (fuel : Nat) (s : Stream) (hk : s.kind = .lBracket) :
    (postfixes r (fuel + 1) a).run.run s = (subscript r a >>= postfixes r fuel).run.run s := by
  rw [postfixes, run_bind_ok (run_peek_ok hk)]
  simp only [subscript, bind_assoc, pure_bind]

theorem Begins.field (h : Begins r ks after Q) (hdot : after .dot) (name : String) :
    Begins r (ks ++ [.dot, .ident name]) (fun _ => True)
      (fun a => ∃ b span, a = .field b name span ∧ Q b) := by
  refine h.extend hdot run_postfixes_dot fun a ha => TryConsumes.take fun _ _ =>
    TryConsumes.expectIdent fun span => ?_
  exact tryConsumes_pure ⟨a, _, rfl, ha⟩

theorem Begins.index (h : Begins r ks after Q) (hbracket : after .lBracket) (hread : Reads r e) :
    Begins r (ks ++ .lBracket :: (e.spelling ++ [.rBracket])) (fun _ => True)
      (fun a => ∃ b place span, a = .index b place span ∧ Q b ∧ place.bare = e.bare) := by
  refine h.extend hbracket run_postfixes_lBracket fun a ha => TryConsumes.take fun _ _ => ?_
  refine TryConsumes.bind hread (fun place hplace => ?_) fun _ _ => rfl
  exact TryConsumes.expect _ fun _ _ => tryConsumes_pure ⟨a, place, _, rfl, ha, hplace⟩

/-! ## Expressions without what follows them -/

inductive Atom : Expr → TokenKind → Prop
  | str (value : String) (span : Span) : Atom (.str value span) (.str value)
  | bool (value : Bool) (span : Span) : Atom (.bool value span) (.bool value)
  | null (span : Span) : Atom (.null span) .null
  | ident (name : String) (span : Span) : Atom (.ident name span) (.ident name)
  | noneOf (span : Span) : Atom (.noneOf span) (.tag "NN")

inductive Wrapper : String → (Expr → Span → Expr) → Prop
  | someOf : Wrapper "SM" .someOf
  | okOf : Wrapper "OK" .okOf
  | errOf : Wrapper "ERR" .errOf
  | await : Wrapper "AWAIT" .await

theorem primary_atom (h : Atom e k) : TryConsumes [k] after (Same e) (primary r) := by
  refine TryConsumes.get fun s t more hs _ => ?_
  rw [hs.kind_eq]
  cases h <;> exact TryConsumes.take fun _ _ => tryConsumes_pure rfl

theorem primary_number (n : Int) :
    TryConsumes [.int n] after (fun a => a.bare = .int n .nowhere) (primary r) := by
  refine TryConsumes.get fun s t more hs _ => ?_
  rw [hs.kind_eq]
  exact TryConsumes.take fun _ _ => tryConsumes_pure rfl

theorem primary_signed {n : Int} (hn : 0 ≤ n) :
    TryConsumes [.minus, .int n] after (fun a => a.bare = .int (-n) .nowhere) (primary r) := by
  have hnegate : negateSigned 64 n = -n := by
    have hleast : leastSigned 64 = -9223372036854775808 := rfl
    exact if_neg (by omega)
  refine TryConsumes.get fun s t more hs _ => ?_
  rw [hs.kind_eq, hs.nextKind_eq]
  refine TryConsumes.take fun _ _ => TryConsumes.take fun _ _ => tryConsumes_pure ?_
  rw [hnegate, Expr.bare]

theorem primary_negative {value : Int} (h : value < 0) :
    TryConsumes [.minus, .int (-value)] after (fun a => a.bare = .int value .nowhere) (primary r) := by
  have hsigned : TryConsumes [.minus, .int (-value)] after _ (primary r) := primary_signed (by omega)
  rwa [Int.neg_neg] at hsigned

theorem primary_int (value : Int) (span : Span) :
    TryConsumes (Expr.int value span).spelling after (fun a => a.bare = .int value .nowhere)
      (primary r) := by
  rw [Expr.spelling]
  split
  · next hsign =>
    simp only [hasSign, Bool.and_eq_true, decide_eq_true_eq] at hsign
    exact primary_negative hsign.2
  · exact primary_number value

theorem primary_group (h : TryConsumes (.lParen :: ks) after Q (group r)) :
    TryConsumes (.lParen :: ks) after Q (primary r) := by
  refine TryConsumes.get fun s t more hs _ => ?_
  rw [hs.kind_eq]
  exact h

theorem primary_wrapped {tag : String} {wrap : Expr → Span → Expr} (hwrap : Wrapper tag wrap)
    (h : TryConsumes ks after Q r.expr) :
    TryConsumes (.tag tag :: ks) after (fun a => ∃ b span, a = wrap b span ∧ Q b) (primary r) := by
  have hwrapped : TryConsumes (.tag tag :: ks) after (fun a => ∃ b span, a = wrap b span ∧ Q b)
      (wrapped r wrap) :=
    TryConsumes.take fun _ _ => h.bind_pure fun a ha => ⟨a, _, rfl, ha⟩
  refine TryConsumes.get fun s t more hs _ => ?_
  rw [hs.kind_eq]
  cases hwrap <;> exact hwrapped

theorem map_bare_eq {es as : List Expr} (h : Forall₂ Same es as) :
    as.map Expr.bare = es.map Expr.bare := by
  induction h with
  | nil => rfl
  | cons ha _ ih => rw [map_cons, map_cons, ha, ih]

theorem primary_call {target : String} (htarget : (Text.split ':' target).headD "" ≠ "")
    (hread : ∀ e ∈ es, Reads r e) (span : Span) :
    TryConsumes (Expr.call target es span).spelling NoAttrs
      (Same (.call target es span)) (primary r) := by
  refine TryConsumes.get fun s t more hs _ => ?_
  rw [hs.kind_eq, Expr.spelling]
  refine (tryConsumes_lift (consumes_call htarget hread)).bind_pure ?_
  rintro ⟨target', as, span'⟩ ⟨rfl, has⟩
  simp only [Same, Expr.bare, bareExprs_eq_map, map_bare_eq has, Text.intercalate_split]

theorem primary_create {ty : TypeRef} (hty : ty.Named) (hread : ∀ e ∈ es, Reads r e) (span : Span) :
    TryConsumes (Expr.create ty es span).spelling NoAttrs
      (Same (.create ty es span)) (primary r) := by
  refine TryConsumes.get fun s t more hs _ => ?_
  rw [hs.kind_eq, Expr.spelling]
  refine (tryConsumes_lift (consumes_create hty hread)).mono (fun _ h => h) ?_
  rintro _ ⟨ty', as, span', rfl, hty', has⟩
  simp only [Same, Expr.bare, bareExprs_eq_map, map_bare_eq has, hty']

theorem primary_leading (hk : leadsGroup k = true) (hread : ∀ e ∈ es, Reads r e)
    (hspell : ∀ e ∈ es, e.Spellable)
    (happly : ∀ (op : Token) (as : List Expr) (span : Span), op.kind = k →
      Forall₂ Same es as → ∃ a, applyLeading op as span = .ok a ∧ Q a) :
    TryConsumes (grouped (k :: es.flatMap Expr.spelling)) after Q (primary r) := by
  have hbegins : ∀ e ∈ es, ∃ k ks, e.spelling = k :: ks ∧ startsExpr k = true := by
    intro e he
    obtain ⟨k, ks, hspelling, hk, -⟩ := spelling_begins e (hspell e he)
    exact ⟨k, ks, hspelling, hk⟩
  have hends (k : TokenKind) (hk : startsExpr k = true ∨ k = .rParen) : endsExpr k = true := by
    obtain hk | rfl := hk
    · exact endsExpr_of_startsExpr hk
    · rfl
  exact primary_group (TryConsumes.leadingGroup hk fun opened =>
    tryConsumes_leadingGroup hread hbegins hends opened happly)

theorem applyLeading_unary {op : UnaryOp} (ht : t.kind = op.token) (a : Expr) (span : Span) :
    applyLeading t [a] span = .ok (.unary op a span) := by
  obtain ⟨_, raw, place⟩ := t
  obtain rfl : _ = op.token := ht
  cases op <;> rfl

theorem applyLeading_binary {op : BinOp} (ht : t.kind = op.token) (a b : Expr) (span : Span) :
    ∃ span', applyLeading t [a, b] span = .ok (.binary a op b span') := by
  obtain ⟨_, raw, place⟩ := t
  obtain rfl : _ = op.token := ht
  cases op <;> exact ⟨_, rfl⟩

theorem applyLeading_conditional (ht : t.kind = .question) (a b c : Expr) (span : Span) :
    applyLeading t [a, b, c] span = .ok (.conditional a b c span) := by
  obtain ⟨_, raw, place⟩ := t
  obtain rfl : _ = TokenKind.question := ht
  rfl

end Rules

/-! ## Reading the prefix form -/

theorem length_le_flatMap {α β : Type} {item : α → List β} {a : α} {as : List α} (h : a ∈ as) :
    (item a).length ≤ (as.flatMap item).length :=
  (sublist_flatten_of_mem (mem_map_of_mem h)).length_le

section Faithful

variable {e place left right test yes no : Expr} {es : List Expr} {n : Nat}

def Follows (e : Expr) (k : TokenKind) : Prop :=
  Detached e.spelling k ∧ (e.takesPostfix = false → k ≠ .dot ∧ k ≠ .lBracket)

/-- The prefix form of an expression is read back, however deep the expression stands. -/
structure Faithful (e : Expr) : Prop where
  spellable : e.Spellable
  begins : ∀ n, e.spelling.length ≤ n + 1 → Begins (rules n) e.spelling (Follows e) (Same e)

theorem Faithful.expr (h : Faithful e) (hn : e.spelling.length ≤ n) :
    TryConsumes e.spelling (fun k => Detached e.spelling k ∧ k ≠ .dot ∧ k ≠ .lBracket) (Same e)
      (rules n).expr := by
  obtain ⟨k, ks, hspelling, -⟩ := spelling_begins e h.spellable
  cases n with
  | zero => rw [hspelling] at hn; exact absurd hn (Nat.not_succ_le_zero _)
  | succ n =>
    exact (h.begins n hn).exprRule.mono (fun _ hk => ⟨⟨hk.1, fun _ => hk.2⟩, hk.2⟩) fun _ ha => ha

theorem Faithful.reads (h : Faithful e) (hn : e.spelling.length ≤ n) : Reads (rules n) e := by
  refine (h.expr hn).mono (fun k hk => ⟨fun _ _ fields => ?_, ?_, ?_⟩) fun _ ha => ha
  all_goals
    rintro rfl
    cases hk

theorem Faithful.ofPrimary (hspell : e.Spellable) (h : ∀ n, e.spelling.length ≤ n + 1 →
      TryConsumes e.spelling (Follows e) (Same e) (primary (rules n))) : Faithful e :=
  ⟨hspell, fun n hn => begins_primary (h n hn)⟩

theorem Atom.faithful {k : TokenKind} (h : Atom e k) : Faithful e := by
  have hspelling : e.spelling = [k] := by cases h <;> rfl
  refine .ofPrimary (by cases h <;> trivial) fun n _ => ?_
  rw [hspelling]
  exact primary_atom h

theorem faithful_int {value : Int} (h : fitsSigned 64 value = true) (span : Span) :
    Faithful (.int value span) :=
  .ofPrimary h fun _ _ => primary_int value span

theorem Faithful.base (h : Faithful e) (hn : (e.asBase e.spelling).length ≤ n + 1) :
    Begins (rules n) (e.asBase e.spelling) NoAttrs (Same e) := by
  unfold Expr.asBase at hn ⊢
  -- Without parentheses the base is read by the same rule; inside them it is an expression of its own.
  split at hn
  · next htakes =>
    rw [if_pos htakes]
    exact (h.begins n hn).mono (fun _ hk => ⟨fun _ _ => hk, by simp [htakes]⟩) fun _ ha => ha
  · next htakes =>
    rw [if_neg htakes]
    obtain ⟨k, ks, hspelling, -, hstarts⟩ := spelling_begins e h.spellable
    have hlength : e.spelling.length ≤ n := by simp [grouped] at hn; omega
    have hinside : TryConsumes (k :: ks) (· = .rParen) (Same e) (rules n).expr := by
      rw [← hspelling]
      exact (h.reads hlength).mono (fun _ hk => by rw [hk]; rfl) fun _ ha => ha
    rw [hspelling]
    refine begins_primary
      (primary_group (hinside.infixGroup (hstarts (by simpa using htakes)) fun span a ha => ?_))
    rw [Same, bare_widen, ha]

theorem Faithful.field (h : Faithful e) (name : String) (span : Span) :
    Faithful (.field e name span) := by
  refine ⟨h.spellable, fun n hn => ?_⟩
  rw [Expr.spelling] at hn ⊢
  rw [length_append] at hn
  refine ((h.base (by omega)).field nofun name).mono (fun _ _ => trivial) ?_
  rintro _ ⟨b, span', rfl, hb⟩
  rw [Same, Expr.bare, Expr.bare, hb]

theorem Faithful.index (h : Faithful e) (hplace : Faithful place) (span : Span) :
    Faithful (.index e place span) := by
  refine ⟨⟨h.spellable, hplace.spellable⟩, fun n hn => ?_⟩
  rw [Expr.spelling] at hn ⊢
  simp only [length_append, length_cons] at hn
  refine ((h.base (by omega)).index nofun (hplace.reads (by omega))).mono (fun _ _ => trivial) ?_
  rintro _ ⟨b, place', span', rfl, hb, hplace'⟩
  rw [Same, Expr.bare, Expr.bare, hb, hplace']

theorem Faithful.leading {k : TokenKind} (hk : leadsGroup k = true)
    (hspelling : e.spelling = grouped (k :: es.flatMap Expr.spelling)) (hspell : e.Spellable)
    (hes : ∀ a ∈ es, Faithful a)
    (happly : ∀ (op : Token) (as : List Expr) (span : Span), op.kind = k →
      Forall₂ Same es as → ∃ a, applyLeading op as span = .ok a ∧ a.bare = e.bare) :
    Faithful e := by
  refine .ofPrimary hspell fun n hn => ?_
  rw [hspelling] at hn ⊢
  refine primary_leading hk (fun a ha => (hes a ha).reads ?_) (fun a ha => (hes a ha).spellable) happly
  have hlength : a.spelling.length ≤ (es.flatMap Expr.spelling).length := length_le_flatMap ha
  simp only [grouped, cons_append, length_cons, length_append] at hn
  omega

theorem Faithful.unary (h : Faithful e) (op : UnaryOp) (span : Span) : Faithful (.unary op e span) := by
  have hes : ∀ a ∈ [e], Faithful a := by simpa using h
  have hleads : leadsGroup op.token = true := by cases op <;> rfl
  refine .leading hleads (by simp [Expr.spelling]) h.spellable hes ?_
  rintro t _ span' ht (_ | ⟨ha, _ | _⟩)
  refine ⟨_, applyLeading_unary ht _ span', ?_⟩
  rw [Expr.bare, Expr.bare, ha]

theorem Faithful.binary (hleft : Faithful left) (hright : Faithful right) (op : BinOp) (span : Span) :
    Faithful (.binary left op right span) := by
  have hes : ∀ a ∈ [left, right], Faithful a := by simp [hleft, hright]
  have hleads : leadsGroup op.token = true := by cases op <;> rfl
  refine .leading hleads (by simp [Expr.spelling]) ⟨hleft.spellable, hright.spellable⟩ hes ?_
  rintro t _ span' ht (_ | ⟨ha, _ | ⟨hb, _ | _⟩⟩)
  obtain ⟨span'', happly⟩ := applyLeading_binary ht _ _ span'
  refine ⟨_, happly, ?_⟩
  rw [Expr.bare, Expr.bare, ha, hb]

theorem Faithful.conditional (htest : Faithful test) (hyes : Faithful yes) (hno : Faithful no)
    (span : Span) : Faithful (.conditional test yes no span) := by
  have hes : ∀ a ∈ [test, yes, no], Faithful a := by simp [htest, hyes, hno]
  have hleads : leadsGroup .question = true := rfl
  refine .leading hleads (by simp [Expr.spelling]) ⟨htest.spellable, hyes.spellable, hno.spellable⟩ hes ?_
  rintro t _ span' ht (_ | ⟨ha, _ | ⟨hb, _ | ⟨hc, _ | _⟩⟩⟩)
  refine ⟨_, applyLeading_conditional ht _ _ _ span', ?_⟩
  rw [Expr.bare, Expr.bare, ha, hb, hc]

theorem Wrapper.faithful {tag : String} {wrap : Expr → Span → Expr} (hwrap : Wrapper tag wrap)
    (h : Faithful e) (span : Span) : Faithful (wrap e span) := by
  have hspelling : (wrap e span).spelling =
      .tag tag :: e.spelling := by cases hwrap <;> simp only [Expr.spelling]
  have hbare (a : Expr) (span : Span) : (wrap a span).bare = wrap a.bare .nowhere := by
    cases hwrap <;> simp only [Expr.bare]
  refine .ofPrimary (by cases hwrap <;> simpa only [Expr.Spellable] using h.spellable) fun n hn => ?_
  -- The value behind the tag would take an access for its own, so none may follow.
  have hends (k : TokenKind) (hk : Follows (wrap e span) k) : Detached e.spelling k ∧ k ≠ .dot ∧
      k ≠ .lBracket := by
    refine ⟨fun tag' hlast => hk.1 tag' ?_, hk.2 (by cases hwrap <;> rfl)⟩
    rw [hspelling, getLast?_cons, hlast]
    rfl
  rw [hspelling, length_cons] at hn
  rw [hspelling]
  refine (primary_wrapped hwrap (h.expr (Nat.le_of_succ_le_succ hn))).mono hends ?_
  rintro _ ⟨b, span', rfl, hb⟩
  rw [Same, hbare, hbare, hb]

theorem reads_args (hes : ∀ e ∈ es, Faithful e) (hn : (spellArgs es).length ≤ n) :
    ∀ e ∈ es, Reads (rules n) e := by
  intro e he
  have hlength : (spellArg e).length ≤ (es.flatMap spellArg).length := length_le_flatMap he
  rw [← spellArgs_eq_flatMap, spellArg, length_cons] at hlength
  exact (hes e he).reads (by omega)

theorem Faithful.ofArgs {tag : String} {k : TokenKind} (hspell : spellableExprs es → e.Spellable)
    (hspelling : e.spelling = .tag tag :: k :: (spellArgs es ++ [.closeTag tag]))
    (hes : ∀ a ∈ es, Faithful a)
    (h : ∀ n, (∀ a ∈ es, Reads (rules n) a) →
      TryConsumes e.spelling NoAttrs (Same e) (primary (rules n))) :
    Faithful e := by
  refine .ofPrimary (hspell ((spellableExprs_iff es).mpr fun a ha => (hes a ha).spellable)) fun n hn => ?_
  have hlength : (spellArgs es).length ≤ n := by
    simp only [hspelling, length_cons, length_append] at hn
    omega
  refine (h n (reads_args hes hlength)).mono (fun k hk => hk.1 tag ?_) fun _ ha => ha
  rw [hspelling, ← cons_append, ← cons_append, getLast?_concat]

theorem Faithful.call {target : String} (htarget : (Text.split ':' target).headD "" ≠ "")
    (hes : ∀ e ∈ es, Faithful e) (span : Span) : Faithful (.call target es span) :=
  .ofArgs (fun hspell => ⟨htarget, hspell⟩) rfl hes fun _ hread => primary_call htarget hread span

theorem Faithful.create {ty : TypeRef} (hty : ty.Named) (hes : ∀ e ∈ es, Faithful e) (span : Span) :
    Faithful (.create ty es span) :=
  .ofArgs (fun hspell => ⟨hty, hspell⟩) rfl hes fun _ hread => primary_create hty hread span

theorem map_bareVars_eq {vars vars' : List (String × TypeRef)}
    (h : Forall₂ (fun v a => a.1 = v.1 ∧ a.2.bare = v.2.bare) vars vars') :
    vars'.map (fun v => (v.1, v.2.bare)) = vars.map fun v => (v.1, v.2.bare) := by
  induction h with
  | nil => rfl
  | cons hv _ ih => rw [map_cons, map_cons, hv.1, hv.2, ih]

theorem Faithful.quantifier {kind : QuantifierKind} {vars : List (String × TypeRef)}
    (hvars : ∀ v ∈ vars, v.2.Named) (h : Faithful e) (span : Span) :
    Faithful (.quantifier kind vars e span) := by
  refine .ofPrimary ⟨hvars, h.spellable⟩ fun n hn => ?_
  rw [Expr.spelling] at hn ⊢
  have hlength : e.spelling.length ≤ n := by
    simp only [grouped, cons_append, length_cons, length_append] at hn
    omega
  refine (primary_group (tryConsumes_quantifier hvars (h.reads hlength))).mono (fun _ hk => hk) ?_
  rintro _ ⟨vars', a, span', rfl, hvars', ha⟩
  rw [Same, Expr.bare, Expr.bare, map_bareVars_eq hvars', ha]

mutual

theorem faithful : ∀ e : Expr, e.Spellable → Faithful e
  | .int _ span, h => faithful_int h span
  | .str value span, _ => (Atom.str value span).faithful
  | .bool value span, _ => (Atom.bool value span).faithful
  | .null span, _ => (Atom.null span).faithful
  | .ident name span, _ => (Atom.ident name span).faithful
  | .field base name span, h => (faithful base h).field name span
  | .index base place span, h => (faithful base h.1).index (faithful place h.2) span
  | .binary left op right span, h => (faithful left h.1).binary (faithful right h.2) op span
  | .unary op operand span, h => (faithful operand h).unary op span
  | .conditional test yes no span, h =>
    (faithful test h.1).conditional (faithful yes h.2.1) (faithful no h.2.2) span
  | .call _ args span, h => .call h.1 (faithfulExprs args h.2) span
  | .create _ args span, h => .create h.1 (faithfulExprs args h.2) span
  | .someOf value span, h => Wrapper.someOf.faithful (faithful value h) span
  | .noneOf span, _ => (Atom.noneOf span).faithful
  | .okOf value span, h => Wrapper.okOf.faithful (faithful value h) span
  | .errOf value span, h => Wrapper.errOf.faithful (faithful value h) span
  | .await value span, h => Wrapper.await.faithful (faithful value h) span
  | .quantifier _ _ body span, h => .quantifier h.1 (faithful body h.2) span

theorem faithfulExprs : ∀ es : List Expr, spellableExprs es → ∀ e ∈ es, Faithful e
  | [], _ => forall_mem_nil _
  | e :: es, h => forall_mem_cons.mpr ⟨faithful e h.1, faithfulExprs es h.2⟩

end

end Faithful

/-- The prefix form of an expression is read back: the rule for expressions takes exactly its
tokens, reports nothing and yields the same expression, apart from places. Behind the form there may
be any token that neither goes on with a chain of accesses nor, if the form ends in a closing tag,
holds attributes for it. -/
theorem expr_spelling {e : Expr} (h : e.Spellable) {s : Stream} {ts more : List Token} {t : Token}
    (htokens : s.tokens = ts ++ t :: more) (hkinds : ts.map Token.kind = e.spelling)
    (hdot : t.kind ≠ .dot) (hbracket : t.kind ≠ .lBracket) (hattrs : Detached e.spelling t.kind) :
    ∃ a, expr.run.run s = (.ok a, { s with current := t, rest := more }) ∧ a.bare = e.bare := by
  have hs : s.Shows e.spelling t more := ⟨ts, hkinds, htokens⟩
  have hlength : e.spelling.length ≤ s.rest.length + 1 := by
    have := hs.length_le
    omega
  obtain ⟨_, hrun, a, rfl, ha⟩ := (faithful e h).expr hlength s t more hs ⟨hattrs, hdot, hbracket⟩
  refine ⟨a, ?_, ha⟩
  rw [run_expr, hrun]
  rfl

def Stream.ofKinds (ks : List TokenKind) : Stream := .ofTokens (ks.map fun k => ⟨k, "", .nowhere⟩)

/-- An access to a negative number next to the least number, as an operand of an operator, as the
argument of a call that a subscript follows. -/
def deepAccess : Expr :=
  .index (.call "m:f" [.binary (.field (.int (-5) .nowhere) "x" .nowhere) .sub
      (.unary .neg (.int (-9223372036854775808) .nowhere) .nowhere) .nowhere] .nowhere)
    (.field (.create ⟨"T", .named "T" [], .nowhere⟩ [] .nowhere) "y" .nowhere) .nowhere

theorem expr_spelling_deepAccess : deepAccess.Spellable ∧
    ∃ a, expr.run.run (.ofKinds deepAccess.spelling) =
        (.ok a, { Stream.ofKinds deepAccess.spelling with current := .eofAt .nowhere, rest := [] }) ∧
      a.bare = deepAccess.bare := by
  have hspell : deepAccess.Spellable := by
    refine ⟨⟨by decide, ⟨?_, ?_⟩, trivial⟩, ?_, trivial⟩ <;> rfl
  have htokens : (Stream.ofKinds deepAccess.spelling).tokens =
      deepAccess.spelling.map (fun k => ⟨k, "", .nowhere⟩) ++ [.eofAt .nowhere] := rfl
  refine ⟨hspell, expr_spelling hspell htokens ?_ nofun nofun ?_⟩
  · rw [map_map]
    exact map_id _
  · exact fun _ _ => nofun

/-- What the conditions on the form leave out. In parentheses the sign of a number is an operator;
attributes behind a closing tag are taken together with it; and a call without a target or a text
that names no type is reported. -/
theorem spelling_limits :
    (∃ a, expr.run.run (.ofKinds (grouped (Expr.int (-5) .nowhere).spelling ++ [.dot, .ident "x"])) =
        (.ok a, .ofKinds []) ∧
      a.bare = .field (.unary .neg (.int 5 .nowhere) .nowhere) "x" .nowhere ∧
      a.bare ≠ (Expr.field (.int (-5) .nowhere) "x" .nowhere).bare) ∧
    (∃ a, expr.run.run (.ofKinds ((Expr.call "f" [] .nowhere).spelling ++ [.attrs ["x"]])) =
      (.ok a, .ofKinds [])) ∧
    (expr.run.run (.ofKinds (Expr.call "" [] .nowhere).spelling)).2.errors ≠ [] ∧
    (expr.run.run
      (.ofKinds (Expr.create ⟨"5", .named "5" [], .nowhere⟩ [] .nowhere).spelling)).2.errors ≠ [] :=
  ⟨⟨_, rfl, rfl, nofun⟩, ⟨_, rfl⟩, nofun, nofun⟩

end Grammar

end TagLang
