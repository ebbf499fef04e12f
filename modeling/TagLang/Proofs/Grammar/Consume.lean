import TagLang.Proofs.Grammar.Isolation
import TagLang.Proofs.Grammar.Yield

/-! # Tokens that a parser takes

A parser consumes a sequence of tokens if it takes exactly these, reports nothing, and stops at the
token behind them. Which token may stand there is a part of the statement: some parsers look at it
before they stop.
-/

namespace TagLang.Grammar
open List

variable {α β : Type}

/-! ## Streams that begin with given tokens -/

namespace Stream

def moveTo (s : Stream) (t : Token) (more : List Token) : Stream := { s with current := t, rest := more }

/-- The stream begins with tokens of the given kinds; behind them stands `t`, and then `more`. -/
def Shows (s : Stream) (ks : List TokenKind) (t : Token) (more : List Token) : Prop :=
  ∃ ts, ts.map Token.kind = ks ∧ s.tokens = ts ++ t :: more

variable {s : Stream} {k k' : TokenKind} {ks ks' : List TokenKind} {t : Token} {more : List Token}

theorem shows_moveTo (s : Stream) (t : Token) (more : List Token) :
    (s.moveTo t more).Shows [] t more := ⟨[], rfl, rfl⟩

theorem Shows.moveTo_eq (h : s.Shows [] t more) : s.moveTo t more = s := by
  obtain ⟨ts, hkinds, htokens⟩ := h
  obtain rfl := map_eq_nil_iff.mp hkinds
  obtain ⟨rfl, rfl⟩ := cons.inj htokens
  rfl

theorem Shows.split (h : s.Shows (ks ++ ks') t more) : ∃ t' more', s.Shows ks t' more' ∧
    (s.moveTo t' more').Shows ks' t more ∧ t'.kind = ks'.headD t.kind := by
  obtain ⟨ts, hkinds, htokens⟩ := h
  obtain ⟨first, second, rfl, hfirst, hsecond⟩ := map_eq_append_iff.mp hkinds
  rw [append_assoc] at htokens
  cases second with
  | nil =>
    obtain rfl : ks' = [] := hsecond.symm
    exact ⟨t, more, ⟨first, hfirst, htokens⟩, shows_moveTo s t more, rfl⟩
  | cons t' behind =>
    subst hsecond
    exact ⟨t', behind ++ t :: more, ⟨first, hfirst, htokens⟩, ⟨t' :: behind, rfl, rfl⟩, rfl⟩

theorem Shows.kind_eq (h : s.Shows ks t more) : s.kind = ks.headD t.kind := by
  obtain ⟨ts, rfl, htokens⟩ := h
  cases ts with
  | nil => exact congrArg Token.kind (cons.inj htokens).1
  | cons t' ts => exact congrArg Token.kind (cons.inj htokens).1

theorem Shows.nextKind_eq (h : s.Shows (k :: ks) t more) : s.nextKind = ks.headD t.kind := by
  obtain ⟨_ | ⟨t', ts⟩, hkinds, htokens⟩ := h
  · cases hkinds
  obtain ⟨-, rfl⟩ := cons.inj hkinds
  have hrest : s.rest = ts ++ t :: more := (cons.inj htokens).2
  unfold Stream.nextKind
  cases ts <;> rw [hrest] <;> rfl

theorem Shows.length_le (h : s.Shows ks t more) : ks.length + more.length ≤ s.rest.length := by
  obtain ⟨ts, rfl, htokens⟩ := h
  have hlength := congrArg List.length htokens
  simp only [Stream.tokens, length_cons, length_append, length_map] at hlength ⊢
  omega

theorem Shows.advance (h : s.Shows (k :: ks) t more) :
    s.current.kind = k ∧ s.advance.Shows ks t more ∧ s.advance.moveTo t more = s.moveTo t more := by
  obtain ⟨_ | ⟨t', ts⟩, hkinds, htokens⟩ := h
  · cases hkinds
  obtain ⟨rfl, rfl⟩ := cons.inj hkinds
  obtain ⟨hcurrent, hrest⟩ := cons.inj htokens
  have hne : s.rest ≠ [] := by simp [hrest]
  refine ⟨congrArg Token.kind hcurrent, ⟨ts, rfl, (tokens_advance hne).trans hrest⟩, ?_⟩
  unfold Stream.advance
  split <;> rfl

end Stream

/-! ## Parsers -/

section Combinators

variable {k : TokenKind} {ks ks' : List TokenKind} {after next : TokenKind → Prop} {P : α → Prop}
  {Q : β → Prop} {p : Parser α} {f : TokenKind → TryParser β} {a : α}

/-- The parser takes tokens of exactly the given kinds if the token behind them has a property, it
leaves everything else of the stream as it was, and its result has a property. -/
def Consumes (ks : List TokenKind) (after : TokenKind → Prop) (P : α → Prop) (p : Parser α) : Prop :=
  ∀ (s : Stream) (t : Token) (more : List Token), s.Shows ks t more → after t.kind →
    ∃ a, p.run s = (a, s.moveTo t more) ∧ P a

/-- Moreover the parser does not give up. -/
def TryConsumes (ks : List TokenKind) (after : TokenKind → Prop) (P : α → Prop) (p : TryParser α) :
    Prop :=
  Consumes ks after (fun r => ∃ a, r = .ok a ∧ P a) p.run

theorem consumes_pure (h : P a) : Consumes [] after P (pure a) :=
  fun _ _ _ hs _ => ⟨a, Prod.ext rfl hs.moveTo_eq.symm, h⟩

theorem Consumes.bind {f : α → Parser β} (hp : Consumes ks next P p)
    (hf : ∀ a, P a → Consumes ks' after Q (f a)) (hnext : ∀ k, after k → next (ks'.headD k)) :
    Consumes (ks ++ ks') after Q (p >>= f) := by
  intro s t more hs ht
  obtain ⟨t', more', hfirst, hsecond, hkind⟩ := hs.split
  obtain ⟨a, hrun, ha⟩ := hp s t' more' hfirst (hkind ▸ hnext _ ht)
  obtain ⟨b, hrun', hb⟩ := hf a ha _ t more hsecond ht
  exact ⟨b, by rw [run_bind_eq hrun, hrun']; rfl, hb⟩

theorem Consumes.bind_pure {f : α → β} (hp : Consumes ks after P p) (h : ∀ a, P a → Q (f a)) :
    Consumes ks after Q (p >>= fun a => pure (f a)) := by
  rw [← append_nil ks]
  exact hp.bind (fun a ha => consumes_pure (h a ha)) fun _ hk => hk

theorem Consumes.mono {P' : α → Prop} (hp : Consumes ks next P p) (hnext : ∀ k, after k → next k)
    (h : ∀ a, P a → P' a) : Consumes ks after P' p := by
  intro s t more hs ht
  obtain ⟨a, hrun, ha⟩ := hp s t more hs (hnext _ ht)
  exact ⟨a, hrun, h a ha⟩

theorem Consumes.here {f : Span → Parser β} (h : ∀ span, Consumes ks after Q (f span)) :
    Consumes ks after Q (here >>= f) := fun s t more hs ht => h s.current.span s t more hs ht

theorem Consumes.peek {f : TokenKind → Parser β} (h : Consumes (k :: ks) after Q (f k)) :
    Consumes (k :: ks) after Q (peek >>= f) := by
  intro s t more hs ht
  rw [run_bind_eq (run_peek hs.kind_eq)]
  exact h s t more hs ht

theorem Consumes.peekEnd {f : TokenKind → Parser β} (h : ∀ k, after k → Consumes [] after Q (f k)) :
    Consumes [] after Q (Grammar.peek >>= f) := by
  intro s t more hs ht
  rw [run_bind_eq (run_peek hs.kind_eq)]
  exact h _ ht s t more hs ht

theorem consumes_take (k : TokenKind) : Consumes [k] (fun _ => True) (·.kind = k) take := by
  intro s t more hs _
  obtain ⟨hkind, hrest, hsame⟩ := hs.advance
  exact ⟨s.current, by rw [run_take, ← hsame, hrest.moveTo_eq], hkind⟩

theorem Consumes.take {f : Token → Parser β} (h : ∀ t, t.kind = k → Consumes ks after Q (f t)) :
    Consumes (k :: ks) after Q (Grammar.take >>= f) :=
  (consumes_take k).bind h fun _ _ => trivial

theorem Consumes.withOpen (tag : String) (h : Consumes ks after P p) :
    Consumes ks after P (withOpen tag p) := by
  intro s t more hs ht
  obtain ⟨a, hrun, ha⟩ := h (s.withOpenTags (tag :: s.openTags)) t more hs ht
  exact ⟨a, by rw [run_withOpen hrun]; rfl, ha⟩

theorem tryConsumes_pure (h : P a) : TryConsumes [] after P (pure a) := consumes_pure ⟨a, rfl, h⟩

theorem tryConsumes_mk {r : Except ParseError α} (h : ∃ a, r = .ok a ∧ P a) :
    TryConsumes [] after P (ExceptT.mk (pure r)) := consumes_pure h

theorem run_liftM (p : Parser α) (s : Stream) :
    (liftM p : TryParser α).run.run s = (.ok (p.run s).1, (p.run s).2) := rfl

theorem tryConsumes_lift (h : Consumes ks after P p) : TryConsumes ks after P (liftM p) := by
  intro s t more hs ht
  obtain ⟨a, hrun, ha⟩ := h s t more hs ht
  exact ⟨.ok a, by rw [run_liftM, hrun], a, rfl, ha⟩

theorem consumes_of_lift (h : TryConsumes ks after P (liftM p)) : Consumes ks after P p := by
  intro s t more hs ht
  obtain ⟨_, hrun, a, rfl, ha⟩ := h s t more hs ht
  rw [run_liftM] at hrun
  obtain ⟨hresult, hstream⟩ := Prod.ext_iff.mp hrun
  exact ⟨a, Prod.ext (Except.ok.inj hresult) hstream, ha⟩

theorem run_expr {F : Fallback} (s : Stream) :
    expr.run.run s = (rules (s.rest.length + 1)).expr.run.run s := by
  have hrules : (liftM currentRules : TryParser Rules).run.run s =
      (.ok (rules (s.rest.length + 1)), s) := rfl
  rw [expr, run_bind_ok hrules]

theorem TryConsumes.bind {p : TryParser α} {f : α → TryParser β} (hp : TryConsumes ks next P p)
    (hf : ∀ a, P a → TryConsumes ks' after Q (f a)) (hnext : ∀ k, after k → next (ks'.headD k)) :
    TryConsumes (ks ++ ks') after Q (p >>= f) := by
  unfold TryConsumes
  rw [ExceptT.run_bind]
  refine Consumes.bind hp ?_ hnext
  rintro _ ⟨a, rfl, ha⟩
  exact hf a ha

theorem TryConsumes.bind_pure {p : TryParser α} {f : α → β} (hp : TryConsumes ks after P p)
    (h : ∀ a, P a → Q (f a)) : TryConsumes ks after Q (p >>= fun a => pure (f a)) := by
  rw [← append_nil ks]
  exact hp.bind (fun a ha => tryConsumes_pure (h a ha)) fun _ hk => hk

theorem TryConsumes.mono {P' : α → Prop} {p : TryParser α} (hp : TryConsumes ks next P p)
    (hnext : ∀ k, after k → next k) (h : ∀ a, P a → P' a) : TryConsumes ks after P' p :=
  Consumes.mono hp hnext fun _ ⟨a, hr, ha⟩ => ⟨a, hr, h a ha⟩

theorem TryConsumes.get {f : Stream → TryParser β}
    (h : ∀ s t more, Stream.Shows s ks t more → after t.kind → TryConsumes ks after Q (f s)) :
    TryConsumes ks after Q (get >>= f) := fun s t more hs ht => h s t more hs ht s t more hs ht

theorem TryConsumes.peek (h : TryConsumes (k :: ks) after Q (f k)) :
    TryConsumes (k :: ks) after Q (liftM Grammar.peek >>= f) := Consumes.peek h

theorem TryConsumes.peekEnd (h : ∀ k, after k → TryConsumes [] after Q (f k)) :
    TryConsumes [] after Q (liftM Grammar.peek >>= f) := Consumes.peekEnd h

theorem TryConsumes.peekNext (h : ∀ k, TryConsumes ks after Q (f k)) :
    TryConsumes ks after Q (liftM Grammar.peekNext >>= f) :=
  fun s t more hs ht => h s.nextKind s t more hs ht

theorem TryConsumes.take {f : Token → TryParser β} (h : ∀ t, t.kind = k → TryConsumes ks after Q (f t)) :
    TryConsumes (k :: ks) after Q (liftM Grammar.take >>= f) := Consumes.take h

theorem TryConsumes.tryCatch {p : TryParser α} (handler : ParseError → TryParser α)
    (h : TryConsumes ks after P p) : TryConsumes ks after P (tryCatch p handler) := by
  intro s t more hs ht
  obtain ⟨_, hrun, a, rfl, ha⟩ := h s t more hs ht
  exact ⟨.ok a, by rw [run_tryCatch, hrun], a, rfl, ha⟩

theorem TryConsumes.expect {f : Token → TryParser β} (expected : String)
    (h : ∀ t, t.kind = k → TryConsumes ks after Q (f t)) :
    TryConsumes (k :: ks) after Q (expect k expected >>= f) := by
  have hexpect : TryConsumes [k] (fun _ => True) (·.kind = k) (Grammar.expect k expected) := by
    refine TryConsumes.peek ?_
    rw [if_pos rfl]
    exact tryConsumes_lift (consumes_take k)
  exact hexpect.bind h fun _ _ => trivial

end Combinators

/-! ## Loops -/

section Loops

variable {item : β → List TokenKind} {after next : TokenKind → Prop} {R : β → α → Prop} {bs : List β}
  {round : TryParser (Round α)}

def Chained (item : β → List TokenKind) (next : TokenKind → Prop) (bs : List β) : Prop :=
  ∀ b ∈ bs, ∃ k ks, item b = k :: ks ∧ next k

theorem Chained.headD (h : Chained item next bs) {k : TokenKind} (hk : next k) :
    next ((bs.flatMap item).headD k) := by
  cases bs with
  | nil => exact hk
  | cons b bs =>
    obtain ⟨k', ks, hitem, hk'⟩ := h b mem_cons_self
    rw [flatMap_cons, hitem]
    exact hk'

theorem Chained.length_le (h : Chained item next bs) : bs.length ≤ (bs.flatMap item).length := by
  induction bs with
  | nil => exact Nat.zero_le _
  | cons b bs ih =>
    obtain ⟨k, ks, hitem, -⟩ := h b mem_cons_self
    have hbs := ih fun c hc => h c (mem_cons_of_mem b hc)
    rw [flatMap_cons, hitem, length_append, length_cons, length_cons]
    omega

section

variable (hfound : ∀ b ∈ bs, TryConsumes (item b) next (fun r => ∃ a, r = .found a ∧ R b a) round)
  (hdone : TryConsumes [] after (· = .done) round) (hchained : Chained item next bs)
  (hafter : ∀ k, after k → next k)
include hfound hdone hchained hafter

theorem tryConsumes_collect (n : Nat) (hn : bs.length < n) :
    TryConsumes (bs.flatMap item) after (Forall₂ R bs) (collect round n) := by
  -- One round for each item, and one more that finds nothing.
  induction bs generalizing n with
  | nil =>
    obtain _ | n := n
    · omega
    refine TryConsumes.bind hdone ?_ fun _ h => h
    rintro _ rfl
    exact tryConsumes_pure .nil
  | cons b bs ih =>
    obtain _ | n := n
    · omega
    have hrest : Chained item next bs := fun c hc => hchained c (mem_cons_of_mem b hc)
    have hbs := ih (fun c hc => hfound c (mem_cons_of_mem b hc)) hrest n (Nat.lt_of_succ_lt_succ hn)
    rw [flatMap_cons]
    refine TryConsumes.bind (hfound b mem_cons_self) ?_ fun k hk => hrest.headD (hafter k hk)
    rintro _ ⟨a, rfl, ha⟩
    exact hbs.bind_pure fun _ has => .cons ha has

theorem tryConsumes_tryMany : TryConsumes (bs.flatMap item) after (Forall₂ R bs) (tryMany round) := by
  refine TryConsumes.get fun s t more hs _ => tryConsumes_collect hfound hdone hchained hafter _ ?_
  have := hs.length_le
  have := hchained.length_le
  omega

end

theorem liftM_collect (round : Parser (Round α)) (n : Nat) :
    (liftM (collect round n) : TryParser (List α)) = collect (liftM round) n := by
  induction n with
  | zero => rfl
  | succ n ih =>
    rw [collect, collect, liftM_bind]
    congr
    funext r
    cases r with
    | done => rfl
    | skip => exact ih
    | found a => rw [liftM_bind, ih]; rfl

theorem consumes_many {round : Parser (Round α)}
    (hfound : ∀ b ∈ bs, Consumes (item b) next (fun r => ∃ a, r = .found a ∧ R b a) round)
    (hdone : Consumes [] after (· = .done) round) (hchained : Chained item next bs)
    (hafter : ∀ k, after k → next k) :
    Consumes (bs.flatMap item) after (Forall₂ R bs) (many round) := by
  refine consumes_of_lift ?_
  have hmany : (liftM (many round) : TryParser (List α)) = tryMany (liftM round) := by
    rw [many, liftM_bind, tryMany]
    congr
    funext s
    exact liftM_collect round _
  rw [hmany]
  exact tryConsumes_tryMany (fun b hb => tryConsumes_lift (hfound b hb)) (tryConsumes_lift hdone)
    hchained hafter

end Loops

end TagLang.Grammar
