import TagLang.Grammar.Item
import TagLang.Proofs.Tree.Bare
import Mathlib.Data.List.Forall2

/-! # Two runs side by side

A parser decides by the kinds of tokens only. Two streams that show it the same kinds therefore lead
it through the same steps, even where the places of their tokens differ. What the streams have in
common is a parameter here: a relation that every step of the grammar keeps. One traversal of the
rules then serves every relation of this kind, also those that say something about a single run.
-/

namespace TagLang.Grammar
open List

variable {s : Stream} {Q : Token → Prop}

def namedTags : List String :=
  ["M", "F", "CL", "IFACE", "EN", "UN", "MT", "IF", "L", "EACH", "WH", "W", "TR", "LAM"]

def callTags : List String := ["C", "NEW"]

def bodyTags : List String := ["C", "NEW", "LAM", "W", "IF", "L", "EACH", "WH", "TR"]

/-- Tokens that neither open nor close a structure nor end the input. -/
def isLoose : TokenKind → Bool
  | .tag name => !namedTags.contains name && !callTags.contains name
  | .closeTag _ => false
  | .eof => false
  | _ => true

def opening (tag : String) : Parser (List String × Span) := do
  let start := (← take).span
  structuralAttrs tag start

namespace Stream

def tokens (s : Stream) : List Token := s.current :: s.rest

def withError (s : Stream) (e : ParseError) : Stream := { s with errors := e :: s.errors }

def withOpenTags (s : Stream) (tags : List String) : Stream := { s with openTags := tags }

end Stream

/-- What the streams of two runs have in common, given the structures that both runs are in (the
innermost first, each with its ID), and what it takes to stay so.

An `exact` pair of runs sees the same tokens; otherwise only their kinds agree. -/
structure Lockstep where
  exact : Prop
  rel : List (String × String) → Stream → Stream → Prop
  guards : List String → Prop
  inner : String → Prop
  inner_body {tag : String} : tag ∈ bodyTags → inner tag
  guards_cons {tags : List String} (tag : String) : guards tags → guards (tag :: tags)
  current {σ s t} : rel σ s t → s.kind = t.kind ∧ (exact → s.current = t.current)
  nextKind {σ s t} : rel σ s t → (∀ name, s.kind ≠ .closeTag name) → s.nextKind = t.nextKind
  openTags {σ s t} : rel σ s t → s.openTags = t.openTags
  length {σ s t} : rel σ s t → s.rest.length = t.rest.length
  more {σ s t} : rel σ s t → s.kind ≠ .eof → s.rest ≠ []
  advances {σ s t} : rel σ s t → isLoose s.kind = true → rel σ s.advance t.advance
  reports {σ s t e e'} : rel σ s t → (exact → e = e') → rel σ (s.withError e) (t.withError e')
  discards {σ s t e e'} : rel σ s t → (∀ name, s.kind ≠ .closeTag name) → s.kind ≠ .eof →
    (exact → e = e') → rel σ (s.withError e).advance (t.withError e').advance
  reopens {σ s t} (tags : List String) : rel σ s t → rel σ (s.withOpenTags tags) (t.withOpenTags tags)
  strays {σ s t name} : rel σ s t → guards s.openTags → s.kind = .closeTag name → s.isOpen name = false →
    rel σ (skipStrayClose.run s).2 (skipStrayClose.run t).2
  opens {σ s t tag} : rel σ s t → tag ∈ namedTags → inner tag → s.kind = .tag tag →
    ∃ fields head head', (exact → head = head') ∧
      ((opening tag).run s).1 = (fields, head) ∧ ((opening tag).run t).1 = (fields, head') ∧
      rel ((tag, fields.headD "") :: σ) ((opening tag).run s).2 ((opening tag).run t).2
  closes {σ s t tag id span span'} (construct : String) :
    rel ((tag, id) :: σ) s t → tag ∈ namedTags → inner tag → (exact → span = span') →
    (exact → ((expectClose tag construct id span).run s).1 =
      ((expectClose tag construct id span').run t).1) ∧
      rel σ ((expectClose tag construct id span).run s).2 ((expectClose tag construct id span').run t).2
  opensCall {σ s t tag} : rel σ s t → tag ∈ callTags → inner tag → s.kind = .tag tag →
    rel ((tag, "") :: σ) s.advance t.advance
  closesCall {σ s t tag span span'} (construct : String) :
    rel ((tag, "") :: σ) s t → tag ∈ callTags → inner tag → (exact → span = span') →
    (exact → ((expectSimpleClose tag construct span).run s).1 =
      ((expectSimpleClose tag construct span').run t).1) ∧
      rel σ ((expectSimpleClose tag construct span).run s).2
        ((expectSimpleClose tag construct span').run t).2

/-- Where two runs are: the structures they are in, the tags that are open, and a bound for the
tokens left. -/
structure Phase where
  opened : List (String × String)
  tags : List String
  bound : Nat

namespace Phase

def before (i : Phase) : Phase := { i with bound := i.bound + 1 }

def enter (i : Phase) (tag id : String) : Phase := { i with opened := (tag, id) :: i.opened }

def push (i : Phase) (tag : String) : Phase := { i with tags := tag :: i.tags }

end Phase

theorem bare_widen (outer : Span) (e : Expr) : (widen outer e).bare = e.bare := by
  cases e <;> simp only [widen, Expr.bare]

/-! ## Streams of a single run -/

section Streams

variable {α β : Type} {P : Stream → Prop} {s : Stream} {tag : String} {fields : List String}
  {p : Parser α}

theorem length_advance (h : s.rest ≠ []) : s.advance.rest.length + 1 = s.rest.length := by
  unfold Stream.advance
  split
  · next hrest => exact absurd hrest h
  · next hrest => rw [hrest, length_cons]

@[simp] theorem openTags_advance (s : Stream) : s.advance.openTags = s.openTags := by
  unfold Stream.advance
  split <;> rfl

@[simp] theorem errors_advance (s : Stream) : s.advance.errors = s.errors := by
  unfold Stream.advance
  split <;> rfl

theorem advance_withError (s : Stream) (e : ParseError) :
    (s.withError e).advance = s.advance.withError e := by
  unfold Stream.withError Stream.advance
  dsimp only
  split <;> rfl

theorem run_bind_eq {f : α → Parser β} {s s' : Stream} {a : α} (h : p.run s = (a, s')) :
    (p >>= f).run s = (f a).run s' := by
  rw [StateT.run_bind, h]
  rfl

theorem run_bind_ok {p : TryParser α} {f : α → TryParser β} {s s' : Stream} {a : α}
    (h : p.run.run s = (.ok a, s')) : (p >>= f).run.run s = (f a).run.run s' := by
  rw [ExceptT.run_bind, run_bind_eq h]

theorem run_peek {k : TokenKind} (h : s.kind = k) : peek.run s = (k, s) := Prod.ext h rfl

theorem run_peek_ok {k : TokenKind} (h : s.kind = k) :
    (liftM peek : TryParser TokenKind).run.run s = (.ok k, s) := by
  rw [← h]
  rfl

theorem run_take (s : Stream) : take.run s = (s.current, s.advance) := rfl

theorem map_codeSpans {α : Type} (f : String → α) (x : Token) (start : Nat) (codes : List String) :
    (codeSpans x start codes).map (fun c => f c.1) = codes.map f := by
  induction codes generalizing start with
  | nil => rfl
  | cons code codes ih => rw [codeSpans, map_cons, map_cons, ih]

theorem attrs_or_not (s : Stream) :
    (∃ fields, s.kind = .attrs fields) ∨ ∀ fields, s.kind ≠ .attrs fields := by
  rw [← not_exists]
  exact Classical.em _

theorem run_takeAttrs_some (h : s.kind = .attrs fields) :
    takeAttrs.run s = (some (fields, s.current), s.advance) := by
  rw [takeAttrs, run_bind_eq (run_peek h)]
  rfl

theorem run_takeAttrs_none (h : ∀ fields, s.kind ≠ .attrs fields) : takeAttrs.run s = (none, s) := by
  rw [takeAttrs, run_bind_eq (run_peek rfl)]
  split
  · next hkind => exact absurd hkind (h _)
  · rfl

theorem run_structuralAttrs_some (tag : String) (start : Span) (h : s.kind = .attrs fields) :
    (structuralAttrs tag start).run s = ((fields, start.merge s.current.span),
      if (fields.headD "").isEmpty then s.advance.withError
        ⟨.missingAttribute tag "id", s.current.span⟩ else s.advance) := by
  rw [structuralAttrs, run_bind_eq (run_takeAttrs_some h)]
  dsimp only
  split <;> rfl

theorem run_structuralAttrs_none (tag : String) (start : Span) (h : ∀ fields, s.kind ≠ .attrs fields) :
    (structuralAttrs tag start).run s =
      (([], start), s.withError ⟨.missingAttribute tag "id", start⟩) := by
  rw [structuralAttrs, run_bind_eq (run_takeAttrs_none h)]
  rfl

def mismatch (tag openId closeId : String) (attrs : Token) : ParseError :=
  ⟨.mismatchedId tag openId closeId (.closingId openId closeId (idSpan attrs closeId)),
    idSpan attrs closeId⟩

theorem run_expectClose_some (construct id : String) (span : Span) (h : s.kind = .closeTag tag)
    (hnext : s.advance.kind = .attrs fields) :
    (expectClose tag construct id span).run s = (s.current.span.merge s.advance.current.span,
      if fields.headD "" ≠ id then s.advance.advance.withError
        (mismatch tag id (fields.headD "") s.advance.current)
      else s.advance.advance) := by
  rw [expectClose, run_bind_eq (run_peek h), if_pos rfl, run_bind_eq (run_take s),
    run_bind_eq (run_takeAttrs_some hnext)]
  dsimp only
  split <;> rfl

def missingId (tag openId : String) (close : Token) : ParseError :=
  let s := close.span
  let span : Span := ⟨s.stop, s.stop, s.line, s.col + close.raw.length⟩
  ⟨.mismatchedId tag openId ""
    (.insert s!"add the closing ID '{openId}'" span ("\x7b" ++ openId ++ "\x7d")), span⟩

theorem run_expectClose_none (construct id : String) (span : Span) (h : s.kind = .closeTag tag)
    (hnext : ∀ fields, s.advance.kind ≠ .attrs fields) :
    (expectClose tag construct id span).run s = (s.current.span,
      if id.isEmpty then s.advance else s.advance.withError (missingId tag id s.current)) := by
  rw [expectClose, run_bind_eq (run_peek h), if_pos rfl, run_bind_eq (run_take s),
    run_bind_eq (run_takeAttrs_none hnext)]
  cases id.isEmpty <;> rfl

theorem run_expectClose_other (construct id : String) (span : Span) (h : s.kind ≠ .closeTag tag) :
    (expectClose tag construct id span).run s =
      (span, s.withError ⟨.unclosed construct ("§/" ++ tag ++ "\x7b" ++ id ++ "\x7d"), span⟩) := by
  rw [expectClose, run_bind_eq (run_peek rfl), if_neg h]
  rfl

theorem run_expectSimpleClose (construct : String) (span : Span) (h : s.kind = .closeTag tag) :
    (expectSimpleClose tag construct span).run s = (s.current.span, (takeAttrs.run s.advance).2) := by
  rw [expectSimpleClose, run_bind_eq (run_peek h), if_pos rfl, run_bind_eq (run_take s)]
  rfl

theorem run_expectSimpleClose_other (construct : String) (span : Span) (h : s.kind ≠ .closeTag tag) :
    (expectSimpleClose tag construct span).run s =
      (span, s.withError ⟨.unclosed construct ("§/" ++ tag), span⟩) := by
  rw [expectSimpleClose, run_bind_eq (run_peek rfl), if_neg h]
  rfl

theorem skipUntil_eq (stop : TokenKind → Bool) (s : Stream) :
    s.skipUntil stop = if s.rest.length = 0 ∨ stop s.kind = true then s
      else s.advance.skipUntil stop := by
  unfold Stream.skipUntil Stream.advance
  cases hrest : s.rest with
  | nil => simp [Stream.skipTo, ← hrest]
  | cons t ts =>
    have hsame (current : Token) (rest : List Token) :
        Stream.skipTo stop { s with current := t, rest := ts } current rest =
          Stream.skipTo stop s current rest := by
      induction rest generalizing current with
      | nil => rfl
      | cons _ _ ih => simp only [Stream.skipTo, ih]
    have hlength : s.rest.length ≠ 0 := by simp [hrest]
    simp only [Stream.skipTo, Stream.kind, hsame, hlength, false_or, ← hrest]

theorem skipUntil_stops (stop : TokenKind → Bool) (s : Stream) :
    (s.skipUntil stop).rest = [] ∨ stop (s.skipUntil stop).kind = true := by
  induction hn : s.rest.length using Nat.strongRecOn generalizing s with
  | ind n ih =>
    rw [skipUntil_eq]
    split
    · next hstop => exact hstop.imp_left eq_nil_of_length_eq_zero
    · next hgo =>
      have hlength := length_advance (ne_nil_of_length_pos (Nat.pos_of_ne_zero (not_or.mp hgo).1))
      exact ih _ (by omega) s.advance rfl

theorem run_strayAttrs (s : Stream) :
    (do
      match ← peek with
      | .attrs _ => let _ ← take
      | _ => pure () : Parser Unit).run s = ((), (takeAttrs.run s).2) := by
  rw [run_bind_eq (run_peek rfl)]
  split
  · next hk =>
    rw [run_takeAttrs_some hk]
    rfl
  · next hk =>
    rw [run_takeAttrs_none hk]
    rfl

theorem keeps_skipUntil (hadvance : ∀ s, P s → P s.advance) (stop : TokenKind → Bool) (s : Stream)
    (h : P s) : P (s.skipUntil stop) := by
  induction hn : s.rest.length using Nat.strongRecOn generalizing s with
  | ind n ih =>
    rw [skipUntil_eq]
    split
    · exact h
    · next hgo =>
      have hlength := length_advance (ne_nil_of_length_pos (Nat.pos_of_ne_zero (not_or.mp hgo).1))
      exact ih _ (by omega) s.advance (hadvance s h) rfl

/-- A relation of streams that show the same token, which stays when both move past an attribute
block and when both report an error. -/
structure Calm (R : Stream → Stream → Prop) : Prop where
  current {s t : Stream} : R s t → s.current = t.current
  attrs {s t : Stream} {fields : List String} : R s t → s.kind = .attrs fields → R s.advance t.advance
  report {s t : Stream} (e : ParseError) : R s t → R (s.withError e) (t.withError e)

/-- A calm relation that stays when both streams move past any token. -/
structure Steady (R : Stream → Stream → Prop) : Prop where
  current {s t : Stream} : R s t → s.current = t.current
  advance {s t : Stream} : R s t → R s.advance t.advance
  report {s t : Stream} (e : ParseError) : R s t → R (s.withError e) (t.withError e)

def Alone (P : Stream → Prop) (s t : Stream) : Prop := s = t ∧ P s

/-- A parser that has the same result on related streams and leaves related streams. -/
def Respects (R : Stream → Stream → Prop) (p : Parser α) : Prop :=
  ∀ ⦃s t : Stream⦄, R s t → (p.run s).1 = (p.run t).1 ∧ R (p.run s).2 (p.run t).2

variable {R : Stream → Stream → Prop}

theorem Steady.calm (h : Steady R) : Calm R := ⟨h.current, fun hst _ => h.advance hst, h.report⟩

theorem calm_alone (hattrs : ∀ s fields, P s → s.kind = .attrs fields → P s.advance)
    (hreport : ∀ s e, P s → P (s.withError e)) : Calm (Alone P) where
  current h := congrArg Stream.current h.1
  attrs h hk := ⟨congrArg Stream.advance h.1, hattrs _ _ h.2 hk⟩
  report e h := ⟨congrArg (Stream.withError · e) h.1, hreport _ e h.2⟩

theorem steady_alone (hadvance : ∀ s, P s → P s.advance) (hreport : ∀ s e, P s → P (s.withError e)) :
    Steady (Alone P) where
  current h := congrArg Stream.current h.1
  advance h := ⟨congrArg Stream.advance h.1, hadvance _ h.2⟩
  report e h := ⟨congrArg (Stream.withError · e) h.1, hreport _ e h.2⟩

theorem Respects.keeps (h : Respects (Alone P) p) (hs : P s) : P (p.run s).2 := (h ⟨rfl, hs⟩).2.2

theorem respects_pure {a : α} : Respects R (pure a) := fun _ _ h => ⟨rfl, h⟩

theorem Respects.bind {f : α → Parser β} (hp : Respects R p) (hf : ∀ a, Respects R (f a)) :
    Respects R (p >>= f) := by
  intro s t h
  obtain ⟨hresult, hstreams⟩ := hp h
  have hrest := hf (p.run s).1 hstreams
  change ((f (p.run s).1).run _).1 = ((f (p.run t).1).run _).1 ∧
    R ((f (p.run s).1).run _).2 ((f (p.run t).1).run _).2
  rw [← hresult]
  exact hrest

section Calm

variable (hR : Calm R)
include hR

theorem respects_peek : Respects R peek := fun _ _ h => ⟨congrArg Token.kind (hR.current h), h⟩

theorem respects_report (e : ParseError) : Respects R (report e) := fun _ _ h => ⟨rfl, hR.report e h⟩

theorem respects_reportUnexpected (expected : String) : Respects R (reportUnexpected expected) := by
  intro s t h
  have hsame : s.unexpected expected = t.unexpected expected := by
    unfold Stream.unexpected
    rw [hR.current h]
  refine ⟨rfl, ?_⟩
  change R (s.withError (s.unexpected expected)) (t.withError (t.unexpected expected))
  rw [hsame]
  exact hR.report _ h

theorem respects_takeAttrs : Respects R takeAttrs := by
  intro s t h
  have hcurrent := hR.current h
  have hkind : s.kind = t.kind := congrArg Token.kind hcurrent
  rcases attrs_or_not s with ⟨fields, hk⟩ | hk
  · rw [run_takeAttrs_some hk, run_takeAttrs_some (hkind ▸ hk), hcurrent]
    exact ⟨rfl, hR.attrs h hk⟩
  · rw [run_takeAttrs_none hk, run_takeAttrs_none (hkind ▸ hk)]
    exact ⟨rfl, h⟩

theorem respects_structuralAttrs (tag : String) (start : Span) :
    Respects R (structuralAttrs tag start) := by
  refine (respects_takeAttrs hR).bind fun found => ?_
  split
  · split
    · exact (respects_report hR _).bind fun _ => respects_pure
    · exact respects_pure
  · exact (respects_report hR _).bind fun _ => respects_pure

theorem respects_requiredField (fields : List String) (i : Nat) (tag name : String) (span : Span) :
    Respects R (requiredField fields i tag name span) := by
  unfold requiredField
  dsimp only
  split
  · exact (respects_report hR _).bind fun _ => respects_pure
  · exact respects_pure

theorem respects_modifiers (fields : List String) (tag : String) (span : Span) :
    Respects R (modifiers fields tag span) := by
  unfold modifiers
  generalize (fields.drop 2).filter (!·.isEmpty) = words
  generalize (Visibility.isPrivate, false) = found
  induction words generalizing found with
  | nil => exact respects_pure
  | cons word words ih =>
    rw [foldlM_cons]
    refine Respects.bind ?_ ih
    dsimp only
    split
    · exact respects_pure
    · split
      · exact respects_pure
      · exact (respects_report hR _).bind fun _ => respects_pure

theorem respects_strayAttrs : Respects R (do
    match ← peek with
    | .attrs _ => let _ ← take
    | _ => pure () : Parser Unit) := by
  intro s t h
  rw [run_strayAttrs, run_strayAttrs]
  exact ⟨rfl, (respects_takeAttrs hR h).2⟩

end Calm

section Steady

variable (hR : Steady R)
include hR

theorem respects_take : Respects R take := fun _ _ h => ⟨hR.current h, hR.advance h⟩

theorem respects_opening (tag : String) : Respects R (opening tag) :=
  (respects_take hR).bind fun _ => respects_structuralAttrs hR.calm _ _

theorem respects_expectClose (tag construct id : String) (span : Span) :
    Respects R (expectClose tag construct id span) := by
  refine (respects_peek hR.calm).bind fun kind => ?_
  split
  · refine (respects_take hR).bind fun close => (respects_takeAttrs hR.calm).bind fun found => ?_
    split
    · dsimp only
      split
      · exact (respects_report hR.calm _).bind fun _ => respects_pure
      · exact respects_pure
    · split
      · exact (respects_report hR.calm _).bind fun _ => respects_pure
      · exact respects_pure
  · exact (respects_report hR.calm _).bind fun _ => respects_pure

theorem respects_expectSimpleClose (tag construct : String) (span : Span) :
    Respects R (expectSimpleClose tag construct span) := by
  refine (respects_peek hR.calm).bind fun kind => ?_
  split
  · exact (respects_take hR).bind fun _ => (respects_takeAttrs hR.calm).bind fun _ => respects_pure
  · exact (respects_report hR.calm _).bind fun _ => respects_pure

theorem respects_skipStrayClose : Respects R skipStrayClose :=
  (respects_take hR).bind fun _ => (respects_report hR.calm _).bind fun _ => respects_strayAttrs hR.calm

end Steady

/-- Every step of the grammar keeps a steady relation of streams with the same tokens. -/
def Lockstep.ofSteady (hR : Steady R) (hsame : ∀ {s t}, R s t → s.rest = t.rest ∧ s.openTags = t.openTags)
    (hmore : ∀ {s t}, R s t → s.kind ≠ .eof → s.rest ≠ [])
    (hreopens : ∀ {s t} (tags : List String), R s t →
      R (s.withOpenTags tags) (t.withOpenTags tags)) : Lockstep where
  exact := True
  rel _ := R
  guards _ := True
  inner _ := True
  inner_body _ := trivial
  guards_cons _ _ := trivial
  current h := ⟨congrArg Token.kind (hR.current h), fun _ => hR.current h⟩
  nextKind h _ := by
    unfold Stream.nextKind
    rw [hR.current h, (hsame h).1]
  openTags h := (hsame h).2
  length h := congrArg List.length (hsame h).1
  more := hmore
  advances h _ := hR.advance h
  reports h he := by
    obtain rfl := he trivial
    exact hR.report _ h
  discards h _ _ he := by
    obtain rfl := he trivial
    exact hR.advance (hR.report _ h)
  reopens := hreopens
  strays h _ _ _ := (respects_skipStrayClose hR h).2
  opens {σ s t tag} h _ _ _ := by
    obtain ⟨hresult, hstreams⟩ := respects_opening hR tag h
    exact ⟨_, _, _, fun _ => rfl, hresult, rfl, hstreams⟩
  closes construct h _ _ he := by
    obtain rfl := he trivial
    exact (respects_expectClose hR _ _ _ _ h).imp_left fun hresult _ => hresult
  opensCall h _ _ _ := hR.advance h
  closesCall construct h _ _ he := by
    obtain rfl := he trivial
    exact (respects_expectSimpleClose hR _ _ _ h).imp_left fun hresult _ => hresult

end Streams

/-- The last token is the end of input, and those before it have a property. -/
def Stream.EndsAfter (Q : Token → Prop) (s : Stream) : Prop :=
  ∃ init last, s.tokens = init ++ [last] ∧ last.kind = .eof ∧ ∀ t ∈ init, Q t

abbrev Stream.Ended : Stream → Prop := Stream.EndsAfter (·.kind ≠ .eof)

theorem tokens_advance (h : s.rest ≠ []) : s.advance.tokens = s.rest := by
  unfold Stream.advance
  split
  · next hrest => exact absurd hrest h
  · next hrest => rw [hrest, Stream.tokens]

theorem Stream.EndsAfter.more (h : s.EndsAfter Q) (hk : s.kind ≠ .eof) : s.rest ≠ [] := by
  intro hrest
  obtain ⟨init, last, htokens, hlast, -⟩ := h
  rw [Stream.tokens, hrest] at htokens
  cases init with
  | nil =>
    have hkind : s.kind = last.kind := congrArg Token.kind (cons.inj htokens).1
    exact hk (hkind.trans hlast)
  | cons t init => exact absurd (cons.inj htokens).2 (by simp)

theorem Stream.EndsAfter.advance (h : s.EndsAfter Q) : s.advance.EndsAfter Q := by
  by_cases hrest : s.rest = []
  · have hsame : s.advance = s := by
      unfold Stream.advance
      rw [hrest]
    rw [hsame]
    exact h
  · obtain ⟨init, last, htokens, hlast, hinit⟩ := h
    rw [Stream.tokens] at htokens
    cases init with
    | nil => exact absurd (cons.inj htokens).2 hrest
    | cons t init =>
      refine ⟨init, last, ?_, hlast, fun t' ht' => hinit t' (mem_cons_of_mem _ ht')⟩
      rw [tokens_advance hrest]
      exact (cons.inj htokens).2

theorem Stream.Ended.rest_eq_nil_iff (h : s.Ended) : s.rest = [] ↔ s.kind = .eof := by
  constructor
  · intro hrest
    by_contra hk
    exact h.more hk hrest
  · intro hk
    obtain ⟨init, last, htokens, -, hinit⟩ := h
    cases init with
    | nil => exact (cons.inj htokens).2
    | cons t init =>
      have hkind : s.kind = t.kind := congrArg Token.kind (cons.inj htokens).1
      exact absurd (hkind.symm.trans hk) (hinit t mem_cons_self)

theorem ofTokens_tokens (h : s.EndsAfter Q) :
    Stream.ofTokens s.tokens = { current := s.current, rest := s.rest } := by
  obtain ⟨init, ⟨kind, raw, span⟩, htokens, hlast, -⟩ := h
  cases hlast
  have hend : s.tokens.getLast? = some ⟨.eof, raw, span⟩ := by
    rw [htokens, getLast?_append_of_ne_nil _ (cons_ne_nil _ _)]
    rfl
  unfold Stream.ofTokens
  rw [hend]
  rfl

theorem steady_ended : Steady (Alone Stream.Ended) := steady_alone (fun _ h => h.advance) fun _ _ h => h

structure Onward (s t : Stream) : Prop where
  openTags : t.openTags = s.openTags
  length : t.rest.length ≤ s.rest.length

theorem Onward.refl (s : Stream) : Onward s s := ⟨rfl, Nat.le_refl _⟩

theorem Onward.advance {s t : Stream} (h : Onward s t) : Onward s t.advance := by
  refine ⟨(openTags_advance t).trans h.openTags, Nat.le_trans ?_ h.length⟩
  unfold Stream.advance
  split
  · exact Nat.le_refl _
  · next hrest =>
    rw [hrest, length_cons]
    exact Nat.le_succ _

theorem steady_onward (s : Stream) : Steady (Alone (Onward s)) :=
  steady_alone (fun _ h => h.advance) fun _ _ h => ⟨h.openTags, h.length⟩

theorem onward_opening (tag : String) (s : Stream) : Onward s.advance ((opening tag).run s).2 :=
  (respects_structuralAttrs (steady_onward s.advance).calm tag s.current.span).keeps (.refl _)

theorem onward_skipStrayClose (s : Stream) : Onward s.advance (skipStrayClose.run s).2 :=
  ((respects_report (steady_onward s.advance).calm _).bind fun _ =>
    respects_strayAttrs (steady_onward s.advance).calm).keeps (.refl _)

/-! ## Steps of two runs -/

namespace Lockstep

section Judgements

variable (L : Lockstep) {α β γ : Type}

structure Near (i : Phase) (s t : Stream) : Prop where
  rel : L.rel i.opened s t
  tags : s.openTags = i.tags
  guards : L.guards i.tags
  bound : s.rest.length < i.bound

/-- Two parsers lead from two given streams to a phase and have related results. -/
def Runs (s t : Stream) (j : Phase) (R : α → β → Prop) (p : Parser α) (q : Parser β) : Prop :=
  R (p.run s).1 (q.run t).1 ∧ L.Near j (p.run s).2 (q.run t).2

def Steps (i j : Phase) (R : α → β → Prop) (p : Parser α) (q : Parser β) : Prop :=
  ∀ ⦃s t : Stream⦄, L.Near i s t → L.Runs s t j R p q

def StepsAt (k : TokenKind) (i j : Phase) (R : α → β → Prop) (p : Parser α) (q : Parser β) : Prop :=
  ∀ ⦃s t : Stream⦄, L.Near i s t → s.kind = k → L.Runs s t j R p q

/-- Values that are compared in exact runs only. -/
def Same (a b : α) : Prop := L.exact → a = b

/-- Values that agree in what does not depend on places, and in everything if the runs are exact. -/
def Like (bare : α → γ) (a b : α) : Prop := bare a = bare b ∧ L.Same a b

inductive Outcome (R : α → β → Prop) : Except ParseError α → Except ParseError β → Prop
  | ok {a : α} {b : β} : R a b → Outcome R (.ok a) (.ok b)
  | error {e e' : ParseError} : L.Same e e' → Outcome R (.error e) (.error e')

def TryRuns (s t : Stream) (i : Phase) (R : α → β → Prop) (p : TryParser α) (q : TryParser β) : Prop :=
  L.Runs s t i (L.Outcome R) p.run q.run

/-- Two parsers that may give up lead from a phase to the same phase and have related results. -/
def Tries (i : Phase) (R : α → β → Prop) (p : TryParser α) (q : TryParser β) : Prop :=
  L.Steps i i (L.Outcome R) p.run q.run

def TriesAt (k : TokenKind) (i : Phase) (R : α → β → Prop) (p : TryParser α) (q : TryParser β) : Prop :=
  L.StepsAt k i i (L.Outcome R) p.run q.run

def TakesAt (k : TokenKind) (i : Phase) (R : α → β → Prop) (p : TryParser α) (q : TryParser β) : Prop :=
  L.StepsAt k i.before i (L.Outcome R) p.run q.run

/-- From two given streams, two parsers take tokens, or else give up or have results of a given
kind. -/
def TakesFrom (Q : α → β → Prop) (s t : Stream) (i : Phase) (R : α → β → Prop) (p : TryParser α)
    (q : TryParser β) : Prop :=
  L.TryRuns s t i R p q ∨ L.TryRuns s t i.before Q p q

def TakesOr (Q : α → β → Prop) (i : Phase) (R : α → β → Prop) (p : TryParser α) (q : TryParser β) :
    Prop :=
  ∀ ⦃s t : Stream⦄, L.Near i.before s t → L.TakesFrom Q s t i R p q

abbrev Takes (i : Phase) (R : α → β → Prop) (p : TryParser α) (q : TryParser β) : Prop :=
  L.TakesOr (fun _ _ => False) i R p q

end Judgements

variable {L : Lockstep} {i j l : Phase} {k : TokenKind} {α α' β β' : Type} {R : α → α' → Prop}
  {S : β → β' → Prop} {s t : Stream}

theorem Near.relax (h : L.Near i s t) : L.Near i.before s t :=
  ⟨h.rel, h.tags, h.guards, Nat.lt_succ_of_lt h.bound⟩

theorem Near.tight (h : L.Near i s t) : L.Near { i with bound := s.rest.length + 1 } s t :=
  ⟨h.rel, h.tags, h.guards, Nat.lt_succ_self _⟩

theorem Near.kind (h : L.Near i s t) : s.kind = t.kind := (L.current h.rel).1

theorem Near.current (h : L.Near i s t) : L.Like Token.kind s.current t.current := L.current h.rel

section Combinators

variable {q : Parser α'} {p : Parser α} {g : α' → TryParser β'} {f : α → TryParser β} {b : α'} {a : α}

theorem steps_pure (h : R a b) : L.Steps i i R (pure a) (pure b) := fun _ _ hn => ⟨h, hn⟩

theorem stepsAt_pure (h : R a b) : L.StepsAt k i i R (pure a) (pure b) := fun _ _ hn _ => ⟨h, hn⟩

theorem Runs.relax (h : L.Runs s t i R p q) : L.Runs s t i.before R p q := ⟨h.1, h.2.relax⟩

theorem Runs.loosen (hn : L.Near i s t) (h : L.Runs s t { i with bound := s.rest.length + 1 } R p q) :
    L.Runs s t i R p q :=
  ⟨h.1, h.2.rel, h.2.tags, h.2.guards, Nat.lt_of_lt_of_le h.2.bound hn.bound⟩

theorem Runs.bind {f : α → Parser β} {g : α' → Parser β'} (hp : L.Runs s t j R p q)
    (hf : ∀ a b, R a b → L.Steps j l S (f a) (g b)) : L.Runs s t l S (p >>= f) (q >>= g) :=
  hf _ _ hp.1 hp.2

theorem Steps.bind {f : α → Parser β} {g : α' → Parser β'} (hp : L.Steps i j R p q)
    (hf : ∀ a b, R a b → L.Steps j l S (f a) (g b)) : L.Steps i l S (p >>= f) (q >>= g) :=
  fun _ _ hn => (hp hn).bind hf

theorem StepsAt.bind {f : α → Parser β} {g : α' → Parser β'} (hp : L.StepsAt k i j R p q)
    (hf : ∀ a b, R a b → L.Steps j l S (f a) (g b)) : L.StepsAt k i l S (p >>= f) (q >>= g) :=
  fun _ _ hn hk => (hp hn hk).bind hf

theorem Steps.at (h : L.Steps i j R p q) : L.StepsAt k i j R p q :=
  fun _ _ hn _ => h hn

theorem Steps.mono {R' : α → α' → Prop} (hp : L.Steps i j R p q) (h : ∀ a b, R a b → R' a b) :
    L.Steps i j R' p q := fun _ _ hn => ⟨h _ _ (hp hn).1, (hp hn).2⟩

theorem Steps.map {f : α → β} {g : α' → β'} (hp : L.Steps i j R p q)
    (h : ∀ a b, R a b → S (f a) (g b)) : L.Steps i j S (f <$> p) (g <$> q) :=
  fun _ _ hn => ⟨h _ _ (hp hn).1, (hp hn).2⟩

theorem StepsAt.map {f : α → β} {g : α' → β'} (hp : L.StepsAt k i j R p q)
    (h : ∀ a b, R a b → S (f a) (g b)) : L.StepsAt k i j S (f <$> p) (g <$> q) :=
  fun _ _ hn hk => ⟨h _ _ (hp hn hk).1, (hp hn hk).2⟩

theorem StepsAt.relax (h : L.StepsAt k i.before j R p q) : L.StepsAt k i j R p q :=
  fun _ _ hn hk => h hn.relax hk

theorem steps_get_bind {f : Stream → Parser α} {g : Stream → Parser α'}
    (h : ∀ s t, L.Near i s t → L.Runs s t j R (f s) (g t)) : L.Steps i j R (get >>= f) (get >>= g) :=
  fun s t hn => h s t hn

theorem steps_peek_bind {f : TokenKind → Parser α} {g : TokenKind → Parser α'}
    (h : ∀ k, L.StepsAt k i j R (f k) (g k)) : L.Steps i j R (peek >>= f) (peek >>= g) := by
  intro s t hn
  have hpeek : (peek.run t).1 = s.kind := hn.kind.symm
  have hstep := h s.kind hn rfl
  change L.Runs s t j R (f s.kind) (g (peek.run t).1)
  rw [hpeek]
  exact hstep

theorem tries_pure (h : R a b) : L.Tries i R (pure a) (pure b) := steps_pure (.ok h)

theorem tries_throw {e e' : ParseError} (h : L.Same e e') : L.Tries i R (throw e) (throw e') :=
  steps_pure (.error h)

theorem tries_mk {a : Except ParseError α} {b : Except ParseError α'} (h : L.Outcome R a b) :
    L.Tries i R (ExceptT.mk (pure a)) (ExceptT.mk (pure b)) := steps_pure h

theorem tries_lift (h : L.Steps i i R p q) : L.Tries i R (liftM p) (liftM q) :=
  fun _ _ hn => ⟨.ok (h hn).1, (h hn).2⟩

theorem triesAt_lift (h : L.StepsAt k i i R p q) :
    L.TriesAt k i R (liftM p) (liftM q) := fun _ _ hn hk => ⟨.ok (h hn hk).1, (h hn hk).2⟩

theorem takesAt_lift (h : L.StepsAt k i.before i R p q) :
    L.TakesAt k i R (liftM p) (liftM q) := fun _ _ hn hk => ⟨.ok (h hn hk).1, (h hn hk).2⟩

theorem Tries.at {p : TryParser α} {q : TryParser α'} (h : L.Tries i R p q) : L.TriesAt k i R p q :=
  Steps.at h

theorem steps_outcome {a : Except ParseError α} {b : Except ParseError α'} (h : L.Outcome R a b)
    (hf : ∀ a b, R a b → L.Tries i S (f a) (g b)) :
    L.Steps i i (L.Outcome S) (ExceptT.bindCont f a) (ExceptT.bindCont g b) := by
  cases h with
  | ok hr => exact hf _ _ hr
  | error he => exact steps_pure (.error he)

section Bind

variable {p : TryParser α} {q : TryParser α'}

theorem TryRuns.bind (hp : L.TryRuns s t i R p q) (hf : ∀ a b, R a b → L.Tries i S (f a) (g b)) :
    L.TryRuns s t i S (p >>= f) (q >>= g) :=
  Runs.bind hp fun _ _ h => steps_outcome h hf

theorem Tries.bind (hp : L.Tries i R p q) (hf : ∀ a b, R a b → L.Tries i S (f a) (g b)) :
    L.Tries i S (p >>= f) (q >>= g) := fun _ _ hn => TryRuns.bind (hp hn) hf

theorem TriesAt.bind (hp : L.TriesAt k i R p q) (hf : ∀ a b, R a b → L.Tries i S (f a) (g b)) :
    L.TriesAt k i S (p >>= f) (q >>= g) := fun _ _ hn hk => TryRuns.bind (hp hn hk) hf

theorem TakesAt.bind (hp : L.TakesAt k i R p q) (hf : ∀ a b, R a b → L.Tries i S (f a) (g b)) :
    L.TakesAt k i S (p >>= f) (q >>= g) := fun _ _ hn hk => TryRuns.bind (hp hn hk) hf

theorem TakesOr.bind {Q : β → β' → Prop} (hp : L.Takes i R p q)
    (hf : ∀ a b, R a b → L.Tries i S (f a) (g b)) : L.TakesOr Q i S (p >>= f) (q >>= g) := by
  intro s t hn
  obtain hp | hp := hp hn
  · exact .inl (TryRuns.bind hp hf)
  · exact .inr (TryRuns.bind hp fun _ _ h => h.elim)

theorem Outcome.mono {S : α → α' → Prop} {a : Except ParseError α} {b : Except ParseError α'}
    (h : L.Outcome R a b) (hS : ∀ a b, R a b → S a b) : L.Outcome S a b := by
  cases h with
  | ok hab => exact .ok (hS _ _ hab)
  | error he => exact .error he

theorem tries_of_takesOr {Q : α → α' → Prop} (hQ : ∀ a b, Q a b → R a b)
    (h : ∀ m < i.bound, L.TakesOr Q { i with bound := m } R p q) : L.Tries i R p q := by
  intro s t hn
  obtain ⟨opened, tags, _ | m⟩ := i
  · exact absurd hn.bound (Nat.not_lt_zero _)
  · obtain htakes | ⟨hresult, hn'⟩ := h m (Nat.lt_succ_self m) hn
    · exact Runs.relax htakes
    · exact ⟨hresult.mono hQ, hn'⟩

theorem tries_of_takes (h : ∀ m < i.bound, L.Takes { i with bound := m } R p q) : L.Tries i R p q :=
  tries_of_takesOr (fun _ _ => False.elim) h

end Bind

theorem tries_get_bind {f : Stream → TryParser α} {g : Stream → TryParser α'}
    (h : ∀ s t, L.Near i s t → L.TryRuns s t i R (f s) (g t)) :
    L.Tries i R (liftM (get : Parser Stream) >>= f) (liftM (get : Parser Stream) >>= g) :=
  fun s t hn => h s t hn

theorem tries_peek_bind {f : TokenKind → TryParser α} {g : TokenKind → TryParser α'}
    (h : ∀ k, L.TriesAt k i R (f k) (g k)) : L.Tries i R (liftM peek >>= f) (liftM peek >>= g) :=
  steps_peek_bind h

theorem takesOr_get_bind {f : Stream → TryParser α} {g : Stream → TryParser α'} {Q : α → α' → Prop}
    (h : ∀ s t, L.Near i.before s t → L.TakesFrom Q s t i R (f s) (g t)) :
    L.TakesOr Q i R (liftM (get : Parser Stream) >>= f) (liftM (get : Parser Stream) >>= g) :=
  fun s t hn => h s t hn

theorem takesOr_peek_bind {f : TokenKind → TryParser α} {g : TokenKind → TryParser α'} {Q : α → α' → Prop}
    (h : ∀ s t, L.Near i.before s t → L.TakesFrom Q s t i R (f s.kind) (g s.kind)) :
    L.TakesOr Q i R (liftM peek >>= f) (liftM peek >>= g) := by
  intro s t hn
  change L.TakesFrom Q s t i R (f s.kind) (g t.kind)
  rw [← hn.kind]
  exact h s t hn

theorem tryRuns_tryCatch {p q : TryParser α} {f g : ParseError → TryParser α} {R : α → α → Prop}
    (hp : L.TryRuns s t i R p q) (hf : ∀ e e', L.Same e e' → L.Tries i R (f e) (g e')) :
    L.TryRuns s t i R (tryCatch p f) (tryCatch q g) := by
  simp only [TryRuns, tryCatch, tryCatchThe, MonadExceptOf.tryCatch, ExceptT.tryCatch, ExceptT.run_mk]
  refine Runs.bind hp fun a b hab => ?_
  cases hab with
  | ok hr => exact steps_pure (.ok hr)
  | error he => exact hf _ _ he

end Combinators

section Basic

variable {s t : Stream}

theorem steps_set (h : L.Near j s t) :
    L.Steps i j (fun _ _ => True) (set s : Parser PUnit) (set t : Parser PUnit) :=
  fun _ _ _ => ⟨trivial, h⟩

theorem steps_modify {f g : Stream → Stream} (h : ∀ s t, L.Near i s t → L.Near j (f s) (g t)) :
    L.Steps i j (fun _ _ => True) (modify f : Parser PUnit) (modify g : Parser PUnit) :=
  fun _ _ hn => ⟨trivial, h _ _ hn⟩

theorem steps_here : L.Steps i i L.Same here here :=
  fun _ _ hn => ⟨fun he => congrArg Token.span (hn.current.2 he), hn⟩

/-- A parser that takes the current token, and only goes on, leaves fewer tokens. -/
theorem Near.onward {s' t' : Stream} (h : L.Near i.before s t) (hk : s.kind ≠ .eof)
    (hs : Onward s.advance s') {σ : List (String × String)} (hrel : L.rel σ s' t') :
    L.Near { i with opened := σ } s' t' := by
  refine ⟨hrel, hs.openTags.trans ((openTags_advance s).trans h.tags), h.guards, ?_⟩
  have hmore : s.rest ≠ [] := L.more h.rel hk
  have hlength := length_advance hmore
  have hlater : s'.rest.length ≤ s.advance.rest.length := hs.length
  have hbound : s.rest.length < i.bound + 1 := h.bound
  change s'.rest.length < i.bound
  omega

theorem Near.advance (h : L.Near i.before s t) (hk : isLoose s.kind = true) :
    L.Near i s.advance t.advance :=
  h.onward (fun heof => by rw [heof] at hk; cases hk) (.refl _) (L.advances h.rel hk)

theorem stepsAt_first (hk : isLoose k = true) : L.StepsAt k i.before i (L.Like Token.kind) take take :=
  fun _ _ hn heq => ⟨hn.current, hn.advance (heq ▸ hk)⟩

theorem stepsAt_take (hk : isLoose k = true) : L.StepsAt k i i (L.Like Token.kind) take take :=
  (stepsAt_first hk).relax

theorem takesAt_first (hk : isLoose k = true) :
    L.TakesAt k i (L.Like Token.kind) (liftM take) (liftM take) :=
  takesAt_lift (stepsAt_first hk)

theorem takesFrom_peekNext_bind {f : TokenKind → TryParser α} {g : TokenKind → TryParser α'}
    {Q : α → α' → Prop} (hn : L.Near i.before s t) (hk : ∀ name, s.kind ≠ .closeTag name)
    (h : L.TakesFrom Q s t i R (f s.nextKind) (g s.nextKind)) :
    L.TakesFrom Q s t i R (liftM peekNext >>= f) (liftM peekNext >>= g) := by
  have hpeek : (peekNext.run t).1 = s.nextKind := (L.nextKind hn.rel hk).symm
  change L.TakesFrom Q s t i R (f s.nextKind) (g (peekNext.run t).1)
  rw [hpeek]
  exact h

theorem tryRuns_takeTwo {f : Token → TryParser α} {g : Token → TryParser α'}
    (hn : L.Near i.before s t) (hk : isLoose s.kind = true) (hnext : isLoose s.nextKind = true)
    (h : ∀ a b, L.Like Token.kind a b → L.Tries i R (f a) (g b)) :
    L.TryRuns s t i R (liftM take >>= fun _ => liftM take >>= f)
      (liftM take >>= fun _ => liftM take >>= g) := by
  have hkind : s.advance.kind = s.nextKind := by
    unfold Stream.advance Stream.nextKind Stream.kind
    split <;> simp_all
  exact (triesAt_lift (stepsAt_take hnext)).bind h (hn.advance hk) hkind

theorem steps_report {e e' : ParseError} (h : L.Same e e') :
    L.Steps i i (fun _ _ => True) (report e) (report e') :=
  steps_modify fun _ _ hn => ⟨L.reports hn.rel h, hn.tags, hn.guards, hn.bound⟩

theorem steps_reportAt {span span' : Span} (fault : ParseFault) (h : L.Same span span') :
    L.Steps i i (fun _ _ => True) (reportAt span fault) (reportAt span' fault) :=
  steps_report fun he => by rw [h he]

theorem Near.unexpected (h : L.Near i s t) (expected : String) :
    L.Same (s.unexpected expected) (t.unexpected expected) := by
  intro he
  unfold Stream.unexpected
  rw [h.current.2 he]

theorem steps_reportUnexpected (expected : String) :
    L.Steps i i (fun _ _ => True) (reportUnexpected expected) (reportUnexpected expected) :=
  steps_get_bind fun _ _ hn => steps_report (hn.unexpected expected) hn

theorem tries_giveUp (expected : String) : L.Tries i R (giveUp expected) (giveUp expected) :=
  tries_get_bind fun _ _ hn => tries_throw (hn.unexpected expected) hn

theorem takes_expect {kind : TokenKind} (hk : isLoose kind = true) (expected : String) :
    L.Takes i (L.Like Token.kind) (expect kind expected) (expect kind expected) := by
  refine takesOr_peek_bind fun s t hn => ?_
  split
  · next heq => exact .inl (takesAt_first (heq ▸ hk) hn rfl)
  · exact .inr (tries_giveUp _ hn)

theorem tries_expect {kind : TokenKind} (hk : isLoose kind = true) (expected : String) :
    L.Tries i (L.Like Token.kind) (expect kind expected) (expect kind expected) :=
  tries_of_takes fun _ _ => takes_expect hk expected

theorem tries_expectIdent : L.Tries i (L.Like Prod.fst) expectIdent expectIdent := by
  refine tries_peek_bind fun k => ?_
  split
  · refine (triesAt_lift (stepsAt_take rfl)).bind fun a b hab => tries_pure ⟨rfl, fun he => ?_⟩
    rw [hab.2 he]
  · exact (tries_giveUp _).at

theorem Near.skipUntil {stop : TokenKind → Bool} (hstop : ∀ kind, stop kind = false → isLoose kind = true)
    (h : L.Near i s t) : L.Near i (s.skipUntil stop) (t.skipUntil stop) := by
  -- The induction is on the number of tokens left, which is the same in both streams.
  induction hn : s.rest.length using Nat.strongRecOn generalizing s t with
  | ind n ih =>
    have hlength : s.rest.length = t.rest.length := L.length h.rel
    rw [skipUntil_eq stop s, skipUntil_eq stop t, ← h.kind, ← hlength]
    split
    · exact h
    · next hgo =>
      rw [not_or, Bool.not_eq_true] at hgo
      have hshorter : s.advance.rest.length < n := by
        have := length_advance (ne_nil_of_length_pos (Nat.pos_of_ne_zero hgo.1))
        omega
      exact ih _ hshorter (h.relax.advance (hstop _ hgo.2)) rfl

theorem isLoose_of_not_tagLike {kind : TokenKind} (h : isTagLike kind = false) : isLoose kind = true := by
  cases kind <;> first | rfl | cases h

theorem steps_skipToTag : L.Steps i i (fun _ _ => True) skipToTag skipToTag :=
  steps_modify fun _ _ hn => hn.skipUntil fun _ => isLoose_of_not_tagLike

theorem steps_skipArrow : L.Steps i i (fun _ _ => True) skipArrow skipArrow := by
  refine steps_peek_bind fun k => ?_
  split
  · next heq => exact (stepsAt_take (heq ▸ rfl)).bind fun _ _ _ => steps_pure trivial
  · exact stepsAt_pure trivial

theorem run_recover (h : s.kind ≠ .eof) : recover.run s = ((), s.advance.skipUntil isTagLike) := by
  have hrun : recover.run s =
      (if s.kind ≠ .eof then take >>= fun _ => skipToTag else skipToTag : Parser Unit).run s := rfl
  rw [hrun, if_pos h]
  rfl

theorem stepsAt_recover {p : Parser α} {q : Parser α'} (hclose : ∀ name, k ≠ .closeTag name)
    (heof : k ≠ .eof) (expected : String) (h : L.Steps i j R p q) :
    L.StepsAt k i.before j R (reportUnexpected expected >>= fun _ => recover >>= fun _ => p)
      (reportUnexpected expected >>= fun _ => recover >>= fun _ => q) := by
  intro s t hn heq
  have hkind : s.kind ≠ .eof := heq ▸ heof
  let s' := s.withError (s.unexpected expected)
  let t' := t.withError (t.unexpected expected)
  have honward : Onward s.advance s'.advance := by
    rw [advance_withError]
    exact ⟨rfl, Nat.le_refl _⟩
  have hadvance : L.Near i s'.advance t'.advance :=
    hn.onward hkind honward (L.discards hn.rel (heq ▸ hclose) hkind (hn.unexpected expected))
  have hs : recover.run s' = ((), s'.advance.skipUntil isTagLike) := run_recover hkind
  have ht : recover.run t' = ((), t'.advance.skipUntil isTagLike) := run_recover (hn.kind ▸ hkind)
  have hrun := h (hadvance.skipUntil fun _ => isLoose_of_not_tagLike)
  change L.Runs (recover.run s').2 (recover.run t').2 j R p q
  rw [hs, ht]
  exact hrun

end Basic

section Structures

variable {tag : String}

theorem stepsAt_opening {f : List String × Span → Parser α} {g : List String × Span → Parser α'}
    (h : ∀ fields head head', L.Same head head' →
      L.Steps (i.enter tag (fields.headD "")) j R (f (fields, head)) (g (fields, head')))
    (hmem : tag ∈ namedTags) (hinner : L.inner tag) :
    L.StepsAt (.tag tag) i.before j R (take >>= fun t => structuralAttrs tag t.span >>= f)
      (take >>= fun t => structuralAttrs tag t.span >>= g) := by
  intro s t hn heq
  obtain ⟨fields, head, head', hhead, hs, ht, hrel⟩ := L.opens hn.rel hmem hinner heq
  have hnear := hn.onward (by rw [heq]; exact TokenKind.noConfusion) (onward_opening tag s) hrel
  have hrun := h fields head head' hhead hnear
  rw [← hs, ← ht] at hrun
  exact hrun

theorem steps_expectClose {id construct : String} {span span' : Span} (h : L.Same span span')
    (hmem : tag ∈ namedTags) (hinner : L.inner tag) :
    L.Steps (i.enter tag id) i L.Same (expectClose tag construct id span)
      (expectClose tag construct id span') := by
  intro s t hn
  have hclose := L.closes construct hn.rel hmem hinner h
  have hlater : Onward s ((expectClose tag construct id span).run s).2 :=
    (respects_expectClose (steady_onward s) tag construct id span).keeps (.refl s)
  exact ⟨hclose.1, hclose.2, hlater.openTags.trans hn.tags, hn.guards,
    Nat.lt_of_le_of_lt hlater.length hn.bound⟩

theorem stepsAt_openingCall (hmem : tag ∈ callTags) (hinner : L.inner tag) :
    L.StepsAt (.tag tag) i.before (i.enter tag "") (L.Like Token.kind) take take := by
  intro s t hn heq
  refine ⟨hn.current, ?_⟩
  exact hn.onward (by rw [heq]; exact TokenKind.noConfusion) (.refl _)
    (L.opensCall hn.rel hmem hinner heq)

theorem steps_expectSimpleClose {construct : String} {span span' : Span} (hmem : tag ∈ callTags)
    (hinner : L.inner tag) (h : L.Same span span') :
    L.Steps (i.enter tag "") i L.Same (expectSimpleClose tag construct span)
      (expectSimpleClose tag construct span') := by
  intro s t hn
  have hclose := L.closesCall construct hn.rel hmem hinner h
  have hlater : Onward s ((expectSimpleClose tag construct span).run s).2 :=
    (respects_expectSimpleClose (steady_onward s) tag construct span).keeps (.refl s)
  exact ⟨hclose.1, hclose.2, hlater.openTags.trans hn.tags, hn.guards,
    Nat.lt_of_le_of_lt hlater.length hn.bound⟩

theorem Near.pop (h : L.Near (i.push tag) s t) (hguards : L.guards i.tags) :
    L.Near i { s with openTags := s.openTags.tail } { t with openTags := t.openTags.tail } := by
  have hs : s.openTags.tail = i.tags := by
    rw [h.tags]
    rfl
  have ht : t.openTags.tail = i.tags := by rw [← L.openTags h.rel, hs]
  rw [hs, ht]
  exact ⟨L.reopens _ h.rel, rfl, hguards, h.bound⟩

theorem steps_withOpen {id : String} {p : Parser α} {q : Parser α'}
    (h : L.Steps ((i.push tag).enter tag id) (i.push tag) R p q) :
    L.Steps (i.enter tag id) i R (withOpen tag p) (withOpen tag q) := by
  intro s t hn
  have hopenTags : t.openTags = s.openTags := (L.openTags hn.rel).symm
  have hinside : L.Near ((i.push tag).enter tag id) { s with openTags := tag :: s.openTags }
      { t with openTags := tag :: t.openTags } := by
    rw [hopenTags]
    exact ⟨L.reopens _ hn.rel, congrArg (tag :: ·) hn.tags, L.guards_cons tag hn.guards, hn.bound⟩
  exact ⟨(h hinside).1, (h hinside).2.pop hn.guards⟩

theorem stepsAt_skipStrayClose {name : String} (hopen : name ∉ i.tags) :
    L.StepsAt (.closeTag name) i.before i (fun _ _ => True) skipStrayClose skipStrayClose := by
  intro s t hn heq
  have hclosed : s.isOpen name = false := by
    rw [Stream.isOpen, hn.tags]
    simpa [Phase.before] using hopen
  have hrel := L.strays hn.rel (hn.tags ▸ hn.guards) heq hclosed
  exact ⟨trivial, hn.onward (by rw [heq]; exact TokenKind.noConfusion) (onward_skipStrayClose s) hrel⟩

end Structures

section Loops

variable {G F : Fallback} {E : Stream → Prop} {p : Parser (Round α)} {q : Parser (Round α')}
  {s t : Stream}

/-- Two rounds of a loop both go on, with related findings. -/
inductive Goes (R : α → α' → Prop) : Round α → Round α' → Prop
  | skip : Goes R .skip .skip
  | found {a : α} {b : α'} : R a b → Goes R (.found a) (.found b)

def Done (r : Round α) (r' : Round α') : Prop := r = .done ∧ r' = .done

variable (L) in
/-- From two given streams, a round of two loops either goes on and leaves fewer tokens, or is done
and leaves a stream with a property. -/
def TurnsFrom (E : Stream → Prop) (s t : Stream) (i : Phase) (R : α → α' → Prop)
    (p : Parser (Round α)) (q : Parser (Round α')) : Prop :=
  L.Runs s t i (Goes R) p q ∨ L.Runs s t i.before Done p q ∧ E (p.run s).2

variable (L) in
def Turns (E : Stream → Prop) (i : Phase) (R : α → α' → Prop) (p : Parser (Round α))
    (q : Parser (Round α')) : Prop :=
  ∀ ⦃s t : Stream⦄, L.Near i.before s t → L.TurnsFrom E s t i R p q

theorem turns_get_bind {f : Stream → Parser (Round α)} {g : Stream → Parser (Round α')}
    (h : ∀ s t, L.Near i.before s t → L.TurnsFrom E s t i R (f s) (g t)) :
    L.Turns E i R (get >>= f) (get >>= g) :=
  fun s t hn => h s t hn

theorem turns_peek_bind {f : TokenKind → Parser (Round α)} {g : TokenKind → Parser (Round α')}
    (h : ∀ s t, L.Near i.before s t → L.TurnsFrom E s t i R (f s.kind) (g s.kind)) :
    L.Turns E i R (peek >>= f) (peek >>= g) := by
  intro s t hn
  change L.TurnsFrom E s t i R (f s.kind) (g t.kind)
  rw [← hn.kind]
  exact h s t hn

theorem turnsFrom_done (hn : L.Near i.before s t) (h : E s) :
    L.TurnsFrom E s t i R (pure .done) (pure .done) := .inr ⟨⟨⟨rfl, rfl⟩, hn⟩, h⟩

theorem turnsFrom_found {p : Parser α} {q : Parser α'} (hn : L.Near i.before s t) (hk : s.kind = k)
    (h : L.StepsAt k i.before i R p q) :
    L.TurnsFrom E s t i R (p >>= fun a => pure (.found a)) (q >>= fun a => pure (.found a)) :=
  .inl (h.bind (fun _ _ hab => steps_pure (.found hab)) hn hk)

theorem turnsFrom_first {f : Token → Parser (Round α)} {g : Token → Parser (Round α')}
    (hn : L.Near i.before s t) (hk : isLoose s.kind = true)
    (h : ∀ a b, L.Like Token.kind a b → L.Steps i i (Goes R) (f a) (g b)) :
    L.TurnsFrom E s t i R (take >>= f) (take >>= g) :=
  .inl ((stepsAt_first hk).bind h hn rfl)

theorem turnsFrom_stray {name : String} (hn : L.Near i.before s t) (hk : s.kind = .closeTag name)
    (hopen : ¬s.isOpen name = true) : L.TurnsFrom E s t i R (do skipStrayClose; return .skip)
      (do skipStrayClose; return .skip) := by
  refine .inl ((stepsAt_skipStrayClose ?_).bind (fun _ _ _ => steps_pure .skip) hn hk)
  rw [Stream.isOpen, hn.tags] at hopen
  simpa [Phase.before] using hopen

theorem run_collect (n : Nat) (s : Stream) :
    (collect p (n + 1)).run s = match p.run s with
      | (.done, s') => ([], s')
      | (.skip, s') => (collect p n).run s'
      | (.found a, s') => (a :: ((collect p n).run s').1, ((collect p n).run s').2) := by
  rw [collect, StateT.run_bind]
  rcases p.run s with ⟨r, s'⟩
  cases r <;> rfl

/-- A loop whose rounds take tokens goes on until a round is done, however many more rounds it may
take. -/
theorem turns_collect {n : Nat} (h : ∀ m < n, L.Turns E { i with bound := m } R p q) {a b : Nat}
    (ha : n ≤ a) (hb : n ≤ b) (hn : L.Near { i with bound := n } s t) :
    L.Runs s t { i with bound := n } (Forall₂ R) (collect p a) (@collect G _ _ _ _ q b) ∧
      E ((collect p a).run s).2 := by
  -- The bound of the phase is the number of rounds that are needed.
  induction n generalizing a b s t with
  | zero => exact absurd hn.bound (Nat.not_lt_zero _)
  | succ n ih =>
    obtain _ | a := a
    · omega
    obtain _ | b := b
    · omega
    have hround := h n (Nat.lt_succ_self n) hn
    unfold TurnsFrom at hround
    unfold Runs at hround ⊢
    rw [run_collect, run_collect]
    generalize p.run s = x at hround ⊢
    generalize q.run t = y at hround ⊢
    obtain ⟨r, s'⟩ := x
    obtain ⟨r', t'⟩ := y
    obtain ⟨hgoes, hnear⟩ | ⟨⟨⟨hr, hr'⟩, hnear⟩, hE⟩ := hround
    · obtain ⟨⟨hl, hnear'⟩, hE⟩ := ih (fun m hm => h m (Nat.lt_succ_of_lt hm))
        (Nat.le_of_succ_le_succ ha) (Nat.le_of_succ_le_succ hb) hnear
      cases hgoes with
      | skip => exact ⟨⟨hl, hnear'.relax⟩, hE⟩
      | found hab => exact ⟨⟨.cons hab hl, hnear'.relax⟩, hE⟩
    · dsimp only at hr hr'
      subst hr hr'
      exact ⟨⟨.nil, hnear⟩, hE⟩

theorem turns_many (h : ∀ m < i.bound, L.Turns E { i with bound := m } R p q) (hn : L.Near i s t) :
    L.Runs s t i (Forall₂ R) (many p) (@many G _ q) ∧ E ((many p).run s).2 := by
  have hcollect := turns_collect (F := F) (G := G)
    (fun m hm => h m (Nat.lt_of_lt_of_le hm hn.bound)) (Nat.le_refl _) (Nat.le_refl _) hn.tight
  refine ⟨?_, hcollect.2⟩
  change L.Runs s t i (Forall₂ R) (collect p (s.rest.length + 1))
    (@collect G _ _ _ _ q (t.rest.length + 1))
  rw [← L.length hn.rel]
  exact hcollect.1.loosen hn

theorem steps_many (h : ∀ m ≤ i.bound, L.Turns (fun _ => True) { i with bound := m } R p q) :
    L.Steps i i (Forall₂ R) (many p) (@many G _ q) :=
  fun _ _ hn => (turns_many (fun m hm => h m (Nat.le_of_lt hm)) hn).1

theorem takesFrom_done {R : Round α → Round α' → Prop} (hn : L.Near i.before s t) :
    L.TakesFrom Done s t i R (pure .done) (pure .done) := .inr ⟨.ok ⟨rfl, rfl⟩, hn⟩

theorem tries_tryMany {p : TryParser (Round α)} {q : TryParser (Round α')}
    (h : ∀ m < i.bound, L.TakesOr Done { i with bound := m } (Goes R) p q) :
    L.Tries i (Forall₂ R) (tryMany p) (@tryMany G _ q) := by
  have hcollect (n : Nat) (hle : n ≤ i.bound) :
      L.Tries { i with bound := n } (Forall₂ R) (collect p n) (@collect G _ _ _ _ q n) := by
    induction n with
    | zero => exact fun _ _ hn => absurd hn.bound (Nat.not_lt_zero _)
    | succ n ih =>
      intro s t hn
      simp only [collect]
      obtain hgoes | hdone := h n hle hn
      · refine Runs.relax (TryRuns.bind hgoes fun r r' hr => ?_)
        cases hr with
        | skip => exact ih (Nat.le_of_lt hle)
        | found hab => exact (ih (Nat.le_of_lt hle)).bind fun _ _ hl => tries_pure (.cons hab hl)
      · refine TryRuns.bind hdone fun r r' hr => ?_
        obtain ⟨rfl, rfl⟩ := hr
        exact tries_pure .nil
  refine tries_get_bind fun s t hn => ?_
  rw [← L.length hn.rel]
  exact Runs.loosen hn (hcollect _ hn.bound hn.tight)

end Loops

end Lockstep

end TagLang.Grammar
