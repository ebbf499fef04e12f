import TagLang.Grammar.Item
import TagLang.Proofs.Grammar.Lockstep
import TagLang.Proofs.Token.Kind
import TagLang.Proofs.Tree.Clean

/-! # What parsers yield from their tokens

A parser only drops tokens from the front of its stream. What it yields from a stream that shows the
end of a list of tokens is therefore made of these tokens, and the stream that it leaves shows an
end of the list again, with the same tags open.

A parser never forgets an error either, except when it goes back to where it was before the error.
So there is a second thing to say about its result, which holds only if no error is left.
-/

namespace TagLang.Grammar
open List

variable {α β : Type} {ts : List Token}

def Stream.Within (ts : List Token) (s : Stream) : Prop := s.tokens <:+ ts

/-- What a run from `s` has come to: a result with the property `U` and a stream within a list of
tokens, with the same tags open. If no error is left, there was none before, and the result has the
property `C` as well. -/
structure Outcome (ts : List Token) (U C : α → Prop) (s : Stream) (r : α × Stream) : Prop where
  result : U r.1
  within : r.2.Within ts
  openTags : r.2.openTags = s.openTags
  clears : r.2.errors = [] → s.errors = [] ∧ C r.1

def Yields (ts : List Token) (U C : α → Prop) (p : Parser α) : Prop :=
  ∀ s : Stream, s.Within ts → Outcome ts U C s (p.run s)

def Gives (U : α → Prop) (r : Except ParseError α) : Prop := ∀ a, r = .ok a → U a

def TryYields (ts : List Token) (U C : α → Prop) (p : TryParser α) : Prop :=
  Yields ts (Gives U) (Gives C) p.run

/-- A parser of which only the stream that it leaves matters. -/
abbrev Passes (ts : List Token) (p : Parser α) : Prop := Yields ts (fun _ => True) (fun _ => True) p

abbrev TryPasses (ts : List Token) (p : TryParser α) : Prop :=
  TryYields ts (fun _ => True) (fun _ => True) p

section Combinators

variable {U C : α → Prop} {V D : β → Prop} {p : Parser α} {f : α → Parser β} {a : α}

theorem yields_pure (hU : U a) (hC : C a) : Yields ts U C (pure a) :=
  fun _ hs => ⟨hU, hs, rfl, fun h => ⟨h, hC⟩⟩

theorem passes_pure : Passes ts (pure a) := yields_pure trivial trivial

theorem Outcome.bind {s : Stream} (hp : Outcome ts U C s (p.run s))
    (hf : ∀ a, U a → Yields ts V (fun b => C a → D b) (f a)) : Outcome ts V D s ((p >>= f).run s) := by
  obtain ⟨ha, hs₁, htags, hclears⟩ := hp
  obtain ⟨hb, hs₂, htags', hclears'⟩ := hf _ ha _ hs₁
  refine ⟨hb, hs₂, htags'.trans htags, fun hnone => ?_⟩
  obtain ⟨hnone', hD⟩ := hclears' hnone
  exact ⟨(hclears hnone').1, hD (hclears hnone').2⟩

theorem Yields.bind (hp : Yields ts U C p) (hf : ∀ a, U a → Yields ts V (fun b => C a → D b) (f a)) :
    Yields ts V D (p >>= f) := fun s hs => (hp s hs).bind hf

theorem yields_pure_bind (h : Yields ts V D (f a)) : Yields ts V D (pure a >>= f) := h

theorem Yields.map {f : α → β} (hp : Yields ts U C p) (hU : ∀ a, U a → V (f a))
    (hC : ∀ a, C a → D (f a)) : Yields ts V D (f <$> p) :=
  fun s hs => ⟨hU _ (hp s hs).result, (hp s hs).within, (hp s hs).openTags,
    fun h => ((hp s hs).clears h).imp_right (hC _)⟩

theorem Yields.mono {U' C' : α → Prop} (hp : Yields ts U C p) (hU : ∀ a, U a → U' a)
    (hC : ∀ a, C a → C' a) : Yields ts U' C' p := hp.map (f := id) hU hC

theorem Yields.clean {C' : α → Prop} (hp : Yields ts U C p) (hC : ∀ a, C a → C' a) : Yields ts U C' p :=
  hp.mono (fun _ h => h) hC

theorem Yields.passes (hp : Yields ts U C p) : Passes ts p :=
  hp.mono (fun _ _ => trivial) fun _ _ => trivial

theorem Yields.bind_of (hp : Yields ts U (fun _ => True) p) (hf : ∀ a, U a → Yields ts V D (f a)) :
    Yields ts V D (p >>= f) :=
  hp.bind fun a ha => (hf a ha).clean fun _ hb _ => hb

theorem Passes.bind (hp : Passes ts p) (hf : ∀ a, Yields ts V D (f a)) :
    Yields ts V D (p >>= f) := Yields.bind_of hp fun a _ => hf a

theorem yields_get : Yields ts (Stream.Within ts) (fun _ => True) get :=
  fun _ hs => ⟨hs, hs, rfl, fun h => ⟨h, trivial⟩⟩

theorem passes_get : Passes ts (get : Parser Stream) := yields_get.passes

theorem passes_modify {f : Stream → Stream} (h : ∀ s : Stream, s.Within ts → (f s).Within ts)
    (htags : ∀ s, (f s).openTags = s.openTags) (herrors : ∀ s, (f s).errors = s.errors) :
    Passes ts (modify f : Parser PUnit) :=
  fun s hs => ⟨trivial, h s hs, htags s, fun hnone => ⟨(herrors s).symm.trans hnone, trivial⟩⟩

theorem yields_report (e : ParseError) : Yields ts (fun _ => True) (fun _ => False) (report e) :=
  fun _ hs => ⟨trivial, hs, rfl, fun h => by cases h⟩

theorem Yields.failed (hp : Yields ts U (fun _ => False) p)
    (hf : ∀ a, Yields ts V (fun _ => True) (f a)) : Yields ts V D (p >>= f) :=
  hp.bind fun a _ => (hf a).clean fun _ _ h => h.elim

theorem yields_reported {e : ParseError} {f : Unit → Parser β}
    (hf : ∀ a, Yields ts V (fun _ => True) (f a)) :
    Yields ts V D (report e >>= f) := (yields_report e).failed hf

theorem tryYields_pure (hU : U a) (hC : C a) : TryYields ts U C (pure a) :=
  yields_pure (fun _ heq => by cases heq; exact hU) fun _ heq => by cases heq; exact hC

theorem tryPasses_pure : TryPasses ts (pure a) := tryYields_pure trivial trivial

theorem tryYields_pure_bind {f : α → TryParser β} (h : TryYields ts V D (f a)) :
    TryYields ts V D (pure a >>= f) := by
  rw [pure_bind]
  exact h

theorem tryYields_throw (e : ParseError) : TryYields ts U C (throw e) := yields_pure nofun nofun

theorem tryYields_mk {r : Except ParseError α} (hU : Gives U r) (hC : Gives C r) :
    TryYields ts U C (ExceptT.mk (pure r)) := yields_pure hU hC

theorem tryYields_lift (hp : Yields ts U C p) : TryYields ts U C (liftM p) := by
  refine Yields.bind hp fun a ha => yields_pure (fun b heq => ?_) fun ha b heq => ?_
  · cases heq
    exact ha
  · cases heq
    exact ha

theorem TryYields.bind {p : TryParser α} {f : α → TryParser β} (hp : TryYields ts U C p)
    (hf : ∀ a, U a → TryYields ts V (fun b => C a → D b) (f a)) : TryYields ts V D (p >>= f) := by
  unfold TryYields
  rw [ExceptT.run_bind]
  refine Yields.bind hp fun r hr => ?_
  cases r with
  | ok a => exact Yields.clean (hf a (hr a rfl)) fun r' hr' hr b heq => hr' b heq (hr a rfl)
  | error e => exact yields_pure nofun fun _ => nofun

theorem TryYields.mono {U' C' : α → Prop} {p : TryParser α} (hp : TryYields ts U C p)
    (hU : ∀ a, U a → U' a) (hC : ∀ a, C a → C' a) : TryYields ts U' C' p :=
  Yields.mono hp (fun _ hr a heq => hU a (hr a heq)) fun _ hr a heq => hC a (hr a heq)

theorem TryYields.clean {C' : α → Prop} {p : TryParser α} (hp : TryYields ts U C p)
    (hC : ∀ a, C a → C' a) : TryYields ts U C' p := hp.mono (fun _ h => h) hC

theorem TryYields.passes {p : TryParser α} (hp : TryYields ts U C p) : TryPasses ts p :=
  hp.mono (fun _ _ => trivial) fun _ _ => trivial

theorem TryYields.bind_of {p : TryParser α} {f : α → TryParser β} (hp : TryYields ts U (fun _ => True) p)
    (hf : ∀ a, U a → TryYields ts V D (f a)) : TryYields ts V D (p >>= f) :=
  hp.bind fun a ha => (hf a ha).clean fun _ hb _ => hb

theorem TryPasses.bind {p : TryParser α} {f : α → TryParser β} (hp : TryPasses ts p)
    (hf : ∀ a, TryYields ts V D (f a)) : TryYields ts V D (p >>= f) :=
  TryYields.bind_of hp fun a _ => hf a

theorem tryYields_get : TryYields ts (Stream.Within ts) (fun _ => True) get := tryYields_lift yields_get

theorem run_tryCatch (p : TryParser α) (handler : ParseError → TryParser α) (s : Stream) :
    (tryCatch p handler).run.run s = match p.run.run s with
      | (.ok a, s') => (.ok a, s')
      | (.error e, s') => (handler e).run.run s' := by
  have hrun : StateT.run p s = p.run.run s := rfl
  simp only [tryCatch, tryCatchThe, MonadExceptOf.tryCatch, ExceptT.tryCatch, ExceptT.run_mk,
    StateT.run_bind, hrun]
  rcases p.run.run s with ⟨r, s'⟩
  cases r <;> rfl

/-- After an error the other parser starts where the first one started, so the errors and the result
of the first one are forgotten together. -/
theorem TryYields.retry {p q : TryParser α} (hp : TryYields ts U C p) (hq : TryYields ts U C q)
    {s : Stream} (hs : s.Within ts) : Outcome ts (Gives U) (Gives C) s ((tryCatch p fun e => do
      set s
      tryCatch q fun _ => throw e : TryParser α).run.run s) := by
  have hfirst := hp s hs
  have hsecond := hq s hs
  rw [run_tryCatch]
  rcases hp : p.run.run s with ⟨e | a, s'⟩
  · change Outcome ts (Gives U) (Gives C) s ((tryCatch q fun _ => throw e : TryParser α).run.run s)
    rw [run_tryCatch]
    rcases hq : q.run.run s with ⟨e' | a, s''⟩
    · rw [hq] at hsecond
      exact ⟨nofun, hsecond.within, hsecond.openTags, fun hnone => ⟨(hsecond.clears hnone).1, nofun⟩⟩
    · rwa [hq] at hsecond
  · rwa [hp] at hfirst

end Combinators

section Steps

variable {s : Stream} {p : Parser α}

theorem Stream.within_of_eq (h : s.tokens = ts) : s.Within ts := h ▸ suffix_rfl

theorem Stream.Within.advance (h : s.Within ts) : s.advance.Within ts := by
  unfold Stream.advance
  split
  · exact h
  · next t us hrest =>
    have htail : t :: us <:+ s.tokens := hrest ▸ suffix_cons _ _
    exact htail.trans h

theorem Stream.Within.skipUntil (h : s.Within ts) (stop : TokenKind → Bool) :
    (s.skipUntil stop).Within ts :=
  keeps_skipUntil (P := Stream.Within ts) (fun _ h => h.advance) stop s h

theorem Stream.skipUntil_errors (s : Stream) (stop : TokenKind → Bool) :
    (s.skipUntil stop).errors = s.errors :=
  keeps_skipUntil (P := fun t => t.errors = s.errors) (fun t h => (errors_advance t).trans h) stop s rfl

theorem Stream.skipUntil_openTags (s : Stream) (stop : TokenKind → Bool) :
    (s.skipUntil stop).openTags = s.openTags :=
  keeps_skipUntil (P := fun t => t.openTags = s.openTags) (fun t h => (openTags_advance t).trans h)
    stop s rfl

theorem Stream.Within.current_mem (h : s.Within ts) : s.current ∈ ts := h.subset mem_cons_self

theorem steady_errors : Steady (Alone fun s => s.errors ≠ []) :=
  steady_alone (fun _ h => by rwa [errors_advance]) fun _ _ _ => cons_ne_nil _ _

theorem steady_openTags (tags : List String) : Steady (Alone fun s => s.openTags = tags) :=
  steady_alone (fun s h => (openTags_advance s).trans h) fun _ _ h => h

theorem passes_of_respects (h : ∀ P, Steady (Alone P) → Respects (Alone P) p) : Passes ts p := by
  intro s hs
  have hwithin := h (Stream.Within ts) (steady_alone (fun _ => Stream.Within.advance) fun _ _ h => h)
  refine ⟨trivial, hwithin.keeps hs, (h _ (steady_openTags _)).keeps rfl, fun hnone => ⟨?_, trivial⟩⟩
  by_contra hsome
  exact (h _ steady_errors).keeps hsome hnone

theorem passes_peek : Passes ts peek := passes_get.bind fun _ => passes_pure

theorem yields_peek {f : TokenKind → Parser β} {V D : β → Prop}
    (h : ∀ s : Stream, s.Within ts → Outcome ts V D s ((f s.kind).run s)) :
    Yields ts V D (peek >>= f) := h

theorem passes_peekNext : Passes ts peekNext := passes_get.bind fun _ => passes_pure

theorem passes_here : Passes ts here := passes_get.bind fun _ => passes_pure

theorem yields_take : Yields ts (· ∈ ts) (fun _ => True) take :=
  fun s hs => ⟨hs.current_mem, hs.advance, openTags_advance s, fun h =>
    ⟨(errors_advance s).symm.trans h, trivial⟩⟩

theorem passes_take : Passes ts take := yields_take.passes

theorem tryPasses_take : TryPasses ts (liftM take) := tryYields_lift passes_take

theorem tryPasses_peek : TryPasses ts (liftM peek) := tryYields_lift passes_peek

theorem yields_reportUnexpected (expected : String) :
    Yields ts (fun _ => True) (fun _ => False) (reportUnexpected expected) :=
  passes_get.bind fun _ => yields_report _

theorem tryYields_giveUp {U C : α → Prop} (expected : String) : TryYields ts U C (giveUp expected) :=
  tryYields_get.bind_of fun _ _ => tryYields_throw _

theorem tryYields_expect (kind : TokenKind) (expected : String) :
    TryYields ts (fun t => t ∈ ts ∧ t.kind = kind) (fun _ => True) (expect kind expected) := by
  intro s hs
  have hrun : (expect kind expected).run.run s =
      (if s.kind = kind then liftM take else giveUp expected : TryParser Token).run.run s := rfl
  by_cases hkind : s.kind = kind
  · have htake : TryYields ts (· ∈ ts) (fun _ => True) (liftM take) := tryYields_lift yields_take
    obtain ⟨hmem, hwithin, htags, hclears⟩ := htake s hs
    rw [if_pos hkind] at hrun
    rw [hrun]
    refine ⟨fun t heq => ⟨hmem t heq, ?_⟩, hwithin, htags, hclears⟩
    cases heq
    exact hkind
  · rw [if_neg hkind] at hrun
    rw [hrun]
    exact tryYields_giveUp expected s hs

theorem tryPasses_expect (kind : TokenKind) (expected : String) : TryPasses ts (expect kind expected) :=
  (tryYields_expect kind expected).passes

theorem tryYields_expectIdent :
    TryYields ts (fun found => ∃ t ∈ ts, t.kind = .ident found.1 ∧ t.span = found.2)
    (fun _ => True) expectIdent := by
  intro s hs
  rw [expectIdent, run_bind_ok (run_peek_ok rfl)]
  split
  · next name hname =>
    have htake : TryPasses ts (do return (name, (← liftM take).span)) :=
      tryPasses_take.bind fun _ => tryPasses_pure
    refine ⟨fun found heq => ?_, (htake s hs).within, (htake s hs).openTags, (htake s hs).clears⟩
    cases heq
    exact ⟨s.current, hs.current_mem, hname, rfl⟩
  · exact tryYields_giveUp _ s hs

theorem passes_skipToTag : Passes ts skipToTag :=
  passes_modify (fun _ hs => hs.skipUntil _) (fun s => s.skipUntil_openTags _) fun s =>
    s.skipUntil_errors _

theorem passes_recover : Passes ts recover := by
  refine passes_peek.bind fun kind => ?_
  split
  · exact passes_take.bind fun _ => passes_skipToTag
  · exact passes_skipToTag

theorem passes_skipArrow : Passes ts skipArrow := by
  refine passes_peek.bind fun kind => ?_
  split
  · exact passes_take.bind fun _ => passes_pure
  · exact passes_pure

variable {U C : α → Prop}

theorem yields_withOpen (tag : String) (h : Yields ts U C p) : Yields ts U C (withOpen tag p) := by
  intro s hs
  obtain ⟨ha, hwithin, htags, hclears⟩ := h (s.withOpenTags (tag :: s.openTags)) hs
  refine ⟨ha, hwithin, ?_, hclears⟩
  change (p.run (s.withOpenTags (tag :: s.openTags))).2.openTags.tail = s.openTags
  rw [htags]
  rfl

theorem yields_closed {q : Parser β} (tag : String) (hp : Yields ts U C p) (hq : Passes ts q) :
    Yields ts (fun r => U r.1) (fun r => C r.1) (withOpen tag do
      let a ← p
      return (a, ← q)) :=
  yields_withOpen tag (hp.bind fun _ ha => hq.bind fun _ => yields_pure ha fun hC => hC)

theorem yields_skipStrayClose : Yields ts (fun _ => True) (fun _ => False) skipStrayClose := by
  refine passes_take.bind fun t => yields_reported fun _ => passes_peek.bind fun kind => ?_
  split
  · exact passes_take.bind fun _ => passes_pure
  · exact passes_pure

theorem yields_stray {a : α} (hU : U a) (expected : String) : Yields ts U C (do
    reportUnexpected expected
    recover
    return a) :=
  (yields_reportUnexpected _).failed fun _ => passes_recover.bind fun _ => yields_pure hU trivial

end Steps

def Round.Finds (Q : α → Prop) (r : Round α) : Prop := ∀ a, r = .found a → Q a

section Loops

variable {Q U C : α → Prop}

theorem Round.finds_done : (Round.done : Round α).Finds Q := nofun

theorem Round.finds_skip : (Round.skip : Round α).Finds Q := nofun

theorem Round.finds_found {a : α} (h : Q a) : (Round.found a).Finds Q :=
  fun _ heq => by cases heq; exact h

theorem yields_done : Yields ts (Round.Finds U) (Round.Finds C) (pure .done) :=
  yields_pure Round.finds_done Round.finds_done

theorem yields_skip : Yields ts (Round.Finds U) (Round.Finds C) (pure .skip) :=
  yields_pure Round.finds_skip Round.finds_skip

theorem Yields.found {p : Parser α} (hp : Yields ts U C p) :
    Yields ts (Round.Finds U) (Round.Finds C) (do return .found (← p)) :=
  hp.bind fun _ ha => yields_pure (Round.finds_found ha) Round.finds_found

/-- What a round finds goes in front of what is made of the tokens that it leaves. -/
structure FindsBehind (G : List Token → Prop) (R : List Token → List α → Prop) (C : α → Prop)
    (ts : List Token) (s : Stream) (r : Round α × Stream) : Prop where
  within : r.2.Within ts
  openTags : r.2.openTags = s.openTags
  found : ∀ a, r.1 = .found a → ∃ us, us <:+ ts ∧ G us ∧ r.2.Within us ∧ ∀ as, R us as → R ts (a :: as)
  clears : r.2.errors = [] → s.errors = [] ∧ r.1.Finds C

section Behind

variable {G : List Token → Prop} {R : List Token → List α → Prop} {s : Stream}

theorem findsBehind_get {f : Stream → Parser (Round α)} (h : FindsBehind G R C ts s ((f s).run s)) :
    FindsBehind G R C ts s ((get >>= f : Parser (Round α)).run s) := h

theorem findsBehind_bind {p : Parser β} {f : β → Parser (Round α)}
    (h : FindsBehind G R C ts s ((f (p.run s).1).run (p.run s).2)) :
    FindsBehind G R C ts s ((p >>= f).run s) := h

theorem findsBehind_of_none {r : Round α × Stream}
    (h : Outcome ts (Round.Finds fun _ => False) (Round.Finds C) s r) :
    FindsBehind G R C ts s r := ⟨h.within, h.openTags, fun a ha => (h.result a ha).elim, h.clears⟩

theorem yields_many_behind {round : Parser (Round α)} (hnil : ∀ ts, G ts → R ts [])
    (hround : ∀ ts, G ts → ∀ s : Stream, s.Within ts → FindsBehind G R C ts s (round.run s))
    (hts : G ts) : Yields ts (R ts) (fun l => ∀ a ∈ l, C a) (many round) := by
  have hcollect (n : Nat) (ts : List Token) (hts : G ts) :
      Yields ts (R ts) (fun l => ∀ a ∈ l, C a) (collect round n) := by
    induction n generalizing ts with
    | zero => exact yields_pure (hnil ts hts) (forall_mem_nil _)
    | succ n ih =>
      intro s hs
      obtain ⟨hleft, htags, hfound, hclears⟩ := hround ts hts s hs
      rw [collect, run_bind_eq (Prod.eta (round.run s)).symm]
      cases hcase : (round.run s).1 with
      | done => exact ⟨hnil ts hts, hleft, htags, fun hnone => ⟨(hclears hnone).1, forall_mem_nil _⟩⟩
      | skip =>
        obtain ⟨hrest, hend, htags', hclears'⟩ := ih ts hts _ hleft
        exact ⟨hrest, hend, htags'.trans htags, fun hnone =>
          ⟨(hclears (hclears' hnone).1).1, (hclears' hnone).2⟩⟩
      | found a =>
        obtain ⟨us, hus, hG, hwithin, hcons⟩ := hfound a hcase
        obtain ⟨hrest, hend, htags', hclears'⟩ := ih us hG _ hwithin
        refine ⟨hcons _ hrest, List.IsSuffix.trans hend hus, htags'.trans htags, fun hnone => ?_⟩
        obtain ⟨hnone', hall⟩ := hclears' hnone
        exact ⟨(hclears hnone').1, forall_mem_cons.mpr ⟨(hclears hnone').2 a hcase, hall⟩⟩
  exact passes_get.bind fun s => hcollect _ ts hts

end Behind

theorem yields_many {round : Parser (Round α)} (h : Yields ts (Round.Finds U) (Round.Finds C) round) :
    Yields ts (fun l => ∀ a ∈ l, U a) (fun l => ∀ a ∈ l, C a) (many round) := by
  refine yields_many_behind (G := (· = ts)) (R := fun _ l => ∀ a ∈ l, U a)
    (fun _ _ => forall_mem_nil _) ?_ rfl
  rintro _ rfl s hs
  obtain ⟨hresult, hwithin, htags, hclears⟩ := h s hs
  refine ⟨hwithin, htags, fun a ha => ⟨_, suffix_rfl, rfl, hwithin, fun as has => ?_⟩, hclears⟩
  exact forall_mem_cons.mpr ⟨hresult a ha, has⟩

theorem tryYields_tryMany {round : TryParser (Round α)}
    (h : TryYields ts (Round.Finds U) (Round.Finds C) round) :
    TryYields ts (fun l => ∀ a ∈ l, U a) (fun l => ∀ a ∈ l, C a) (tryMany round) := by
  have hcollect (n : Nat) : TryYields ts (fun l => ∀ a ∈ l, U a) (fun l => ∀ a ∈ l, C a)
      (collect round n) := by
    induction n with
    | zero => exact tryYields_pure (forall_mem_nil _) (forall_mem_nil _)
    | succ n ih =>
      rw [collect]
      refine h.bind fun r hr => ?_
      cases r with
      | done => exact tryYields_pure (forall_mem_nil _) fun _ => forall_mem_nil _
      | skip => exact ih.clean fun _ hl _ => hl
      | found a =>
        refine ih.bind fun l hl => tryYields_pure ?_ fun hl hr => ?_
        · exact forall_mem_cons.mpr ⟨hr a rfl, hl⟩
        · exact forall_mem_cons.mpr ⟨hr a rfl, hl⟩
  exact tryYields_get.bind_of fun s _ => hcollect _

theorem tryYields_done : TryYields ts (Round.Finds U) (Round.Finds C) (pure .done) :=
  tryYields_pure Round.finds_done Round.finds_done

theorem TryYields.found {p : TryParser α} (hp : TryYields ts U C p) :
    TryYields ts (Round.Finds U) (Round.Finds C) (do return .found (← p)) :=
  hp.bind fun _ ha => tryYields_pure (Round.finds_found ha) Round.finds_found

end Loops

theorem stream_lex (source : String) : ∃ s : Stream, Stream.ofTokens (lex source).tokens = s ∧ s.Ended ∧
    s.tokens = (lex source).tokens ∧ s.errors = [] ∧ s.openTags = [] := by
  obtain ⟨init, span, htokens, hinit⟩ := ended_tokens_lex source
  cases hlist : (lex source).tokens with
  | nil => simp [htokens] at hlist
  | cons t ts =>
    have hended : Stream.Ended { current := t, rest := ts } :=
      ⟨init, _, hlist.symm.trans htokens, rfl, hinit⟩
    exact ⟨_, ofTokens_tokens hended, hended, rfl, rfl, rfl⟩

section Targets

variable {P : Expr → Prop} {span : Span} (hident : ∀ name, P (.ident name span))
  (hint : ∀ n, P (.int n span))
  (hstr : ∀ s, P (.str s span)) (hfield : ∀ base name, P base → P (.field base name span))
  (hindex : ∀ base place, P base → P place → P (.index base place span))
include hident hint hstr hfield hindex

theorem relocate_induct {e e' : Expr} (h : relocate span e = some e') : P e' := by
  cases e with
  | ident name _ =>
    cases h
    exact hident name
  | int n _ =>
    cases h
    exact hint n
  | str text _ =>
    cases h
    exact hstr text
  | field base name _ =>
    obtain ⟨base', hbase, h⟩ := Option.bind_eq_some_iff.mp h
    cases h
    exact hfield base' name (relocate_induct hbase)
  | index base place _ =>
    obtain ⟨base', hbase, h⟩ := Option.bind_eq_some_iff.mp h
    obtain ⟨place', hplace, h⟩ := Option.bind_eq_some_iff.mp h
    cases h
    exact hindex base' place' (relocate_induct hbase) (relocate_induct hplace)
  | _ => cases h

theorem target?_induct {text : String} {e : Expr} (h : target? text span = some e) : P e := by
  unfold target? at h
  dsimp only at h
  split at h
  · obtain ⟨e', -, h⟩ := Option.bind_eq_some_iff.mp h
    exact relocate_induct hident hint hstr hfield hindex h
  · cases h

end Targets

end TagLang.Grammar
