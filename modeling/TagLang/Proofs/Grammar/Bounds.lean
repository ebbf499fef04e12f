import TagLang.Proofs.Grammar.Consume
import TagLang.Proofs.Grammar.Nesting

/-! # The bounds of loops and rules

Every loop of the grammar has a bound for its rounds and every recursive rule one for its depth,
taken from the number of tokens left. What happens when a bound is used up is a parameter of the
grammar. A round that goes on and a rule that enters itself take a token first, so a bound is never
used up and the parameter has no influence on any run.
-/

namespace TagLang.Grammar

variable {F G : Fallback} {ts : List Token} {s : Stream}

/-! ## Runs over the same tokens -/

/-- The stream is at some place of a list of tokens, the last of which ends the input. -/
def Stream.Along (ts : List Token) (s : Stream) : Prop := s.Terminated ∧ s.Within ts

theorem Stream.Along.advance (h : s.Along ts) : s.advance.Along ts := ⟨h.1.advance, h.2.advance⟩

theorem steady_along (ts : List Token) : Steady (Alone (Stream.Along ts)) :=
  steady_alone (fun _ h => h.advance) fun _ _ h => h

/-- Two runs over the same tokens are at the same place after every step of the grammar. -/
def twins (ts : List Token) : Lockstep :=
  .ofSteady (steady_along ts) (fun h => by rw [h.1]; exact ⟨rfl, rfl⟩) (fun h hk => h.2.1.more hk)
    fun tags h => ⟨congrArg (Stream.withOpenTags · tags) h.1, h.2⟩

theorem near_twins (h : s.Along ts) :
    (twins ts).Near (Phase.before ⟨[], s.openTags, s.rest.length⟩) s s :=
  ⟨⟨rfl, h⟩, rfl, trivial, Nat.lt_succ_self _⟩

theorem Lockstep.Outcome.eq {L : Lockstep} {α β : Type} {bare : α → β} {a b : Except ParseError α}
    (h : L.Outcome (L.Like bare) a b) (hexact : L.exact) : a = b := by
  cases h with
  | ok hab => rw [hab.2 hexact]
  | error he => rw [he hexact]

theorem twins_expr (h : s.Along ts) :
    (@expr F).run.run s = (@expr G).run.run s ∧ ((@expr F).run.run s).2.Along ts := by
  have hrules : (twins ts).Follows (s.rest.length + 1) (@rules F _) (@rules G _) :=
    Lockstep.follows_rules _
  have hrun := hrules.tries (Nat.le_refl _) (near_twins h)
  rw [run_expr, run_expr]
  obtain ⟨hstream, halong⟩ := hrun.2.rel
  exact ⟨Prod.ext (hrun.1.eq trivial) hstream, halong⟩

theorem follows_targetRules (L : Lockstep) (n : Nat) :
    L.Follows n (@targetRules F n) (@targetRules G n) := by
  induction n with
  | zero =>
    exact ⟨fun hi => absurd hi (Nat.not_lt_zero _), fun _ => Lockstep.steps_pure ⟨rfl, fun _ => rfl⟩⟩
  | succ n ih =>
    exact ⟨fun hi => Lockstep.takes_exprRule ih (Nat.le_of_lt_succ hi), fun _ =>
      Lockstep.steps_pure ⟨rfl, fun _ => rfl⟩⟩

theorem twins_moduleBody (h : s.Along ts) (hkind : s.kind = .tag "M") (htags : s.openTags = []) :
    (@moduleBody F).run s = (@moduleBody G).run s ∧ ((@moduleBody F).run s).2.Along ts := by
  have hrun := Lockstep.stepsAt_moduleBody (F := F) (G := G) (fun _ _ => trivial) trivial htags
    (near_twins h) hkind
  obtain ⟨hstream, halong⟩ := hrun.2.rel
  exact ⟨Prod.ext (hrun.1.2 trivial) hstream, halong⟩

theorem twins_module (h : s.Along ts) (htags : s.openTags = []) :
    (@module F).run s = (@module G).run s ∧ ((@module F).run s).2.Along ts := by
  by_cases hkind : s.kind = .tag "M"
  · obtain ⟨hsame, halong⟩ := twins_moduleBody (F := F) (G := G) h hkind htags
    rw [run_module hkind, run_module hkind, hsame]
    exact ⟨rfl, hsame ▸ halong⟩
  · have hheader : s.atHeader.Along ts ∧ s.atHeader.openTags = [] :=
      keeps_skipUntil (P := fun s => s.Along ts ∧ s.openTags = [])
        (fun s h => ⟨h.1.advance, (openTags_advance s).trans h.2⟩) _ _ ⟨h, htags⟩
    rw [run_module_other hkind, run_module_other hkind]
    split
    · exact ⟨rfl, hheader.1⟩
    · next heof =>
      obtain ⟨hsame, halong⟩ :=
        twins_moduleBody (F := F) (G := G) hheader.1 (kind_atHeader hheader.1.1 heof) hheader.2
      rw [hsame]
      exact ⟨rfl, hsame ▸ halong⟩

/-! ## Any list of tokens -/

theorem terminated_ofTokens (tokens : List Token) : (Stream.ofTokens tokens).Terminated := by
  unfold Stream.ofTokens
  dsimp only
  split
  · exact ⟨[], _, rfl, rfl, fun _ _ => trivial⟩
  · next hall =>
    split at hall
    · next hlast =>
      obtain ⟨init, rfl⟩ := List.getLast?_eq_some_iff.mp hlast
      exact ⟨init, _, hall.symm, rfl, fun _ _ => trivial⟩
    · exact ⟨tokens, _, hall.symm, rfl, fun _ _ => trivial⟩
    · exact ⟨[], _, hall.symm, rfl, fun _ _ => trivial⟩

theorem along_ofTokens (tokens : List Token) :
    (Stream.ofTokens tokens).Along (Stream.ofTokens tokens).tokens :=
  ⟨terminated_ofTokens tokens, List.suffix_rfl⟩

/-- The bounds suffice for the texts of targets, too. -/
theorem targetExpr?_eq (tokens : List Token) : @targetExpr? F tokens = @targetExpr? G tokens := by
  have hrules := follows_targetRules (F := F) (G := G) (twins (Stream.ofTokens tokens).tokens)
    ((Stream.ofTokens tokens).rest.length + 1)
  have hrun := hrules.tries (Nat.le_refl _) (near_twins (along_ofTokens tokens))
  have hsame : (@targetRules F _).expr.run.run (.ofTokens tokens) =
      (@targetRules G _).expr.run.run (.ofTokens tokens) :=
    Prod.ext (hrun.1.eq trivial) hrun.2.rel.1
  unfold targetExpr?
  dsimp only
  rw [hsame]

/-- No list of tokens makes a loop or a rule use up its bound: whatever it would do then, the result
is the same and so is the stream that is left. That stream is at a token of the list, at the first
one or behind it. -/
theorem bounds_suffice (F G : Fallback) (tokens : List Token) :
    (@module F).run (.ofTokens tokens) = (@module G).run (.ofTokens tokens) ∧
      (@expr F).run.run (.ofTokens tokens) = (@expr G).run.run (.ofTokens tokens) ∧
      ((@module F).run (.ofTokens tokens)).2.tokens <:+ (Stream.ofTokens tokens).tokens ∧
      ((@expr F).run.run (.ofTokens tokens)).2.tokens <:+ (Stream.ofTokens tokens).tokens := by
  have halong := along_ofTokens tokens
  have hmodule := twins_module (F := F) (G := G) halong (ofTokens_fresh tokens).2
  have hexpr := twins_expr (F := F) (G := G) halong
  exact ⟨hmodule.1, hexpr.1, hmodule.2.2, hexpr.2.2⟩

end TagLang.Grammar
