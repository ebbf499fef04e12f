import TagLang.Proofs.Grammar.Lockstep

/-! # Expressions of two runs -/

namespace TagLang.Grammar.Lockstep
open List

variable {G F : Fallback} {L : Lockstep} {i j : Phase} {k : TokenKind} {α α' β β' γ : Type} {n : Nat}

/-! ## Values -/

theorem Same.map {a b : α} (h : L.Same a b) (f : α → β) : L.Same (f a) (f b) :=
  fun he => congrArg f (h he)

theorem Same.map₂ {a a' : α} {b b' : β} (ha : L.Same a a') (hb : L.Same b b') (f : α → β → γ) :
    L.Same (f a b) (f a' b') := fun he => by rw [ha he, hb he]

theorem Like.refl {bare : α → γ} (a : α) : L.Like bare a a := ⟨rfl, fun _ => rfl⟩

theorem Like.some {bare : α → γ} {a b : α} (h : L.Like bare a b) :
    L.Like (Option.map bare) (some a) (some b) :=
  ⟨congrArg Option.some h.1, h.2.map _⟩

theorem like_list {bare : α → γ} {l l' : List α} (h : Forall₂ (L.Like bare) l l') :
    L.Like (map bare) l l' := by
  induction h with
  | nil => exact .refl _
  | cons hab _ ih =>
    refine ⟨?_, hab.2.map₂ ih.2 cons⟩
    rw [map_cons, map_cons, hab.1, ih.1]

theorem Outcome.map {R : α → α' → Prop} {S : β → β' → Prop} {a : Except ParseError α}
    {b : Except ParseError α'} {f : α → β} {g : α' → β'} (h : L.Outcome R a b)
    (hf : ∀ a b, R a b → S (f a) (g b)) : L.Outcome S (a.map f) (b.map g) := by
  cases h with
  | ok hab => exact .ok (hf _ _ hab)
  | error he => exact .error he

theorem Near.isOpen {s t : Stream} (h : L.Near i s t) (name : String) :
    t.isOpen name = s.isOpen name := by
  unfold Stream.isOpen
  rw [L.openTags h.rel]

theorem Near.isOpenClause {s t : Stream} (h : L.Near i s t) (name : String) :
    t.isOpenClause name = s.isOpenClause name := by
  simp only [Stream.isOpenClause, h.isOpen]

/-! ## Attributes -/

section Attributes

variable (L) in
inductive SameAttrs : Option (List String × Token) → Option (List String × Token) → Prop
  | none : SameAttrs none none
  | some (fields : List String) {t t' : Token} : L.Same t t' →
    SameAttrs (some (fields, t)) (some (fields, t'))

theorem steps_takeAttrs : L.Steps i i L.SameAttrs takeAttrs takeAttrs := by
  refine steps_peek_bind fun k => ?_
  split
  · exact (stepsAt_take rfl).bind fun a b hab => steps_pure (.some _ hab.2)
  · exact stepsAt_pure .none

theorem steps_missingAttr {span span' : Span} (tag field : String) (h : L.Same span span') :
    L.Steps i i (fun _ _ => True) (missingAttr tag field span) (missingAttr tag field span') :=
  steps_reportAt _ h

theorem steps_missing {span span' : Span} {R : α → β → Prop} {a : α} {b : β} (tag field : String)
    (h : L.Same span span') (hab : R a b) :
    L.Steps i i R (missingAttr tag field span >>= fun _ => pure a)
      (missingAttr tag field span' >>= fun _ => pure b) :=
  (steps_missingAttr tag field h).bind fun _ _ _ => steps_pure hab

theorem steps_requiredField {span span' : Span} (fields : List String) (n : Nat) (tag name : String)
    (h : L.Same span span') :
    L.Steps i i Eq (requiredField fields n tag name span) (requiredField fields n tag name span') := by
  unfold requiredField
  dsimp only
  split
  · exact steps_missing tag name h rfl
  · exact steps_pure rfl

theorem steps_typeRef {span span' : Span} (text : String) (h : L.Same span span') :
    L.Steps i i (L.Like TypeRef.bare) (typeRef text span) (typeRef text span') := by
  unfold typeRef
  split
  · exact steps_pure ⟨rfl, h.map _⟩
  · exact (steps_reportAt _ h).bind fun _ _ _ => steps_pure ⟨rfl, h.map _⟩

theorem steps_modifiers {span span' : Span} (fields : List String) (tag : String)
    (h : L.Same span span') :
    L.Steps i i Eq (modifiers fields tag span) (modifiers fields tag span') := by
  unfold modifiers
  generalize (Visibility.isPrivate, false) = start
  generalize ((fields.drop 2).filter (!·.isEmpty)) = words
  induction words generalizing start with
  | nil => exact steps_pure rfl
  | cons word words ih =>
    rw [foldlM_cons, foldlM_cons]
    refine Steps.bind (j := i) (R := Eq) ?_ fun a b hab => by
      subst hab
      exact ih a
    dsimp only
    split
    · exact steps_pure rfl
    · split
      · exact steps_pure rfl
      · exact (steps_reportAt _ h).bind fun _ _ _ => steps_pure rfl

end Attributes

theorem takesAt_leaf {bare : β → γ} {span span' : Span} (leaf : Span → β)
    (hspan : L.Same span span') (hk : isLoose k = true := by rfl)
    (hbare : ∀ s s', bare (leaf s) = bare (leaf s') := by exact fun _ _ => rfl) :
    L.TakesAt k i (L.Like bare) (do let _ ← take; return leaf span)
      (do let _ ← take; return leaf span') :=
  (takesAt_first hk).bind fun _ _ _ => tries_pure ⟨hbare _ _, hspan.map _⟩

/-! ## Patterns -/

section Patterns

variable {args args' : Option (List Pattern)}

theorem outcome_singleArg {span span' : Span} (name : String)
    (hargs : L.Like (Option.map (map Pattern.bare)) args args') (hspan : L.Same span span') :
    L.Outcome (L.Like Pattern.bare) (singleArg name args span) (singleArg name args' span') := by
  obtain ⟨hbare, hsame⟩ := hargs
  rcases args with _ | _ | ⟨p, _ | ⟨q, ps⟩⟩ <;> rcases args' with _ | _ | ⟨p', _ | ⟨q', ps'⟩⟩ <;>
    simp at hbare
  · exact .ok ⟨rfl, hspan.map _⟩
  · exact .error (hspan.map _)
  · exact .ok ⟨hbare, fun he => by injection hsame he with h; injection h⟩
  · refine .error fun he => ?_
    rw [hspan he, Option.some.inj (hsame he)]

theorem namedPattern_eq (owner : Option String) (name : String) (args : Option (List Pattern))
    (span : Span) : namedPattern owner name args span =
      if owner = none ∧ name = "Some" then (singleArg name args span).map (.someOf · span)
      else if owner = none ∧ name = "Ok" then (singleArg name args span).map (.okOf · span)
      else if owner = none ∧ name = "Err" then (singleArg name args span).map (.errOf · span)
      else if owner = none ∧ name = "None" ∧ args.isNone then .ok (.noneOf span)
      else if owner = none ∧ args.isNone then .ok (.binding name span)
      else .ok (.variant owner name (args.getD []) span) := by
  unfold namedPattern
  split <;> simp_all
  grind

theorem outcome_namedPattern {span span' : Span} (owner : Option String) (name : String)
    (hargs : L.Like (Option.map (map Pattern.bare)) args args') (hspan : L.Same span span') :
    L.Outcome (L.Like Pattern.bare) (namedPattern owner name args span)
      (namedPattern owner name args' span') := by
  have hwrap (wrap : Pattern → Span → Pattern)
      (hbare : ∀ p p' s s', p.bare = p'.bare → (wrap p s).bare = (wrap p' s').bare) :
      L.Outcome (L.Like Pattern.bare) ((singleArg name args span).map (wrap · span))
        ((singleArg name args' span').map (wrap · span')) :=
    (outcome_singleArg name hargs hspan).map fun p q hpq => ⟨hbare _ _ _ _ hpq.1, hpq.2.map₂ hspan wrap⟩
  have hnone : args.isNone = args'.isNone := by
    rw [← Option.isNone_map, hargs.1, Option.isNone_map]
  rw [namedPattern_eq, namedPattern_eq, hnone]
  split
  · exact hwrap .someOf (by simp +contextual [Pattern.bare])
  split
  · exact hwrap .okOf (by simp +contextual [Pattern.bare])
  split
  · exact hwrap .errOf (by simp +contextual [Pattern.bare])
  split
  · exact .ok ⟨rfl, hspan.map _⟩
  split
  · exact .ok ⟨rfl, hspan.map _⟩
  · refine .ok ⟨?_, fun he => by rw [hargs.2 he, hspan he]⟩
    have hlists : (args.getD []).map Pattern.bare = (args'.getD []).map Pattern.bare := by
      have hgetD (a : Option (List Pattern)) :
          (a.getD []).map Pattern.bare = (a.map (map Pattern.bare)).getD [] := by
        cases a <;> rfl
      rw [hgetD, hargs.1, hgetD]
    simp [Pattern.bare, hlists]

theorem tries_pathTail : L.Tries i (Forall₂ (L.Like Prod.fst)) pathTail (@pathTail G) := by
  refine tries_tryMany fun m hm => takesOr_peek_bind fun s t hn => ?_
  split
  · next heq =>
    refine .inl ((takesAt_first (heq ▸ rfl)).bind
      (fun _ _ _ => tries_expectIdent.bind fun a b hab => ?_) hn rfl)
    exact tries_pure (.found hab)
  · exact takesFrom_done hn

theorem tries_patternArgs {p q : TryParser Pattern}
    (h : ∀ m < i.bound, L.Takes { i with bound := m } (L.Like Pattern.bare) p q) :
    L.Tries i (L.Like fun a => a.1.map Pattern.bare) (patternArgs p) (@patternArgs G q) := by
  refine (tries_expect rfl _).bind fun a b hab => ?_
  refine tries_peek_bind fun k => ?_
  extract_lets rest rest'
  have hrest {first first' : List Pattern} (hfirst : Forall₂ (L.Like Pattern.bare) first first') :
      L.Tries i (L.Like fun a => a.1.map Pattern.bare) (rest first) (rest' first') := by
    unfold rest rest'
    extract_lets close close'
    have hclose {others others' : List Pattern} (hothers : Forall₂ (L.Like Pattern.bare) others others') :
        L.Tries i (L.Like fun a => a.1.map Pattern.bare) (close others) (close' others') := by
      refine (tries_expect rfl _).bind fun c d hcd => tries_pure ⟨?_, fun he => ?_⟩
      · dsimp only
        rw [map_append, map_append, (like_list hfirst).1, (like_list hothers).1]
      · rw [(like_list hfirst).2 he, (like_list hothers).2 he, hab.2 he, hcd.2 he]
    have hempty : first.isEmpty = first'.isEmpty := by
      cases hfirst <;> rfl
    rw [hempty]
    split
    · exact hclose .nil
    · refine Tries.bind (tries_tryMany fun m hm => takesOr_peek_bind fun s t hn => ?_) fun _ _ => hclose
      split
      · exact takesFrom_done hn
      · exact takesFrom_done hn
      · have hpattern : L.Tries { i with bound := m } (L.Like Pattern.bare) p q :=
          tries_of_takes fun l hl => h l (Nat.lt_trans hl hm)
        exact (takes_expect rfl _).bind
          (fun _ _ _ => hpattern.bind fun _ _ hpq => tries_pure (.found hpq)) hn
  split
  · exact (hrest .nil).at
  · exact (hrest .nil).at
  · exact ((tries_of_takes h).bind fun _ _ hpq => hrest (.cons hpq .nil)).at

theorem takes_pattern (hi : i.bound < n) :
    L.Takes i (L.Like Pattern.bare) (pattern n) (@pattern G n) := by
  induction n generalizing i with
  | zero => exact absurd hi (Nat.not_lt_zero _)
  | succ n ih =>
    have hinner (m : Nat) (hm : m < i.bound) :
        L.Takes { i with bound := m } (L.Like Pattern.bare) (pattern n) (@pattern G n) :=
      ih (Nat.lt_of_lt_of_le hm (Nat.le_of_lt_succ hi))
    have hnested {k : TokenKind} (wrap : Pattern → Span → Pattern) {span span' : Span}
        (hspan : L.Same span span')
        (hwrap : ∀ p p' s s', p.bare = p'.bare → (wrap p s).bare = (wrap p' s').bare)
        (hk : isLoose k = true) :
        L.TakesAt k i (L.Like Pattern.bare)
          (do let _ ← take; let inner ← pattern n; return wrap inner (span.merge inner.span))
          (do let _ ← take; let inner ← @pattern G n; return wrap inner (span'.merge inner.span)) := by
      refine (takesAt_first hk).bind fun _ _ _ => (tries_of_takes hinner).bind fun p q hpq =>
        tries_pure ⟨?_, fun he => ?_⟩
      · exact hwrap _ _ _ _ hpq.1
      · rw [hspan he, hpq.2 he]
    rw [pattern, @pattern.eq_2 G]
    refine takesOr_get_bind fun s t hn => ?_
    have hspan : L.Same s.current.span t.current.span := hn.current.2.map _
    have hkind : s.current.kind = t.current.kind := hn.kind
    dsimp only
    rw [← hkind]
    generalize hk : s.current.kind = k
    split
    case h_3 | h_5 | h_6 | h_7 => exact .inl ((takesAt_leaf (Pattern.literal _) hspan) hn hk)
    · exact .inl ((takesAt_leaf Pattern.wildcard hspan) hn hk)
    · next name _ =>
      refine .inl (TryRuns.bind (takesAt_first rfl hn hk) fun _ _ _ => ?_)
      refine tries_pathTail.bind fun tail tail' htail => ?_
      have hnames : tail.map (fun x => x.1) = tail'.map (fun x => x.1) := (like_list htail).1
      have hmerged := hspan.map₂ (like_list htail).2 fun span tail =>
        ((name, span) :: tail).foldl (fun s x => s.merge x.2) span
      simp only [map_cons, hnames]
      refine tries_peek_bind fun k => ?_
      split
      · refine ((tries_patternArgs hinner).bind fun a b hab => ?_).at
        refine tries_mk
          (outcome_namedPattern _ _ ⟨congrArg some hab.1, hab.2.map fun a => some a.1⟩ fun he => ?_)
        dsimp only
        rw [hmerged he, hab.2 he]
      · exact (tries_mk (outcome_namedPattern _ _ (.refl _) hmerged)).at
    · refine takesFrom_peekNext_bind hn (by simp [Stream.kind, hk]) ?_
      split
      · next hnext =>
        refine .inl (tryRuns_takeTwo hn (by simp [Stream.kind, hk, isLoose])
          (by simp [hnext, isLoose]) fun a b hab => ?_)
        exact tries_pure ⟨rfl, fun he => by rw [hspan he, hab.2 he]⟩
      · exact .inr (tries_giveUp _ hn)
    · exact .inl (hnested .someOf hspan (by simp +contextual [Pattern.bare]) rfl hn hk)
    · exact .inl (hnested .okOf hspan (by simp +contextual [Pattern.bare]) rfl hn hk)
    · exact .inl (hnested .errOf hspan (by simp +contextual [Pattern.bare]) rfl hn hk)
    · exact .inl ((takesAt_leaf Pattern.noneOf hspan) hn hk)
    · exact .inr (tries_giveUp _ hn)

end Patterns

variable (L) in
/-- The parsers for what stands inside go through the same steps, if there are few tokens left. -/
structure Follows (n : Nat) (r r' : Rules) : Prop where
  expr {i : Phase} (hi : i.bound < n) : L.Takes i (L.Like Expr.bare) r.expr r'.expr
  block {i : Phase} (hi : i.bound ≤ n) : L.Steps i i (L.Like (map Stmt.bare)) r.block r'.block

section Parts

variable {r r' : Rules} (hr : L.Follows n r r') (hi : i.bound ≤ n) {opened opened' : Span}
  {es es' : List Expr} {span span' : Span}
include hr hi

theorem Follows.tries : L.Tries i (L.Like Expr.bare) r.expr r'.expr :=
  tries_of_takes fun _ hm => hr.expr (Nat.lt_of_lt_of_le hm hi)

theorem steps_exprOrError : L.Steps i i (L.Like Expr.bare) r.exprOrError r'.exprOrError := by
  refine steps_here.bind fun span span' hspan => ?_
  refine Steps.bind (hr.tries hi) fun a b hab => ?_
  cases hab with
  | ok h => exact steps_pure h
  | error h =>
    refine (steps_report h).bind fun _ _ _ => steps_skipToTag.bind fun _ _ _ => steps_pure ⟨rfl, ?_⟩
    exact hspan.map _

/-! ## Calls and objects -/

theorem steps_args : L.Steps i i (L.Like (map Expr.bare)) (args r) (@args G r') := by
  refine (steps_many (R := L.Like Expr.bare) fun m hm => turns_peek_bind fun s t hn => ?_).mono
    fun _ _ => like_list
  split
  · next heq =>
    have hm := Nat.le_trans hm hi
    refine turnsFrom_first hn (heq ▸ rfl) fun _ _ _ => (steps_exprOrError hr hm).bind fun e e' he => ?_
    exact steps_pure (.found he)
  · exact turnsFrom_done hn trivial

theorem steps_argsOpen {tag : String} {construct : String} (hspan : L.Same span span')
    (hmem : tag ∈ callTags) (hinner : L.inner tag) :
    L.Steps (i.enter tag "") i (L.Like fun a => a.1.map Expr.bare)
      (withOpen tag do
        let args ← args r
        return (args, ← expectSimpleClose tag construct span))
      (withOpen tag do
        let args ← @args G r'
        return (args, ← expectSimpleClose tag construct span')) := by
  refine steps_withOpen ?_
  refine (steps_args hr ‹_›).bind fun args args' hargs => ?_
  refine (steps_expectSimpleClose hmem hinner hspan).bind fun stop stop' hstop => steps_pure ⟨hargs.1, ?_⟩
  exact hargs.2.map₂ hstop _

theorem stepsAt_call :
    L.StepsAt (.tag "C") i.before i (L.Like fun c => (c.1, c.2.1.map Expr.bare)) (call r)
      (@call G r') := by
  refine (stepsAt_openingCall (by decide) (L.inner_body (by decide))).bind fun a b hab => ?_
  have hstart : L.Same a.span b.span := hab.2.map _
  refine steps_takeAttrs.bind fun found found' hfound => ?_
  extract_lets rest rest'
  have hrest (target : String) :
      L.Steps (i.enter "C" "") i (L.Like fun c => (c.1, c.2.1.map Expr.bare)) (rest target)
        (rest' target) := by
    refine (steps_argsOpen hr hi hstart (by decide) (L.inner_body (by decide))).bind fun c d hcd => ?_
    refine steps_pure ⟨congrArg (target, ·) hcd.1, fun he => ?_⟩
    rw [hstart he, hcd.2 he]
  cases hfound with
  | none => exact (steps_missingAttr _ _ hstart).bind fun _ _ _ => hrest _
  | some fields =>
    dsimp only
    split
    · exact (steps_missingAttr _ _ hstart).bind fun _ _ _ => hrest _
    · exact hrest _

theorem stepsAt_create :
    L.StepsAt (.tag "NEW") i.before i (L.Like Expr.bare) (create r) (@create G r') := by
  refine (stepsAt_openingCall (by decide) (L.inner_body (by decide))).bind fun a b hab => ?_
  extract_lets start missing rest start' missing' rest'
  have hstart : L.Same start start' := hab.2.map Token.span
  refine steps_takeAttrs.bind fun found found' hfound => ?_
  have hrest {ty ty' : TypeRef} (hty : L.Like TypeRef.bare ty ty') :
      L.Steps (i.enter "NEW" "") i (L.Like Expr.bare) (rest ty) (rest' ty') := by
    refine (steps_argsOpen hr hi hstart (by decide) (L.inner_body (by decide))).bind fun c d hcd => ?_
    refine steps_pure ⟨?_, fun he => by rw [hstart he, hcd.2 he, hty.2 he]⟩
    simp [Expr.bare, hty.1, hcd.1]
  have hmissing : L.Steps (i.enter "NEW" "") i (L.Like Expr.bare) (missing >>= rest)
      (missing' >>= rest') := by
    have hty : L.Steps (i.enter "NEW" "") (i.enter "NEW" "") (L.Like TypeRef.bare) missing missing' :=
      steps_missing _ _ hstart ⟨rfl, hstart.map _⟩
    exact hty.bind fun _ _ => hrest
  cases hfound with
  | none => exact hmissing
  | some fields hattrs =>
    dsimp only
    split
    · exact hmissing
    · exact (steps_typeRef _ (hattrs.map _)).bind fun _ _ => hrest

/-! ## Lambdas -/

omit hr hi in
theorem like_option {bare : α → γ} {a b : Option α} (h : L.Like (Option.map bare) a b) :
    (a = none ∧ b = none) ∨ ∃ x y, a = some x ∧ b = some y ∧ L.Like bare x y := by
  cases a with
  | none =>
    cases b with
    | none => exact .inl ⟨rfl, rfl⟩
    | some y => cases h.1
  | some x =>
    cases b with
    | none => cases h.1
    | some y => exact .inr ⟨x, y, rfl, rfl, Option.some.inj h.1, fun he => Option.some.inj (h.2 he)⟩

omit hr hi in
theorem stepsAt_param : L.StepsAt (.tag "I") i.before i (L.Like (Option.map Param.bare)) param param := by
  refine (stepsAt_first rfl).bind fun a b hab => steps_takeAttrs.bind fun found found' hfound => ?_
  cases hfound with
  | none => exact steps_missing _ _ (hab.2.map _) (.refl _)
  | some fields hattrs =>
    dsimp only
    split
    · exact steps_missing _ _ (hattrs.map _) (.refl _)
    · refine (steps_typeRef _ (hattrs.map _)).bind fun ty ty' hty => steps_pure ⟨?_, fun he => ?_⟩
      · simp [Param.bare, hty.1]
      · rw [hty.2 he, hab.2 he, hattrs he]

omit hr hi in
theorem steps_params : L.Steps i i (L.Like (map Param.bare)) params (@params G) := by
  refine (steps_many (R := L.Like Param.bare) fun m hm => turns_peek_bind fun s t hn => ?_).mono
    fun _ _ => like_list
  split
  · next heq =>
    refine .inl (stepsAt_param.bind (fun a b hab => ?_) hn heq)
    obtain ⟨rfl, rfl⟩ | ⟨p, q, rfl, rfl, hpq⟩ := like_option hab
    · exact steps_pure .skip
    · exact steps_pure (.found hpq)
  · exact turnsFrom_done hn trivial

theorem stepsAt_lambda :
    L.StepsAt (.tag "LAM") i.before i (L.Like Expr.bare) (lambda r) (@lambda G r') := by
  refine stepsAt_opening (fun fields head head' hhead => ?_) (by decide) (L.inner_body (by decide))
  dsimp only
  refine steps_params.bind fun ps ps' hps => ?_
  refine Steps.bind (R := L.Like fun a => a.1.map Stmt.bare) (steps_withOpen ?_) fun a b hab => ?_
  · refine steps_peek_bind fun k => ?_
    have hclose {body body' : List Stmt} (hbody : L.Like (map Stmt.bare) body body') :
        L.Steps ((i.push "LAM").enter "LAM" (fields.headD "")) (i.push "LAM")
          (L.Like fun a => a.1.map Stmt.bare)
          (do return (body, ← expectClose "LAM" "lambda" (fields.headD "") head))
          (do return (body', ← expectClose "LAM" "lambda" (fields.headD "") head')) := by
      refine (steps_expectClose hhead (by decide) (L.inner_body (by decide))).bind
        fun stop stop' hstop => ?_
      exact steps_pure ⟨hbody.1, hbody.2.map₂ hstop _⟩
    split
    · refine ((steps_exprOrError hr ‹_›).bind fun e e' he => hclose ⟨?_, fun hx => by rw [he.2 hx]⟩).at
      simp [Stmt.bare, he.1]
    · exact ((hr.block ‹_›).bind fun _ _ => hclose).at
  · refine steps_pure ⟨?_, fun he => by rw [hhead he, hps.2 he, hab.2 he]⟩
    simp [Expr.bare, hps.1, hab.1]

/-! ## Matches -/

omit hr hi in
theorem steps_patternOrNone :
    L.Steps i i (L.Like (Option.map Pattern.bare)) patternOrNone (@patternOrNone G) := by
  refine steps_get_bind fun s t hn => ?_
  rw [← L.length hn.rel]
  have hpattern : L.Tries { i with bound := s.rest.length + 1 } (L.Like Pattern.bare)
      (pattern (s.rest.length + 1))
      (@pattern G (s.rest.length + 1)) := tries_of_takes fun _ hm => takes_pattern hm
  refine Runs.bind (Runs.loosen hn (hpattern hn.tight)) fun a b hab => ?_
  cases hab with
  | ok h => exact steps_pure h.some
  | error h =>
    refine (steps_report h).bind fun _ _ _ => ?_
    refine Steps.bind (R := fun _ _ => True)
      (steps_modify fun _ _ hn => hn.skipUntil fun kind hkind => ?_) fun _ _ _ =>
      steps_pure (.refl _)
    rw [Bool.or_eq_false_iff] at hkind
    exact isLoose_of_not_tagLike hkind.2

theorem stepsAt_arm (isExpression : Bool) :
    L.StepsAt (.tag "K") i.before i (L.Like (Option.map Arm.bare)) (arm r isExpression)
      (@arm G r' isExpression) := by
  refine (stepsAt_first rfl).bind fun a b hab => steps_patternOrNone.bind fun p p' hp => ?_
  refine steps_peek_bind fun k => ?_
  extract_lets rest rest'
  have hrest {guard guard' : Option Expr} (hguard : L.Like (Option.map Expr.bare) guard guard') :
      L.Steps i i (L.Like (Option.map Arm.bare)) (rest guard) (rest' guard') := by
    refine steps_skipArrow.bind fun _ _ _ => ?_
    extract_lets last last'
    have hlast {body body' : ArmBody} (hbody : L.Like ArmBody.bare body body') :
        L.Steps i i (L.Like (Option.map Arm.bare)) (last body) (last' body') := by
      refine steps_pure ⟨?_, fun he => by rw [hp.2 he, hguard.2 he, hbody.2 he, hab.2 he]⟩
      obtain ⟨rfl, rfl⟩ | ⟨q, q', rfl, rfl, hq⟩ := like_option hp
      · rfl
      · simp [Arm.bare, hq.1, hguard.1, hbody.1]
    split
    · refine Steps.bind ((steps_exprOrError hr hi).map fun e e' he => ⟨?_, he.2.map _⟩) fun _ _ => hlast
      simp [ArmBody.bare, he.1]
    · refine Steps.bind ((hr.block hi).map fun l l' hl => ⟨?_, hl.2.map _⟩) fun _ _ => hlast
      simp [ArmBody.bare, hl.1]
  split
  · next heq =>
    refine (stepsAt_take (heq ▸ rfl)).bind fun _ _ _ => (steps_exprOrError hr hi).bind fun e e' he => ?_
    exact hrest he.some
  · exact (hrest (.refl _)).at

theorem steps_arms (isExpression : Bool) :
    L.Steps i i (L.Like (map Arm.bare)) (arms r isExpression) (@arms G r' isExpression) := by
  refine (steps_many (R := L.Like Arm.bare) fun m hm => turns_get_bind fun s t hn => ?_).mono
    fun _ _ => like_list
  extract_lets stray
  have hstray (hclose : ∀ name, s.kind ≠ .closeTag name) (heof : s.kind ≠ .eof) :
      L.TurnsFrom (fun _ => True) s t { i with bound := m } (L.Like Arm.bare) stray stray :=
    .inl (stepsAt_recover hclose heof _ (steps_pure .skip) hn rfl)
  rw [← hn.kind]
  simp only [hn.isOpenClause]
  generalize hk : s.kind = k at hstray
  split
  · have hm := Nat.le_trans hm hi
    refine .inl ((stepsAt_arm hr hm isExpression).bind (fun a b hab => ?_) hn hk)
    obtain ⟨rfl, rfl⟩ | ⟨p, q, rfl, rfl, hpq⟩ := like_option hab
    · exact steps_pure .skip
    · exact steps_pure (.found hpq)
  · exact turnsFrom_done hn trivial
  · exact turnsFrom_done hn trivial
  · split
    · exact turnsFrom_done hn trivial
    · exact hstray (by simp) (by simp)
  · next heof hclose _ => exact hstray hclose heof

theorem stepsAt_matching (isExpression : Bool) :
    L.StepsAt (.tag "W") i.before i (L.Like Match.bare) (matching r isExpression)
      (@matching G r' isExpression) := by
  refine stepsAt_opening (fun fields head head' hhead => ?_) (by decide) (L.inner_body (by decide))
  dsimp only
  refine (steps_exprOrError hr ‹_›).bind fun e e' he => ?_
  refine Steps.bind (R := L.Like fun a => a.1.map Arm.bare) (steps_withOpen ?_) fun a b hab => ?_
  · refine (steps_arms hr ‹_› isExpression).bind fun as as' has => ?_
    refine (steps_expectClose hhead (by decide) (L.inner_body (by decide))).bind
      fun stop stop' hstop => ?_
    exact steps_pure ⟨has.1, has.2.map₂ hstop _⟩
  · refine steps_pure ⟨?_, fun hx => by rw [hhead hx, he.2 hx, hab.2 hx]⟩
    simp [Match.bare, he.1, hab.1]

/-! ## Parentheses -/

omit hr hi in
theorem like_widen {outer outer' : Span} {e e' : Expr} (houter : L.Same outer outer')
    (he : L.Like Expr.bare e e') : L.Like Expr.bare (widen outer e) (widen outer' e') := by
  refine ⟨?_, houter.map₂ he.2 widen⟩
  rw [bare_widen, bare_widen, he.1]

omit hr hi in
theorem like_joinLeft (op : BinOp) {l l' e e' : Expr} (hl : L.Like Expr.bare l l')
    (he : L.Like Expr.bare e e') : L.Like Expr.bare (joinLeft op l e) (joinLeft op l' e') := by
  refine ⟨?_, hl.2.map₂ he.2 (joinLeft op)⟩
  simp [joinLeft, Expr.bare, hl.1, he.1]

omit hr hi in
theorem like_foldl_joinLeft (op : BinOp) {l l' : Expr} (hl : L.Like Expr.bare l l')
    (hes : Forall₂ (L.Like Expr.bare) es es') :
    L.Like Expr.bare (es.foldl (joinLeft op) l) (es'.foldl (joinLeft op) l') := by
  induction hes generalizing l l' with
  | nil => exact hl
  | cons he _ ih => exact ih (like_joinLeft op hl he)

def applyBinary (wrong : String → Nat → Except ParseError Expr) (es : List Expr) (span : Span) :
    Option BinOp → Except ParseError Expr
  | none => wrong "an operator" 0
  | some o =>
    if o.isComparison || o = .implies then
      match es with
      | [l, r] => .ok (.binary l o r span)
      | es => wrong "exactly two operands" es.length
    else
      match es with
      | l :: r :: es => .ok (widen span (es.foldl (joinLeft o) (joinLeft o l r)))
      | es => wrong "at least two operands" es.length

omit hr hi in
theorem outcome_applyBinary {wrong wrong' : String → Nat → Except ParseError Expr}
    (hspan : L.Same span span')
    (hwrong : ∀ {n n'}, n = n' → ∀ expected, L.Outcome (L.Like Expr.bare) (wrong expected n)
      (wrong' expected n'))
    (op? : Option BinOp) (hes : Forall₂ (L.Like Expr.bare) es es') :
    L.Outcome (L.Like Expr.bare) (applyBinary wrong es span op?) (applyBinary wrong' es' span' op?) := by
  have hlength := hes.length_eq
  cases op? with
  | none => exact hwrong rfl _
  | some o =>
    dsimp only [applyBinary]
    split
    · rcases hes with _ | ⟨hl, _ | ⟨he, _ | ⟨_, _⟩⟩⟩
      · exact hwrong rfl _
      · exact hwrong rfl _
      · refine .ok ⟨?_, fun hx => by rw [hl.2 hx, he.2 hx, hspan hx]⟩
        simp [Expr.bare, hl.1, he.1]
      · exact hwrong hlength _
    · rcases hes with _ | ⟨hl, _ | ⟨he, hmore⟩⟩
      · exact hwrong rfl _
      · exact hwrong rfl _
      · exact .ok (like_widen hspan (like_foldl_joinLeft o (like_joinLeft o hl he) hmore))

omit hr hi in
theorem outcome_applyLeading {op op' : Token} (hop : L.Like Token.kind op op')
    (hes : Forall₂ (L.Like Expr.bare) es es') (hspan : L.Same span span') :
    L.Outcome (L.Like Expr.bare) (applyLeading op es span) (applyLeading op' es' span') := by
  unfold applyLeading
  extract_lets wrong wrong'
  have hwrong {n n' : Nat} (h : n = n') (expected : String) :
      L.Outcome (L.Like Expr.bare) (wrong expected n) (wrong' expected n') :=
    .error fun he => by rw [h, hop.2 he, hspan he]
  have hunary (op : UnaryOp) {e e' : Expr} (he : L.Like Expr.bare e e') :
      L.Outcome (L.Like Expr.bare) (.ok (.unary op e span)) (.ok (.unary op e' span')) := by
    refine .ok ⟨?_, fun hx => by rw [he.2 hx, hspan hx]⟩
    simp [Expr.bare, he.1]
  have hlength := hes.length_eq
  rw [← hop.1]
  generalize op.kind = k
  have hother := outcome_applyBinary hspan hwrong (binOp? k) hes
  cases k with
  | bang | tilde =>
    rcases hes with _ | ⟨he, _ | ⟨_, _⟩⟩
    · exact hwrong rfl _
    · exact hunary _ he
    · exact hwrong hlength _
  | minus =>
    rcases hes with _ | ⟨he, _ | ⟨_, _⟩⟩
    · exact hother
    · exact hunary _ he
    · exact hother
  | question =>
    rcases hes with _ | ⟨hc, _ | ⟨ha, _ | ⟨hb, _ | ⟨_, _⟩⟩⟩⟩
    · exact hwrong rfl _
    · exact hwrong rfl _
    · exact hwrong rfl _
    · refine .ok ⟨?_, fun hx => by rw [hc.2 hx, ha.2 hx, hb.2 hx, hspan hx]⟩
      simp [Expr.bare, hc.1, ha.1, hb.1]
    · exact hwrong hlength _
  | _ => exact hother

theorem triesAt_leadingGroup (hopened : L.Same opened opened') (hk : isLoose k = true) :
    L.TriesAt k i (L.Like Expr.bare) (leadingGroup r opened) (@leadingGroup G r' opened') := by
  refine (triesAt_lift (stepsAt_take hk)).bind fun a b hab => ?_
  refine Tries.bind (R := Forall₂ (L.Like Expr.bare)) (tries_tryMany fun m hm => ?_) fun es es' hes => ?_
  · refine takesOr_peek_bind fun s t hn => ?_
    split
    · exact takesFrom_done hn
    · exact takesFrom_done hn
    · exact (hr.expr (Nat.lt_of_lt_of_le hm hi)).bind (fun _ _ he => tries_pure (.found he)) hn
  · refine (tries_expect rfl _).bind fun c d hcd => tries_mk (outcome_applyLeading hab hes ?_)
    exact hopened.map₂ (hcd.2.map _) Span.merge

omit hi in
theorem takes_operand {fuel : Nat} (hi : i.bound < n) (hfuel : i.bound < fuel) :
    L.Takes i (L.Like Expr.bare) (operand r fuel) (@operand G r' fuel) := by
  induction fuel generalizing i with
  | zero => exact absurd hfuel (Nat.not_lt_zero _)
  | succ fuel ih =>
    rw [operand, @operand.eq_2 G]
    refine takesOr_peek_bind fun s t hn => ?_
    by_cases hclose : ∃ name, s.kind = .closeTag name
    · obtain ⟨name, hname⟩ := hclose
      rw [hname]
      exact hr.expr hi hn
    · refine takesFrom_peekNext_bind hn (not_exists.mp hclose) ?_
      split
      · next op hop =>
        have hloose : isLoose s.kind = true := by
          generalize s.kind = k at hop
          cases k <;> first | rfl | cases hop
        have hrest : L.Tries i (L.Like Expr.bare) (operand r fuel) (@operand G r' fuel) :=
          tries_of_takes fun m hm => ih (Nat.lt_trans hm hi)
            (Nat.lt_of_lt_of_le hm (Nat.le_of_lt_succ hfuel))
        refine .inl ((takesAt_first hloose).bind (fun a b hab => hrest.bind fun e e' he => ?_) hn rfl)
        refine tries_pure ⟨?_, fun hx => by rw [hab.2 hx, he.2 hx]⟩
        simp [Expr.bare, he.1]
      · exact hr.expr hi hn

omit hr hi in
theorem isLoose_of_binOp {op : BinOp} (h : binOp? k = some op) : isLoose k = true := by
  cases k <;> first | rfl | cases h

omit hr hi in
theorem isLoose_of_leadsGroup (h : leadsGroup k = true) : isLoose k = true := by
  cases k <;> first | rfl | cases h

omit hr hi in
theorem isLoose_of_quantifierKind {next : TokenKind} {kind : QuantifierKind}
    (h : quantifierKind? k next = some kind) : isLoose k = true := by
  unfold quantifierKind? at h
  split at h
  · rfl
  · rfl
  · cases h

omit hi in
theorem takes_infixes (fuel : Nat) :
    (∀ {i : Phase} (level : Nat), i.bound < n → i.bound + 2 ≤ fuel →
        L.Takes i (L.Like Expr.bare) (infixFrom r fuel level) (@infixFrom G r' fuel level)) ∧
      ∀ {i : Phase} (level : Nat) (l l' : Expr), i.bound ≤ n → i.bound + 1 ≤ fuel →
        L.Like Expr.bare l l' →
        L.Tries i (L.Like Expr.bare) (infixRest r fuel level l) (@infixRest G r' fuel level l') := by
  induction fuel with
  | zero => exact ⟨by omega, by omega⟩
  | succ fuel ih =>
    constructor
    · intro i level hi hfuel
      rw [infixFrom, @infixFrom.eq_2 G]
      exact (takes_operand hr hi (by omega)).bind fun l l' => ih.2 level l l' (Nat.le_of_lt hi) (by omega)
    · intro i level l l' hi hfuel hl
      rw [infixRest, @infixRest.eq_2 G]
      refine tries_of_takesOr (Q := L.Like Expr.bare) (fun _ _ h => h) fun m hm =>
        takesOr_peek_bind fun s t hn => ?_
      split
      · next op hop =>
        split
        · exact .inr (tries_pure hl hn)
        · refine .inl ((takesAt_first (isLoose_of_binOp hop)).bind (fun _ _ _ => ?_) hn rfl)
          have hright (level : Nat) : L.Tries { i with bound := m } (L.Like Expr.bare)
              (infixFrom r fuel level) (@infixFrom G r' fuel level) := by
            refine tries_of_takes fun l (hl : l < m) => ih.1 level ?_ ?_
            · exact (by omega : l < n)
            · exact (by omega : l + 2 ≤ fuel)
          exact (hright _).bind fun e e' he =>
            ih.2 level _ _ (by omega : m ≤ n) (by omega : m + 1 ≤ fuel) (like_joinLeft op hl he)
      · exact .inr (tries_pure hl hn)

theorem tries_infixGroup (hopened : L.Same opened opened') :
    L.Tries i (L.Like Expr.bare) (infixGroup r opened) (@infixGroup G r' opened') := by
  refine tries_get_bind fun s t hn => ?_
  rw [← L.length hn.rel]
  have hbetween : L.Tries { i with bound := s.rest.length + 1 } (L.Like Expr.bare)
      (infixFrom r (s.rest.length + 2) 0)
      (@infixFrom G r' (s.rest.length + 2) 0) := tries_of_takes fun m hm =>
    (takes_infixes hr _).1 0 (Nat.lt_of_lt_of_le hm (Nat.le_trans hn.bound hi)) (Nat.succ_le_succ hm)
  refine TryRuns.bind (Runs.loosen hn (hbetween hn.tight)) fun e e' he =>
    (tries_expect rfl _).bind fun c d hcd => ?_
  exact tries_pure (like_widen (hopened.map₂ (hcd.2.map _) Span.merge) he)

omit hr hi in
theorem takesAt_boundVar : L.TakesAt .lParen i (L.Like fun v => (v.1, v.2.bare)) boundVar boundVar := by
  refine (takesAt_first rfl).bind fun _ _ _ => tries_expectIdent.bind fun name name' hname => ?_
  refine tries_peek_bind fun k => ?_
  split
  · refine (triesAt_lift (stepsAt_take rfl)).bind fun a b hab => ?_
    refine (tries_lift (steps_typeRef _ (hab.2.map _))).bind fun ty ty' hty => ?_
    refine (tries_expect rfl _).bind fun _ _ _ => tries_pure ⟨?_, fun he => ?_⟩
    · simp [hname.1, hty.1]
    · rw [hname.2 he, hty.2 he]
  · exact (tries_giveUp _).at

theorem triesAt_quantifier (hopened : L.Same opened opened') (kind : QuantifierKind)
    (hk : isLoose k = true) :
    L.TriesAt k i (L.Like Expr.bare) (quantifier r opened kind) (@quantifier G r' opened' kind) := by
  refine (triesAt_lift (stepsAt_take hk)).bind fun _ _ _ => (tries_expect rfl _).bind fun _ _ _ => ?_
  refine Tries.bind (R := Forall₂ (L.Like fun v => (v.1, v.2.bare))) (tries_tryMany fun m hm => ?_)
    fun vars vars' hvars => ?_
  · refine takesOr_peek_bind fun s t hn => ?_
    split
    · next heq => exact .inl (takesAt_boundVar.bind (fun _ _ hv => tries_pure (.found hv)) hn heq)
    · exact takesFrom_done hn
  · refine (tries_expect rfl _).bind fun _ _ _ => (hr.tries hi).bind fun e e' he => ?_
    refine (tries_expect rfl _).bind fun c d hcd => tries_pure ⟨?_, fun hx => ?_⟩
    · simp [Expr.bare, he.1, (like_list hvars).1]
    · rw [(like_list hvars).2 hx, he.2 hx, hcd.2 hx, hopened hx]

theorem takesAt_group : L.TakesAt .lParen i (L.Like Expr.bare) (group r) (@group G r') := by
  refine (takesAt_first rfl).bind fun a b hab => ?_
  have hopened : L.Same a.span b.span := hab.2.map _
  refine tries_get_bind fun s t hn => ?_
  have hquantifier : quantifierKind? s.kind t.nextKind = quantifierKind? s.kind s.nextKind := by
    by_cases hclose : ∃ name, s.kind = .closeTag name
    · obtain ⟨name, hname⟩ := hclose
      rw [hname]
      rfl
    · rw [L.nextKind hn.rel (not_exists.mp hclose)]
  rw [← hn.kind, hquantifier]
  split
  · next kind hkind =>
    exact triesAt_quantifier hr hi hopened kind (isLoose_of_quantifierKind hkind) hn rfl
  · split
    · next hsign =>
      have hloose : isLoose s.kind = true := by
        simp only [Bool.or_eq_true, decide_eq_true_eq, or_assoc] at hsign
        obtain h | h | h := hsign <;> rw [h] <;> rfl
      refine tryRuns_tryCatch (triesAt_leadingGroup hr hi hopened hloose hn rfl) fun e e' he => ?_
      refine (tries_lift (steps_set hn)).bind fun _ _ _ => ?_
      intro s' t' hn'
      exact tryRuns_tryCatch (tries_infixGroup hr hi hopened hn') fun _ _ _ => tries_throw he
    · split
      · next hleads =>
        exact triesAt_leadingGroup hr hi hopened (isLoose_of_leadsGroup hleads) hn rfl
      · exact tries_infixGroup hr hi hopened hn

/-! ## The whole -/

theorem tries_postfixes {fuel : Nat} (hfuel : i.bound ≤ fuel) {e e' : Expr} (he : L.Like Expr.bare e e') :
    L.Tries i (L.Like Expr.bare) (postfixes r fuel e) (@postfixes G r' fuel e') := by
  induction fuel generalizing i e e' with
  | zero => exact fun _ _ hn => absurd (Nat.lt_of_lt_of_le hn.bound hfuel) (Nat.not_lt_zero _)
  | succ fuel ih =>
    rw [postfixes, @postfixes.eq_2 G]
    refine tries_of_takesOr (Q := L.Like Expr.bare) (fun _ _ h => h) fun m hm =>
      takesOr_peek_bind fun s t hn => ?_
    have hm' : m ≤ n := by omega
    have hfuel' : m ≤ fuel := by omega
    split
    · next hk =>
      refine .inl ((takesAt_first rfl).bind
        (fun _ _ _ => tries_expectIdent.bind fun name name' hname => ?_) hn hk)
      refine ih hm' hfuel' ⟨?_, fun hx => by rw [hname.2 hx, he.2 hx]⟩
      simp [Expr.bare, he.1, hname.1]
    · next hk =>
      refine .inl ((takesAt_first rfl).bind (fun _ _ _ => (hr.tries hm').bind fun p p' hp => ?_) hn hk)
      refine (tries_expect rfl _).bind fun c d hcd =>
        ih hm' hfuel' ⟨?_, fun hx => by rw [hp.2 hx, he.2 hx, hcd.2 hx]⟩
      simp [Expr.bare, he.1, hp.1]
    · exact .inr (tries_pure he hn)

theorem takesAt_wrapped (wrap : Expr → Span → Expr) (hk : isLoose k = true := by rfl)
    (hwrap : ∀ e e' s s', e.bare = e'.bare →
      (wrap e s).bare = (wrap e' s').bare := by simp +contextual [Expr.bare]) :
    L.TakesAt k i (L.Like Expr.bare) (wrapped r wrap) (wrapped r' wrap) := by
  refine (takesAt_first hk).bind fun a b hab => (hr.tries hi).bind fun e e' he => ?_
  exact tries_pure ⟨hwrap _ _ _ _ he.1, fun hx => by rw [hab.2 hx, he.2 hx]⟩

theorem takes_primary : L.Takes i (L.Like Expr.bare) (primary r) (@primary G r') := by
  refine takesOr_get_bind fun s t hn => ?_
  have hspan : L.Same s.current.span t.current.span := hn.current.2.map _
  dsimp only
  rw [← hn.kind]
  generalize hk : s.kind = k
  split
  · exact .inl ((takesAt_leaf (Expr.int _) hspan) hn hk)
  · exact .inl ((takesAt_leaf (Expr.float _) hspan) hn hk)
  · exact .inl ((takesAt_leaf (Expr.str _) hspan) hn hk)
  · exact .inl ((takesAt_leaf (Expr.bool _) hspan) hn hk)
  · exact .inl ((takesAt_leaf Expr.null hspan) hn hk)
  · exact .inl ((takesAt_leaf (Expr.ident _) hspan) hn hk)
  · rw [← L.nextKind hn.rel (by simp [hk])]
    split
    case h_3 => exact .inr (tries_giveUp _ hn)
    case h_1 hnext | h_2 hnext =>
      refine .inl
        (tryRuns_takeTwo hn (by simp [hk, isLoose]) (by simp [hnext, isLoose]) fun a b hab => ?_)
      exact tries_pure ⟨rfl, fun he => by rw [hspan he, hab.2 he]⟩
  · exact .inl (takesAt_group hr hi hn hk)
  · refine .inl ((takesAt_lift (stepsAt_call hr hi)).bind
      (fun c d hcd => tries_pure ⟨?_, fun he => ?_⟩) hn hk)
    · obtain ⟨htarget, hargs⟩ := Prod.mk.inj hcd.1
      simp [Expr.bare, htarget, hargs]
    · rw [hcd.2 he]
  · exact .inl (takesAt_lift (stepsAt_create hr hi) hn hk)
  · exact .inl ((takesAt_wrapped hr hi .someOf) hn hk)
  · exact .inl ((takesAt_wrapped hr hi .okOf) hn hk)
  · exact .inl ((takesAt_wrapped hr hi .errOf) hn hk)
  · exact .inl ((takesAt_wrapped hr hi .await) hn hk)
  · exact .inl ((takesAt_leaf Expr.noneOf hspan) hn hk)
  · exact .inl (takesAt_lift (stepsAt_lambda hr hi) hn hk)
  · refine .inl ((takesAt_lift (stepsAt_matching hr hi true)).bind
      (fun m m' hm => tries_pure ⟨?_, hm.2.map _⟩) hn hk)
    simp [Expr.bare, hm.1]
  · exact .inr (tries_giveUp _ hn)

theorem takes_exprRule : L.Takes i (L.Like Expr.bare) (exprRule r) (@exprRule G r') := by
  refine (takes_primary hr hi).bind fun e e' he => tries_get_bind fun s t hn => ?_
  rw [← L.length hn.rel]
  exact Runs.loosen hn (tries_postfixes hr (Nat.le_trans hn.bound hi) (Nat.le_refl _) he hn.tight)

end Parts

end TagLang.Grammar.Lockstep
