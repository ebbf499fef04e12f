import TagLang.Grammar.Statement
import TagLang.Proofs.Grammar.Lockstep.Expression

/-! # Statements of two runs -/

namespace TagLang.Grammar

/-! ## Assignment targets -/

/-- All parts of a target take the span of its block. -/
theorem relocate_bare (span : Span) (e : Expr) :
    (relocate span e).map Expr.bare = relocate .nowhere e := by
  cases e with
  | field base name _ =>
    rw [relocate, relocate, ← relocate_bare span base]
    cases relocate span base <;> rfl
  | index base place _ =>
    rw [relocate, relocate, ← relocate_bare span base, ← relocate_bare span place]
    cases relocate span base <;> cases relocate span place <;> rfl
  | _ => rfl

theorem target?_bare (text : String) (span : Span) :
    (target? text span).map Expr.bare = target? text .nowhere := by
  unfold target?
  dsimp only
  split
  · rw [Option.map_bind]
    exact congrArg _ (funext (relocate_bare span))
  · rfl

namespace Lockstep

variable {G F : Fallback} {L : Lockstep} {i : Phase} {k : TokenKind} {n : Nat} {r r' : Rules}
  (hr : L.Follows n r r') (hi : i.bound ≤ n)
include hr hi

/-! ## Statements -/

section Statements

theorem stepsAt_bindStmt :
    L.StepsAt (.tag "B") i.before i (L.Like Stmt.bare) (bindStmt r) (bindStmt r') := by
  refine (stepsAt_first rfl).bind fun a b hab => steps_takeAttrs.bind fun found found' hfound => ?_
  refine (steps_exprOrError hr ‹_›).bind fun e e' he => ?_
  extract_lets span named span' named'
  have hspan : L.Same span span' := fun hx => by
    unfold span span'
    rw [hab.2 hx, he.2 hx]
  have hnamed {ty ty' : Option TypeRef} (hty : L.Like (Option.map TypeRef.bare) ty ty')
      (field : String) {t t' : Token}
      (ht : L.Same t t') : L.Steps i i (L.Like Stmt.bare) (named ty field t) (named' ty' field t') := by
    unfold named named'
    dsimp only
    split
    · exact steps_missing _ _ (ht.map _) ⟨rfl, hspan.map _⟩
    · refine steps_pure ⟨?_, fun hx => by rw [hty.2 hx, he.2 hx, hspan hx]⟩
      simp [Stmt.bare, hty.1, he.1]
  cases hfound with
  | none => exact steps_missing _ _ (hab.2.map _) ⟨rfl, hspan.map _⟩
  | some fields ht =>
    rcases fields with _ | ⟨type, _ | ⟨field, more⟩⟩
    · exact steps_missing _ _ (hab.2.map _) ⟨rfl, hspan.map _⟩
    · exact hnamed (.refl _) type ht
    · refine (steps_typeRef type (ht.map _)).bind fun ty ty' hty => ?_
      exact hnamed hty.some field ht

theorem stepsAt_assignStmt :
    L.StepsAt (.tag "SET") i.before i (L.Like Stmt.bare) (assignStmt r) (assignStmt r') := by
  refine (stepsAt_first rfl).bind fun a b hab => steps_takeAttrs.bind fun found found' hfound => ?_
  extract_lets rest rest'
  have hrest {e e' : Expr} (he : L.Like Expr.bare e e') :
      L.Steps i i (L.Like Stmt.bare) (rest e) (rest' e') := by
    refine (steps_exprOrError hr ‹_›).bind fun v v' hv =>
      steps_pure ⟨?_, fun hx => by rw [he.2 hx, hv.2 hx, hab.2 hx]⟩
    simp [Stmt.bare, he.1, hv.1]
  cases hfound with
  | none => exact (steps_exprOrError hr ‹_›).bind fun _ _ => hrest
  | @some fields t t' ht =>
    have herror : L.Like Expr.bare (.error t.span) (.error t'.span) :=
      ⟨rfl, ht.map fun t => Expr.error t.span⟩
    have htarget : L.Like (Option.map Expr.bare) (target? _ _) (target? _ _) :=
      ⟨(target?_bare _ _).trans (target?_bare (":".intercalate fields) _).symm, ht.map fun t =>
        target? _ t.span⟩
    dsimp only
    obtain ⟨ha, hb⟩ | ⟨e, e', ha, hb, he⟩ := like_option htarget
    · rw [ha, hb]
      dsimp only
      exact (steps_reportAt _ (ht.map _)).bind fun _ _ _ => hrest herror
    · rw [ha, hb]
      exact hrest he

theorem steps_elseIfs : L.Steps i i (L.Like (List.map ElseIf.bare)) (elseIfs r) (@elseIfs G r') := by
  refine (steps_many (R := L.Like ElseIf.bare) fun m hm => turns_peek_bind fun s t hn => ?_).mono
    fun _ _ => like_list
  split
  · next heq =>
    have hm := Nat.le_trans hm hi
    refine turnsFrom_first hn (heq ▸ rfl) fun a b hab => (steps_exprOrError hr ‹_›).bind fun e e' he => ?_
    refine steps_skipArrow.bind fun _ _ _ => (hr.block ‹_›).bind fun body body' hbody => ?_
    refine steps_pure (.found ⟨?_, fun hx => by rw [he.2 hx, hbody.2 hx, hab.2 hx]⟩)
    simp [ElseIf.bare, he.1, hbody.1]
  · exact turnsFrom_done hn trivial

theorem steps_clauseBlock {tag : String} (hk : isLoose (.tag tag) = true) (mayPoint : Bool) :
    L.Steps i i (L.Like (Option.map (List.map Stmt.bare))) (clauseBlock r tag mayPoint)
      (clauseBlock r' tag mayPoint) := by
  refine steps_peek_bind fun k => ?_
  split
  · next heq =>
    refine (stepsAt_take (heq ▸ hk)).bind fun _ _ _ => ?_
    have hblock : L.Steps i i (L.Like (Option.map (List.map Stmt.bare))) (do return some (← r.block))
        (do return some (← r'.block)) :=
      (hr.block ‹_›).bind fun _ _ hl => steps_pure hl.some
    dsimp only
    split
    · exact steps_skipArrow.bind fun _ _ _ => hblock
    · exact hblock
  · exact stepsAt_pure (.refl _)

theorem stepsAt_branchStmt :
    L.StepsAt (.tag "IF") i.before i (L.Like Stmt.bare) (branchStmt r) (@branchStmt G r') := by
  refine stepsAt_opening (fun fields head head' hhead => ?_) (by decide) (L.inner_body (by decide))
  dsimp only
  refine (steps_exprOrError hr ‹_›).bind fun e e' he => steps_skipArrow.bind fun _ _ _ =>
    steps_withOpen ?_
  refine (hr.block ‹_›).bind fun body body' hbody =>
    (steps_elseIfs hr ‹_›).bind fun others others' hothers => ?_
  refine (steps_clauseBlock hr ‹_› rfl _).bind fun last last' hlast => ?_
  refine (steps_expectClose hhead (by decide) (L.inner_body (by decide))).bind fun stop stop' hstop => ?_
  refine steps_pure ⟨?_, fun hx => ?_⟩
  · simp [Stmt.bare, he.1, hbody.1, hothers.1, hlast.1]
  · rw [he.2 hx, hbody.2 hx, hothers.2 hx, hlast.2 hx, hhead hx, hstop hx]

theorem stepsAt_countStmt :
    L.StepsAt (.tag "L") i.before i (L.Like Stmt.bare) (countStmt r) (countStmt r') := by
  refine stepsAt_opening (fun fields head head' hhead => ?_) (by decide) (L.inner_body (by decide))
  dsimp only
  refine (steps_requiredField _ _ _ _ hhead).bind fun var _ hvar => ?_
  subst hvar
  refine (steps_exprOrError hr ‹_›).bind fun first first' hfirst =>
    (steps_exprOrError hr ‹_›).bind fun last last' hlast => ?_
  refine steps_peek_bind fun k => ?_
  have hrest {step step' : Option Expr} (hstep : L.Like (Option.map Expr.bare) step step') :
      L.Steps (i.enter "L" (fields.headD "")) i (L.Like Stmt.bare)
        (withOpen "L" do
          let body ← r.block
          let stop ← expectClose "L" "loop" (fields.headD "") head
          return .count (fields.headD "") var first last step body (head.merge stop))
        (withOpen "L" do
          let body ← r'.block
          let stop ← expectClose "L" "loop" (fields.headD "") head'
          return .count (fields.headD "") var first' last' step' body (head'.merge stop)) := by
    refine steps_withOpen ((hr.block ‹_›).bind fun body body' hbody => ?_)
    refine (steps_expectClose hhead (by decide) (L.inner_body (by decide))).bind
      fun stop stop' hstop => ?_
    refine steps_pure ⟨?_, fun hx => ?_⟩
    · simp [Stmt.bare, hfirst.1, hlast.1, hstep.1, hbody.1]
    · rw [hfirst.2 hx, hlast.2 hx, hstep.2 hx, hbody.2 hx, hhead hx, hstop hx]
  split
  · have hsome : L.Steps (i.enter "L" (fields.headD "")) (i.enter "L" (fields.headD ""))
        (L.Like (Option.map Expr.bare)) (some <$> r.exprOrError) (some <$> r'.exprOrError) :=
      (steps_exprOrError hr ‹_›).map fun e e' => Like.some
    exact (hsome.bind fun _ _ => hrest).at
  · exact (hrest (.refl _)).at

theorem stepsAt_eachStmt :
    L.StepsAt (.tag "EACH") i.before i (L.Like Stmt.bare) (eachStmt r) (eachStmt r') := by
  refine stepsAt_opening (fun fields head head' hhead => ?_) (by decide) (L.inner_body (by decide))
  dsimp only
  refine (steps_requiredField _ _ _ _ hhead).bind fun var _ hvar => ?_
  subst hvar
  refine (steps_exprOrError hr ‹_›).bind fun e e' he =>
    steps_withOpen ((hr.block ‹_›).bind fun body body' hbody => ?_)
  refine (steps_expectClose hhead (by decide) (L.inner_body (by decide))).bind fun stop stop' hstop => ?_
  refine steps_pure ⟨?_, fun hx => by rw [he.2 hx, hbody.2 hx, hhead hx, hstop hx]⟩
  simp [Stmt.bare, he.1, hbody.1]

theorem stepsAt_loopStmt :
    L.StepsAt (.tag "WH") i.before i (L.Like Stmt.bare) (loopStmt r) (loopStmt r') := by
  refine stepsAt_opening (fun fields head head' hhead => ?_) (by decide) (L.inner_body (by decide))
  dsimp only
  refine (steps_exprOrError hr ‹_›).bind fun e e' he =>
    steps_withOpen ((hr.block ‹_›).bind fun body body' hbody => ?_)
  refine (steps_expectClose hhead (by decide) (L.inner_body (by decide))).bind fun stop stop' hstop => ?_
  refine steps_pure ⟨?_, fun hx => by rw [he.2 hx, hbody.2 hx, hhead hx, hstop hx]⟩
  simp [Stmt.bare, he.1, hbody.1]

theorem steps_catches : L.Steps i i (L.Like (List.map Catch.bare)) (catches r) (@catches G r') := by
  refine (steps_many (R := L.Like Catch.bare) fun m hm => turns_peek_bind fun s t hn => ?_).mono
    fun _ _ => like_list
  split
  · next heq =>
    have hm := Nat.le_trans hm hi
    refine turnsFrom_first hn (heq ▸ rfl) fun a b hab =>
      steps_takeAttrs.bind fun found found' hfound => ?_
    extract_lets rest rest'
    have hrest {ty ty' : Option TypeRef} (var : Option String)
        (hty : L.Like (Option.map TypeRef.bare) ty ty') :
        L.Steps { i with bound := m } { i with bound := m } (Goes (L.Like Catch.bare)) (rest (ty, var))
          (rest' (ty', var)) := by
      refine (hr.block ‹_›).bind fun body body' hbody => ?_
      refine steps_pure (.found ⟨?_, fun hx => by rw [hty.2 hx, hbody.2 hx, hab.2 hx]⟩)
      simp [Catch.bare, hty.1, hbody.1]
    cases hfound with
    | none => exact hrest none (.refl _)
    | some fields ht =>
      cases fields with
      | nil => exact hrest none (.refl _)
      | cons type fields =>
        exact (steps_typeRef type (ht.map _)).bind fun ty ty' hty => hrest _ hty.some
  · exact turnsFrom_done hn trivial

theorem stepsAt_attemptStmt :
    L.StepsAt (.tag "TR") i.before i (L.Like Stmt.bare) (attemptStmt r) (@attemptStmt G r') := by
  refine stepsAt_opening (fun fields head head' hhead => steps_withOpen ?_) (by decide)
    (L.inner_body (by decide))
  refine (hr.block ‹_›).bind fun body body' hbody => (steps_catches hr ‹_›).bind fun cs cs' hcs => ?_
  refine (steps_clauseBlock hr ‹_› rfl _).bind fun last last' hlast => ?_
  refine (steps_expectClose hhead (by decide) (L.inner_body (by decide))).bind fun stop stop' hstop => ?_
  refine steps_pure ⟨?_, fun hx => ?_⟩
  · simp [Stmt.bare, hbody.1, hcs.1, hlast.1]
  · rw [hbody.2 hx, hcs.2 hx, hlast.2 hx, hhead hx, hstop hx]

theorem stepsAt_retStmt :
    L.StepsAt (.tag "R") i.before i (L.Like Stmt.bare) (retStmt r) (retStmt r') := by
  refine (stepsAt_first rfl).bind fun a b hab => steps_peek_bind fun k => ?_
  split
  · refine ((steps_exprOrError hr ‹_›).bind fun e e' he =>
      steps_pure ⟨?_, fun hx => by rw [hab.2 hx, he.2 hx]⟩).at
    simp [Stmt.bare, he.1]
  · exact stepsAt_pure ⟨rfl, fun hx => by rw [hab.2 hx]⟩

theorem stepsAt_raiseStmt :
    L.StepsAt (.tag "TH") i.before i (L.Like Stmt.bare) (raiseStmt r) (raiseStmt r') := by
  refine (stepsAt_first rfl).bind fun a b hab => (steps_exprOrError hr ‹_›).bind fun e e' he => ?_
  refine steps_pure ⟨?_, fun hx => by rw [hab.2 hx, he.2 hx]⟩
  simp [Stmt.bare, he.1]

omit hr hi in
theorem stepsAt_strayStmt (hclose : ∀ name, k ≠ .closeTag name) (heof : k ≠ .eof) :
    L.StepsAt k i.before i (L.Like Stmt.bare) strayStmt strayStmt := by
  intro s t hn hk
  have hspan : L.Same s.current.span t.current.span := hn.current.2.map _
  exact stepsAt_recover hclose heof _ (steps_pure ⟨rfl, hspan.map Stmt.error⟩) hn hk

theorem stepsAt_stmt (tag : String) :
    L.StepsAt (.tag tag) i.before i (L.Like Stmt.bare) (stmt r tag) (@stmt G r' tag) := by
  unfold stmt
  split
  · exact stepsAt_bindStmt hr hi
  · exact stepsAt_assignStmt hr hi
  · exact stepsAt_branchStmt hr hi
  · exact stepsAt_countStmt hr hi
  · exact stepsAt_eachStmt hr hi
  · exact stepsAt_loopStmt hr hi
  · refine (stepsAt_matching hr hi false).map fun m m' hm => ⟨?_, hm.2.map _⟩
    simp [Stmt.bare, hm.1]
  · exact stepsAt_attemptStmt hr hi
  · exact stepsAt_retStmt hr hi
  · exact stepsAt_raiseStmt hr hi
  · refine (stepsAt_call hr hi).bind fun c d hcd => steps_pure ⟨?_, fun hx => by rw [hcd.2 hx]⟩
    obtain ⟨htarget, hargs⟩ := Prod.mk.inj hcd.1
    simp [Stmt.bare, htarget, hargs]
  · exact stepsAt_strayStmt (by simp) (by simp)

end Statements

/-! ## Blocks -/

section Blocks

variable {s t : Stream}

def BlockEnds (s : Stream) : Prop :=
  match s.kind with
  | .eof => True
  | .closeTag name => s.isOpen name = true
  | .tag name => s.isOpenClause name = true
  | _ => False

omit hi in
theorem runs_blockRule (hi : i.bound ≤ n + 1) (hn : L.Near i s t) :
    L.Runs s t i (L.Like (List.map Stmt.bare)) (blockRule r) (@blockRule G r') ∧
      BlockEnds ((blockRule r).run s).2 := by
  unfold blockRule
  refine (turns_many (E := BlockEnds) (R := L.Like Stmt.bare) (fun m hm => ?_) hn).imp_left fun h =>
    ⟨like_list h.1, h.2⟩
  have hm' : m ≤ n := by omega
  refine turns_get_bind fun s t hn => ?_
  rw [← hn.kind]
  simp only [hn.isOpen, hn.isOpenClause]
  generalize hk : s.kind = k
  split
  · exact turnsFrom_done hn (by simp [BlockEnds, hk])
  · next name =>
    split
    · next hopen => exact turnsFrom_done hn (by simp [BlockEnds, hk, hopen])
    · next hopen => exact turnsFrom_stray hn hk hopen
  · next name =>
    split
    · next hopen => exact turnsFrom_done hn (by simp [BlockEnds, hk, hopen])
    · exact turnsFrom_found hn hk (stepsAt_stmt hr hm' name)
  · next heof hclose _ => exact turnsFrom_found hn hk (stepsAt_strayStmt hclose heof)

omit hr hi in
theorem follows_rules (n : Nat) : L.Follows n (rules n) (@rules G n) := by
  induction n with
  | zero =>
    refine ⟨fun hi => absurd hi (Nat.not_lt_zero _), fun hi _ _ hn => ?_⟩
    exact absurd (Nat.lt_of_lt_of_le hn.bound hi) (Nat.not_lt_zero _)
  | succ n ih =>
    exact ⟨fun hi => takes_exprRule ih (Nat.le_of_lt_succ hi), fun hi _ _ hn =>
      (runs_blockRule ih hi hn).1⟩

end Blocks

end Lockstep

end TagLang.Grammar
