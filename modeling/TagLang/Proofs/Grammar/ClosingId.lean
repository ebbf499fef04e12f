import TagLang.Proofs.Edit
import TagLang.Proofs.Grammar.Nesting

/-! # A wrong ID in a closing tag

A text that parses without an error is given another ID in one of its closing tags. The parser goes
through both texts in the same steps up to that tag, reports the ID there, and goes on in the same
steps behind it. So the ID is the only error, and the tree is the same. Its fix gives the text back.
-/

namespace TagLang.Grammar
open Lexeme Text List

/-! ## Two runs that meet different IDs -/

/-- The attribute block of a closing tag with another ID than the block in its place in a first
text. -/
structure Swap where
  tag : String
  openId : String
  closeId : String
  fields : List String
  block : Token
  named : tag ∉ callTags
  differs : closeId ≠ openId
  block_kind : block.kind = .attrs (closeId :: fields)

namespace Swap

variable (w : Swap)

def error : ParseError := mismatch w.tag w.openId w.closeId w.block

/-- Tokens of the same kinds, but for the swapped block. -/
inductive Differ : List Token → List Token → Prop
  | here {c c' x : Token} {ts ts' : List Token} : c.kind = .closeTag w.tag →
    c'.kind = .closeTag w.tag → x.kind = .attrs (w.openId :: w.fields) → kinds ts = kinds ts' →
    Differ (c :: x :: ts) (c' :: w.block :: ts')
  | cons {t t' : Token} {ts ts' : List Token} : t.kind = t'.kind → Differ ts ts' →
    Differ (t :: ts) (t' :: ts')

/-- The tokens that are left before or behind the swapped block, with the errors that the second run
has by then. -/
inductive Left : List ParseError → List Token → List Token → Prop
  | ahead {ts ts' : List Token} : w.Differ ts ts' → Left [] ts ts'
  | past {ts ts' : List Token} : kinds ts = kinds ts' → Left [w.error] ts ts'

/-- Two streams that differ in the swapped block and in places. Nothing is said of the second run
once the first has found an error. -/
structure Apart (s t : Stream) : Prop where
  ended : s.Ended
  openTags : s.openTags = t.openTags
  left : ∃ due, w.Left due s.tokens t.tokens ∧ (s.errors = [] → t.errors = due)

structure AtBlock (tag : String) (s t : Stream) : Prop where
  tag_eq : tag = w.tag
  kind : s.advance.kind = .attrs (w.openId :: w.fields)
  current : t.advance.current = w.block
  behind : kinds s.advance.advance.tokens = kinds t.advance.advance.tokens
  errors : s.errors = [] → t.errors = []

variable {w} {due : List ParseError} {t t' : Token} {ts ts' : List Token}

theorem differ_append {as as' : List Token} (h : kinds as = kinds as') (hts : w.Differ ts ts') :
    w.Differ (as ++ ts) (as' ++ ts') := by
  induction as generalizing as' with
  | nil =>
    obtain rfl := map_eq_nil_iff.mp h.symm
    exact hts
  | cons a as ih =>
    cases as' with
    | nil => cases h
    | cons a' as' =>
      obtain ⟨hhead, htail⟩ := cons.inj h
      exact .cons hhead (ih htail)

theorem length_of_kinds (h : kinds ts = kinds ts') : ts.length = ts'.length := by
  have hlength := congrArg List.length h
  rwa [length_map, length_map] at hlength

theorem Differ.length (h : w.Differ ts ts') : ts.length = ts'.length := by
  induction h with
  | here _ _ _ hkinds => simp only [length_cons, length_of_kinds hkinds]
  | cons _ _ ih => simp only [length_cons, ih]

theorem Left.length (h : w.Left due ts ts') : ts.length = ts'.length := by
  cases h with
  | ahead hdiffer => exact hdiffer.length
  | past hkinds => exact length_of_kinds hkinds

theorem Left.head (h : w.Left due (t :: ts) (t' :: ts')) : t.kind = t'.kind := by
  rcases h with (⟨hc, hc', -, -⟩ | ⟨hkind, -⟩) | hkinds
  · rw [hc, hc']
  · exact hkind
  · exact (cons.inj hkinds).1

theorem Left.tail (h : w.Left due (t :: ts) (t' :: ts')) :
    w.Left due ts ts' ∨ due = [] ∧ t.kind = .closeTag w.tag ∧
      ∃ x us us', ts = x :: us ∧ ts' = w.block :: us' ∧ x.kind = .attrs (w.openId :: w.fields) ∧
        kinds us = kinds us' := by
  rcases h with (⟨hc, -, hx, hkinds⟩ | ⟨-, hdiffer⟩) | hkinds
  · exact .inr ⟨rfl, hc, _, _, _, rfl, rfl, hx, hkinds⟩
  · exact .inl (.ahead hdiffer)
  · exact .inl (.past (cons.inj hkinds).2)

theorem Left.at_end (h : w.Left due [t] ts') : due = [w.error] := by
  rcases h with (_ | ⟨_, hnil⟩) | _
  · cases hnil
  · rfl

variable {s t : Stream} {tag : String}

theorem Apart.kind (h : w.Apart s t) : s.kind = t.kind := by
  obtain ⟨due, hleft, -⟩ := h.left
  exact hleft.head

theorem Apart.length (h : w.Apart s t) : s.rest.length = t.rest.length := by
  obtain ⟨due, hleft, -⟩ := h.left
  exact Nat.succ.inj hleft.length

theorem Apart.more (h : w.Apart s t) (hk : s.kind ≠ .eof) : s.rest ≠ [] ∧ t.rest ≠ [] := by
  have hmore := h.ended.more hk
  refine ⟨hmore, fun hnil => hmore (eq_nil_of_length_eq_zero ?_)⟩
  rw [h.length, hnil, length_nil]

theorem Apart.nextKind (h : w.Apart s t) (hk : ∀ tag, s.kind ≠ .closeTag tag) :
    s.nextKind = t.nextKind := by
  obtain ⟨due, hleft, -⟩ := h.left
  have hlength := h.length
  rcases hleft.tail with htail | ⟨-, hc, -⟩
  · unfold Stream.nextKind
    cases hs : s.rest with
    | nil =>
      rw [hs, length_nil] at hlength
      rw [eq_nil_of_length_eq_zero hlength.symm]
      exact h.kind
    | cons a as =>
      cases ht : t.rest with
      | nil => simp [hs, ht] at hlength
      | cons b bs =>
        rw [hs, ht] at htail
        exact htail.head
  · exact absurd hc (hk w.tag)

theorem Apart.withError (h : w.Apart s t) (e e' : ParseError) :
    w.Apart (s.withError e) (t.withError e') := by
  obtain ⟨due, hleft, -⟩ := h.left
  exact ⟨h.ended, h.openTags, due, hleft, fun herrors => absurd herrors (cons_ne_nil _ _)⟩

theorem Apart.withOpenTags (h : w.Apart s t) (tags : List String) :
    w.Apart (s.withOpenTags tags) (t.withOpenTags tags) :=
  ⟨h.ended, rfl, h.left⟩

theorem Apart.step (h : w.Apart s t) (hk : s.kind ≠ .eof) :
    w.Apart s.advance t.advance ∨ ∃ tag, s.kind = .closeTag tag ∧ w.AtBlock tag s t := by
  obtain ⟨due, hleft, herrors⟩ := h.left
  obtain ⟨hs, ht⟩ := h.more hk
  rcases hleft.tail with htail | ⟨rfl, hc, x, us, us', hrest, hrest', hx, hkinds⟩
  · refine .inl ⟨h.ended.advance, ?_, due, ?_, ?_⟩
    · rw [openTags_advance, openTags_advance, h.openTags]
    · rwa [tokens_advance hs, tokens_advance ht]
    · rwa [errors_advance, errors_advance]
  · have hstokens : s.advance.tokens = x :: us := (tokens_advance hs).trans hrest
    have httokens : t.advance.tokens = w.block :: us' := (tokens_advance ht).trans hrest'
    have hcurrent : s.advance.kind = x.kind := congrArg Token.kind (cons.inj hstokens).1
    have hus : s.advance.rest = us := (cons.inj hstokens).2
    have hus' : t.advance.rest = us' := (cons.inj httokens).2
    have hs' : s.advance.rest ≠ [] := h.ended.advance.more
      (by rw [hcurrent, hx]; exact TokenKind.noConfusion)
    have ht' : t.advance.rest ≠ [] := by
      have hlength := length_of_kinds hkinds
      rw [← hus, ← hus'] at hlength
      intro hnil
      rw [hnil, length_nil] at hlength
      exact hs' (eq_nil_of_length_eq_zero hlength)
    refine .inr ⟨w.tag, hc, rfl, hcurrent.trans hx, (cons.inj httokens).1, ?_, herrors⟩
    rw [tokens_advance hs', tokens_advance ht', hus, hus']
    exact hkinds

theorem Apart.advance (h : w.Apart s t) (hk : ∀ tag, s.kind ≠ .closeTag tag) (heof : s.kind ≠ .eof) :
    w.Apart s.advance t.advance := by
  rcases h.step heof with hnext | ⟨tag, htag, -⟩
  · exact hnext
  · exact absurd htag (hk tag)

theorem AtBlock.apart (h : w.AtBlock tag s t) (hs : w.Apart s t) {errors errors' : List ParseError}
    (herrors : errors = [] → errors' = [w.error]) :
    w.Apart { s.advance.advance with errors } { t.advance.advance with errors := errors' } := by
  refine ⟨hs.ended.advance.advance, ?_, _, .past h.behind, herrors⟩
  change s.advance.advance.openTags = t.advance.advance.openTags
  rw [openTags_advance, openTags_advance, openTags_advance, openTags_advance, hs.openTags]

theorem AtBlock.kind' (h : w.AtBlock tag s t) : t.advance.kind = .attrs (w.closeId :: w.fields) :=
  (congrArg Token.kind h.current).trans w.block_kind

theorem Apart.attrs {fields : List String} (h : w.Apart s t) (hk : s.kind = .attrs fields) :
    w.Apart s.advance t.advance :=
  h.advance (by simp [hk]) (by simp [hk])

theorem Apart.takeAttrs (h : w.Apart s t) : w.Apart (takeAttrs.run s).2 (takeAttrs.run t).2 := by
  rcases attrs_or_not s with ⟨fields, hk⟩ | hk
  · rw [run_takeAttrs_some hk, run_takeAttrs_some (h.kind.symm.trans hk)]
    exact h.attrs hk
  · rw [run_takeAttrs_none hk, run_takeAttrs_none (h.kind ▸ hk)]
    exact h

theorem Apart.opens (h : w.Apart s t) (hk : s.kind = .tag tag) : ∃ fields head head',
    ((opening tag).run s).1 = (fields, head) ∧ ((opening tag).run t).1 = (fields, head') ∧
      w.Apart ((opening tag).run s).2 ((opening tag).run t).2 := by
  have hnext : w.Apart s.advance t.advance := h.advance (by simp [hk]) (by simp [hk])
  have hrun (u : Stream) : (opening tag).run u = (structuralAttrs tag u.current.span).run u.advance := rfl
  rw [hrun, hrun]
  rcases attrs_or_not s.advance with ⟨fields, hs⟩ | hs
  · rw [run_structuralAttrs_some _ _ hs, run_structuralAttrs_some _ _ (hnext.kind.symm.trans hs)]
    refine ⟨fields, _, _, rfl, rfl, ?_⟩
    dsimp only
    split
    · exact (hnext.attrs hs).withError _ _
    · exact hnext.attrs hs
  · rw [run_structuralAttrs_none _ _ hs, run_structuralAttrs_none _ _ (hnext.kind ▸ hs)]
    exact ⟨[], _, _, rfl, rfl, hnext.withError _ _⟩

theorem Apart.closes (construct id : String) (span span' : Span) (h : w.Apart s t) :
    w.Apart ((expectClose tag construct id span).run s).2
      ((expectClose tag construct id span').run t).2 := by
  by_cases hk : s.kind = .closeTag tag
  swap
  · rw [run_expectClose_other _ _ _ hk, run_expectClose_other _ _ _ (h.kind ▸ hk)]
    exact h.withError _ _
  have hk' : t.kind = .closeTag tag := h.kind.symm.trans hk
  rcases h.step (by rw [hk]; exact TokenKind.noConfusion) with hnext | ⟨_, htag, hblock⟩
  · rcases attrs_or_not s.advance with ⟨fields, hs⟩ | hs
    · rw [run_expectClose_some _ _ _ hk hs, run_expectClose_some _ _ _ hk' (hnext.kind.symm.trans hs)]
      dsimp only
      split
      · exact (hnext.attrs hs).withError _ _
      · exact hnext.attrs hs
    · rw [run_expectClose_none _ _ _ hk hs, run_expectClose_none _ _ _ hk' (hnext.kind ▸ hs)]
      dsimp only
      split
      · exact hnext
      · exact hnext.withError _ _
  · obtain rfl : tag = w.tag := (TokenKind.closeTag.inj (hk.symm.trans htag)).trans hblock.tag_eq
    by_cases hid : w.openId = id
    · subst hid
      have hs : ((expectClose w.tag construct w.openId span).run s).2 = s.advance.advance := by
        rw [run_expectClose_some _ _ _ hk hblock.kind]
        exact if_neg (not_not.mpr rfl)
      have ht : ((expectClose w.tag construct w.openId span').run t).2 =
          t.advance.advance.withError w.error := by
        rw [run_expectClose_some _ _ _ hk' hblock.kind', hblock.current]
        exact if_pos w.differs
      have hdue (hnone : s.advance.advance.errors = []) : w.error ::
          t.advance.advance.errors = [w.error] := by
        rw [errors_advance, errors_advance] at hnone
        rw [errors_advance, errors_advance, hblock.errors hnone]
      rw [hs, ht]
      exact hblock.apart h hdue
    · -- The first run has met a wrong ID of its own.
      have hs : ((expectClose w.tag construct id span).run s).2 =
          s.advance.advance.withError (mismatch w.tag id w.openId s.advance.current) := by
        rw [run_expectClose_some _ _ _ hk hblock.kind]
        exact if_pos hid
      rw [hs, run_expectClose_some _ _ _ hk' hblock.kind']
      dsimp only
      split <;> exact hblock.apart h fun herrors => absurd herrors (cons_ne_nil _ _)

theorem Apart.closesCall (construct : String) (span span' : Span) (h : w.Apart s t)
    (hmem : tag ∈ callTags) :
    w.Apart ((expectSimpleClose tag construct span).run s).2
      ((expectSimpleClose tag construct span').run t).2 := by
  by_cases hk : s.kind = .closeTag tag
  · have hk' : t.kind = .closeTag tag := h.kind.symm.trans hk
    rw [run_expectSimpleClose _ _ hk, run_expectSimpleClose _ _ hk']
    rcases h.step (by rw [hk]; exact TokenKind.noConfusion) with hnext | ⟨_, htag, hblock⟩
    · exact hnext.takeAttrs
    · obtain rfl : tag = w.tag := (TokenKind.closeTag.inj (hk.symm.trans htag)).trans hblock.tag_eq
      exact absurd hmem w.named
  · rw [run_expectSimpleClose_other _ _ hk, run_expectSimpleClose_other _ _ (h.kind ▸ hk)]
    exact h.withError _ _

theorem run_skipStrayClose (s : Stream) :
    ∃ e, skipStrayClose.run s = ((), (takeAttrs.run (s.advance.withError e)).2) :=
  ⟨_, run_strayAttrs _⟩

theorem Apart.strays (h : w.Apart s t) (hk : s.kind = .closeTag tag) :
    w.Apart (skipStrayClose.run s).2 (skipStrayClose.run t).2 := by
  obtain ⟨e, hs⟩ := run_skipStrayClose s
  obtain ⟨e', ht⟩ := run_skipStrayClose t
  rw [hs, ht]
  rcases h.step (by rw [hk]; exact TokenKind.noConfusion) with hnext | ⟨_, -, hblock⟩
  · exact (hnext.withError e e').takeAttrs
  · rw [run_takeAttrs_some (s := s.advance.withError e) hblock.kind,
      run_takeAttrs_some (s := t.advance.withError e') hblock.kind', advance_withError, advance_withError]
    exact hblock.apart h fun herrors => absurd herrors (cons_ne_nil _ _)

/-- Every step of the grammar keeps two runs together. -/
def swapping (w : Swap) : Lockstep where
  exact := False
  rel _ := w.Apart
  guards _ := True
  inner _ := True
  inner_body _ := trivial
  guards_cons _ _ := trivial
  current h := ⟨h.kind, False.elim⟩
  nextKind h hk := h.nextKind hk
  openTags h := h.openTags
  length h := h.length
  more h hk := (h.more hk).1
  advances h hk := by
    apply h.advance
    · intro tag htag
      rw [htag] at hk
      cases hk
    · intro heof
      rw [heof] at hk
      cases hk
  reports h _ := h.withError _ _
  discards h hk heof _ := (h.withError _ _).advance hk heof
  reopens tags h := h.withOpenTags tags
  strays h _ hk _ := h.strays hk
  opens h _ _ hk := by
    obtain ⟨fields, head, head', hs, ht, hrel⟩ := h.opens hk
    exact ⟨fields, head, head', False.elim, hs, ht, hrel⟩
  closes construct h _ _ _ := ⟨False.elim, h.closes construct _ _ _⟩
  opensCall h _ _ hk := by
    apply h.advance
    · intro name hname
      cases hk.symm.trans hname
    · intro heof
      cases hk.symm.trans heof
  closesCall construct h hmem _ _ := ⟨False.elim, h.closesCall construct _ _ hmem⟩

end Swap

/-! ## Whole texts -/

section Whole

theorem Swap.run_moduleBody {w : Swap} {s t : Stream} (hs : s.Ended) (hkind : s.kind = .tag "M")
    (htags : s.openTags = []) (htags' : t.openTags = []) (hnone : t.errors = [])
    (htokens : w.Differ s.tokens t.tokens) (herrors : (moduleBody.run s).2.errors = []) :
    (moduleBody.run t).2.errors = [w.error] ∧ (moduleBody.run t).1.bare = (moduleBody.run s).1.bare := by
  have hnear : w.swapping.Near (Phase.before ⟨[], [], s.rest.length⟩) s t :=
    ⟨⟨hs, htags.trans htags'.symm, [], .ahead htokens, fun _ => hnone⟩, htags, trivial,
      Nat.lt_succ_self _⟩
  have hruns : w.swapping.Runs s t ⟨[], [], s.rest.length⟩ (w.swapping.Like Module.bare) moduleBody
      moduleBody :=
    Lockstep.stepsAt_moduleBody (fun _ _ => trivial) trivial rfl hnear hkind
  have hlike := hruns.1
  have hbare := hlike.1
  refine ⟨?_, hbare.symm⟩
  have hnear' := hruns.2
  have hapart : w.Apart (moduleBody.run s).2 (moduleBody.run t).2 := hnear'.rel
  obtain ⟨due, hleft, hdue⟩ := hapart.left
  rw [hdue herrors]
  -- At the end of input, no block is ahead.
  rw [Stream.tokens, hapart.ended.rest_eq_nil_iff.mpr (endsInput_moduleBody s herrors)] at hleft
  exact hleft.at_end

theorem parse_eq {source : String} {s : Stream} (hstream : Stream.ofTokens (lex source).tokens = s)
    (hkind : s.kind = .tag "M") :
    parse source =
      ⟨some (moduleBody.run s).1, (lex source).errors, (moduleBody.run s).2.errors.reverse⟩ := by
  rw [parse, hstream, run_module hkind]

theorem Swap.parse {w : Swap} {source mutated : String} (hnone : (TagLang.parse source).errors = [])
    (htokens : w.Differ (lex source).tokens (lex mutated).tokens) :
    (TagLang.parse mutated).errors = [w.error] ∧
      (TagLang.parse mutated).module.map Module.bare = (TagLang.parse source).module.map Module.bare := by
  obtain ⟨s, hs, hended, hstokens, -, htags⟩ := stream_lex source
  obtain ⟨t, ht, -, httokens, hnone', htags'⟩ := stream_lex mutated
  rw [← hstokens, ← httokens] at htokens
  have hherrors : (module.run s).2.errors = [] := by
    rw [← hs]
    exact reverse_eq_nil_iff.mp hnone
  have hkind : s.kind = .tag "M" := by
    by_contra hkind
    exact errors_module hended hkind htags hherrors
  have hkind' : t.kind = .tag "M" := (Left.head (.ahead htokens)).symm.trans hkind
  rw [run_module hkind] at hherrors
  obtain ⟨herrors, hbare⟩ := Swap.run_moduleBody hended hkind htags htags' hnone' htokens hherrors
  rw [parse_eq hs hkind, parse_eq ht hkind', herrors]
  exact ⟨rfl, congrArg some hbare⟩

/-- In a text that parses without an error, the ID of a closing tag stands behind the brace of its
block and some blanks. Another ID in its place is the only error, the tree is the same but for
places, and the fix gives the text back. -/
theorem parse_wrong_closingId {source tag id : String} {fields : List String}
    {pre post : List Token} {c x : Token} (hlex : (parse source).lexErrors = [])
    (hparse : (parse source).errors = []) (htokens : (lex source).tokens = pre ++ c :: x :: post)
    (hc : c.kind = .closeTag tag) (htag : tag ∉ callTags) (hx : x.kind = .attrs (id :: fields)) :
    ∃ before blanks behind, source = textWithId before blanks behind id ∧
      byteCount before = x.span.start ∧
      (∀ b ∈ blanks, isBlank b = true) ∧ ∀ other, IsId other → other ≠ id → ∃ mutated fix span,
        mutated = textWithId before blanks behind other ∧ (parse mutated).lexErrors = [] ∧
        (parse mutated).errors = [⟨.mismatchedId tag id other fix, span⟩] ∧
        (parse mutated).module.map Module.bare = (parse source).module.map Module.bare ∧
          fix.apply mutated = source := by
  obtain ⟨before, blanks, behind, hsource, hstart, hblanks, hreplace⟩ := lex_replace_id hlex htokens hx
  refine ⟨before, blanks, behind, hsource, hstart, hblanks, fun other hother hne => ?_⟩
  obtain ⟨pre', c', x', post', hlex', hid', hpre, hc', hpost⟩ := hreplace other hother
  let w : Swap := ⟨tag, id, other, fields, x', htag, hne, hid'.kind⟩
  have hdiffer : w.Differ (lex source).tokens (lex (textWithId before blanks behind other)).tokens := by
    rw [htokens, hlex']
    exact Swap.differ_append hpre.symm (.here hc (hc'.trans hc) hx hpost.symm)
  obtain ⟨herrors, hbare⟩ := Swap.parse hparse hdiffer
  exact ⟨_, _, _, rfl, congrArg LexOutput.errors hlex', herrors, hbare,
    (hid'.apply_closingId hother hblanks behind id).trans hsource.symm⟩

/-- A function whose closing tag has a blank before its ID. -/
def spacedSource : String := "§M\x7bm:A\x7d §F\x7bf:g\x7d §/F\x7b f\x7d §/M\x7bm\x7d"

set_option maxRecDepth 100000 in
theorem parse_wrong_closingId_spacedSource : (parse spacedSource).errors = [] ∧ ∃ fix span,
    (parse "§M\x7bm:A\x7d §F\x7bf:g\x7d §/F\x7b é\x7d §/M\x7bm\x7d").errors =
      [⟨.mismatchedId "F" "f" "é" fix, span⟩] ∧
      fix.apply "§M\x7bm:A\x7d §F\x7bf:g\x7d §/F\x7b é\x7d §/M\x7bm\x7d" = spacedSource := by
  have hlex : (parse spacedSource).lexErrors = [] := by decide +kernel
  have hparse : (parse spacedSource).errors = [] := by decide +kernel
  have htokens : (lex spacedSource).tokens = (lex spacedSource).tokens.take 4 ++
      ⟨.closeTag "F", "§/F", ⟨18, 22, 1, 17⟩⟩ :: ⟨.attrs ["f"], "\x7b f\x7d", ⟨22, 26, 1, 20⟩⟩ ::
        (lex spacedSource).tokens.drop 6 := by decide +kernel
  have hid : IsId "é" := by
    refine ⟨by decide, by decide, fun a ha => ?_⟩
    obtain rfl : a = 'é' := mem_singleton.mp ha
    decide
  obtain ⟨before, blanks, behind, hsource, hstart, hblanks, hreplace⟩ :=
    parse_wrong_closingId hlex hparse htokens rfl (by decide) rfl
  obtain ⟨mutated, fix, span, hmutated, -, herrors, -, hfix⟩ := hreplace "é" hid (by decide)
  have hcut : Edit.cutAt? 22 spacedSource.toList =
      some ("§M\x7bm:A\x7d §F\x7bf:g\x7d §/F".toList, "\x7b f\x7d §/M\x7bm\x7d".toList) := by
    decide +kernel
  rw [hsource, textWithId_eq, String.toList_ofList, ← show byteCount before = 22 from hstart,
    Edit.cutAt?_append] at hcut
  obtain ⟨rfl, hrest⟩ := Prod.mk.inj (Option.some.inj hcut)
  have hblock : blanks ++ 'f' :: behind = ' ' :: 'f' :: "\x7d §/M\x7bm\x7d".toList := (cons.inj hrest).2
  rcases blanks with _ | ⟨b, _ | ⟨b', blanks⟩⟩
  · exact absurd (cons.inj hblock).1 (by decide)
  · obtain ⟨rfl, hbehind⟩ := cons.inj hblock
    obtain rfl : behind = "\x7d §/M\x7bm\x7d".toList := (cons.inj hbehind).2
    have hsame : mutated = "§M\x7bm:A\x7d §F\x7bf:g\x7d §/F\x7b é\x7d §/M\x7bm\x7d" :=
      hmutated.trans (by decide +kernel)
    rw [hsame] at herrors hfix
    exact ⟨hparse, fix, span, herrors, hfix⟩
  · obtain ⟨-, hbehind⟩ := cons.inj hblock
    obtain ⟨rfl, -⟩ := cons.inj hbehind
    exact absurd (hblanks 'f' (by simp)) (by decide)

end Whole

end TagLang.Grammar
