import TagLang.Proofs.Grammar.Lockstep.Item
import TagLang.Proofs.Grammar.Yield

/-! # Nesting of structures

A text that parses without an error is properly nested: every structure is closed by a tag of its
own name, the structures inside it are closed before, and all but calls and objects repeat their ID
in the closing tag.
-/

namespace TagLang.Grammar
open List

/-! ## Brackets -/

section Brackets

variable {tag : String} {t : Token}

/-- A tag that opens or closes a structure, with its ID. -/
structure Bracket where
  closing : Bool
  tag : String
  id : String
deriving DecidableEq, Repr

def firstAttr : List Token → String
  | ⟨.attrs fields, _, _⟩ :: _ => fields.headD ""
  | _ => ""

/-- The bracket of a tag that is followed by some tokens. Calls and objects have no ID: their first
attribute is a target or a type. -/
def Bracket.ofTag (closing : Bool) (tag : String) (behind : List Token) : Bracket where
  closing
  tag
  id := if callTags.contains tag then "" else firstAttr behind

def brackets : List Token → List Bracket
  | [] => []
  | t :: ts =>
    match t.kind with
    | .tag name => if (namedTags ++
      callTags).contains name then .ofTag false name ts :: brackets ts else brackets ts
    | .closeTag name => if (namedTags ++
      callTags).contains name then .ofTag true name ts :: brackets ts else brackets ts
    | _ => brackets ts

/-- A structure that is not a call or an object has an ID. -/
def Identified (tag id : String) : Prop := tag ∈ callTags ∨ id ≠ ""

inductive Nested : List Bracket → Prop
  | nil : Nested []
  | append {a b : List Bracket} : Nested a → Nested b → Nested (a ++ b)
  | structure {tag id : String} {inner : List Bracket} : Identified tag id → Nested inner →
    Nested (⟨false, tag, id⟩ :: inner ++ [⟨true, tag, id⟩])

/-- Brackets close everything that they open, and the structures of a stack, the innermost first. -/
def Closes : List (String × String) → List Bracket → Prop
  | [], [] => True
  | _ :: _, [] => False
  | σ, ⟨false, tag, id⟩ :: bs => Identified tag id ∧ Closes ((tag, id) :: σ) bs
  | [], ⟨true, _, _⟩ :: _ => False
  | (tag, id) :: σ, ⟨true, tag', id'⟩ :: bs => tag' = tag ∧ id' = id ∧ Closes σ bs

/-- What closes a structure and those around it is nested up to the tag that closes it. -/
theorem Closes.split (n : Nat) : ∀ bs : List Bracket, bs.length ≤ n →
    (Closes [] bs → Nested bs) ∧ ∀ tag id σ, Closes ((tag, id) :: σ) bs →
      ∃ a b, bs = a ++ ⟨true, tag, id⟩ :: b ∧ Nested a ∧ Closes σ b := by
  induction n with
  | zero =>
    intro bs hlength
    obtain rfl := eq_nil_of_length_eq_zero (Nat.le_zero.mp hlength)
    exact ⟨fun _ => .nil, fun _ _ _ h => h.elim⟩
  | succ n ih =>
    intro bs hlength
    cases bs with
    | nil => exact ⟨fun _ => .nil, fun _ _ _ h => h.elim⟩
    | cons b bs =>
      obtain ⟨closing, tag, id⟩ := b
      have hshorter : bs.length ≤ n := Nat.le_of_succ_le_succ hlength
      cases closing with
      | true =>
        refine ⟨fun h => h.elim, fun tag' id' σ h => ?_⟩
        obtain ⟨rfl, rfl, hrest⟩ := h
        exact ⟨[], bs, rfl, .nil, hrest⟩
      | false =>
        -- The structure that opens here ends inside `bs`, and what follows it is shorter still.
        have hfirst {σ : List (String × String)} (h : Closes σ (⟨false, tag, id⟩ :: bs)) :
            ∃ a b, bs = a ++ ⟨true, tag, id⟩ :: b ∧ Nested (⟨false, tag, id⟩ :: a ++ [⟨true, tag, id⟩]) ∧
              b.length ≤ n ∧ Closes σ b := by
          rw [Closes] at h
          obtain ⟨a, b, rfl, ha, hb⟩ := (ih bs hshorter).2 tag id σ h.2
          refine ⟨a, b, rfl, .structure h.1 ha, ?_, hb⟩
          simp only [length_append, length_cons] at hshorter
          omega
        constructor
        · intro h
          obtain ⟨a, b, rfl, ha, hb, hrest⟩ := hfirst h
          have hnested := ha.append ((ih b hb).1 hrest)
          simpa using hnested
        · intro tag' id' σ h
          obtain ⟨a, b, rfl, ha, hb, hrest⟩ := hfirst h
          obtain ⟨c, d, rfl, hc, hd⟩ := (ih b hb).2 tag' id' σ hrest
          exact ⟨_, d, by simp, ha.append hc, hd⟩

theorem nested_of_closes {bs : List Bracket} (h : Closes [] bs) : Nested bs :=
  (Closes.split _ bs (Nat.le_refl _)).1 h

theorem brackets_of_isLoose (ts : List Token) (h : isLoose t.kind = true) :
    brackets (t :: ts) = brackets ts := by
  rw [brackets]
  cases hk : t.kind with
  | tag name =>
    rw [hk] at h
    simp_all [isLoose]
  | closeTag name =>
    rw [hk] at h
    cases h
  | _ => rfl

theorem brackets_eof (h : t.kind = .eof) : brackets [t] = [] := by
  rw [brackets, h]
  rfl

theorem brackets_structural {s : Stream} (closing : Bool) (hs : s.Ended)
    (hk : s.kind = bif closing then .closeTag tag else .tag tag) (h : tag ∈ namedTags ++ callTags) :
    brackets s.tokens = .ofTag closing tag s.advance.tokens :: brackets s.advance.tokens := by
  cases closing
  all_goals
    rw [tokens_advance (hs.more (by simp [hk])), Stream.tokens, brackets, show s.current.kind = _ from hk]
    simp only [cond_true, cond_false, contains_iff_mem.mpr h, if_true]

theorem firstAttr_of_attrs {s : Stream} {fields : List String} (h : s.kind = .attrs fields) :
    firstAttr s.tokens = fields.headD "" := by
  obtain ⟨⟨kind, raw, span⟩, rest, errors, openTags⟩ := s
  cases h
  rfl

theorem firstAttr_of_ne {s : Stream} (h : ∀ fields, s.kind ≠ .attrs fields) :
    firstAttr s.tokens = "" := by
  obtain ⟨⟨kind, raw, span⟩, rest, errors, openTags⟩ := s
  cases kind with
  | attrs fields => exact absurd rfl (h fields)
  | _ => rfl

theorem ofTag_named (closing : Bool) (behind : List Token) (h : tag ∈ namedTags) :
    Bracket.ofTag closing tag behind = ⟨closing, tag, firstAttr behind⟩ := by
  have hcall : ∀ tag ∈ namedTags, callTags.contains tag = false := by decide
  rw [Bracket.ofTag, hcall tag h]
  rfl

theorem ofTag_call (closing : Bool) (behind : List Token) (h : tag ∈ callTags) :
    Bracket.ofTag closing tag behind = ⟨closing, tag, ""⟩ := by
  rw [Bracket.ofTag, contains_iff_mem.mpr h]
  rfl

end Brackets

/-! ## What a run keeps -/

section Invariant

/-- Unless an error was found, the tags that are left decide whether the brackets of the whole run
are closed, as `G` says. -/
structure Pending (G : Prop) (σ : List (String × String)) (s t : Stream) : Prop where
  same : s = t
  ended : s.Ended
  closes : s.errors = [] → Closes σ (brackets s.tokens) → G

variable {G : Prop} {σ : List (String × String)} {s t : Stream} {tag : String}

theorem pending_of_errors (hs : s.Ended) (h : s.errors ≠ []) : Pending G σ s s :=
  ⟨rfl, hs, fun hnil => absurd hnil h⟩

theorem errors_skipStrayClose (s : Stream) : (skipStrayClose.run s).2.errors ≠ [] :=
  (respects_strayAttrs steady_errors.calm).keeps (cons_ne_nil _ _)

theorem Pending.advances (h : Pending G σ s t) (hk : isLoose s.kind = true) :
    Pending G σ s.advance t.advance := by
  obtain ⟨rfl, hended, hcloses⟩ := h
  refine ⟨rfl, hended.advance, fun herrors hrest => hcloses (by rwa [errors_advance] at herrors) ?_⟩
  have hmore : s.rest ≠ [] := hended.more fun heof => by
    rw [heof] at hk
    cases hk
  rw [tokens_advance hmore] at hrest
  rwa [Stream.tokens, brackets_of_isLoose _ hk]

theorem Pending.withError (h : Pending G σ s t) (e : ParseError) :
    Pending G σ (s.withError e) (t.withError e) := by
  obtain ⟨rfl, hended, -⟩ := h
  exact pending_of_errors hended (cons_ne_nil e _)

/-- A tag is passed that opens or closes a structure. -/
theorem Pending.past {σ' : List (String × String)} {b : Bracket} (h : Pending G σ s s)
    (hb : brackets s.tokens = b :: brackets s.advance.tokens)
    (hstep : Closes σ' (brackets s.advance.tokens) → Closes σ (b :: brackets s.advance.tokens)) :
    Pending G σ' s.advance s.advance :=
  ⟨rfl, h.ended.advance, fun herrors hrest =>
    h.closes (by rwa [errors_advance] at herrors) (hb ▸ hstep hrest)⟩

theorem Pending.opens (h : Pending G σ s t) (hmem : tag ∈ namedTags) (hk : s.kind = .tag tag) :
    ∃ fields head head', (True → head = head') ∧ ((opening tag).run s).1 = (fields, head) ∧
      ((opening tag).run t).1 = (fields, head') ∧
      Pending G ((tag, fields.headD "") :: σ) ((opening tag).run s).2 ((opening tag).run t).2 := by
  obtain rfl := h.same
  have hbracket := brackets_structural false h.ended hk (mem_append_left _ hmem)
  refine ⟨_, _, _, fun _ => rfl, rfl, rfl, ?_⟩
  have hrun : (opening tag).run s = (structuralAttrs tag s.current.span).run s.advance := rfl
  rw [hrun]
  rcases attrs_or_not s.advance with ⟨fields, hattrs⟩ | hattrs
  · rw [ofTag_named _ _ hmem, firstAttr_of_attrs hattrs] at hbracket
    rw [run_structuralAttrs_some _ _ hattrs]
    split
    · exact pending_of_errors h.ended.advance.advance (cons_ne_nil _ _)
    · next hid =>
      refine (h.past hbracket fun hrest => ?_).advances (by rw [hattrs]; rfl)
      rw [Closes]
      exact ⟨.inr (by simpa using hid), hrest⟩
  · rw [run_structuralAttrs_none _ _ hattrs]
    exact pending_of_errors h.ended.advance (cons_ne_nil _ _)

theorem Pending.closes_named {tag id : String} (construct : String) (span : Span)
    (h : Pending G ((tag, id) :: σ) s t) (hmem : tag ∈ namedTags) :
    Pending G σ ((expectClose tag construct id span).run s).2
      ((expectClose tag construct id span).run t).2 := by
  obtain rfl := h.same
  by_cases hk : s.kind = .closeTag tag
  · have hbracket := brackets_structural true h.ended hk (mem_append_left _ hmem)
    rw [ofTag_named _ _ hmem] at hbracket
    rcases attrs_or_not s.advance with ⟨fields, hattrs⟩ | hattrs
    · rw [firstAttr_of_attrs hattrs] at hbracket
      rw [run_expectClose_some _ _ _ hk hattrs]
      split
      · exact pending_of_errors h.ended.advance.advance (cons_ne_nil _ _)
      · next hid =>
        have hpast := h.past hbracket fun hrest => ⟨rfl, not_not.mp hid, hrest⟩
        exact hpast.advances (by rw [hattrs]; rfl)
    · rw [firstAttr_of_ne hattrs] at hbracket
      rw [run_expectClose_none _ _ _ hk hattrs]
      split
      · next hid => exact h.past hbracket fun hrest => ⟨rfl, (String.isEmpty_iff.mp hid).symm, hrest⟩
      · exact pending_of_errors h.ended.advance (cons_ne_nil _ _)
  · rw [run_expectClose_other _ _ _ hk]
    exact pending_of_errors h.ended (cons_ne_nil _ _)

theorem Pending.opensCall (h : Pending G σ s t) (hmem : tag ∈ callTags) (hk : s.kind = .tag tag) :
    Pending G ((tag, "") :: σ) s.advance t.advance := by
  obtain rfl := h.same
  have hbracket := brackets_structural false h.ended hk (mem_append_right _ hmem)
  rw [ofTag_call _ _ hmem] at hbracket
  refine h.past hbracket fun hrest => ?_
  rw [Closes]
  exact ⟨.inl hmem, hrest⟩

theorem Pending.closesCall (construct : String) (span : Span) (h : Pending G ((tag, "") :: σ) s t)
    (hmem : tag ∈ callTags) :
    Pending G σ ((expectSimpleClose tag construct span).run s).2
      ((expectSimpleClose tag construct span).run t).2 := by
  obtain rfl := h.same
  by_cases hk : s.kind = .closeTag tag
  · have hbracket := brackets_structural true h.ended hk (mem_append_right _ hmem)
    rw [ofTag_call _ _ hmem] at hbracket
    have hafter : Pending G σ s.advance s.advance := h.past hbracket fun hrest => ⟨rfl, rfl, hrest⟩
    rw [run_expectSimpleClose _ _ hk]
    rcases attrs_or_not s.advance with ⟨fields, hattrs⟩ | hattrs
    · rw [run_takeAttrs_some hattrs]
      exact hafter.advances (by rw [hattrs]; rfl)
    · rw [run_takeAttrs_none hattrs]
      exact hafter
  · rw [run_expectSimpleClose_other _ _ hk]
    exact pending_of_errors h.ended (cons_ne_nil _ _)

/-- Every step of the grammar keeps track of the brackets. -/
def nesting (G : Prop) : Lockstep where
  exact := True
  rel := Pending G
  guards _ := True
  inner _ := True
  inner_body _ := trivial
  guards_cons _ _ := trivial
  current h := by
    obtain rfl := h.same
    exact ⟨rfl, fun _ => rfl⟩
  nextKind h _ := by rw [h.same]
  openTags h := by rw [h.same]
  length h := by rw [h.same]
  more h hk := h.ended.more hk
  advances h hk := h.advances hk
  reports h he := by
    obtain rfl := he trivial
    exact h.withError _
  discards h _ _ he := by
    obtain rfl := he trivial
    obtain ⟨rfl, hended, -⟩ := h
    exact pending_of_errors (Stream.EndsAfter.advance (s := Stream.withError _ _) hended)
      (by simp [Stream.withError])
  reopens tags h := by
    obtain ⟨rfl, hended, hcloses⟩ := h
    exact ⟨rfl, hended, hcloses⟩
  strays h _ _ _ := by
    obtain ⟨rfl, hended, -⟩ := h
    exact pending_of_errors ((respects_skipStrayClose steady_ended).keeps hended)
      (errors_skipStrayClose _)
  opens h hmem _ hk := h.opens hmem hk
  closes construct h hmem _ he := by
    obtain rfl := he trivial
    exact ⟨fun _ => by rw [h.same], h.closes_named construct _ hmem⟩
  opensCall h hmem _ hk := h.opensCall hmem hk
  closesCall construct h hmem _ he := by
    obtain rfl := he trivial
    exact ⟨fun _ => by rw [h.same], h.closesCall construct _ hmem⟩

end Invariant

/-! ## Whole texts -/

section Whole

variable {s : Stream}

/-- A parser that reports an error unless it leaves the end of input. -/
def EndsInput {α : Type} (p : Parser α) : Prop :=
  ∀ s : Stream, (p.run s).2.errors = [] → (p.run s).2.kind = .eof

theorem endsInput_bind {α β : Type} {p : Parser α} {f : α → Parser β} (hf : ∀ a, EndsInput (f a)) :
    EndsInput (p >>= f) := fun _ => hf _ _

theorem endsInput_moduleBody : EndsInput moduleBody := by
  refine endsInput_bind fun header => endsInput_bind fun m => ?_
  intro s
  change ((if s.kind ≠ .eof then reportUnexpected _ >>= fun _ => pure m
    else pure m : Parser Module).run s).2.errors = [] →
    ((if s.kind ≠ .eof then reportUnexpected _ >>= fun _ => pure m else pure m : Parser Module).run
      s).2.kind = .eof
  split
  · exact fun h => absurd h (cons_ne_nil _ _)
  · next heof => exact fun _ => not_not.mp heof

theorem closes_moduleBody {G : Prop} (h : Pending G [] s s) (hkind : s.kind = .tag "M")
    (htags : s.openTags = []) (herrors : (moduleBody.run s).2.errors = []) : G := by
  have hnear : (nesting G).Near (Phase.before ⟨[], [], s.rest.length⟩) s s :=
    ⟨h, htags, trivial, Nat.lt_succ_self _⟩
  have hrun := (Lockstep.stepsAt_moduleBody (F := instFallback) (G := instFallback)
    (fun _ _ => trivial) trivial rfl hnear hkind).2.rel
  apply hrun.closes herrors
  have heof := endsInput_moduleBody s herrors
  rw [Stream.tokens, hrun.ended.rest_eq_nil_iff.mpr heof, brackets_eof heof]
  trivial

/-- Errors stay: a module that is parsed behind an error has one. -/
theorem errors_moduleBody (h : s.errors ≠ []) (hended : s.Ended) (hkind : s.kind = .tag "M")
    (htags : s.openTags = []) : (moduleBody.run s).2.errors ≠ [] :=
  fun herrors => closes_moduleBody (pending_of_errors hended h) hkind htags herrors

def Stream.atHeader (s : Stream) : Stream :=
  (s.withError (s.unexpected "§M module header")).skipUntil fun kind => kind = .eof || kind = .tag "M"

theorem kind_atHeader {Q : Token → Prop} (h : s.atHeader.EndsAfter Q)
    (heof : s.atHeader.kind ≠ .eof) : s.atHeader.kind = .tag "M" := by
  rcases skipUntil_stops (fun kind => kind = .eof || kind = .tag "M") (s.withError _) with hrest | hstop
  · exact absurd hrest (h.more heof)
  · have hkind : s.atHeader.kind = .eof ∨ s.atHeader.kind = .tag "M" := by
      simpa [Stream.atHeader] using hstop
    exact hkind.resolve_left heof

section Run

variable {F : Fallback}

theorem run_module (hkind : s.kind = .tag "M") :
    module.run s = (some (moduleBody.run s).1, (moduleBody.run s).2) := by
  rcases hrun : moduleBody.run s with ⟨m, t⟩
  rw [module, run_bind_eq (run_peek rfl), if_pos hkind, run_bind_eq hrun]
  rfl

theorem run_module_other (hkind : s.kind ≠ .tag "M") :
    module.run s = if s.atHeader.kind = .eof then (none, s.atHeader)
    else (some (moduleBody.run s.atHeader).1, (moduleBody.run s.atHeader).2) := by
  rcases hrun : moduleBody.run s.atHeader with ⟨m, t⟩
  rw [module, run_bind_eq (run_peek rfl), if_neg hkind]
  change (if s.atHeader.kind = .eof then pure none
    else moduleBody >>= fun m => pure (some m) : Parser (Option Module)).run s.atHeader = _
  split
  · rfl
  · rw [run_bind_eq hrun]
    rfl

end Run

theorem errors_module (hended : s.Ended) (hkind : s.kind ≠ .tag "M") (htags : s.openTags = []) :
    (module.run s).2.errors ≠ [] := by
  have hskipped : s.atHeader.Ended ∧ s.atHeader.errors ≠ [] ∧ s.atHeader.openTags = [] :=
    keeps_skipUntil (P := fun s => s.Ended ∧ s.errors ≠ [] ∧ s.openTags = [])
      (fun s h => ⟨h.1.advance, by rw [errors_advance]; exact h.2.1, by
        rw [openTags_advance]; exact h.2.2⟩) _ _
      ⟨hended, cons_ne_nil _ _, htags⟩
  rw [run_module_other hkind]
  split
  · exact hskipped.2.1
  · next heof =>
    exact errors_moduleBody hskipped.2.1 hskipped.1 (kind_atHeader hskipped.1 heof) hskipped.2.2

/-- Without an error, the tags of a text are properly nested and their IDs agree. -/
theorem parse_nested {source : String} (h : (parse source).errors = []) :
    Nested (brackets (lex source).tokens) := by
  apply nested_of_closes
  obtain ⟨s, hstream, hended, htokens, hnone, htags⟩ := stream_lex source
  have herrors : (module.run s).2.errors = [] := by
    rw [← hstream]
    exact reverse_eq_nil_iff.mp h
  by_cases hkind : s.kind = .tag "M"
  · rw [run_module hkind] at herrors
    rw [← htokens]
    exact closes_moduleBody ⟨rfl, hended, fun _ hcloses => hcloses⟩ hkind htags herrors
  · exact absurd herrors (errors_module hended hkind htags)

/-- A call inside a loop inside a function. -/
def loopSource : String :=
  "§M\x7bm:A\x7d §F\x7bf:g\x7d §L\x7bl:i\x7d a b §C\x7bh\x7d §A i §/C §/L\x7bl\x7d §/F\x7bf\x7d §/M\x7bm\x7d"

set_option maxRecDepth 100000 in
theorem parse_nested_loopSource : (parse loopSource).errors = [] ∧
    Nested [⟨false, "M", "m"⟩, ⟨false, "F", "f"⟩, ⟨false, "L", "l"⟩, ⟨false, "C", ""⟩,
      ⟨true, "C", ""⟩, ⟨true, "L", "l"⟩, ⟨true, "F", "f"⟩, ⟨true, "M", "m"⟩] := by
  have herrors : (parse loopSource).errors = [] := by decide +kernel
  have hbrackets : brackets (lex loopSource).tokens =
      [⟨false, "M", "m"⟩, ⟨false, "F", "f"⟩, ⟨false, "L", "l"⟩,
      ⟨false, "C", ""⟩, ⟨true, "C", ""⟩, ⟨true, "L", "l"⟩, ⟨true, "F", "f"⟩, ⟨true, "M", "m"⟩] := by decide +kernel
  exact ⟨herrors, hbrackets ▸ parse_nested herrors⟩

end Whole

end TagLang.Grammar
