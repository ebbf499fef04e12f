import TagLang.Proofs.Token.Kind
import TagLang.Proofs.Token.Scan

/-! # Every token stands at its place

What the lexer has found at any time are stretches of the text that it has read: no finding is
empty, the tokens follow one another without an overlap, and a token or a malformed literal holds
the characters of its stretch.
-/

namespace TagLang
open List

structure Span.Within (text : List Char) (n : Nat) (s : Span) (a b : Nat) : Prop where
  lt : a < b
  le : b ≤ n
  span : s = .ofStretch text a b

namespace Lexeme

/-! ## Findings in the whole text -/

section Marks

variable {before rest : List Char} {found : Found} {m : Mark}

theorem after_after_take (before rest : List Char) (k : Nat) :
    (Position.origin.after before).after (rest.take k) =
    Position.origin.after ((before ++ rest).take (before.length + k)) := by
  rw [take_length_add_append, Position.after_append]

theorem stretch_append (before rest : List Char) (a b : Nat) :
    stretch (before ++ rest) (before.length + a) (before.length + b) = stretch rest a b := by
  rw [stretch, stretch, drop_length_add_append, Nat.add_sub_add_left]

theorem between_mark (before rest : List Char) (h : m.start ≤ m.stop) :
    Span.between ((Position.origin.after before).after (rest.take m.start))
        (((Position.origin.after before).after (rest.take m.start)).after (stretch rest m.start m.stop)) =
      .ofStretch (before ++ rest) (before.length + m.start) (before.length + m.stop) := by
  have hstop : (Position.origin.after ((before ++ rest).take (before.length + m.start))).after
      (stretch rest m.start m.stop) = Position.origin.after
        ((before ++ rest).take (before.length + m.stop)) := by
    rw [← stretch_append before, ← Position.after_append, take_append_stretch _ (Nat.add_le_add_left h _)]
  rw [after_after_take, hstop]
  rfl

theorem Found.add_token_eq (h : m.start ≤ m.stop) {kind : TokenKind} (hm : m.sense = .token kind) :
    found.add (Position.origin.after before) rest m =
      ⟨⟨kind, String.ofList (stretch rest m.start m.stop),
        .ofStretch (before ++ rest) (before.length + m.start) (before.length + m.stop)⟩ ::
          found.tokens, found.errors⟩ := by
  rw [← between_mark before rest h, Found.add, hm]
  rfl

theorem Found.add_fault_eq (h : m.start ≤ m.stop) {fault : LexFault} (hm : m.sense = .fault fault) :
    found.add (Position.origin.after before) rest m =
      ⟨found.tokens,
        ⟨fault, .ofStretch (before ++ rest) (before.length + m.start) (before.length + m.stop)⟩ ::
          found.errors⟩ := by
  rw [← between_mark before rest h, Found.add, hm]
  rfl

end Marks

/-! ## What has been found -/

/-- What is found in the first `n` characters of a text stands there. The latest token is the first
one. -/
structure Found.Placed (text : List Char) (n : Nat) (found : Found) : Prop where
  tokens : ∀ t ∈ found.tokens, ∃ a b, t.span.Within text n a b ∧ t.raw = String.ofList (stretch text a b)
  errors : ∀ e ∈ found.errors, ∃ a b, e.span.Within text n a b ∧
    ∀ s, e.fault = .malformedLiteral s → s = String.ofList (stretch text a b)
  ordered : found.tokens.Pairwise fun t u => u.span.stop ≤ t.span.start

namespace Found.Placed

open Grammar

section Texts

variable {text : List Char} {n : Nat} {found : Found}

theorem empty (text : List Char) : Placed text 0 {} := ⟨nofun, nofun, .nil⟩

theorem mono {k : Nat} (h : found.Placed text n) (hk : n ≤ k) : found.Placed text k where
  tokens t ht := by
    obtain ⟨a, b, hspan, hraw⟩ := h.tokens t ht
    exact ⟨a, b, ⟨hspan.lt, hspan.le.trans hk, hspan.span⟩, hraw⟩
  errors e he := by
    obtain ⟨a, b, hspan, htext⟩ := h.errors e he
    exact ⟨a, b, ⟨hspan.lt, hspan.le.trans hk, hspan.span⟩, htext⟩
  ordered := h.ordered

theorem stop_le (h : found.Placed text n) {t : Token} (ht : t ∈ found.tokens) :
    t.span.stop ≤ byteCount (text.take n) := by
  obtain ⟨a, b, hspan, -⟩ := h.tokens t ht
  rw [hspan.span, Span.stop_ofStretch]
  exact byteCount_take_mono text hspan.le

theorem rejectFloat (h : found.Placed text n) : found.rejectFloat.Placed text n := by
  unfold Found.rejectFloat
  split
  · next value raw span tokens htokens =>
    have hall := h.tokens
    have hordered := h.ordered
    rw [htokens] at hall hordered
    obtain ⟨hfirst, hrest⟩ := forall_mem_cons.mp hall
    obtain ⟨a, b, hspan, hraw⟩ := hfirst
    refine ⟨hrest, forall_mem_cons.mpr ⟨⟨a, b, hspan, ?_⟩, h.errors⟩, hordered.of_cons⟩
    intro s hs
    cases hs
    exact hraw
  · exact h

end Texts

section Marks

variable {before rest : List Char} {n : Nat} {found : Found} {m : Mark}

theorem add (h : found.Placed (before ++ rest) n) (hlt : m.start < m.stop)
    (hle : before.length + m.stop ≤ n) (hbehind : (∃ k, m.sense = .token k) →
      ∀ t ∈ found.tokens, t.span.stop ≤ byteCount ((before ++ rest).take (before.length + m.start)))
    (hmalformed : ∀ s, m.sense = .fault (.malformedLiteral s) →
      s = String.ofList (stretch rest m.start m.stop)) :
    (found.add (Position.origin.after before) rest m).Placed (before ++ rest) n := by
  have hspan : (Span.ofStretch (before ++ rest) (before.length + m.start) (before.length + m.stop)).Within
      (before ++ rest) n (before.length + m.start) (before.length + m.stop) :=
        ⟨Nat.add_lt_add_left hlt _, hle, rfl⟩
  cases hsense : m.sense with
  | token kind =>
    rw [Found.add_token_eq (Nat.le_of_lt hlt) hsense]
    refine ⟨forall_mem_cons.mpr ⟨⟨_, _, hspan, ?_⟩, h.tokens⟩, h.errors,
      pairwise_cons.mpr ⟨?_, h.ordered⟩⟩
    · rw [stretch_append]
    · intro t ht
      rw [Span.start_ofStretch]
      exact hbehind ⟨kind, hsense⟩ t ht
  | fault fault =>
    rw [Found.add_fault_eq (Nat.le_of_lt hlt) hsense]
    refine ⟨h.tokens, forall_mem_cons.mpr ⟨⟨_, _, hspan, ?_⟩, h.errors⟩, h.ordered⟩
    intro s hs
    rw [stretch_append]
    exact hmalformed s (hsense.trans (congrArg Sense.fault hs))

/-- Findings one after the other, where a token is behind every token before it. -/
theorem foldl {marks : List Mark} (h : found.Placed (before ++ rest) n)
    (hmarks : ∀ m ∈ marks, m.start < m.stop ∧ before.length + m.stop ≤ n)
    (hordered : marks.Pairwise fun a b => (∃ k, a.sense = .token k) → (∃ k, b.sense = .token k) →
      a.stop ≤ b.start)
    (hmalformed : ∀ m ∈ marks, ∀ s, m.sense = .fault (.malformedLiteral s) →
      s = String.ofList (stretch rest m.start m.stop))
    (hbehind : ∀ m ∈ marks, (∃ k, m.sense = .token k) →
      ∀ t ∈ found.tokens, t.span.stop ≤ byteCount ((before ++ rest).take (before.length + m.start))) :
    (marks.foldl (Found.add (Position.origin.after before) rest) found).Placed (before ++ rest) n := by
  induction marks generalizing found with
  | nil => exact h
  | cons m marks ih =>
    obtain ⟨hm, hmarks⟩ := forall_mem_cons.mp hmarks
    obtain ⟨hbefore, hordered⟩ := pairwise_cons.mp hordered
    obtain ⟨hmal, hmalformed⟩ := forall_mem_cons.mp hmalformed
    obtain ⟨hnow, hbehind⟩ := forall_mem_cons.mp hbehind
    refine ih (h.add hm.1 hm.2 hnow hmal) hmarks hordered hmalformed fun m' hm' htoken' t ht => ?_
    cases hsense : m.sense with
    | token kind =>
      rw [Found.add_token_eq (Nat.le_of_lt hm.1) hsense] at ht
      rcases mem_cons.mp ht with rfl | ht
      · rw [Span.stop_ofStretch]
        exact byteCount_take_mono _ (Nat.add_le_add_left (hbefore m' hm' ⟨kind, hsense⟩ htoken') _)
      · exact hbehind m' hm' htoken' t ht
    | fault fault =>
      rw [Found.add_fault_eq (Nat.le_of_lt hm.1) hsense] at ht
      exact hbehind m' hm' htoken' t ht

theorem extend {r : Reading} (h : found.Placed (before ++ rest) before.length) (hr : r.Within rest) :
    (found.extend (Position.origin.after before) rest r).Placed (before ++ rest)
      (before.length + r.more + 1) := by
  have hle : before.length ≤ before.length + r.more + 1 := by omega
  have hmarks : (r.marks.foldl (Found.add (Position.origin.after before) rest) found).Placed
      (before ++ rest) (before.length + r.more + 1) := by
    apply (h.mono hle).foldl
    · intro m hm
      have hbounds := hr.marks m hm
      exact ⟨hbounds.1, by omega⟩
    · exact hr.ordered
    · exact hr.malformed
    · intro m _ _ t ht
      exact (h.stop_le ht).trans (byteCount_take_mono _ (Nat.le_add_right _ _))
  unfold Found.extend
  dsimp only
  split
  · exact hmarks.rejectFloat
  · exact hmarks

end Marks

end Found.Placed

/-! ## Runs -/

section Runs

variable {s t : Scan}

theorem Scan.Step.placed (h : Scan.Step s t) (hs : s.found.Placed (s.before ++ s.rest) s.before.length) :
    t.found.Placed (t.before ++ t.rest) t.before.length := by
  rw [h.text_eq]
  obtain ⟨before, found, c, cs⟩ := h
  dsimp only
  rw [Scan.length_lexeme]
  exact hs.extend (within_read c cs)

theorem Scan.Run.placed {text : List Char} (h : (Scan.start text).Run s) :
    s.found.Placed (s.before ++ s.rest) s.before.length := by
  induction h with
  | refl => exact Found.Placed.empty _
  | tail _ hstep ih => exact hstep.placed ih

theorem exists_placed_lex (source : String) : ∃ found : Found,
    lex source = found.output (Position.origin.after source.toList) ∧
      found.Placed source.toList source.toList.length := by
  obtain ⟨found, hrun, hlex⟩ := Scan.exists_run_lex source
  have hplaced := hrun.placed
  rw [append_nil] at hplaced
  exact ⟨found, hlex, hplaced⟩

/-- A token holds the characters of the text at its span. -/
theorem exists_place {source : String} {t : Token} (ht : t ∈ (lex source).tokens) : ∃ before behind,
    source.toList = before ++ (t.raw.toList ++ behind) ∧
      t.span = .between (Position.origin.after before)
        (Position.origin.after (before ++ t.raw.toList)) := by
  obtain ⟨found, hlex, hplaced⟩ := exists_placed_lex source
  rw [hlex] at ht
  rcases mem_append.mp ht with ht | ht
  · obtain ⟨a, b, hwithin, hraw⟩ := hplaced.tokens t (mem_reverse.mp ht)
    have htake := take_append_stretch source.toList (Nat.le_of_lt hwithin.lt)
    refine ⟨source.toList.take a, source.toList.drop b, ?_, ?_⟩
    · rw [hraw, String.toList_ofList, ← append_assoc, htake, take_append_drop]
    · rw [hraw, String.toList_ofList, htake, hwithin.span, Span.ofStretch]
  · rw [mem_singleton.mp ht]
    exact ⟨source.toList, [], by simp [Token.eofAt], by simp [Token.eofAt]⟩

end Runs

end Lexeme

open Lexeme

/-- The last token of a text is its only end of input, and stands behind its last character. All
other tokens stand one behind the other; the text of each is the slice of the source at its span,
which is not empty. A line is counted by the line breaks before it, and a column by the characters
behind the last of them. The same holds of errors, but that they may overlap. -/
theorem lex_places (source : String) : ∃ tokens last, (lex source).tokens = tokens ++ [last] ∧
    (last.kind = .eof ∧ last.raw = "" ∧ last.span.Locates source "") ∧
    (∀ t ∈ tokens, t.kind ≠ .eof ∧ t.span.start < t.span.stop ∧ t.span.Slices source t.raw) ∧
    tokens.Pairwise (fun t u => t.span.stop ≤ u.span.start) ∧
    ∀ e ∈ (lex source).errors, e.span.start < e.span.stop ∧
      ∃ slice, e.span.Slices source slice ∧ ∀ s, e.fault = .malformedLiteral s → s = slice := by
  obtain ⟨found, hlex, hplaced⟩ := exists_placed_lex source
  have hspan {s : Span} {a b : Nat} (h : s.Within source.toList source.toList.length a b) :
      s.start < s.stop ∧ s.Slices source (String.ofList (stretch source.toList a b)) := by
    rw [h.span]
    refine ⟨?_, Span.slices_ofStretch source (Nat.le_of_lt h.lt)⟩
    rw [Span.start_ofStretch, Span.stop_ofStretch]
    exact byteCount_take_lt h.lt h.le
  obtain ⟨init, span, htokens, hkinds⟩ := ended_tokens_lex source
  have hinit : init = found.tokens.reverse := by
    rw [hlex] at htokens
    exact (append_inj' htokens.symm rfl).1
  refine ⟨found.tokens.reverse, _, by rw [hlex]; rfl, ⟨rfl, rfl, ?_⟩, ?_, ?_, ?_⟩
  · have hend := Span.locates_between source.toList []
    rwa [append_nil, String.ofList_toList] at hend
  · intro t ht
    obtain ⟨a, b, hwithin, hraw⟩ := hplaced.tokens t (mem_reverse.mp ht)
    rw [hraw]
    exact ⟨hkinds t (hinit ▸ ht), hspan hwithin⟩
  · exact pairwise_reverse.mpr hplaced.ordered
  · intro e he
    rw [hlex] at he
    obtain ⟨a, b, hwithin, htext⟩ := hplaced.errors e (mem_reverse.mp he)
    exact ⟨(hspan hwithin).1, _, (hspan hwithin).2, htext⟩

/-! ## The order of tokens -/

/-- Tokens of a text: the last one is the only end of input, no other one is empty, and they follow
one another without an overlap. -/
structure Laid (ts : List Token) : Prop where
  ended : ∀ t us, t :: us <:+ ts → (us = [] ↔ t.kind = .eof)
  wide : ∀ t ∈ ts, t.kind ≠ .eof → t.span.start < t.span.stop
  ordered : ts.Pairwise fun t u => t.span.stop ≤ u.span.start

namespace Laid

variable {ts us : List Token} {t u : Token}

theorem suffix (h : Laid ts) (hus : us <:+ ts) : Laid us where
  ended t vs hvs := h.ended t vs (hvs.trans hus)
  wide t ht := h.wide t (hus.subset ht)
  ordered := h.ordered.sublist hus.sublist

theorem stop_le (h : Laid (t :: us)) (hu : u ∈ us) : t.span.stop ≤ u.span.start :=
  rel_of_pairwise_cons h.ordered hu

theorem eq_of_start (h : Laid ts) (ht : t ∈ ts) (hu : u ∈ ts) (hkind : t.kind ≠ .eof)
    (hkind' : u.kind ≠ .eof) (hstart : t.span.start = u.span.start) : t = u := by
  have hwide := h.wide t ht hkind
  have hwide' := h.wide u hu hkind'
  obtain ⟨before, after, rfl⟩ := append_of_mem ht
  obtain ⟨-, hafter, hbefore⟩ := pairwise_append.mp h.ordered
  rcases mem_append.mp hu with hu | hu
  · have hle := hbefore u hu t mem_cons_self
    omega
  · rcases mem_cons.mp hu with rfl | hu
    · rfl
    · have hle := rel_of_pairwise_cons hafter hu
      omega

end Laid

theorem laid_lex (source : String) : Laid (lex source).tokens := by
  obtain ⟨found, hlex, hplaced⟩ := exists_placed_lex source
  obtain ⟨init, span, htokens, hkinds⟩ := ended_tokens_lex source
  have hall (p : Position) (hp : lex source = found.output p) :
      found.tokens.reverse ++ [.eofAt (.between p p)] = init ++ [.eofAt span] := by
    rw [← htokens, hp]
    rfl
  obtain ⟨hinit, hlast⟩ := append_inj' (hall _ hlex) rfl
  rw [htokens, ← hinit, ← hlast]
  refine ⟨fun t us hus => ?_, fun t ht hkind => ?_, ?_⟩
  · obtain ⟨before, hbefore⟩ := hus
    cases us using List.reverseRecOn with
    | nil =>
      have heq := (append_inj' hbefore rfl).2
      simp only [List.cons.injEq, and_true] at heq
      simp [heq, Token.eofAt]
    | append_singleton us last =>
      rw [← cons_append, ← append_assoc] at hbefore
      have heq := (append_inj' hbefore rfl).1
      have hmem : t ∈ init := by rw [← hinit, ← heq]; simp
      simp [hkinds t hmem]
  · rcases mem_append.mp ht with ht | ht
    · obtain ⟨a, b, hwithin, -⟩ := hplaced.tokens t (mem_reverse.mp ht)
      rw [hwithin.span, Span.start_ofStretch, Span.stop_ofStretch]
      exact byteCount_take_lt hwithin.lt hwithin.le
    · rw [mem_singleton.mp ht] at hkind
      exact absurd rfl hkind
  · refine pairwise_append.mpr ⟨pairwise_reverse.mpr hplaced.ordered, pairwise_singleton _ _, ?_⟩
    intro t ht u hu
    have hle := hplaced.stop_le (mem_reverse.mp ht)
    rw [take_length] at hle
    rw [mem_singleton.mp hu]
    exact hle.trans (Nat.le_of_eq ((Position.offset_after _ _).trans (Nat.zero_add _)).symm)

end TagLang
