import TagLang.Proofs.Token.Place

/-! # What the lexer passes over

A character that is neither blank nor in a comment lies in a token or in an error, with one
exception: where a string is announced by its type and never closed, the error is about the string
from its quote on, and nothing is said of the characters of the type.
-/

namespace TagLang

open Lexeme List

/-- A token or an error of a text is about its character `i`. -/
def LexOutput.Covers (out : LexOutput) (source : String) (i : Nat) : Prop :=
  (∃ t ∈ out.tokens, t.span.Covers source.toList i) ∨ ∃ e ∈ out.errors, e.span.Covers source.toList i

/-- The character `i` is in a comment: two slashes before it on its line, or at it, are in no token
and no error. -/
def Commented (source : String) (i : Nat) : Prop :=
  ∃ j ≤ i, (∀ k, k = j ∨ k = j + 1 → source.toList[k]? = some '/' ∧ ¬ (lex source).Covers source k) ∧
    ∀ k, j ≤ k → k ≤ i → source.toList[k]? ≠ some '\n'

/-- The lexer says nothing of the character `i`, which is neither blank nor in a comment. -/
def Dropped (source : String) (i : Nat) : Prop :=
  ∃ c, source.toList[i]? = some c ∧ Text.isBlank c = false ∧ ¬ Commented source i ∧
    ¬ (lex source).Covers source i

namespace Lexeme

/-! ## One lexeme -/

section Marks

def Found.Covers (text : List Char) (found : Found) (i : Nat) : Prop :=
  (∃ t ∈ found.tokens, t.span.Covers text i) ∨ ∃ e ∈ found.errors, e.span.Covers text i

variable {text before rest : List Char} {found : Found} {i : Nat}

theorem Found.covers_rejectFloat : found.rejectFloat.Covers text i ↔ found.Covers text i := by
  unfold Found.rejectFloat
  split
  · next value raw span tokens htokens =>
    simp only [Found.Covers, htokens, mem_cons, or_and_right, exists_or, exists_eq_left]
    exact or_left_comm.trans or_assoc.symm
  · exact Iff.rfl

theorem Found.covers_add {m : Mark} (hm : m.start < m.stop) (hstop : m.stop ≤ rest.length)
    (hi : i < (before ++ rest).length) :
    (found.add (Position.origin.after before) rest m).Covers (before ++ rest) i ↔
      found.Covers (before ++ rest) i ∨ (before.length + m.start ≤ i ∧ i < before.length + m.stop) := by
  have hstart : before.length + m.start ≤ (before ++ rest).length := by
    rw [length_append]
    omega
  rw [← Span.covers_ofStretch_iff hstart hi]
  cases hsense : m.sense with
  | token kind =>
    rw [Found.add_token_eq (Nat.le_of_lt hm) hsense]
    simp only [Found.Covers, mem_cons, or_and_right, exists_or, exists_eq_left]
    exact or_assoc.trans or_comm
  | fault fault =>
    rw [Found.add_fault_eq (Nat.le_of_lt hm) hsense]
    simp only [Found.Covers, mem_cons, or_and_right, exists_or, exists_eq_left]
    exact or_left_comm.trans or_comm

theorem Found.covers_foldl {marks : List Mark}
    (hmarks : ∀ m ∈ marks, m.start < m.stop ∧ m.stop ≤ rest.length)
    (hi : i < (before ++ rest).length) :
    (marks.foldl (Found.add (Position.origin.after before) rest) found).Covers (before ++ rest) i ↔
      found.Covers (before ++ rest) i ∨ ∃ m ∈ marks, before.length + m.start ≤ i ∧ i <
        before.length + m.stop := by
  induction marks generalizing found with
  | nil => simp
  | cons m marks ih =>
    obtain ⟨hm, hmarks⟩ := forall_mem_cons.mp hmarks
    rw [foldl_cons, ih hmarks, Found.covers_add hm.1 hm.2 hi, or_assoc]
    simp only [mem_cons, or_and_right, exists_or, exists_eq_left]

theorem Found.covers_extend {r : Reading} (hr : r.Within rest) (hi : i < (before ++ rest).length) :
    (found.extend (Position.origin.after before) rest r).Covers (before ++ rest) i ↔
      found.Covers (before ++ rest) i ∨ ∃ m ∈ r.marks, before.length + m.start ≤ i ∧ i <
        before.length + m.stop := by
  have hmarks (m : Mark) (hm : m ∈ r.marks) : m.start < m.stop ∧ m.stop ≤ rest.length := by
    have hbounds := hr.marks m hm
    have hmore := hr.more
    omega
  rw [← Found.covers_foldl hmarks hi]
  unfold Found.extend
  dsimp only
  split
  · exact Found.covers_rejectFloat
  · exact Iff.rfl

theorem Found.Placed.not_covers {n : Nat} (h : found.Placed text n) (hn : n ≤ i)
    (hi : i < text.length) : ¬ found.Covers text i := by
  have hspan {s : Span} {a b : Nat} (hs : s.Within text n a b) : ¬ s.Covers text i := by
    have hlt := hs.lt
    have hle := hs.le
    rw [hs.span, Span.covers_ofStretch_iff (by omega) hi]
    omega
  rintro (⟨t, ht, hcovers⟩ | ⟨e, he, hcovers⟩)
  · obtain ⟨a, b, hwithin, -⟩ := h.tokens t ht
    exact hspan hwithin hcovers
  · obtain ⟨a, b, hwithin, -⟩ := h.errors e he
    exact hspan hwithin hcovers

end Marks

/-! ## Runs -/

namespace Scan

variable {s t : Scan} {i : Nat}

theorem Step.covers_iff (h : Step s t) (hi : i < s.before.length) :
    t.found.Covers (t.before ++ t.rest) i ↔ s.found.Covers (s.before ++ s.rest) i := by
  rw [h.text_eq]
  obtain ⟨before, found, c, cs⟩ := h
  dsimp only at hi ⊢
  have hin : i < (before ++ c :: cs).length := by
    rw [length_append]
    omega
  rw [Found.covers_extend (within_read c cs) hin]
  refine or_iff_left ?_
  rintro ⟨m, -, hle, -⟩
  omega

theorem Run.covers_iff (h : s.Run t) (hi : i < s.before.length) :
    t.found.Covers (t.before ++ t.rest) i ↔ s.found.Covers (s.before ++ s.rest) i := by
  induction h with
  | refl => exact Iff.rfl
  | tail hrun hstep ih => exact (hstep.covers_iff (hi.trans_le (Run.length_le hrun))).trans ih

/-- The lexeme that is read next holds the character `i`. -/
structure Holds (s : Scan) (i : Nat) (c : Char) (cs : List Char) : Prop where
  rest_eq : s.rest = c :: cs
  le : s.before.length ≤ i
  lt : i < s.before.length + (read c cs).more + 1

theorem Holds.exists_step {c : Char} {cs : List Char} (h : s.Holds i c cs) :
    ∃ t, Step s t ∧ i < t.before.length := by
  obtain ⟨before, found, rest⟩ := s
  obtain ⟨rfl, -, hlt⟩ := h
  refine ⟨_, .read before found c cs, ?_⟩
  dsimp only
  rw [length_lexeme]
  exact hlt

theorem Run.exists_holds {text : List Char} (h : (start text).Run t) (hi : i < t.before.length) :
    ∃ s c cs, (start text).Run s ∧ s.Holds i c cs := by
  induction h with
  | refl => exact absurd hi (Nat.not_lt_zero i)
  | tail hrun hstep ih =>
    obtain ⟨before, found, c, cs⟩ := hstep
    dsimp only at hi ih
    rw [length_lexeme] at hi
    by_cases hbefore : i < before.length
    · exact ih hbefore
    · exact ⟨_, c, cs, hrun, rfl, Nat.le_of_not_lt hbefore, hi⟩

theorem Holds.unique {text : List Char} {c c' : Char} {cs cs' : List Char} (hs : (start text).Run s)
    (ht : (start text).Run t) (hsi : s.Holds i c cs) (hti : t.Holds i c' cs') : s = t := by
  -- Of two lexemes one comes first; if it is not the other, then the other begins behind the character.
  have hfirst {u v : Scan} {d e : Char} {ds es : List Char} (hu : u.Holds i d ds) (hv : v.Holds i e es)
      (hrun : u.Run v) : u = v := by
    obtain ⟨w, hstep, hlt⟩ := hu.exists_step
    rcases hrun.cases_head with heq | ⟨w', hstep', hrun'⟩
    · exact heq
    · obtain rfl := step_rightUnique hstep hstep'
      have hle := Run.length_le hrun'
      have hbefore := hv.le
      omega
  rcases Relation.ReflTransGen.total_of_right_unique step_rightUnique hs ht with hrun | hrun
  · exact hfirst hsi hti hrun
  · exact (hfirst hti hsi hrun).symm

end Scan

/-! ## The whole text -/

section Lexed

variable {source : String} {s : Scan} {i : Nat} {c : Char} {cs : List Char}

theorem covers_output_iff {found : Found} (hi : i < source.toList.length) :
    (found.output (Position.origin.after source.toList)).Covers source i ↔
      found.Covers source.toList i := by
  -- The end of input is about no character.
  have heof : ¬ (Span.ofStretch source.toList source.toList.length source.toList.length).Covers
      source.toList i := by
    rw [Span.covers_ofStretch_iff (Nat.le_refl _) hi]
    omega
  rw [Span.ofStretch, take_length] at heof
  unfold LexOutput.Covers Found.Covers Found.output
  simp only [mem_append, mem_reverse, mem_singleton, or_and_right, exists_or, exists_eq_left]
  exact or_congr_left (or_iff_left heof)

theorem getElem?_of_run (h : (Scan.start source.toList).Run s) (j : Nat) :
    source.toList[s.before.length + j]? = s.rest[j]? := by
  have htext : s.before ++ s.rest = source.toList := h.text_eq
  rw [← htext, getElem?_append_right (Nat.le_add_right _ _), Nat.add_sub_cancel_left]

variable (hrun : (Scan.start source.toList).Run s) (h : s.Holds i c cs)
include hrun h

theorem Scan.Holds.lt_length : i < source.toList.length := by
  have htext : s.before ++ s.rest = source.toList := hrun.text_eq
  have hmore := (within_read c cs).more
  have hlt := h.lt
  rw [← htext, h.rest_eq, length_append]
  omega

theorem covers_lex_iff : (lex source).Covers source i ↔ (read c cs).Covers (i - s.before.length) := by
  have hin := h.lt_length hrun
  obtain ⟨before, found, rest⟩ := s
  obtain ⟨rfl, hle, hlt⟩ := h
  have htext : before ++ c :: cs = source.toList := hrun.text_eq
  have hstep := Scan.Step.read before found c cs
  obtain ⟨last, hend, hlex⟩ := Scan.exists_run_lex source
  have hbehind := Scan.Run.run_end hend (hrun.tail hstep)
  have hlast := hbehind.covers_iff (i := i) (by dsimp only; rw [Scan.length_lexeme]; exact hlt)
  rw [append_nil, hstep.text_eq] at hlast
  rw [hlex, covers_output_iff hin, hlast]
  rw [← htext] at hin
  have hnew : ¬ found.Covers (before ++ c :: cs) i := hrun.placed.not_covers hle hin
  dsimp only at hle ⊢
  rw [Found.covers_extend (within_read c cs) hin, or_iff_right hnew]
  refine exists_congr fun m => and_congr_right fun _ => ?_
  omega

theorem Scan.Holds.getElem? : source.toList[i]? = (c :: cs)[i - s.before.length]? := by
  have hget := getElem?_of_run hrun (i - s.before.length)
  rwa [Nat.add_sub_cancel' h.le, h.rest_eq] at hget

end Lexed

/-! ## Comments -/

section Comments

variable {cs : List Char} {k : Nat} {d : Char}

theorem ne_newline_of_comment (hk : k ≤ (cs.takeWhile (· ≠ '\n')).length)
    (hd : ('/' :: cs)[k]? = some d) : d ≠ '\n' := by
  cases k with
  | zero =>
    obtain rfl : '/' = d := Option.some.inj hd
    decide
  | succ k =>
    rw [getElem?_cons_succ, ← takeWhile_append_dropWhile (p := fun c => decide (c ≠ '\n')) (l := cs),
      getElem?_append_left hk] at hd
    have hplain := mem_takeWhile_imp (mem_of_getElem? hd)
    simpa using hplain

theorem eq_newline_of_comment (hd : ('/' :: cs)[(cs.takeWhile (· ≠ '\n')).length + 1]? = some d) :
    d = '\n' := by
  rw [getElem?_cons_succ, ← head?_drop, drop_length_takeWhile] at hd
  have hnext := nextIs_dropWhile (fun c => decide (c ≠ '\n')) cs
  rw [nextIs, hd] at hnext
  simpa using hnext

end Comments

end Lexeme

section Dropped

variable {source : String} {s : Scan} {i : Nat} {c : Char} {cs : List Char}

theorem covers_lex_of_opensString (hrun : (Scan.start source.toList).Run s) (h : s.Holds i c cs)
    (hopens : OpensString (c :: cs)) : (lex source).Covers source i ↔ s.before.length + 4 ≤ i := by
  obtain ⟨body, hread, hbetween, hclosed⟩ := hopens.read_eq
  have hle := h.le
  have hlt := h.lt
  have hmore : (stringReading 4 body).more = body.stop - 1 := rfl
  have hstart := hbetween.start
  rw [hread, hmore] at hlt
  rw [covers_lex_iff hrun h, hread, covers_unclosed_iff hbetween hclosed]
  omega

theorem commented_of_slashes (hrun : (Scan.start source.toList).Run s) (h : s.Holds i '/' cs)
    (hread : read '/' cs = blank (cs.takeWhile (· ≠ '\n')).length) {rest : List Char}
    (hslash : cs = '/' :: rest) : Commented source i := by
  have hmore : (read '/' cs).more = (cs.takeWhile (· ≠ '\n')).length := by rw [hread]; rfl
  have hone : 1 ≤ (cs.takeWhile (· ≠ '\n')).length := by
    rw [hslash, takeWhile_cons_of_pos (by decide), length_cons]
    exact Nat.le_add_left 1 _
  have hle := h.le
  have hlt := h.lt
  rw [hmore] at hlt
  have hholds {k : Nat} (hk : s.before.length ≤ k)
      (hstop : k ≤ s.before.length + (cs.takeWhile (· ≠ '\n')).length) :
      s.Holds k '/' cs := ⟨h.rest_eq, hk, by omega⟩
  refine ⟨s.before.length, hle, ?_, ?_⟩
  · intro k hk
    have hkholds : s.Holds k '/' cs := hholds (by omega) (by omega)
    constructor
    · rw [hkholds.getElem? hrun, hslash]
      rcases hk with rfl | rfl
      · rw [Nat.sub_self]
        rfl
      · rw [Nat.add_sub_cancel_left]
        rfl
    · rw [covers_lex_iff hrun hkholds, hread]
      rintro ⟨m, hm, -⟩
      exact not_mem_nil hm
  · intro k hk hki hnewline
    have hkholds : s.Holds k '/' cs := hholds hk (by omega)
    rw [hkholds.getElem? hrun] at hnewline
    exact ne_newline_of_comment (by omega) hnewline rfl

theorem slash_of_commented (hrun : (Scan.start source.toList).Run s) (h : s.Holds i c cs)
    (hcommented : Commented source i) : c = '/' := by
  obtain ⟨j, hji, hslashes, hline⟩ := hcommented
  obtain ⟨hslash, huncovered⟩ := hslashes j (.inl rfl)
  have hin := h.lt_length hrun
  -- The lexeme that holds the first slash is a comment, for in all others a slash is covered.
  obtain ⟨found, hend, -⟩ := Scan.exists_run_lex source
  obtain ⟨t, d, ds, htrun, ht⟩ := hend.exists_holds (i := j) (by dsimp only; omega)
  have hle := ht.le
  have hlt := ht.lt
  rw [ht.getElem? htrun] at hslash
  rcases read_cases d ds with ⟨hblank, hread⟩ | ⟨rest, hds, hread⟩ | hopens | htiles
  · rw [hread] at hlt
    have hfirst : j - t.before.length = 0 := Nat.sub_eq_zero_of_le (Nat.le_of_lt_succ hlt)
    rw [hfirst] at hslash
    obtain rfl : d = '/' := Option.some.inj hslash
    exact absurd hblank (by decide)
  · obtain ⟨rfl, rfl⟩ := cons.inj hds
    -- No line break is between the slash and the character, so the comment goes on to it.
    have hholds : t.Holds i '/' ('/' :: rest) := by
      refine ⟨ht.rest_eq, by omega, ?_⟩
      by_contra hbehind
      rw [hread] at hlt hbehind
      generalize hk : t.before.length + (blank (('/' :: rest).takeWhile (· ≠ '\n')).length).more +
        1 = k at hlt hbehind
      have hget := getElem?_eq_getElem (l := source.toList) (i := k) (by omega)
      have hbreak : source.toList[k]? =
          ('/' :: '/' :: rest)[(('/' :: rest).takeWhile (· ≠ '\n')).length + 1]? := by
        rw [← hk, Nat.add_assoc, getElem?_of_run htrun, ht.rest_eq]
        rfl
      have hnewline := eq_newline_of_comment (hbreak.symm.trans hget)
      rw [hnewline] at hget
      exact hline k (by omega) (by omega) hget
    obtain rfl := h.unique hrun htrun hholds
    exact (cons.inj (h.rest_eq.symm.trans hholds.rest_eq)).1
  · have htype : j - t.before.length < 4 := by
      rw [covers_lex_of_opensString htrun ht hopens] at huncovered
      omega
    obtain ⟨afterQuote, htext, -⟩ := hopens
    rw [htext, getElem?_append_left (Nat.lt_of_lt_of_le htype (by decide))] at hslash
    have hnone : ∀ k < 4, "STR:\"".toList[k]? ≠ some '/' := by decide
    exact absurd hslash (hnone _ htype)
  · rw [covers_lex_iff htrun ht] at huncovered
    exact absurd (htiles.full _ (by omega)) huncovered

end Dropped

/-- The lexer says something of every character that is not blank and not in a comment, but of those
that announce a string which is not closed. -/
theorem dropped_iff (source : String) (i : Nat) : Dropped source i ↔
    ∃ s, (Scan.start source.toList).Run s ∧ OpensString s.rest ∧ s.before.length ≤ i ∧ i <
      s.before.length + 4 := by
  constructor
  · rintro ⟨d, hget, hblank, hcommented, huncovered⟩
    obtain ⟨found, hend, -⟩ := Scan.exists_run_lex source
    obtain ⟨s, c, cs, hrun, hholds⟩ := hend.exists_holds (List.getElem?_eq_some_iff.mp hget).1
    have hle := hholds.le
    have hlt := hholds.lt
    rcases read_cases c cs with ⟨hc, hread⟩ | ⟨rest, hcs, hread⟩ | hopens | htiles
    · rw [hread] at hlt
      have hfirst : i - s.before.length = 0 := Nat.sub_eq_zero_of_le (Nat.le_of_lt_succ hlt)
      rw [hholds.getElem? hrun, hfirst] at hget
      obtain rfl : c = d := Option.some.inj hget
      exact absurd hc (Bool.eq_false_iff.mp hblank)
    · obtain ⟨rfl, hslash⟩ := cons.inj hcs
      exact absurd (commented_of_slashes hrun hholds hread hslash) hcommented
    · rw [covers_lex_of_opensString hrun hholds hopens] at huncovered
      rw [← hholds.rest_eq] at hopens
      exact ⟨s, hrun, hopens, hle, Nat.lt_of_not_le huncovered⟩
    · rw [covers_lex_iff hrun hholds] at huncovered
      exact absurd (htiles.full _ (by omega)) huncovered
  · rintro ⟨s, hrun, hopens, hle, hlt⟩
    obtain ⟨afterQuote, htext, hclosed⟩ := hopens
    have hopens : OpensString ('S' :: 'T' :: 'R' :: ':' :: '"' :: afterQuote) :=
      ⟨afterQuote, rfl, hclosed⟩
    have hholds : s.Holds i 'S' ('T' :: 'R' :: ':' :: '"' :: afterQuote) := by
      obtain ⟨body, hread, hbetween, -⟩ := hopens.read_eq
      have hmore : (stringReading 4 body).more = body.stop - 1 := rfl
      have hstart := hbetween.start
      refine ⟨htext, hle, ?_⟩
      rw [hread, hmore]
      omega
    have htype : i - s.before.length < 4 := by omega
    have hletters : ∀ k < 4, ("STR:\"".toList[k]?).any (!Text.isBlank ·) = true := by decide
    obtain ⟨d, hd, hblank⟩ := (Option.any_eq_true _ _).mp (hletters _ htype)
    refine ⟨d, ?_, (Bool.not_eq_true' _).mp hblank, ?_, ?_⟩
    · rw [hholds.getElem? hrun]
      have htyped : ("STR:\"".toList ++ afterQuote)[i - s.before.length]? =
          "STR:\"".toList[i - s.before.length]? :=
        getElem?_append_left (Nat.lt_of_lt_of_le htype (by decide))
      exact htyped.trans hd
    · intro hcommented
      exact absurd (slash_of_commented hrun hholds hcommented) (by decide)
    · rw [covers_lex_of_opensString hrun hholds hopens]
      omega

/-- The error of a string that is announced and not closed begins at its quote. -/
theorem dropped_announcement : Dropped "STR:\"abc" 0 := by
  have hlex : lex "STR:\"abc" = ⟨[.eofAt ⟨8, 8, 1, 9⟩], [⟨.unterminatedString, ⟨4, 8, 1, 5⟩⟩]⟩ := by
    decide +kernel
  refine ⟨'S', rfl, by decide, ?_, ?_⟩
  · rintro ⟨j, hj, hslashes, -⟩
    obtain rfl := Nat.le_zero.mp hj
    exact absurd (hslashes 0 (.inl rfl)).1 (by decide)
  · rw [hlex]
    rintro (⟨t, ht, hcovers⟩ | ⟨e, he, hcovers⟩)
    · rw [mem_singleton.mp ht] at hcovers
      exact absurd hcovers.1 (by decide)
    · rw [mem_singleton.mp he] at hcovers
      exact absurd hcovers.1 (by decide)

end TagLang
