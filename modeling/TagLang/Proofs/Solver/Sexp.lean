import TagLang.Solver.Sexp

/-! # Reading what is written

A text may have any blanks between its marks; the marks are found, and with them the s-expression.
An s-expression is written with parentheses around the items of a list and blanks between them. If
each of its atoms is a word or is quoted, it is read back from its text, and nothing else is.
-/

namespace TagLang.Sexp
open List

variable {cs : List Char} {c : Char}

mutual

def write : Sexp → String
  | .atom text => text
  | .list items => "(" ++ " ".intercalate (writeAll items) ++ ")"

def writeAll : List Sexp → List String
  | [] => []
  | s :: ss => s.write :: writeAll ss

end

inductive IsAtom : String → Prop
  | word {c : Char} {cs : List Char} : c ≠ '|' → (∀ d ∈ c :: cs, isDelimiter d = false) →
    IsAtom (.ofList (c :: cs))
  | quoted {cs : List Char} : '|' ∉ cs → IsAtom (.ofList ('|' :: (cs ++ ['|'])))

mutual

def Proper : Sexp → Prop
  | .atom text => IsAtom text
  | .list items => ProperAll items

def ProperAll : List Sexp → Prop
  | [] => True
  | s :: ss => s.Proper ∧ ProperAll ss

end

/-! ## Marks -/

mutual

def spelling : Sexp → List Mark
  | .atom text => [.atom text]
  | .list items => .opening :: (spellingAll items ++ [.closing])

def spellingAll : List Sexp → List Mark
  | [] => []
  | s :: ss => s.spelling ++ spellingAll ss

end

def Delimited (rest : List Char) : Prop := ∀ c ∈ rest.head?, isDelimiter c = true

theorem delimited_nil : Delimited [] := nofun

theorem delimited_cons (h : isDelimiter c = true) (cs : List Char) : Delimited (c :: cs) := by
  rintro d ⟨⟩
  exact h

theorem isDelimiter_closing : isDelimiter ')' = true := rfl

theorem isBlank_space : Text.isBlank ' ' = true := by decide

theorem isDelimiter_space : isDelimiter ' ' = true := by
  rw [isDelimiter, isBlank_space, Bool.or_true]

theorem marks_cons (c : Char) (cs : List Char) :
    marks (c :: cs) = (markOf c cs).1.toList ++ marks (cs.drop (markOf c cs).2) := by
  rw [marks]

theorem marks_opening (cs : List Char) : marks ('(' :: cs) = .opening :: marks cs := by
  rw [marks_cons]
  rfl

theorem marks_closing (cs : List Char) : marks (')' :: cs) = .closing :: marks cs := by
  rw [marks_cons]
  rfl

theorem marks_blank (hc : Text.isBlank c = true) (cs : List Char) : marks (c :: cs) = marks cs := by
  have hopening : c ≠ '(' := by
    rintro rfl
    exact absurd hc (by decide)
  have hclosing : c ≠ ')' := by
    rintro rfl
    exact absurd hc (by decide)
  have hmark : markOf c cs = (none, 0) := by
    rw [markOf, if_neg hopening, if_neg hclosing, if_pos hc]
  rw [marks_cons, hmark]
  rfl

theorem takeWhile_stop {p : Char → Bool} {cs rest : List Char} (hcs : ∀ d ∈ cs, p d = true)
    (hrest : ∀ c ∈ rest.head?, p c = false) : (cs ++ rest).takeWhile p = cs := by
  rw [takeWhile_append_of_pos hcs]
  cases rest with
  | nil => exact append_nil cs
  | cons c rest => rw [takeWhile_cons_of_neg (by simp [hrest c rfl]), append_nil]

/-- A word ends at a delimiter, so what follows must begin with one. -/
theorem marks_word {cs rest : List Char} (hbar : c ≠ '|') (hword : ∀ d ∈ c :: cs, isDelimiter d = false)
    (hrest : Delimited rest) : marks (c :: (cs ++ rest)) = .atom (.ofList (c :: cs)) :: marks rest := by
  have hmore : (cs ++ rest).takeWhile (!isDelimiter ·) = cs := by
    refine takeWhile_stop (fun d hd => ?_) fun d hd => ?_
    · rw [hword d (mem_cons_of_mem c hd), Bool.not_false]
    · rw [hrest d hd, Bool.not_true]
  have hmark : markOf c (cs ++ rest) = (some (.atom (.ofList (c :: cs))), cs.length) := by
    have hc := hword c mem_cons_self
    simp only [isDelimiter, Bool.or_eq_false_iff, decide_eq_false_iff_not] at hc
    rw [markOf, if_neg hc.1.1, if_neg hc.1.2, hc.2, if_neg Bool.false_ne_true, if_neg hbar, hmore]
  rw [marks_cons, hmark, drop_left]
  rfl

theorem marks_quoted (hbar : '|' ∉ cs) (rest : List Char) :
    marks ('|' :: (cs ++ '|' :: rest)) = .atom (.ofList ('|' :: (cs ++ ['|']))) :: marks rest := by
  have hinner : (cs ++ '|' :: rest).takeWhile (· ≠ '|') = cs :=
    takeWhile_stop (fun d hd => decide_eq_true (ne_of_mem_of_not_mem hd hbar)) (by simp)
  have hmark : markOf '|' (cs ++ '|' :: rest) =
      (some (.atom (.ofList ('|' :: (cs ++ ['|'])))), cs.length + 1) := by
    rw [markOf, if_neg (by decide), if_neg (by decide), if_neg (by decide), if_pos rfl, hinner]
    dsimp only
    rw [drop_left]
    rfl
  have hdrop : (cs ++ '|' :: rest).drop (cs.length + 1) = rest := by
    rw [← drop_drop, drop_left, drop_one, tail_cons]
  rw [marks_cons, hmark, hdrop]
  rfl

/-! ## Layouts -/

/-- A text has the given marks, with any blanks between them. Only a word needs something behind it
that ends it. -/
inductive Lays : List Mark → List Char → Prop
  | done : Lays [] []
  | blank {c : Char} {ms : List Mark} {cs : List Char} : Text.isBlank c = true → Lays ms cs →
    Lays ms (c :: cs)
  | opening {ms : List Mark} {cs : List Char} : Lays ms cs → Lays (.opening :: ms) ('(' :: cs)
  | closing {ms : List Mark} {cs : List Char} : Lays ms cs → Lays (.closing :: ms) (')' :: cs)
  | word {c : Char} {cs rest : List Char} {ms : List Mark} : c ≠ '|' →
    (∀ d ∈ c :: cs, isDelimiter d = false) → Delimited rest → Lays ms rest →
    Lays (.atom (.ofList (c :: cs)) :: ms) (c :: (cs ++ rest))
  | quoted {cs rest : List Char} {ms : List Mark} : '|' ∉ cs → Lays ms rest →
    Lays (.atom (.ofList ('|' :: (cs ++ ['|']))) :: ms) ('|' :: (cs ++ '|' :: rest))

theorem Lays.marks_eq {ms : List Mark} (h : Lays ms cs) : marks cs = ms := by
  induction h with
  | done => rw [marks]
  | blank hc _ ih => rw [marks_blank hc, ih]
  | opening _ ih => rw [marks_opening, ih]
  | closing _ ih => rw [marks_closing, ih]
  | word hbar hword hrest _ ih => rw [marks_word hbar hword hrest, ih]
  | quoted hbar _ ih => rw [marks_quoted hbar, ih]

theorem Lays.atom {text : String} (h : IsAtom text) {ms : List Mark} {rest : List Char}
    (hrest : Delimited rest) (hlays : Lays ms rest) :
    Lays (.atom text :: ms) (text.toList ++ rest) := by
  cases h with
  | word hbar hword =>
    rw [String.toList_ofList]
    exact .word hbar hword hrest hlays
  | quoted hbar =>
    rw [String.toList_ofList, cons_append, append_assoc, singleton_append]
    exact .quoted hbar hlays

mutual

/-- Writing an s-expression lays its marks out. What follows an item ends it: a blank, or the end of
its list. -/
theorem lays_write :
    (s : Sexp) → s.Proper → {ms : List Mark} → {rest : List Char} → Delimited rest → Lays ms rest →
    Lays (s.spelling ++ ms) (s.write.toList ++ rest)
  | .atom text, h, ms, rest, hrest, hlays => .atom h hrest hlays
  | .list items, h, ms, rest, hrest, hlays => by
    have hitems := lays_writeAll items h (delimited_cons isDelimiter_closing rest) hlays.closing
    have htext : (write (.list items)).toList ++ rest =
        '(' :: ((" ".intercalate (writeAll items)).toList ++ ')' :: rest) := by
      simp [write]
    have hmarks : (Sexp.list items).spelling ++ ms =
        .opening :: (spellingAll items ++ .closing :: ms) := by
      simp [spelling]
    rw [htext, hmarks]
    exact hitems.opening

theorem lays_writeAll :
    (ss : List Sexp) → ProperAll ss → {ms : List Mark} → {rest : List Char} → Delimited rest →
    Lays ms rest → Lays (spellingAll ss ++ ms) ((" ".intercalate (writeAll ss)).toList ++ rest)
  | [], _, ms, rest, _, hlays => hlays
  | [s], h, ms, rest, hrest, hlays => by
    rw [writeAll, writeAll, String.intercalate_singleton, spellingAll, spellingAll, append_nil]
    exact lays_write s h.1 hrest hlays
  | s :: s' :: ss, h, ms, rest, hrest, hlays => by
    have hmore := lays_writeAll (s' :: ss) h.2 hrest hlays
    have htext : (" ".intercalate (writeAll (s :: s' :: ss))).toList ++ rest =
        s.write.toList ++ ' ' :: ((" ".intercalate (writeAll (s' :: ss))).toList ++ rest) := by
      rw [writeAll, writeAll, String.intercalate_cons_cons]
      simp
    rw [htext, spellingAll, append_assoc]
    exact lays_write s h.1 (delimited_cons isDelimiter_space _) (hmore.blank isBlank_space)

end

/-! ## Stacks -/

mutual

theorem foldl_spelling : (s : Sexp) → (st : Stack) →
    s.spelling.foldl Stack.push st = { st with top := s :: st.top }
  | .atom text, st => rfl
  | .list items, st => by
    rw [spelling, foldl_cons, foldl_append, foldl_spellingAll items]
    simp [Stack.push]

theorem foldl_spellingAll : (ss : List Sexp) → (st : Stack) →
    (spellingAll ss).foldl Stack.push st = { st with top := ss.reverse ++ st.top }
  | [], st => rfl
  | s :: ss, st => by
    rw [spellingAll, foldl_append, foldl_spelling s, foldl_spellingAll ss]
    simp

end

theorem readAll_of_lays {s : Sexp} (h : Lays s.spelling cs) : readAll (.ofList cs) = [s] := by
  rw [readAll, String.toList_ofList, h.marks_eq, foldl_spelling]
  rfl

theorem readAll_write {s : Sexp} (h : s.Proper) : readAll s.write = [s] := by
  have hlays := lays_write s h delimited_nil .done
  rw [append_nil, append_nil] at hlays
  have hread := readAll_of_lays hlays
  rwa [String.ofList_toList] at hread

end TagLang.Sexp
