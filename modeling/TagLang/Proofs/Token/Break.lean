import TagLang.Proofs.Token.Tag

/-! # Characters that end a word

No name, number or sign goes past a section sign or a line break, so each of them is read there as
at the end of the text.
-/

namespace TagLang.Lexeme
open Text List

/-! ## Runs of characters -/

section Runs

variable {p : Char → Bool} {d : Char}

theorem takeWhile_break (hp : p d = false) (as bs : List Char) :
    (as ++ d :: bs).takeWhile p = as.takeWhile p := by
  induction as with
  | nil => exact takeWhile_cons_of_neg (by simp [hp])
  | cons a as ih =>
    rw [cons_append, takeWhile_cons, takeWhile_cons, ih]

theorem nextIs_break (hp : p d = false) (as bs : List Char) : nextIs p (as ++ d :: bs) = nextIs p as := by
  cases as with
  | nil => simpa [nextIs] using hp
  | cons a as => rfl

theorem length_takeWhile_drop_le (p : Char → Bool) (as : List Char) {n : Nat} (h : n ≤ as.length) :
    n + ((as.drop n).takeWhile p).length ≤ as.length := by
  have hrun : ((as.drop n).takeWhile p).length ≤ (as.drop n).length := (List.takeWhile_prefix p).length_le
  rw [length_drop] at hrun
  omega

theorem lt_length_of_nextIs {as : List Char} {n : Nat} (h : nextIs p (as.drop n) = true) :
    n < as.length := by
  obtain ⟨c, rest, hrest, -⟩ := nextIs_iff.mp h
  have hlength := congrArg List.length hrest
  rw [length_drop, length_cons] at hlength
  omega

end Runs

theorem mem_of_doubleSign {c d : Char} {kind : TokenKind} (h : doubleSign c d = some kind) :
    d ∈ ">=&|?<".toList := by
  unfold doubleSign at h
  split at h
  case h_12 => cases h
  all_goals decide

def EndsWord (d : Char) : Prop := d = '§' ∨ d = '\n'

namespace EndsWord

variable {d : Char} (hd : EndsWord d)
include hd

theorem isAlphabetic : isAlphabetic d = false := by
  rcases hd with rfl | rfl <;> decide +kernel

theorem isAlphanumeric : isAlphanumeric d = false := by
  rcases hd with rfl | rfl <;> decide +kernel

theorem isNameChar : isNameChar d = false := by
  rw [Lexeme.isNameChar, hd.isAlphanumeric]
  rcases hd with rfl | rfl <;> rfl

theorem isDigit : d.isDigit = false := by
  rcases hd with rfl | rfl <;> rfl

theorem isDigitOrSeparator : isDigitOrSeparator d = false := by
  rcases hd with rfl | rfl <;> rfl

theorem isHexOrSeparator : isHexOrSeparator d = false := by
  rcases hd with rfl | rfl <;> decide

theorem isBoundary : isBoundary d = true := by
  rcases hd with rfl | rfl <;> decide

theorem isUpper : d.isUpper = false := by
  rcases hd with rfl | rfl <;> decide

theorem doubleSign (c : Char) : doubleSign c d = none := by
  rw [Option.eq_none_iff_forall_ne_some]
  intro kind hkind
  have hmem := mem_of_doubleSign hkind
  rcases hd with rfl | rfl <;> revert hmem <;> decide

theorem ne {c : Char} (hc : c ∈ "./-:xX\x7d".toList) : d ≠ c := by
  rintro rfl
  rcases hd with rfl | rfl <;> revert hc <;> decide

end EndsWord

/-! ## Literals announced by their type -/

def readAnnounced (name : String) (text : List Char) : Reading :=
  if name = "STR" then readTypedString text (name.length + 1)
  else if name = "BOOL" then readTypedBool text (name.length + 1)
  else readTypedNumber text (name.length + 1) (name = "FLOAT")

def announces (text : List Char) : Bool :=
  nextIs (· = ':') (text.drop (text.takeWhile isNameChar).length) &&
    ["INT", "FLOAT", "BOOL", "STR"].contains (String.ofList (text.takeWhile isNameChar))

theorem readWord_eq (text : List Char) : readWord text =
    if announces text then readAnnounced (String.ofList (text.takeWhile isNameChar)) text
    else tokenOf (text.takeWhile isNameChar).length
      (wordKind (String.ofList (text.takeWhile isNameChar))) := by
  unfold readWord announces
  dsimp only
  split
  · next htyped =>
    have hname := (Bool.and_eq_true_iff.mp htyped).2
    rw [contains_iff_mem] at hname
    have hlength : (text.takeWhile isNameChar).length =
        (String.ofList (text.takeWhile isNameChar)).length := by
      rw [String.length_ofList]
    rw [hlength]
    generalize String.ofList (text.takeWhile isNameChar) = name at hname
    simp only [mem_cons, not_mem_nil, or_false] at hname
    rcases hname with rfl | rfl | rfl | rfl <;> rfl
  · rfl

theorem eq_of_announces {text : List Char} (h : announces text = true) :
    ∃ rest, text = text.takeWhile isNameChar ++ ':' :: rest ∧
      String.ofList (text.takeWhile isNameChar) ∈ ["INT", "FLOAT", "BOOL", "STR"] := by
  obtain ⟨hnext, hname⟩ := Bool.and_eq_true_iff.mp h
  rw [drop_length_takeWhile] at hnext
  obtain ⟨c, rest, hrest, hc⟩ := nextIs_iff.mp hnext
  obtain rfl : c = ':' := of_decide_eq_true hc
  refine ⟨rest, ?_, contains_iff_mem.mp hname⟩
  rw [← hrest, takeWhile_append_dropWhile]

theorem readWord_announced {name : String} (hname : name ∈ ["INT", "FLOAT", "BOOL", "STR"])
    (rest : List Char) :
    readWord (name.toList ++ ':' :: rest) = readAnnounced name (name.toList ++ ':' :: rest) := by
  have hchars : name.toList.all isNameChar = true := by
    simp only [mem_cons, not_mem_nil, or_false] at hname
    rcases hname with rfl | rfl | rfl | rfl <;> decide
  have hword : (name.toList ++ ':' :: rest).takeWhile isNameChar = name.toList :=
    takeWhile_append_stop (all_eq_true.mp hchars) (by decide) rest
  have hannounces : announces (name.toList ++ ':' :: rest) = true := by
    rw [announces, hword, drop_left, String.ofList_toList, Bool.and_eq_true_iff]
    exact ⟨rfl, contains_iff_mem.mpr hname⟩
  rw [readWord_eq, if_pos hannounces, hword, String.ofList_toList]

theorem readWord_string (rest : List Char) :
    readWord ("STR:".toList ++ rest) = readTypedString ("STR:".toList ++ rest) 4 := by
  have hname : "STR" ∈ ["INT", "FLOAT", "BOOL", "STR"] := by decide
  exact readWord_announced hname rest

/-! ## Numbers, words and signs -/

section Words

variable {d : Char} (hd : EndsWord d) {as : List Char} {start : Nat}
include hd

theorem nextIs_eq_break {c : Char} (hc : c ∈ "./-:xX\x7d".toList) (as bs : List Char) :
    nextIs (· = c) (as ++ d :: bs) = nextIs (· = c) as :=
  nextIs_break (decide_eq_false (hd.ne hc)) as bs

theorem malformed_break (h : start ≤ as.length) (bs : List Char) :
    malformed (as ++ d :: bs) start = malformed as start := by
  have hstop := length_takeWhile_drop_le (!isBoundary ·) as h
  unfold malformed
  rw [drop_append_of_le_length h, takeWhile_break (by rw [hd.isBoundary]; rfl)]
  dsimp only
  rw [take_append_of_le_length hstop]

theorem readHex_break (h : start ≤ as.length) (bs : List Char) (negative : Bool) :
    readHex (as ++ d :: bs) start negative = readHex as start negative := by
  have hstop := length_takeWhile_drop_le isHexOrSeparator as h
  unfold readHex
  rw [drop_append_of_le_length h, takeWhile_break hd.isHexOrSeparator]
  dsimp only
  rw [drop_append_of_le_length hstop, nextIs_break hd.isAlphanumeric, malformed_break hd hstop]

theorem fraction?_break (as bs : List Char) : fraction? (as ++ d :: bs) = fraction? as := by
  cases as with
  | nil =>
    have hpoint (cs : List Char) (h : d :: bs = '.' :: cs) : False := hd.ne (by decide) (cons.inj h).1
    rw [nil_append, fraction?.eq_2 _ hpoint]
    rfl
  | cons a as =>
    by_cases ha : a = '.'
    · subst ha
      rw [cons_append, fraction?, fraction?, nextIs_break hd.isDigit,
        takeWhile_break hd.isDigitOrSeparator]
    · rw [cons_append, fraction?.eq_2 _ (by simp [ha]), fraction?.eq_2 _ (by simp [ha])]

omit hd in
theorem length_fraction?_le {cs places : List Char} (h : fraction? cs = some places) :
    1 + places.length ≤ cs.length := by
  unfold fraction? at h
  split at h
  · next cs =>
    split at h
    · cases h
      have hplaces : (cs.takeWhile isDigitOrSeparator).length ≤ cs.length :=
        (List.takeWhile_prefix _).length_le
      rw [length_cons]
      omega
    · cases h
  · cases h

theorem readDecimal_break (h : start ≤ as.length) (bs : List Char) (negative floatOnly : Bool) :
    readDecimal (as ++ d :: bs) start negative floatOnly = readDecimal as start negative floatOnly := by
  have hpoint := length_takeWhile_drop_le isDigitOrSeparator as h
  have hletter : (isAlphabetic d || d == '_') = false := by
    rw [hd.isAlphabetic]
    rcases hd with rfl | rfl <;> rfl
  unfold readDecimal
  rw [drop_append_of_le_length h, takeWhile_break hd.isDigitOrSeparator]
  dsimp only
  rw [drop_append_of_le_length hpoint, fraction?_break hd]
  cases hfraction :
      fraction? (as.drop (start + ((as.drop start).takeWhile isDigitOrSeparator).length)) with
  | none =>
    dsimp only
    rw [drop_append_of_le_length hpoint, nextIs_break (p := fun c => isAlphabetic c || c == '_') hletter,
      malformed_break hd hpoint]
  | some places =>
    have hstop : start + ((as.drop start).takeWhile isDigitOrSeparator).length + 1 + places.length ≤
        as.length := by
      have hplaces := length_fraction?_le hfraction
      rw [length_drop] at hplaces
      omega
    dsimp only
    rw [drop_append_of_le_length hstop, nextIs_break (p := fun c => isAlphabetic c || c == '_') hletter,
      malformed_break hd hstop]

theorem readNumber_break (h : start ≤ as.length) (bs : List Char) (negative floatOnly : Bool) :
    readNumber (as ++ d :: bs) start negative floatOnly = readNumber as start negative floatOnly := by
  have hdecimal := readDecimal_break hd h bs negative floatOnly
  unfold readNumber
  rw [drop_append_of_le_length h, hdecimal]
  cases hrest : as.drop start with
  | nil =>
    rw [nil_append]
    rcases hd with rfl | rfl <;> rfl
  | cons a rest =>
    by_cases ha : a = '0'
    · subst ha
      cases rest with
      | nil =>
        have hx : ¬ ((d = 'x' ∨ d = 'X') ∧ (!floatOnly) = true) := by
          rintro ⟨rfl | rfl, -⟩
          · exact hd.ne (c := 'x') (by decide) rfl
          · exact hd.ne (c := 'X') (by decide) rfl
        exact if_neg hx
      | cons x rest =>
        have hdigits : start + 2 ≤ as.length := by
          have hlength := congrArg List.length hrest
          rw [length_drop, length_cons, length_cons] at hlength
          omega
        rw [cons_append, cons_append, readHex_break hd hdigits]
        rfl
    · simp [ha]

theorem readTypedNumber_break (h : start ≤ as.length) (bs : List Char) (floatOnly : Bool) :
    readTypedNumber (as ++ d :: bs) start floatOnly = readTypedNumber as start floatOnly := by
  unfold readTypedNumber
  rw [drop_append_of_le_length h, nextIs_eq_break hd (by decide)]
  dsimp only
  have hfirst : (if nextIs (· = '-') (as.drop start) then start + 1 else start) ≤ as.length := by
    split
    · next hminus => exact lt_length_of_nextIs hminus
    · exact h
  rw [drop_append_of_le_length hfirst, nextIs_break hd.isDigit, readNumber_break hd hfirst,
    malformed_break hd hfirst]

theorem readTypedBool_break (h : start ≤ as.length) (bs : List Char) :
    readTypedBool (as ++ d :: bs) start = readTypedBool as start := by
  have hstop := length_takeWhile_drop_le isAlphanumeric as h
  unfold readTypedBool
  rw [drop_append_of_le_length h, takeWhile_break hd.isAlphanumeric]
  dsimp only
  rw [malformed_break hd hstop]

theorem readSign_break (c : Char) (as bs : List Char) : readSign c (as ++ d :: bs) = readSign c as := by
  cases as with
  | nil =>
    unfold readSign
    rw [nil_append, head?_cons, Option.bind_some, hd.doubleSign]
    rfl
  | cons a as => rfl

theorem announces_break (as bs : List Char) : announces (as ++ d :: bs) = announces as := by
  have hword : (as.takeWhile isNameChar).length ≤ as.length := (List.takeWhile_prefix _).length_le
  unfold announces
  rw [takeWhile_break hd.isNameChar, drop_append_of_le_length hword, nextIs_eq_break hd (by decide)]

/-- Of all words, only a string that is announced by its type can go past the character. -/
theorem readWord_break (as : List Char) : (∀ bs, readWord (as ++ d :: bs) = readWord as) ∨
    ∃ rest, as = "STR:".toList ++ rest := by
  by_cases hannounces : announces as = true
  · obtain ⟨rest, has, -⟩ := eq_of_announces hannounces
    by_cases hstr : String.ofList (as.takeWhile isNameChar) = "STR"
    · right
      refine ⟨rest, has.trans ?_⟩
      rw [← String.toList_ofList (l := as.takeWhile isNameChar), hstr]
      rfl
    · left
      intro bs
      have hle : (String.ofList (as.takeWhile isNameChar)).length + 1 ≤ as.length := by
        have hlength := congrArg List.length has
        rw [length_append, length_cons] at hlength
        rw [String.length_ofList]
        omega
      rw [readWord_eq, readWord_eq, announces_break hd, if_pos hannounces, if_pos hannounces,
        takeWhile_break hd.isNameChar]
      unfold readAnnounced
      rw [readTypedNumber_break hd hle, readTypedBool_break hd hle, if_neg hstr, if_neg hstr]
  · left
    intro bs
    rw [readWord_eq, readWord_eq, announces_break hd, if_neg hannounces, if_neg hannounces,
      takeWhile_break hd.isNameChar]

end Words

/-! ## Tags -/

section Tags

variable {d : Char} (hd : EndsWord d) {as : List Char} {closing : Bool}
include hd

theorem LoneSign.append {rest : List Char} (h : LoneSign as closing rest) (bs : List Char) :
    LoneSign (as ++ d :: bs) closing (rest ++ d :: bs) where
  text := by rw [h.text, append_assoc]
  closes := by rw [nextIs_eq_break hd (by decide), h.closes]
  stops := by rw [nextIs_break hd.isUpper, h.stops]

theorem WritesTag.append {name behind : List Char} (h : WritesTag as closing name behind)
    (bs : List Char) : WritesTag (as ++ d :: bs) closing name (behind ++ d :: bs) where
  text := by rw [h.text, append_assoc, append_assoc]
  nonempty := h.nonempty
  capitals := h.capitals
  stops := by rw [nextIs_break hd.isUpper, h.stops]

theorem readTag_break (as : List Char) : (∀ bs, readTag (as ++ d :: bs) = readTag as) ∨
    ∃ closing name rest, WritesTag as closing name ('\x7b' :: rest) := by
  rcases readTag_cases as with ⟨closing, rest, hlone⟩ | ⟨closing, name, behind, hwrites⟩
  · left
    intro bs
    rw [hlone.readTag_eq, (LoneSign.append hd hlone bs).readTag_eq]
  · cases behind with
    | nil =>
      left
      intro bs
      rw [hwrites.readTag_eq, (WritesTag.append hd hwrites bs).readTag_eq]
      rcases hd with rfl | rfl <;> rfl
    | cons c rest =>
      by_cases hc : c = '\x7b'
      · subst hc
        exact .inr ⟨closing, name, rest, hwrites⟩
      · left
        intro bs
        rw [hwrites.readTag_eq, (WritesTag.append hd hwrites bs).readTag_eq]
        simp [tagReading, hc]

end Tags

end TagLang.Lexeme
