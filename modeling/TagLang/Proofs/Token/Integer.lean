import Mathlib.Algebra.Group.Int.Defs
import TagLang.Proofs.Text.Numeral
import TagLang.Proofs.Token.Join

/-! # Integer literals

An integer literal is written with decimal or hexadecimal digits, with separators among them, alone
or behind an announcement that may hold a sign. As a text of its own it is one token if its value
has 64 bits, and otherwise it is reported as a whole. There is one exception: the sign of a
hexadecimal literal does not count when its digits are measured, so the least integer has no
hexadecimal literal.
-/

namespace TagLang
open Text List

/-! ## How integers are written -/

inductive Radix
  | decimal
  | hexadecimal (capital : Bool)
deriving DecidableEq

namespace Radix

def base : Radix → Nat
  | .decimal => 10
  | .hexadecimal _ => 16

def mark : Radix → List Char
  | .decimal => []
  | .hexadecimal capital => ['0', if capital then 'X' else 'x']

end Radix

/-- What stands in front of a literal: nothing, or the name of its type, which a sign may follow. -/
inductive Announcement
  | absent
  | present (negative : Bool)

namespace Announcement

def chars : Announcement → List Char
  | .absent => []
  | .present false => "INT:".toList
  | .present true => "INT:-".toList

def isNegative : Announcement → Bool
  | .absent => false
  | .present negative => negative

def isPresent : Announcement → Bool
  | .absent => false
  | .present _ => true

end Announcement

/-- An integer literal as it is written, with the number that its digits write. A decimal literal
begins with a digit: a text that begins with a separator is a name. -/
structure IntegerText where
  announcement : Announcement
  radix : Radix
  run : List Char
  magnitude : Nat
  numeral : Numeral radix.base (run.filter (· ≠ '_')) magnitude
  nonempty : run.filter (· ≠ '_') ≠ []
  begins : radix = .decimal → run.head? ≠ some '_'

namespace IntegerText

variable (l : IntegerText)

def source : String := .ofList (l.announcement.chars ++ (l.radix.mark ++ l.run))

def value : Int := if l.announcement.isNegative then -(l.magnitude : Int) else l.magnitude

def InRange : Prop := -2 ^ 63 ≤ l.value ∧ l.value ≤ 2 ^ 63 - 1

def IsLeastHex : Prop := l.radix ≠ .decimal ∧ l.value = -2 ^ 63

instance : Decidable l.InRange := inferInstanceAs (Decidable (_ ∧ _))

instance : Decidable l.IsLeastHex := inferInstanceAs (Decidable (_ ∧ _))

def stop : Position := Position.origin.after l.source.toList

def span : Span := .between .origin l.stop

end IntegerText

namespace Lexeme

/-! ## Digits -/

section Digits

variable {base n : Nat} {cs run : List Char} {c : Char} {d : Nat}

theorem digit_of_writes (hd : d < 10) (h : Writes c d) : c.isDigit = true := by
  have hdigits : ∀ d < 10, d.digitChar.isDigit = true ∧ d.digitChar.toUpper.isDigit = true := by decide
  rcases h with rfl | rfl
  · exact (hdigits d hd).1
  · exact (hdigits d hd).2

theorem hexDigit_of_writes (hd : d < 16) (h : Writes c d) : isHexDigit c = true ∧ digitValue c = d := by
  have hdigits : ∀ d < 16, (isHexDigit d.digitChar = true ∧ digitValue d.digitChar = d) ∧
      isHexDigit d.digitChar.toUpper = true ∧ digitValue d.digitChar.toUpper = d := by decide
  rcases h with rfl | rfl
  · exact (hdigits d hd).1
  · exact (hdigits d hd).2

theorem exists_writes (h : Numeral base cs n) (hc : c ∈ cs) : ∃ d < base, Writes c d := by
  induction h with
  | nil => cases hc
  | concat _ hd hwrites ih =>
    rcases mem_append.mp hc with hc | hc
    · exact ih hc
    · obtain rfl := mem_singleton.mp hc
      exact ⟨_, hd, hwrites⟩

theorem digitsValue_of_numeral (hbase : base ≤ 16) (h : Numeral base (run.filter (· ≠ '_')) n) :
    digitsValue base run = n := by
  unfold digitsValue
  generalize run.filter (· ≠ '_') = cs at h
  induction h with
  | nil => rfl
  | concat _ hd hc ih =>
    rw [foldl_append, ih, foldl_cons, foldl_nil,
      (hexDigit_of_writes (Nat.lt_of_lt_of_le hd hbase) hc).2]

theorem mem_run (h : Numeral base (run.filter (· ≠ '_')) n) (hc : c ∈ run) :
    c = '_' ∨ ∃ d < base, Writes c d := by
  by_cases hsep : c = '_'
  · exact .inl hsep
  · exact .inr (exists_writes h (mem_filter.mpr ⟨hc, decide_eq_true hsep⟩))

theorem isDigitOrSeparator_of_mem (h : Numeral 10 (run.filter (· ≠ '_')) n) (hc : c ∈ run) :
    isDigitOrSeparator c = true := by
  rcases mem_run h hc with rfl | ⟨d, hd, hwrites⟩
  · rfl
  · rw [isDigitOrSeparator, digit_of_writes hd hwrites, Bool.true_or]

theorem isHexOrSeparator_of_mem (h : Numeral 16 (run.filter (· ≠ '_')) n) (hc : c ∈ run) :
    isHexOrSeparator c = true := by
  rcases mem_run h hc with rfl | ⟨d, hd, hwrites⟩
  · rfl
  · rw [isHexOrSeparator, (hexDigit_of_writes hd hwrites).1, Bool.true_or]

theorem all_separators_eq_false (h : run.filter (· ≠ '_') ≠ []) : run.all (· = '_') = false := by
  obtain ⟨c, hc⟩ := exists_mem_of_ne_nil _ h
  obtain ⟨hmem, hne⟩ := mem_filter.mp hc
  exact all_eq_false.mpr ⟨c, hmem, by simpa using hne⟩

end Digits

/-! ## Numbers to the end of a text -/

section Numbers

variable (front : List Char) {run : List Char} {n : Nat}

/-- The reading of a text that has the form of an integer literal. -/
def integerReading (text : List Char) (integral accepted : Bool) (value : Int) : Reading where
  more := text.length - 1
  marks := [⟨0, text.length, if accepted then .token (.int value)
    else .fault (.malformedLiteral (String.ofList text))⟩]
  integral := integral

theorem ite_malformed (text : List Char) (accepted : Bool) (value : Int) :
    (if accepted = true then tokenOf text.length (.int value) else malformed text text.length) =
      integerReading text false accepted value := by
  have hmalformed : malformed text text.length =
      whole text.length (.fault (.malformedLiteral (String.ofList text))) := by
    simp [malformed]
  rw [hmalformed]
  cases accepted <;> rfl

theorem readDecimal_run (hrun : Numeral 10 (run.filter (· ≠ '_')) n) (hne : run.filter (· ≠ '_') ≠ [])
    (negative : Bool) : readDecimal (front ++ run) front.length negative false =
      integerReading (front ++ run) false (isInt64 (signed negative n)) (signed negative n) := by
  have hall : run.takeWhile isDigitOrSeparator = run :=
    takeWhile_eq_self_iff.mpr fun _ hc => isDigitOrSeparator_of_mem hrun hc
  have hvalue : digitsValue 10 run = n := digitsValue_of_numeral (by decide) hrun
  have hfraction : fraction? [] = none := rfl
  have hend : nextIs (fun c => isAlphabetic c || c == '_') [] = false := rfl
  unfold readDecimal
  simp only [drop_left, hall, hvalue, ← length_append, drop_length, all_separators_eq_false hne,
    hfraction, hend, Bool.or_self, Bool.false_eq_true, if_false]
  exact ite_malformed _ _ _

theorem readHex_run (hrun : Numeral 16 (run.filter (· ≠ '_')) n) (hne : run.filter (· ≠ '_') ≠ [])
    (negative : Bool) : readHex (front ++ run) front.length negative =
      integerReading (front ++ run) false (isInt64 n) (signed negative n) := by
  have hall : run.takeWhile isHexOrSeparator = run :=
    takeWhile_eq_self_iff.mpr fun _ hc => isHexOrSeparator_of_mem hrun hc
  have hvalue : digitsValue 16 run = n := digitsValue_of_numeral (by decide) hrun
  have hend : nextIs isAlphanumeric [] = false := rfl
  unfold readHex
  simp only [drop_left, hall, hvalue, ← length_append, drop_length, all_separators_eq_false hne, hend,
    Bool.false_or]
  rw [← ite_malformed]
  cases isInt64 n <;> rfl

end Numbers

/-! ## Literals -/

section Literals

variable (l : IntegerText)

/-- Whether the lexer takes the literal. It measures a hexadecimal literal without its sign. -/
def accepts : Bool :=
  match l.radix with
  | .decimal => isInt64 l.value
  | .hexadecimal _ => isInt64 l.magnitude

theorem isInt64_iff (n : Int) : isInt64 n = true ↔ -2 ^ 63 ≤ n ∧ n ≤ 2 ^ 63 - 1 := by
  have hleast : leastSigned 64 = -2 ^ 63 := by decide
  have hpow : (twoPow (64 - 1) : Int) = 2 ^ 63 := by decide
  rw [isInt64, fitsSigned, Bool.and_eq_true_iff, decide_eq_true_iff, decide_eq_true_iff, hleast, hpow]
  omega

theorem accepts_iff : accepts l = true ↔ l.InRange ∧ ¬ l.IsLeastHex := by
  have hsign : l.value = l.magnitude ∨ l.value = -l.magnitude := by
    unfold IntegerText.value
    split
    · exact .inr rfl
    · exact .inl rfl
  unfold accepts IntegerText.InRange IntegerText.IsLeastHex
  cases l.radix with
  | decimal => simp [isInt64_iff]
  | hexadecimal capital =>
    simp only [isInt64_iff, ne_eq, reduceCtorEq, not_false_eq_true, true_and]
    omega

theorem exists_digit : ∃ c cs, l.radix.mark ++ l.run = c :: cs ∧ c.isDigit = true := by
  obtain ⟨announcement, radix, run, n, hrun, hne, hbegins⟩ := l
  cases radix with
  | hexadecimal capital => exact ⟨'0', _, rfl, rfl⟩
  | decimal =>
    cases run with
    | nil => exact absurd rfl hne
    | cons c cs =>
      refine ⟨c, cs, rfl, ?_⟩
      rcases mem_run hrun mem_cons_self with rfl | ⟨d, hd, hwrites⟩
      · exact absurd rfl (hbegins rfl)
      · exact digit_of_writes hd hwrites

theorem readNumber_digits (front : List Char) :
    readNumber (front ++ (l.radix.mark ++ l.run)) front.length l.announcement.isNegative false =
      integerReading (front ++ (l.radix.mark ++ l.run)) false (accepts l) l.value := by
  obtain ⟨announcement, radix, run, n, hrun, hne, hbegins⟩ := l
  cases radix with
  | decimal =>
    have hdecimal := readDecimal_run front hrun hne announcement.isNegative
    unfold readNumber
    rw [drop_left]
    dsimp only [Radix.mark, nil_append]
    split
    · next _ x rest =>
      have hx : isDigitOrSeparator x = true := isDigitOrSeparator_of_mem hrun (by simp)
      rw [if_neg]
      · exact hdecimal
      · rintro ⟨rfl | rfl, -⟩ <;> cases hx
    · exact hdecimal
  | hexadecimal capital =>
    have hhex := readHex_run (front ++ Radix.mark (.hexadecimal capital)) hrun hne announcement.isNegative
    unfold readNumber
    rw [drop_left]
    rw [append_assoc, length_append] at hhex
    cases capital <;> exact hhex

theorem readTypedNumber_digits (negative : Bool) (h : l.announcement = .present negative) :
    readTypedNumber (l.announcement.chars ++ (l.radix.mark ++ l.run)) 4 false =
      integerReading (l.announcement.chars ++ (l.radix.mark ++ l.run)) true (accepts l) l.value := by
  have hnumber := readNumber_digits l l.announcement.chars
  obtain ⟨c, cs, hdigits, hc⟩ := exists_digit l
  have hminus : c ≠ '-' := by rintro rfl; cases hc
  rw [h] at hnumber ⊢
  unfold readTypedNumber
  rw [hdigits] at hnumber ⊢
  cases negative with
  | false =>
    have hsign : nextIs (· = '-') ((Announcement.chars (.present false) ++ c :: cs).drop 4) = false :=
      decide_eq_false hminus
    have hdigit : nextIs Char.isDigit ((Announcement.chars (.present false) ++ c :: cs).drop 4) =
        true := hc
    rw [hsign]
    dsimp only
    rw [if_neg Bool.false_ne_true, if_pos hdigit]
    exact congrArg (fun r : Reading => { r with integral := true }) hnumber
  | true =>
    have hsign : nextIs (· = '-') ((Announcement.chars (.present true) ++ c :: cs).drop 4) = true := rfl
    have hdigit : nextIs Char.isDigit ((Announcement.chars (.present true) ++ c :: cs).drop 5) =
        true := hc
    rw [hsign]
    dsimp only
    rw [if_pos rfl, if_pos hdigit]
    exact congrArg (fun r : Reading => { r with integral := true }) hnumber

theorem read_digit {c : Char} (hc : c.isDigit = true) (cs : List Char) :
    read c cs = readNumber (c :: cs) 0 false false := by
  have hcode : 48 ≤ c.toNat ∧ c.toNat ≤ 57 := by
    simpa [Char.isDigit, UInt32.le_iff_toNat_le] using hc
  have hblank : isBlank c = false := by
    simp [isBlank, Ranges.holds, blankRanges]
    omega
  have hne (d : Char) (hd : d.isDigit = false) : c ≠ d := by
    rintro rfl
    rw [hd] at hc
    cases hc
  unfold read
  rw [if_neg (by simp [hblank]), if_neg (fun h => hne '/' rfl h.1), if_neg (hne '§' rfl),
    if_neg (hne '"' rfl), if_pos hc]

theorem read_integer : ∃ c cs, l.source.toList = c :: cs ∧
    read c cs = integerReading (c :: cs) l.announcement.isPresent (accepts l) l.value := by
  obtain ⟨c, cs, hdigits, hc⟩ := exists_digit l
  rw [IntegerText.source, String.toList_ofList]
  cases h : l.announcement with
  | absent =>
    have hnumber := readNumber_digits l []
    rw [h, hdigits] at hnumber
    exact ⟨c, cs, by rw [hdigits]; rfl, (read_digit hc cs).trans hnumber⟩
  | present negative =>
    have htyped := readTypedNumber_digits l negative h
    rw [h] at htyped
    have hword (rest : List Char) : readWord ("INT:".toList ++ rest) =
        readTypedNumber ("INT:".toList ++ rest) 4 false :=
      readWord_announced (.head _) rest
    cases negative with
    | false => exact ⟨'I', _, rfl, (hword _).trans htyped⟩
    | true => exact ⟨'I', _, rfl, (hword ('-' :: _)).trans htyped⟩

def integerFound (text : List Char) (accepted : Bool) (value : Int) : Found :=
  let span := Span.between .origin (Position.origin.after text)
  if accepted then { tokens := [⟨.int value, String.ofList text, span⟩] }
  else { errors := [⟨.malformedLiteral (String.ofList text), span⟩] }

theorem extend_integerReading (text : List Char) (accepted integral : Bool) (value : Int) :
    Found.extend .origin text {} (integerReading text integral accepted value) =
      integerFound text accepted value := by
  cases accepted <;> cases integral <;>
    simp [Found.extend, integerReading, Found.add, Found.rejectFloat, integerFound]

theorem lex_eq_output :
    lex l.source = (integerFound l.source.toList (accepts l) l.value).output l.stop := by
  obtain ⟨c, cs, htext, hread⟩ := read_integer l
  have hmore : (read c cs).more = cs.length := by
    rw [hread]
    exact Nat.add_sub_cancel cs.length 1
  rw [Scan.lex_eq_of_read htext hmore, hread, ← htext, extend_integerReading]
  rfl

end Literals

end Lexeme

/-- An integer literal, as a text of its own, is one token if its value has 64 bits, and otherwise
it is reported as a whole. Only the least integer in hexadecimal digits is reported although it is
in range. -/
theorem lex_integer (l : IntegerText) :
    lex l.source =
      if l.InRange ∧ ¬ l.IsLeastHex then
        ⟨[⟨.int l.value, l.source, l.span⟩, .eofAt (.between l.stop l.stop)], []⟩
      else ⟨[.eofAt (.between l.stop l.stop)], [⟨.malformedLiteral l.source, l.span⟩]⟩ := by
  rw [Lexeme.lex_eq_output, Lexeme.integerFound, String.ofList_toList]
  split
  · next haccepts =>
    rw [Lexeme.accepts_iff] at haccepts
    rw [if_pos haccepts]
    rfl
  · next hrejects =>
    rw [Lexeme.accepts_iff] at hrejects
    rw [if_neg hrejects]
    rfl

/-- The least integer, announced, in hexadecimal digits. -/
def leastHex : IntegerText where
  announcement := .present true
  radix := .hexadecimal false
  run := "8000000000000000".toList
  magnitude := 2 ^ 63
  numeral := Text.numeral_toDigits (by decide) (2 ^ 63)
  nonempty := by decide
  begins := nofun

/-- The least integer is in range and has a decimal literal, but its hexadecimal literal is
reported. -/
theorem lex_leastHex : leastHex.source = "INT:-0x8000000000000000" ∧ leastHex.InRange ∧
    (lex leastHex.source).tokens.map Token.kind = [.eof] ∧
    (lex leastHex.source).errors.map LexError.fault = [.malformedLiteral "INT:-0x8000000000000000"] ∧
    (lex "INT:-9223372036854775808").tokens.map Token.kind = [.int leastHex.value, .eof] := by
  refine ⟨rfl, ⟨by decide, by decide⟩, ?_, ?_, ?_⟩ <;> decide +kernel

end TagLang
