import TagLang.Proofs.Token.Break
import TagLang.Proofs.Token.Scan
import TagLang.Proofs.Token.Section

/-! # String literals

Every string has a literal: quotes around its characters, of which backslashes, quotes, line breaks,
carriage returns and tabs are escaped. As a text of its own, alone or announced by its type, the
literal is one token that says the string. No escape ends it early, and no character that stands for
itself begins an escape.
-/

namespace TagLang
open List

/-! ## How strings are written -/

def escapeLetter? : Char → Option Char
  | '\n' => some 'n'
  | '\r' => some 'r'
  | '\t' => some 't'
  | '\\' => some '\\'
  | '"' => some '"'
  | _ => none

def escapeChar (c : Char) : List Char :=
  match escapeLetter? c with
  | some letter => ['\\', letter]
  | none => [c]

def escape (cs : List Char) : List Char := cs.flatMap escapeChar

/-- The literal of a string, behind the name of its type if it is announced. -/
def quoted (announced : Bool) (s : String) : String :=
  .ofList ((if announced then "STR:".toList else []) ++ '"' :: (escape s.toList ++ ['"']))

namespace Lexeme

/-! ## Characters behind the opening quote -/

section Body

variable {c letter : Char}

theorem unescape_of_escapeLetter (h : escapeLetter? c = some letter) :
    unescape letter = some c ∧ letter ≠ '\n' := by
  unfold escapeLetter? at h
  split at h <;> cases h <;> exact ⟨rfl, by decide⟩

theorem plain_of_escapeLetter (h : escapeLetter? c = none) : c ≠ '\n' ∧ c ≠ '"' ∧ c ≠ '\\' := by
  refine ⟨?_, ?_, ?_⟩ <;> rintro rfl <;> cases h

theorem readStringBody_escapeChar (c : Char) (i : Nat) (cs : List Char) :
    readStringBody i (escapeChar c ++ cs) =
      { readStringBody (i + (escapeChar c).length) cs with
        value := c :: (readStringBody (i + (escapeChar c).length) cs).value } := by
  unfold escapeChar
  split
  · next letter hletter =>
    obtain ⟨hunescape, hbreak⟩ := unescape_of_escapeLetter hletter
    rw [cons_append, singleton_append, readStringBody_escape hbreak, hunescape]
    rfl
  · next hplain => exact readStringBody_plain (plain_of_escapeLetter hplain) i cs

/-- An escaped string is read up to the quote behind it, and says what was escaped. -/
theorem readStringBody_escape_append (s : List Char) (i : Nat) (rest : List Char) :
    readStringBody i (escape s ++ '"' :: rest) = ⟨s, i + (escape s).length + 1, [], true⟩ := by
  induction s generalizing i with
  | nil => rw [escape, flatMap_nil, nil_append, readStringBody.eq_def]; rfl
  | cons c s ih =>
    have hescape : escape (c :: s) = escapeChar c ++ escape s := flatMap_cons
    rw [hescape, append_assoc, readStringBody_escapeChar, ih, length_append, Nat.add_assoc i]

end Body

/-! ## Literals -/

def quotedReading (text : List Char) (s : String) : Reading := tokenOf text.length (.str s)

theorem readString_escape (front : List Char) (s : String) :
    readString front.length (escape s.toList ++ ['"']) =
      quotedReading (front ++ '"' :: (escape s.toList ++ ['"'])) s := by
  have hlength : (front ++ '"' :: (escape s.toList ++ ['"'])).length =
      front.length + 1 + (escape s.toList).length + 1 := by
    simp only [length_append, length_cons, length_nil]
    omega
  rw [quotedReading, hlength, readString, readStringBody_escape_append]
  simp only [if_pos, String.ofList_toList]
  rfl

theorem read_quoted (announced : Bool) (s : String) : ∃ c cs, (quoted announced s).toList = c :: cs ∧
    read c cs = quotedReading (c :: cs) s := by
  rw [quoted, String.toList_ofList]
  cases announced with
  | false => exact ⟨'"', _, rfl, readString_escape [] s⟩
  | true =>
    refine ⟨'S', _, rfl, Eq.trans ?_ (readString_escape "STR:".toList s)⟩
    exact readWord_string ('"' :: (escape s.toList ++ ['"']))

theorem extend_quotedReading (text : List Char) (s : String) :
    Found.extend .origin text {} (quotedReading text s) =
      { tokens := [⟨.str s, String.ofList text, .between .origin (Position.origin.after text)⟩] } := by
  simp [Found.extend, quotedReading, tokenOf, whole, Found.add]

end Lexeme

/-- The literal of a string, as a text of its own, is one token that says the string, and nothing is
reported. -/
theorem lex_quoted (announced : Bool) (s : String) :
    let stop := Position.origin.after (quoted announced s).toList
    let token : Token := ⟨.str s, quoted announced s, .between .origin stop⟩
    lex (quoted announced s) = ⟨[token, .eofAt (.between stop stop)], []⟩ ∧ token.text = s := by
  obtain ⟨c, cs, htext, hread⟩ := Lexeme.read_quoted announced s
  refine ⟨?_, rfl⟩
  have hmore : (Lexeme.read c cs).more = cs.length := by
    rw [hread]
    exact Nat.add_sub_cancel cs.length 1
  rw [Lexeme.Scan.lex_eq_of_read htext hmore, hread, ← htext, Lexeme.extend_quotedReading,
    String.ofList_toList]
  rfl

end TagLang
