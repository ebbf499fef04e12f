import TagLang.Number.Width
import TagLang.Text.Blank
import TagLang.Text.Numeral
import TagLang.Text.Split
import TagLang.Token

/-! # Reading one lexeme

`read` knows nothing of positions: findings are marked by character counts from the first character,
so the same text reads the same wherever it stands.
-/

namespace TagLang

inductive LexFault
  | unexpectedChar (ch : Char)
  | unterminatedString
  | invalidEscape (ch : Char)
  | malformedLiteral (text : String)
  | unterminatedAttributes
deriving DecidableEq, Repr

def LexFault.message : LexFault → String
  | .unexpectedChar ch => s!"unexpected character '{ch}'"
  | .unterminatedString => "unterminated string literal"
  | .invalidEscape ch => s!"invalid escape sequence '\\{ch}'"
  | .malformedLiteral text => s!"malformed literal '{text}'"
  | .unterminatedAttributes => "unterminated attribute block"

namespace Lexeme
open Text

inductive Sense
  | token (kind : TokenKind)
  | fault (fault : LexFault)
deriving DecidableEq, Repr

structure Mark where
  start : Nat
  stop : Nat
  sense : Sense
deriving DecidableEq, Repr

/-- One lexeme: how many characters it takes after its first one and what was found in it. An
integral lexeme does not tolerate a floating-point literal as the latest token. -/
structure Reading where
  more : Nat
  marks : List Mark
  integral : Bool := false
deriving DecidableEq, Repr

def blank (more : Nat) : Reading := { more, marks := [] }

def whole (n : Nat) (sense : Sense) : Reading := { more := n - 1, marks := [⟨0, n, sense⟩] }

def tokenOf (n : Nat) (kind : TokenKind) : Reading := whole n (.token kind)

def isBoundary (c : Char) : Bool := isBlank c || "()[]§,".toList.contains c

/-- A literal that went wrong within its first `n` characters takes everything up to the next
boundary, so that it is reported once. -/
def malformed (text : List Char) (n : Nat) : Reading :=
  let stop := n + ((text.drop n).takeWhile (!isBoundary ·)).length
  whole stop (.fault (.malformedLiteral (String.ofList (text.take stop))))

def nextIs (p : Char → Bool) (text : List Char) : Bool := text.head?.any p

/-! ## Tags -/

def attrFields (body : List Char) : List String :=
  if (trimChars body).isEmpty then []
  else (splitChars ':' body).map fun field => String.ofList (trimChars field)

def readAttrs (start : Nat) (afterBrace : List Char) : Mark :=
  let body := afterBrace.takeWhile fun c => c ≠ '\x7d' ∧ c ≠ '\n'
  let stop := start + 1 + body.length
  if nextIs (· = '\x7d') (afterBrace.drop body.length) then
    ⟨start, stop + 1, .token (.attrs (attrFields body))⟩
  else ⟨start, stop, .fault .unterminatedAttributes⟩

/-- A tag begins with a section sign, then a slash if it closes, then capitals; an attribute block
may follow at once. -/
def readTag (cs : List Char) : Reading :=
  let closing := nextIs (· = '/') cs
  let lead := if closing then 2 else 1
  let name := (cs.drop (lead - 1)).takeWhile Char.isUpper
  if name.isEmpty then whole lead (.fault (.unexpectedChar '§'))
  else
    let kind : TokenKind := if closing then .closeTag (String.ofList name) else .tag (String.ofList name)
    let stop := lead + name.length
    match cs.drop (stop - 1) with
    | '\x7b' :: afterBrace =>
      let block := readAttrs stop afterBrace
      { more := block.stop - 1, marks := [⟨0, stop, .token kind⟩, block] }
    | _ => tokenOf stop kind

/-! ## Strings -/

/-- The characters of a string behind its opening quote: what it says, where it ends, which escapes
are wrong, and whether it was closed. -/
structure StringBody where
  value : List Char
  stop : Nat
  faults : List Mark
  closed : Bool
deriving Repr

def unescape : Char → Option Char
  | 'n' => some '\n'
  | 'r' => some '\r'
  | 't' => some '\t'
  | '\\' => some '\\'
  | '"' => some '"'
  | _ => none

def readStringBody (i : Nat) : List Char → StringBody
  | [] => ⟨[], i, [], false⟩
  | c :: cs =>
    if c = '\n' then ⟨[], i, [], false⟩
    else if c = '"' then ⟨[], i + 1, [], true⟩
    else if c = '\\' then
      match cs with
      | [] => ⟨[], i + 1, [], false⟩
      | e :: cs =>
        if e = '\n' then ⟨[], i + 1, [], false⟩
        else
          let body := readStringBody (i + 2) cs
          match unescape e with
          | some d => { body with value := d :: body.value }
          | none =>
            { body with
              value := e :: body.value
              faults := ⟨i, i + 2, .fault (.invalidEscape e)⟩ :: body.faults }
    else
      let body := readStringBody (i + 1) cs
      { body with value := c :: body.value }

def readString (quote : Nat) (afterQuote : List Char) : Reading :=
  let body := readStringBody (quote + 1) afterQuote
  let found : Mark :=
    if body.closed then ⟨0, body.stop, .token (.str (String.ofList body.value))⟩
    else ⟨quote, body.stop, .fault .unterminatedString⟩
  { more := body.stop - 1, marks := body.faults ++ [found] }

/-! ## Numbers -/

def isHexDigit (c : Char) : Bool :=
  c.isDigit || ('a' ≤ c && c ≤ 'f') || ('A' ≤ c && c ≤ 'F')

def digitValue (c : Char) : Nat :=
  if c.isDigit then c.toNat - '0'.toNat
  else if 'a' ≤ c then c.toNat - 'a'.toNat + 10
  else c.toNat - 'A'.toNat + 10

def digitsValue (base : Nat) (run : List Char) : Nat :=
  (run.filter (· ≠ '_')).foldl (fun n c => n * base + digitValue c) 0

def isDigitOrSeparator (c : Char) : Bool := c.isDigit || c == '_'

def isHexOrSeparator (c : Char) : Bool := isHexDigit c || c == '_'

def isInt64 (n : Int) : Bool := fitsSigned 64 n

def signed (negative : Bool) (n : Nat) : Int := if negative then -(n : Int) else n

def readHex (text : List Char) (start : Nat) (negative : Bool) : Reading :=
  let run := (text.drop start).takeWhile isHexOrSeparator
  let stop := start + run.length
  let value := digitsValue 16 run
  if run.all (· = '_') || nextIs isAlphanumeric (text.drop stop) || !isInt64 value then
    malformed text stop
  else tokenOf stop (.int (signed negative value))

def fraction? : List Char → Option (List Char)
  | '.' :: cs => if nextIs Char.isDigit cs then some (cs.takeWhile isDigitOrSeparator) else none
  | _ => none

def readDecimal (text : List Char) (start : Nat) (negative floatOnly : Bool) : Reading :=
  let run := (text.drop start).takeWhile isDigitOrSeparator
  let pointAt := start + run.length
  let fraction := fraction? (text.drop pointAt)
  let stop := match fraction with
    | some places => pointAt + 1 + places.length
    | none => pointAt
  if run.all (· = '_') || nextIs (fun c => isAlphabetic c || c == '_') (text.drop stop) then
    malformed text stop
  else match fraction with
    | some places =>
      tokenOf stop (.float (.ofDecimal negative (digitsValue 10 (run ++ places))
        (places.filter (· ≠ '_')).length))
    | none =>
      let value := digitsValue 10 run
      if floatOnly then tokenOf stop (.float (.ofDecimal negative value 0))
      else if isInt64 (signed negative value) then tokenOf stop (.int (signed negative value))
      else malformed text stop

def readNumber (text : List Char) (start : Nat) (negative floatOnly : Bool) : Reading :=
  match text.drop start with
  | '0' :: x :: _ =>
    if (x = 'x' ∨ x = 'X') ∧ !floatOnly then readHex text (start + 2) negative
    else readDecimal text start negative floatOnly
  | _ => readDecimal text start negative floatOnly

/-! ## Words -/

def isNameStart (c : Char) : Bool := isAlphabetic c || c == '_'

def isNameChar (c : Char) : Bool := isAlphanumeric c || c == '_'

def readTypedNumber (text : List Char) (start : Nat) (floatOnly : Bool) : Reading :=
  let negative := nextIs (· = '-') (text.drop start)
  let first := if negative then start + 1 else start
  if nextIs Char.isDigit (text.drop first) then
    { readNumber text first negative floatOnly with integral := !floatOnly }
  else malformed text first

def readTypedBool (text : List Char) (start : Nat) : Reading :=
  let word := (text.drop start).takeWhile isAlphanumeric
  let stop := start + word.length
  if word = "true".toList then tokenOf stop (.bool true)
  else if word = "false".toList then tokenOf stop (.bool false)
  else malformed text stop

def readTypedString (text : List Char) (start : Nat) : Reading :=
  match text.drop start with
  | '"' :: afterQuote => readString start afterQuote
  | _ => malformed text start

def wordKind (word : String) : TokenKind :=
  if word = "true" then .bool true
  else if word = "false" then .bool false
  else if word = "null" then .null
  else .ident word

def readWord (text : List Char) : Reading :=
  let word := text.takeWhile isNameChar
  let name := String.ofList word
  let behind := word.length + 1
  if nextIs (· = ':') (text.drop word.length) && ["INT", "FLOAT", "BOOL", "STR"].contains name then
    if name = "INT" then readTypedNumber text behind false
    else if name = "FLOAT" then readTypedNumber text behind true
    else if name = "BOOL" then readTypedBool text behind
    else readTypedString text behind
  else tokenOf word.length (wordKind name)

/-! ## Operators -/

def doubleSign : Char → Char → Option TokenKind
  | '-', '>' => some .arrow
  | '!', '=' => some .notEq
  | '&', '&' => some .andAnd
  | '|', '|' => some .orOr
  | '?', '?' => some .coalesce
  | '<', '<' => some .shl
  | '<', '=' => some .ltEq
  | '>', '>' => some .shr
  | '>', '=' => some .gtEq
  | '=', '=' => some .eq
  | '=', '>' => some .implies
  | _, _ => none

def singleSign : Char → Option TokenKind
  | '+' => some .plus
  | '*' => some .star
  | '/' => some .slash
  | '%' => some .percent
  | '^' => some .caret
  | '~' => some .tilde
  | '→' => some .arrow
  | '.' => some .dot
  | ',' => some .comma
  | ':' => some .colon
  | '(' => some .lParen
  | ')' => some .rParen
  | '[' => some .lBracket
  | ']' => some .rBracket
  | '-' => some .minus
  | '!' => some .bang
  | '&' => some .amp
  | '|' => some .pipe
  | '?' => some .question
  | '<' => some .lt
  | '>' => some .gt
  | _ => none

def readSign (c : Char) (cs : List Char) : Reading :=
  match cs.head?.bind (doubleSign c) with
  | some kind => tokenOf 2 kind
  | none => match singleSign c with
    | some kind => tokenOf 1 kind
    | none => whole 1 (.fault (.unexpectedChar c))

/-- The lexeme that begins with `c` in front of `cs`. A comment runs to the end of its line. -/
def read (c : Char) (cs : List Char) : Reading :=
  if isBlank c then blank 0
  else if c = '/' ∧ nextIs (· = '/') cs then blank (cs.takeWhile (· ≠ '\n')).length
  else if c = '§' then readTag cs
  else if c = '"' then readString 0 cs
  else if c.isDigit then readNumber (c :: cs) 0 false false
  else if isNameStart c then readWord (c :: cs)
  else readSign c cs

end Lexeme

end TagLang
