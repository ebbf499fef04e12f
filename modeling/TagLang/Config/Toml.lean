import TagLang.Number.Binary64
import TagLang.Number.Width
import TagLang.Text.Reader

/-! # TOML texts

A TOML text is a list of lines: headers of tables and entries with a dotted key and a value. What
they say together is the matter of the document.
-/

namespace TagLang.Toml

open Text

inductive Value
  | str (value : String)
  | int (value : Int)
  | float
  | bool (value : Bool)
  | date
  | array (items : List Value)
  | table (entries : List (String × Value))
deriving Repr, Inhabited

/-! ## Blanks and comments -/

def isSpace (c : Char) : Bool := c = ' ' || c = '\t'

def skipSpace (cs : List Char) : List Char := cs.dropWhile isSpace

def newline? : List Char → Option (List Char)
  | '\n' :: cs => some cs
  | '\r' :: '\n' :: cs => some cs
  | _ => none

def isPlain (c : Char) : Bool := c = '\t' || (32 ≤ c.toNat && c.toNat ≠ 127)

def skipComment : List Char → List Char
  | '#' :: cs => cs.dropWhile isPlain
  | cs => cs

def skipLines : Nat → List Char → List Char
  | 0, cs => cs
  | n + 1, cs =>
    let cs := skipComment (skipSpace cs)
    match newline? cs with
    | some cs => skipLines n cs
    | none => cs

def skipAll (cs : List Char) : List Char := skipLines cs.length cs

/-! ## Strings -/

def escape : Reader Char
  | 'b' :: cs => some ('\x08', cs)
  | 't' :: cs => some ('\t', cs)
  | 'n' :: cs => some ('\n', cs)
  | 'f' :: cs => some ('\x0c', cs)
  | 'r' :: cs => some ('\r', cs)
  | '"' :: cs => some ('"', cs)
  | '\\' :: cs => some ('\\', cs)
  | 'u' :: cs => do
    let (n, cs) ← digitsOf 16 4 cs
    return (← charOfNat? n, cs)
  | 'U' :: cs => do
    let (n, cs) ← digitsOf 16 8 cs
    return (← charOfNat? n, cs)
  | _ => none

def lineChars (quote : Char) : Nat → Reader (List Char)
  | 0, _ => none
  | n + 1, cs =>
    match cs with
    | [] => none
    | c :: cs =>
      if c = quote then some ([], cs)
      else if c = '\\' && quote = '"' then do
        let (c, cs) ← escape cs
        let (rest, cs) ← lineChars quote n cs
        return (c :: rest, cs)
      else if isPlain c then do
        let (rest, cs) ← lineChars quote n cs
        return (c :: rest, cs)
      else none

def lineString (quote : Char) : Reader String := fun cs => do
  let (text, cs) ← lineChars quote (cs.length + 1) cs
  return (String.ofList text, cs)

def skipBlank : Nat → List Char → List Char
  | 0, cs => cs
  | n + 1, cs =>
    let cs := skipSpace cs
    match newline? cs with
    | some cs => skipBlank n cs
    | none => cs

/-- A backslash at the end of a line takes the line end and all blanks behind it. -/
def foldedLine? (cs : List Char) : Option (List Char) := do
  let cs ← newline? (skipSpace cs)
  return skipBlank cs.length cs

def blockChars (quote : Char) : Nat → Reader (List Char)
  | 0, _ => none
  | n + 1, cs =>
    let quotes := ((cs.take 5).takeWhile (· = quote)).length
    if 3 ≤ quotes then some (List.replicate (quotes - 3) quote, cs.drop quotes)
    else match newline? cs with
      | some cs => do
        let (rest, cs) ← blockChars quote n cs
        return ('\n' :: rest, cs)
      | none =>
        match cs with
        | [] => none
        | c :: cs =>
          if c = '\\' && quote = '"' then
            match foldedLine? cs with
            | some cs => blockChars quote n cs
            | none => do
              let (c, cs) ← escape cs
              let (rest, cs) ← blockChars quote n cs
              return (c :: rest, cs)
          else if isPlain c then do
            let (rest, cs) ← blockChars quote n cs
            return (c :: rest, cs)
          else none

def blockString (quote : Char) : Reader String := fun cs => do
  let cs := (newline? cs).getD cs
  let (text, cs) ← blockChars quote (cs.length + 1) cs
  return (String.ofList text, cs)

def string (quote : Char) : Reader String := fun cs =>
  match cs with
  | a :: b :: rest => if a = quote && b = quote then blockString quote rest else lineString quote cs
  | _ => lineString quote cs

/-! ## Keys -/

def isKeyChar (c : Char) : Bool := c.isAlphanum || c = '_' || c = '-'

def simpleKey : Reader String
  | '"' :: cs => lineString '"' cs
  | '\'' :: cs => lineString '\'' cs
  | cs =>
    match cs.span isKeyChar with
    | ([], _) => none
    | (name, cs) => some (String.ofList name, cs)

def keyParts : Nat → Reader (List String)
  | 0, _ => none
  | n + 1, cs => do
    let (name, cs) ← simpleKey (skipSpace cs)
    match skipSpace cs with
    | '.' :: cs =>
      let (names, cs) ← keyParts n cs
      return (name :: names, cs)
    | cs => return ([name], cs)

/-- How deep values may nest, and how many names a key may have. -/
def maxDepth : Nat := 79

def key : Reader (List String) := fun cs => do
  let (names, cs) ← keyParts (cs.length + 1) cs
  if names.length ≤ maxDepth then some (names, cs) else none

/-! ## Numbers and dates -/

def spacedDigits (base : Nat) : Nat → Reader (List Char)
  | 0, _ => none
  | n + 1, cs =>
    match cs.span (isDigitOf base) with
    | ([], _) => none
    | (found, '_' :: cs) => do
      let (more, cs) ← spacedDigits base n cs
      return (found ++ more, cs)
    | found => some found

def spaced (base : Nat) : Reader (List Char) := fun cs => spacedDigits base (cs.length + 1) cs

def sign : List Char → Bool × List Char
  | '-' :: cs => (true, cs)
  | '+' :: cs => (false, cs)
  | cs => (false, cs)

def decimal : Reader (Bool × List Char) := fun cs => do
  let (negative, cs) := sign cs
  match cs with
  | '0' :: cs => return ((negative, ['0']), cs)
  | cs =>
    let (ds, cs) ← spaced 10 cs
    return ((negative, ds), cs)

def integer (n : Int) (cs : List Char) : Option (Value × List Char) :=
  if fitsSigned 64 n then some (.int n, cs) else none

def prefixed (base : Nat) (cs : List Char) : Option (Value × List Char) := do
  let (ds, cs) ← spaced base cs
  integer (digitsValue base ds) cs

def wholeNumber : Reader Value
  | '0' :: 'x' :: cs => prefixed 16 cs
  | '0' :: 'o' :: cs => prefixed 8 cs
  | '0' :: 'b' :: cs => prefixed 2 cs
  | cs => do
    let ((negative, ds), cs) ← decimal cs
    let n : Int := digitsValue 10 ds
    integer (if negative then -n else n) cs

def exponent? : Reader Int
  | c :: cs =>
    if c = 'e' || c = 'E' then do
      let (negative, cs) := sign cs
      let (ds, cs) ← spaced 10 cs
      let n : Int := digitsValue 10 ds
      return (if negative then -n else n, cs)
    else none
  | [] => none

def decimalFloat : Reader Value := fun cs => do
  let ((negative, whole), cs) ← decimal cs
  let (part, power, cs) ← match cs with
    | '.' :: cs => do
      let (part, cs) ← spaced 10 cs
      match exponent? cs with
      | some (power, cs) => some (part, power, cs)
      | none => some (part, 0, cs)
    | cs => do
      let (power, cs) ← exponent? cs
      some ([], power, cs)
  if negative || Binary64.inRange (digitsValue 10 (whole ++ part)) (power - part.length)
    then some (.float, cs)
  else none

def namedFloat : Reader Value := fun cs =>
  let (_, cs) := sign cs
  (word "inf" .float cs).orElse fun _ => word "nan" .float cs

def isLeapYear (year : Nat) : Bool := year % 4 = 0 && (year % 100 ≠ 0 || year % 400 = 0)

def daysInMonth (year month : Nat) : Nat :=
  if month = 2 then (if isLeapYear year then 29 else 28)
  else if [4, 6, 9, 11].contains month then 30 else 31

def mark (c : Char) : Reader Unit
  | d :: cs => if d = c then some ((), cs) else none
  | [] => none

def day : Reader Unit := fun cs => do
  let (year, cs) ← digitsOf 10 4 cs
  let (_, cs) ← mark '-' cs
  let (month, cs) ← digitsOf 10 2 cs
  let (_, cs) ← mark '-' cs
  let (day, cs) ← digitsOf 10 2 cs
  if 1 ≤ month && month ≤ 12 && 1 ≤ day && day ≤ daysInMonth year month then some ((), cs) else none

def clock : Reader Unit := fun cs => do
  let (hour, cs) ← digitsOf 10 2 cs
  let (_, cs) ← mark ':' cs
  let (minute, cs) ← digitsOf 10 2 cs
  let (_, cs) ← mark ':' cs
  let (second, cs) ← digitsOf 10 2 cs
  if hour ≤ 23 && minute ≤ 59 && second ≤ 60 then
    match cs with
    | '.' :: more => do
      let (_, cs) ← digits more
      return ((), cs)
    | cs => some ((), cs)
  else none

def offset : Reader Unit
  | 'Z' :: cs => some ((), cs)
  | 'z' :: cs => some ((), cs)
  | c :: cs =>
    if c = '+' || c = '-' then do
      let (hour, cs) ← digitsOf 10 2 cs
      let (_, cs) ← mark ':' cs
      let (minute, cs) ← digitsOf 10 2 cs
      if hour ≤ 23 && minute ≤ 59 then some ((), cs) else none
    else none
  | [] => none

def timeOfDay : Reader Unit
  | c :: cs =>
    if c = 'T' || c = 't' || c = ' ' then do
      let (_, cs) ← clock cs
      return ((), ((offset cs).map (·.2)).getD cs)
    else none
  | [] => none

def date : Reader Value := fun cs =>
  match day cs with
  | some (_, cs) => some (.date, ((timeOfDay cs).map (·.2)).getD cs)
  | none => (clock cs).map fun (_, cs) => (.date, cs)

def number : Reader Value := fun cs =>
  (date cs).orElse fun _ => (decimalFloat cs).orElse fun _ => (namedFloat cs).orElse fun _ =>
    wholeNumber cs

/-! ## Documents -/

inductive Line
  | header (path : List String)
  | arrayHeader (path : List String)
  | entry (key : List String) (value : Value)
deriving Repr, Inhabited

def items (value : Reader Value) : Nat → Reader (List Value)
  | 0, _ => none
  | n + 1, cs =>
    match skipAll cs with
    | ']' :: cs => some ([], cs)
    | cs => do
      let (v, cs) ← value cs
      match skipAll cs with
      | ',' :: cs =>
        let (vs, cs) ← items value n cs
        return (v :: vs, cs)
      | ']' :: cs => return ([v], cs)
      | _ => none

def entry (value : Reader Value) : Reader (List String × Value) := fun cs => do
  let (path, cs) ← key cs
  match skipSpace cs with
  | '=' :: cs =>
    let (v, cs) ← value (skipSpace cs)
    return ((path, v), cs)
  | _ => none

def entries (value : Reader Value) : Nat → Reader (List (List String × Value))
  | 0, _ => none
  | n + 1, cs => do
    let (e, cs) ← entry value (skipSpace cs)
    match skipSpace cs with
    | ',' :: cs =>
      let (es, cs) ← entries value n cs
      return (e :: es, cs)
    | '\x7d' :: cs => return ([e], cs)
    | _ => none

def inlineEntries (value : Reader Value) : Reader (List (List String × Value)) := fun cs =>
  match skipSpace cs with
  | '\x7d' :: cs => some ([], cs)
  | cs => entries value (cs.length + 1) cs

def value (close : List (List String × Value) → Option Value) : Nat → Reader Value
  | _, '"' :: cs => do
    let (s, cs) ← string '"' cs
    return (.str s, cs)
  | _, '\'' :: cs => do
    let (s, cs) ← string '\'' cs
    return (.str s, cs)
  | 0, '[' :: _ => none
  | 0, '\x7b' :: _ => none
  | depth + 1, '[' :: cs => do
    let (vs, cs) ← items (value close depth) (cs.length + 1) cs
    return (.array vs, cs)
  | depth + 1, '\x7b' :: cs => do
    let (es, cs) ← inlineEntries (value close depth) cs
    return (← close es, cs)
  | _, 't' :: cs => word "true" (.bool true) ('t' :: cs)
  | _, 'f' :: cs => word "false" (.bool false) ('f' :: cs)
  | _, cs => number cs

def headerLine (cs : List Char) : Option (Line × List Char) := do
  let (path, cs) ← key cs
  let (_, cs) ← mark ']' cs
  return (.header path, cs)

def arrayHeaderLine (cs : List Char) : Option (Line × List Char) := do
  let (path, cs) ← key cs
  let (_, cs) ← word "]]" () cs
  return (.arrayHeader path, cs)

def line (close : List (List String × Value) → Option Value) : Reader Line
  | '[' :: '[' :: cs => arrayHeaderLine cs
  | '[' :: cs => headerLine cs
  | cs => do
    let ((path, v), cs) ← entry (value close maxDepth) cs
    return (.entry path v, cs)

def lines (close : List (List String × Value) → Option Value) : Nat → List Char → Option (List Line)
  | 0, _ => none
  | n + 1, cs =>
    match skipAll cs with
    | [] => some []
    | cs => do
      let (l, cs) ← line close cs
      let cs := skipComment (skipSpace cs)
      match newline? cs with
      | some cs => return l :: (← lines close n cs)
      | none => if cs.isEmpty then return [l] else none

end TagLang.Toml
