import TagLang.Number.Binary64
import TagLang.Table
import TagLang.Text.Reader

/-! # JSON texts

Of several members of one name the last one counts, objects are ordered by name, and values nest
less than 128 deep. A number has to be finite in double precision; it is not kept.
-/

namespace TagLang.Json

open Text

inductive Value
  | null
  | bool (value : Bool)
  | number
  | str (value : String)
  | array (items : List Value)
  | object (members : List (String × Value))
deriving Repr, Inhabited

def isSpace (c : Char) : Bool := c = ' ' || c = '\n' || c = '\t' || c = '\r'

def skipSpace (cs : List Char) : List Char := cs.dropWhile isSpace

/-! ## Strings -/

/-- A character behind `\u`; two escapes make up a character outside the basic plane. -/
def unicodeEscape : Reader Char := fun cs => do
  let (high, cs) ← digitsOf 16 4 cs
  if 0xDC00 ≤ high && high < 0xE000 then none
  else if 0xD800 ≤ high && high < 0xDC00 then
    match cs with
    | '\\' :: 'u' :: cs =>
      let (low, cs) ← digitsOf 16 4 cs
      if 0xDC00 ≤ low && low < 0xE000 then
        some (Char.ofNat (0x10000 + (high - 0xD800) * 0x400 + (low - 0xDC00)), cs)
      else none
    | _ => none
  else some (Char.ofNat high, cs)

def escape : Reader Char
  | '"' :: cs => some ('"', cs)
  | '\\' :: cs => some ('\\', cs)
  | '/' :: cs => some ('/', cs)
  | 'b' :: cs => some ('\x08', cs)
  | 'f' :: cs => some ('\x0c', cs)
  | 'n' :: cs => some ('\n', cs)
  | 'r' :: cs => some ('\r', cs)
  | 't' :: cs => some ('\t', cs)
  | 'u' :: cs => unicodeEscape cs
  | _ => none

def chars : Nat → Reader (List Char)
  | 0, _ => none
  | n + 1, cs =>
    match cs with
    | '"' :: cs => some ([], cs)
    | '\\' :: cs => do
      let (c, cs) ← escape cs
      let (rest, cs) ← chars n cs
      return (c :: rest, cs)
    | c :: cs =>
      if c.toNat < 32 then none
      else do
        let (rest, cs) ← chars n cs
        return (c :: rest, cs)
    | [] => none

def string : Reader String := fun cs => do
  let (text, cs) ← chars (cs.length + 1) cs
  return (String.ofList text, cs)

/-! ## Numbers -/

def wholePart : Reader (List Char) := fun cs => do
  let (whole, cs) ← digits cs
  if 1 < whole.length && whole.head? = some '0' then none else some (whole, cs)

def fraction : Reader (List Char)
  | '.' :: cs => digits cs
  | cs => some ([], cs)

def signedDigits : Reader Int
  | '+' :: cs => do
    let (ds, cs) ← digits cs
    return ((digitsValue 10 ds : Int), cs)
  | '-' :: cs => do
    let (ds, cs) ← digits cs
    return (-(digitsValue 10 ds : Int), cs)
  | cs => do
    let (ds, cs) ← digits cs
    return ((digitsValue 10 ds : Int), cs)

def exponent : Reader Int
  | 'e' :: cs => signedDigits cs
  | 'E' :: cs => signedDigits cs
  | cs => some (0, cs)

/-- Appends digits to a mantissa as long as it stays below `2 ^ 64`. The digits from there on are
left. -/
def extend (mantissa : Nat) : List Char → Nat × List Char
  | [] => (mantissa, [])
  | c :: cs =>
    let more := mantissa * 10 + digitsValue 10 [c]
    if more < twoPow 64 then extend more cs else (mantissa, c :: cs)

def unsigned : Reader Value := fun cs => do
  let (whole, cs) ← wholePart cs
  let (part, cs) ← fraction cs
  let (power, cs) ← exponent cs
  let (mantissa, lost) := extend 0 whole
  let (mantissa, dropped) := extend mantissa part
  let power := power + lost.length + dropped.length - part.length
  if power < 0 || Binary64.productInRange mantissa power.toNat then some (.number, cs) else none

def number : Reader Value
  | '-' :: cs => unsigned cs
  | cs => unsigned cs

/-! ## Values -/

def itemsFrom {α : Type} (item : Reader α) (close : Char) : Nat → Reader (List α)
  | 0, _ => none
  | n + 1, cs =>
    match skipSpace cs with
    | ',' :: cs => do
      let (a, cs) ← item (skipSpace cs)
      let (as, cs) ← itemsFrom item close n cs
      return (a :: as, cs)
    | c :: cs => if c = close then some ([], cs) else none
    | [] => none

def items {α : Type} (item : Reader α) (close : Char) : Reader (List α) := fun cs =>
  match skipSpace cs with
  | [] => none
  | c :: rest =>
    if c = close then some ([], rest)
    else do
      let (a, cs) ← item (c :: rest)
      let (as, cs) ← itemsFrom item close (cs.length + 1) cs
      return (a :: as, cs)

def entry (value : Reader Value) : Reader (String × Value)
  | '"' :: cs => do
    let (name, cs) ← string cs
    match skipSpace cs with
    | ':' :: cs =>
      let (v, cs) ← value (skipSpace cs)
      return ((name, v), cs)
    | _ => none
  | _ => none

/-- A value whose arrays and objects nest at most so deep. -/
def value : Nat → Reader Value
  | _, '"' :: cs => do
    let (s, cs) ← string cs
    return (.str s, cs)
  | 0, '[' :: _ => none
  | 0, '\x7b' :: _ => none
  | depth + 1, '[' :: cs => do
    let (vs, cs) ← items (value depth) ']' cs
    return (.array vs, cs)
  | depth + 1, '\x7b' :: cs => do
    let (vs, cs) ← items (entry (value depth)) '\x7d' cs
    return (.object (Table.ofList vs).entries, cs)
  | _, 'n' :: cs => word "null" .null ('n' :: cs)
  | _, 't' :: cs => word "true" (.bool true) ('t' :: cs)
  | _, 'f' :: cs => word "false" (.bool false) ('f' :: cs)
  | _, cs => number cs

def maxDepth : Nat := 127

def read? (s : String) : Option Value := do
  let (v, rest) ← value maxDepth (skipSpace s.toList)
  if (skipSpace rest).isEmpty then some v else none

def Value.get? (v : Value) (name : String) : Option Value :=
  match v with
  | .object members => members.lookup name
  | _ => none

end TagLang.Json
