import TagLang.Text.Blank
import TagLang.Text.Numeral
import TagLang.Ty

/-! # Reading types

`Ty.read?` reads types in the form that `Ty.render` gives them and in other spellings.
-/

namespace TagLang.Ty
open Text

def isTypeName : List Char → Bool
  | [] => false
  | c :: cs => (isAlphabetic c || c == '_') && cs.all fun d => isAlphanumeric d || d == '_' || d == '.'

/-- Cuts at the commas outside angle brackets, where `depth` brackets are open; refuses brackets
that do not match. -/
def splitArgs (depth : Nat) : List Char → Option (List (List Char))
  | [] => if depth = 0 then some [[]] else none
  | c :: cs =>
    if c = ',' ∧ depth = 0 then (splitArgs 0 cs).map ([] :: ·)
    else
      let deeper := if c = '<' then some (depth + 1)
        else if c = '>' then (if depth = 0 then none else some (depth - 1))
        else some depth
      match deeper.bind (splitArgs · cs) with
      | some (piece :: pieces) => some ((c :: piece) :: pieces)
      | _ => none

def builtin? (name : String) : Option Ty :=
  match name with
  | "i8" | "sbyte" => some (.int 8 true)
  | "i16" | "short" => some (.int 16 true)
  | "i32" | "int" => some (.int 32 true)
  | "i64" | "long" => some (.int 64 true)
  | "u8" | "byte" => some (.int 8 false)
  | "u16" | "ushort" => some (.int 16 false)
  | "u32" | "uint" => some (.int 32 false)
  | "u64" | "ulong" => some (.int 64 false)
  | "f32" | "float" => some (.float 32)
  | "f64" | "double" => some (.float 64)
  | "bool" => some .bool
  | "str" | "string" => some .str
  | "char" => some .char
  | "void" => some .void
  | "object" => some .object
  | _ => none

def ofName? (name : List Char) : Option Ty :=
  match builtin? (String.ofList name) with
  | some t => some t
  | none => if isTypeName name then some (.named (String.ofList name) []) else none

def ofGeneric? (name : List Char) (args : List Ty) : Option Ty :=
  match String.ofList name, args with
  | "Option", [t] => some (.option t)
  | "Result", [ok, err] => some (.result ok err)
  | "List", [t] => some (.array t)
  | "Array", [t] => some (.array t)
  | "Option", _ => none
  | "Result", _ => none
  | "List", _ => none
  | "Array", _ => none
  | n, args => if isTypeName name then some (.named n args) else none

def dropEnd? (ending text : List Char) : Option (List Char) :=
  if ending.isSuffixOf text then some (text.take (text.length - ending.length)) else none

def readChars? : Nat → List Char → Option Ty
  | 0, _ => none
  | fuel + 1, text =>
    match trimChars text with
    | [] => none
    | '?' :: inner => (readChars? fuel inner).map .option
    | text =>
      match dropEnd? ['[', ']'] text with
      | some inner => (readChars? fuel inner).map .array
      | none =>
        match text.span (· ≠ '<') with
        | (name, []) => ofName? name
        | (name, _ :: rest) => do
          let inner ← dropEnd? ['>'] rest
          let parts ← splitArgs 0 inner
          if parts.any fun p => (trimChars p).isEmpty then none
          else
            let args ← parts.mapM (readChars? fuel)
            ofGeneric? name args

def read? (text : String) : Option Ty := readChars? (text.length + 1) text.toList

end TagLang.Ty
