import TagLang.Diagnostic
import TagLang.Text.Split

/-! # Written diagnostics -/

namespace TagLang

namespace Text

def dropLineEnd (line : List Char) : List Char :=
  if line.getLast? = some '\r' then line.dropLast else line

/-- The lines of a text. A line ends with a line feed, and with the carriage return before it; an
empty rest behind the last line feed is no line. -/
def lines (s : String) : List String :=
  let pieces := splitChars '\n' s.toList
  let last := pieces.getLastD []
  (pieces.dropLast.map dropLineEnd ++ (if last.isEmpty then [] else [last])).map String.ofList

def padLeft (width : Nat) (s : String) : String :=
  String.ofList (List.replicate (width - s.length) ' ') ++ s

end Text

namespace Diagnostic

def location? (d : Diagnostic) : Option String :=
  let file := d.file.getD "<input>"
  match d.line, d.column with
  | 0, _ => d.file
  | line, 0 => some s!"{file}:{line}"
  | line, col => some s!"{file}:{line}:{col}"

def snippet? (d : Diagnostic) (source : String) : Option (String × String) :=
  if d.line = 0 then none
  else (Text.lines source)[d.line - 1]?.map fun line =>
    let remaining := line.length - (d.column - 1)
    let mark := List.replicate (d.column - 1) ' ' ++ List.replicate (max 1 (min d.length remaining)) '^'
    (line, String.ofList mark)

structure Style where
  severity : Severity → String → String
  emphasis : String → String
  frame : String → String

def Style.plain : Style := { severity := fun _ s => s, emphasis := id, frame := id }

def coloured (colour s : String) : String := "\x1b[" ++ colour ++ "m" ++ s ++ "\x1b[0m"

def Style.ansi : Style where
  severity
    | .error => coloured "31"
    | .warning => coloured "33"
    | .info => coloured "36"
  emphasis := coloured "1"
  frame := coloured "36"

def render (style : Style) (d : Diagnostic) (source : String) : String :=
  let frame := style.frame
  let bar := frame "|"
  let head := style.severity d.severity d.severity.label ++ "[" ++ style.emphasis d.code ++ "]: "
    ++ style.emphasis d.message ++ "\n"
  let place := match d.location? with
    | some loc => "  " ++ frame "-->" ++ " " ++ loc ++ "\n"
    | none => ""
  let snippet := match d.snippet? source with
    | some (line, mark) =>
      "   " ++ bar ++ "\n" ++ Text.padLeft 3 (frame (toString d.line)) ++ " " ++ bar ++ " " ++
        line ++ "\n" ++ "   " ++ bar ++ " " ++ style.severity d.severity mark ++ "\n"
    | none => ""
  let help := if d.suggestions.isEmpty then ""
    else "   " ++ bar ++ "\n"
      ++ String.join
        (d.suggestions.map fun s => "   " ++ frame "=" ++ " " ++ frame "help" ++ ": " ++ s ++ "\n")
  head ++ place ++ snippet ++ help

end Diagnostic

def Bag.renderPlain (b : Bag) (source : String) : String :=
  "\n".intercalate (b.list.map (·.render .plain source))

end TagLang
