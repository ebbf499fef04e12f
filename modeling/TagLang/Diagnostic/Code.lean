/-! # Stable codes -/

namespace TagLang

def codeDocs : List (String × String) := [
  ("E0001",
    "A character that cannot start any token was found. Only tags, identifiers, literals and operators are allowed outside strings."),
  ("E0002", "A string literal was opened but never closed before the end of the line."),
  ("E0003",
    "A backslash escape inside a string is not one of \\n, \\t, \\r, \\0, \\\\, \\\" or \\u\x7bXXXX\x7d."),
  ("E0004",
    "A numeric or typed literal (INT:, FLOAT:, BOOL:, STR:) could not be decoded or is out of range."),
  ("E0005", "An attribute block '\x7b...\x7d' after a tag was never closed."),
  ("E0010", "The parser found a token it did not expect at this position."),
  ("E0011", "The input ended while a construct was still open."),
  ("E0012",
    "A closing tag carries a different stable ID than its opening tag. The fix-it renames the closing ID."),
  ("E0013", "A structure was opened but its closing tag was never found."),
  ("E0014", "A tag is missing a required attribute such as its stable ID or name."),
  ("E0015", "A type annotation could not be parsed."),
  ("E0016", "An attribute value is not valid for this tag, for example an unknown visibility."),
  ("E0100", "A name was used that is not declared in any enclosing scope."),
  ("E0101",
    "A name was declared twice in the same scope. Both declarations are kept; only the first is reachable by name."),
  ("E0102", "An expression's type does not match what its context requires."),
  ("E0103", "A variable declared without '~' was assigned after its initial binding."),
  ("E0104", "An unqualified call names a function that is not declared in the module."),
  ("E0200",
    "A postcondition does not hold for some input satisfying the preconditions. The counterexample is attached."),
  ("E0201", "The preconditions can never all be true at once, so the function can never be called."),
  ("E0202", "The solver could not decide a postcondition, or the function body could not be summarised."),
  ("E0203",
    "A contract uses a construct or type that has no bit-vector translation, so it was not verified."),
  ("E0300", "A function performs an effect that its §E declaration does not list."),
  ("E0301", "A function declares an effect that its body never performs."),
  ("E0302", "A function calls external code with no catalog entry, so its effects are unknown."),
  ("E0303", "An effect declaration uses a code that is not in the effect table."),
  ("E0304", "An entry of the effect stub file could not be loaded. Other entries are still used."),
  ("E0400",
    "A match does not cover every possible value of its target. Error in expression position, warning in statement position."),
  ("E0401", "A match arm can never be reached because an earlier unguarded arm matches everything."),
  ("E0402", "Two match arms test the same constant or variant."),
  ("E0500", "The signature of a public function changed without a §BREAKING marker."),
  ("E0501", "A public function present in the previous version no longer exists."),
  ("E0502", "A breaking change was made and acknowledged with a §BREAKING marker."),
  ("E0900", "The compiler hit an internal invariant violation. This is a compiler defect."),
  ("E0901", "The project configuration could not be read or parsed."),
  ("E0902", "The effect stub file could not be read.")]

def codeDoc (code : String) : String := (codeDocs.lookup code).getD "Unknown error code."

end TagLang
