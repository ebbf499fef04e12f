import TagLang.Number.Binary64
import TagLang.Source.Span

/-! # Tokens -/

namespace TagLang

inductive TokenKind
  | tag (name : String)
  | closeTag (name : String)
  | attrs (fields : List String)
  | int (value : Int)
  | float (value : Binary64)
  | str (value : String)
  | bool (value : Bool)
  | null
  | ident (name : String)
  | plus
  | minus
  | star
  | slash
  | percent
  | eq
  | notEq
  | lt
  | ltEq
  | gt
  | gtEq
  | andAnd
  | orOr
  | bang
  | amp
  | pipe
  | caret
  | tilde
  | shl
  | shr
  | coalesce
  | question
  | implies
  | arrow
  | dot
  | comma
  | colon
  | lParen
  | rParen
  | lBracket
  | rBracket
  | eof
deriving DecidableEq, Repr, Inhabited

def TokenKind.describe : TokenKind → String
  | .tag name => "§" ++ name
  | .closeTag name => "§/" ++ name
  | .attrs fields => "\x7b" ++ ":".intercalate fields ++ "\x7d"
  | .int value => toString value
  | .float _ => "floating-point literal"
  | .str value => "\"" ++ value ++ "\""
  | .bool value => if value then "true" else "false"
  | .null => "null"
  | .ident name => name
  | .plus => "+"
  | .minus => "-"
  | .star => "*"
  | .slash => "/"
  | .percent => "%"
  | .eq => "=="
  | .notEq => "!="
  | .lt => "<"
  | .ltEq => "<="
  | .gt => ">"
  | .gtEq => ">="
  | .andAnd => "&&"
  | .orOr => "||"
  | .bang => "!"
  | .amp => "&"
  | .pipe => "|"
  | .caret => "^"
  | .tilde => "~"
  | .shl => "<<"
  | .shr => ">>"
  | .coalesce => "??"
  | .question => "?"
  | .implies => "=>"
  | .arrow => "→"
  | .dot => "."
  | .comma => ","
  | .colon => ":"
  | .lParen => "("
  | .rParen => ")"
  | .lBracket => "["
  | .rBracket => "]"
  | .eof => "end of input"

structure Token where
  kind : TokenKind
  raw : String
  span : Span
deriving DecidableEq, Repr, Inhabited

def Token.text (t : Token) : String :=
  match t.kind with
  | .str value => value
  | .attrs fields => ":".intercalate fields
  | _ => t.raw

def Token.eofAt (span : Span) : Token := ⟨.eof, "", span⟩

end TagLang
