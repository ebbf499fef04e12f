import TagLang.Grammar.Error
import TagLang.Token
import TagLang.Tree

/-! # The stream of tokens

A stream shows one current token and keeps those after it; moving on never passes the last token,
which ends the input. Besides the tokens a parser carries the errors found so far and the tags of
the structures that are open.

Every loop of the grammar takes at least one token in each round, so the number of tokens left
bounds its rounds: `many` is the one loop that the others are made of.
-/

namespace TagLang.Grammar

structure Stream where
  current : Token
  rest : List Token
  errors : List ParseError := []
  /-- Tags of the open structures, the innermost first. -/
  openTags : List String := []
deriving Repr

abbrev Parser := StateM Stream

/-- A parser that may give up; the errors found before and the tokens taken are kept. -/
abbrev TryParser := ExceptT ParseError Parser

namespace Stream

def ofTokens (tokens : List Token) : Stream :=
  let tokens := match tokens.getLast? with
    | some ⟨.eof, _, _⟩ => tokens
    | some ⟨_, _, s⟩ => tokens ++ [Token.eofAt ⟨s.stop, s.stop, s.line, s.col⟩]
    | none => [Token.eofAt .nowhere]
  match tokens with
  | [] => { current := Token.eofAt .nowhere, rest := [] }
  | t :: ts => { current := t, rest := ts }

def kind (s : Stream) : TokenKind := s.current.kind

def nextKind (s : Stream) : TokenKind :=
  match s.rest with
  | [] => s.current.kind
  | t :: _ => t.kind

def advance (s : Stream) : Stream :=
  match s.rest with
  | [] => s
  | t :: ts => { s with current := t, rest := ts }

def skipTo (stop : TokenKind → Bool) (s : Stream) (current : Token) : List Token → Stream
  | [] => { s with current, rest := [] }
  | t :: ts => if stop current.kind then { s with current, rest := t :: ts } else skipTo stop s t ts

def skipUntil (stop : TokenKind → Bool) (s : Stream) : Stream := skipTo stop s s.current s.rest

def isOpen (s : Stream) (tag : String) : Bool := s.openTags.contains tag

def unexpected (s : Stream) (expected : String) : ParseError :=
  let t := s.current
  match t.kind with
  | .eof => ⟨.unexpectedEof expected, t.span⟩
  | kind =>
    ⟨.unexpected (if t.text.isEmpty then kind.describe else "'" ++ t.text ++ "'") expected, t.span⟩

end Stream

/-! ## Steps -/

def peek : Parser TokenKind := do return (← get).kind

def peekNext : Parser TokenKind := do return (← get).nextKind

def here : Parser Span := do return (← get).current.span

def take : Parser Token := do
  let s ← get
  set s.advance
  return s.current

def report (e : ParseError) : Parser Unit := modify fun s => { s with errors := e :: s.errors }

def reportAt (span : Span) (fault : ParseFault) : Parser Unit := report ⟨fault, span⟩

def reportUnexpected (expected : String) : Parser Unit := do report ((← get).unexpected expected)

def giveUp (expected : String) : TryParser α := do throw ((← get).unexpected expected)

def expect (kind : TokenKind) (expected : String) : TryParser Token := do
  if (← peek) = kind then take else giveUp expected

def expectIdent : TryParser (String × Span) := do
  match ← peek with
  | .ident name => return (name, (← take).span)
  | _ => giveUp "identifier"

def isTagLike : TokenKind → Bool
  | .tag _ => true
  | .closeTag _ => true
  | .eof => true
  | _ => false

def skipToTag : Parser Unit := modify (·.skipUntil isTagLike)

def recover : Parser Unit := do
  if (← peek) ≠ .eof then let _ ← take
  skipToTag

def skipArrow : Parser Unit := do
  if (← peek) = .arrow then let _ ← take

def withOpen (tag : String) (p : Parser α) : Parser α := do
  modify fun s => { s with openTags := tag :: s.openTags }
  let a ← p
  modify fun s => { s with openTags := s.openTags.tail }
  return a

def clauseTags : List (String × String) :=
  [("EI", "IF"), ("EL", "IF"), ("K", "W"), ("WHEN", "W"), ("CA", "TR"), ("FI", "TR")]

def Stream.isOpenClause (s : Stream) (tag : String) : Bool :=
  clauseTags.any fun (clause, owner) => clause = tag && s.isOpen owner

/-! ## Loops -/

/-- What loops and rules do when they have used up their bounds. The bounds are large enough, so it
is left open. -/
class Fallback where
  loop {α : Type} : Parser (List α)
  block : Parser (List Stmt)
  pattern : TryParser Pattern
  expr : TryParser Expr
  extend : Expr → TryParser Expr

instance : Fallback where
  loop := pure []
  block := pure []
  pattern := giveUp "pattern"
  expr := giveUp "expression"
  extend := pure

variable [Fallback]

inductive Round (α : Type)
  | done
  | skip
  | found (a : α)

def collect [Monad m] [MonadLiftT Parser m] (round : m (Round α)) : Nat → m (List α)
  | 0 => liftM (Fallback.loop : Parser (List α))
  | n + 1 => do
    match ← round with
    | .done => pure []
    | .skip => collect round n
    | .found a => return a :: (← collect round n)

/-- Repeats a round until it is done. A round that is not done takes a token. -/
def many (round : Parser (Round α)) : Parser (List α) := do collect round ((← get).rest.length + 1)

def tryMany (round : TryParser (Round α)) : TryParser (List α) := do
  collect round ((← get).rest.length + 1)

def skipStrayClose : Parser Unit := do
  let t ← take
  reportAt t.span (.unexpected s!"stray closing tag '{t.text}'" "statement")
  match ← peek with
  | .attrs _ => let _ ← take
  | _ => pure ()

end TagLang.Grammar
