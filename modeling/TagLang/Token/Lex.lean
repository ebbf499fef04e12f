import TagLang.Token.Reading

/-! # From text to tokens

`lex` never stops at a fault: what cannot be read is reported and skipped.
-/

namespace TagLang

structure LexError where
  fault : LexFault
  span : Span
deriving DecidableEq, Repr

def LexError.message (e : LexError) : String := e.fault.message

structure LexOutput where
  tokens : List Token
  errors : List LexError
deriving DecidableEq, Repr

namespace Lexeme

structure Found where
  tokens : List Token := []
  errors : List LexError := []

def Found.add (p : Position) (text : List Char) (found : Found) (m : Mark) : Found :=
  let start := p.after (text.take m.start)
  let body := (text.drop m.start).take (m.stop - m.start)
  let span := Span.between start (start.after body)
  match m.sense with
  | .token kind => { found with tokens := ⟨kind, String.ofList body, span⟩ :: found.tokens }
  | .fault fault => { found with errors := ⟨fault, span⟩ :: found.errors }

def Found.rejectFloat (found : Found) : Found :=
  match found.tokens with
  | ⟨.float _, raw, span⟩ :: tokens =>
    { tokens, errors := ⟨.malformedLiteral raw, span⟩ :: found.errors }
  | _ => found

def Found.extend (p : Position) (text : List Char) (found : Found) (r : Reading) : Found :=
  let found := r.marks.foldl (Found.add p text) found
  if r.integral then found.rejectFloat else found

def lexFrom (p : Position) (found : Found) (text : List Char) : LexOutput :=
  match text with
  | [] => ⟨(Token.eofAt (.between p p) :: found.tokens).reverse, found.errors.reverse⟩
  | c :: cs =>
    let r := read c cs
    lexFrom (p.after (c :: cs.take r.more)) (found.extend p (c :: cs) r) (cs.drop r.more)
termination_by text.length
decreasing_by simp only [List.length_drop, List.length_cons]; omega

end Lexeme

def lex (source : String) : LexOutput := Lexeme.lexFrom .origin {} source.toList

end TagLang
