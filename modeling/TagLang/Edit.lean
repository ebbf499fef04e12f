import TagLang.Source.Span

/-! # Edits -/

namespace TagLang

inductive EditKind
  | replace
  | insert
  | delete
deriving DecidableEq, Repr

structure Edit where
  message : String
  span : Span
  replacement : String
  kind : EditKind
deriving DecidableEq, Repr

namespace Edit

def replace (message : String) (span : Span) (text : String) : Edit := ⟨message, span, text, .replace⟩

def insert (message : String) (span : Span) (text : String) : Edit := ⟨message, span, text, .insert⟩

def delete (message : String) (span : Span) : Edit := ⟨message, span, "", .delete⟩

def cutAt? : Nat → List Char → Option (List Char × List Char)
  | 0, cs => some ([], cs)
  | _ + 1, [] => none
  | n + 1, c :: cs =>
    if c.utf8Size ≤ n + 1 then (cutAt? (n + 1 - c.utf8Size) cs).map fun (as, bs) => (c :: as, bs)
    else none

def apply (e : Edit) (source : String) : String :=
  match cutAt? e.span.start source.toList, cutAt? e.span.stop source.toList with
  | some (before, behindStart), some (_, behindStop) =>
    if e.span.start ≤ e.span.stop then
      let behind := if e.kind = .insert then behindStart else behindStop
      String.ofList before ++ e.replacement ++ String.ofList behind
    else source
  | _, _ => source

def closingId (openId closeId : String) (span : Span) : Edit :=
  if closeId.isEmpty then insert s!"add the closing ID '{openId}'" span openId
  else replace s!"change closing ID '{closeId}' to '{openId}'" span openId

end Edit

end TagLang
