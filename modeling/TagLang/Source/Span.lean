/-! # Places in a source text

A position counts UTF-8 bytes from the start of the text, lines from one, and characters of the line
from one. A span is a stretch of bytes together with the line and column where it begins.
-/

namespace TagLang

structure Position where
  offset : Nat
  line : Nat
  col : Nat
deriving DecidableEq, Repr

namespace Position

def origin : Position := ⟨0, 1, 1⟩

def next (p : Position) (c : Char) : Position :=
  if c = '\n' then ⟨p.offset + c.utf8Size, p.line + 1, 1⟩
  else ⟨p.offset + c.utf8Size, p.line, p.col + 1⟩

def after (p : Position) (cs : List Char) : Position := cs.foldl next p

@[simp] theorem after_nil (p : Position) : p.after [] = p := rfl

@[simp] theorem after_cons (p : Position) (c : Char) (cs : List Char) :
    p.after (c :: cs) = (p.next c).after cs := rfl

theorem after_append (p : Position) (as bs : List Char) :
    p.after (as ++ bs) = (p.after as).after bs := List.foldl_append

end Position

structure Span where
  start : Nat
  stop : Nat
  line : Nat
  col : Nat
deriving DecidableEq, Repr, Inhabited

namespace Span

def nowhere : Span := ⟨0, 0, 0, 0⟩

def between (p q : Position) : Span := ⟨p.offset, q.offset, p.line, p.col⟩

def size (s : Span) : Nat := s.stop - s.start

def startsBy (s t : Span) : Bool := s.line < t.line || (s.line == t.line && s.col ≤ t.col)

def merge (s t : Span) : Span :=
  let head := if s.startsBy t then s else t
  ⟨min s.start t.start, max s.stop t.stop, head.line, head.col⟩

end Span

end TagLang
