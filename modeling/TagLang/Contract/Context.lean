import TagLang.Contract.Term
import TagLang.Table

/-! # The context of a contract

An array has no term of its own: only its elements have terms.
-/

namespace TagLang.Contract

inductive Meaning
  | term (t : Term)
  | array (element : TermType)
deriving Repr, Inhabited

structure Context where
  inner : List (String × Meaning) := []
  outer : List (List (String × Meaning)) := []
  arrays : Table Unit := {}
  fresh : Nat := 0
deriving Repr, Inhabited

namespace Context

def indexWidth : Nat := 64

def depth (c : Context) : Nat := c.outer.length + 1

def push (c : Context) : Context := { c with inner := [], outer := c.inner :: c.outer }

def pop (c : Context) : Context :=
  match c.outer with
  | [] => c
  | frame :: outer => { c with inner := frame, outer }

def put (c : Context) (name : String) (m : Meaning) : Context := { c with inner := (name, m) :: c.inner }

def bind (c : Context) (name : String) (t : Term) : Context := c.put name (.term t)

def meaning? (name : String) (ty : Ty) : Option Meaning :=
  match TermType.ofTy? ty, ty with
  | some t, _ => some (.term (.var name t))
  | none, .array element =>
    match TermType.ofTy? element with
    | some (.int width signed) => some (.array (.int width signed))
    | _ => none
  | none, _ => none

def declare? (c : Context) (name : String) (ty : Ty) : Option Context :=
  (meaning? name ty).map (c.put name)

def find? (c : Context) (name : String) : Option Meaning :=
  (c.inner :: c.outer).findSome? (·.lookup name)

def lookup? (c : Context) (name : String) : Option Term :=
  match c.find? name with
  | some (.term t) => some t
  | _ => none

def useArray (c : Context) (name : String) : Context := { c with arrays := c.arrays.insert name () }

def freshName (c : Context) (base : String) : String := s!"{base}!q{c.fresh}"

end Context

end TagLang.Contract
