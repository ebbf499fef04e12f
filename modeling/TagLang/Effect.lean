/-! # Effects

Sets of effects are kept in order. The unknown set stands for any effects at all and absorbs every
union.
-/

namespace TagLang

inductive EffectKind
  | inputOutput
  | nondeterminism
  | mutation
  | exception
  | allocation
deriving DecidableEq, Repr, Inhabited

namespace EffectKind

def all : List EffectKind := [inputOutput, nondeterminism, mutation, exception, allocation]

def label : EffectKind → String
  | .inputOutput => "IO"
  | .nondeterminism => "Nondeterminism"
  | .mutation => "Mutation"
  | .exception => "Exception"
  | .allocation => "Allocation"

def ofLabel? (s : String) : Option EffectKind := all.find? (·.label = s)

def rank : EffectKind → Nat
  | .inputOutput => 0
  | .nondeterminism => 1
  | .mutation => 2
  | .exception => 3
  | .allocation => 4

end EffectKind

structure Effect where
  kind : EffectKind
  value : String
deriving DecidableEq, Repr, Inhabited

namespace Effect

def codes : List (String × Effect) := [
  ("cw", ⟨.inputOutput, "console_write"⟩),
  ("cr", ⟨.inputOutput, "console_read"⟩),
  ("fr", ⟨.inputOutput, "filesystem_read"⟩),
  ("fw", ⟨.inputOutput, "filesystem_write"⟩),
  ("fd", ⟨.inputOutput, "filesystem_delete"⟩),
  ("net", ⟨.inputOutput, "network"⟩),
  ("db", ⟨.inputOutput, "database"⟩),
  ("env", ⟨.inputOutput, "environment"⟩),
  ("proc", ⟨.inputOutput, "process"⟩),
  ("time", ⟨.nondeterminism, "time"⟩),
  ("rand", ⟨.nondeterminism, "random"⟩),
  ("mut", ⟨.mutation, "heap_write"⟩),
  ("throw", ⟨.exception, "intentional"⟩),
  ("alloc", ⟨.allocation, "heap"⟩)]

def heapWrite : Effect := ⟨.mutation, "heap_write"⟩

def throwing : Effect := ⟨.exception, "intentional"⟩

def ofCode? (code : String) : Option Effect := codes.lookup code

def code? (e : Effect) : Option String := (codes.find? (·.2 = e)).map (·.1)

def render (e : Effect) : String := e.code?.getD (e.kind.label ++ ":" ++ e.value)

def before (a b : Effect) : Bool :=
  a.kind.rank < b.kind.rank || (a.kind = b.kind && decide (a.value < b.value))

def insertIn (e : Effect) : List Effect → List Effect
  | [] => [e]
  | x :: xs => if e = x then x :: xs else if e.before x then e :: x :: xs else x :: insertIn e xs

def inOrder (es : List Effect) : List Effect := es.foldl (fun acc e => e.insertIn acc) []

end Effect

inductive EffectSet
  | known (effects : List Effect)
  | unknown
deriving DecidableEq, Repr

namespace EffectSet

def empty : EffectSet := .known []

instance : Inhabited EffectSet := ⟨empty⟩

def ofEffects (es : List Effect) : EffectSet := .known (Effect.inOrder es)

def ofCodes (codes : List String) : EffectSet := ofEffects (codes.filterMap Effect.ofCode?)

def isUnknown : EffectSet → Bool
  | .unknown => true
  | .known _ => false

def isEmpty : EffectSet → Bool
  | .unknown => false
  | .known es => es.isEmpty

def union : EffectSet → EffectSet → EffectSet
  | .known as, .known bs => .known (bs.foldl (fun acc e => e.insertIn acc) as)
  | _, _ => .unknown

def subset : EffectSet → EffectSet → Bool
  | _, .unknown => true
  | .unknown, .known _ => false
  | .known as, .known bs => as.all (bs.contains ·)

/-- The effects of the first set that the second does not cover. What is unknown stays unknown, and
the unknown set covers everything else. -/
def except : EffectSet → EffectSet → EffectSet
  | .unknown, _ => .unknown
  | .known _, .unknown => empty
  | .known as, .known bs => .known (as.filter (!bs.contains ·))

def contains : EffectSet → Effect → Bool
  | .known es, e => es.contains e
  | .unknown, _ => true

def containsKind : EffectSet → EffectKind → Bool
  | .known es, kind => es.any (·.kind = kind)
  | .unknown, _ => true

def toList : EffectSet → List Effect
  | .known es => es
  | .unknown => []

def render : EffectSet → String
  | .unknown => "unknown"
  | .known [] => "pure"
  | .known es => ", ".intercalate (es.map Effect.render)

end EffectSet

end TagLang
