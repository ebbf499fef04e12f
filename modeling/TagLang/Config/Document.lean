import TagLang.Config.Toml

/-! # TOML documents

The tables that the lines of a text describe. No key may be given twice; a table that a header
defines may not be defined again or extended by dotted keys, and a table that dotted keys define may
not get a header; a table that was only passed on the way to another may.
-/

namespace TagLang.Toml

inductive Node
  | closed (v : Value)
  /-- A table. An implicit one was only passed on the way to another; a dotted one is the work of
  dotted keys. -/
  | table (implicit dotted : Bool) (entries : List (String × Node))
  | tables (items : List (List (String × Node)))
deriving Inhabited

abbrev Entries := List (String × Node)

namespace Entries

def set (key : String) (n : Node) : Entries → Entries
  | [] => [(key, n)]
  | (k, m) :: es => if k = key then (k, n) :: es else (k, m) :: set key n es

/-- Adds a value under a dotted key, given by the names before the last and the last. `dotted` tells
whether the table at hand is the work of dotted keys, and `nested` whether the key has dots. -/
def add (key : String) (v : Value) (nested : Bool) : List String → Bool → Entries → Option Entries
  | [], dotted, es =>
    if dotted = nested && (es.lookup key).isNone then some (es ++ [(key, .closed v)]) else none
  | name :: path, _, es =>
    match es.lookup name with
    | none => do return es.set name (.table true true (← add key v nested path true []))
    | some (.closed _) => none
    | some (.tables items) => do
      let last ← add key v nested path false (items.getLastD [])
      return es.set name (.tables (items.dropLast ++ [last]))
    | some (.table implicit dotted inner) =>
      if implicit
        then do return es.set name (.table implicit dotted (← add key v nested path dotted inner))
      else none

def addEntry (es : Entries) (path : List String) (v : Value) : Option Entries := do
  let key ← path.getLast?
  add key v (1 < path.length) path.dropLast false es

def alter (f : Option Node → Option Node) : List String → Entries → Option Entries
  | [], _ => none
  | [key], es => do return es.set key (← f (es.lookup key))
  | key :: path, es =>
    match es.lookup key with
    | none => do return es.set key (.table true false (← alter f path []))
    | some (.closed _) => none
    | some (.tables items) => do
      let last ← alter f path (items.getLastD [])
      return es.set key (.tables (items.dropLast ++ [last]))
    | some (.table implicit dotted inner) => do
      return es.set key (.table implicit dotted (← alter f path inner))

end Entries

def openTable : Option Node → Option Node
  | none => some (.table false false [])
  | some (.table true false es) => some (.table false false es)
  | _ => none

def openArray : Option Node → Option Node
  | none => some (.tables [[]])
  | some (.tables items) => some (.tables (items ++ [[]]))
  | _ => none

def addTo (path : List String) (v : Value) : Option Node → Option Node
  | some (.table implicit dotted es) => do return .table implicit dotted (← Entries.addEntry es path v)
  | some (.tables items) => do
    return .tables (items.dropLast ++ [← Entries.addEntry (items.getLastD []) path v])
  | _ => none

structure Builder where
  entries : Entries := []
  section_ : List String := []

def Builder.add (b : Builder) : Line → Option Builder
  | .header path => do return ⟨← b.entries.alter openTable path, path⟩
  | .arrayHeader path => do return ⟨← b.entries.alter openArray path, path⟩
  | .entry path v =>
    if b.section_.isEmpty then do return { b with entries := ← b.entries.addEntry path v }
    else do return { b with entries := ← b.entries.alter (addTo path v) b.section_ }

mutual

def Node.toValue : Node → Value
  | .closed v => v
  | .table _ _ es => .table (entriesToValue es)
  | .tables items => .array (tablesToValue items)

def entriesToValue : List (String × Node) → List (String × Value)
  | [] => []
  | (k, n) :: es => (k, n.toValue) :: entriesToValue es

def tablesToValue : List (List (String × Node)) → List Value
  | [] => []
  | es :: rest => .table (entriesToValue es) :: tablesToValue rest

end

def inlineTable (es : List (List String × Value)) : Option Value := do
  let built ← es.foldlM (fun acc (path, v) => Entries.addEntry acc path v) []
  return .table (entriesToValue built)

def withoutMark : List Char → List Char
  | '\ufeff' :: cs => cs
  | cs => cs

def read? (text : String) : Option (List (String × Value)) := do
  let cs := withoutMark text.toList
  let all ← lines inlineTable (cs.length + 1) cs
  let built ← all.foldlM Builder.add {}
  return entriesToValue built.entries

end TagLang.Toml
