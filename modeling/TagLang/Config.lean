import TagLang.Config.Document
import TagLang.Solver

/-! # Configuration of a project

The settings of a project with their defaults, and how they are read from a TOML text.
-/

namespace TagLang

structure Config where
  stubs : Option String := none
  verify : Bool := true
  solver : SolverChoice := .auto
  timeout : Nat := 5000
  coverage : Bool := true
  effects : Bool := true
deriving DecidableEq, Repr, Inhabited

namespace Config

open Toml (Value)

def setting? (section_ : Value) (name : String) (place : Nat) : Option Value :=
  match section_ with
  | .table entries => entries.lookup name
  | .array items => items[place]?
  | _ => none

/-- A date counts as a section that gives no settings. -/
def isSection : Value → Bool
  | .table _ => true
  | .array _ => true
  | .date => true
  | _ => false

def read {α : Type} (default : α) (decode : Value → Option α) : Option Value → Option α
  | none => some default
  | some v => decode v

def bool? : Value → Option Bool
  | .bool b => some b
  | _ => none

def text? : Value → Option String
  | .str s => some s
  | _ => none

def count? : Value → Option Nat
  | .int n => if 0 ≤ n then some n.toNat else none
  | _ => none

def isEmptyValue : Value → Bool
  | .table entries => entries.isEmpty
  | .array items => items.isEmpty
  | _ => false

/-- The choice of a solver is a word, or a table with this word as its only key and nothing under
it. -/
def solver? : Value → Option SolverChoice
  | .str s => SolverChoice.ofLabel? s
  | .table [(name, v)] => if isEmptyValue v then SolverChoice.ofLabel? name else none
  | _ => none

def sectionOf (entries : List (String × Value)) (name : String) : Option Value :=
  match entries.lookup name with
  | none => some (.table [])
  | some v => if isSection v then some v else none

def ofEntries? (entries : List (String × Value)) : Option Config := do
  let effects ← sectionOf entries "effects"
  let verification ← sectionOf entries "verification"
  let analysis ← sectionOf entries "analysis"
  return {
    stubs := ← read none (fun v => (text? v).map some) (setting? effects "stubs" 0)
    verify := ← read true bool? (setting? verification "enabled" 0)
    solver := ← read .auto solver? (setting? verification "solver" 1)
    timeout := ← read 5000 count? (setting? verification "timeout_ms" 2)
    coverage := ← read true bool? (setting? analysis "exhaustiveness" 0)
    effects := ← read true bool? (setting? analysis "effects" 1) }

def parse? (text : String) : Option Config := do ofEntries? (← Toml.read? text)

def template : String :=
  "# Calor project configuration\n\n[effects]\n# JSON overlay mapping external signatures to effect codes\n" ++
  "# stubs = \"effects.json\"\n\n[verification]\nenabled = true\n# auto | z3 | builtin\nsolver = \"auto\"\n" ++
  "timeout_ms = 5000\n\n[analysis]\nexhaustiveness = true\neffects = true\n"

end Config

end TagLang
