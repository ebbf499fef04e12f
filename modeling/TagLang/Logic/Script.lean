import TagLang.Logic.Formula

/-! # SMT-LIB texts -/

namespace TagLang

namespace Script

def reserved : List String :=
  ["and", "or", "not", "xor", "ite", "let", "forall", "exists", "true", "false", "select", "store",
    "distinct", "assert", "par", "as", "_", "!"]

def isSymbolChar (c : Char) : Bool := c.isAlphanum || "~!@$%^&*_-+=<>.?/".toList.contains c

/-- A name as a symbol. One that is no simple symbol is quoted, and bars in it become underscores. -/
def symbol (name : String) : String :=
  let cs := name.toList
  let simple := !cs.isEmpty && !(cs.head?.any Char.isDigit) && cs.all isSymbolChar &&
    !reserved.contains name
  if simple then name
  else "|" ++ String.ofList (cs.map fun c => if c = '|' then '_' else c) ++ "|"

def form (head : String) (args : List String) : String := "(" ++ " ".intercalate (head :: args) ++ ")"

def declaration (v : String × VarSort) : String := form (symbol v.1) [v.2.render]

def quantifierWord : QuantifierKind → String
  | .universal => "forall"
  | .existential => "exists"

def nary (head empty : String) : List String → String
  | [] => empty
  | [part] => part
  | parts => form head parts

end Script

open Script

mutual

def Formula.smtLib : Formula → String
  | .bool value => if value then "true" else "false"
  | .const bits width => s!"(_ bv{bits.toNat} {width})"
  | .var name _ => symbol name
  | .not a => form "not" [a.smtLib]
  | .and parts => nary "and" "true" (smtLibAll parts)
  | .or parts => nary "or" "false" (smtLibAll parts)
  | .xor a b => form "xor" [a.smtLib, b.smtLib]
  | .implies a b => form "=>" [a.smtLib, b.smtLib]
  | .eq a b => form "=" [a.smtLib, b.smtLib]
  | .ite c a b => form "ite" [c.smtLib, a.smtLib, b.smtLib]
  | .binary op a b => form op.text [a.smtLib, b.smtLib]
  | .compare cmp a b => form cmp.text [a.smtLib, b.smtLib]
  | .neg a => form "bvneg" [a.smtLib]
  | .bitNot a => form "bvnot" [a.smtLib]
  | .signExtend more a => form s!"(_ sign_extend {more})" [a.smtLib]
  | .zeroExtend more a => form s!"(_ zero_extend {more})" [a.smtLib]
  | .extract count a => form s!"(_ extract {count - 1} 0)" [a.smtLib]
  | .select array index => form "select" [array.smtLib, index.smtLib]
  | .quantifier kind vars body =>
    form (quantifierWord kind) ["(" ++ " ".intercalate (vars.map declaration) ++ ")", body.smtLib]

def Formula.smtLibAll : List Formula → List String
  | [] => []
  | f :: fs => f.smtLib :: smtLibAll fs

end

namespace Script

def logic (assertions : List Formula) : String :=
  if assertions.any (·.hasQuantifier) then "ALL"
  else if assertions.any (·.hasArray) then "QF_ABV"
  else "QF_BV"

def render (assertions : List Formula) (timeout : Option Nat) (wantModel : Bool) : String :=
  let vars := Formula.firstOfName [] (assertions.flatMap (·.freeVars))
  let lines :=
    (if wantModel then ["(set-option :produce-models true)"] else []) ++
    (match timeout with
      | some ms => [s!"(set-option :timeout {ms})"]
      | none => []) ++
    [s!"(set-logic {logic assertions})"] ++
    vars.map (fun (name, sort) => form "declare-const" [symbol name, sort.render]) ++
    assertions.map (fun a => form "assert" [a.smtLib]) ++
    ["(check-sat)"] ++
    (if wantModel then ["(get-model)"] else []) ++
    ["(exit)"]
  String.join (lines.map (· ++ "\n"))

end Script

end TagLang
