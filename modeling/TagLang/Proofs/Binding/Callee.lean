import TagLang.Proofs.Binding.Items
import TagLang.Proofs.Effect.Occurrence
import TagLang.Proofs.Tree.Node

/-! # Where callees and patterns come from

A call that is bound to a function of the module is bound to the symbol of an item, and a call that
is bound to a method is bound to an entry of a class. The patterns of a match are those of a match
of the tree, each bound against the type of the target. Binding follows the tree and makes no other
callees and no other matches.
-/

namespace TagLang

def Bound.Node.All (P : Bound.Node → Prop) (n : Bound.Node) : Prop :=
  ∀ p, Relation.ReflTransGen (fun a b => b ∈ Bound.Node.parts a) n p → P p

theorem Bound.Node.all_iff {P : Bound.Node → Prop} {n : Bound.Node} :
    n.All P ↔ P n ∧ ∀ p ∈ n.parts, p.All P :=
  forall_reflTransGen_iff

def calledName (target : String) : String := ((Text.cutLast? '.' target).map (·.2)).getD target

/-- How a pattern is bound against a type; what stands inside it is left open. -/
inductive Pattern.BoundTo (r : Registry) (expected : Ty) : Pattern → Bound.Pattern → Prop
  | wildcard (span : Span) : BoundTo r expected (.wildcard span) (.wildcard span)
  | literal (value : Literal) (span : Span) :
    BoundTo r expected (.literal value span) (.literal value span)
  | noneOf (span : Span) : BoundTo r expected (.noneOf span) (.noneOf span)
  | named {name owner : String} (span : Span) (howner : r.ownerFor? name expected = some owner) :
    BoundTo r expected (.binding name span) (.variant (some owner) name [] span)
  | binding {name : String} (symbol : SymbolId) (span : Span)
    (howner : r.ownerFor? name expected = none) :
    BoundTo r expected (.binding name span) (.binding symbol span)
  | someOf (inner : Pattern) (b : Bound.Pattern) (span : Span) :
    BoundTo r expected (.someOf inner span) (.someOf b span)
  | okOf (inner : Pattern) (b : Bound.Pattern) (span : Span) :
    BoundTo r expected (.okOf inner span) (.okOf b span)
  | errOf (inner : Pattern) (b : Bound.Pattern) (span : Span) :
    BoundTo r expected (.errOf inner span) (.errOf b span)
  | variant (typeName : Option String) (name : String) (args : List Pattern)
      (bs : List Bound.Pattern) (span : Span) :
    BoundTo r expected (.variant typeName name args span)
      (.variant (typeName <|> r.ownerFor? name expected) name bs span)

namespace Module

variable (m : Module) (T : List Pattern → Prop)

/-- What a callee of the module is bound to: an item under its name, or an entry of a class under
its name. -/
def Finds (target : String) : Bound.Callee → Prop
  | .function symbol id => ∃ f, m.items[symbol]? = some (.function f) ∧ f.id = id ∧ f.name = target
  | .method className id =>
    ∃ info, m.declared.registry.method? className (calledName target) = some info ∧ info.id = id
  | _ => True

def BindsMatch (w : Bound.Match) : Prop :=
  ∃ ps, T ps ∧ List.Forall₂ (Pattern.BoundTo m.declared.registry w.target.ty) ps (w.arms.map (·.pattern))

def FindsAt : Bound.Node → Prop
  | .expr (.mk (.call target callee _ _) _ _) => m.Finds target callee
  | .expr (.mk (.matching w) _ _) => m.BindsMatch T w
  | .stmt (.matching w) => m.BindsMatch T w
  | _ => True

abbrev FindsIn (n : Bound.Node) : Prop := n.All (m.FindsAt T)

end Module

namespace Binding

structure State.Grounded (m : Module) (s : State) : Prop where
  named : s.Named
  registry : s.registry = m.declared.registry
  functions : ∀ id sym, s.symbols.get? id = some sym → sym.isFunction = true →
    ∃ f, m.items[id]? = some (.function f) ∧ sym = f.symbol

theorem grounded_declared (m : Module) : m.declared.Grounded m where
  named := named_declareItems m.items (by simp [State.Named])
  registry := rfl
  functions := by
    intro id sym hsym hfunction
    rw [Module.get?_declared] at hsym
    obtain ⟨item, hitem, rfl⟩ := Option.map_eq_some_iff.mp hsym
    obtain ⟨f, rfl⟩ := item.eq_function_of_isFunction hfunction
    exact ⟨f, hitem, rfl⟩

variable {m : Module} {T : List Pattern → Prop}

theorem Grounded.add {s s' : State} (hs : s.Grounded m) {sym : Symbol}
    (hsym : sym.isFunction = false) (hnamed : s'.Named) (hregistry : s'.registry = s.registry)
    (hsymbols : s'.symbols = s.symbols.add sym) : s'.Grounded m where
  named := hnamed
  registry := hregistry.trans hs.registry
  functions := by
    intro id sym' hget hfunction
    rw [hsymbols, SymbolTable.get?, SymbolTable.add, Array.getElem?_push] at hget
    split at hget
    · cases hget
      simp [hsym] at hfunction
    · exact hs.functions id sym' hget hfunction

/-- A function is bound under the header of its declaration, and its callees and patterns are found. -/
structure HeaderBound (m : Module) (T : List Pattern → Prop) (owner : Option String)
    (f : FunctionDef) (g : Bound.Function) : Prop where
  id : g.id = f.id
  name : g.name = f.name
  owner : g.owner = owner
  visibility : g.visibility = f.visibility
  returnType : g.returnType = f.resultType
  declaredEffects : g.declaredEffects = f.effects.map (·.codes)
  span : g.span = f.span
  conditions : ∀ b ∈ g.preconditions ++ g.postconditions, m.FindsIn T (.expr b)
  body : ∀ s ∈ g.body, m.FindsIn T (.stmt s)

end Binding

end TagLang
