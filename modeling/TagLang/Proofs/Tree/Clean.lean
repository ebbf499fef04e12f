import TagLang.Bound
import TagLang.Proofs.Ty.Read

/-! # Trees without placeholders

A tree is clean if recovery from errors left nothing in it: no erroneous expression, no erroneous
statement, and no erroneous type. A bound tree is clean if moreover every call has a callee and
every symbol stands for a declaration.
-/

namespace TagLang

namespace Ty

variable {t : Ty}

mutual

def Clean : Ty → Prop
  | .option inner => inner.Clean
  | .result ok err => ok.Clean ∧ err.Clean
  | .array element => element.Clean
  | .named _ args => allClean args
  | .function params ret => allClean params ∧ ret.Clean
  | .error => False
  | _ => True

def allClean : List Ty → Prop
  | [] => True
  | t :: ts => t.Clean ∧ allClean ts

end

theorem allClean_iff {ts : List Ty} : allClean ts ↔ ∀ t ∈ ts, t.Clean := by
  induction ts with
  | nil => simp [allClean]
  | cons t ts ih => simp [allClean, ih]

/-! ## Types that are read -/

theorem clean_builtin? {name : String} (h : builtin? name = some t) : t.Clean := by
  unfold builtin? at h
  split at h <;> cases h <;> trivial

theorem Nameable.clean (h : t.Nameable) : t.Clean := by
  induction h with
  | builtin h => exact clean_builtin? h
  | plain => trivial
  | option _ ih => exact ih
  | array _ ih => exact ih
  | result _ _ hok herr => exact ⟨hok, herr⟩
  | generic _ _ _ _ ih => exact allClean_iff.mpr ih

theorem clean_read? {text : String} (h : read? text = some t) : t.Clean := (nameable_read? h).clean

end Ty

def TypeRef.Clean (t : TypeRef) : Prop := t.ty.Clean

def typeClean? (t : Option TypeRef) : Prop := ∀ t' ∈ t, t'.Clean

/-! ## Trees -/

mutual

def Expr.Clean : Expr → Prop
  | .field base _ _ => base.Clean
  | .index base place _ => base.Clean ∧ place.Clean
  | .binary left _ right _ => left.Clean ∧ right.Clean
  | .unary _ operand _ => operand.Clean
  | .conditional test yes no _ => test.Clean ∧ yes.Clean ∧ no.Clean
  | .call _ args _ => exprsClean args
  | .create ty args _ => ty.Clean ∧ exprsClean args
  | .someOf value _ => value.Clean
  | .okOf value _ => value.Clean
  | .errOf value _ => value.Clean
  | .lambda _ params body _ => (∀ p ∈ params, p.ty.Clean) ∧ stmtsClean body
  | .await value _ => value.Clean
  | .matching m => m.Clean
  | .quantifier _ vars body _ => (∀ v ∈ vars, v.2.Clean) ∧ body.Clean
  | .error _ => False
  | _ => True

def exprsClean : List Expr → Prop
  | [] => True
  | e :: es => e.Clean ∧ exprsClean es

def exprClean? : Option Expr → Prop
  | none => True
  | some e => e.Clean

def Match.Clean : Match → Prop
  | .mk _ target arms _ _ => target.Clean ∧ armsClean arms

def armsClean : List Arm → Prop
  | [] => True
  | a :: more => a.Clean ∧ armsClean more

def Arm.Clean : Arm → Prop
  | .mk _ guard body _ => exprClean? guard ∧ body.Clean

def ArmBody.Clean : ArmBody → Prop
  | .block body => stmtsClean body
  | .value value => value.Clean

def Stmt.Clean : Stmt → Prop
  | .bind _ _ ty value _ => typeClean? ty ∧ value.Clean
  | .assign target value _ => target.Clean ∧ value.Clean
  | .branch _ test body others otherwise _ =>
    test.Clean ∧ stmtsClean body ∧ elseIfsClean others ∧ blockClean? otherwise
  | .count _ _ start stop step body _ => start.Clean ∧ stop.Clean ∧ exprClean? step ∧ stmtsClean body
  | .each _ _ source body _ => source.Clean ∧ stmtsClean body
  | .loop _ test body _ => test.Clean ∧ stmtsClean body
  | .matching m => m.Clean
  | .attempt _ body clauses finish _ => stmtsClean body ∧ catchesClean clauses ∧ blockClean? finish
  | .ret value _ => exprClean? value
  | .raise value _ => value.Clean
  | .call _ args _ => exprsClean args
  | .error _ => False

def stmtsClean : List Stmt → Prop
  | [] => True
  | s :: more => s.Clean ∧ stmtsClean more

def blockClean? : Option (List Stmt) → Prop
  | none => True
  | some body => stmtsClean body

def ElseIf.Clean : ElseIf → Prop
  | .mk test body _ => test.Clean ∧ stmtsClean body

def elseIfsClean : List ElseIf → Prop
  | [] => True
  | e :: more => e.Clean ∧ elseIfsClean more

def Catch.Clean : Catch → Prop
  | .mk exceptionType _ body _ => typeClean? exceptionType ∧ stmtsClean body

def catchesClean : List Catch → Prop
  | [] => True
  | c :: more => c.Clean ∧ catchesClean more

end

theorem exprsClean_iff {es : List Expr} : exprsClean es ↔ ∀ e ∈ es, e.Clean := by
  induction es with
  | nil => simp [exprsClean]
  | cons e es ih => simp [exprsClean, ih]

theorem armsClean_iff {arms : List Arm} : armsClean arms ↔ ∀ a ∈ arms, a.Clean := by
  induction arms with
  | nil => simp [armsClean]
  | cons a arms ih => simp [armsClean, ih]

theorem stmtsClean_iff {body : List Stmt} : stmtsClean body ↔ ∀ s ∈ body, s.Clean := by
  induction body with
  | nil => simp [stmtsClean]
  | cons s body ih => simp [stmtsClean, ih]

theorem elseIfsClean_iff {others : List ElseIf} : elseIfsClean others ↔ ∀ e ∈ others, e.Clean := by
  induction others with
  | nil => simp [elseIfsClean]
  | cons e others ih => simp [elseIfsClean, ih]

theorem catchesClean_iff {clauses : List Catch} : catchesClean clauses ↔ ∀ c ∈ clauses, c.Clean := by
  induction clauses with
  | nil => simp [catchesClean]
  | cons c clauses ih => simp [catchesClean, ih]

/-! ## Items -/

structure FunctionDef.Clean (f : FunctionDef) : Prop where
  params : ∀ p ∈ f.params, p.ty.Clean
  returnType : typeClean? f.returnType
  preconditions : ∀ e ∈ f.preconditions, e.Clean
  postconditions : ∀ e ∈ f.postconditions, e.Clean
  body : stmtsClean f.body

structure ClassDef.Clean (c : ClassDef) : Prop where
  fields : ∀ m ∈ c.fields, m.ty.Clean
  properties : ∀ m ∈ c.properties, m.ty.Clean
  methods : ∀ f ∈ c.methods, f.Clean

def SumDef.Clean (d : SumDef) : Prop := ∀ v ∈ d.variants, typeClean? v.payload

def Item.Clean : Item → Prop
  | .function f => f.Clean
  | .classDef c => c.Clean
  | .interface i => ∀ f ∈ i.methods, f.Clean
  | .enumeration d => d.Clean
  | .union d => d.Clean

def Module.Clean (m : Module) : Prop := ∀ item ∈ m.items, item.Clean

/-! ## Bound trees -/

namespace Bound

mutual

def Expr.Clean : Expr → Prop
  | .mk kind ty _ => kind.Clean ∧ ty.Clean

def ExprKind.Clean : ExprKind → Prop
  | .field base _ => base.Clean
  | .index base place => base.Clean ∧ place.Clean
  | .binary left _ right => left.Clean ∧ right.Clean
  | .unary _ operand => operand.Clean
  | .conditional test yes no => test.Clean ∧ yes.Clean ∧ no.Clean
  | .call _ callee receiver args => callee ≠ .unresolved ∧ exprClean? receiver ∧ exprsClean args
  | .create ty _ args => ty.Clean ∧ exprsClean args
  | .someOf value => value.Clean
  | .okOf value => value.Clean
  | .errOf value => value.Clean
  | .await value => value.Clean
  | .lambda _ body => stmtsClean body
  | .matching m => m.Clean
  | .quantifier _ _ body => body.Clean
  | .error => False
  | _ => True

def exprsClean : List Expr → Prop
  | [] => True
  | e :: es => e.Clean ∧ exprsClean es

def exprClean? : Option Expr → Prop
  | none => True
  | some e => e.Clean

def Match.Clean : Match → Prop
  | .mk _ target arms _ _ => target.Clean ∧ armsClean arms

def armsClean : List Arm → Prop
  | [] => True
  | a :: more => a.Clean ∧ armsClean more

def Arm.Clean : Arm → Prop
  | .mk _ guard body _ => exprClean? guard ∧ body.Clean

def ArmBody.Clean : ArmBody → Prop
  | .block body => stmtsClean body
  | .value value => value.Clean

def Stmt.Clean : Stmt → Prop
  | .bind _ value _ => value.Clean
  | .assign target value _ => target.Clean ∧ value.Clean
  | .branch test body others otherwise _ =>
    test.Clean ∧ stmtsClean body ∧ elseIfsClean others ∧ blockClean? otherwise
  | .count _ start stop step body _ => start.Clean ∧ stop.Clean ∧ exprClean? step ∧ stmtsClean body
  | .each _ source body _ => source.Clean ∧ stmtsClean body
  | .loop test body _ => test.Clean ∧ stmtsClean body
  | .matching m => m.Clean
  | .attempt body clauses finish _ => stmtsClean body ∧ catchesClean clauses ∧ blockClean? finish
  | .ret value _ => exprClean? value
  | .raise value _ => value.Clean
  | .call call _ => call.Clean

def stmtsClean : List Stmt → Prop
  | [] => True
  | s :: more => s.Clean ∧ stmtsClean more

def blockClean? : Option (List Stmt) → Prop
  | none => True
  | some body => stmtsClean body

def elseIfsClean : List ElseIf → Prop
  | [] => True
  | .mk test body :: more => (test.Clean ∧ stmtsClean body) ∧ elseIfsClean more

def catchesClean : List Catch → Prop
  | [] => True
  | .mk exceptionType _ body :: more =>
    ((∀ ty ∈ exceptionType, ty.Clean) ∧ stmtsClean body) ∧ catchesClean more

end

structure Function.Clean (f : Function) : Prop where
  returnType : f.returnType.Clean
  preconditions : ∀ e ∈ f.preconditions, e.Clean
  postconditions : ∀ e ∈ f.postconditions, e.Clean
  body : stmtsClean f.body

end Bound

structure Symbol.Clean (s : Symbol) : Prop where
  kind : s.kind ≠ .error
  ty : s.ty.Clean

def SymbolTable.Clean (t : SymbolTable) : Prop := ∀ id s, t.get? id = some s → s.Clean

structure MethodInfo.Clean (m : MethodInfo) : Prop where
  params : ∀ ty ∈ m.params, ty.Clean
  returnType : m.returnType.Clean

structure ClassInfo.Clean (c : ClassInfo) : Prop where
  members : ∀ name ty, c.members.get? name = some ty → ty.Clean
  methods : ∀ name m, c.methods.get? name = some m → m.Clean

structure Registry.Clean (r : Registry) : Prop where
  payloads : ∀ name variants, r.sumTypes.get? name = some variants → ∀ v ∈ variants,
    ∀ ty ∈ v.payload, ty.Clean
  classes : ∀ name c, r.classes.get? name = some c → c.Clean

structure Bound.Module.Clean (m : Bound.Module) : Prop where
  functions : ∀ f ∈ m.functions, f.Clean
  registry : m.registry.Clean
  symbols : m.symbols.Clean

end TagLang
