import TagLang.Binding.Module

/-! # Checks and lookups

Much of what binding does changes neither symbols nor scopes: it reads the state, and records
errors.
-/

namespace TagLang.Binding

variable {α β : Type}

/-- A part of the binder that at most records errors. -/
def Quiet (x : Binder α) : Prop := ∀ s : State, ∃ new, (x.run s).2 = { s with errors := new ++ s.errors }

section Combinators

variable {x y : Binder α} {f : α → Binder β}

theorem quiet_pure {a : α} : Quiet (pure a) := fun _ => ⟨[], rfl⟩

theorem Quiet.bind (hx : Quiet x) (hf : ∀ a, Quiet (f a)) : Quiet (x >>= f) := by
  intro s
  obtain ⟨first, hfirst⟩ := hx s
  obtain ⟨rest, hrest⟩ := hf (x.run s).1 (x.run s).2
  refine ⟨rest ++ first, ?_⟩
  rw [hfirst] at hrest
  rw [List.append_assoc]
  exact (congrArg (fun s' => ((f (x.run s).1).run s').2) hfirst).trans hrest

theorem Quiet.map (hx : Quiet x) {g : α → β} : Quiet (g <$> x) := hx

theorem quiet_get : Quiet (get : Binder State) := fun _ => ⟨[], rfl⟩

theorem quiet_report (fault : BindFault) (span : Span) : Quiet (report fault span) := fun _ => ⟨[_], rfl⟩

theorem quiet_ite {c : Prop} [Decidable c] (hx : Quiet x) (hy : Quiet y) :
    Quiet (if c then x else y) := by
  split
  · exact hx
  · exact hy

end Combinators

theorem quiet_symbolType (id : SymbolId) : Quiet (symbolType id) := quiet_get.map

theorem quiet_registry : Quiet registry := quiet_get.map

theorem quiet_returnType : Quiet returnType := quiet_get.map

theorem quiet_expect (context : String) (expected : Ty) (value : Bound.Expr) :
    Quiet (expect context expected value) :=
  quiet_ite quiet_pure (quiet_report _ _)

theorem quiet_expectBool (context : String) (value : Bound.Expr) : Quiet (expectBool context value) :=
  quiet_ite quiet_pure (quiet_report _ _)

theorem quiet_expectInteger (context : String) (value : Bound.Expr) :
    Quiet (expectInteger context value) :=
  quiet_ite quiet_pure (quiet_report _ _)

theorem quiet_expectArgsFrom (name : String) (n : Nat) (tys : List Ty) (args : List Bound.Expr) :
    Quiet (expectArgsFrom name n tys args) := by
  induction tys generalizing n args with
  | nil => exact quiet_pure
  | cons ty tys ih =>
    cases args with
    | nil => exact quiet_pure
    | cons arg args => exact (quiet_expect _ ty arg).bind fun _ => ih (n + 1) args

theorem quiet_expectArgs (name : String) (tys : List Ty) (args : List Bound.Expr) (span : Span) :
    Quiet (expectArgs name tys args span) :=
  quiet_ite (quiet_expectArgsFrom name 1 tys args) (quiet_report _ _)

theorem quiet_checkReturn (value : Option Bound.Expr) (span : Span) : Quiet (checkReturn value span) := by
  refine quiet_returnType.bind fun expected => ?_
  split
  · exact quiet_ite quiet_pure (quiet_report _ _)
  · exact quiet_expect _ _ _
  · exact quiet_pure
  · exact quiet_pure
  · exact quiet_report _ _

theorem quiet_checkMutable (target : Bound.Expr) : Quiet (checkMutable target) := by
  unfold checkMutable
  split
  · refine quiet_get.bind fun s => ?_
    split
    · exact quiet_ite (quiet_report _ _) quiet_pure
    · exact quiet_pure
  · exact quiet_pure

theorem quiet_variants (owner : String) (vs : List VariantDef) (earlier : List VariantDef) :
    Quiet (variants owner earlier vs) := by
  induction vs generalizing earlier with
  | nil => exact quiet_pure
  | cons v vs ih =>
    unfold variants
    split
    · exact (quiet_report _ _).bind fun _ => ih _
    · exact (ih _).bind fun _ => quiet_pure

end TagLang.Binding
