import TagLang.Proofs.Binding.Quiet

/-! # The names of symbols

Binding only adds symbols, and every name in scope is that of its symbol.
-/

namespace TagLang.Binding
open List

variable {α : Type}

def Extends (t t' : SymbolTable) : Prop := ∀ id sym, t.get? id = some sym → t'.get? id = some sym

theorem Extends.refl (t : SymbolTable) : Extends t t := fun _ _ h => h

theorem Extends.trans {t t' t'' : SymbolTable} (h : Extends t t') (h' : Extends t' t'') : Extends t t'' :=
  fun id sym hsym => h' id sym (h id sym hsym)

theorem extends_add (t : SymbolTable) (sym : Symbol) : Extends t (t.add sym) := by
  intro id sym' h
  obtain ⟨hlt, -⟩ := Array.getElem?_eq_some_iff.mp h
  rw [SymbolTable.get?, SymbolTable.add, Array.getElem?_push_lt hlt]
  exact (Array.getElem?_eq_getElem hlt).symm.trans h

theorem get?_add_size (t : SymbolTable) (sym : Symbol) : (t.add sym).get? t.size = some sym :=
  Array.getElem?_push_size

def HasName (name : String) (t : SymbolTable) (id : SymbolId) : Prop :=
  ∃ sym, t.get? id = some sym ∧ sym.name = name

def State.Named (s : State) : Prop :=
  ∀ frame ∈ s.scopes.inner :: s.scopes.outer, ∀ entry ∈ frame,
    ∃ sym, s.symbols.get? entry.2 = some sym ∧ sym.name = entry.1

theorem State.Named.lookup {s : State} (h : s.Named) {name : String} {id : SymbolId}
    (hid : s.scopes.lookup name = some id) : HasName name s.symbols id := by
  obtain ⟨frame, hframe, hlookup⟩ := exists_of_findSome?_eq_some hid
  obtain ⟨l, r, heq, -⟩ := lookup_eq_some_iff.mp hlookup
  exact h frame hframe (name, id) (by rw [heq]; simp)

/-- A part of the binder after which every name in scope is again that of its symbol. -/
def Keeps (x : Binder α) : Prop := ∀ s : State, s.Named → (x.run s).2.Named

theorem run_modify (g : State → State) (s : State) : ((modify g : Binder PUnit).run s).2 = g s := rfl

theorem keeps_enter : Keeps enter := fun _ hs => forall_mem_cons.mpr ⟨forall_mem_nil _, hs⟩

theorem keeps_leave (scope : ScopeId) : Keeps (leave scope) := by
  intro s hs
  rw [leave, run_modify]
  cases hexit : s.scopes.exit scope with
  | error e => exact hs
  | ok scopes =>
    unfold Scopes.exit at hexit
    split at hexit
    · cases hexit
    · next frame outer houter =>
      split at hexit
      · cases hexit
        intro frame' hframe'
        refine hs frame' (mem_cons_of_mem _ ?_)
        rw [houter]
        exact hframe'
      · cases hexit

theorem keeps_addSymbol (symbol : Symbol) : Keeps (addSymbol symbol) := by
  intro s hs frame hframe entry hentry
  obtain ⟨sym, hsym, hname⟩ := hs frame hframe entry hentry
  exact ⟨sym, extends_add s.symbols symbol _ _ hsym, hname⟩

theorem run_declare (name : String) (kind : SymbolKind) (span : Span) (s : State) :
    (declare name kind span).run s =
      let s' := { s with symbols := s.symbols.add ⟨name, kind, span⟩ }
      (s.symbols.size, match s.scopes.declare name s.symbols.size with
      | .ok scopes => { s' with scopes }
      | .error previous =>
        let place := ((s'.symbols.get? previous).map (·.span)).getD span
        { s' with errors := ⟨.duplicate name place, span⟩ :: s.errors }) := by
  have hstep (r : Except SymbolId Scopes) (s' : State) (id : SymbolId) : (do
      match r with
      | .ok scopes => set { s' with scopes }
      | .error previous =>
        report (.duplicate name (((s'.symbols.get? previous).map (·.span)).getD span)) span
      return id : Binder SymbolId).run s' = (id, match r with
        | .ok scopes => { s' with scopes }
        | .error previous =>
          let place := ((s'.symbols.get? previous).map (·.span)).getD span
          { s' with errors := ⟨.duplicate name place, span⟩ :: s'.errors }) := by
    cases r <;> rfl
  exact hstep (s.scopes.declare name s.symbols.size)
    { s with symbols := s.symbols.add ⟨name, kind, span⟩ } s.symbols.size

theorem keeps_declare (name : String) (kind : SymbolKind) (span : Span) :
    Keeps (declare name kind span) := by
  intro s hs
  have hnamed := keeps_addSymbol ⟨name, kind, span⟩ s hs
  rw [run_declare]
  unfold Scopes.declare
  dsimp only
  split
  · next scopes hscopes =>
    split at hscopes
    · cases hscopes
    · cases hscopes
      obtain ⟨hinner, houter⟩ := forall_mem_cons.mp hnamed
      refine forall_mem_cons.mpr ⟨forall_mem_cons.mpr ⟨?_, hinner⟩, houter⟩
      exact ⟨_, get?_add_size s.symbols _, rfl⟩
  · exact hnamed

theorem declare_free {name : String} {kind : SymbolKind} {span : Span} {s : State}
    (h : ((declare name kind span).run s).2.errors = []) :
    s.errors = [] ∧ s.scopes.lookupLocal name = none ∧ (declare name kind span).run s =
      (s.symbols.size, { s with
      symbols := s.symbols.add ⟨name, kind, span⟩
      scopes := { s.scopes with inner := (name, s.symbols.size) :: s.scopes.inner } }) := by
  rw [run_declare] at h ⊢
  unfold Scopes.declare at h ⊢
  cases hlookup : s.scopes.lookupLocal name with
  | none =>
    rw [hlookup] at h
    exact ⟨h, rfl, rfl⟩
  | some previous =>
    rw [hlookup] at h
    cases h

end TagLang.Binding
