import TagLang.Proofs.Binding.Sums
import TagLang.Proofs.Tree.Clean

/-! # Binding without errors

Binding never forgets an error, and makes an erroneous type, symbol or callee only where it reports
one. So from a clean tree it makes a clean bound tree, unless it leaves an error.
-/

namespace TagLang
open List

variable {f : FunctionDef} {m : Module}

namespace Ty

variable {t : Ty}

theorem Clean.element (h : t.Clean) : t.element.Clean := by
  unfold Ty.element
  split
  · exact h
  · split
    · exact h.1
    · trivial
  · trivial
  · exact h
  · trivial

theorem Clean.someType (h : t.Clean) : t.someType.Clean := by
  unfold Ty.someType
  split
  · exact h
  · trivial

theorem Clean.okType (h : t.Clean) : t.okType.Clean := by
  unfold Ty.okType
  split
  · exact h.1
  · trivial

theorem Clean.errType (h : t.Clean) : t.errType.Clean := by
  unfold Ty.errType
  split
  · exact h.2
  · trivial

theorem clean_ofLiteral (n : Int) : (ofLiteral n).Clean := by
  unfold ofLiteral
  split <;> trivial

theorem Clean.binary {op : BinOp} {left right : Ty} (hleft : left.Clean) (hright : right.Clean) :
    (op.resultType left right).Clean := by
  unfold BinOp.resultType
  split
  · trivial
  · split
    · split
      · exact hright
      · exact hleft
    · split
      · split
        · trivial
        · trivial
        · trivial
        · exact hleft
      · exact hleft

end Ty

theorem Bound.Expr.Clean.ty : {b : Bound.Expr} → b.Clean → b.ty.Clean
  | .mk _ _ _, h => h.2

theorem stmtClean_append {first rest : List Bound.Stmt} (hfirst : Bound.stmtsClean first)
    (hrest : Bound.stmtsClean rest) : Bound.stmtsClean (first ++ rest) := by
  induction first with
  | nil => exact hrest
  | cons s first ih => exact ⟨hfirst.1, ih hfirst.2⟩

theorem clean_resultType (h : typeClean? f.returnType) : f.resultType.Clean := by
  unfold FunctionDef.resultType
  cases hty : f.returnType with
  | none => trivial
  | some t => exact h t hty

theorem clean_paramTypes (h : f.Clean) : Ty.allClean f.paramTypes := by
  refine Ty.allClean_iff.mpr fun ty hty => ?_
  obtain ⟨q, hq, rfl⟩ := mem_map.mp hty
  exact h.params q hq

theorem clean_info {c : ClassDef} (h : c.Clean) : c.info.Clean := by
  constructor
  · intro name ty hget
    obtain ⟨m, hm, heq⟩ := mem_map.mp (Table.mem_of_get?_ofList hget)
    cases heq
    obtain hm | hm := mem_append.mp hm
    · exact h.fields m hm
    · exact h.properties m hm
  · intro name m hget
    obtain ⟨f, hf, heq⟩ := mem_map.mp (Table.mem_of_get?_ofList hget)
    cases heq
    exact ⟨Ty.allClean_iff.mp (clean_paramTypes (h.methods f hf)),
      clean_resultType (h.methods f hf).returnType⟩

theorem clean_symbol {item : Item} (h : item.Clean) : item.symbol.Clean := by
  cases item with
  | function f =>
    refine ⟨nofun, ?_, clean_resultType h.returnType⟩
    rw [map_map]
    exact clean_paramTypes h
  | classDef | interface | enumeration | union => exact ⟨nofun, trivial⟩

theorem Module.Clean.function (h : m.Clean) (hf : f ∈ m.functions) : f.Clean := by
  obtain ⟨item, hitem, hfound⟩ := mem_filterMap.mp hf
  cases item <;> cases hfound
  exact h _ hitem

theorem Module.Clean.classDef (h : m.Clean) {c : ClassDef} (hc : c ∈ m.classes) : c.Clean := by
  obtain ⟨item, hitem, hfound⟩ := mem_filterMap.mp hc
  cases item <;> cases hfound
  exact h _ hitem

theorem Module.Clean.sum (h : m.Clean) {d : SumDef} (hd : d ∈ m.sums) : d.Clean := by
  obtain ⟨item, hitem, hfound⟩ := mem_filterMap.mp hd
  cases item <;> cases hfound <;> exact h _ hitem

namespace Binding

structure State.Clean (s : State) : Prop where
  symbols : s.symbols.Clean
  registry : s.registry.Clean

theorem clean_add {t : SymbolTable} {sym : Symbol} (ht : t.Clean) (hsym : sym.Clean) :
    (t.add sym).Clean := by
  intro id sym' h
  rw [SymbolTable.get?, SymbolTable.add, Array.getElem?_push] at h
  split at h
  · cases h
    exact hsym
  · exact ht id sym' h

theorem clean_declared (hm : m.Clean) : m.declared.Clean where
  symbols := by
    intro id sym hsym
    rw [Module.get?_declared] at hsym
    obtain ⟨item, hitem, rfl⟩ := Option.map_eq_some_iff.mp hsym
    exact clean_symbol (hm item (mem_of_getElem? hitem))
  registry := by
    constructor
    · intro name infos hget v hv ty hty
      obtain ⟨before, d, after, hsums, -, rfl, -⟩ := Module.exists_sum hget
      have hd : d ∈ m.sums := by
        rw [hsums]
        simp
      obtain ⟨w, hw, rfl⟩ := mem_map.mp ((firstVariants_sublist [] d.variants).subset hv)
      obtain ⟨t, ht, rfl⟩ := Option.map_eq_some_iff.mp hty
      exact hm.sum hd w hw t ht
    · intro name info hget
      obtain ⟨before, c, after, hclasses, -, rfl, -⟩ := Module.exists_class hget
      have hc : c ∈ m.classes := by
        rw [hclasses]
        simp
      exact clean_info (hm.classDef hc)

def CalleeClean (c : Bound.Callee × Ty) : Prop := c.1 ≠ .unresolved ∧ c.2.Clean

theorem clean_armsType {arms : List Bound.Arm} (h : Bound.armsClean arms) : (armsType arms).Clean := by
  unfold armsType
  induction arms with
  | nil => trivial
  | cons a arms ih =>
    obtain ⟨pat, guard, body, span⟩ := a
    rw [findSome?_cons]
    split
    · next ty hty =>
      cases body with
      | block body => cases hty
      | value e =>
        have hvalue : (if e.ty.isIndeterminate then none else some e.ty) = some ty := hty
        split at hvalue
        · cases hvalue
        · cases hvalue
          exact h.1.2.ty
    · exact ih h.2

end Binding

end TagLang
