import TagLang.Proofs.Binding.Items

/-! # The sum types of a module

The variants that a name of a sum type stands for are those of the last sum type of that name, in
the order of their declaration. A variant that is declared again is left out.
-/

namespace TagLang
open List

def VariantDef.info (v : VariantDef) : VariantInfo := ⟨v.name, v.payload.map (·.ty)⟩

/-- The first variants of their names, apart from those that were seen before. -/
def firstVariants (seen : List String) : List VariantDef → List VariantInfo
  | [] => []
  | v :: vs =>
    if v.name ∈ seen then firstVariants (seen ++ [v.name]) vs
      else v.info :: firstVariants (seen ++ [v.name]) vs

def SumDef.infos (d : SumDef) : List VariantInfo := firstVariants [] d.variants

def Item.sum? : Item → Option SumDef
  | .enumeration d => some d
  | .union d => some d
  | _ => none

def Module.sums (m : Module) : List SumDef := m.items.filterMap Item.sum?

section Variants

variable {seen : List String} {vs : List VariantDef}

theorem firstVariants_sublist (seen : List String) (vs : List VariantDef) :
    (firstVariants seen vs).Sublist (vs.map VariantDef.info) := by
  induction vs generalizing seen with
  | nil => exact .slnil
  | cons v vs ih =>
    rw [firstVariants]
    split
    · exact (ih _).cons _
    · exact (ih _).cons_cons _

theorem mem_names_firstVariants {name : String} (seen : List String) (vs : List VariantDef) :
    name ∈ (firstVariants seen vs).map (·.name) ↔ name ∈ vs.map (·.name) ∧ name ∉ seen := by
  induction vs generalizing seen with
  | nil => simp [firstVariants]
  | cons v vs ih =>
    have hinfo : v.info.name = v.name := rfl
    rw [firstVariants]
    by_cases hname : name = v.name
    · subst hname
      by_cases hseen : v.name ∈ seen <;> simp [hseen, ih, hinfo]
    · split <;> simp [ih, hname, hinfo]

theorem nodup_names_firstVariants (seen : List String) (vs : List VariantDef) :
    ((firstVariants seen vs).map (·.name)).Nodup := by
  induction vs generalizing seen with
  | nil => exact nodup_nil
  | cons v vs ih =>
    rw [firstVariants]
    split
    · exact ih _
    · refine nodup_cons.mpr ⟨fun hmem => ?_, ih _⟩
      exact ((mem_names_firstVariants _ _).mp hmem).2 (mem_append_right _ mem_cons_self)

end Variants

theorem SumDef.infos_eq {d : SumDef} (h : (d.variants.map (·.name)).Nodup) :
    d.infos = d.variants.map VariantDef.info := by
  refine (firstVariants_sublist [] d.variants).eq_of_length ?_
  have hperm : (d.infos.map (·.name)).Perm (d.variants.map (·.name)) := by
    refine (perm_ext_iff_of_nodup (nodup_names_firstVariants [] d.variants) h).mpr fun name => ?_
    exact (mem_names_firstVariants [] d.variants).trans (and_iff_left not_mem_nil)
  simpa [SumDef.infos] using hperm.length_eq

namespace Binding

theorem run_variants (owner : String) (earlier vs : List VariantDef) (s : State) :
    ((variants owner earlier vs).run s).1 = firstVariants (earlier.map (·.name)) vs := by
  induction vs generalizing earlier s with
  | nil => rfl
  | cons v vs ih =>
    have hnext (s : State) : ((variants owner (earlier ++ [v]) vs).run s).1 =
        firstVariants (earlier.map (·.name) ++ [v.name]) vs := by
      rw [ih, map_append]
      rfl
    rw [firstVariants]
    unfold variants
    split
    · next previous hprevious =>
      have hname : previous.name = v.name := by simpa using find?_some hprevious
      have hseen : v.name ∈ earlier.map (·.name) :=
        mem_map.mpr ⟨previous, mem_of_find?_eq_some hprevious, hname⟩
      rw [if_pos hseen, ← hnext]
      rfl
    · next hnone =>
      have hnew : v.name ∉ earlier.map (·.name) := by
        rintro hmem
        obtain ⟨previous, hprevious, hname⟩ := mem_map.mp hmem
        simpa [hname] using find?_eq_none.mp hnone previous hprevious
      rw [if_neg hnew, ← hnext]
      rfl

theorem sumTypes_declareItem (item : Item) (s : State) :
    ((declareItem item).run s).2.registry.sumTypes =
      (item.sum?.map fun d => (d.name, d.infos)).toList.foldl (fun t (k, v) => t.insert k v)
        s.registry.sumTypes := by
  have hregistry := congrArg Registry.sumTypes
    (registry_declare item.symbol.name item.symbol.kind item.symbol.span s)
  have hsum (d : SumDef) : ((declareSum d).run s).2.registry.sumTypes =
      s.registry.sumTypes.insert d.name d.infos := by
    obtain ⟨new, hnew⟩ := quiet_variants d.name d.variants [] ((declareType d.name d.span).run s).2
    have hrun : ((declareSum d).run s).2.registry.sumTypes =
        ((variants d.name [] d.variants).run
          ((declareType d.name d.span).run s).2).2.registry.sumTypes.insert d.name
          ((variants d.name [] d.variants).run ((declareType d.name d.span).run s).2).1 := rfl
    have hname := congrArg Registry.sumTypes (registry_declare d.name (.type (.named d.name [])) d.span s)
    rw [hrun, hnew, run_variants]
    exact congrArg (Table.insert · d.name d.infos) hname
  cases item with
  | function f => exact hregistry
  | classDef c => exact hregistry
  | interface i => exact hregistry
  | enumeration d => exact hsum d
  | union d => exact hsum d

theorem sumTypes_declareItems (items : List Item) (s : State) :
    ((items.forM declareItem).run s).2.registry.sumTypes =
      ((items.filterMap Item.sum?).map fun d => (d.name, d.infos)).foldl (fun t (k, v) => t.insert k v)
        s.registry.sumTypes := by
  induction items generalizing s with
  | nil => rfl
  | cons item items ih =>
    rw [run_declareItems_cons, ih, sumTypes_declareItem]
    cases item <;> rfl

end Binding

namespace Module

variable {m : Module}

theorem sumTypes_declared (m : Module) :
    m.declared.registry.sumTypes = Table.ofList (m.sums.map fun d => (d.name, d.infos)) :=
  Binding.sumTypes_declareItems m.items {}

theorem exists_sum {name : String} {infos : List VariantInfo}
    (h : m.declared.registry.sumTypes.get? name = some infos) :
    ∃ before d after, m.sums = before ++ d :: after ∧ d.name = name ∧ d.infos = infos ∧
      ∀ d' ∈ after, d'.name ≠ name := by
  rw [sumTypes_declared] at h
  exact Table.exists_last_of_get?_map h

theorem get?_sumTypes {before after : List SumDef} {d : SumDef} (h : m.sums = before ++ d :: after)
    (hlast : ∀ d' ∈ after, d'.name ≠ d.name) :
    m.declared.registry.sumTypes.get? d.name = some d.infos := by
  have hafter : d.name ∉ (after.map fun d => (d.name, d.infos)).map (·.1) := by
    simpa using fun d' hd' heq => hlast d' hd' heq
  rw [sumTypes_declared, h, map_append, map_cons, Table.ofList, foldl_append, foldl_cons,
    Table.get?_foldl_of_notMem _ _ _ hafter, Table.get?_insert, if_pos rfl]

end Module

end TagLang
