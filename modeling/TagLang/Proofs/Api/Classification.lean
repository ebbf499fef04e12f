import TagLang.Proofs.Api.Callers

/-! # What a comparison says of every function

Of two versions in which no identifier stands twice, every function is removed, added, changed or
none of these, and the comparison lists exactly those that are. An error belongs to one function,
and a function has at most one. So a version that breaks nothing of a version that breaks nothing
breaks nothing.
-/

namespace TagLang
open List

def FunctionDef.label (f : FunctionDef) : String := f.id ++ " (" ++ f.name ++ ")"

def ApiError.id (e : ApiError) : String :=
  match e.fault with
  | .undeclaredBreaking id _ _ => id
  | .removed id _ => id
  | .declaredBreaking id _ _ => id

def Module.Offers (m : Module) (f : FunctionDef) : Prop :=
  f.isPublic = true ∧ (f ∈ m.functions ∨ ∃ c ∈ m.classes, c.visibility = .isPublic ∧ f ∈ c.methods)

namespace Api

/-- What a caller of a function has to know about its next version: it is not public any more, its
parameters or its result are others, or it asks for more. -/
def Breaks (new : Module) (f f' : FunctionDef) : Prop :=
  ¬new.Offers f' ∨ f.params.length ≠ f'.params.length ∨
    (∃ (i : Nat) (a b : Param), f.params[i]? = some a ∧ f'.params[i]? = some b ∧
      (a.ty.ty ≠ b.ty.ty ∨ a.name ≠ b.name)) ∨
    f.resultType ≠ f'.resultType ∨ f.preconditions.length < f'.preconditions.length

def Removed (old new : Module) (f : FunctionDef) : Prop :=
  old.Offers f ∧ ∀ f' ∈ new.allFunctions, f'.id ≠ f.id

def Added (old new : Module) (f : FunctionDef) : Prop := new.Offers f ∧ ∀ f', old.Offers f' → f'.id ≠ f.id

def Changed (old new : Module) (f f' : FunctionDef) : Prop :=
  old.Offers f ∧ f' ∈ new.allFunctions ∧ f'.id = f.id ∧ Breaks new f f'

variable {old new m : Module} {f f' : FunctionDef} {e : Entry}

/-! ## Surfaces -/

theorem exists_mem_surface_iff : (∃ e ∈ surface m, e.function = f) ↔ f ∈ m.allFunctions := by
  simp [surface, Module.allFunctions, or_and_right, exists_or]

theorem offers_of_mem (he : e ∈ surface m) (hpublic : e.isPublic = true) : m.Offers e.function := by
  rcases mem_append.mp he with hfree | hmethod
  · obtain ⟨f, hf, rfl⟩ := mem_map.mp hfree
    exact ⟨hpublic, .inl hf⟩
  · obtain ⟨c, hc, hmem⟩ := mem_flatMap.mp hmethod
    obtain ⟨f, hf, rfl⟩ := mem_map.mp hmem
    obtain ⟨hclass, hmember⟩ : c.visibility = .isPublic ∧ f.isPublic = true := by simpa using hpublic
    exact ⟨hmember, .inr ⟨c, hc, hclass, hf⟩⟩

theorem mem_publicSurface_of_offers (h : m.Offers f) : ⟨f, true⟩ ∈ publicSurface m := by
  refine mem_filter.mpr ⟨?_, rfl⟩
  obtain ⟨hpublic, hf | ⟨c, hc, hclass, hf⟩⟩ := h
  · have hmem := mem_surface hf
    rw [hpublic] at hmem
    exact hmem
  · refine mem_append_right _ (mem_flatMap.mpr ⟨c, hc, mem_map.mpr ⟨f, hf, ?_⟩⟩)
    simp [hclass, hpublic]

theorem exists_mem_publicSurface_iff : (∃ e ∈ publicSurface m, e.function = f) ↔ m.Offers f := by
  constructor
  · rintro ⟨e, he, rfl⟩
    exact offers_of_mem (mem_filter.mp he).1 (mem_filter.mp he).2
  · intro h
    exact ⟨_, mem_publicSurface_of_offers h, rfl⟩

theorem isPublic_iff (h : (m.allFunctions.map (·.id)).Nodup) (he : e ∈ surface m) :
    e.isPublic = true ↔ m.Offers e.function := by
  constructor
  · exact offers_of_mem he
  · intro hoffers
    have hmem := mem_filter.mp (mem_publicSurface_of_offers hoffers)
    rw [inj_on_of_nodup_map (ids_nodup h) he hmem.1 rfl]

theorem find?_isNone_iff {entries : List Entry} {id : String} :
    (find? entries id).isNone = true ↔ ∀ e ∈ entries, e.id ≠ id := by
  simp [find?]

/-! ## Changes -/

theorem paramChanges_eq_nil_iff_getElem? (n : Nat) {as bs : List Param}
    (hlength : as.length = bs.length) : paramChanges n as bs = [] ↔
      ¬∃ (i : Nat) (a b : Param), as[i]? = some a ∧ bs[i]? = some b ∧
        (a.ty.ty ≠ b.ty.ty ∨ a.name ≠ b.name) := by
  rw [paramChanges_eq_nil_iff n hlength]
  constructor
  · rintro hsame ⟨i, a, b, ha, hb, hdiffer⟩
    have hat := congrArg (·[i]?) hsame
    simp only [getElem?_map, ha, hb, Option.map_some, Option.some.injEq, Prod.mk.injEq] at hat
    rcases hdiffer with hty | hname
    · exact hty hat.1
    · exact hname hat.2
  · intro hnone
    refine ext_getElem (by simpa using hlength) ?_
    intro i hi hi'
    rw [length_map] at hi hi'
    simp only [getElem_map]
    by_contra hdiffer
    refine hnone ⟨i, as[i], bs[i], getElem?_eq_getElem hi, getElem?_eq_getElem hi', ?_⟩
    by_contra hboth
    exact hdiffer (Prod.ext (not_not.mp (not_or.mp hboth).1) (not_not.mp (not_or.mp hboth).2))

theorem changes_ne_nil_iff (hnew : (new.allFunctions.map (·.id)).Nodup) (he : e ∈ surface new) :
    changes f e ≠ [] ↔ Breaks new f e.function := by
  have hvisible := isPublic_iff hnew he
  by_cases hlength : f.params.length = e.function.params.length
  · rw [Ne, changes_eq_nil_iff, hvisible, ← paramChanges_eq_nil_iff 1 hlength,
      paramChanges_eq_nil_iff_getElem? 1 hlength, Breaks]
    simp only [hlength, ne_eq, not_true_eq_false, false_or, not_and_or, not_not, Nat.not_le]
  · have hcount : changes f e ≠ [] := by
      intro hnil
      have hmaps := congrArg List.length (changes_eq_nil_iff.mp hnil).2.1
      exact hlength (by simpa using hmaps)
    exact iff_of_true hcount (.inr (.inl hlength))

theorem map_fst_changed_sublist : ((changed old new).map (·.1)).Sublist (surface new) := by
  unfold changed
  induction surface new with
  | nil => exact .slnil
  | cons e entries ih =>
    rw [filterMap_cons]
    dsimp only
    split
    · exact ih.cons e
    · next found hfound =>
      have hentry : found.1 = e := by
        split at hfound
        · simp only [Option.ite_none_left_eq_some, Option.some.injEq] at hfound
          rw [← hfound.2]
        · cases hfound
      rw [map_cons, hentry]
      exact ih.cons_cons e

theorem exists_mem_filter_iff {entries others : List Entry} {P Q : FunctionDef → Prop}
    (hP : ∀ f, (∃ e ∈ entries, e.function = f) ↔ P f) (hQ : ∀ f, (∃ e ∈ others, e.function = f) ↔ Q f) :
    (∃ e ∈ entries.filter fun e => (find? others e.id).isNone, e.function = f) ↔ P f ∧ ∀ f', Q f' →
      f'.id ≠ f.id := by
  have habsent (e : Entry) : (find? others e.id).isNone = true ↔ ∀ f', Q f' → f'.id ≠ e.function.id := by
    rw [find?_isNone_iff]
    constructor
    · intro hnone f' hf'
      obtain ⟨e', he', rfl⟩ := (hQ f').mpr hf'
      exact hnone e' he'
    · intro hnone e' he'
      exact hnone _ ((hQ _).mp ⟨e', he', rfl⟩)
  simp only [← hP, mem_filter, habsent]
  constructor
  · rintro ⟨e, ⟨he, hnone⟩, rfl⟩
    exact ⟨⟨e, he, rfl⟩, hnone⟩
  · rintro ⟨⟨e, he, rfl⟩, hnone⟩
    exact ⟨e, ⟨he, hnone⟩, rfl⟩

theorem exists_mem_removed_iff : (∃ e ∈ removed old new, e.function = f) ↔ Removed old new f :=
  exists_mem_filter_iff (fun _ => exists_mem_publicSurface_iff) fun _ => exists_mem_surface_iff

theorem exists_mem_added_iff : (∃ e ∈ added old new, e.function = f) ↔ Added old new f :=
  exists_mem_filter_iff (fun _ => exists_mem_publicSurface_iff) fun _ => exists_mem_publicSurface_iff

/-! ## Errors -/

def removalError (f : FunctionDef) : ApiError := ⟨.removed f.id f.name, f.span⟩

theorem id_breakingError (f : FunctionDef) (found : List String) : (breakingError f found).id = f.id := by
  unfold breakingError
  cases f.breaking <;> rfl

theorem errors_compareApis (old new : Module) : (compareApis old new).errors =
    (changed old new).map (fun c => breakingError c.1.function c.2) ++
      (removed old new).map fun e => removalError e.function := rfl

theorem filter_eq_singleton {α : Type} {key : α → String} {l : List α} (h : (l.map key).Nodup)
    {a : α} (ha : a ∈ l) : l.filter (fun b => key b = key a) = [a] := by
  induction l with
  | nil => cases ha
  | cons b l ih =>
    obtain ⟨hb, hl⟩ := nodup_cons.mp h
    rcases mem_cons.mp ha with rfl | ha
    · have hnone : l.filter (fun b => key b = key a) = [] := by
        rw [filter_eq_nil_iff]
        intro b' hb' heq
        exact hb (mem_map.mpr ⟨b', hb', by simpa using heq⟩)
      rw [filter_cons_of_pos (by simp), hnone]
    · have hne : key b ≠ key a := fun heq => hb (heq ▸ mem_map_of_mem ha)
      rw [filter_cons_of_neg (by simpa using hne), ih hl ha]

theorem hasBreaking_self (h : (m.allFunctions.map (·.id)).Nodup) :
    (compareApis m m).report.hasBreaking = false := by
  refine hasBreaking_eq_false_iff.mpr ⟨?_, ?_⟩
  · intro e he before hbefore
    obtain ⟨hmem, hid⟩ := mem_of_find?_eq_some hbefore
    obtain ⟨hsurface, hpublic⟩ := mem_filter.mp hmem
    obtain rfl := inj_on_of_nodup_map (ids_nodup h) hsurface he hid
    exact changes_eq_nil_iff.mpr ⟨hpublic, rfl, rfl, le_rfl⟩
  · intro e he
    exact ⟨e, (mem_filter.mp he).1, rfl⟩

section Versions

variable (hold : (old.allFunctions.map (·.id)).Nodup) (hnew : (new.allFunctions.map (·.id)).Nodup)
include hold hnew

theorem exists_mem_changed_iff :
    (∃ e found, (e, found) ∈ changed old new ∧ e.function = f') ↔ ∃ f, Changed old new f f' := by
  constructor
  · rintro ⟨e, found, hmem, rfl⟩
    obtain ⟨he, before, hbefore, rfl, hne⟩ := mem_changed_iff.mp hmem
    obtain ⟨hpublic, hid⟩ := mem_of_find?_eq_some hbefore
    exact ⟨before.function, exists_mem_publicSurface_iff.mp ⟨before, hpublic, rfl⟩,
      exists_mem_surface_iff.mp ⟨e, he, rfl⟩, hid.symm, (changes_ne_nil_iff hnew he).mp hne⟩
  · rintro ⟨f, hoffers, hf', hid, hbreaks⟩
    obtain ⟨e, he, rfl⟩ := exists_mem_surface_iff.mpr hf'
    have hfind := find?_eq_some_of_nodup (publicIds_nodup hold) (mem_publicSurface_of_offers hoffers)
    have hbefore : find? (publicSurface old) e.id = some ⟨f, true⟩ := by
      rw [← hfind]
      exact congrArg _ hid
    exact ⟨e, _, mem_changed_iff.mpr ⟨he, _, hbefore, rfl, (changes_ne_nil_iff hnew he).mpr hbreaks⟩, rfl⟩

/-- No two errors are about the same function: a changed one is still there, and a removed one is
not. -/
theorem nodup_ids_errors : ((compareApis old new).errors.map ApiError.id).Nodup := by
  have hids : (compareApis old new).errors.map ApiError.id =
      ((changed old new).map (·.1)).map Entry.id ++ (removed old new).map Entry.id := by
    rw [errors_compareApis, map_append, map_map, map_map, map_map]
    simp only [Function.comp_def, id_breakingError]
    rfl
  rw [hids, nodup_append]
  refine ⟨(ids_nodup hnew).sublist (map_fst_changed_sublist.map _), ?_, ?_⟩
  · exact (publicIds_nodup hold).sublist (filter_sublist.map _)
  · rintro id hchanged id' hremoved rfl
    obtain ⟨e, he, rfl⟩ := mem_map.mp hchanged
    obtain ⟨e', he', hid⟩ := mem_map.mp hremoved
    have habsent := find?_isNone_iff.mp (mem_filter.mp he').2
    exact habsent e (map_fst_changed_sublist.subset he) hid.symm

theorem hasBreaking_iff :
    (compareApis old new).report.hasBreaking = true ↔ (∃ f, Removed old new f) ∨
      ∃ f f', Changed old new f f' := by
  have hremoved : (compareApis old new).report.removed ≠ [] ↔ ∃ f, Removed old new f := by
    simp only [← exists_mem_removed_iff, compareApis, ne_eq, map_eq_nil_iff]
    constructor
    · intro hne
      obtain ⟨e, he⟩ := exists_mem_of_ne_nil _ hne
      exact ⟨e.function, e, he, rfl⟩
    · rintro ⟨f, e, he, -⟩
      exact ne_nil_of_mem he
  have hbreaking : (compareApis old new).report.breaking ≠ [] ↔ ∃ f f', Changed old new f f' := by
    rw [exists_comm]
    simp only [← exists_mem_changed_iff hold hnew, compareApis, ne_eq, flatMap_eq_nil_iff, map_eq_nil_iff,
      not_forall]
    constructor
    · rintro ⟨⟨e, found⟩, hmem, -⟩
      exact ⟨e.function, e, found, hmem, rfl⟩
    · rintro ⟨-, e, found, hmem, -⟩
      obtain ⟨-, -, -, -, hne⟩ := mem_changed_iff.mp hmem
      exact ⟨(e, found), hmem, hne⟩
  rw [or_comm, ← hremoved, ← hbreaking, ApiReport.hasBreaking]
  simp

/-- What breaks nothing of a version that breaks nothing breaks nothing. -/
theorem hasBreaking_trans {next : Module} (h : (compareApis old new).report.hasBreaking = false)
    (hnext : (compareApis new next).report.hasBreaking = false) :
    (compareApis old next).report.hasBreaking = false := by
  -- The version in between of a public function is public and unchanged for callers.
  have hbetween (e : Entry) (he : e ∈ publicSurface old) :
      ∃ e' ∈ publicSurface new, e'.id = e.id ∧ changes e.function e' = [] := by
    obtain ⟨⟨e', he', hid⟩, hsame⟩ := unchanged_of_hasBreaking_eq_false hold h he
    have hnil := hsame e' he' hid
    exact ⟨e', mem_filter.mpr ⟨he', (changes_eq_nil_iff.mp hnil).1⟩, hid, hnil⟩
  refine hasBreaking_eq_false_iff.mpr ⟨?_, ?_⟩
  · intro e he before hbefore
    obtain ⟨hmem, hid⟩ := mem_of_find?_eq_some hbefore
    obtain ⟨e', he', hid', hnil⟩ := hbetween before hmem
    have hnil' := (unchanged_of_hasBreaking_eq_false hnew hnext he').2 e he (hid'.trans hid).symm
    obtain ⟨-, hparams, hresult, hconditions⟩ := changes_eq_nil_iff.mp hnil
    obtain ⟨hpublic, hparams', hresult', hconditions'⟩ := changes_eq_nil_iff.mp hnil'
    exact changes_eq_nil_iff.mpr
      ⟨hpublic, hparams.trans hparams', hresult.trans hresult', hconditions'.trans hconditions⟩
  · intro e he
    obtain ⟨e', he', hid', -⟩ := hbetween e he
    obtain ⟨e'', he'', hid''⟩ := (unchanged_of_hasBreaking_eq_false hnew hnext he').1
    exact ⟨e'', he'', hid''.trans hid'⟩

end Versions

end Api

open Api

/-- The comparison of two versions, in neither of which an identifier stands twice. The removed, the
added and the changed functions are listed, each once, and nothing else is. There is a break exactly
if a function is removed or changed. A removed function has one error, whether or not anything is
declared; a changed one has one error, which says whether the change is declared; and no other
function has an error. To break nothing is reflexive and transitive. -/
theorem compareApis_classifies {old new : Module} (hold : (old.allFunctions.map (·.id)).Nodup)
    (hnew : (new.allFunctions.map (·.id)).Nodup) :
    (∃ fs : List FunctionDef, (compareApis old new).report.removed = fs.map FunctionDef.label ∧
      (fs.map (·.id)).Nodup ∧ ∀ f, f ∈ fs ↔ Removed old new f) ∧
    (∃ fs : List FunctionDef, (compareApis old new).report.added = fs.map FunctionDef.label ∧
      (fs.map (·.id)).Nodup ∧ ∀ f, f ∈ fs ↔ Added old new f) ∧
    (∃ cs : List (FunctionDef × List String),
      (compareApis old new).report.breaking = cs.flatMap (fun c => c.2.map (c.1.label ++ ": " ++ ·)) ∧
      (cs.map (·.1.id)).Nodup ∧ (∀ c ∈ cs, c.2 ≠ []) ∧ ∀ f', f' ∈ cs.map (·.1) ↔
        ∃ f, Changed old new f f') ∧
    ((compareApis old new).report.hasBreaking = true ↔ (∃ f, Removed old new f) ∨
      ∃ f f', Changed old new f f') ∧
    (∀ f, Removed old new f →
      (compareApis old new).errors.filter (·.id = f.id) = [⟨.removed f.id f.name, f.span⟩]) ∧
    (∀ f f', Changed old new f f' → ∃ found, found ≠ [] ∧
      (compareApis old new).errors.filter (·.id = f'.id) =
      [⟨if f'.breaking.isSome then .declaredBreaking f'.id f'.name found
        else .undeclaredBreaking f'.id f'.name found, f'.span⟩]) ∧
    (∀ id, (∀ f, Removed old new f → f.id ≠ id) → (∀ f f', Changed old new f f' → f'.id ≠ id) →
      (compareApis old new).errors.filter (·.id = id) = []) ∧
    (compareApis old old).report.hasBreaking = false ∧
    ∀ next : Module, (next.allFunctions.map (·.id)).Nodup →
      (compareApis old new).report.hasBreaking = false →
      (compareApis new next).report.hasBreaking = false →
        (compareApis old next).report.hasBreaking = false := by
  have hnodup := nodup_ids_errors hold hnew
  refine ⟨⟨(removed old new).map (·.function), ?_, ?_, ?_⟩,
    ⟨(added old new).map (·.function), ?_, ?_, ?_⟩,
    ⟨(changed old new).map fun c => (c.1.function, c.2), ?_, ?_, ?_, ?_⟩, hasBreaking_iff hold hnew,
      ?_, ?_, ?_,
    hasBreaking_self hold, fun next _ => hasBreaking_trans hold hnew⟩
  · rw [map_map]
    rfl
  · rw [map_map]
    exact (publicIds_nodup hold).sublist (filter_sublist.map _)
  · intro f
    rw [← exists_mem_removed_iff, mem_map]
  · rw [map_map]
    rfl
  · rw [map_map]
    exact (publicIds_nodup hnew).sublist (filter_sublist.map _)
  · intro f
    rw [← exists_mem_added_iff, mem_map]
  · rw [flatMap_map]
    rfl
  · have hsublist : (((changed old new).map (·.1)).map Entry.id).Sublist ((surface new).map Entry.id) :=
      map_fst_changed_sublist.map Entry.id
    have hids := (ids_nodup hnew).sublist hsublist
    rw [map_map] at hids ⊢
    exact hids
  · intro c hc
    obtain ⟨⟨e, found⟩, hmem, rfl⟩ := mem_map.mp hc
    obtain ⟨-, -, -, -, hne⟩ := mem_changed_iff.mp hmem
    exact hne
  · intro f'
    rw [← exists_mem_changed_iff hold hnew]
    simp
  · intro f hf
    obtain ⟨e, he, rfl⟩ := exists_mem_removed_iff.mpr hf
    have hmem : removalError e.function ∈ (compareApis old new).errors := by
      rw [errors_compareApis]
      exact mem_append_right _ (mem_map_of_mem he)
    exact filter_eq_singleton hnodup hmem
  · intro f f' hf
    obtain ⟨e, found, hmem, rfl⟩ := (exists_mem_changed_iff hold hnew).mpr ⟨f, hf⟩
    have herror : breakingError e.function found ∈ (compareApis old new).errors := by
      rw [errors_compareApis]
      exact mem_append_left _ (mem_map.mpr ⟨_, hmem, rfl⟩)
    obtain ⟨-, -, -, -, hne⟩ := mem_changed_iff.mp hmem
    refine ⟨found, hne, ?_⟩
    have hfilter := filter_eq_singleton hnodup herror
    rw [id_breakingError] at hfilter
    exact hfilter
  · intro id hremoved hchanged
    rw [filter_eq_nil_iff]
    intro error herror hid
    rw [decide_eq_true_iff] at hid
    rw [errors_compareApis] at herror
    rcases mem_append.mp herror with hmem | hmem
    · obtain ⟨⟨e, found⟩, hc, rfl⟩ := mem_map.mp hmem
      obtain ⟨f, hf⟩ := (exists_mem_changed_iff hold hnew).mp ⟨e, found, hc, rfl⟩
      rw [id_breakingError] at hid
      exact hchanged f _ hf hid
    · obtain ⟨e, he, rfl⟩ := mem_map.mp hmem
      exact hremoved _ (exists_mem_removed_iff.mp ⟨e, he, rfl⟩) hid

/-! ## A next version -/

def firstVersion : String :=
  "§M\x7bm1:T\x7d\n§F\x7bf1:add:pub\x7d\n§I\x7bi32:a\x7d\n§/F\x7bf1\x7d\n§F\x7bf2:sub:pub\x7d\n§/F\x7bf2\x7d\n" ++
  "§CL\x7bc1:K:pub\x7d\n§MT\x7bmt1:run:pub\x7d\n§/MT\x7bmt1\x7d\n§/CL\x7bc1\x7d\n§/M\x7bm1\x7d\n"

/-- A parameter has another type, which is declared; the class of the method is not public; one
function is gone, and another one is new. -/
def nextVersion : String :=
  "§M\x7bm1:T\x7d\n§F\x7bf1:add:pub\x7d\n§I\x7bi64:a\x7d\n§BREAKING\n§/F\x7bf1\x7d\n" ++
  "§F\x7bf3:mul:pub\x7d\n§/F\x7bf3\x7d\n§CL\x7bc1:K\x7d\n§MT\x7bmt1:run:pub\x7d\n§/MT\x7bmt1\x7d\n§/CL\x7bc1\x7d\n§/M\x7bm1\x7d\n"

set_option maxRecDepth 100000 in
theorem comparison_nextVersion :
    (cleanFront? firstVersion).bind (fun (old, _) => (cleanFront? nextVersion).map fun (new, _) =>
      ((old.allFunctions.map (·.id), new.allFunctions.map (·.id)), (compareApis old new).report.removed,
        (compareApis old new).report.added, (compareApis old new).report.breaking)) =
    some ((["f1", "f2", "mt1"], ["f1", "f3", "mt1"]), ["f2 (sub)"], ["f3 (mul)"],
      ["f1 (add): parameter 1 type changed from i32 to i64",
        "mt1 (run): no longer public: declaring class is not public"]) := by
  decide +kernel

theorem compareApis_classifies_next : ∃ old oldOut new newOut, CleanFront firstVersion old oldOut ∧
    CleanFront nextVersion new newOut ∧ (old.allFunctions.map (·.id)).Nodup ∧
      (new.allFunctions.map (·.id)).Nodup ∧
    (∃ f, f.label = "f2 (sub)" ∧ Removed old new f ∧
      (compareApis old new).errors.filter (·.id = f.id) = [⟨.removed f.id f.name, f.span⟩]) ∧
    (∃ f, f.label = "f3 (mul)" ∧ Added old new f) ∧ (∃ f f', Changed old new f f') ∧
    (compareApis old old).report.hasBreaking = false := by
  obtain ⟨⟨old, oldOut⟩, hold, h⟩ := Option.bind_eq_some_iff.mp comparison_nextVersion
  obtain ⟨⟨new, newOut⟩, hnew, h⟩ := Option.map_eq_some_iff.mp h
  simp only [Prod.mk.injEq] at h
  obtain ⟨⟨hids, hids'⟩, hremoved, hadded, hbreaking⟩ := h
  have hnodup : (old.allFunctions.map (·.id)).Nodup := by rw [hids]; decide
  have hnodup' : (new.allFunctions.map (·.id)).Nodup := by rw [hids']; decide
  obtain ⟨⟨rs, hrs, -, hrmem⟩, ⟨as, has, -, hamem⟩, ⟨cs, hcs, -, -, hcmem⟩, -, herrors, -, -, hself, -⟩ :=
    compareApis_classifies hnodup hnodup'
  have hlisted {fs : List FunctionDef} {label : String} (h : [label] = fs.map FunctionDef.label) :
      ∃ f ∈ fs, f.label = label := mem_map.mp (h ▸ mem_singleton_self label)
  obtain ⟨f, hf, hlabel⟩ := hlisted (hremoved.symm.trans hrs)
  obtain ⟨f', hf', hlabel'⟩ := hlisted (hadded.symm.trans has)
  refine ⟨old, oldOut, new, newOut, cleanFront?_eq_some hold, cleanFront?_eq_some hnew, hnodup, hnodup',
    ⟨f, hlabel, (hrmem f).mp hf, herrors f ((hrmem f).mp hf)⟩, ⟨f', hlabel', (hamem f').mp hf'⟩,
      ?_, hself⟩
  cases cs with
  | nil => cases hbreaking.symm.trans hcs
  | cons c cs =>
    obtain ⟨g, hg⟩ := (hcmem c.1).mp mem_cons_self
    exact ⟨g, c.1, hg⟩

end TagLang
