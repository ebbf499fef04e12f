import TagLang.Proofs.Binding.Body
import TagLang.Proofs.Effect.Fixpoint
import TagLang.Proofs.FrontEnd

/-! # Identifiers and names

A call names its callee, and the analyses look the callee up by its identifier. Nothing keeps two
functions from having the same identifier. The one that is found is the first of them, and so it is
the callee unless an earlier function has the identifier of the callee as well.
-/

namespace TagLang
open List

def Bound.Callee.id? : Bound.Callee → Option String
  | .function _ id => some id
  | .method _ id => some id
  | _ => none

def Bound.Function.Contains (g : Bound.Function) (n : Bound.Node) : Prop :=
  Bound.Occurs g.body n ∨ ∃ b ∈ g.preconditions ++ g.postconditions,
    Relation.ReflTransGen (fun a b => b ∈ Bound.Node.parts a) (.expr b) n

structure BoundForm (f : FunctionDef) (g : Bound.Function) : Prop where
  id : g.id = f.id
  name : g.name = f.name
  visibility : g.visibility = f.visibility
  returnType : g.returnType = f.resultType
  declaredEffects : g.declaredEffects = f.effects.map (·.codes)
  span : g.span = f.span
  names : ∃ tr, Binding.FunctionTrace f g tr

namespace Module

variable {m : Module} {target : String} {callee : Bound.Callee} {i : Nat} {f : FunctionDef} {id : String}

/-- The declaration that a callee was made from, with its place among all functions of the module.
The symbol of a free function is that of its item. A class means the last one of its name, and so
does a method of the class. -/
inductive DeclaredAt (m : Module) (target : String) : Bound.Callee → Nat → FunctionDef → Prop
  | function {before after : List Item} {f : FunctionDef}
    (hitems : m.items = before ++ .function f :: after) (hname : f.name = target) :
    DeclaredAt m target (.function before.length f.id) (before.filterMap Item.function?).length f
  | method {before after : List ClassDef} {c : ClassDef} {first rest : List FunctionDef} {f : FunctionDef}
      (hclasses : m.classes = before ++ c :: after) (hclass : ∀ c' ∈ after, c'.name ≠ c.name)
      (hmethods : c.methods = first ++ f :: rest) (hname : f.name = calledName target)
      (hmethod : ∀ f' ∈ rest, f'.name ≠ f.name) :
      DeclaredAt m target (.method c.name f.id)
        (m.functions.length + ((before.flatMap (·.methods)).length + first.length)) f

theorem DeclaredAt.getElem? (h : m.DeclaredAt target callee i f) : m.allFunctions[i]? = some f := by
  cases h with
  | @function before after f hitems =>
    have hfunctions : m.functions = before.filterMap Item.function? ++ f :: after.filterMap
        Item.function? := by
      rw [functions, hitems, filterMap_append]
      rfl
    rw [allFunctions, hfunctions]
    simp
  | @method before after c first rest f hclasses _ hmethods =>
    have hall : m.classes.flatMap (·.methods) = before.flatMap (·.methods) ++ (first ++ f :: rest) ++
        after.flatMap (·.methods) := by
      rw [hclasses, flatMap_append, flatMap_cons, hmethods, ← append_assoc]
    rw [allFunctions, hall, getElem?_append_right (Nat.le_add_right _ _), Nat.add_sub_cancel_left]
    simp

theorem DeclaredAt.id? (h : m.DeclaredAt target callee i f) : callee.id? = some f.id := by
  cases h <;> rfl

theorem DeclaredAt.name (h : m.DeclaredAt target callee i f) {symbol : SymbolId}
    (hcallee : callee = .function symbol id) : f.name = target := by
  cases h with
  | function _ hname => exact hname
  | method => cases hcallee

theorem exists_declaredAt (hfinds : m.Finds target callee) (hid : callee.id? = some id) :
    ∃ i f, m.DeclaredAt target callee i f := by
  cases callee with
  | function symbol fid =>
    obtain ⟨f, hitem, rfl, hname⟩ := hfinds
    obtain ⟨hlt, hget⟩ := List.getElem?_eq_some_iff.mp hitem
    have hitems : m.items = m.items.take symbol ++ .function f :: m.items.drop (symbol + 1) := by
      rw [← hget, ← drop_eq_getElem_cons hlt, take_append_drop]
    have hlength : (m.items.take symbol).length = symbol := length_take_of_le (Nat.le_of_lt hlt)
    have hdeclared := DeclaredAt.function hitems hname
    rw [hlength] at hdeclared
    exact ⟨_, f, hdeclared⟩
  | method className fid =>
    obtain ⟨info, hmethod, rfl⟩ := hfinds
    obtain ⟨entry, hentry, hinfo⟩ := Option.bind_eq_some_iff.mp hmethod
    obtain ⟨before, c, after, hclasses, rfl, rfl, hclass⟩ := exists_class hentry
    obtain ⟨first, f, rest, hmethods, hname, rfl, hrest⟩ := Table.exists_last_of_get?_map hinfo
    exact ⟨_, f, .method hclasses hclass hmethods hname fun f' hf' hsame =>
      hrest f' hf' (hsame.trans hname)⟩
  | external | value | unresolved => cases hid

end Module

section Bound

variable {m : Module} {out : BindOutput}

theorem functions_of_bind (h : bind m = .ok out) :
    ((Binding.functions m).run {}).1 = out.module.functions := by
  obtain ⟨s, hrun, -⟩ := run_functions h
  rw [hrun]

theorem forall₂_of_listTrace {α β : Type} {R : α → β → Binding.Trace → Prop} {as : List α}
    {bs : List β} {tr : Binding.Trace} (h : Binding.ListTrace R as bs tr) :
    Forall₂ (fun a b => ∃ tr, R a b tr) as bs := by
  induction h with
  | nil => exact .nil
  | cons hab _ ih => exact .cons ⟨_, hab⟩ ih

theorem functionTrace_functions (h : bind m = .ok out) :
    Forall₂ (fun f g => ∃ tr, Binding.FunctionTrace f g tr) m.allFunctions out.module.functions := by
  obtain ⟨s, tr, -, -, htrace⟩ := Binding.exists_follows h
  obtain ⟨-, hfree, hmethods, hgs⟩ := htrace
  rw [hgs, Module.allFunctions, flatMap_def]
  refine rel_append (forall₂_of_listTrace hfree) (rel_flatten (forall₂_map_left_iff.mpr ?_))
  refine (forall₂_of_listTrace hmethods).imp fun c gs hclass => ?_
  obtain ⟨_, -, hmethods⟩ := hclass
  exact forall₂_of_listTrace hmethods

theorem boundForm_functions (h : bind m = .ok out) :
    Forall₂ BoundForm m.allFunctions out.module.functions := by
  have hheaders := Binding.headerBound_functions (m := m) fun f _ =>
    f.patterned_of_forall fun _ => trivial
  rw [functions_of_bind h] at hheaders
  have htraces := functionTrace_functions h
  refine forall₂_iff_get.mpr ⟨hheaders.length_eq, fun i hi hi' => ?_⟩
  obtain ⟨owner, hheader⟩ := hheaders.get hi hi'
  exact ⟨hheader.id, hheader.name, hheader.visibility, hheader.returnType, hheader.declaredEffects,
    hheader.span, htraces.get hi hi'⟩

theorem findsAt_of_contains {T : List Pattern → Prop} (hT : ∀ f ∈ m.allFunctions, f.Patterned T)
    (h : bind m = .ok out) {g : Bound.Function} (hg : g ∈ out.module.functions) {n : Bound.Node}
    (hn : g.Contains n) : m.FindsAt T n := by
  have hheaders := Binding.headerBound_functions hT
  rw [functions_of_bind h] at hheaders
  obtain ⟨i, hi, rfl⟩ := mem_iff_getElem.mp hg
  obtain ⟨owner, hheader⟩ := hheaders.get (hheaders.length_eq ▸ hi) hi
  rcases hn with ⟨s, hs, hsn⟩ | ⟨b, hb, hbn⟩
  · exact hheader.body s hs n hsn
  · exact hheader.conditions b hb n hbn

theorem finds_of_contains (h : bind m = .ok out) {g : Bound.Function} (hg : g ∈ out.module.functions)
    {n : Bound.Node} (hn : g.Contains n) : m.FindsAt (fun _ => True) n :=
  findsAt_of_contains (fun f _ => f.patterned_of_forall fun _ => trivial) h hg hn

theorem ids_of_bind (h : bind m = .ok out) :
    out.module.functions.map (·.id) = m.allFunctions.map (·.id) := by
  have hids : Forall₂ Eq (out.module.functions.map (·.id)) (m.allFunctions.map (·.id)) := by
    rw [forall₂_map_left_iff, forall₂_map_right_iff]
    exact (boundForm_functions h).flip.imp fun _ _ hform => hform.id
  rw [forall₂_eq_eq_eq] at hids
  exact hids

theorem function?_eq_getElem? (module : Bound.Module) (id : String) :
    module.function? id = module.functions[(module.functions.map (·.id)).idxOf id]? := by
  have hplace : (module.functions.map (·.id)).idxOf id = module.functions.findIdx (·.id = id) := by
    rw [List.idxOf, findIdx_map]
    rfl
  rw [Bound.Module.function?, find?_eq_getElem?_findIdx, hplace]

theorem idxOf_of_getElem? {ids : List String} {id : String} {i : Nat} (h : ids[i]? = some id) :
    ids.idxOf id ≤ i ∧ (ids.idxOf id = i ↔ id ∉ ids.take i) := by
  obtain ⟨hlt, hget⟩ := List.getElem?_eq_some_iff.mp h
  constructor
  · by_contra hnot
    have hne := not_of_lt_findIdx (Nat.not_le.mp hnot)
    simp [hget] at hne
  · rw [List.idxOf, findIdx_eq hlt]
    simp only [hget, beq_self_eq_true, true_and, mem_take_iff_getElem]
    constructor
    · rintro hbefore ⟨k, hk, heq⟩
      have hne := hbefore k (Nat.lt_of_lt_of_le hk (Nat.min_le_left _ _))
      simp [heq] at hne
    · intro hnone k hk
      by_contra heq
      exact hnone ⟨k, by omega, by simpa using heq⟩

theorem size_analyzeEffects_eq_iff (module : Bound.Module) (catalog : Catalog) :
    (analyzeEffects module catalog).effects.size = module.functions.length ↔
      (module.functions.map (·.id)).Nodup := by
  have hlength : ((module.functions.zip (EffectGraph.ofModule catalog module).findings).map
      fun p => (p.1.id, p.2.toSet)).length = module.functions.length := by
    rw [length_map, length_zip, Bound.length_findings, Nat.min_self]
  rw [← @Bound.zip_ids module catalog, ← Table.size_ofList_eq_iff, hlength]
  rfl

end Bound

/-- Functions are bound in the order of their declarations. A callee within the module is bound by
name to a declaration, and its identifier finds the first function that has it. This is the bound
form of that declaration exactly if no earlier function has the identifier. There is one stored
result for each function exactly if all identifiers are different. -/
theorem bind_callee_identity {m : Module} {out : BindOutput} (hbind : bind m = .ok out)
    (catalog : Catalog) : Forall₂ BoundForm m.allFunctions out.module.functions ∧
    (∀ g ∈ out.module.functions, ∀ target callee receiver args ty span id,
      g.Contains (.expr (.mk (.call target callee receiver args) ty span)) → callee.id? = some id →
      let ids := m.allFunctions.map (·.id)
      ∃ i f, m.DeclaredAt target callee i f ∧ f.id = id ∧ m.allFunctions[i]? = some f ∧
        out.module.function? id = out.module.functions[ids.idxOf id]? ∧ ids.idxOf id ≤ i ∧
        (ids.idxOf id = i ↔ id ∉ ids.take i)) ∧
    ((analyzeEffects out.module catalog).effects.size = out.module.functions.length ↔
      (m.allFunctions.map (·.id)).Nodup) := by
  refine ⟨boundForm_functions hbind, ?_, ?_⟩
  · intro g hg target callee receiver args ty span id hcall hid
    obtain ⟨i, f, hdeclared⟩ := Module.exists_declaredAt (finds_of_contains hbind hg hcall) hid
    have hf : f.id = id := Option.some.inj (hdeclared.id?.symm.trans hid)
    have hplace : (m.allFunctions.map (·.id))[i]? = some id := by
      rw [getElem?_map, hdeclared.getElem?, Option.map_some, hf]
    obtain ⟨hle, hfirst⟩ := idxOf_of_getElem? hplace
    refine ⟨i, f, hdeclared, hf, hdeclared.getElem?, ?_, hle, hfirst⟩
    rw [function?_eq_getElem?, ids_of_bind hbind]
  · rw [size_analyzeEffects_eq_iff, ids_of_bind hbind]

def namedCallee? : Bound.Stmt → Option (String × Bound.Callee)
  | .call (.mk (.call target callee _ _) _ _) _ => some (target, callee)
  | _ => none

theorem contains_of_namedCallee {g : Bound.Function} {target : String} {callee : Bound.Callee}
    (h : (target, callee) ∈ g.body.filterMap namedCallee?) :
    ∃ receiver args ty span, g.Contains (.expr (.mk (.call target callee receiver args) ty span)) := by
  obtain ⟨s, hs, hnamed⟩ := mem_filterMap.mp h
  unfold namedCallee? at hnamed
  split at hnamed
  · cases hnamed
    exact ⟨_, _, _, _, .inl ⟨_, hs, .single (mem_singleton_self _)⟩⟩
  · cases hnamed

/-- Two functions have one identifier, and the second one, which raises an exception, is called. -/
def sharedSource : String :=
  "§M\x7bm1:T\x7d\n§F\x7bf1:quiet\x7d\n§/F\x7bf1\x7d\n§F\x7bf1:loud\x7d\n§TH 1\n§/F\x7bf1\x7d\n" ++
  "§F\x7bf2:main\x7d\n§C\x7bloud\x7d §/C\n§/F\x7bf2\x7d\n§/M\x7bm1\x7d\n"

set_option maxRecDepth 100000 in
set_option synthInstance.maxSize 1000 in
theorem functions_sharedSource :
    (cleanFront? sharedSource).map (fun (tree, out) =>
      (tree.allFunctions.map (·.id), out.module.functions.map
        (fun g => (g.name, g.body.filterMap namedCallee?)),
        (out.module.function? "f1").map (·.name), (analyzeEffects out.module {}).effects.entries)) =
    some (["f1", "f1", "f2"], [("quiet", []), ("loud", []), ("main", [("loud", .function 1 "f1")])],
      some "quiet", [("f1", .known [.throwing]), ("f2", .empty)]) := by
  decide +kernel

theorem exists_shared : ∃ tree out main, CleanFront sharedSource tree out ∧
    tree.allFunctions.map (·.id) = ["f1", "f1", "f2"] ∧ out.module.functions.length = 3 ∧
    main ∈ out.module.functions ∧
    (∃ receiver args ty span, main.Contains
      (.expr (.mk (.call "loud" (.function 1 "f1") receiver args) ty span))) ∧
    (out.module.function? "f1").map (·.name) = some "quiet" ∧
    (analyzeEffects out.module {}).effects.entries = [("f1", .known [.throwing]), ("f2", .empty)] := by
  obtain ⟨⟨tree, out⟩, hfront, hout⟩ := Option.map_eq_some_iff.mp functions_sharedSource
  simp only [Prod.mk.injEq, map_eq_cons_iff, map_eq_nil_iff] at hout
  obtain ⟨hids, ⟨quiet, _, hfunctions, -, loud, _, rfl, -, main, _, rfl, ⟨-, hcalls⟩, rfl⟩, hfound,
      heffects⟩ := hout
  refine ⟨tree, out, main, cleanFront?_eq_some hfront, ?_, ?_, ?_, ?_, hfound, heffects⟩
  · simpa [map_eq_cons_iff] using hids
  · rw [hfunctions]
    rfl
  · simp [hfunctions]
  · exact contains_of_namedCallee (by simp [hcalls])

theorem bind_callee_identity_shared : ∃ tree out main, CleanFront sharedSource tree out ∧
    main ∈ out.module.functions ∧
    (∃ receiver args ty span, main.Contains
      (.expr (.mk (.call "loud" (.function 1 "f1") receiver args) ty span))) ∧
    (∃ i f, tree.DeclaredAt "loud" (.function 1 "f1") i f ∧ f.id = "f1" ∧
      out.module.function? "f1" = out.module.functions[0]? ∧ (0 = i ↔ "f1" ∉ ["f1", "f1", "f2"].take i)) ∧
    (analyzeEffects out.module {}).effects.size ≠ out.module.functions.length := by
  obtain ⟨tree, out, main, hfront, hids, -, hmain, ⟨receiver, args, ty, span, hcall⟩, -⟩ := exists_shared
  obtain ⟨-, hcallees, hsize⟩ := bind_callee_identity hfront.bound {}
  obtain ⟨i, f, hdeclared, hf, -, hfound, -, hfirst⟩ := hcallees main hmain _ _ _ _ _ _ "f1" hcall rfl
  rw [hids] at hfound hfirst hsize
  refine ⟨tree, out, main, hfront, hmain, ⟨receiver, args, ty, span, hcall⟩,
    ⟨i, f, hdeclared, hf, hfound, hfirst⟩, ?_⟩
  rw [ne_eq, hsize]
  decide

/-- A program without errors calls `loud`, whose identifier finds `quiet`, and two results are
stored for its three functions. -/
theorem shared_id_finds_other :
    ∃ tree out main, CleanFront sharedSource tree out ∧ main ∈ out.module.functions ∧
    (∃ receiver args ty span, main.Contains
      (.expr (.mk (.call "loud" (.function 1 "f1") receiver args) ty span))) ∧
    (∃ i f, tree.DeclaredAt "loud" (.function 1 "f1") i f ∧ f.name = "loud") ∧
    (∃ g, out.module.function? "f1" = some g ∧ g.name = "quiet") ∧
    (analyzeEffects out.module {}).effects.size = 2 ∧ out.module.functions.length = 3 := by
  obtain ⟨tree, out, main, hfront, -, hlength, hmain, ⟨receiver, args, ty, span, hcall⟩, hfound,
      heffects⟩ :=
    exists_shared
  have hfinds : tree.Finds "loud" (.function 1 "f1") := finds_of_contains hfront.bound hmain hcall
  obtain ⟨i, f, hdeclared⟩ := Module.exists_declaredAt hfinds rfl
  refine ⟨tree, out, main, hfront, hmain, ⟨receiver, args, ty, span, hcall⟩,
    ⟨i, f, hdeclared, hdeclared.name rfl⟩, Option.map_eq_some_iff.mp hfound, ?_, hlength⟩
  rw [Table.size, heffects]
  rfl

end TagLang
