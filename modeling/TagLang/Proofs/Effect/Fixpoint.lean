import TagLang.Proofs.Effect.Inference

/-! # Effects of a module as a fixpoint of its calls

The effects that the analysis finds for a function are the union of what is contributed by all
functions that it reaches along calls to functions without a declaration. The order of the
functions, the results that were kept before, and recursion of any shape make no difference.
-/

namespace TagLang
open List

namespace Bound

def Module.Calls (m : Module) (f g : Function) : Prop :=
  ∃ n id, Occurs f.body n ∧ CallsId n id ∧ m.function? id = some g

def Module.CallsUndeclared (m : Module) (f g : Function) : Prop := m.Calls f g ∧ g.declaredEffects = none

/-- What a function declares, as far as the codes are recognised; without a declaration it is
nothing. -/
def Function.declaredSet (f : Function) : EffectSet := .ofCodes ((f.declaredEffects.getD []).map (·.1))

/-- What the body of a function does by itself. A call to a function that the module does not have
may do anything. -/
inductive Module.Performs (m : Module) (catalog : Catalog) (f : Function) : EffectSet → Prop
  | primitive {n : Node} {set : EffectSet} (hn : Occurs f.body n) (h : Primitive catalog n set) :
    Performs m catalog f set
  | missing {n : Node} {id : String} (hn : Occurs f.body n) (hc : CallsId n id)
    (h : m.function? id = none) : Performs m catalog f .unknown

/-- What a function contributes without the bodies of other functions: what its own body does, and
what its callees declare. -/
def Module.Contributes (m : Module) (catalog : Catalog) (f : Function) (set : EffectSet) : Prop :=
  m.Performs catalog f set ∨ ∃ g, m.Calls f g ∧ g.declaredEffects ≠ none ∧ set = g.declaredSet

variable {m : Module} {catalog : Catalog} {f : Function} {e : Option Effect}

theorem node?_ofModule (id : String) :
    (EffectGraph.ofModule catalog m).node? id = (m.function? id).map (EffectNode.ofFunction catalog) := by
  rw [EffectGraph.node?, EffectGraph.ofModule, find?_map]
  rfl

theorem declared_ofFunction (f : Function) :
    (EffectNode.ofFunction catalog f).declared = f.declaredEffects.map fun _ => f.declaredSet := by
  cases h : f.declaredEffects <;> simp [EffectNode.ofFunction, Function.declaredSet, h]

theorem calls_iff {f g : Function} :
    m.Calls f g ↔ ∃ x ∈ Sites.stmts catalog f.body, ∃ id target, x.cause = .call id target ∧
      m.function? id = some g := by
  constructor
  · rintro ⟨n, id, hn, hc, hg⟩
    obtain ⟨x, hx, target, hcause⟩ := (@exists_site_call_iff catalog f.body id).mpr ⟨n, hn, hc⟩
    exact ⟨x, hx, id, target, hcause, hg⟩
  · rintro ⟨x, hx, id, target, hcause, hg⟩
    obtain ⟨n, hn, hc⟩ := exists_site_call_iff.mp ⟨x, hx, target, hcause⟩
    exact ⟨n, id, hn, hc, hg⟩

theorem edge_ofModule_iff {b : EffectNode} :
    (EffectGraph.ofModule catalog m).Edge (.ofFunction catalog f) b ↔
      ∃ g, m.CallsUndeclared f g ∧ b = .ofFunction catalog g := by
  constructor
  · rintro ⟨x, hx, id, target, hcause, hn, hd⟩
    rw [node?_ofModule] at hn
    obtain ⟨g, hg, rfl⟩ := Option.map_eq_some_iff.mp hn
    rw [declared_ofFunction, Option.map_eq_none_iff] at hd
    exact ⟨g, ⟨calls_iff.mpr ⟨x, hx, id, target, hcause, hg⟩, hd⟩, rfl⟩
  · rintro ⟨g, ⟨hcalls, hd⟩, rfl⟩
    obtain ⟨x, hx, id, target, hcause, hg⟩ := (@calls_iff m catalog f g).mp hcalls
    refine ⟨x, hx, id, target, hcause, ?_, ?_⟩
    · rw [node?_ofModule, hg, Option.map_some]
    · rw [declared_ofFunction, hd, Option.map_none]

theorem reach_ofModule_iff {b : EffectNode} :
    Relation.ReflTransGen (EffectGraph.ofModule catalog m).Edge (.ofFunction catalog f) b ↔
      ∃ g, Relation.ReflTransGen m.CallsUndeclared f g ∧ b = .ofFunction catalog g := by
  constructor
  · intro h
    induction h with
    | refl => exact ⟨f, .refl, rfl⟩
    | tail _ hedge ih =>
      obtain ⟨g, hfg, rfl⟩ := ih
      obtain ⟨k, hgk, rfl⟩ := edge_ofModule_iff.mp hedge
      exact ⟨k, hfg.tail hgk, rfl⟩
  · rintro ⟨g, hfg, rfl⟩
    exact hfg.lift (EffectNode.ofFunction catalog) fun _ _ h => edge_ofModule_iff.mpr ⟨_, h, rfl⟩

theorem announces_ofModule_iff {id : String} :
    (EffectGraph.ofModule catalog m).Announces id e ↔ m.function? id = none ∨
      ∃ g, m.function? id = some g ∧ g.declaredEffects ≠ none ∧ g.declaredSet.Covers e := by
  rw [EffectGraph.Announces, node?_ofModule]
  cases hg : m.function? id with
  | none => simp
  | some g =>
    simp only [Option.map_some, declared_ofFunction]
    cases hd : g.declaredEffects <;> simp [hd]

theorem own_ofModule_iff :
    (EffectGraph.ofModule catalog m).Own (.ofFunction catalog f) e ↔
      ∃ set, m.Contributes catalog f set ∧ set.Covers e := by
  constructor
  · rintro ⟨x, hx, hs⟩
    unfold EffectGraph.SiteCovers at hs
    split at hs
    · next set source hcause =>
      obtain ⟨n, hn, hp⟩ := exists_site_effects_iff.mp ⟨x, hx, source, hcause⟩
      exact ⟨set, .inl (.primitive hn hp), hs⟩
    · next id target hcause =>
      obtain ⟨n, hn, hc⟩ := exists_site_call_iff.mp ⟨x, hx, target, hcause⟩
      rcases announces_ofModule_iff.mp hs with hg | ⟨g, hg, hd, he⟩
      · exact ⟨.unknown, .inl (.missing hn hc hg), trivial⟩
      · exact ⟨g.declaredSet, .inr ⟨g, ⟨n, id, hn, hc, hg⟩, hd, rfl⟩, he⟩
  · have hcall {n : Node} {id : String} (hn : Occurs f.body n) (hc : CallsId n id)
        (h : (EffectGraph.ofModule catalog m).Announces id e) :
        (EffectGraph.ofModule catalog m).Own (.ofFunction catalog f) e := by
      obtain ⟨x, hx, target, hcause⟩ := (@exists_site_call_iff catalog f.body id).mpr ⟨n, hn, hc⟩
      exact ⟨x, hx, by simpa only [EffectGraph.SiteCovers, hcause] using h⟩
    rintro ⟨set, hset, he⟩
    rcases hset with hset | ⟨g, ⟨n, id, hn, hc, hg⟩, hd, rfl⟩
    · cases hset with
      | primitive hn hp =>
        obtain ⟨x, hx, source, hcause⟩ := exists_site_effects_iff.mpr ⟨_, hn, hp⟩
        exact ⟨x, hx, by simpa only [EffectGraph.SiteCovers, hcause] using he⟩
      | missing hn hc hg => exact hcall hn hc (announces_ofModule_iff.mpr (.inl hg))
    · exact hcall hn hc (announces_ofModule_iff.mpr (.inr ⟨g, hg, hd, he⟩))

/-- The parts that make up the effects of a function: what the functions contribute that it reaches
along calls to functions that declare nothing. -/
def Module.ReachedPart (m : Module) (catalog : Catalog) (f : Function) (set : EffectSet) : Prop :=
  ∃ g, Relation.ReflTransGen m.CallsUndeclared f g ∧ m.Contributes catalog g set

theorem full_ofModule_iff :
    (EffectGraph.ofModule catalog m).Full (.ofFunction catalog f) e ↔
      ∃ set, m.ReachedPart catalog f set ∧ set.Covers e := by
  constructor
  · rintro ⟨b, hfb, hb⟩
    obtain ⟨g, hfg, rfl⟩ := reach_ofModule_iff.mp hfb
    obtain ⟨set, hset, he⟩ := own_ofModule_iff.mp hb
    exact ⟨set, ⟨g, hfg, hset⟩, he⟩
  · rintro ⟨set, ⟨g, hfg, hset⟩, he⟩
    exact ⟨_, reach_ofModule_iff.mpr ⟨g, hfg, rfl⟩, own_ofModule_iff.mpr ⟨set, hset, he⟩⟩

/-! ## Identifiers -/

theorem mem_of_function? {id : String} (h : m.function? id = some f) : f ∈ m.functions :=
  mem_of_find?_eq_some h

theorem reachedPart_of_function?_eq {m' : Module} (h : ∀ id, m'.function? id = m.function? id) :
    m'.ReachedPart catalog = m.ReachedPart catalog := by
  have hcalls : m'.Calls = m.Calls := by
    funext f g
    simp only [Module.Calls, h]
  have hundeclared : m'.CallsUndeclared = m.CallsUndeclared := by
    funext f g
    simp only [Module.CallsUndeclared, hcalls]
  have hperforms (f : Function) (set : EffectSet) :
      m'.Performs catalog f set ↔ m.Performs catalog f set := by
    constructor
    all_goals
      rintro (⟨hn, hp⟩ | ⟨hn, hc, hm⟩)
      · exact .primitive hn hp
      · exact .missing hn hc (h _ ▸ hm)
  funext f set
  simp only [Module.ReachedPart, Module.Contributes, hundeclared, hcalls, hperforms]

/-! ## The analysis -/

theorem isUnion_of_covers_iff {found : Findings}
    (h : ∀ e, found.toSet.Covers e ↔ (EffectGraph.ofModule catalog m).Full (.ofFunction catalog f) e) :
    found.toSet.IsUnion (m.ReachedPart catalog f) :=
  ⟨found.canonical_toSet, fun e => (h e).trans full_ofModule_iff⟩

theorem valid_empty (graph : EffectGraph) : Inference.Valid graph {} := by
  intro id set h
  exact absurd h (by simp [Table.get?_empty, EmptyCollection.emptyCollection])

theorem length_run_mapM {σ α β : Type} (f : α → StateM σ β) (as : List α) (s : σ) :
    ((as.mapM f).run s).1.length = as.length := by
  induction as generalizing s with
  | nil => rfl
  | cons a as ih =>
    rw [mapM_cons, length_cons, ← ih ((f a).run s).2]
    rfl

theorem length_findings : (EffectGraph.ofModule catalog m).findings.length = m.functions.length := by
  rw [EffectGraph.findings, length_run_mapM, EffectGraph.ofModule, length_map]

theorem zip_ids : ((m.functions.zip (EffectGraph.ofModule catalog m).findings).map
    fun p => (p.1.id, p.2.toSet)).map (·.1) = m.functions.map (·.id) := by
  have hfst : (m.functions.zip (EffectGraph.ofModule catalog m).findings).map (·.1) = m.functions :=
    map_fst_zip length_findings.ge
  nth_rewrite 2 [← hfst]
  rw [map_map, map_map]
  rfl

section Distinct

variable (hids : (m.functions.map (·.id)).Nodup)
include hids

theorem function?_id (hf : f ∈ m.functions) : m.function? f.id = some f := by
  obtain ⟨g, hg⟩ : ∃ g, m.function? f.id = some g :=
    Option.isSome_iff_exists.mp (find?_isSome.mpr ⟨f, hf, by simp⟩)
  have hid : g.id = f.id := by simpa using find?_some hg
  have hmem : g ∈ m.functions := mem_of_find?_eq_some hg
  rw [hg, inj_on_of_nodup_map hids hmem hf hid]

theorem function?_of_perm {m' : Module} (hperm : m'.functions.Perm m.functions) (id : String) :
    m'.function? id = m.function? id := by
  have hids' : (m'.functions.map (·.id)).Nodup := (hperm.map _).nodup_iff.mpr hids
  cases h : m.function? id with
  | some f =>
    have hid : f.id = id := by simpa using find?_some h
    exact hid ▸ function?_id hids' (hperm.mem_iff.mpr (mem_of_function? h))
  | none =>
    refine find?_eq_none.mpr fun f hf => ?_
    exact find?_eq_none.mp h f (hperm.mem_iff.mp hf)

theorem node?_ofFunction (hf : f ∈ m.functions) :
    (EffectGraph.ofModule catalog m).node? (EffectNode.ofFunction catalog f).id =
      some (.ofFunction catalog f) := by
  rw [node?_ofModule]
  exact congrArg (Option.map _) (function?_id hids hf)

theorem findings_exact :
    Forall₂ (fun node found => ∀ e, (Findings.toSet found).Covers e ↔
        (EffectGraph.ofModule catalog m).Full node e)
      (EffectGraph.ofModule catalog m) (EffectGraph.ofModule catalog m).findings := by
  have hnodes : ∀ node ∈ EffectGraph.ofModule catalog m,
      (EffectGraph.ofModule catalog m).node? node.id = some node := by
    intro node hnode
    obtain ⟨g, hg, rfl⟩ := mem_map.mp hnode
    exact node?_ofFunction hids hg
  exact (Inference.mapM_ofNode_exact hnodes {} (valid_empty _)).1

theorem exists_findings (catalog : Catalog) (hf : f ∈ m.functions) :
    ∃ found, (f, found) ∈ m.functions.zip (EffectGraph.ofModule catalog m).findings ∧
      found.toSet.IsUnion (m.ReachedPart catalog f) := by
  obtain ⟨i, hi, rfl⟩ := mem_iff_getElem.mp hf
  have hgraph : i < (EffectGraph.ofModule catalog m).length := by simpa [EffectGraph.ofModule] using hi
  have hfound : i < (EffectGraph.ofModule catalog m).findings.length := length_findings ▸ hi
  have hnode : (EffectGraph.ofModule catalog m)[i] = .ofFunction catalog m.functions[i] := getElem_map _
  refine ⟨(EffectGraph.ofModule catalog m).findings[i], ?_, isUnion_of_covers_iff fun e => ?_⟩
  · refine mem_iff_getElem.mpr ⟨i, ?_, getElem_zip⟩
    rw [length_zip]
    exact lt_min hi hfound
  · have hexact := (findings_exact hids).get hgraph hfound e
    rw [get_eq_getElem, get_eq_getElem] at hexact
    exact hnode ▸ hexact

theorem get?_analyzeEffects {found : Findings}
    (h : (f, found) ∈ m.functions.zip (EffectGraph.ofModule catalog m).findings) :
    (analyzeEffects m catalog).effects.get? f.id = some found.toSet :=
  Table.get?_ofList (zip_ids ▸ hids) (mem_map.mpr ⟨(f, found), h, rfl⟩)

end Distinct

/-- The set that the analysis stores for a function is the union of all contributions of the
functions that it reaches. It stays the same if the functions stand in another order, and if any
functions are analysed before. -/
theorem analyzeEffects_isUnion (m : Module) (catalog : Catalog)
    (hids : (m.functions.map (·.id)).Nodup) (f : Function) (hf : f ∈ m.functions) :
    ∃ set, (analyzeEffects m catalog).effects.get? f.id = some set ∧
      set.IsUnion (m.ReachedPart catalog f) ∧ (∀ m' : Module, m'.functions.Perm m.functions →
        (analyzeEffects m' catalog).effects.get? f.id = some set) ∧
      ∀ earlier : List Function, earlier ⊆ m.functions →
        let graph := EffectGraph.ofModule catalog m
        let before := (earlier.map (EffectNode.ofFunction catalog)).mapM (Inference.ofNode graph)
        ((before *> Inference.ofNode graph (.ofFunction catalog f)).run {}).1.toSet = set := by
  obtain ⟨found, hmem, hunion⟩ := exists_findings hids catalog hf
  refine ⟨found.toSet, get?_analyzeEffects hids hmem, hunion, fun m' hperm =>
    ?_, fun earlier hearlier => ?_⟩
  · have hids' : (m'.functions.map (·.id)).Nodup := (hperm.map _).nodup_iff.mpr hids
    obtain ⟨found', hmem', hunion'⟩ := exists_findings hids' catalog (hperm.mem_iff.mpr hf)
    rw [reachedPart_of_function?_eq (function?_of_perm hids hperm)] at hunion'
    rw [get?_analyzeEffects hids' hmem', hunion'.unique hunion]
  · have hnodes : ∀ node ∈ earlier.map (EffectNode.ofFunction catalog),
        (EffectGraph.ofModule catalog m).node? node.id = some node := by
      intro node hnode
      obtain ⟨g, hg, rfl⟩ := mem_map.mp hnode
      exact node?_ofFunction hids (hearlier hg)
    have hvalid := (Inference.mapM_ofNode_exact hnodes {} (valid_empty _)).2
    have hexact := (Inference.ofNode_exact (node?_ofFunction hids hf) _ hvalid).1
    exact (isUnion_of_covers_iff hexact).unique hunion

def callStmt (id : String) : Stmt :=
  .call (.mk (.call id (.function 0 id) none []) .void .nowhere) .nowhere

def ping : Function :=
  { (default : Function) with
    id := "ping", body := [callStmt "pong", .raise (.mk .null .null .nowhere) .nowhere] }

def pong : Function :=
  { (default : Function) with
    id := "pong"
    body := [callStmt "ping",
      .assign (.mk (.field (.mk .null .null .nowhere) "x") .i32 .nowhere) (.mk .null .null .nowhere)
        .nowhere] }

def pingPong : Module := { (default : Module) with functions := [ping, pong] }

theorem analyzeEffects_pingPong :
    (pingPong.functions.map (·.id)).Nodup ∧ pong ∈ pingPong.functions ∧
      EffectSet.IsUnion (pingPong.ReachedPart {} pong) (.known [.heapWrite, .throwing]) := by
  have hids : (pingPong.functions.map (·.id)).Nodup := by decide
  have hmem : pong ∈ pingPong.functions := by simp [pingPong]
  obtain ⟨set, hset, hunion, -, -⟩ := analyzeEffects_isUnion pingPong {} hids pong hmem
  have hvalue : (analyzeEffects pingPong {}).effects.get? pong.id =
      some (.known [.heapWrite, .throwing]) := by
    decide
  rw [hset] at hvalue
  exact ⟨hids, hmem, Option.some.inj hvalue ▸ hunion⟩

end Bound

end TagLang
