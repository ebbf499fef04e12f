import TagLang.Effect.Inference
import TagLang.Proofs.Effect.Occurrence
import TagLang.Proofs.Effect.Order
import TagLang.Proofs.Table
import Mathlib.Data.List.Nodup
import Mathlib.Data.List.Perm.Subperm

/-! # The depth-first inference of effects

The inference follows the call graph depth first. What it answers for a call is bounded on both
sides: it covers nothing but what the callee can reach, and it covers everything that the callee can
reach without passing a function that is being followed. If no such function was met, it covers
everything reachable, and only then the answer is kept. A path that visits no function twice is
never cut short, so the answer for the function at the root is exact.
-/

namespace TagLang

namespace EffectGraph

variable (graph : EffectGraph) {e : Option Effect} {id : String} {node : EffectNode} {a : EffectNode}

def node? (id : String) : Option EffectNode := graph.find? (·.id = id)

theorem id_of_node? {graph : EffectGraph} (h : graph.node? id = some node) : node.id = id := by
  simpa using List.find?_some h

theorem mem_of_node? {graph : EffectGraph} (h : graph.node? id = some node) :
    node ∈ graph := List.mem_of_find?_eq_some h

theorem node?_id_of_node? {graph : EffectGraph} (h : graph.node? id = some node) :
    graph.node? node.id = some node := by
  rw [id_of_node? h, h]

def Edge (a b : EffectNode) : Prop :=
  ∃ x ∈ a.sites, ∃ id target, x.cause = .call id target ∧ graph.node? id = some b ∧ b.declared = none

def Announces (id : String) (e : Option Effect) : Prop :=
  match graph.node? id with
  | none => True
  | some node =>
    match node.declared with
    | some set => set.Covers e
    | none => False

def SiteCovers (call : String → Option Effect → Prop) (x : Site) (e : Option Effect) : Prop :=
  match x.cause with
  | .effects set _ => set.Covers e
  | .call id _ => call id e

def Own (a : EffectNode) (e : Option Effect) : Prop := ∃ x ∈ a.sites, SiteCovers graph.Announces x e

def Full (a : EffectNode) (e : Option Effect) : Prop :=
  ∃ b, Relation.ReflTransGen graph.Edge a b ∧ graph.Own b e

def FullAvoiding (avoided : List String) (a : EffectNode) (e : Option Effect) : Prop :=
  a.id ∉ avoided ∧ ∃ b, Relation.ReflTransGen (fun c d => graph.Edge c d ∧ d.id ∉ avoided) a b ∧
    graph.Own b e

def CallCovers (body : EffectNode → Option Effect → Prop) (id : String) (e : Option Effect) : Prop :=
  match graph.node? id with
  | none => True
  | some node =>
    match node.declared with
    | some set => set.Covers e
    | none => body node e

variable {graph} {body : EffectNode → Option Effect → Prop} {avoided : List String}

theorem callCovers_iff :
    graph.CallCovers body id e ↔
      graph.Announces id e ∨ ∃ b, graph.node? id = some b ∧ b.declared = none ∧ body b e := by
  unfold CallCovers Announces
  cases hn : graph.node? id with
  | none => simp
  | some node => cases hd : node.declared <;> simp [hd]

theorem siteCovers_callCovers_iff {x : Site} :
    SiteCovers (graph.CallCovers body) x e ↔ SiteCovers graph.Announces x e ∨
      ∃ id target b, x.cause = .call id target ∧ graph.node? id = some b ∧ b.declared = none ∧
        body b e := by
  unfold SiteCovers
  cases x.cause with
  | effects set source => simp
  | call id target => simp [callCovers_iff]

theorem full_iff : graph.Full a e ↔ ∃ x ∈ a.sites, SiteCovers (graph.CallCovers graph.Full) x e := by
  constructor
  · rintro ⟨b, hab, hb⟩
    rcases Relation.ReflTransGen.cases_head hab with rfl | ⟨c, ⟨x, hx, id, target, hc, hn, hd⟩, hcb⟩
    · obtain ⟨x, hx, hs⟩ := hb
      exact ⟨x, hx, siteCovers_callCovers_iff.mpr (.inl hs)⟩
    · exact ⟨x, hx, siteCovers_callCovers_iff.mpr (.inr ⟨id, target, c, hc, hn, hd, b, hcb, hb⟩)⟩
  · rintro ⟨x, hx, hs⟩
    rcases siteCovers_callCovers_iff.mp hs with hs | ⟨id, target, b, hc, hn, hd, c, hbc, hown⟩
    · exact ⟨a, .refl, x, hx, hs⟩
    · exact ⟨c, hbc.head ⟨x, hx, id, target, hc, hn, hd⟩, hown⟩

/-- A path can be taken so that it does not come back to its start. -/
theorem reach_avoiding_start {a b : EffectNode} (hstart : graph.node? a.id = some a)
    (h : Relation.ReflTransGen (fun c d => graph.Edge c d ∧ d.id ∉ avoided) a b) :
    a = b ∨ ∃ c, graph.Edge a c ∧ c.id ∉ a.id :: avoided ∧
      Relation.ReflTransGen (fun c d => graph.Edge c d ∧ d.id ∉ a.id :: avoided) c b := by
  induction h with
  | refl => exact .inl rfl
  | @tail b d _ hstep ih =>
    obtain ⟨hedge, hd⟩ := hstep
    by_cases hid : d.id = a.id
    · obtain ⟨x, _, id, _, _, hn, _⟩ := hedge
      have hdn := node?_id_of_node? hn
      rw [hid, hstart] at hdn
      exact .inl (Option.some.inj hdn)
    · have hnot : d.id ∉ a.id :: avoided := by simp [hid, hd]
      rcases ih with rfl | ⟨c, hac, hc, hcb⟩
      · exact .inr ⟨d, hedge, hnot, .refl⟩
      · exact .inr ⟨c, hac, hc, hcb.tail ⟨hedge, hnot⟩⟩

theorem sites_of_fullAvoiding (hstart : graph.node? a.id = some a) (h : graph.FullAvoiding avoided a e) :
    ∃ x ∈ a.sites, SiteCovers (graph.CallCovers (graph.FullAvoiding (a.id :: avoided))) x e := by
  obtain ⟨_, b, hab, hb⟩ := h
  rcases reach_avoiding_start hstart hab with rfl | ⟨c, ⟨x, hx, id, target, hc, hn, hd⟩, hid, hcb⟩
  · obtain ⟨x, hx, hs⟩ := hb
    exact ⟨x, hx, siteCovers_callCovers_iff.mpr (.inl hs)⟩
  · exact ⟨x, hx, siteCovers_callCovers_iff.mpr (.inr ⟨id, target, c, hc, hn, hd, hid, b, hcb, hb⟩)⟩

theorem fullAvoiding_nil (h : graph.Full a e) : graph.FullAvoiding [] a e := by
  obtain ⟨b, hab, hb⟩ := h
  exact ⟨by simp, b, hab.lift id fun c d hcd => ⟨hcd, by simp⟩, hb⟩

end EffectGraph

open List

namespace Findings

theorem covers_toSet_iff {f : Findings} {e : Option Effect} :
    f.toSet.Covers e ↔ f.unknown ≠ [] ∨ ∃ x ∈ f.effects, e = some x.1 := by
  unfold toSet
  split
  · next h =>
    have hnil : f.unknown = [] := isEmpty_iff.mp h
    simp [EffectSet.covers_ofEffects, hnil]
  · next h =>
    have hne : f.unknown ≠ [] := fun hnil => h (isEmpty_iff.mpr hnil)
    simp [hne]

theorem canonical_toSet (f : Findings) : f.toSet.Canonical := by
  unfold toSet
  split
  · exact EffectSet.canonical_ofEffects _
  · trivial

theorem not_covers_empty (e : Option Effect) : ¬ ({} : Findings).toSet.Covers e := by
  simp [covers_toSet_iff]

theorem unknown_addEffect (f : Findings) (span : Span) (x : Effect) :
    (f.addEffect span x).unknown = f.unknown := by
  unfold addEffect
  split <;> rfl

theorem exists_mem_addEffect (f : Findings) (span : Span) (x : Effect) (e : Option Effect) :
    (∃ y ∈ (f.addEffect span x).effects, e = some y.1) ↔ e = some x ∨ ∃ y ∈ f.effects, e = some y.1 := by
  unfold addEffect
  split
  · next h =>
    obtain ⟨y, hy, hyx⟩ := any_eq_true.mp h
    have hyx : y.1 = x := by simpa using hyx
    constructor
    · exact .inr
    · rintro (rfl | h)
      · exact ⟨y, hy, by rw [hyx]⟩
      · exact h
  · simp only [mem_append, mem_singleton]
    constructor
    · rintro ⟨y, hy | rfl, rfl⟩
      · exact .inr ⟨y, hy, rfl⟩
      · exact .inl rfl
    · rintro (rfl | ⟨y, hy, rfl⟩)
      · exact ⟨(x, span), .inr rfl, rfl⟩
      · exact ⟨y, .inl hy, rfl⟩

theorem covers_foldl_addEffect (span : Span) (es : List Effect) (f : Findings) (e : Option Effect) :
    (es.foldl (fun f x => f.addEffect span x) f).toSet.Covers e ↔ f.toSet.Covers e ∨ ∃ x ∈ es,
      e = some x := by
  induction es generalizing f with
  | nil => simp
  | cons x es ih =>
    rw [foldl_cons, ih, covers_toSet_iff, covers_toSet_iff, unknown_addEffect, exists_mem_addEffect]
    simp only [mem_cons, exists_eq_or_imp, or_assoc, or_left_comm]

theorem covers_add (f : Findings) (set : EffectSet) (source : String) (span : Span) (e : Option Effect) :
    (f.add set source span).toSet.Covers e ↔ f.toSet.Covers e ∨ set.Covers e := by
  cases set with
  | known es =>
    rw [add, covers_foldl_addEffect]
    cases e <;> simp
  | unknown =>
    simp only [EffectSet.covers_unknown, or_true, iff_true, covers_toSet_iff, add]
    split
    · next h =>
      obtain ⟨y, hy, -⟩ := any_eq_true.mp h
      exact .inl (ne_nil_of_mem hy)
    · simp

end Findings

namespace Inference

open EffectGraph

def Valid (graph : EffectGraph) (s : State) : Prop :=
  ∀ id set, s.memo.get? id = some set → ∀ e, set.Covers e ↔ graph.CallCovers graph.Full id e

/-- What holds when a step of the inference has led from one state to another and its answer covers
certain effects: the answer lies between two bounds, and reaches the upper one unless a cycle was
met. -/
structure Bounded (graph : EffectGraph) (lower upper : Option Effect → Prop) (s : State)
    (covers : Option Effect → Prop) (t : State) : Prop where
  valid : Valid graph t
  cycle : s.metCycle = true → t.metCycle = true
  sound : ∀ e, covers e → upper e
  reached : ∀ e, lower e → covers e
  complete : t.metCycle = false → ∀ e, upper e → covers e

variable {graph : EffectGraph} {id : String} {node : EffectNode} {set : EffectSet}
  {active : List String} {s : State}

theorem collect_bounded {callee : String → Infer EffectSet} {lower upper : String → Option Effect → Prop}
    (hcallee : ∀ id s, Valid graph s →
      Bounded graph (lower id) (upper id) s ((callee id).run s).1.Covers ((callee id).run s).2)
    (sites : List Site) (f : Findings) (s : State) (hs : Valid graph s) :
    Bounded graph (fun e => f.toSet.Covers e ∨ ∃ x ∈ sites, SiteCovers lower x e)
      (fun e => f.toSet.Covers e ∨ ∃ x ∈ sites, SiteCovers upper x e) s
      ((collect callee sites f).run s).1.toSet.Covers ((collect callee sites f).run s).2 := by
  induction sites generalizing f s with
  | nil =>
    have hrun : (collect callee [] f).run s = (f, s) := rfl
    rw [hrun]
    exact ⟨hs, id, by simp, by simp, by simp⟩
  | cons x rest ih =>
    cases hc : x.cause with
    | effects set source =>
      have h := ih (f.add set source x.span) s hs
      have hsite (p : String → Option Effect → Prop) (e : Option Effect) :
          SiteCovers p x e ↔ set.Covers e := by simp [SiteCovers, hc]
      simp only [collect, hc, mem_cons, exists_eq_or_imp, hsite, ← or_assoc]
      simpa only [Findings.covers_add] using h
    | call id target =>
      have hcall := hcallee id s hs
      have hsite (p : String → Option Effect → Prop) (e : Option Effect) : SiteCovers p x e ↔ p id e := by
        simp [SiteCovers, hc]
      have hrun : (collect callee (x :: rest) f).run s =
          (collect callee rest (f.add ((callee id).run s).1 target x.span)).run
            ((callee id).run s).2 := by
        simp only [collect, hc]
        rfl
      have h := ih (f.add ((callee id).run s).1 target x.span) ((callee id).run s).2 hcall.valid
      simp only [Findings.covers_add] at h
      rw [hrun]
      simp only [mem_cons, exists_eq_or_imp, hsite]
      refine ⟨h.valid, fun hm => h.cycle (hcall.cycle hm), fun e he => ?_, fun e he =>
        ?_, fun hm e he => ?_⟩
      · rcases h.sound e he with (hf | hset) | hrest
        · exact .inl hf
        · exact .inr (.inl (hcall.sound e hset))
        · exact .inr (.inr hrest)
      · rcases he with hf | hset | hrest
        · exact h.reached e (.inl (.inl hf))
        · exact h.reached e (.inl (.inr (hcall.reached e hset)))
        · exact h.reached e (.inr hrest)
      · -- A cycle that is not met at the end was not met by the call either.
        have hcall' : ((callee id).run s).2.metCycle = false :=
          eq_false_of_ne_true fun hm' => by simp [h.cycle hm'] at hm
        rcases he with hf | hset | hrest
        · exact h.complete hm e (.inl (.inl hf))
        · exact h.complete hm e (.inl (.inr (hcall.complete hcall' e hset)))
        · exact h.complete hm e (.inr hrest)

/-! ## Calls -/

theorem run_callee_of_missing (h : graph.node? id = none) (depth : Nat) (active : List String)
    (s : State) : (callee graph (depth + 1) active id).run s = (.unknown, s) := by
  unfold node? at h
  simp only [callee, h]
  rfl

theorem run_callee_of_declared (h : graph.node? id = some node) (hd : node.declared = some set)
    (depth : Nat) (active : List String) (s : State) :
    (callee graph (depth + 1) active id).run s = (set, s) := by
  unfold node? at h
  simp only [callee, h, hd]
  rfl

theorem run_callee_of_memo (h : graph.node? id = some node) (hd : node.declared = none)
    (hm : s.memo.get? id = some set) (depth : Nat) (active : List String) :
    (callee graph (depth + 1) active id).run s = (set, s) := by
  unfold node? at h
  simp [callee, h, hd, hm]
  rfl

theorem run_callee_of_active (h : graph.node? id = some node) (hd : node.declared = none)
    (hm : s.memo.get? id = none) (ha : id ∈ active) (depth : Nat) :
    (callee graph (depth + 1) active id).run s = (.empty, { s with metCycle := true }) := by
  unfold node? at h
  simp [callee, h, hd, hm, ha]
  rfl

def afterBody (id : String) (outer : Bool) (set : EffectSet) (t : State) : State :=
  { memo := if t.metCycle then t.memo else t.memo.insert id set, metCycle := t.metCycle || outer }

theorem run_callee_of_new (h : graph.node? id = some node) (hd : node.declared = none)
    (hm : s.memo.get? id = none) (ha : id ∉ active) (depth : Nat) :
    (callee graph (depth + 1) active id).run s =
      let r :=
  (collect (callee graph depth (id :: active)) node.sites {}).run { s with metCycle := false }
      (r.1.toSet, afterBody id s.metCycle r.1.toSet r.2) := by
  unfold node? at h
  simp [callee, h, hd, hm, ha]
  rfl

theorem length_active_le (hnodup : active.Nodup)
    (hactive : ∀ id ∈ active, ∃ node, graph.node? id = some node) :
    active.length ≤ graph.length := by
  have hsub : active ⊆ graph.map (·.id) := by
    intro id hid
    obtain ⟨node, hn⟩ := hactive id hid
    exact mem_map.mpr ⟨node, mem_of_node? hn, id_of_node? hn⟩
  simpa using (hnodup.subperm hsub).length_le

theorem valid_insert (hs : Valid graph s) (cycle : Bool)
    (h : ∀ e, set.Covers e ↔ graph.CallCovers graph.Full id e) :
    Valid graph { memo := s.memo.insert id set, metCycle := cycle } := by
  intro name found hfound
  rw [Table.get?_insert] at hfound
  split at hfound
  · next hname =>
    obtain rfl := Option.some.inj hfound
    exact hname ▸ h
  · exact hs name found hfound

theorem Bounded.afterBody {lower upper lower' : Option Effect → Prop} {s t : State}
    (h : Bounded graph lower upper { s with metCycle := false } set.Covers t)
    (hlower : ∀ e, lower' e → lower e) (hupper : ∀ e, graph.CallCovers graph.Full id e ↔ upper e) :
    Bounded graph lower' upper s set.Covers (afterBody id s.metCycle set t) := by
  refine ⟨?_, fun hcycle => ?_, h.sound, fun e he => h.reached e (hlower e he), fun hcycle => ?_⟩
  · cases hc : t.metCycle with
    | true =>
      intro name kept hkept
      simp only [Inference.afterBody, hc, if_true] at hkept
      exact h.valid name kept hkept
    | false =>
      simp only [Inference.afterBody, hc, Bool.false_or, Bool.false_eq_true, if_false]
      refine valid_insert h.valid _ fun e => ?_
      rw [hupper]
      exact ⟨h.sound e, h.complete hc e⟩
  · simp [Inference.afterBody, hcycle]
  · simp only [Inference.afterBody, Bool.or_eq_false_iff] at hcycle
    exact h.complete hcycle.1

/-- The answer for a call lies between what the callee reaches past the functions that are being
followed and all that it reaches. -/
theorem callee_bounded (depth : Nat) (active : List String) (hnodup : active.Nodup)
    (hactive : ∀ id ∈ active, ∃ node, graph.node? id = some node)
    (hdepth : graph.length < depth + active.length) (id : String) (s : State) (hs : Valid graph s) :
    Bounded graph (graph.CallCovers (graph.FullAvoiding active) id) (graph.CallCovers graph.Full id) s
      ((callee graph depth active id).run s).1.Covers ((callee graph depth active id).run s).2 := by
  induction depth generalizing active id s with
  | zero =>
    have := length_active_le hnodup hactive
    omega
  | succ depth ih =>
    cases hn : graph.node? id with
    | none =>
      rw [run_callee_of_missing hn]
      have hall (body : EffectNode → Option Effect → Prop) (e : Option Effect) :
          graph.CallCovers body id e ↔ True := by simp [CallCovers, hn]
      exact ⟨hs, fun h => h, by simp [hall], by simp, by simp⟩
    | some node =>
      cases hd : node.declared with
      | some set =>
        rw [run_callee_of_declared hn hd]
        have hset (body : EffectNode → Option Effect → Prop) (e : Option Effect) :
            graph.CallCovers body id e ↔ set.Covers e := by simp [CallCovers, hn, hd]
        exact ⟨hs, fun h => h, by simp [hset], by simp [hset], by simp [hset]⟩
      | none =>
        have hbody (body : EffectNode → Option Effect → Prop) :
            graph.CallCovers body id = body node := by
          funext e
          simp [CallCovers, hn, hd]
        have hid := id_of_node? hn
        simp only [hbody]
        cases hm : s.memo.get? id with
        | some set =>
          rw [run_callee_of_memo hn hd hm]
          have hset := hs id set hm
          rw [hbody] at hset
          refine ⟨hs, fun h => h, fun e => (hset e).mp, fun e he => ?_, fun _ e => (hset e).mpr⟩
          obtain ⟨_, b, hab, hb⟩ := he
          exact (hset e).mpr ⟨b, hab.lift (fun c => c) fun c d hcd => hcd.1, hb⟩
        | none =>
          by_cases ha : id ∈ active
          · rw [run_callee_of_active hn hd hm ha]
            refine ⟨hs, fun _ => rfl, by simp, fun e he => ?_, by simp⟩
            exact absurd (hid ▸ ha) he.1
          · rw [run_callee_of_new hn hd hm ha]
            have hstart := node?_id_of_node? hn
            have hactive' : ∀ i ∈ id :: active, ∃ node, graph.node? i = some node := by
              intro i hi
              rcases mem_cons.mp hi with rfl | hi
              · exact ⟨node, hn⟩
              · exact hactive i hi
            have hdepth' : graph.length < depth + (id :: active).length := by
              simp only [length_cons]
              omega
            have h := collect_bounded (ih (id :: active) (nodup_cons.mpr ⟨ha, hnodup⟩) hactive' hdepth')
              node.sites {} { s with metCycle := false } hs
            simp only [Findings.not_covers_empty, false_or, ← full_iff] at h
            refine h.afterBody (fun e he => ?_) fun e => by rw [hbody]
            exact hid ▸ sites_of_fullAvoiding hstart he

/-- The findings of a function cover exactly what it reaches, whatever was kept before. -/
theorem ofNode_exact (hnode : graph.node? node.id = some node) (s : State) (hs : Valid graph s) :
    (∀ e, ((ofNode graph node).run s).1.toSet.Covers e ↔ graph.Full node e) ∧
      Valid graph ((ofNode graph node).run s).2 := by
  have hactive : ∀ id ∈ [node.id], ∃ node, graph.node? id = some node := by
    intro id hid
    exact ⟨node, mem_singleton.mp hid ▸ hnode⟩
  have h := collect_bounded
    (callee_bounded (graph.length + 1) [node.id] (nodup_singleton _) hactive
      (by simp only [length_singleton]; omega))
    node.sites {} s hs
  simp only [Findings.not_covers_empty, false_or, ← full_iff] at h
  refine ⟨fun e => ⟨h.sound e, fun he => ?_⟩, h.valid⟩
  exact h.reached e (sites_of_fullAvoiding hnode (fullAvoiding_nil he))

theorem mapM_ofNode_exact {nodes : List EffectNode}
    (hnodes : ∀ node ∈ nodes, graph.node? node.id = some node) (s : State) (hs : Valid graph s) :
    Forall₂ (fun node found => ∀ e, (Findings.toSet found).Covers e ↔ graph.Full node e) nodes
        ((nodes.mapM (ofNode graph)).run s).1 ∧
      Valid graph ((nodes.mapM (ofNode graph)).run s).2 := by
  induction nodes generalizing s with
  | nil => exact ⟨.nil, hs⟩
  | cons node nodes ih =>
    obtain ⟨hfound, ht⟩ := ofNode_exact (hnodes node mem_cons_self) s hs
    obtain ⟨hrest, hu⟩ := ih (fun n hn => hnodes n (mem_cons_of_mem _ hn)) _ ht
    rw [mapM_cons]
    exact ⟨.cons hfound hrest, hu⟩

end Inference

end TagLang
