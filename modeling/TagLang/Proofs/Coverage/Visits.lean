import TagLang.Proofs.Coverage.Exhaustive

/-! # Matches are visited once and in order

A place in the bodies of a module is a path: the function, the statement of its body, and then which
part to enter, level by level. The matches are visited in the order of their places, with a part
before everything inside it, and each of them adds its own errors.
-/

namespace TagLang
open List

namespace Bound

variable {α : Type} {look : α → List Nat → Option Match} {ms : α → List Match}

def Node.matchAt? (n : Node) : List Nat → Option Match
  | [] => n.ownMatches.head?
  | i :: place => n.parts[i]?.bind (·.matchAt? place)

/-- The match at a place below one of some items, the first step of which says which one. -/
def itemAt? (look : α → List Nat → Option Match) (items : List α) : List Nat → Option Match
  | [] => none
  | i :: place => items[i]?.bind (look · place)

def Function.matchAt? (f : Function) : List Nat → Option Match :=
  itemAt? (fun s => (Node.stmt s).matchAt?) f.body

def Module.matchAt? (m : Module) : List Nat → Option Match := itemAt? Function.matchAt? m.functions

/-- A list has each match that there is to see with its place, in the order of the places. -/
structure Visits (look : List Nat → Option Match) (visits : List (List Nat × Match)) : Prop where
  sorted : visits.Pairwise (·.1 < ·.1)
  mem_iff {place : List Nat} {w : Match} : (place, w) ∈ visits ↔ look place = some w

theorem exists_visits_items (items : List α)
    (h : ∀ a ∈ items, ∃ visits, Visits (look a) visits ∧ visits.map (·.2) = ms a) :
    ∃ visits, Visits (itemAt? look items) visits ∧ visits.map (·.2) = items.flatMap ms := by
  choose! below hbelow using h
  have hmem {x : α × Nat} (hx : x ∈ items.zipIdx) : x.1 ∈ items :=
    mem_of_getElem? (mem_zipIdx_iff_getElem?.mp hx)
  refine ⟨items.zipIdx.flatMap fun x => (below x.1).map fun v =>
    (x.2 :: v.1, v.2), ⟨?_, fun {place w} => ?_⟩, ?_⟩
  · refine pairwise_flatMap.mpr ⟨fun x hx => pairwise_map.mpr ?_, ?_⟩
    · exact (hbelow x.1 (hmem hx)).1.sorted.imp fun h => cons_lt_cons_iff.mpr (.inr ⟨rfl, h⟩)
    · have hindices : (items.zipIdx.map (·.2)).Pairwise (· < ·) := by
        rw [zipIdx_map_snd]
        exact pairwise_lt_range'
      refine (pairwise_map.mp hindices).imp fun hlt v hv v' hv' => ?_
      obtain ⟨u, -, rfl⟩ := mem_map.mp hv
      obtain ⟨u', -, rfl⟩ := mem_map.mp hv'
      exact cons_lt_cons_iff.mpr (.inl hlt)
  · cases place with
    | nil => simp [itemAt?]
    | cons i place =>
      simp only [mem_flatMap, mem_map, Prod.exists, mem_zipIdx_iff_getElem?, itemAt?,
        Option.bind_eq_some_iff]
      constructor
      · rintro ⟨a, _, ha, place', w', hv, ⟨⟩⟩
        exact ⟨a, ha, (hbelow a (mem_of_getElem? ha)).1.mem_iff.mp hv⟩
      · rintro ⟨a, ha, hw⟩
        exact ⟨a, i, ha, place, w, (hbelow a (mem_of_getElem? ha)).1.mem_iff.mpr hw, rfl⟩
  · calc
      _ = items.zipIdx.flatMap fun x => ms x.1 := by
        rw [map_flatMap]
        refine flatMap_congr fun x hx => ?_
        rw [map_map, ← (hbelow x.1 (hmem hx)).2]
        rfl
      _ = (items.zipIdx.map (·.1)).flatMap ms := by rw [flatMap_map]
      _ = items.flatMap ms := by rw [zipIdx_map_fst]

theorem Node.exists_visits (n : Node) :
    ∃ visits, Visits n.matchAt? visits ∧ visits.map (·.2) = n.matches := by
  -- The parts of a node are smaller than the node.
  induction hsize : sizeOf n using Nat.strongRecOn generalizing n with
  | _ size ih =>
    obtain ⟨inner, hinner, hmatches⟩ := exists_visits_items n.parts fun p hp =>
      ih (sizeOf p) (hsize ▸ Node.sizeOf_lt_of_mem_parts hp) p rfl
    have hown : n.ownMatches = n.ownMatches.head?.toList := by
      unfold Node.ownMatches
      split <;> rfl
    refine ⟨n.ownMatches.head?.toList.map ([], ·) ++ inner, ⟨?_, fun {place w} => ?_⟩, ?_⟩
    · refine pairwise_append.mpr ⟨?_, hinner.sorted, fun v hv v' hv' => ?_⟩
      · cases n.ownMatches.head? <;> simp
      · obtain ⟨w, -, rfl⟩ := mem_map.mp hv
        obtain ⟨place, w'⟩ := v'
        cases place with
        | nil => cases hinner.mem_iff.mp hv'
        | cons i place => exact nil_lt_cons _ _
    · rw [mem_append, hinner.mem_iff]
      cases place <;> simp [itemAt?, Node.matchAt?]
    · rw [map_append, hmatches, Node.matches_eq, map_map]
      congr
      exact (map_id _).trans hown.symm

theorem Module.exists_visits (m : Module) :
    ∃ visits, Visits m.matchAt? visits ∧ visits.map (·.2) = m.functions.flatMap fun f =>
      Matches.stmts f.body := by
  refine exists_visits_items m.functions fun f _ => ?_
  rw [matches_stmts, flatMap_map]
  exact exists_visits_items f.body fun s _ => Node.exists_visits (.stmt s)

end Bound

/-- The errors are those of every match in a body, one match after the other: each match is visited
once, before those inside it and in the order of the places. What is inside its target, guards and
bodies adds nothing to its own errors. -/
theorem checkMatches_visits (m : Bound.Module) :
    (∃ visits : List (List Nat × Bound.Match), visits.Pairwise (·.1 < ·.1) ∧
      (∀ place w, (place, w) ∈ visits ↔ m.matchAt? place = some w) ∧
      checkMatches m = visits.flatMap fun v => Coverage.ofMatch m.registry v.2) ∧
    ∀ w w' : Bound.Match, w.target.ty = w'.target.ty → Coverage.unguarded w = Coverage.unguarded w' →
      w.isExpression = w'.isExpression → w.span = w'.span →
      Coverage.ofMatch m.registry w = Coverage.ofMatch m.registry w' := by
  constructor
  · obtain ⟨visits, hvisits, hmatches⟩ := m.exists_visits
    refine ⟨visits, hvisits.sorted, fun _ _ => hvisits.mem_iff, ?_⟩
    rw [checkMatches, ← hmatches, flatMap_map]
  · intro w w' hty hpatterns hkind hspan
    unfold Coverage.ofMatch
    rw [hty, hpatterns, hkind, hspan]

end TagLang
