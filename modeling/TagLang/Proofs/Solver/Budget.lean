import Mathlib.Algebra.BigOperators.Group.Finset.Basic
import TagLang.Proofs.Logic.Decided
import TagLang.Proofs.Logic.Hygiene
import TagLang.Proofs.Solver.Search

/-! # What a budget decides

A search with a larger budget goes through the same assignments in the same order, and only farther.
So a decision stays what it is when the budget grows. If all variables are short, a budget for all
combinations of their values decides every query.
-/

namespace TagLang
open List

/-- There is a model, there is none, or the assertions cannot be evaluated: the search did not give
up. -/
def SolverResult.Decides : SolverResult → Prop
  | .sat | .unsat | .error _ => True
  | .unknown _ | .timeout => False

namespace Search

section Growth

variable {f : Formula} {envs : List Assignment} {left extra : Nat} {undecided : Bool}

def Progress.extend (extra : Nat) : Progress → Progress
  | .running left undecided => .running (left + extra) undecided
  | done => done

def Progress.Done : Progress → Prop
  | .running _ _ => False
  | _ => True

theorem tryOne_add (env : Assignment) (hleft : left ≠ 0) :
    tryOne f env (left + extra) undecided = (tryOne f env left undecided).extend extra := by
  have hsub : left + extra - 1 = left - 1 + extra := by omega
  unfold tryOne
  split
  · rfl
  · rw [Progress.extend, hsub]
  · rw [Progress.extend, hsub]
  · rfl

theorem scan_add (h : envs.length ≤ left ∨ (scan f envs left undecided).Done) :
    scan f envs (left + extra) undecided = (scan f envs left undecided).extend extra := by
  induction envs generalizing left undecided with
  | nil => rfl
  | cons env envs ih =>
    by_cases hleft : left = 0
    · rcases h with hlen | hdone
      · rw [length_cons] at hlen
        omega
      · rw [scan, if_pos hleft] at hdone
        exact hdone.elim
    · have hmore : left + extra ≠ 0 := by omega
      rw [scan, if_neg hleft] at h
      rw [scan, scan, if_neg hleft, if_neg hmore, tryOne_add env hleft]
      cases hstep : tryOne f env left undecided with
      | found env => rfl
      | failed e => rfl
      | running rest undecided' =>
        rw [hstep, length_cons] at h
        obtain ⟨rfl, -⟩ := tryOne_running hstep
        exact ih (h.imp_left fun hlen => by omega)

theorem seesAll_mono {m n : Nat} (hle : m ≤ n) (h : seesAll f m = true) : seesAll f n = true := by
  simp only [seesAll, Bool.and_eq_true, decide_eq_true_eq] at h ⊢
  exact ⟨h.1, h.2.trans hle⟩

/-- A decision does not change with a larger budget: neither the answer, nor the model, nor the text
of an error. -/
theorem solve_eq_of_le {m n : UInt64} (hle : m ≤ n) {assertions : List Formula}
    (hdecides : (solve m assertions).result.Decides) : solve n assertions = solve m assertions := by
  obtain rfl | hne := eq_or_ne m n
  · rfl
  have hlt : m.toNat < n.toNat :=
    lt_of_le_of_ne (UInt64.le_iff_toNat_le.mp hle) fun h => hne (UInt64.toNat.inj h)
  obtain ⟨extra, hextra⟩ : ∃ extra, max n.toNat 1 = max m.toNat 1 + extra :=
    ⟨max n.toNat 1 - max m.toNat 1, by omega⟩
  have hknown (message : String) : (solve m assertions).result ≠ .unknown message := by
    intro hunknown
    rw [hunknown] at hdecides
    exact hdecides
  have harray := hasArray_eq_false m rfl (hknown _)
  rw [solve_eq_scan rfl harray] at hdecides
  rw [solve_eq_scan rfl harray, solve_eq_scan rfl harray, hextra]
  generalize Formula.conjunction assertions = f at hdecides ⊢
  cases hscan : scan f (combinations (domainsOf f) []) (max m.toNat 1) false with
  | found | failed =>
    rw [scan_add (.inr (by rw [hscan]; trivial)), hscan]
    rfl
  | running rest undecided =>
    -- A budget below another one is not the largest, so that its search saw all values if it denies
    -- that there is a model, and nothing is left for a longer one.
    rw [hscan] at hdecides
    dsimp only at hdecides
    split at hdecides
    · next hall =>
      simp only [Bool.and_eq_true, Bool.not_eq_true'] at hall
      obtain ⟨hsees, rfl⟩ := hall
      have hlen : (combinations (domainsOf f) []).length ≤ max m.toNat 1 := by
        simp only [seesAll, Bool.and_eq_true, decide_eq_true_eq] at hsees
        have hn : n.toNat < UInt64.size := n.toNat_lt_size
        have hsize : UInt64.size = 18446744073709551616 := rfl
        omega
      have hsees' : seesAll f (max m.toNat 1 + extra) = true := seesAll_mono (Nat.le_add_right _ _) hsees
      rw [scan_add (.inl hlen), hscan, Progress.extend, hsees, hsees']
    · exact hdecides.elim

theorem solve_eq_of_le_squareIs :
    (solve 3 [squareIs 4]).result = .sat ∧ solve 100 [squareIs 4] = solve 3 [squareIs 4] ∧
      (solve 8 [squareIs 3]).result = .unsat ∧ solve 9 [squareIs 3] = solve 8 [squareIs 3] := by
  have hsat : (solve 3 [squareIs 4]).result = .sat := by decide
  have hunsat : (solve 8 [squareIs 3]).result = .unsat := by decide
  refine ⟨hsat, solve_eq_of_le (by decide) ?_, hunsat, solve_eq_of_le (by decide) ?_⟩
  · rw [hsat]
    trivial
  · rw [hunsat]
    trivial

end Growth

end Search

/-! ## Short variables -/

namespace VarSort

def size : VarSort → Nat
  | .bool => 2
  | .bitVec width => 2 ^ width
  | .array index element => (2 ^ element) ^ (2 ^ index)

def Short (s : VarSort) : Prop := s = .bool ∨ ∃ width ≤ 8, s = .bitVec width

theorem Short.not_isArray {s : VarSort} (h : s.Short) : s.isArray = false := by
  rcases h with rfl | ⟨width, -, rfl⟩ <;> rfl

theorem Short.candidates {s : VarSort} (h : s.Short) (constants : List Int) :
    (Search.candidates constants s).2 = true ∧ (Search.candidates constants s).1.length = s.size := by
  rcases h with rfl | ⟨width, hwidth, rfl⟩
  · exact ⟨rfl, rfl⟩
  · simp [Search.candidates, domain?, enumerableWidth, hwidth, size, twoPow]

end VarSort

namespace Formula

variable {assertions : List Formula}

/-- No array occurs, and every variable, free or under a quantifier, is short. -/
structure Short (f : Formula) : Prop where
  enumerable : f.Enumerable
  free : ∀ x, f.Free x → x.2.Short

theorem Short.of_mem_freeVars {f : Formula} (h : f.Short) {x : String × VarSort}
    (hx : x ∈ f.freeVars) : x.2.Short :=
  h.free x (free_of_mem_freeVars hx)

theorem Short.not_isArray {f : Formula} (h : f.Short) : ∀ x ∈ f.freeVars, x.2.isArray = false :=
  fun _ hx => (h.of_mem_freeVars hx).not_isArray

theorem enumerable_conjunction (h : ∀ a ∈ assertions, a.Enumerable) :
    (conjunction assertions).Enumerable := by
  unfold conjunction
  split
  · intro part hpart
    simp only [parts, mem_singleton] at hpart
    subst hpart
    trivial
  · exact h _ mem_cons_self
  · intro part hpart
    rw [parts, mem_cons] at hpart
    rcases hpart with rfl | hpart
    · trivial
    · obtain ⟨a, ha, hpart⟩ := mem_partsOf_iff.mp hpart
      exact h a ha part hpart

theorem short_conjunction (h : ∀ a ∈ assertions, a.Short) : (conjunction assertions).Short := by
  refine ⟨enumerable_conjunction fun a ha => (h a ha).enumerable, fun x hx => ?_⟩
  obtain ⟨a, ha, hx⟩ := free_conjunction.mp hx
  exact (h a ha).free x hx

theorem Enumerable.hasArray_eq_false {f : Formula} (h : f.Enumerable) : f.hasArray = false := by
  rw [hasArray, any_eq_false]
  intro part hpart
  have := h part hpart
  cases part <;> simp_all [IsEnumerable]

end Formula

namespace Search

section Decision

variable {Γ : Sorting} {f : Formula} {assertions : List Formula} {vars : Finset (String × VarSort)}
  {budget : UInt64} {env : Assignment}

theorem scan_decided {envs : List Assignment} (left : Nat) (undecided : Bool)
    (h : ∀ env ∈ envs, ∃ b, (f.eval env).bind BitValue.asBool = .ok b) :
    (∃ env, scan f envs left undecided = .found env) ∨ ∃ rest, scan f envs left undecided =
      .running rest undecided := by
  induction envs generalizing left with
  | nil => exact .inr ⟨left, rfl⟩
  | cons env envs ih =>
    obtain ⟨b, hb⟩ := h env mem_cons_self
    rw [scan]
    split
    · exact .inr ⟨0, rfl⟩
    · rw [tryOne, hb]
      cases b with
      | true => exact .inl ⟨env, rfl⟩
      | false => exact ih _ fun env' henv => h env' (mem_cons_of_mem _ henv)

theorem eval_of_combination (hf : f.HasSort Γ .bool) (hshort : f.Short)
    (hmem : env ∈ combinations (domainsOf f) []) :
    ∃ b, (f.eval env).bind BitValue.asBool = .ok b := by
  have hassigned : f.Assigned env := by
    intro name sort hfree
    have hΓ : Γ name = sort := (hf.sort_of_free hfree).1
    obtain ⟨v, hv⟩ := exists_lookup_of_combination hf hmem hfree
    obtain ⟨x, hx⟩ := represents_of_combination hf hshort.not_isArray hmem (Table.mem_of_lookup hv)
    exact ⟨v, x, hv, hΓ ▸ hx⟩
  obtain ⟨b, hb⟩ := (hf.eval_hasValue ⟨hshort.enumerable, hassigned⟩).bool
  exact ⟨b, by rw [hb]; rfl⟩

theorem length_combinations_eq_prod (hf : f.HasSort Γ .bool) (hshort : f.Short)
    (hvars : ∀ x, x ∈ vars ↔ f.Free x) :
    (combinations (domainsOf f) []).length = ∏ x ∈ vars, x.2.size := by
  have hfin : f.freeVars.toFinset = vars := by
    ext x
    rw [mem_toFinset, hvars, hf.mem_freeVars_iff]
  have hnodup : f.freeVars.Nodup := (Formula.nodup_firstOfName [] _).of_map _
  have hsizes : (domainsOf f).map (·.2.length) = f.freeVars.map (·.2.size) := by
    rw [domainsOf, map_map]
    refine map_congr_left fun x hx => ?_
    exact ((hshort.of_mem_freeVars hx).candidates f.constants).2
  rw [length_combinations, hsizes, ← hfin, prod_toFinset _ hnodup]

theorem hasArray_of_short (hshort : f.Short) :
    (f.hasArray || f.freeVars.any (·.2.isArray)) = false := by
  rw [Bool.or_eq_false_iff, any_eq_false]
  exact ⟨hshort.enumerable.hasArray_eq_false, fun x hx => by simp [hshort.not_isArray x hx]⟩

theorem seesAll_of_short (hshort : f.Short) {n : Nat}
    (hn : min (combinations (domainsOf f) []).length (UInt64.size - 1) ≤ n) : seesAll f n = true := by
  simp only [seesAll, Bool.and_eq_true, all_eq_true, decide_eq_true_eq]
  exact ⟨fun x hx => ((hshort.of_mem_freeVars hx).candidates f.constants).1, hn⟩

theorem solve_sat_or_unsat (hf : f = Formula.conjunction assertions) (hsort : f.HasSort Γ .bool)
    (hshort : f.Short)
    (hcount : min (combinations (domainsOf f) []).length (UInt64.size - 1) ≤ max budget.toNat 1) :
    (solve budget assertions).result = .sat ∨ (solve budget assertions).result = .unsat := by
  rw [solve_eq_scan hf (hasArray_of_short hshort)]
  rcases scan_decided (max budget.toNat 1) false fun env hmem =>
    eval_of_combination hsort hshort hmem with
    ⟨env, hscan⟩ | ⟨rest, hscan⟩
  · rw [hscan]
    exact .inl rfl
  · rw [hscan, seesAll_of_short hshort hcount]
    exact .inr rfl

open Classical in
/-- The search decides queries about short variables: with a budget of at least the product of the
sizes of the free variables, it answers that there is a model if there is one, and that there is
none otherwise. -/
theorem solve_decides (hsorts : ∀ a ∈ assertions, a.HasSort Γ .bool) (hshort : ∀ a ∈ assertions, a.Short)
    (hvars : ∀ x, x ∈ vars ↔ ∃ a ∈ assertions, a.Free x) (hbudget : ∏ x ∈ vars, x.2.size ≤ budget.toNat) :
    (solve budget assertions).result = if Satisfiable assertions then .sat else .unsat := by
  have hsort := Formula.HasSort.conjunction hsorts
  have hshort' := Formula.short_conjunction hshort
  have hvars' (x : String × VarSort) : x ∈ vars ↔ (Formula.conjunction assertions).Free x := by
    rw [hvars, Formula.free_conjunction]
  have hlength := length_combinations_eq_prod hsort hshort' hvars'
  have hcount : min (combinations (domainsOf (.conjunction assertions)) []).length (UInt64.size - 1) ≤
      max budget.toNat 1 := by omega
  rcases solve_sat_or_unsat rfl hsort hshort' hcount with h | h
  · obtain ⟨model, -, hmodel⟩ := isModel_of_solve_sat hsorts h
    rw [if_pos (hmodel.satisfiable hsorts), h]
  · have hnone : ¬Satisfiable assertions := by
      rw [satisfiable_iff_overlooks hsorts h, Overlooks, untried, drop_eq_nil_of_le (by omega)]
      rintro ⟨_, hmem, -⟩
      exact not_mem_nil hmem
    rw [if_neg hnone, h]

/-- For every bit there is another one. -/
def otherBit : Formula :=
  .quantifier .universal [("x", .bitVec 1)] (.quantifier .existential [("y", .bitVec 1)]
    (.not (.eq (.var "x" (.bitVec 1)) (.var "y" (.bitVec 1)))))

theorem hasSort_otherBit (Γ : Sorting) : otherBit.HasSort Γ .bool := by
  refine .quantifier _ (by decide)
    (.quantifier _ (by decide) (.not (.eq (.var ?_ (by decide)) (.var ?_ (by decide)))))
  · simp [Sorting.extend]
  · simp [Sorting.extend]

theorem not_free_otherBit (x : String × VarSort) : ¬otherBit.Free x := by
  have hnone : otherBit.freeVars = [] := by decide
  rw [← (hasSort_otherBit fun _ => .bool).mem_freeVars_iff, hnone]
  exact not_mem_nil

theorem short_otherBit : otherBit.Short :=
  ⟨by decide, fun x hx => absurd hx (not_free_otherBit x)⟩

theorem free_squareIs {n : UInt64} {x : String × VarSort} :
    (squareIs n).Free x ↔ x = ("x", .bitVec 3) := by
  have hvars : (squareIs n).freeVars = [("x", .bitVec 3)] := rfl
  rw [← (hasSort_squareIs n).mem_freeVars_iff, hvars, mem_singleton]

theorem short_squareIs (n : UInt64) : (squareIs n).Short := by
  constructor
  · intro part hpart
    simp only [squareIs, Formula.parts, mem_cons, mem_append, not_mem_nil, or_false] at hpart
    rcases hpart with rfl | (rfl | rfl | rfl) | rfl <;> simp [Formula.IsEnumerable, VarSort.isArray]
  · intro x hx
    rw [free_squareIs.mp hx]
    exact .inr ⟨3, by decide, rfl⟩

open Classical in
theorem solve_decides_squareIs :
    ∏ x ∈ {("x", VarSort.bitVec 3)}, x.2.size = 8 ∧
      (solve 8 [otherBit, squareIs 4]).result = .sat ∧ Satisfiable [otherBit, squareIs 4] ∧
      (solve 8 [otherBit, squareIs 3]).result = .unsat ∧ ¬Satisfiable [otherBit, squareIs 3] := by
  have hsize : ∏ x ∈ {("x", VarSort.bitVec 3)}, x.2.size = 8 := by simp [VarSort.size]
  have hvars (n : UInt64) (x : String × VarSort) :
      x ∈ ({("x", .bitVec 3)} : Finset (String × VarSort)) ↔ ∃ a ∈ [otherBit, squareIs n], a.Free x := by
    simp [free_squareIs, not_free_otherBit]
  have hdecides (n : UInt64) : (solve 8 [otherBit, squareIs n]).result =
      if Satisfiable [otherBit, squareIs n] then .sat else .unsat :=
    solve_decides (Γ := fun _ => .bitVec 3) (by simp [hasSort_otherBit, hasSort_squareIs])
      (by simp [short_otherBit, short_squareIs]) (hvars n) hsize.le
  have hsat : (solve 8 [otherBit, squareIs 4]).result = .sat := by decide
  have hunsat : (solve 8 [otherBit, squareIs 3]).result = .unsat := by decide
  refine ⟨hsize, hsat, ?_, hunsat, ?_⟩
  · by_contra h
    rw [hdecides 4, if_neg h] at hsat
    cases hsat
  · intro h
    rw [hdecides 3, if_pos h] at hunsat
    cases hunsat

end Decision

end Search

end TagLang
