import TagLang.Solver.Search
import TagLang.Proofs.Logic.Eval

/-! # The search for a model is sound

The nested search visits the combinations of values in one fixed order, as a scan over their list
does. A model that it finds satisfies the assertions in the meaning of formulas. Where it denies
that there is a model, a model can only be among the combinations that it did not come to.
-/

namespace TagLang.Search
open List

section Scan

def combinations : List (String × List BitValue) → Assignment → List Assignment
  | [], env => [env]
  | (name, values) :: rest, env => values.flatMap fun v => combinations rest ((name, v) :: env)

/-- Tries assignments one after the other while evaluations are left. -/
def scan (f : Formula) : List Assignment → Nat → Bool → Progress
  | [], left, undecided => .running left undecided
  | env :: envs, left, undecided =>
    if left = 0 then .running 0 undecided
    else match tryOne f env left undecided with
      | .running left undecided => scan f envs left undecided
      | done => done

variable (f : Formula)

theorem scan_zero (envs : List Assignment) (undecided : Bool) :
    scan f envs 0 undecided = .running 0 undecided := by
  cases envs <;> rfl

theorem scan_append (xs ys : List Assignment) (left : Nat) (undecided : Bool) :
    scan f (xs ++ ys) left undecided =
      match scan f xs left undecided with
      | .running left undecided => scan f ys left undecided
      | done => done := by
  induction xs generalizing left undecided with
  | nil => rfl
  | cons env envs ih =>
    rw [cons_append, scan, scan]
    split
    · exact (scan_zero f ys undecided).symm
    · cases tryOne f env left undecided with
      | running left undecided => exact ih left undecided
      | found env => rfl
      | failed e => rfl

theorem tryEach_eq_scan {step : BitValue → Nat → Bool → Progress} {envs : BitValue → List Assignment}
    (hstep : ∀ v left undecided, left ≠ 0 → step v left undecided = scan f (envs v) left undecided)
    (values : List BitValue) (left : Nat) (undecided : Bool) :
    tryEach step left undecided values = scan f (values.flatMap envs) left undecided := by
  induction values generalizing left undecided with
  | nil => rfl
  | cons v vs ih =>
    rw [tryEach, flatMap_cons]
    split
    · next h => rw [h, scan_zero]
    · next h =>
      rw [scan_append, hstep v left undecided h]
      cases scan f (envs v) left undecided with
      | running left undecided => exact ih left undecided
      | found env => rfl
      | failed e => rfl

theorem tryAll_eq_scan (domains : List (String × List BitValue)) (env : Assignment) {left : Nat}
    (undecided : Bool) (hleft : left ≠ 0) :
    tryAll f domains env left undecided = scan f (combinations domains env) left undecided := by
  induction domains generalizing env left undecided with
  | nil =>
    rw [tryAll, combinations, scan, if_neg hleft]
    cases tryOne f env left undecided <;> rfl
  | cons domain rest ih =>
    obtain ⟨name, values⟩ := domain
    exact tryEach_eq_scan f (fun v left undecided h => ih ((name, v) :: env) undecided h) values
      left undecided

variable {f} {envs : List Assignment} {left : Nat} {undecided : Bool}

theorem tryOne_found {e env : Assignment} (h : tryOne f e left undecided = .found env) :
    env = e ∧ (f.eval e).bind BitValue.asBool = .ok true := by
  unfold tryOne at h
  split at h
  · next heval =>
    cases h
    exact ⟨rfl, heval⟩
  all_goals cases h

theorem tryOne_running {e : Assignment} {rest : Nat} {undecided' : Bool}
    (h : tryOne f e left undecided = .running rest undecided') : rest = left - 1 ∧
      (undecided' = false → undecided = false ∧ (f.eval e).bind BitValue.asBool = .ok false) := by
  unfold tryOne at h
  split at h <;> cases h
  · next heval => exact ⟨rfl, fun hu => ⟨hu, heval⟩⟩
  · exact ⟨rfl, Bool.noConfusion⟩

theorem eval_of_scan_found {env : Assignment} (h : scan f envs left undecided = .found env) :
    env ∈ envs.take left ∧ (f.eval env).bind BitValue.asBool = .ok true := by
  induction envs generalizing left undecided with
  | nil => cases h
  | cons e es ih =>
    cases left with
    | zero => cases h
    | succ left =>
      rw [scan, if_neg left.succ_ne_zero] at h
      cases hstep : tryOne f e (left + 1) undecided with rw [hstep] at h
      | found env' =>
        cases h
        obtain ⟨rfl, heval⟩ := tryOne_found hstep
        exact ⟨mem_cons_self, heval⟩
      | failed err => cases h
      | running rest undecided' =>
        obtain ⟨rfl, -⟩ := tryOne_running hstep
        obtain ⟨hmem, heval⟩ := ih h
        exact ⟨mem_cons_of_mem _ hmem, heval⟩

theorem eval_of_scan_running {rest : Nat} (h : scan f envs left undecided = .running rest false) :
    undecided = false ∧ ∀ env ∈ envs.take left, (f.eval env).bind BitValue.asBool = .ok false := by
  induction envs generalizing left undecided with
  | nil =>
    simp only [scan, Progress.running.injEq] at h
    exact ⟨h.2, by simp⟩
  | cons e es ih =>
    cases left with
    | zero =>
      simp only [scan, if_true, Progress.running.injEq] at h
      exact ⟨h.2, by simp⟩
    | succ left =>
      rw [scan, if_neg left.succ_ne_zero] at h
      cases hstep : tryOne f e (left + 1) undecided with rw [hstep] at h
      | found env => cases h
      | failed err => cases h
      | running rest' undecided' =>
        obtain ⟨rfl, hone⟩ := tryOne_running hstep
        obtain ⟨hu, hall⟩ := ih h
        obtain ⟨hu, heval⟩ := hone hu
        exact ⟨hu, forall_mem_cons.mpr ⟨heval, hall⟩⟩

end Scan

section Combinations

variable {domains : List (String × List BitValue)} {env env' : Assignment}

theorem map_fst_of_mem_combinations (h : env' ∈ combinations domains env) :
    env'.map (·.1) = (domains.map (·.1)).reverse ++ env.map (·.1) := by
  induction domains generalizing env with
  | nil =>
    rw [combinations, mem_singleton] at h
    simp [h]
  | cons domain rest ih =>
    obtain ⟨name, values⟩ := domain
    obtain ⟨v, _, h⟩ := mem_flatMap.mp h
    simp [ih h]

theorem mem_domain_of_mem_combinations (h : env' ∈ combinations domains env) {e : String × BitValue}
    (he : e ∈ env') : e ∈ env ∨ ∃ d ∈ domains, d.1 = e.1 ∧ e.2 ∈ d.2 := by
  induction domains generalizing env with
  | nil =>
    rw [combinations, mem_singleton] at h
    exact .inl (h ▸ he)
  | cons domain rest ih =>
    obtain ⟨name, values⟩ := domain
    obtain ⟨v, hv, h⟩ := mem_flatMap.mp h
    rcases ih h with hmem | ⟨d, hd, hname, hval⟩
    · rcases mem_cons.mp hmem with rfl | hmem
      · exact .inr ⟨_, mem_cons_self, rfl, hv⟩
      · exact .inl hmem
    · exact .inr ⟨d, mem_cons_of_mem _ hd, hname, hval⟩

theorem exists_combination {Γ : Sorting} {ρ : Valuation} (henv : Agrees Γ env ρ)
    (h : ∀ d ∈ domains, ∃ v ∈ d.2, Represents (Γ d.1) v (ρ d.1)) :
    ∃ env' ∈ combinations domains env, Agrees Γ env' ρ := by
  induction domains generalizing env with
  | nil => exact ⟨env, mem_singleton_self env, henv⟩
  | cons domain rest ih =>
    obtain ⟨name, values⟩ := domain
    obtain ⟨v, hv, hrep⟩ := h _ mem_cons_self
    have hcons : Agrees Γ ((name, v) :: env) ρ := by
      have := AgreesOn.cons (K := fun _ => True) (fun other _ => henv other) name (fun _ _ h => h) hrep
      rw [Function.update_eq_self, Function.update_eq_self] at this
      exact fun other => this other trivial
    obtain ⟨env', hmem, hagree⟩ := ih hcons (fun d hd => h d (mem_cons_of_mem _ hd))
    exact ⟨env', mem_flatMap.mpr ⟨v, hv, hmem⟩, hagree⟩

theorem length_combinations (domains : List (String × List BitValue)) (env : Assignment) :
    (combinations domains env).length = (domains.map (·.2.length)).prod := by
  induction domains generalizing env with
  | nil => rfl
  | cons domain rest ih =>
    obtain ⟨name, values⟩ := domain
    simp only [combinations, length_flatMap, ih, map_const', sum_replicate_nat, map_cons,
      prod_cons]

end Combinations

section Solve

theorem candidates_represent {s : VarSort} (hs : s.Valid) (harray : s.isArray = false)
    (constants : List Int) {v : BitValue} (hv : v ∈ (candidates constants s).1) :
    ∃ x, Represents s v x := by
  unfold candidates at hv
  split at hv
  · next hd => exact VarSort.represents_of_mem_domain hs hd hv
  · next hd =>
    cases s with
    | bool => simp [VarSort.domain?] at hd
    | bitVec width =>
      obtain ⟨word, _, rfl⟩ := mem_map.mp hv
      exact ⟨_, .ofBits word hs⟩
    | array index element => simp [VarSort.isArray] at harray

theorem candidates_full {s : VarSort} (hs : s.Valid) (constants : List Int)
    (hfull : (candidates constants s).2 = true) {x : Denotation} (hx : x.sort = s) :
    ∃ v ∈ (candidates constants s).1, Represents s v x := by
  unfold candidates at hfull ⊢
  split
  · next hd => exact VarSort.exists_mem_domain hs hd hx
  · next hd => simp [hd] at hfull

def domainsOf (f : Formula) : List (String × List BitValue) :=
  f.freeVars.map fun x => (x.1, (candidates f.constants x.2).1)

/-- Whether a search that finds nothing within the budget counts as one that has seen all values. -/
def seesAll (f : Formula) (budget : Nat) : Bool :=
  f.freeVars.all (fun x => (candidates f.constants x.2).2) &&
    decide (min (combinations (domainsOf f) []).length (UInt64.size - 1) ≤ budget)

theorem saturatingMul_saturatingMul (a b c : Nat) :
    saturatingMul (saturatingMul a b) c = saturatingMul a (b * c) := by
  unfold saturatingMul
  rw [← Nat.mul_assoc]
  rcases Nat.le_total (a * b) (UInt64.size - 1) with h | h
  · rw [Nat.min_eq_left h]
  · rw [Nat.min_eq_right h]
    rcases Nat.eq_zero_or_pos c with rfl | hc
    · rfl
    · have hle : UInt64.size - 1 ≤ (UInt64.size - 1) * c := Nat.le_mul_of_pos_right _ hc
      rw [Nat.min_eq_right hle, Nat.min_eq_right (hle.trans (Nat.mul_le_mul_right c h))]

theorem foldl_saturatingMul (domains : List (String × List BitValue × Bool)) (a b : Nat) :
    domains.foldl (fun n (_, values, _) => saturatingMul n values.length) (saturatingMul a b) =
      saturatingMul a (b * (domains.map (·.2.1.length)).prod) := by
  induction domains generalizing b with
  | nil => rw [foldl_nil, map_nil, prod_nil, Nat.mul_one]
  | cons d ds ih =>
    simp only [foldl_cons, saturatingMul_saturatingMul, ih, map_cons, prod_cons, Nat.mul_assoc]

theorem solve_eq_scan {f : Formula} {budget : UInt64} {assertions : List Formula}
    (hf : f = Formula.conjunction assertions)
    (harray : (f.hasArray || f.freeVars.any (·.2.isArray)) = false) : solve budget assertions =
      match scan f (combinations (domainsOf f) []) (max budget.toNat 1) false with
      | .found env => { result := .sat, model := some (.ofList env) }
      | .failed e => { result := .error e.message }
      | .running _ undecided =>
        if seesAll f (max budget.toNat 1) && !undecided then { result := .unsat }
        else { result := .unknown "no model within the search bound" } := by
  have hlength : (combinations (domainsOf f) []).length =
      (f.freeVars.map fun x => (candidates f.constants x.2).1.length).prod := by
    rw [length_combinations, domainsOf, map_map]
    rfl
  have hspace (domains : List (String × List BitValue × Bool)) :
      domains.foldl (fun n (_, values, _) => saturatingMul n values.length) 1 =
        min (domains.map (·.2.1.length)).prod (UInt64.size - 1) := by
    refine (foldl_saturatingMul domains 1 1).trans ?_
    rw [saturatingMul, Nat.one_mul, Nat.one_mul]
  have hpositive : max budget.toNat 1 ≠ 0 := by omega
  subst hf
  simp only [solve, harray, Bool.false_eq_true, if_false, seesAll, hlength, hspace, map_map, all_map,
    ← tryAll_eq_scan _ _ [] false hpositive]
  rfl

variable {f : Formula} {budget : UInt64} {assertions : List Formula}

theorem hasArray_eq_false (budget : UInt64) (hf : f = Formula.conjunction assertions)
    (h : (solve budget assertions).result ≠ .unknown "arrays are not supported by the builtin solver") :
    (f.hasArray || f.freeVars.any (·.2.isArray)) = false := by
  subst hf
  refine eq_false_of_ne_true fun harray => h ?_
  simp only [solve, harray, if_true]

theorem solve_sat (hf : f = Formula.conjunction assertions)
    (h : (solve budget assertions).result = .sat) : (∀ x ∈ f.freeVars, x.2.isArray = false) ∧
      ∃ env ∈ (combinations (domainsOf f) []).take (max budget.toNat 1),
        (f.eval env).bind BitValue.asBool = .ok true ∧
          (solve budget assertions).model = some (.ofList env) := by
  have harray := hasArray_eq_false budget hf (by simp [h])
  rw [solve_eq_scan hf harray] at h ⊢
  simp only [Bool.or_eq_false_iff, any_eq_false, Bool.not_eq_true] at harray
  split at h
  · next env hscan =>
    obtain ⟨hmem, heval⟩ := eval_of_scan_found hscan
    exact ⟨harray.2, env, hmem, heval, rfl⟩
  · cases h
  · split at h <;> cases h

theorem solve_unsat (hf : f = Formula.conjunction assertions)
    (h : (solve budget assertions).result = .unsat) :
    (∀ x ∈ f.freeVars, x.2.isArray = false ∧ (candidates f.constants x.2).2 = true) ∧
      (∀ env ∈ (combinations (domainsOf f) []).take (max budget.toNat 1),
        (f.eval env).bind BitValue.asBool = .ok false) ∧
      min (combinations (domainsOf f) []).length (UInt64.size - 1) ≤ max budget.toNat 1 := by
  have harray := hasArray_eq_false budget hf (by simp [h])
  rw [solve_eq_scan hf harray] at h
  simp only [Bool.or_eq_false_iff, any_eq_false, Bool.not_eq_true] at harray
  split at h
  · cases h
  · cases h
  · next left undecided hscan =>
    split at h
    · next hdone =>
      simp only [seesAll, Bool.and_eq_true, all_eq_true, decide_eq_true_eq, Bool.not_eq_true'] at hdone
      obtain ⟨⟨hfull, hcount⟩, rfl⟩ := hdone
      exact ⟨fun x hx => ⟨harray.2 x hx, hfull x hx⟩, (eval_of_scan_running hscan).2, hcount⟩
    · cases h

end Solve

section Soundness

/-- Values of the right sorts for exactly the free variables of the assertions, which make all of
them true. -/
structure IsModel (Γ : Sorting) (assertions : List Formula) (model : SolverModel) : Prop where
  assigns_iff : ∀ name, model.contains name = true ↔ ∃ a ∈ assertions, ∃ sort, a.Free (name, sort)
  represents : ∀ name v, model.get? name = some v → ∃ x, Represents (Γ name) v x
  satisfies : ∀ ρ : Valuation, (∀ name v, model.get? name = some v → Represents (Γ name) v (ρ name)) →
    ∀ a ∈ assertions, a.denote ρ = .bool true

variable {Γ : Sorting} {assertions : List Formula} {f : Formula}

theorem represents_of_combination (hf : f.HasSort Γ .bool)
    (harray : ∀ x ∈ f.freeVars, x.2.isArray = false) {env : Assignment}
    (hmem : env ∈ combinations (domainsOf f) []) {name : String} {v : BitValue}
    (hv : (name, v) ∈ env) : ∃ x, Represents (Γ name) v x := by
  rcases mem_domain_of_mem_combinations hmem hv with h | ⟨d, hd, rfl, hval⟩
  · cases h
  · obtain ⟨x, hx, rfl⟩ := mem_map.mp hd
    obtain ⟨hΓ, hvalid⟩ := hf.sort_of_free (Formula.free_of_mem_freeVars hx)
    rw [hΓ]
    exact candidates_represent hvalid (harray x hx) f.constants hval

theorem map_fst_of_combination {env : Assignment} (hmem : env ∈ combinations (domainsOf f) []) :
    env.map (·.1) = (f.freeVars.map (·.1)).reverse := by
  rw [map_fst_of_mem_combinations hmem, domainsOf, map_map, map_nil, append_nil]
  rfl

theorem get?_of_combination {env : Assignment} (hmem : env ∈ combinations (domainsOf f) [])
    (name : String) (v : BitValue) : (Table.ofList env).get? name = some v ↔ (name, v) ∈ env := by
  refine Table.get?_ofList_eq_some_iff ?_
  rw [map_fst_of_combination hmem, nodup_reverse]
  exact Formula.nodup_firstOfName [] _

theorem exists_lookup_of_combination (hf : f.HasSort Γ .bool) {env : Assignment}
    (hmem : env ∈ combinations (domainsOf f) []) {name : String} {sort : VarSort}
    (hfree : f.Free (name, sort)) : ∃ v, env.lookup name = some v := by
  have hname : name ∈ env.map (·.1) := by
    rw [map_fst_of_combination hmem, mem_reverse]
    exact mem_map.mpr ⟨(name, sort), hf.mem_freeVars_iff.mpr hfree, rfl⟩
  rw [← Option.isSome_iff_exists, lookup_isSome_iff]
  simpa using hname

theorem isModel_of_combination (hsorts : ∀ a ∈ assertions, a.HasSort Γ .bool)
    (hf : f = Formula.conjunction assertions) (harray : ∀ x ∈ f.freeVars, x.2.isArray = false)
    {env : Assignment} (hmem : env ∈ combinations (domainsOf f) [])
    (htrue : ∀ ρ, Agrees Γ env ρ → f.denote ρ = .bool true) : IsModel Γ assertions (.ofList env) := by
  have hsort : f.HasSort Γ .bool := hf ▸ .conjunction hsorts
  have hget := get?_of_combination hmem
  have hkey (name : String) : name ∈ env.map (·.1) ↔ ∃ a ∈ assertions, ∃ sort, a.Free (name, sort) := by
    rw [map_fst_of_combination hmem, mem_reverse]
    constructor
    · intro hname
      obtain ⟨x, hx, rfl⟩ := mem_map.mp hname
      obtain ⟨a, ha, hfree⟩ := Formula.free_conjunction.mp (hf ▸ Formula.free_of_mem_freeVars hx)
      exact ⟨a, ha, x.2, hfree⟩
    · rintro ⟨a, ha, sort, hfree⟩
      have hx : (name, sort) ∈ f.freeVars := by
        rw [hsort.mem_freeVars_iff, hf]
        exact Formula.free_conjunction.mpr ⟨a, ha, hfree⟩
      exact mem_map.mpr ⟨_, hx, rfl⟩
  refine ⟨fun name => ?_, fun name v hv => ?_, fun ρ hρ => ?_⟩
  · rw [← hkey, Table.contains, Option.isSome_iff_exists, mem_map]
    simp only [hget]
    grind
  · exact represents_of_combination hsort harray hmem ((hget name v).mp hv)
  · rw [← Formula.denote_conjunction, ← hf]
    exact htrue ρ fun name v hv => hρ name v ((hget name v).mpr (Table.mem_of_lookup hv))

theorem isModel_of_solve_sat {budget : UInt64} (hsorts : ∀ a ∈ assertions, a.HasSort Γ .bool)
    (h : (solve budget assertions).result = .sat) :
    ∃ model, (solve budget assertions).model = some model ∧ IsModel Γ assertions model := by
  obtain ⟨harray, env, hmem, heval, hmodel⟩ := solve_sat rfl h
  exact ⟨_, hmodel, isModel_of_combination hsorts rfl harray (mem_of_mem_take hmem) fun ρ hagree =>
    (Formula.HasSort.conjunction hsorts).denote_of_eval hagree heval⟩

theorem exists_valuation {values : String → Option BitValue}
    (h : ∀ name v, values name = some v → ∃ x, Represents (Γ name) v x) :
    ∃ ρ : Valuation, (∀ name v, values name = some v → Represents (Γ name) v (ρ name)) ∧
      ∀ name, (ρ name).sort = Γ name := by
  have hvalue (name : String) :
      ∃ x : Denotation, x.sort = Γ name ∧ ∀ v, values name = some v → Represents (Γ name) v x := by
    cases hlookup : values name with
    | none =>
      obtain ⟨x, hx⟩ := Denotation.exists_sort_eq (Γ name)
      exact ⟨x, hx, nofun⟩
    | some v =>
      obtain ⟨x, hx⟩ := h name v hlookup
      refine ⟨x, hx.sort_eq, fun w hw => ?_⟩
      cases hw
      exact hx
  choose ρ hsort hrep using hvalue
  exact ⟨ρ, hrep, hsort⟩

/-- Some values of the free variables, each of its sort, make all assertions true. -/
def Satisfiable (assertions : List Formula) : Prop :=
  ∃ ρ : Valuation, (∀ a ∈ assertions, ∀ name sort, a.Free (name, sort) → (ρ name).sort = sort) ∧
    ∀ a ∈ assertions, a.denote ρ = .bool true

theorem Satisfiable.exists_sorted (h : Satisfiable assertions)
    (hsorts : ∀ a ∈ assertions, a.HasSort Γ .bool) :
    ∃ ρ : Valuation, (∀ name, (ρ name).sort = Γ name) ∧ ∀ a ∈ assertions, a.denote ρ = .bool true := by
  obtain ⟨ρ, hρ, htrue⟩ := h
  choose other hother using fun name => Denotation.exists_sort_eq (Γ name)
  refine ⟨fun name => if (ρ name).sort = Γ name then ρ name
    else other name, fun name => ?_, fun a ha => ?_⟩
  · dsimp only
    split
    · assumption
    · exact hother name
  · rw [← htrue a ha]
    refine (hsorts a ha).denote_congr fun x hx => if_pos ?_
    rw [hρ a ha x.1 x.2 hx, ((hsorts a ha).sort_of_free hx).1]

theorem IsModel.satisfiable {model : SolverModel} (h : IsModel Γ assertions model)
    (hsorts : ∀ a ∈ assertions, a.HasSort Γ .bool) : Satisfiable assertions := by
  obtain ⟨ρ, hrep, hρ⟩ := exists_valuation h.represents
  refine ⟨ρ, fun a ha name sort hfree => ?_, h.satisfies ρ hrep⟩
  rw [hρ, ((hsorts a ha).sort_of_free hfree).1]

theorem exists_combination_of_full (hsort : f.HasSort Γ .bool)
    (hfull : ∀ x ∈ f.freeVars, (candidates f.constants x.2).2 = true) {ρ : Valuation}
    (hρ : ∀ name sort, f.Free (name, sort) → (ρ name).sort = sort) :
    ∃ env ∈ combinations (domainsOf f) [], Agrees Γ env ρ := by
  apply exists_combination
  · intro name v hv
    cases hv
  · intro d hd
    obtain ⟨x, hx, rfl⟩ := mem_map.mp hd
    have hfree := Formula.free_of_mem_freeVars hx
    obtain ⟨hΓ, hvalid⟩ := hsort.sort_of_free hfree
    rw [hΓ]
    exact candidates_full hvalid f.constants (hfull x hx) (hρ x.1 x.2 hfree)

/-- A combination gives every free variable a value, so that one valuation which agrees with it
speaks for all. -/
theorem denote_eq_of_combination (hsort : f.HasSort Γ .bool) {env : Assignment}
    (hmem : env ∈ combinations (domainsOf f) []) {ρ σ : Valuation} (hρ : Agrees Γ env ρ)
    (hσ : Agrees Γ env σ) : f.denote ρ = f.denote σ := by
  refine hsort.denote_congr fun x hx => ?_
  obtain ⟨v, hv⟩ := exists_lookup_of_combination hsort hmem hx
  exact ((hρ x.1 v hv).eq_iff (hσ x.1 v hv)).mp rfl

/-- The combinations of values that a search with a budget does not come to. -/
def untried (budget : UInt64) (assertions : List Formula) : List Assignment :=
  (combinations (domainsOf (.conjunction assertions)) []).drop (max budget.toNat 1)

/-- A model is among the combinations that the search does not come to. -/
def Overlooks (Γ : Sorting) (budget : UInt64) (assertions : List Formula) : Prop :=
  ∃ env ∈ untried budget assertions, IsModel Γ assertions (.ofList env)

variable {budget : UInt64}

/-- The number of combinations is counted in 64 bits, and so only the largest budget can pass for
one that is enough for all of them without being it. -/
theorem Overlooks.saturated (h : Overlooks Γ budget assertions)
    (hunsat : (solve budget assertions).result = .unsat) : budget.toNat = UInt64.size - 1 ∧
      UInt64.size ≤ (combinations (domainsOf (.conjunction assertions)) []).length := by
  obtain ⟨env, hmem, -⟩ := h
  obtain ⟨-, -, hcount⟩ := solve_unsat rfl hunsat
  have hmore : max budget.toNat 1 < (combinations (domainsOf (.conjunction assertions)) []).length := by
    by_contra hle
    rw [untried, drop_eq_nil_of_le (by omega)] at hmem
    exact not_mem_nil hmem
  have hlt : budget.toNat < UInt64.size := budget.toNat_lt_size
  have hsize : UInt64.size = 18446744073709551616 := rfl
  omega

theorem satisfiable_iff_overlooks (hsorts : ∀ a ∈ assertions, a.HasSort Γ .bool)
    (hunsat : (solve budget assertions).result = .unsat) :
    Satisfiable assertions ↔ Overlooks Γ budget assertions := by
  refine ⟨?_, fun ⟨_, _, hmodel⟩ => hmodel.satisfiable hsorts⟩
  rintro ⟨ρ, hρ, htrue⟩
  obtain ⟨hvars, hrefuted, -⟩ := solve_unsat rfl hunsat
  have hsort := Formula.HasSort.conjunction hsorts
  have hfree (name : String) (sort : VarSort) (hx : (Formula.conjunction assertions).Free (name, sort)) :
      (ρ name).sort = sort := by
    obtain ⟨a, ha, hx⟩ := Formula.free_conjunction.mp hx
    exact hρ a ha name sort hx
  obtain ⟨env, hmem, hagree⟩ := exists_combination_of_full hsort (fun x hx => (hvars x hx).2) hfree
  have hconj : (Formula.conjunction assertions).denote ρ = .bool true :=
    Formula.denote_conjunction.mpr htrue
  have hplace := hmem
  rw [← take_append_drop (max budget.toNat 1) (combinations _ _), mem_append] at hplace
  rcases hplace with htried | huntried
  · have hfalse := hsort.denote_of_eval hagree (hrefuted env htried)
    rw [hconj] at hfalse
    cases hfalse
  · refine ⟨env, huntried, isModel_of_combination hsorts rfl (fun x hx => (hvars x hx).1) hmem
      fun σ hσ => ?_⟩
    rw [denote_eq_of_combination hsort hmem hσ hagree, hconj]

def squareIs (n : UInt64) : Formula :=
  .eq (.binary .mul (.var "x" (.bitVec 3)) (.var "x" (.bitVec 3))) (.const n 3)

theorem hasSort_squareIs (n : UInt64) : (squareIs n).HasSort (fun _ => .bitVec 3) .bool :=
  have hx : (Formula.var "x" (.bitVec 3)).HasSort (fun _ => .bitVec 3) (.bitVec 3) := .var rfl (by decide)
  .eq (.binary .mul hx hx) (.const n (by decide))

end Soundness

end TagLang.Search
