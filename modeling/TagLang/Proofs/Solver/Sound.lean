import TagLang.Proofs.Solver.Budget

/-! # What an answer of the search is worth

A model that the search gives is one. That there is none is right unless a model is among the
combinations to which the search did not come. Such combinations are left only at the largest
budget: the number of combinations is counted in 64 bits, and where the count stays at the largest
number, the budget reaches it one evaluation or more too early.
-/

namespace TagLang.Search
open List

section Soundness

variable {Γ : Sorting} {assertions : List Formula}

/-- A model that the search gives is one. Where it says that there is none, there is one exactly if
the search overlooks it, which takes the largest budget and more combinations than 64 bits count. -/
theorem solve_sound (budget : UInt64) (hsorts : ∀ a ∈ assertions, a.HasSort Γ .bool) :
    ((solve budget assertions).result = .sat →
      ∃ model, (solve budget assertions).model = some model ∧ IsModel Γ assertions model) ∧
    ((solve budget assertions).result = .unsat →
      (Satisfiable assertions ↔ Overlooks Γ budget assertions) ∧
      (Overlooks Γ budget assertions → budget.toNat = UInt64.size - 1 ∧
        UInt64.size ≤ (combinations (domainsOf (.conjunction assertions)) []).length)) :=
  ⟨isModel_of_solve_sat hsorts, fun h =>
    ⟨satisfiable_iff_overlooks hsorts h, fun hover => hover.saturated h⟩⟩

theorem solve_sound_squareIs :
    ((solve 8 [squareIs 4]).result = .sat ∧
      ∃ model, (solve 8 [squareIs 4]).model = some model ∧
        IsModel (fun _ => .bitVec 3) [squareIs 4] model) ∧
    (solve 8 [squareIs 3]).result = .unsat ∧ ¬Satisfiable [squareIs 3] := by
  have hsorts (n : UInt64) : ∀ a ∈ [squareIs n], a.HasSort (fun _ => .bitVec 3) .bool := by
    intro a ha
    rw [mem_singleton.mp ha]
    exact hasSort_squareIs n
  have hsat : (solve 8 [squareIs 4]).result = .sat := by decide
  have hunsat : (solve 8 [squareIs 3]).result = .unsat := by decide
  obtain ⟨hiff, hsaturated⟩ := (solve_sound 8 (hsorts 3)).2 hunsat
  refine ⟨⟨hsat, (solve_sound 8 (hsorts 4)).1 hsat⟩, hunsat, fun hmodel => ?_⟩
  exact absurd (hsaturated (hiff.mp hmodel)).1 (by decide)

end Soundness

def byteAnd (name : String) : List String → Formula
  | [] => .var name (.bitVec 8)
  | next :: names => .binary .and (.var name (.bitVec 8)) (byteAnd next names)

theorem hasSort_byteAnd (name : String) (names : List String) :
    (byteAnd name names).HasSort (fun _ => .bitVec 8) (.bitVec 8) := by
  induction names generalizing name with
  | nil => exact .var rfl (by decide)
  | cons next names ih => exact .binary .and (.var rfl (by decide)) (ih next)

theorem denote_byteAnd {ρ : Valuation} (hρ : ∀ name, (ρ name).sort = .bitVec 8) (name : String)
    (names : List String) : ∃ x, (byteAnd name names).denote ρ = .bits 8 x ∧
      (x = .allOnes 8 ↔ ∀ other ∈ name :: names, ρ other = .bits 8 (.allOnes 8)) := by
  obtain ⟨x, hx⟩ := Denotation.eq_bits_of_sort (hρ name)
  induction names generalizing name x with
  | nil => exact ⟨x, hx, by simp [hx]⟩
  | cons next names ih =>
    obtain ⟨y, hy⟩ := Denotation.eq_bits_of_sort (hρ next)
    obtain ⟨z, hz, hones⟩ := ih next y hy
    refine ⟨x &&& z, ?_, ?_⟩
    · rw [byteAnd, Formula.denote, Formula.denote, hx, hz, Denotation.onPair_bits]
      rfl
    · rw [BitVec.and_eq_allOnes_iff, hones, forall_mem_cons (a := name), hx]
      simp

def otherNames : List String := ["b", "c", "d", "e", "f", "g", "h"]

/-- Eight bytes have all their bits set. -/
def eightOnes : Formula := .eq (.zeroExtend 24 (byteAnd "a" otherNames)) (.const 255 32)

theorem hasSort_eightOnes : eightOnes.HasSort (fun _ => .bitVec 8) .bool :=
  .eq (.zeroExtend (by decide) (hasSort_byteAnd _ _)) (.const 255 (by decide))

theorem denote_eightOnes {ρ : Valuation} (hρ : ∀ name, (ρ name).sort = .bitVec 8) :
    eightOnes.denote ρ = .bool true ↔ ∀ name ∈ "a" :: otherNames, ρ name = .bits 8 (.allOnes 8) := by
  obtain ⟨x, hx, hones⟩ := denote_byteAnd hρ "a" otherNames
  have hextend : x.setWidth 32 = 255#32 ↔ x = .allOnes 8 := by
    rw [← BitVec.toNat_inj, ← BitVec.toNat_inj]
    simp
    omega
  rw [← hones, ← hextend, eightOnes, Formula.denote, Formula.denote, Formula.denote, hx,
    Denotation.onBits]
  simp

theorem satisfiable_eightOnes : Satisfiable [eightOnes] := by
  refine ⟨fun _ => .bits 8 (.allOnes 8), fun a ha name sort hfree => ?_, fun a ha => ?_⟩
  · rw [mem_singleton.mp ha] at hfree
    exact (hasSort_eightOnes.sort_of_free hfree).1
  · rw [mem_singleton.mp ha]
    exact (denote_eightOnes fun _ => rfl).mpr fun _ _ => rfl

theorem short_eightOnes : eightOnes.Short :=
  ⟨by decide, fun x hx => .inr ⟨8, by decide, (hasSort_eightOnes.sort_of_free hx).1.symm⟩⟩

theorem mem_of_mem_combinations {domains : List (String × List BitValue)} {env env' : Assignment}
    (h : env' ∈ combinations domains env) {e : String × BitValue} (he : e ∈ env) : e ∈ env' := by
  induction domains generalizing env with
  | nil =>
    rw [mem_singleton.mp h]
    exact he
  | cons domain rest ih =>
    obtain ⟨v, _, h⟩ := mem_flatMap.mp h
    exact ih h (mem_cons_of_mem _ he)

/-- Of the combinations of one list of values, all but the last one give a name a value which is not
the last. -/
theorem combinations_eq_concat (values : List BitValue) (v : BitValue) (names : List String)
    (env : Assignment) :
    ∃ init last, combinations (names.map fun name => (name, values ++ [v])) env = init ++ [last] ∧
      ∀ env' ∈ init, ∃ name ∈ names, ∃ w ∈ values, (name, w) ∈ env' := by
  induction names generalizing env with
  | nil => exact ⟨[], env, rfl, forall_mem_nil _⟩
  | cons name names ih =>
    obtain ⟨init, last, hinit, hvalues⟩ := ih ((name, v) :: env)
    refine ⟨values.flatMap (fun w => combinations (names.map fun name => (name, values ++ [v]))
      ((name, w) :: env)) ++ init, last, ?_, fun env' hmem => ?_⟩
    · rw [map_cons, combinations, flatMap_append, flatMap_singleton, hinit, append_assoc]
    · rcases mem_append.mp hmem with hmem | hmem
      · obtain ⟨w, hw, hmem⟩ := mem_flatMap.mp hmem
        exact ⟨name, mem_cons_self, w, hw, mem_of_mem_combinations hmem mem_cons_self⟩
      · obtain ⟨other, hother, w, hw, hmem⟩ := hvalues env' hmem
        exact ⟨other, mem_cons_of_mem _ hother, w, hw, hmem⟩

def bytesBelow (n : Nat) : List BitValue := (range n).map fun m => .ofBits (.ofNat m) 8

theorem domainsOf_eightOnes : domainsOf eightOnes =
    ("a" :: otherNames).map fun name => (name, bytesBelow 255 ++ [.ofBits (.ofNat 255) 8]) := by
  have hvars : eightOnes.freeVars = ("a" :: otherNames).map fun name => (name, .bitVec 8) := rfl
  have hbytes (constants : List Int) : (candidates constants (.bitVec 8)).1 = bytesBelow 256 := rfl
  have hlast : bytesBelow 256 = bytesBelow 255 ++ [.ofBits (.ofNat 255) 8] := by
    rw [bytesBelow, range_succ, map_append]
    rfl
  rw [domainsOf, hvars, map_map, ← hlast]
  exact map_congr_left fun name _ => by rw [Function.comp_apply, hbytes]

theorem length_combinations_eightOnes : (combinations (domainsOf eightOnes) []).length = UInt64.size := by
  rw [length_combinations, domainsOf_eightOnes, map_map]
  simp [otherNames, bytesBelow, UInt64.size]

theorem eval_ne_true_of_mem_take {env : Assignment}
    (hmem : env ∈ (combinations (domainsOf eightOnes) []).take (UInt64.size - 1)) :
    (eightOnes.eval env).bind BitValue.asBool ≠ .ok true := by
  intro heval
  have hall := mem_of_mem_take hmem
  obtain ⟨init, last, hinit, hvalues⟩ :=
    combinations_eq_concat (bytesBelow 255) (.ofBits (.ofNat 255) 8) ("a" :: otherNames) []
  have hlength : init.length = UInt64.size - 1 := by
    have h := length_combinations_eightOnes
    rw [domainsOf_eightOnes, hinit, length_append, length_singleton] at h
    omega
  rw [domainsOf_eightOnes, hinit, ← hlength, take_left] at hmem
  obtain ⟨name, hname, w, hw, hmem⟩ := hvalues env hmem
  obtain ⟨m, hm, rfl⟩ := mem_map.mp hw
  -- Some byte of the assignment is below 255, and is to have all its bits set.
  have hget := get?_of_combination hall
  obtain ⟨ρ, hrep, hρ⟩ := exists_valuation (Γ := fun _ => .bitVec 8) fun name v hv =>
    represents_of_combination hasSort_eightOnes short_eightOnes.not_isArray hall ((hget name v).mp hv)
  have hagree : Agrees (fun _ => .bitVec 8) env ρ :=
    fun name v hv => hrep name v ((hget name v).mpr (Table.mem_of_lookup hv))
  have hones := (denote_eightOnes hρ).mp (hasSort_eightOnes.denote_of_eval hagree heval) name hname
  have hbyte := (Represents.ofBits (.ofNat m) (by decide)).eq_iff (hrep name _ ((hget name _).mpr hmem))
  rw [hones] at hbyte
  have hm : m < 255 := mem_range.mp hm
  obtain ⟨-, hheq⟩ := Denotation.bits.inj (hbyte.mp rfl)
  have hlow := congrArg BitVec.toNat (eq_of_heq hheq)
  rw [Bits.toNat_low, UInt64.toNat_ofNat', BitVec.toNat_allOnes] at hlow
  omega

theorem solve_eightOnes : (solve 18446744073709551615 [eightOnes]).result = .unsat := by
  have hf : eightOnes = Formula.conjunction [eightOnes] := rfl
  have hcount : min (combinations (domainsOf eightOnes) []).length (UInt64.size - 1) ≤
      max (18446744073709551615 : UInt64).toNat 1 := by
    rw [length_combinations_eightOnes]
    decide
  rcases solve_sat_or_unsat hf hasSort_eightOnes short_eightOnes hcount with h | h
  · obtain ⟨-, env, hmem, heval, -⟩ := solve_sat hf h
    exact absurd heval (eval_ne_true_of_mem_take hmem)
  · exact h

/-- Of 2 ^ 64 combinations the last one is a model. The largest budget ends right before it, and the
search says that there is no model. -/
theorem solve_misses_last : eightOnes.HasSort (fun _ => .bitVec 8) .bool ∧ Satisfiable [eightOnes] ∧
    (solve 18446744073709551615 [eightOnes]).result = .unsat :=
  ⟨hasSort_eightOnes, satisfiable_eightOnes, solve_eightOnes⟩

end TagLang.Search
