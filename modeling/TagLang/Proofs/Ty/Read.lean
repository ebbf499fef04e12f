import TagLang.Ty.Read

/-! # Types that texts name

Every type that is read from a text is built from names by options, arrays, results and generic
types. What is proved of these by induction holds of all types in a source text.
-/

namespace TagLang.Ty
open Text List

variable {name : List Char} {t : Ty} {f : List Char → Option Ty} {texts : List (List Char)}

def families : List (List Char) := ["Option".toList, "Result".toList, "List".toList, "Array".toList]

inductive Nameable : Ty → Prop
  | builtin {name : String} {t : Ty} (h : builtin? name = some t) : Nameable t
  | plain {name : List Char} (hname : isTypeName name = true)
    (hother : builtin? (String.ofList name) = none) : Nameable (.named (String.ofList name) [])
  | option {t : Ty} (h : Nameable t) : Nameable (.option t)
  | array {t : Ty} (h : Nameable t) : Nameable (.array t)
  | result {ok err : Ty} (hok : Nameable ok) (herr : Nameable err) : Nameable (.result ok err)
  | generic {name : List Char} {args : List Ty} (hname : isTypeName name = true)
    (hother : name ∉ families) (hargs : args ≠ []) (h : ∀ a ∈ args, Nameable a) :
    Nameable (.named (String.ofList name) args)

theorem nameable_ofName? (h : ofName? name = some t) : t.Nameable := by
  unfold ofName? at h
  split at h
  · next hbuiltin =>
    cases h
    exact .builtin hbuiltin
  · next hother =>
    split at h
    · next hname =>
      cases h
      exact .plain hname hother
    · cases h

theorem ofGeneric?_of_notMem (hother : name ∉ families) (args : List Ty) :
    ofGeneric? name args = if isTypeName name then some (.named (String.ofList name) args) else none := by
  have hne {s : String} (hs : s.toList ∈ families) : String.ofList name ≠ s := by
    rintro rfl
    exact hother (by rwa [String.toList_ofList] at hs)
  unfold ofGeneric?
  split
  all_goals first | rfl | exact absurd ‹_› (hne (by decide))

theorem nameable_ofGeneric? {args : List Ty} (hempty : args ≠ []) (hargs : ∀ a ∈ args, a.Nameable)
    (h : ofGeneric? name args = some t) : t.Nameable := by
  unfold ofGeneric? at h
  split at h
  · next a _ =>
    cases h
    exact .option (hargs a mem_cons_self)
  · next ok err _ =>
    cases h
    exact .result (hargs ok mem_cons_self) (hargs err (by simp))
  · next a _ =>
    cases h
    exact .array (hargs a mem_cons_self)
  · next a _ =>
    cases h
    exact .array (hargs a mem_cons_self)
  · cases h
  · cases h
  · cases h
  · cases h
  · next hoption hresult hlist harray _ _ _ _ =>
    split at h
    · next hname =>
      cases h
      refine .generic hname ?_ hempty hargs
      simp only [families, mem_cons, not_mem_nil, or_false]
      rintro (rfl | rfl | rfl | rfl)
      · exact hoption String.ofList_toList
      · exact hresult String.ofList_toList
      · exact hlist String.ofList_toList
      · exact harray String.ofList_toList
    · cases h

theorem splitArgs_ne_nil (depth : Nat) (cs : List Char) : splitArgs depth cs ≠ some [] := by
  cases cs with
  | nil =>
    rw [splitArgs]
    split <;> simp
  | cons c cs =>
    rw [splitArgs]
    split
    · simp
    · dsimp only
      split <;> simp

theorem nameable_mapM (hf : ∀ text t, f text = some t → t.Nameable) {ts : List Ty}
    (h : texts.mapM f = some ts) : ∀ t ∈ ts, t.Nameable := by
  induction texts generalizing ts with
  | nil =>
    cases h
    exact forall_mem_nil _
  | cons text texts ih =>
    rw [mapM_cons] at h
    obtain ⟨t, ht, h⟩ := Option.bind_eq_some_iff.mp h
    obtain ⟨rest, hrest, h⟩ := Option.bind_eq_some_iff.mp h
    cases h
    exact forall_mem_cons.mpr ⟨hf text t ht, ih hrest⟩

theorem mapM_ne_nil (hne : texts ≠ []) {ts : List Ty} (h : texts.mapM f = some ts) : ts ≠ [] := by
  obtain ⟨text, texts, rfl⟩ := exists_cons_of_ne_nil hne
  rw [mapM_cons] at h
  obtain ⟨t, -, h⟩ := Option.bind_eq_some_iff.mp h
  obtain ⟨rest, -, h⟩ := Option.bind_eq_some_iff.mp h
  cases h
  exact cons_ne_nil t rest

theorem nameable_readChars? (fuel : Nat) :
    ∀ (text : List Char) (t : Ty), readChars? fuel text = some t → t.Nameable := by
  induction fuel with
  | zero => exact fun _ _ h => by cases h
  | succ fuel ih =>
    intro text t h
    rw [readChars?] at h
    split at h
    · cases h
    · obtain ⟨inner, hinner, rfl⟩ := Option.map_eq_some_iff.mp h
      exact .option (ih _ inner hinner)
    · split at h
      · obtain ⟨inner, hinner, rfl⟩ := Option.map_eq_some_iff.mp h
        exact .array (ih _ inner hinner)
      · split at h
        · exact nameable_ofName? h
        · simp only [Option.bind_eq_bind, Option.bind_eq_some_iff] at h
          obtain ⟨inner, -, parts, hparts, h⟩ := h
          split at h
          · cases h
          · obtain ⟨args, hargs, h⟩ := Option.bind_eq_some_iff.mp h
            have hne : parts ≠ [] := fun hnil => splitArgs_ne_nil 0 inner (hnil ▸ hparts)
            exact nameable_ofGeneric? (mapM_ne_nil hne hargs) (nameable_mapM ih hargs) h

theorem nameable_read? {text : String} (h : read? text = some t) : t.Nameable :=
  nameable_readChars? _ _ t h

end TagLang.Ty
