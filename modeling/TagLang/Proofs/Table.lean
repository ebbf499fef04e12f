import TagLang.Table
import Mathlib.Data.List.Dedup
import Mathlib.Data.List.Induction
import Mathlib.Data.String.Basic

/-! # Lookups in ordered tables

What a table answers after an insertion, and after a whole list of them. No answer needs the order
of the entries: an inserted entry comes before every older one of its name. Only the number of the
entries does.
-/

namespace TagLang.Table
open List

variable {α : Type} {entries : List (String × α)} {value : α} {name : String} {t : Table α}

theorem lookup_cons_ite (name k : String) (v : α) (rest : List (String × α)) :
    List.lookup name ((k, v) :: rest) = if name = k then some v else rest.lookup name := by
  rw [lookup_cons]
  by_cases h : name = k
  · simp [h]
  · have hb : (name == k) = false := beq_eq_false_iff_ne.mpr h
    simp [h, hb]

theorem mem_of_lookup (h : entries.lookup name = some value) : (name, value) ∈ entries := by
  obtain ⟨before, after, rfl, -⟩ := lookup_eq_some_iff.mp h
  simp

theorem lookup_mapEntry {β : Type} (f : String → α → β) (name : String) (entries : List (String × α)) :
    (entries.map fun (k, v) => (k, f k v)).lookup name = (entries.lookup name).map (f name) := by
  induction entries with
  | nil => rfl
  | cons entry entries ih =>
    obtain ⟨k, v⟩ := entry
    simp only [map_cons, lookup_cons_ite, ih]
    split
    · next he => rw [he, Option.map_some]
    · rfl

theorem lookup_filter (keep : String → Bool) (name : String) (entries : List (String × α)) :
    (entries.filter fun entry => keep entry.1).lookup name = if keep name then entries.lookup name
      else none := by
  induction entries with
  | nil => simp
  | cons entry entries ih =>
    obtain ⟨k, v⟩ := entry
    rw [filter_cons, lookup_cons_ite]
    by_cases hname : name = k
    · subst hname
      split
      · rw [lookup_cons_ite, if_pos rfl, if_pos rfl]
      · next hkeep => rw [ih, if_neg hkeep]
    · rw [if_neg hname, ← ih]
      split
      · rw [lookup_cons_ite, if_neg hname]
      · rfl

theorem lookup_insertEntry (key name : String) (value : α) (entries : List (String × α)) :
    (insertEntry key value entries).lookup name = if name = key then some value
      else entries.lookup name := by
  induction entries with
  | nil => rw [insertEntry, lookup_cons_ite]
  | cons entry rest ih =>
    obtain ⟨k, v⟩ := entry
    simp only [insertEntry]
    split
    · next hk =>
      subst hk
      simp only [lookup_cons_ite]
      split <;> rfl
    · next hk =>
      split
      · rw [lookup_cons_ite]
      · rw [lookup_cons_ite, ih, lookup_cons_ite]
        by_cases h : name = k
        · have hne : name ≠ key := fun he => hk (he.symm.trans h)
          rw [if_pos h, if_neg hne, if_pos h]
        · rw [if_neg h, if_neg h]

theorem get?_insert (t : Table α) (key name : String) (value : α) :
    (t.insert key value).get? name = if name = key then some value else t.get? name :=
  lookup_insertEntry key name value t.entries

theorem get?_empty (name : String) : (empty : Table α).get? name = none := rfl

theorem get?_foldl_of_notMem (name : String) (entries : List (String × α)) (t : Table α)
    (h : name ∉ entries.map (·.1)) :
    (entries.foldl (fun t (k, v) => t.insert k v) t).get? name = t.get? name := by
  induction entries generalizing t with
  | nil => rfl
  | cons entry rest ih =>
    simp only [map_cons, mem_cons, not_or] at h
    rw [foldl_cons, ih _ h.2, get?_insert, if_neg h.1]

theorem get?_foldl_of_mem (t : Table α) (hnodup : (entries.map (·.1)).Nodup)
    (h : (name, value) ∈ entries) :
    (entries.foldl (fun t (k, v) => t.insert k v) t).get? name = some value := by
  induction entries generalizing t with
  | nil => simp at h
  | cons entry rest ih =>
    simp only [map_cons, nodup_cons] at hnodup
    rcases mem_cons.mp h with rfl | h
    · rw [foldl_cons, get?_foldl_of_notMem _ _ _ hnodup.1, get?_insert, if_pos rfl]
    · exact ih _ hnodup.2 h

theorem get?_ofList (hnodup : (entries.map (·.1)).Nodup) (h : (name, value) ∈ entries) :
    (ofList entries).get? name = some value :=
  get?_foldl_of_mem _ hnodup h

theorem exists_last_of_get?_foldl
    (h : (entries.foldl (fun t (k, v) => t.insert k v) t).get? name = some value) :
    (∃ before after, entries = before ++ (name, value) :: after ∧ name ∉ after.map (·.1)) ∨
      t.get? name = some value := by
  induction entries using List.reverseRecOn with
  | nil => exact .inr h
  | append_singleton entries entry ih =>
    rw [foldl_append, foldl_cons, foldl_nil, get?_insert] at h
    split at h
    · next hname =>
      cases h
      exact .inl ⟨entries, [], by rw [hname], not_mem_nil⟩
    · next hname =>
      rcases ih h with ⟨before, after, rfl, hafter⟩ | hget
      · refine .inl ⟨before, after ++ [entry], by simp, ?_⟩
        simpa [hname] using hafter
      · exact .inr hget

theorem exists_last_of_get?_ofList (h : (ofList entries).get? name = some value) :
    ∃ before after, entries = before ++ (name, value) :: after ∧ name ∉ after.map (·.1) :=
  (exists_last_of_get?_foldl h).resolve_right (by simp [get?_empty])

theorem exists_last_of_get?_map {β : Type} {l : List β} {key : β → String} {f : β → α}
    (h : (ofList (l.map fun b => (key b, f b))).get? name = some value) :
    ∃ before b after, l = before ++ b :: after ∧ key b = name ∧ f b = value ∧ ∀ b' ∈
      after, key b' ≠ name := by
  obtain ⟨before, after, heq, hafter⟩ := exists_last_of_get?_ofList h
  obtain ⟨first, rest, hl, rfl, hrest⟩ := map_eq_append_iff.mp heq
  obtain ⟨b, after, rfl, hb, rfl⟩ := map_eq_cons_iff.mp hrest
  cases hb
  refine ⟨first, b, after, hl, rfl, rfl, fun b' hb' hname => hafter ?_⟩
  exact mem_map.mpr ⟨_, mem_map_of_mem hb', hname⟩

theorem mem_of_get?_ofList (h : (ofList entries).get? name = some value) : (name, value) ∈ entries := by
  obtain ⟨before, after, rfl, -⟩ := exists_last_of_get?_ofList h
  simp

theorem get?_ofList_eq_some_iff (hnodup : (entries.map (·.1)).Nodup) :
    (ofList entries).get? name = some value ↔ (name, value) ∈ entries :=
  ⟨mem_of_get?_ofList, get?_ofList hnodup⟩

/-! ## The number of entries -/

theorem mem_keys_insertEntry {key name : String} :
    name ∈ (insertEntry key value entries).map (·.1) ↔ name = key ∨ name ∈ entries.map (·.1) := by
  induction entries with
  | nil => simp [insertEntry]
  | cons entry rest ih =>
    obtain ⟨k, v⟩ := entry
    simp only [insertEntry]
    split
    · next hk => simp [hk]
    · split
      · simp
      · rw [map_cons, mem_cons, ih, map_cons, mem_cons]
        tauto

/-- The names stand in order, so none stands twice. -/
def Ordered (t : Table α) : Prop := t.keys.Pairwise (· < ·)

theorem ordered_insertEntry {key : String} (h : (entries.map (·.1)).Pairwise (· < ·)) :
    ((insertEntry key value entries).map (·.1)).Pairwise (· < ·) := by
  induction entries with
  | nil => simp [insertEntry]
  | cons entry rest ih =>
    obtain ⟨k, v⟩ := entry
    obtain ⟨hk, hrest⟩ := pairwise_cons.mp h
    simp only [insertEntry]
    split
    · next hkey =>
      rw [hkey]
      exact h
    · next hne =>
      split
      · next hlt =>
        refine pairwise_cons.mpr ⟨fun name hname => ?_, h⟩
        rcases mem_cons.mp hname with rfl | hname
        · exact hlt
        · exact hlt.trans (hk name hname)
      · next hle =>
        refine pairwise_cons.mpr ⟨fun name hname => ?_, ih hrest⟩
        rcases mem_keys_insertEntry.mp hname with rfl | hname
        · exact lt_of_le_of_ne (not_lt.mp hle) (Ne.symm hne)
        · exact hk name hname

theorem keys_foldl (ht : t.Ordered) :
    (entries.foldl (fun t (k, v) => t.insert k v) t).Ordered ∧
      ∀ name, name ∈ (entries.foldl (fun t (k, v) => t.insert k v) t).keys ↔
        name ∈ entries.map (·.1) ∨ name ∈ t.keys := by
  induction entries generalizing t with
  | nil => simpa using ht
  | cons entry rest ih =>
    obtain ⟨hordered, hkeys⟩ := ih (t := t.insert entry.1 entry.2) (ordered_insertEntry ht)
    refine ⟨hordered, fun name => ?_⟩
    have hinsert : name ∈ (t.insert entry.1 entry.2).keys ↔ name = entry.1 ∨ name ∈ t.keys :=
      mem_keys_insertEntry
    rw [foldl_cons, hkeys, hinsert, map_cons, mem_cons]
    tauto

theorem size_ofList_eq_iff : (ofList entries).size = entries.length ↔ (entries.map (·.1)).Nodup := by
  obtain ⟨hordered, hkeys⟩ := @keys_foldl α entries empty List.Pairwise.nil
  have hnodup : (ofList entries).keys.Nodup := hordered.imp ne_of_lt
  have hperm : (ofList entries).keys.Perm (entries.map (·.1)).dedup := by
    refine (perm_ext_iff_of_nodup hnodup (nodup_dedup _)).mpr fun name => ?_
    rw [mem_dedup, ofList, hkeys]
    simp [keys, empty]
  have hsize : (ofList entries).size = (entries.map (·.1)).dedup.length := by
    rw [← hperm.length_eq, keys, length_map]
    rfl
  have hlength : entries.length = (entries.map (·.1)).length := (length_map _).symm
  rw [hsize, hlength]
  constructor
  · intro heq
    rw [← (dedup_sublist _).eq_of_length heq]
    exact nodup_dedup _
  · intro hentries
    rw [hentries.dedup]

/-! ## The order of the entries -/

theorem lookup_eq_some_iff (hnodup : (entries.map (·.1)).Nodup) :
    entries.lookup name = some value ↔ (name, value) ∈ entries := by
  refine ⟨mem_of_lookup, fun hmem => ?_⟩
  induction entries with
  | nil => cases hmem
  | cons entry entries ih =>
    obtain ⟨hnew, hrest⟩ := nodup_cons.mp hnodup
    rw [lookup_cons_ite]
    rcases mem_cons.mp hmem with rfl | hmem
    · exact if_pos rfl
    · rw [if_neg fun hname => hnew (mem_map.mpr ⟨_, hmem, hname⟩)]
      exact ih hrest hmem

theorem ordered_ofList (entries : List (String × α)) : (ofList entries).Ordered := by
  have hempty : (empty : Table α).Ordered := List.Pairwise.nil
  exact (keys_foldl hempty).1

theorem ofList_eq_of_perm (ht : t.Ordered) (hperm : entries.Perm t.entries) : ofList entries = t := by
  have hnames (t : Table α) (ht : t.Ordered) : (t.entries.map Prod.fst).Nodup := ht.imp ne_of_lt
  have hnodup (t : Table α) (ht : t.Ordered) : t.entries.Nodup := (hnames t ht).of_map Prod.fst
  have hkeys : (entries.map Prod.fst).Nodup := (hperm.map Prod.fst).nodup_iff.mpr (hnames t ht)
  have hordered := ordered_ofList entries
  have hsame : (ofList entries).entries.Perm t.entries := by
    refine (perm_ext_iff_of_nodup (hnodup _ hordered) (hnodup _ ht)).mpr fun entry => ?_
    rw [← lookup_eq_some_iff (hnames _ hordered), ← get?, get?_ofList_eq_some_iff hkeys, hperm.mem_iff]
  have heq : (ofList entries).entries = t.entries := by
    have hlt (t : Table α) (ht : t.Ordered) : t.entries.Pairwise fun x y => x.1 < y.1 :=
      pairwise_map.mp ht
    refine List.Perm.eq_of_pairwise (fun x y _ _ hxy hyx => ?_) (hlt _ hordered) (hlt t ht) hsame
    exact absurd hxy (lt_asymm hyx)
  cases t
  cases h : ofList entries
  rw [h] at heq
  exact congrArg Table.mk heq

end TagLang.Table
