import TagLang.Effect.Catalog
import TagLang.Proofs.Effect.Order
import TagLang.Proofs.Table

/-! # Documents over the catalog

Each entry of a document counts for itself. A well-formed one replaces what the catalog says of its
signature, and nothing is reported about it; a malformed one changes nothing and is reported under
its signature. All that is used of the reader of documents is that a name stands only once in an
object.
-/

namespace TagLang
open List

/-! ## Objects that are read -/

namespace Json

/-- If the value is an object, its names are distinct, and so are those of the objects among its
members. -/
inductive Value.Distinct : Value → Prop
  | object {members : List (String × Value)} (names : (members.map (·.1)).Nodup)
    (inside : ∀ member ∈ members, Distinct member.2) : Distinct (.object members)
  | other {v : Value} (other : ∀ members, v ≠ .object members) : Distinct v

theorem Value.Distinct.names {members : List (String × Value)} (h : (Value.object members).Distinct) :
    (members.map (·.1)).Nodup := by
  cases h with
  | object names _ => exact names
  | other h => exact absurd rfl (h members)

theorem Value.Distinct.inside {members : List (String × Value)}
    (h : (Value.object members).Distinct) : ∀ member ∈ members, member.2.Distinct := by
  cases h with
  | object _ inside => exact inside
  | other h => exact absurd rfl (h members)

section Readers

variable {α : Type} {item : Text.Reader α} {close : Char} {cs rest : List Char} {as : List α}
  {P : α → Prop}

theorem forall_mem_itemsFrom (hitem : ∀ cs a rest, item cs = some (a, rest) → P a) {n : Nat}
    (h : itemsFrom item close n cs = some (as, rest)) : ∀ a ∈ as, P a := by
  induction n generalizing cs as rest with
  | zero => cases h
  | succ n ih =>
    rw [itemsFrom] at h
    split at h
    · simp only [Option.bind_eq_bind, Option.bind_eq_some_iff, Option.pure_def, Option.some.injEq,
        Prod.mk.injEq] at h
      obtain ⟨_, hfirst, _, hmore, rfl, -⟩ := h
      exact forall_mem_cons.mpr ⟨hitem _ _ _ hfirst, ih hmore⟩
    · split at h <;> cases h
      exact forall_mem_nil _
    · cases h

theorem forall_mem_items (hitem : ∀ cs a rest, item cs = some (a, rest) → P a)
    (h : items item close cs = some (as, rest)) : ∀ a ∈ as, P a := by
  rw [items] at h
  split at h
  · cases h
  · split at h
    · cases h
      exact forall_mem_nil _
    · simp only [Option.bind_eq_bind, Option.bind_eq_some_iff, Option.pure_def, Option.some.injEq,
        Prod.mk.injEq] at h
      obtain ⟨_, hfirst, _, hmore, rfl, -⟩ := h
      exact forall_mem_cons.mpr ⟨hitem _ _ _ hfirst, forall_mem_itemsFrom hitem hmore⟩

end Readers

theorem of_entry {P : Value → Prop} {item : Text.Reader Value}
    (hitem : ∀ cs v rest, item cs = some (v, rest) → P v) (cs : List Char) (member : String × Value)
    (rest : List Char) (h : entry item cs = some (member, rest)) : P member.2 := by
  rw [entry.eq_def] at h
  split at h
  · simp only [Option.bind_eq_bind, Option.bind_eq_some_iff] at h
    obtain ⟨_, -, h⟩ := h
    split at h
    · simp only [Option.pure_def, Option.bind_eq_some_iff, Option.some.injEq, Prod.mk.injEq] at h
      obtain ⟨_, hv, rfl, -⟩ := h
      exact hitem _ _ _ hv
    · cases h
  · cases h

theorem number_ne_object {cs rest : List Char} {members : List (String × Value)} :
    number cs ≠ some (.object members, rest) := by
  have hunsigned (cs : List Char) : unsigned cs ≠ some (.object members, rest) := by
    simp only [unsigned, ne_eq, Option.bind_eq_bind, Option.bind_eq_some_iff]
    rintro ⟨_, -, _, -, _, -, h⟩
    split at h <;> cases h
  rw [number.eq_def]
  split <;> exact hunsigned _

theorem items_of_object {depth : Nat} {cs rest : List Char} {members : List (String × Value)}
    (h : value depth cs = some (.object members, rest)) :
    ∃ inner inside found behind, inner < depth ∧
      items (entry (value inner)) '\x7d' inside = some (found, behind) ∧
      members = (Table.ofList found).entries := by
  rw [value.eq_def] at h
  split at h
  case h_5 =>
    simp only [Option.bind_eq_bind, Option.bind_eq_some_iff, Option.pure_def, Option.some.injEq,
      Prod.mk.injEq, Value.object.injEq] at h
    obtain ⟨⟨found, behind⟩, hfound, rfl, -⟩ := h
    exact ⟨_, _, found, behind, Nat.lt_succ_self _, hfound, rfl⟩
  case h_9 => exact absurd h number_ne_object
  all_goals simp [Text.word, Option.bind_eq_some_iff] at h

theorem distinct_of_value {depth : Nat} (cs : List Char) (v : Value) (rest : List Char)
    (h : value depth cs = some (v, rest)) : v.Distinct := by
  induction depth using Nat.strong_induction_on generalizing cs v rest with
  | _ depth ih =>
    by_cases hobject : ∃ members, v = .object members
    · obtain ⟨members, rfl⟩ := hobject
      obtain ⟨inner, inside, found, behind, hinner, hfound, rfl⟩ := items_of_object h
      have hnames : ((Table.ofList found).entries.map (·.1)).Nodup :=
        (Table.ordered_ofList found).imp ne_of_lt
      refine .object hnames fun member hmember => ?_
      refine forall_mem_items (of_entry (ih inner hinner)) hfound _ ?_
      exact Table.mem_of_get?_ofList ((Table.lookup_eq_some_iff hnames).mpr hmember)
    · exact .other fun members hv => hobject ⟨members, hv⟩

end Json

/-- No object that is read has a name twice. -/
def DocumentReader.Lawful (reader : DocumentReader) : Prop :=
  ∀ text v, reader.read text = .ok v → v.Distinct

theorem DocumentReader.lawful_standard : standard.Lawful := by
  intro text v h
  simp only [standard] at h
  split at h
  · next hread =>
    cases h
    simp only [Json.read?, Option.bind_eq_bind, Option.bind_eq_some_iff] at hread
    obtain ⟨⟨w, rest⟩, hw, hread⟩ := hread
    dsimp only at hread
    split at hread <;> cases hread
    exact Json.distinct_of_value _ _ _ hw
  · cases h

def CatalogError.signature? : CatalogError → Option String
  | .invalidDocument _ => none
  | .malformedSignature signature => some signature
  | .invalidCodes signature => some signature
  | .unknownCode signature _ => some signature

namespace Catalog

/-! ## Entries -/

structure WellFormed (reader : DocumentReader) (signature : String) (v : Json.Value)
    (codes : List String) : Prop where
  valid : reader.isSignature signature = true
  listed : v = .array (codes.map .str)
  recognised : ∀ code ∈ codes, ∃ effect, Effect.ofCode? code = some effect

section Entries

variable {reader : DocumentReader} {signature : String} {v : Json.Value} {items : List Json.Value}
  {codes : List String} {e : CatalogError}

theorem codeErrors_eq_nil_iff : codeErrors signature items = [] ↔
    ∃ codes : List String, items = codes.map .str ∧ ∀ code ∈ codes, ∃ effect,
      Effect.ofCode? code = some effect := by
  induction items with
  | nil => exact ⟨fun _ => ⟨[], rfl, forall_mem_nil _⟩, fun _ => rfl⟩
  | cons item items ih =>
    cases item with
    | str code =>
      rw [codeErrors]
      constructor
      · intro h
        split at h
        · next hcode =>
          obtain ⟨codes, rfl, hcodes⟩ := ih.mp h
          exact ⟨code :: codes, rfl, forall_mem_cons.mpr ⟨Option.isSome_iff_exists.mp hcode, hcodes⟩⟩
        · cases h
      · rintro ⟨_ | ⟨first, codes⟩, heq, hcodes⟩
        · cases heq
        · obtain ⟨hfirst, hrest⟩ := forall_mem_cons.mp hcodes
          cases heq
          rw [if_pos (Option.isSome_iff_exists.mpr hfirst)]
          exact ih.mpr ⟨codes, rfl, hrest⟩
    | _ =>
      refine ⟨(by cases ·), ?_⟩
      rintro ⟨_ | ⟨first, codes⟩, heq, -⟩ <;> cases heq

theorem entryErrors_eq_nil_iff :
    entryErrors reader signature v = [] ↔ ∃ codes, WellFormed reader signature v codes := by
  unfold entryErrors
  constructor
  · intro h
    split at h
    · next hvalid =>
      split at h
      · obtain ⟨codes, rfl, hcodes⟩ := codeErrors_eq_nil_iff.mp h
        exact ⟨codes, hvalid, rfl, hcodes⟩
      · cases h
    · cases h
  · rintro ⟨codes, hvalid, rfl, hcodes⟩
    rw [if_pos hvalid]
    exact codeErrors_eq_nil_iff.mpr ⟨codes, rfl, hcodes⟩

theorem WellFormed.entryCodes_eq (h : WellFormed reader signature v codes) : entryCodes v = codes := by
  rw [h.listed, entryCodes, filterMap_map]
  exact filterMap_some

theorem signature_of_mem_codeErrors (h : e ∈ codeErrors signature items) :
    e.signature? = some signature := by
  induction items with
  | nil => cases h
  | cons item items ih =>
    rw [codeErrors.eq_def] at h
    split at h
    · cases h
    · next heq =>
      cases heq
      dsimp only at h
      split at h
      · exact ih h
      · rcases mem_cons.mp h with rfl | h
        · rfl
        · exact ih h
    · rw [mem_singleton.mp h]
      rfl

theorem signature_of_mem_entryErrors (h : e ∈ entryErrors reader signature v) :
    e.signature? = some signature := by
  unfold entryErrors at h
  split at h
  · split at h
    · exact signature_of_mem_codeErrors h
    · rw [mem_singleton.mp h]
      rfl
  · rw [mem_singleton.mp h]
    rfl

end Entries

/-! ## Documents -/

section Documents

variable {reader : DocumentReader} {c : Catalog} {entries : List (String × Json.Value)} {s : String}
  {v : Json.Value} {codes : List String}

/-- A text that is a JSON object, and what the object `stubs` in it has for entries. -/
def IsDocument (reader : DocumentReader) (text : String) (entries : List (String × Json.Value)) : Prop :=
  ∃ members, reader.read text = .ok (.object members) ∧ ("stubs", .object entries) ∈ members

theorem nodup_of_isDocument (hreader : reader.Lawful) {text : String}
    (h : IsDocument reader text entries) : (entries.map (·.1)).Nodup := by
  obtain ⟨members, hread, hstubs⟩ := h
  exact ((hreader text _ hread).inside _ hstubs).names

theorem documentEntries_eq_ok_iff (hreader : reader.Lawful) {text : String} :
    documentEntries reader text = .ok entries ↔ IsDocument reader text entries := by
  constructor
  · intro h
    rw [documentEntries] at h
    split at h
    · cases h
    · next doc hread =>
      split at h
      · next hget =>
        cases h
        cases doc with
        | object members => exact ⟨members, hread, Table.mem_of_lookup hget⟩
        | _ => cases hget
      · cases h
  · rintro ⟨members, hread, hstubs⟩
    have hget : (Json.Value.object members).get? "stubs" = some (.object entries) :=
      (Table.lookup_eq_some_iff (hreader text _ hread).names).mpr hstubs
    rw [documentEntries, hread]
    dsimp only
    rw [hget]

def loaded (reader : DocumentReader) (entries : List (String × Json.Value)) : List (String × EffectSet) :=
  (entries.filter fun entry => (entryErrors reader entry.1 entry.2).isEmpty).map fun entry =>
    (entry.1, .ofCodes (entryCodes entry.2))

theorem foldl_addEntry (c : Catalog) (entries : List (String × Json.Value)) :
    entries.foldl (addEntry reader) c = (loaded reader entries).foldl
      (fun t (k, v) => t.insert k v) c := by
  rw [loaded, foldl_map, foldl_filter]
  rfl

theorem nodup_loaded (h : (entries.map (·.1)).Nodup) : ((loaded reader entries).map (·.1)).Nodup := by
  rw [loaded, map_map]
  exact (List.Sublist.map (fun entry : String × Json.Value => entry.1) filter_sublist).nodup h

theorem mem_loaded_iff {set : EffectSet} :
    (s, set) ∈ loaded reader entries ↔ ∃ v codes, (s, v) ∈ entries ∧ WellFormed reader s v codes ∧
      set = .ofCodes codes := by
  simp only [loaded, mem_map, mem_filter, List.isEmpty_iff, entryErrors_eq_nil_iff]
  constructor
  · rintro ⟨⟨_, v⟩, ⟨hmem, codes, hwell⟩, heq⟩
    cases heq
    exact ⟨v, codes, hmem, hwell, by rw [hwell.entryCodes_eq]⟩
  · rintro ⟨v, codes, hmem, hwell, rfl⟩
    exact ⟨(s, v), ⟨hmem, codes, hwell⟩, by rw [hwell.entryCodes_eq]⟩

theorem get?_of_wellFormed (hnodup : (entries.map (·.1)).Nodup) (hmem : (s, v) ∈ entries)
    (h : WellFormed reader s v codes) :
    (entries.foldl (addEntry reader) c).get? s = some (.ofCodes codes) := by
  rw [foldl_addEntry]
  exact Table.get?_foldl_of_mem c (nodup_loaded hnodup) (mem_loaded_iff.mpr ⟨v, codes, hmem, h, rfl⟩)

theorem get?_of_malformed (h : ∀ v codes, (s, v) ∈ entries → ¬ WellFormed reader s v codes) :
    (entries.foldl (addEntry reader) c).get? s = c.get? s := by
  rw [foldl_addEntry]
  refine Table.get?_foldl_of_notMem s _ c fun hs => ?_
  obtain ⟨⟨_, set⟩, hloaded, rfl⟩ := mem_map.mp hs
  obtain ⟨v, codes, hmem, hwell, -⟩ := mem_loaded_iff.mp hloaded
  exact h v codes hmem hwell

end Documents

/-- A document changes the catalog entry by entry: a well-formed entry sets the effects of its
signature, every other signature keeps what it had, and the signatures that are reported are those
of the malformed entries. A text that is no document changes nothing and is one error. -/
theorem load_entrywise {reader : DocumentReader} (hreader : reader.Lawful) (c : Catalog) (text : String) :
    ((¬ ∃ entries, IsDocument reader text entries) → ∃ e, c.load text reader = (c, [e])) ∧
      ∀ entries, IsDocument reader text entries →
        (∀ s v codes, (s, v) ∈ entries → WellFormed reader s v codes →
          ∃ es, (c.load text reader).1.get? s = some (.known es) ∧
            ∀ effect, effect ∈ es ↔ ∃ code ∈ codes, Effect.ofCode? code = some effect) ∧
        (∀ s, (∀ v codes, (s, v) ∈ entries → ¬ WellFormed reader s v codes) →
          (c.load text reader).1.get? s = c.get? s) ∧
        (∀ e ∈ (c.load text reader).2, ∃ s, e.signature? = some s) ∧
        ∀ s, (∃ e ∈ (c.load text reader).2, e.signature? = some s) ↔
          ∃ v, (s, v) ∈ entries ∧ ∀ codes, ¬ WellFormed reader s v codes := by
  constructor
  · intro hnone
    cases hentries : documentEntries reader text with
    | error e => exact ⟨e, by rw [load, hentries]⟩
    | ok entries => exact absurd ⟨entries, (documentEntries_eq_ok_iff hreader).mp hentries⟩ hnone
  · intro entries hdocument
    have hload : c.load text reader =
        (entries.foldl (addEntry reader) c, entries.flatMap fun e => entryErrors reader e.1 e.2) := by
      rw [load, (documentEntries_eq_ok_iff hreader).mpr hdocument]
    rw [hload]
    dsimp only
    refine ⟨fun s v codes hmem hwell => ?_, fun s => get?_of_malformed, fun e he => ?_, fun s => ⟨?_, ?_⟩⟩
    · refine ⟨_, get?_of_wellFormed (nodup_of_isDocument hreader hdocument) hmem hwell, fun effect => ?_⟩
      rw [Effect.mem_inOrder, mem_filterMap]
    · obtain ⟨⟨s, v⟩, -, hv⟩ := mem_flatMap.mp he
      exact ⟨s, signature_of_mem_entryErrors hv⟩
    · rintro ⟨e, he, hs⟩
      obtain ⟨⟨k, v⟩, hmem, hv⟩ := mem_flatMap.mp he
      obtain rfl : k = s := Option.some.inj ((signature_of_mem_entryErrors hv).symm.trans hs)
      refine ⟨v, hmem, fun codes hwell => ?_⟩
      rw [entryErrors_eq_nil_iff.mpr ⟨codes, hwell⟩] at hv
      cases hv
    · rintro ⟨v, hmem, hmalformed⟩
      obtain ⟨e, he⟩ := exists_mem_of_ne_nil _ (mt entryErrors_eq_nil_iff.mp (not_exists.mpr hmalformed))
      exact ⟨e, mem_flatMap.mpr ⟨_, hmem, he⟩, signature_of_mem_entryErrors he⟩

/-- A document with a well-formed entry and one whose signature is malformed. -/
theorem load_entrywise_both :
    let after := (∅ : Catalog).load "\x7b\"stubs\": \x7b\"N.T::f()\": [\"cw\"], \"T.f\": [\"cw\"]\x7d\x7d"
    (∃ es, after.1.get? "N.T::f()" = some (.known es) ∧
        ∀ effect, effect ∈ es ↔ ∃ code ∈ ["cw"], Effect.ofCode? code = some effect) ∧
      after.1.get? "T.f" = none ∧ ∃ e ∈ after.2, e.signature? = some "T.f" := by
  have hdocument :
      IsDocument .standard "\x7b\"stubs\": \x7b\"N.T::f()\": [\"cw\"], \"T.f\": [\"cw\"]\x7d\x7d"
      [("N.T::f()", .array [.str "cw"]), ("T.f", .array [.str "cw"])] := ⟨_, rfl, .head _⟩
  have hbad (v : Json.Value) (codes : List String) : ¬ WellFormed .standard "T.f" v codes :=
    fun h => absurd h.valid (by decide)
  obtain ⟨hset, hkept, -, hreported⟩ := (load_entrywise DocumentReader.lawful_standard ∅ _).2 _ hdocument
  refine ⟨hset _ _ ["cw"] (.head _) ⟨by decide, rfl, ?_⟩, hkept _ fun v codes _ => hbad v codes, ?_⟩
  · exact forall_mem_singleton.mpr ⟨_, rfl⟩
  · exact (hreported _).mpr ⟨_, .tail _ (.head _), hbad _⟩

end Catalog

end TagLang
