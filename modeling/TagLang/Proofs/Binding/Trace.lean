import Mathlib.Data.List.Forall2
import TagLang.Proofs.Binding.Name
import TagLang.Proofs.Table

/-! # Traces of names

What binding does with names, as a list of events in the order in which they happen: regions are
entered and left, names are declared, and names are used. A trace says which regions are open at
each of its places, and so what a name means there: what the innermost open region that declares it
says, by its first declaration of the name.
-/

namespace TagLang.Binding
open List

inductive Event
  | enter
  | leave
  /-- A declaration, with the symbol that it makes. -/
  | declare (name : String) (id : SymbolId)
  /-- A use of a name that means a symbol. -/
  | refer (name : String) (id : SymbolId)
  /-- A use of a name that no open region declares. -/
  | missing (name : String)
  /-- A symbol that is made to stand for a name without a meaning. -/
  | undefined (name : String) (id : SymbolId) (span : Span)

abbrev Trace := List Event

abbrev Region := List (String × SymbolId)

def region (inside : Trace) : Trace := .enter :: inside ++ [.leave]

def Event.apply : List Region → Event → List Region
  | regions, .enter => [] :: regions
  | _ :: outer, .leave => outer
  | current :: outer, .declare name id => (current ++ [(name, id)]) :: outer
  | regions, _ => regions

/-- The regions that are open after a trace. The outermost one is never left. -/
def openRegions (tr : Trace) : List Region := tr.foldl Event.apply [[]]

theorem openRegions_append (tr new : Trace) :
    openRegions (tr ++ new) = new.foldl Event.apply (openRegions tr) :=
  foldl_append

def resolve (regions : List Region) (name : String) : Option SymbolId := regions.findSome? (·.lookup name)

def Event.Resolved (regions : List Region) : Event → Prop
  | .refer name id => resolve regions name = some id
  | .missing name => resolve regions name = none
  | _ => True

/-- Every use of a name, at its place in the trace, says what the name means there. -/
def Lexical (tr : Trace) : Prop :=
  ∀ before e after, tr = before ++ e :: after → e.Resolved (openRegions before)

/-- Every region of the trace that is entered is left. -/
inductive Balanced : Trace → Prop
  | nil : Balanced []
  | cons {e : Event} {tr : Trace} (henter : e ≠ .enter) (hleave : e ≠ .leave) (h : Balanced tr) :
    Balanced (e :: tr)
  | nest {inside tr : Trace} (hinside : Balanced inside) (h : Balanced tr) :
    Balanced (region inside ++ tr)

/-- No symbol that is declared in a region is used outside of it. -/
def Contained (tr : Trace) : Prop :=
  ∀ before inside after, tr = before ++ (region inside ++ after) → Balanced inside →
    ∀ name id, .declare name id ∈ inside → ∀ other, .refer other id ∉ before ++ after

def Event.created? : Event → Option SymbolId
  | .declare _ id => some id
  | .undefined _ id _ => some id
  | _ => none

def created (tr : Trace) : List SymbolId := tr.filterMap Event.created?

/-- A symbol is in the table with the name and kind that it is made with, and a name without a
meaning is an error. -/
def Event.Recorded (t : SymbolTable) (errors : List BindError) : Event → Prop
  | .declare name id => ∃ kind span, kind ≠ .error ∧ t.get? id = some ⟨name, kind, span⟩
  | .undefined name id span =>
    t.get? id = some ⟨name, .error, span⟩ ∧ ∃ suggestion, ⟨.undefinedName name suggestion, span⟩ ∈ errors
  | _ => True

theorem Event.Recorded.mono {t t' : SymbolTable} {errors errors' : List BindError} (ht : Extends t t')
    (herrors : errors ⊆ errors') {e : Event} (h : e.Recorded t errors) : e.Recorded t' errors' := by
  cases e with
  | declare name id =>
    obtain ⟨kind, span, hkind, hget⟩ := h
    exact ⟨kind, span, hkind, ht id _ hget⟩
  | undefined name id span =>
    obtain ⟨hget, suggestion, hmem⟩ := h
    exact ⟨ht id _ hget, suggestion, herrors hmem⟩
  | enter | leave | refer | missing => trivial

section Traces

variable {tr new : Trace} {name : String} {id : SymbolId}

theorem Balanced.append (h : Balanced tr) (hnew : Balanced new) : Balanced (tr ++ new) := by
  induction h with
  | nil => exact hnew
  | cons henter hleave _ ih => exact .cons henter hleave ih
  | nest hinside _ _ ih =>
    rw [append_assoc]
    exact .nest hinside ih

theorem foldl_region (inside : Trace) (regions : List Region) :
    (region inside).foldl Event.apply regions =
      Event.apply (inside.foldl Event.apply ([] :: regions)) .leave := by
  rw [region, foldl_append]
  rfl

/-- A balanced trace leaves the regions around the current one as they are. -/
theorem Balanced.exists_foldl (h : Balanced tr) (current : Region) (outer : List Region) :
    ∃ current', tr.foldl Event.apply (current :: outer) = current' :: outer := by
  induction h generalizing current outer with
  | nil => exact ⟨current, rfl⟩
  | @cons e tr henter hleave _ ih =>
    cases e with
    | enter => contradiction
    | leave => contradiction
    | declare name id => exact ih (current ++ [(name, id)]) outer
    | refer | missing | undefined => exact ih current outer
  | @nest inside tr _ _ ihinside ih =>
    obtain ⟨inner, hinner⟩ := ihinside [] (current :: outer)
    obtain ⟨current', hcurrent⟩ := ih current outer
    refine ⟨current', ?_⟩
    rw [foldl_append, foldl_region, hinner]
    exact hcurrent

theorem Balanced.foldl_region (h : Balanced tr) (regions : List Region) :
    (region tr).foldl Event.apply regions = regions := by
  obtain ⟨inner, hinner⟩ := h.exists_foldl [] regions
  rw [TagLang.Binding.foldl_region, hinner]
  rfl

theorem mem_foldl (regions : List Region) {r : Region} (hr : r ∈ tr.foldl Event.apply regions)
    (hid : (name, id) ∈ r) : (∃ r ∈ regions, (name, id) ∈ r) ∨ .declare name id ∈ tr := by
  induction tr generalizing regions with
  | nil => exact .inl ⟨r, hr, hid⟩
  | cons e tr ih =>
    obtain ⟨r', hr', hid'⟩ | hlater := ih (e.apply regions) hr
    · -- one event adds at most its own declaration
      unfold Event.apply at hr'
      split at hr'
      · obtain rfl | hr' := mem_cons.mp hr'
        · cases hid'
        · exact .inl ⟨r', hr', hid'⟩
      · exact .inl ⟨r', mem_cons_of_mem _ hr', hid'⟩
      · obtain rfl | hr' := mem_cons.mp hr'
        · obtain hid' | hnew := mem_append.mp hid'
          · exact .inl ⟨_, mem_cons_self, hid'⟩
          · cases mem_singleton.mp hnew
            exact .inr mem_cons_self
        · exact .inl ⟨r', mem_cons_of_mem _ hr', hid'⟩
      · exact .inl ⟨r', hr', hid'⟩
    · exact .inr (mem_cons_of_mem e hlater)

theorem exists_mem_of_resolve {regions : List Region} (h : resolve regions name = some id) :
    ∃ r ∈ regions, (name, id) ∈ r := by
  obtain ⟨r, hr, hlookup⟩ := exists_of_findSome?_eq_some h
  exact ⟨r, hr, Table.mem_of_lookup hlookup⟩

theorem mem_created (h : .declare name id ∈ tr) : id ∈ created tr :=
  mem_filterMap.mpr ⟨_, h, rfl⟩

theorem created_append (tr new : Trace) : created (tr ++ new) = created tr ++ created new :=
  filterMap_append

/-- A symbol is used only where a region that declares it is open, since it is made only once. -/
theorem Lexical.contained (hlexical : Lexical tr) (hcreated : (created tr).Nodup) : Contained tr := by
  intro before inside after htr hinside name id hid other huse
  rw [htr, created_append, created_append, nodup_append] at hcreated
  obtain ⟨-, hrest, hbefore⟩ := hcreated
  obtain ⟨-, -, hafter⟩ := nodup_append.mp hrest
  have hin : id ∈ created (region inside) :=
    mem_created (mem_cons_of_mem _ (mem_append_left _ hid))
  obtain huse | huse := mem_append.mp huse
  · obtain ⟨first, last, rfl⟩ := append_of_mem huse
    have hresolve := hlexical first (.refer other id) (last ++ (region inside ++ after)) (by
      rw [htr, append_assoc, cons_append])
    obtain ⟨r, hr, hmem⟩ := exists_mem_of_resolve hresolve
    obtain ⟨r', hr', hmem'⟩ | hdeclared := mem_foldl [[]] hr hmem
    · cases mem_singleton.mp hr'
      cases hmem'
    · exact hbefore id (mem_created (mem_append_left _ hdeclared)) id (mem_append_left _ hin) rfl
  · obtain ⟨first, last, rfl⟩ := append_of_mem huse
    have hresolve := hlexical (before ++ (region inside ++ first)) (.refer other id) last (by
      rw [htr]
      simp only [append_assoc])
    obtain ⟨r, hr, hmem⟩ := exists_mem_of_resolve hresolve
    -- the region is closed: what is open comes from before it or from after it
    rw [openRegions_append, foldl_append, hinside.foldl_region] at hr
    obtain ⟨r', hr', hmem'⟩ | hdeclared := mem_foldl _ hr hmem
    · obtain ⟨r'', hr'', hmem''⟩ | hdeclared := mem_foldl [[]] hr' hmem'
      · cases mem_singleton.mp hr''
        cases hmem''
      · exact hbefore id (mem_created hdeclared) id (mem_append_left _ hin) rfl
    · exact hafter id hin id (mem_created (mem_append_left _ hdeclared)) rfl

theorem lexical_nil : Lexical [] := by
  intro before e after h
  simp at h

theorem Lexical.concat (h : Lexical tr) {e : Event} (he : e.Resolved (openRegions tr)) :
    Lexical (tr ++ [e]) := by
  intro before e' after heq
  obtain rfl | ⟨after, last, rfl⟩ := eq_nil_or_concat after
  · obtain ⟨rfl, hlast⟩ := append_inj' heq rfl
    cases hlast
    exact he
  · have hsplit : tr ++ [e] = (before ++ e' :: after) ++ [last] := by
      rw [heq]
      simp
    exact h before e' after (append_inj' hsplit rfl).1

end Traces

/-! ## The trace of a state -/

theorem range_add (t : SymbolTable) (sym : Symbol) :
    List.range (t.add sym).size = List.range t.size ++ [t.size] := by
  have hsize : (t.add sym).size = t.size + 1 := Array.size_push _
  rw [hsize, range_succ]

def Shows (frame : Frame) (r : Region) : Prop := ∀ name, frame.lookup name = r.lookup name

/-- A frame that takes a name only if it is free gives each name its first declaration. -/
theorem shows_declare {scopes : Scopes} {r : Region} {outer : List Region} (name : String)
    (id : SymbolId) (h : Forall₂ Shows (scopes.inner :: scopes.outer) (r :: outer)) :
    match scopes.declare name id with
    | .ok scopes' => Forall₂ Shows (scopes'.inner :: scopes'.outer) ((r ++ [(name, id)]) :: outer)
    | .error _ => Forall₂ Shows (scopes.inner :: scopes.outer) ((r ++ [(name, id)]) :: outer) := by
  obtain ⟨hshows, houter⟩ := forall₂_cons.mp h
  have hname := hshows name
  unfold Scopes.declare Scopes.lookupLocal
  cases hlookup : scopes.inner.lookup name with
  | some previous =>
    refine .cons (fun other => ?_) houter
    rw [lookup_append, ← hshows other]
    by_cases hother : other = name
    · rw [hother, hlookup]
      rfl
    · rw [Table.lookup_cons_ite, if_neg hother, lookup_nil, Option.or_none]
  | none =>
    refine .cons (fun other => ?_) houter
    rw [lookup_append, ← hshows other, Table.lookup_cons_ite, Table.lookup_cons_ite]
    by_cases hother : other = name
    · rw [hother, hlookup, if_pos rfl, if_pos rfl, Option.none_or]
    · rw [if_neg hother, if_neg hother, lookup_nil, Option.or_none]

/-- A trace is what has happened to the names of a state. -/
structure Follows (s : State) (tr : Trace) : Prop where
  fault : s.fault = none
  scopes : Forall₂ Shows (s.scopes.inner :: s.scopes.outer) (openRegions tr)
  created : created tr = List.range s.symbols.size
  recorded : ∀ e ∈ tr, e.Recorded s.symbols s.errors
  lexical : Lexical tr

theorem follows_start : Follows {} [] where
  fault := rfl
  scopes := .cons (fun _ => rfl) .nil
  created := rfl
  recorded := forall_mem_nil _
  lexical := lexical_nil

namespace Follows

variable {s : State} {tr : Trace} {s' : State}

theorem lookup_eq (h : Follows s tr) (name : String) :
    s.scopes.lookup name = resolve (openRegions tr) name := by
  have hshows {frames : List Frame} {regions : List Region} (h : Forall₂ Shows frames regions) :
      frames.findSome? (·.lookup name) = resolve regions name := by
    induction h with
    | nil => rfl
    | cons hfirst _ ih => rw [resolve, findSome?_cons, findSome?_cons, hfirst name, ih, resolve]
  exact hshows h.scopes

theorem step (h : Follows s tr) {e : Event} (hfault : s'.fault = s.fault)
    (hscopes : Forall₂ Shows (s'.scopes.inner :: s'.scopes.outer) (e.apply (openRegions tr)))
    (hsymbols : Extends s.symbols s'.symbols) (herrors : s.errors ⊆ s'.errors)
    (hcreated : List.range s'.symbols.size = List.range s.symbols.size ++ e.created?.toList)
    (hrecorded : e.Recorded s'.symbols s'.errors) (hresolved : e.Resolved (openRegions tr)) :
    Follows s' (tr ++ [e]) where
  fault := hfault.trans h.fault
  scopes := by
    rw [openRegions_append]
    exact hscopes
  created := by
    rw [created_append, h.created, hcreated, TagLang.Binding.created, filterMap_eq_flatMap_toList,
      flatMap_singleton]
  recorded := by
    refine forall_mem_append.mpr ⟨fun e' he' => (h.recorded e' he').mono hsymbols herrors, ?_⟩
    exact forall_mem_singleton.mpr hrecorded
  lexical := h.lexical.concat hresolved

theorem of_eq (h : Follows s tr) (hfault : s'.fault = s.fault) (hscopes : s'.scopes = s.scopes)
    (hsymbols : s'.symbols = s.symbols) (herrors : s.errors ⊆ s'.errors) : Follows s' tr where
  fault := hfault.trans h.fault
  scopes := hscopes ▸ h.scopes
  created := hsymbols ▸ h.created
  recorded := fun e he => Event.Recorded.mono (hsymbols ▸ .refl _) herrors (h.recorded e he)
  lexical := h.lexical

theorem refer (h : Follows s tr) {name : String} {id : SymbolId}
    (hid : s.scopes.lookup name = some id) : Follows s (tr ++ [.refer name id]) := by
  have hregions : Event.apply (openRegions tr) (.refer name id) = openRegions tr := by simp [Event.apply]
  refine h.step rfl (hregions ▸ h.scopes) (.refl _) (List.Subset.refl _) (append_nil _).symm trivial ?_
  exact (h.lookup_eq name).symm.trans hid

theorem missing (h : Follows s tr) {name : String} (hname : s.scopes.lookup name = none) :
    Follows s (tr ++ [.missing name]) := by
  have hregions : Event.apply (openRegions tr) (.missing name) = openRegions tr := by simp [Event.apply]
  refine h.step rfl (hregions ▸ h.scopes) (.refl _) (List.Subset.refl _) (append_nil _).symm trivial ?_
  exact (h.lookup_eq name).symm.trans hname

theorem enter (h : Follows s tr) : Follows { s with scopes := s.scopes.enter } (tr ++ [.enter]) := by
  refine h.step rfl ?_ (.refl _) (List.Subset.refl _) (append_nil _).symm trivial trivial
  exact .cons (fun _ => rfl) h.scopes

theorem leave (h : Follows s tr) {inside : Trace} (hinside : Balanced inside)
    (h' : Follows s' ((tr ++ [.enter]) ++ inside)) :
    Follows ((leave s.scopes.enter.current).run s').2 (tr ++ region inside) := by
  have hregions : openRegions (tr ++ .enter :: inside) =
      inside.foldl Event.apply ([] :: openRegions tr) := by
    rw [openRegions_append]
    rfl
  obtain ⟨inner, hinner⟩ := hinside.exists_foldl [] (openRegions tr)
  rw [append_assoc] at h'
  have hscopes := h'.scopes
  rw [singleton_append, hregions, hinner] at hscopes
  obtain ⟨hshows, houter⟩ := forall₂_cons.mp hscopes
  -- the scope is the current one, since as many scopes are around it as when it was entered
  have hlength : s'.scopes.outer.length = s.scopes.outer.length + 1 :=
    houter.length_eq.trans h.scopes.length_eq.symm
  have hcurrent : s.scopes.enter.current = s'.scopes.current := hlength.symm
  obtain ⟨frame, outer, hframes⟩ : ∃ frame outer, s'.scopes.outer = frame :: outer := by
    cases hcases : s'.scopes.outer with
    | nil =>
      rw [hcases] at hlength
      cases hlength
    | cons frame outer => exact ⟨frame, outer, rfl⟩
  have hexit : s'.scopes.exit s.scopes.enter.current = .ok ⟨frame, outer⟩ := by
    rw [Scopes.exit, hframes]
    exact if_pos hcurrent
  rw [Binding.leave, run_modify, hexit]
  have hleave : region inside = .enter :: inside ++ [.leave] := rfl
  rw [hleave, ← append_assoc]
  refine h'.step rfl ?_ (.refl _) (List.Subset.refl _) (append_nil _).symm trivial trivial
  rw [singleton_append, hregions, hinner]
  rw [hframes] at houter
  exact houter

theorem declare (h : Follows s tr) (name : String) {kind : SymbolKind} (span : Span)
    (hkind : kind ≠ .error) :
    Follows ((declare name kind span).run s).2 (tr ++ [.declare name s.symbols.size]) := by
  have hscopes := h.scopes
  cases hregions : openRegions tr with
  | nil =>
    rw [hregions] at hscopes
    cases hscopes
  | cons r outer =>
    rw [hregions] at hscopes
    have hdeclare := shows_declare name s.symbols.size hscopes
    have happly : Event.apply (openRegions tr) (.declare name s.symbols.size) =
        (r ++ [(name, s.symbols.size)]) :: outer := by rw [hregions]; rfl
    have hget := get?_add_size s.symbols ⟨name, kind, span⟩
    rw [run_declare]
    dsimp only
    cases hresult : s.scopes.declare name s.symbols.size with
    | ok scopes =>
      rw [hresult] at hdeclare
      refine h.step rfl (happly ▸ hdeclare) (extends_add _ _) (List.Subset.refl _)
        (range_add _ _) ?_ trivial
      exact ⟨kind, span, hkind, hget⟩
    | error previous =>
      rw [hresult] at hdeclare
      refine h.step rfl (happly ▸ hdeclare) (extends_add _ _) (subset_cons_self _ _)
        (range_add _ _) ?_ trivial
      exact ⟨kind, span, hkind, hget⟩

end Follows

/-! ## Declarations and uses -/

abbrev Declares (name : String) (id : SymbolId) (tr : Trace) : Prop := tr = [.declare name id]

def used (name : String) : Option SymbolId → Event
  | some id => .refer name id
  | none => .missing name

end TagLang.Binding
