import Mathlib.Data.List.TakeDrop
import TagLang.Proofs.Token.Tag
import TagLang.Proofs.Ty.Read

/-! # Reading the written form of a type

The written form of a type is read as the same type, with one exception. The mark of an option
stands in front and the brackets of an array stand behind, and nothing tells which was put there
first. So an array of options is written like an option of an array, and it is the option of an
array that is read.
-/

namespace TagLang
open List

namespace Text

theorem isAlphanumeric_of_isBlank {c : Char} (h : isBlank c = true) : isAlphanumeric c = false := by
  have hall : ∀ r ∈ blankRanges, ∀ n ∈ List.range' r.1 (r.2 + 1 - r.1),
      isAlphanumeric (Char.ofNat n) = false := by
    decide +kernel
  obtain ⟨r, hr, hc⟩ := any_eq_true.mp h
  simp only [Bool.and_eq_true, decide_eq_true_eq] at hc
  have hmem : c.toNat ∈ List.range' r.1 (r.2 + 1 - r.1) := mem_range'_1.mpr (by omega)
  have hfalse := hall r hr c.toNat hmem
  rwa [Char.ofNat_toNat] at hfalse

theorem trimChars_of_solid {cs : List Char} (h : ∀ c ∈ cs, isBlank c = false) : trimChars cs = cs := by
  have hstart {l : List Char} (hl : ∀ c ∈ l, isBlank c = false) : trimStart l = l := by
    cases l with
    | nil => rfl
    | cons c l => exact trimStart_of_head l (hl c mem_cons_self)
  rw [trimChars, hstart h, hstart fun c hc => h c (mem_reverse.mp hc), reverse_reverse]

end Text

namespace Ty
open Text

variable {name : List Char} {pieces : List (List Char)} {t : Ty} {cs : List Char} {depth : Nat}
  {args : List Ty} {c : Char} {fuel : Nat}

/-! ## Texts that stand for one argument -/

def extendFirst (cs : List Char) : List (List Char) → List (List Char)
  | [] => []
  | piece :: pieces => (cs ++ piece) :: pieces

theorem extendFirst_append (as bs : List Char) (pieces : List (List Char)) :
    extendFirst (as ++ bs) pieces = extendFirst as (extendFirst bs pieces) := by
  cases pieces <;> simp [extendFirst]

/-- Inside `depth` brackets the characters cut nothing and leave the brackets as they are. -/
def InertAt (depth : Nat) (cs : List Char) : Prop :=
  ∀ rest, splitArgs depth (cs ++ rest) = (splitArgs depth rest).map (extendFirst cs)

theorem splitArgs_cons {depth deeper : Nat} (hcomma : ¬ (c = ',' ∧ depth = 0))
    (hdeeper : (if c = '<' then some (depth + 1)
      else if c = '>' then (if depth = 0 then none else some (depth - 1)) else some depth) = some deeper)
    (cs : List Char) : splitArgs depth (c :: cs) = (splitArgs deeper cs).map (extendFirst [c]) := by
  have hne := splitArgs_ne_nil deeper cs
  rw [splitArgs, if_neg hcomma]
  dsimp only
  rw [hdeeper, Option.bind_some]
  rcases hsplit : splitArgs deeper cs with _ | _ | ⟨piece, pieces⟩
  · rfl
  · exact absurd hsplit hne
  · rfl

theorem inertAt_nil (depth : Nat) : InertAt depth [] := by
  intro rest
  rw [nil_append]
  rcases splitArgs depth rest with _ | _ | _ <;> rfl

theorem InertAt.append {as bs : List Char} (has : InertAt depth as) (hbs : InertAt depth bs) :
    InertAt depth (as ++ bs) := by
  intro rest
  rw [append_assoc, has, hbs, Option.map_map]
  congr 1
  funext pieces
  exact (extendFirst_append as bs pieces).symm

theorem inertAt_char (hcomma : ¬ (c = ',' ∧ depth = 0)) (hopen : c ≠ '<') (hclose : c ≠ '>') :
    InertAt depth [c] := by
  intro rest
  rw [singleton_append, splitArgs_cons hcomma (by rw [if_neg hopen, if_neg hclose])]

theorem inertAt_plain (hcomma : ',' ∉ cs) (hopen : '<' ∉ cs) (hclose : '>' ∉ cs) (depth : Nat) :
    InertAt depth cs := by
  induction cs with
  | nil => exact inertAt_nil depth
  | cons c cs ih =>
    simp only [mem_cons, not_or] at hcomma hopen hclose
    have hc : InertAt depth [c] := inertAt_char (fun hc => hcomma.1 hc.1.symm) (Ne.symm hopen.1)
      (Ne.symm hclose.1)
    exact hc.append (ih hcomma.2 hopen.2 hclose.2)

/-- Brackets around a text that is inert inside them make it inert outside. -/
theorem InertAt.bracketed (h : InertAt (depth + 1) cs) : InertAt depth ('<' :: (cs ++ ['>'])) := by
  intro rest
  have hopen (as : List Char) : splitArgs depth ('<' :: as) =
      (splitArgs (depth + 1) as).map (extendFirst ['<']) :=
    splitArgs_cons (by simp) (by simp) as
  have hclose : splitArgs (depth + 1) ('>' :: rest) = (splitArgs depth rest).map (extendFirst ['>']) :=
    splitArgs_cons (by simp) (by simp) rest
  rw [cons_append, hopen, append_assoc, h, singleton_append, hclose, Option.map_map, Option.map_map]
  congr 1
  funext pieces
  cases pieces <;> simp [extendFirst]

theorem inertAt_intercalate (h : ∀ p ∈ pieces, InertAt (depth + 1) p) :
    InertAt (depth + 1) ([','].intercalate pieces) := by
  induction pieces with
  | nil => exact inertAt_nil _
  | cons p pieces ih =>
    obtain ⟨hp, hpieces⟩ := forall_mem_cons.mp h
    cases pieces with
    | nil => simpa using hp
    | cons q pieces =>
      rw [intercalate_cons_cons]
      have hcomma : InertAt (depth + 1) [','] := inertAt_char (by simp) (by decide) (by decide)
      exact (hp.append hcomma).append (ih hpieces)

/-- Outside brackets, commas between inert pieces are where the text is cut. -/
theorem splitArgs_intercalate (hne : pieces ≠ []) (h : ∀ p ∈ pieces, InertAt 0 p) :
    splitArgs 0 ([','].intercalate pieces) = some pieces := by
  induction pieces with
  | nil => exact absurd rfl hne
  | cons p pieces ih =>
    obtain ⟨hp, hpieces⟩ := forall_mem_cons.mp h
    cases pieces with
    | nil =>
      have hlast := hp []
      simpa [splitArgs, extendFirst] using hlast
    | cons q pieces =>
      rw [intercalate_cons_cons, append_assoc, hp, singleton_append, splitArgs, if_pos ⟨rfl, rfl⟩,
        ih (cons_ne_nil q pieces) hpieces]
      simp [extendFirst]

structure Piece (cs : List Char) : Prop where
  ne_nil : cs ≠ []
  solid : ∀ c ∈ cs, isBlank c = false
  inert : ∀ depth, InertAt depth cs

theorem mem_of_isTypeName (h : isTypeName name = true) :
    ∀ c ∈ name, (isAlphanumeric c || c == '_' || c == '.') = true := by
  cases name with
  | nil => exact forall_mem_nil _
  | cons c cs =>
    rw [isTypeName, Bool.and_eq_true] at h
    refine forall_mem_cons.mpr ⟨?_, all_eq_true.mp h.2⟩
    rw [isAlphanumeric]
    grind

theorem notMem_of_isTypeName (h : isTypeName name = true)
    (hc : (isAlphanumeric c || c == '_' || c == '.') = false) : c ∉ name :=
  fun hmem => Bool.false_ne_true (hc.symm.trans (mem_of_isTypeName h c hmem))

theorem piece_name (h : isTypeName name = true) : Piece name where
  ne_nil := by
    rintro rfl
    cases h
  solid c hc := by
    by_contra hblank
    rw [Bool.not_eq_false] at hblank
    have hname := mem_of_isTypeName h c hc
    rw [isAlphanumeric_of_isBlank hblank, Bool.false_or, Bool.or_eq_true, beq_iff_eq, beq_iff_eq] at hname
    obtain rfl | rfl := hname <;> cases hblank
  inert := inertAt_plain (notMem_of_isTypeName h (by decide)) (notMem_of_isTypeName h (by decide))
    (notMem_of_isTypeName h (by decide))

theorem Piece.append_plain {cs ds : List Char} (h : Piece cs) (hsolid : ∀ c ∈ ds, isBlank c = false)
    (hinert : ∀ depth, InertAt depth ds) : Piece (cs ++ ds) where
  ne_nil := append_ne_nil_of_left_ne_nil h.ne_nil ds
  solid := forall_mem_append.mpr ⟨h.solid, hsolid⟩
  inert depth := (h.inert depth).append (hinert depth)

theorem Piece.option (h : Piece cs) : Piece ('?' :: cs) where
  ne_nil := cons_ne_nil _ _
  solid := forall_mem_cons.mpr ⟨by decide, h.solid⟩
  inert depth := (inertAt_char (by simp) (by decide) (by decide)).append (h.inert depth)

theorem Piece.array (h : Piece cs) : Piece (cs ++ ['[', ']']) :=
  h.append_plain (forall_mem_cons.mpr ⟨by decide, forall_mem_singleton.mpr (by decide)⟩)
    (inertAt_plain (by decide) (by decide) (by decide))

def genericChars (name : List Char) (pieces : List (List Char)) : List Char :=
  name ++ '<' :: ([','].intercalate pieces ++ ['>'])

theorem mem_intercalate (h : c ∈ [','].intercalate pieces) : c = ',' ∨ ∃ p ∈ pieces, c ∈ p := by
  induction pieces with
  | nil => simp at h
  | cons p pieces ih =>
    cases pieces with
    | nil => exact .inr ⟨p, mem_cons_self, by simpa using h⟩
    | cons q pieces =>
      simp only [intercalate_cons_cons, mem_append, mem_singleton] at h
      obtain (h | h) | h := h
      · exact .inr ⟨p, mem_cons_self, h⟩
      · exact .inl h
      · obtain h | ⟨r, hr, hc⟩ := ih h
        · exact .inl h
        · exact .inr ⟨r, mem_cons_of_mem p hr, hc⟩

theorem Piece.generic (hname : isTypeName name = true) (h : ∀ p ∈ pieces, Piece p) :
    Piece (genericChars name pieces) := by
  refine (piece_name hname).append_plain ?_ fun depth =>
    (inertAt_intercalate fun p hp => (h p hp).inert _).bracketed
  intro c hc
  simp only [mem_cons, mem_append, not_mem_nil, or_false] at hc
  obtain rfl | hc | rfl := hc
  · decide
  · obtain rfl | ⟨p, hp, hc⟩ := mem_intercalate hc
    · decide
    · exact (h p hp).solid c hc
  · decide

/-! ## Reading each kind of text -/

theorem dropEnd?_append (ending text : List Char) : dropEnd? ending (text ++ ending) = some text := by
  simp [dropEnd?]

theorem dropEnd?_eq_none {c d : Char} (hcd : c ≠ d) (ending text : List Char) :
    dropEnd? (ending ++ [d]) (text ++ [c]) = none := by
  rw [dropEnd?, if_neg]
  rw [isSuffixOf_iff_suffix]
  rintro ⟨before, h⟩
  rw [← append_assoc] at h
  exact hcd (singleton_inj.mp (append_inj' h rfl).2).symm

theorem readChars?_option (h : Piece cs) (fuel : Nat) :
    readChars? (fuel + 1) ('?' :: cs) = (readChars? fuel cs).map .option := by
  rw [readChars?, trimChars_of_solid h.option.solid]
  rfl

section Unmarked

variable {cs : List Char} (hpiece : Piece cs) (hhead : cs.head? ≠ some '?')
include hpiece hhead

theorem readChars?_array (fuel : Nat) :
    readChars? (fuel + 1) (cs ++ ['[', ']']) = (readChars? fuel cs).map .array := by
  rw [readChars?, trimChars_of_solid hpiece.array.solid]
  split
  · next h => simp at h
  · next h =>
    obtain ⟨c, cs, rfl⟩ := exists_cons_of_ne_nil hpiece.ne_nil
    cases h
    exact absurd rfl hhead
  · rw [dropEnd?_append]

theorem readChars?_unmarked {before : List Char} (hcs : cs = before ++ [c]) (hc : c ≠ ']') (fuel : Nat) :
    readChars? (fuel + 1) cs = match cs.span (· ≠ '<') with
      | (name, []) => ofName? name
      | (name, _ :: rest) => (dropEnd? ['>'] rest).bind fun inner => (splitArgs 0 inner).bind fun parts =>
        if parts.any fun p => (trimChars p).isEmpty then none
        else (parts.mapM (readChars? fuel)).bind (ofGeneric? name) := by
  rw [readChars?, trimChars_of_solid hpiece.solid]
  split
  · exact absurd rfl hpiece.ne_nil
  · exact absurd rfl hhead
  · have hend : dropEnd? ['[', ']'] cs = none := hcs ▸ dropEnd?_eq_none hc ['['] before
    rw [hend]
    rfl

end Unmarked

theorem head?_ne_of_isTypeName (h : isTypeName name = true) (rest : List Char) :
    (name ++ rest).head? ≠ some '?' := by
  cases name with
  | nil => cases h
  | cons c name =>
    intro hhead
    cases hhead
    exact notMem_of_isTypeName h (by decide) mem_cons_self

theorem span_name (h : isTypeName name = true) {rest : List Char}
    (hrest : rest.takeWhile (· ≠ '<') = []) : (name ++ rest).span (· ≠ '<') = (name, rest) := by
  have hall : ∀ c ∈ name, decide (c ≠ '<') = true := by
    intro c hc
    rw [decide_eq_true_eq]
    rintro rfl
    exact notMem_of_isTypeName h (by decide) hc
  have hdrop : rest.dropWhile (· ≠ '<') = rest := by
    conv_rhs => rw [← takeWhile_append_dropWhile (p := (· ≠ '<')) (l := rest), hrest, nil_append]
  rw [span_eq_takeWhile_dropWhile, takeWhile_append_of_pos hall, dropWhile_append_of_pos hall,
    hrest, hdrop, append_nil]

theorem readChars?_name (h : isTypeName name = true) {n fuel : Nat} (hfuel : n < fuel) :
    readChars? fuel name = ofName? name := by
  obtain _ | fuel := fuel
  · omega
  have hne := (piece_name h).ne_nil
  have hhead := head?_ne_of_isTypeName h []
  have hspan : (name ++ []).span (· ≠ '<') = (name, []) := span_name h rfl
  rw [append_nil] at hhead hspan
  have hlast : name.getLast hne ≠ ']' := by
    intro hc
    have hmem := getLast_mem hne
    rw [hc] at hmem
    exact notMem_of_isTypeName h (by decide) hmem
  rw [readChars?_unmarked (piece_name h) hhead (dropLast_concat_getLast hne).symm hlast, hspan]

theorem readChars?_generic (hname : isTypeName name = true) (hne : pieces ≠ [])
    (h : ∀ p ∈ pieces, Piece p) (fuel : Nat) :
    readChars? (fuel + 1) (genericChars name pieces) =
      (pieces.mapM (readChars? fuel)).bind (ofGeneric? name) := by
  have hend : genericChars name pieces = (name ++ '<' :: [','].intercalate pieces) ++ ['>'] := by
    simp [genericChars]
  have hspan : (genericChars name pieces).span (· ≠ '<') =
      (name, '<' :: ([','].intercalate pieces ++ ['>'])) :=
    span_name hname rfl
  have hfull : (pieces.any fun p => (trimChars p).isEmpty) = false := by
    rw [any_eq_false]
    intro p hp
    rw [trimChars_of_solid (h p hp).solid, List.isEmpty_iff]
    exact (h p hp).ne_nil
  rw [readChars?_unmarked (Piece.generic hname h) (head?_ne_of_isTypeName hname _) hend
    (by decide), hspan]
  simp only [dropEnd?_append, splitArgs_intercalate hne fun p hp =>
    (h p hp).inert 0, Option.bind_some, hfull, Bool.false_eq_true, if_false]

/-! ## Written forms -/

theorem renderAll_eq_map (ts : List Ty) : renderAll ts = ts.map render := by
  induction ts with
  | nil => rfl
  | cons t ts ih => rw [renderAll, ih, map_cons]

def chars (t : Ty) : List Char := t.render.toList

theorem chars_option (t : Ty) : (option t).chars = '?' :: t.chars := by
  rw [chars, render, String.toList_append]
  rfl

theorem chars_array (t : Ty) : (array t).chars = t.chars ++ ['[', ']'] := by
  rw [chars, render, String.toList_append]
  rfl

theorem chars_result (ok err : Ty) :
    (result ok err).chars = genericChars "Result".toList [ok.chars, err.chars] := by
  simp [chars, render, genericChars]

theorem chars_plain (name : List Char) : (named (String.ofList name) []).chars = name := by
  rw [chars, render, String.toList_ofList]

theorem chars_generic (name : List Char) (h : args ≠ []) :
    (named (String.ofList name) args).chars = genericChars name (args.map chars) := by
  obtain ⟨a, as, rfl⟩ := exists_cons_of_ne_nil h
  have hchars : chars = fun t => t.render.toList := rfl
  simp [hchars, render, genericChars, renderAll_eq_map, String.toList_intercalate, Function.comp_def]

theorem builtin?_chars {name : String} (h : builtin? name = some t) :
    isTypeName t.chars = true ∧ builtin? (String.ofList t.chars) = some t := by
  unfold builtin? at h
  split at h
  all_goals
    cases h
    try decide +kernel

theorem ofName?_chars {name : String} (h : builtin? name = some t) : ofName? t.chars = some t := by
  rw [ofName?, (builtin?_chars h).2]

theorem Nameable.piece (h : t.Nameable) : Piece t.chars := by
  induction h with
  | builtin h => exact piece_name (builtin?_chars h).1
  | plain hname =>
    rw [chars_plain]
    exact piece_name hname
  | option _ ih =>
    rw [chars_option]
    exact ih.option
  | array _ ih =>
    rw [chars_array]
    exact ih.array
  | result _ _ hok herr =>
    rw [chars_result]
    exact Piece.generic (by decide) (by simp [hok, herr])
  | generic hname _ hargs _ ih =>
    rw [chars_generic _ hargs]
    exact Piece.generic hname (forall_mem_map.mpr ih)

mutual

def hasOptionArray : Ty → Bool
  | .option inner => inner.hasOptionArray
  | .result ok err => ok.hasOptionArray || err.hasOptionArray
  | .array (.option _) => true
  | .array element => element.hasOptionArray
  | .named _ args => anyOptionArray args
  | .function params ret => anyOptionArray params || ret.hasOptionArray
  | _ => false

def anyOptionArray : List Ty → Bool
  | [] => false
  | t :: ts => t.hasOptionArray || anyOptionArray ts

end

def arrayUnder : Ty → Ty
  | .option inner => .option inner.arrayUnder
  | t => .array t

mutual

/-- The type that has the same written form and no array of options: the options stand outside the
arrays. -/
def asWritten : Ty → Ty
  | .option inner => .option inner.asWritten
  | .result ok err => .result ok.asWritten err.asWritten
  | .array element => element.asWritten.arrayUnder
  | .named name args => .named name (allAsWritten args)
  | .function params ret => .function (allAsWritten params) ret.asWritten
  | t => t

def allAsWritten : List Ty → List Ty
  | [] => []
  | t :: ts => t.asWritten :: allAsWritten ts

end

theorem anyOptionArray_eq_false_iff {ts : List Ty} :
    anyOptionArray ts = false ↔ ∀ t ∈ ts, t.hasOptionArray = false := by
  induction ts with
  | nil => simp [anyOptionArray]
  | cons t ts ih => simp [anyOptionArray, ih]

theorem allAsWritten_eq_map (ts : List Ty) : allAsWritten ts = ts.map asWritten := by
  induction ts with
  | nil => rfl
  | cons t ts ih => rw [allAsWritten, ih, map_cons]

theorem of_hasOptionArray_array (h : (array t).hasOptionArray = false) :
    (∀ inner, t ≠ .option inner) ∧ t.hasOptionArray = false := by
  cases t with
  | option => cases h
  | _ => exact ⟨nofun, h⟩

theorem hasOptionArray_arrayUnder (t : Ty) : t.arrayUnder.hasOptionArray = t.hasOptionArray := by
  induction t using arrayUnder.induct with
  | case1 inner ih => rwa [arrayUnder, hasOptionArray]
  | case2 t h =>
    rw [arrayUnder, hasOptionArray]
    · exact h
    · exact h

theorem chars_arrayUnder (t : Ty) : t.arrayUnder.chars = t.chars ++ ['[', ']'] := by
  induction t using arrayUnder.induct with
  | case1 inner ih => rw [arrayUnder, chars_option, ih, chars_option, cons_append]
  | case2 t h =>
    rw [arrayUnder, chars_array]
    exact h

theorem Nameable.of_option (h : (Ty.option t).Nameable) : t.Nameable := by
  cases h with
  | builtin h =>
    unfold builtin? at h
    split at h <;> cases h
  | option h => exact h

theorem Nameable.arrayUnder (h : t.Nameable) : t.arrayUnder.Nameable := by
  induction t using arrayUnder.induct with
  | case1 inner ih => exact .option (ih h.of_option)
  | case2 t hoption =>
    rw [Ty.arrayUnder]
    · exact .array h
    · exact hoption

theorem asWritten_builtin {name : String} (h : builtin? name = some t) :
    t.asWritten = t ∧ t.hasOptionArray = false := by
  unfold builtin? at h
  split at h
  all_goals
    cases h
    try exact ⟨rfl, rfl⟩

theorem Nameable.asWritten (h : t.Nameable) : t.asWritten.Nameable := by
  induction h with
  | builtin h =>
    rw [(asWritten_builtin h).1]
    exact .builtin h
  | plain hname hother => exact .plain hname hother
  | option _ ih => exact .option ih
  | array _ ih => exact ih.arrayUnder
  | result _ _ hok herr => exact .result hok herr
  | generic hname hother hargs _ ih =>
    rw [Ty.asWritten, allAsWritten_eq_map]
    exact .generic hname hother (by simpa using hargs) (forall_mem_map.mpr ih)

theorem Nameable.hasOptionArray_asWritten (h : t.Nameable) : t.asWritten.hasOptionArray = false := by
  induction h with
  | builtin h =>
    rw [(asWritten_builtin h).1]
    exact (asWritten_builtin h).2
  | plain => rfl
  | option _ ih => exact ih
  | array _ ih => rwa [Ty.asWritten, hasOptionArray_arrayUnder]
  | result _ _ hok herr => rw [Ty.asWritten, hasOptionArray, hok, herr, Bool.false_or]
  | generic _ _ _ _ ih =>
    rw [Ty.asWritten, allAsWritten_eq_map, hasOptionArray, anyOptionArray_eq_false_iff]
    exact forall_mem_map.mpr ih

theorem Nameable.chars_asWritten (h : t.Nameable) : t.asWritten.chars = t.chars := by
  induction h with
  | builtin h => rw [(asWritten_builtin h).1]
  | plain => rfl
  | option _ ih => rw [Ty.asWritten, chars_option, ih, chars_option]
  | array _ ih => rw [Ty.asWritten, chars_arrayUnder, ih, chars_array]
  | result _ _ hok herr => rw [Ty.asWritten, chars_result, hok, herr, chars_result]
  | generic _ _ hargs _ ih =>
    rw [Ty.asWritten, allAsWritten_eq_map, chars_generic _ (by simpa using hargs), map_map,
      chars_generic _ hargs]
    congr 1
    exact map_congr_left ih

theorem Nameable.asWritten_eq_self_iff (h : t.Nameable) : t.asWritten = t ↔ t.hasOptionArray = false := by
  refine ⟨fun heq => heq ▸ h.hasOptionArray_asWritten, fun hplain => ?_⟩
  induction h with
  | builtin h => exact (asWritten_builtin h).1
  | plain => rfl
  | option _ ih => rw [Ty.asWritten, ih hplain]
  | array _ ih =>
    obtain ⟨hoption, hplain⟩ := of_hasOptionArray_array hplain
    rw [Ty.asWritten, ih hplain, Ty.arrayUnder]
    exact hoption
  | result _ _ hok herr =>
    rw [hasOptionArray, Bool.or_eq_false_iff] at hplain
    rw [Ty.asWritten, hok hplain.1, herr hplain.2]
  | generic _ _ _ _ ih =>
    rw [hasOptionArray, anyOptionArray_eq_false_iff] at hplain
    rw [Ty.asWritten, allAsWritten_eq_map, map_congr_left fun a ha => ih a ha (hplain a ha), map_id']

/-! ## The written form is read back -/

theorem Nameable.head?_chars (h : t.Nameable) (hplain : t.hasOptionArray = false)
    (hoption : ∀ inner, t ≠ .option inner) : t.chars.head? ≠ some '?' := by
  induction h with
  | builtin h => simpa using head?_ne_of_isTypeName (builtin?_chars h).1 []
  | plain hname =>
    rw [chars_plain]
    simpa using head?_ne_of_isTypeName hname []
  | option => exact absurd rfl (hoption _)
  | array h ih =>
    obtain ⟨hoption, hplain⟩ := of_hasOptionArray_array hplain
    obtain ⟨c, cs, hcs⟩ := exists_cons_of_ne_nil h.piece.ne_nil
    have hhead := ih hplain hoption
    rw [hcs] at hhead
    rwa [chars_array, hcs]
  | result =>
    rw [chars_result]
    exact head?_ne_of_isTypeName (by decide) _
  | generic hname _ hargs =>
    rw [chars_generic _ hargs]
    exact head?_ne_of_isTypeName hname _

theorem length_lt_genericChars (name : List Char) {p : List Char} (h : p ∈ pieces) :
    p.length < (genericChars name pieces).length := by
  have hle : p.length ≤ ([','].intercalate pieces).length := by
    induction pieces with
    | nil => cases h
    | cons q pieces ih =>
      cases pieces with
      | nil =>
        obtain rfl := mem_singleton.mp h
        simp
      | cons r pieces =>
        rw [intercalate_cons_cons, length_append, length_append]
        obtain rfl | h := mem_cons.mp h
        · omega
        · have htail := ih h
          omega
  simp only [genericChars, length_append, length_cons]
  omega

theorem mapM_readChars? (h : ∀ a ∈ args, readChars? fuel a.chars = some a) :
    (args.map chars).mapM (readChars? fuel) = some args := by
  induction args with
  | nil => rfl
  | cons a args ih =>
    obtain ⟨ha, hargs⟩ := forall_mem_cons.mp h
    rw [map_cons, mapM_cons, ha, ih hargs]
    rfl

theorem readChars?_args (hname : isTypeName name = true) (hne : args ≠ []) (h : ∀ a ∈ args, a.Nameable)
    (hread : ∀ a ∈ args, ∀ {fuel}, a.chars.length < fuel → readChars? fuel a.chars = some a)
    (hfuel : (genericChars name (args.map chars)).length < fuel) :
    readChars? fuel (genericChars name (args.map chars)) = ofGeneric? name args := by
  obtain _ | fuel := fuel
  · omega
  have hshort (a : Ty) (ha : a ∈ args) : a.chars.length < fuel :=
    Nat.lt_of_lt_of_le (length_lt_genericChars name (mem_map_of_mem ha)) (Nat.le_of_lt_succ hfuel)
  rw [readChars?_generic hname (by simpa using hne) (forall_mem_map.mpr fun a ha => (h a ha).piece),
    mapM_readChars? fun a ha => hread a ha (hshort a ha), Option.bind_some]

theorem Nameable.readChars?_chars (h : t.Nameable) (hplain : t.hasOptionArray = false)
    (hfuel : t.chars.length < fuel) : readChars? fuel t.chars = some t := by
  induction h generalizing fuel with
  | builtin h => rw [readChars?_name (builtin?_chars h).1 hfuel, ofName?_chars h]
  | plain hname hother =>
    rw [chars_plain, readChars?_name hname hfuel, ofName?, hother]
    exact if_pos hname
  | option h ih =>
    obtain _ | fuel := fuel
    · omega
    rw [chars_option, length_cons] at hfuel
    rw [chars_option, readChars?_option h.piece, ih hplain (by omega), Option.map_some]
  | array h ih =>
    obtain _ | fuel := fuel
    · omega
    obtain ⟨hoption, hplain⟩ := of_hasOptionArray_array hplain
    rw [chars_array, length_append, length_cons] at hfuel
    rw [chars_array, readChars?_array h.piece (h.head?_chars hplain hoption), ih hplain (by omega),
      Option.map_some]
  | @result ok err hok herr ihok iherr =>
    rw [hasOptionArray, Bool.or_eq_false_iff] at hplain
    rw [chars_result] at hfuel ⊢
    have hread : ∀ a ∈ [ok, err], ∀ {fuel}, a.chars.length < fuel → readChars? fuel a.chars = some a := by
      simpa using ⟨ihok hplain.1, iherr hplain.2⟩
    exact readChars?_args (by decide) (cons_ne_nil _ _) (by simp [hok, herr]) hread hfuel
  | generic hname hother hargs h ih =>
    rw [hasOptionArray, anyOptionArray_eq_false_iff] at hplain
    rw [chars_generic _ hargs] at hfuel ⊢
    rw [readChars?_args hname hargs h (fun a ha => ih a ha (hplain a ha)) hfuel,
      ofGeneric?_of_notMem hother, if_pos hname]

theorem Nameable.read?_render_eq (h : t.Nameable) : read? t.render = some t.asWritten := by
  have hread := h.asWritten.readChars?_chars h.hasOptionArray_asWritten (Nat.lt_succ_self _)
  rwa [h.chars_asWritten] at hread

end Ty

/-- The written form of a type that was read is read again, as the type itself exactly if no array
in the type has options for elements. An array of options comes back as an option of an array, and
types with the same written form differ in nothing else. -/
theorem read?_render {text : String} {t : Ty} (h : Ty.read? text = some t) :
    Ty.read? t.render = some t.asWritten ∧ (Ty.read? t.render = some t ↔ t.hasOptionArray = false) ∧
      ∀ {text' : String} {u : Ty}, Ty.read? text' = some u →
        (t.render = u.render ↔ t.asWritten = u.asWritten) := by
  have ht := Ty.nameable_read? h
  refine ⟨ht.read?_render_eq, ?_, fun {text' u} h' => ⟨fun heq => ?_, fun heq => ?_⟩⟩
  · rw [ht.read?_render_eq, Option.some_inj]
    exact ht.asWritten_eq_self_iff
  · have hu := (Ty.nameable_read? h').read?_render_eq
    rw [← heq, ht.read?_render_eq] at hu
    exact Option.some_inj.mp hu
  · have hchars := congrArg Ty.chars heq
    rw [ht.chars_asWritten, (Ty.nameable_read? h').chars_asWritten] at hchars
    exact String.toList_inj.mp hchars

theorem read?_render_map :
    Ty.read? "Map<str, List<?i32>>" = some (.named "Map" [.str, .array (.option .i32)]) ∧
    Ty.read? (Ty.named "Map" [.str, .array (.option .i32)]).render =
      some (.named "Map" [.str, .option (.array .i32)]) :=
  have h : Ty.read? "Map<str, List<?i32>>" = some (.named "Map" [.str, .array (.option .i32)]) := by
    decide +kernel
  ⟨h, (read?_render h).1⟩

/-- Lists of optional numbers and optional lists of numbers are written alike. -/
theorem render_optionArray : Ty.read? "List<?i32>" = some (.array (.option .i32)) ∧
    (Ty.array (.option .i32)).render = "?i32[]" ∧ Ty.read? "?i32[]" = some (.option (.array .i32)) := by
  decide +kernel

end TagLang
