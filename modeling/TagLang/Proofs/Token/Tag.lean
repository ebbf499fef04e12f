import TagLang.Token.Reading
import Mathlib.Data.List.TakeWhile

/-! # Tags and their attribute blocks

Where the parts of a tag stand in the text, and what becomes of an attribute block when its first
field, the ID of a structure, is written differently.
-/

namespace TagLang
open List

variable {id : String}

namespace Text

/-! ## Fields -/

theorem trimStart_blanks_append {blanks : List Char} (h : ∀ b ∈ blanks, isBlank b = true)
    (cs : List Char) : trimStart (blanks ++ cs) = trimStart cs := dropWhile_append_of_pos h

theorem length_trimStart_le (cs : List Char) : (trimStart cs).length ≤ cs.length :=
  length_dropWhile_le isBlank cs

theorem length_trimChars_le (cs : List Char) : (trimChars cs).length ≤ (trimStart cs).length := by
  have h := length_trimStart_le (trimStart cs).reverse
  rw [length_reverse] at h
  rwa [trimChars, length_reverse]

structure Tight (cs : List Char) : Prop where
  head {c : Char} {rest : List Char} : cs = c :: rest → isBlank c = false
  last {c : Char} {init : List Char} : cs = init ++ [c] → isBlank c = false

theorem trimStart_of_head {c : Char} (cs : List Char) (h : isBlank c = false) :
    trimStart (c :: cs) = c :: cs := by
  rw [trimStart, dropWhile_cons_of_neg (by simp [h])]

theorem tight_of_trim {cs : List Char} (h : trimChars cs = cs) : Tight cs where
  head {c rest} heq := by
    by_contra hc
    rw [Bool.not_eq_false] at hc
    have hshort : (trimStart cs).length ≤ rest.length := by
      rw [heq, trimStart, dropWhile_cons_of_pos hc]
      exact length_trimStart_le rest
    have hlength := length_trimChars_le cs
    have hsame := congrArg List.length (h.trans heq)
    rw [length_cons] at hsame
    omega
  last {c init} heq := by
    by_contra hc
    rw [Bool.not_eq_false] at hc
    have hstart : trimStart cs = cs := by
      have hsuffix : trimStart cs <:+ cs := dropWhile_suffix isBlank
      apply hsuffix.eq_of_length
      have hlower := length_trimChars_le cs
      rw [h] at hlower
      exact Nat.le_antisymm hsuffix.length_le hlower
    have hshort : (trimChars cs).length ≤ init.length := by
      rw [trimChars, hstart, heq, reverse_concat, length_reverse, trimStart, dropWhile_cons_of_pos hc]
      exact Nat.le_trans (length_trimStart_le _) (Nat.le_of_eq length_reverse)
    have hsame := congrArg List.length (h.trans heq)
    rw [length_append, length_singleton] at hsame
    omega

theorem Tight.trimChars_eq {cs before behind : List Char} (h : Tight cs) (hne : cs ≠ [])
    (hbefore : ∀ b ∈ before, isBlank b = true) (hbehind : ∀ b ∈ behind, isBlank b = true) :
    trimChars (before ++ (cs ++ behind)) = cs := by
  have hstart : trimStart (before ++ (cs ++ behind)) = cs ++ behind := by
    rw [trimStart_blanks_append hbefore]
    cases cs with
    | nil => exact absurd rfl hne
    | cons c rest => exact trimStart_of_head _ (h.head rfl)
  have hend : trimStart (behind.reverse ++ cs.reverse) = cs.reverse := by
    rw [trimStart_blanks_append fun b hb => hbehind b (mem_reverse.mp hb)]
    rw [← dropLast_concat_getLast hne, reverse_concat]
    exact trimStart_of_head _ (h.last (dropLast_concat_getLast hne).symm)
  rw [trimChars, hstart, reverse_append, hend, reverse_reverse]

theorem trimChars_decompose (cs : List Char) : ∃ before behind, cs = before ++ (trimChars cs ++ behind) ∧
    (∀ b ∈ before, isBlank b = true) ∧ ∀ b ∈ behind, isBlank b = true := by
  have hstart : cs = cs.takeWhile isBlank ++ trimStart cs := takeWhile_append_dropWhile.symm
  have hend : (trimStart cs).reverse = (trimStart cs).reverse.takeWhile isBlank ++ trimStart
      (trimStart cs).reverse :=
    takeWhile_append_dropWhile.symm
  refine ⟨cs.takeWhile isBlank, ((trimStart cs).reverse.takeWhile isBlank).reverse, ?_, ?_, ?_⟩
  · rw [trimChars, ← reverse_append, ← hend, reverse_reverse]
    exact hstart
  · exact fun b hb => mem_takeWhile_imp hb
  · exact fun b hb => mem_takeWhile_imp (mem_reverse.mp hb)

theorem splitChars_of_notMem {sep : Char} {first : List Char} (h : sep ∉ first) :
    splitChars sep first = [first] := by
  induction first with
  | nil => rfl
  | cons c first ih =>
    rw [mem_cons, not_or] at h
    rw [splitChars, if_neg (Ne.symm h.1), ih h.2]

theorem splitChars_append_sep {sep : Char} {first : List Char} (h : sep ∉ first) (rest : List Char) :
    splitChars sep (first ++ sep :: rest) = first :: splitChars sep rest := by
  induction first with
  | nil => rw [nil_append, splitChars, if_pos rfl]
  | cons c first ih =>
    rw [mem_cons, not_or] at h
    rw [cons_append, splitChars, if_neg (Ne.symm h.1), ih h.2]

theorem splitChars_first (sep : Char) (cs : List Char) : ∃ first rest pieces, cs = first ++ rest ∧
    splitChars sep cs = first :: pieces ∧ ∀ first', sep ∉ first' →
      splitChars sep (first' ++ rest) = first' :: pieces := by
  induction cs with
  | nil => exact ⟨[], [], [], rfl, rfl, fun first' h => by rw [append_nil, splitChars_of_notMem h]⟩
  | cons c cs ih =>
    by_cases hc : c = sep
    · subst hc
      refine ⟨[], c :: cs, splitChars c cs, rfl, ?_, fun first' h => splitChars_append_sep h cs⟩
      rw [splitChars, if_pos rfl]
    · obtain ⟨first, rest, pieces, rfl, hsplit, hreplace⟩ := ih
      refine ⟨c :: first, rest, pieces, rfl, ?_, hreplace⟩
      rw [splitChars, if_neg hc, hsplit]

theorem intercalate_splitChars (sep : Char) (cs : List Char) :
    [sep].intercalate (splitChars sep cs) = cs := by
  induction cs with
  | nil => rfl
  | cons c cs ih =>
    rw [splitChars]
    cases hpieces : splitChars sep cs with
    | nil =>
      rw [hpieces] at ih
      obtain rfl : cs = [] := ih.symm
      cases hpieces
    | cons piece pieces =>
      rw [hpieces] at ih
      split
      · next hc => rw [intercalate_cons_cons, ih, hc]; rfl
      · cases pieces with
        | nil => simpa using ih
        | cons piece' pieces =>
          rw [intercalate_cons_cons] at ih ⊢
          simp [← ih]

theorem isBlank_of_trimChars_eq_nil {cs : List Char} (h : trimChars cs = []) :
    ∀ c ∈ cs, isBlank c = true := by
  obtain ⟨before, behind, hcs, hbefore, hbehind⟩ := trimChars_decompose cs
  rw [h, nil_append] at hcs
  intro c hc
  rw [hcs] at hc
  exact (mem_append.mp hc).elim (hbefore c) (hbehind c)

end Text

open Text

structure IsId (id : String) : Prop where
  nonempty : id ≠ ""
  trimmed : trim id = id
  plain : ∀ c ∈ id.toList, c ≠ ':' ∧ c ≠ '\x7b' ∧ c ≠ '\x7d' ∧ c ≠ '\n'

theorem IsId.toList_ne_nil (h : IsId id) : id.toList ≠ [] :=
  fun hnil => h.nonempty (String.toList_eq_nil_iff.mp hnil)

theorem IsId.isEmpty_eq (h : IsId id) : id.isEmpty = false := by
  rw [Bool.eq_false_iff]
  exact fun hempty => h.nonempty (String.isEmpty_iff.mp hempty)

theorem IsId.tight (h : IsId id) : Tight id.toList := by
  apply tight_of_trim
  have htrim := congrArg String.toList h.trimmed
  rwa [trim, String.toList_ofList] at htrim

namespace Lexeme

/-! ## Attribute blocks -/

/-- The first field of an attribute block is its ID, with blanks around it. Another ID in its place
leaves the other fields as they are. -/
theorem attrFields_first {body : List Char} {fields : List String} (h : attrFields body = id :: fields) :
    ∃ blanks behind, body = blanks ++ (id.toList ++ behind) ∧ (∀ b ∈ blanks, isBlank b = true) ∧
      ∀ other, IsId other → attrFields (blanks ++ (other.toList ++ behind)) = other :: fields := by
  obtain ⟨first, rest, pieces, rfl, hsplit, hreplace⟩ := splitChars_first ':' body
  obtain ⟨blanks, after, hfirst, hblanks, hafter⟩ := trimChars_decompose first
  have hcolon {l : List Char} (hl : ∀ b ∈ l, isBlank b = true) : ':' ∉ l := fun hmem => by
    have hblank := hl ':' hmem
    revert hblank
    decide
  unfold attrFields at h
  split at h
  · cases h
  rw [hsplit, map_cons] at h
  obtain ⟨hid, hfields⟩ := cons.inj h
  have hidList : id.toList = trimChars first := by rw [← hid, String.toList_ofList]
  refine ⟨blanks, after ++ rest, ?_, hblanks, fun other hother => ?_⟩
  · rw [hidList, ← append_assoc, ← append_assoc, append_assoc blanks, ← hfirst]
  · have hplain : ':' ∉ blanks ++ (other.toList ++ after) := by
      simp only [mem_append, not_or]
      exact ⟨hcolon hblanks, fun hmem => (hother.plain _ hmem).1 rfl, hcolon hafter⟩
    have hbody : blanks ++ (other.toList ++ (after ++ rest)) = blanks ++ (other.toList ++ after) ++
        rest := by
      simp only [append_assoc]
    have hne : (trimChars (blanks ++ (other.toList ++ (after ++ rest)))).isEmpty = false := by
      cases hlist : other.toList with
      | nil => exact absurd hlist hother.toList_ne_nil
      | cons c cs =>
        by_contra hempty
        rw [Bool.not_eq_false, List.isEmpty_iff] at hempty
        have hblank := isBlank_of_trimChars_eq_nil hempty c (by simp)
        rw [hother.tight.head hlist] at hblank
        cases hblank
    unfold attrFields
    rw [hne, if_neg Bool.false_ne_true, hbody, hreplace _ hplain, map_cons,
      hother.tight.trimChars_eq hother.toList_ne_nil hblanks hafter, String.ofList_toList, hfields]

theorem takeWhile_append_stop {p : Char → Bool} {as : List Char} {c : Char}
    (h : ∀ a ∈ as, p a = true) (hc : p c = false) (bs : List Char) :
    (as ++ c :: bs).takeWhile p = as := by
  rw [takeWhile_append_of_pos h, takeWhile_cons_of_neg (by simp [hc]), append_nil]

theorem drop_length_takeWhile (p : Char → Bool) (cs : List Char) :
    cs.drop (cs.takeWhile p).length = cs.dropWhile p := by
  calc cs.drop (cs.takeWhile p).length =
        (cs.takeWhile p ++ cs.dropWhile p).drop (cs.takeWhile p).length := by
        rw [takeWhile_append_dropWhile]
    _ = cs.dropWhile p := drop_left

theorem nextIs_iff {p : Char → Bool} {cs : List Char} :
    nextIs p cs = true ↔ ∃ c rest, cs = c :: rest ∧ p c = true := by
  cases cs with
  | nil => simp [nextIs]
  | cons c rest => simp [nextIs]

theorem nextIs_dropWhile (p : Char → Bool) (cs : List Char) : nextIs p (cs.dropWhile p) = false := by
  induction cs with
  | nil => rfl
  | cons c cs ih =>
    by_cases hc : p c = true
    · rw [dropWhile_cons_of_pos hc]
      exact ih
    · rw [dropWhile_cons_of_neg hc]
      simpa [nextIs] using hc

theorem readAttrs_eq {body : List Char} (h : ∀ c ∈ body, c ≠ '\x7d' ∧ c ≠ '\n') (start : Nat)
    (tail : List Char) : readAttrs start (body ++ '\x7d' :: tail) =
      ⟨start, start + 1 + body.length + 1, .token (.attrs (attrFields body))⟩ := by
  have hbody : (body ++ '\x7d' :: tail).takeWhile (fun c => c ≠ '\x7d' ∧ c ≠ '\n') = body :=
    takeWhile_append_stop (fun c hc => by simpa using h c hc) (by decide) tail
  unfold readAttrs
  rw [hbody]
  dsimp only
  rw [drop_left]
  rfl

theorem readAttrs_token {start : Nat} {afterBrace : List Char} {kind : TokenKind}
    (h : (readAttrs start afterBrace).sense = .token kind) :
    ∃ body tail, afterBrace = body ++ '\x7d' :: tail ∧ (∀ c ∈ body, c ≠ '\x7d' ∧ c ≠ '\n') ∧
      kind = .attrs (attrFields body) := by
  unfold readAttrs at h
  dsimp only at h
  rw [drop_length_takeWhile] at h
  split at h
  · next hnext =>
    obtain ⟨c, tail, hbehind, hc⟩ := nextIs_iff.mp hnext
    obtain rfl : c = '\x7d' := of_decide_eq_true hc
    refine ⟨_, tail, ?_, fun c hc => ?_, (Sense.token.inj h).symm⟩
    · rw [← hbehind, takeWhile_append_dropWhile]
    · simpa using mem_takeWhile_imp hc
  · cases h

/-! ## Tags -/

section Tags

variable {cs name behind : List Char} {closing : Bool}

def slash (closing : Bool) : List Char := if closing then ['/'] else []

def tagKind (closing : Bool) (name : List Char) : TokenKind :=
  if closing then .closeTag (String.ofList name) else .tag (String.ofList name)

/-- A tag as it is written: a slash if it closes, then capitals. -/
structure WritesTag (cs : List Char) (closing : Bool) (name behind : List Char) : Prop where
  text : cs = slash closing ++ (name ++ behind)
  nonempty : name ≠ []
  capitals : ∀ c ∈ name, c.isUpper = true
  stops : nextIs Char.isUpper behind = false

theorem WritesTag.takeWhile (h : WritesTag cs closing name behind) :
    (name ++ behind).takeWhile Char.isUpper = name := by
  rw [takeWhile_append_of_pos h.capitals]
  have hnil : behind.takeWhile Char.isUpper = [] := by
    cases behind with
    | nil => rfl
    | cons c rest => exact takeWhile_cons_of_neg (by simpa [nextIs] using h.stops)
  rw [hnil, append_nil]

def tagReading (closing : Bool) (name behind : List Char) : Reading :=
  let stop := 1 + (slash closing).length + name.length
  match behind with
  | '\x7b' :: afterBrace =>
    { more := (readAttrs stop afterBrace).stop - 1
      marks := [⟨0, stop, .token (tagKind closing name)⟩, readAttrs stop afterBrace] }
  | _ => tokenOf stop (tagKind closing name)

theorem WritesTag.nextIs_slash (h : WritesTag cs closing name behind) :
    nextIs (· = '/') cs = closing := by
  rw [h.text]
  cases closing with
  | true => rfl
  | false =>
    cases hname : name with
    | nil => exact absurd hname h.nonempty
    | cons c rest =>
      have hc : c ≠ '/' := by
        rintro rfl
        exact absurd (h.capitals '/' (hname ▸ mem_cons_self)) (by decide)
      simpa [nextIs, slash] using hc

theorem WritesTag.readTag_eq (h : WritesTag cs closing name behind) :
    readTag cs = tagReading closing name behind := by
  have hlead : (if closing then 2 else 1) = 1 + (slash closing).length := by cases closing <;> rfl
  have hname : (cs.drop (1 + (slash closing).length - 1)).takeWhile Char.isUpper = name := by
    rw [h.text, Nat.add_sub_cancel_left, drop_left]
    exact h.takeWhile
  have hbehind : cs.drop (1 + (slash closing).length + name.length - 1) = behind := by
    rw [h.text, Nat.add_assoc, Nat.add_sub_cancel_left, ← append_assoc, ← length_append, drop_left]
  have hne : name.isEmpty = false := by
    rw [Bool.eq_false_iff]
    exact fun hempty => h.nonempty (List.isEmpty_iff.mp hempty)
  unfold readTag
  rw [h.nextIs_slash]
  dsimp only
  rw [hlead, hname, hne, if_neg Bool.false_ne_true, hbehind]
  rfl

theorem slash_append_drop (cs : List Char) :
    slash (nextIs (· = '/') cs) ++ cs.drop ((if nextIs (· = '/') cs then 2 else 1) - 1) = cs := by
  cases hnext : nextIs (· = '/') cs with
  | true =>
    obtain ⟨c, rest, rfl, hc⟩ := nextIs_iff.mp hnext
    obtain rfl : c = '/' := of_decide_eq_true hc
    rfl
  | false => rfl

structure LoneSign (cs : List Char) (closing : Bool) (rest : List Char) : Prop where
  text : cs = slash closing ++ rest
  closes : nextIs (· = '/') cs = closing
  stops : nextIs Char.isUpper rest = false

theorem LoneSign.readTag_eq {cs rest : List Char} (h : LoneSign cs closing rest) :
    readTag cs = whole (1 + (slash closing).length) (.fault (.unexpectedChar '§')) := by
  have hlead : (if closing then 2 else 1) = 1 + (slash closing).length := by cases closing <;> rfl
  have hname : (cs.drop (1 + (slash closing).length - 1)).takeWhile Char.isUpper = [] := by
    rw [h.text, Nat.add_sub_cancel_left, drop_left]
    cases hrest : rest with
    | nil => rfl
    | cons c rest' =>
      have hc := h.stops
      rw [hrest] at hc
      exact takeWhile_cons_of_neg (by simpa [nextIs] using hc)
  unfold readTag
  rw [h.closes]
  dsimp only
  rw [hlead, hname]
  rfl

theorem readTag_cases (cs : List Char) :
    (∃ closing rest, LoneSign cs closing rest) ∨
      ∃ closing name behind, WritesTag cs closing name behind := by
  generalize hrest : cs.drop ((if nextIs (· = '/') cs then 2 else 1) - 1) = rest
  have htext : cs = slash (nextIs (· = '/') cs) ++ rest := by rw [← hrest, slash_append_drop]
  by_cases hname : nextIs Char.isUpper rest = true
  · right
    obtain ⟨c, rest', rfl, hc⟩ := nextIs_iff.mp hname
    refine ⟨nextIs (· = '/') cs, (c :: rest').takeWhile Char.isUpper,
      (c :: rest').dropWhile Char.isUpper, ?_, ?_, ?_, ?_⟩
    · rw [takeWhile_append_dropWhile]
      exact htext
    · rw [takeWhile_cons_of_pos hc]
      exact cons_ne_nil _ _
    · exact fun c hc => mem_takeWhile_imp hc
    · exact nextIs_dropWhile _ _
  · exact .inl ⟨nextIs (· = '/') cs, rest, htext, rfl, Bool.eq_false_iff.mpr hname⟩

end Tags

end Lexeme

end TagLang
