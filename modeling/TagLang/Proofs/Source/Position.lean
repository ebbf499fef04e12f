import Mathlib.Data.List.DropRight
import Mathlib.Data.String.Basic
import TagLang.Grammar.Attribute

/-! # What a position counts

The place behind a text counts its bytes, its line breaks, and its characters behind the last line
break. The span of a stretch of a text is given by the numbers of characters before its two ends.
-/

namespace TagLang
open Grammar List

/-! ## Bytes -/

section Bytes

variable {a b : Nat}

theorem byteCount_cons (c : Char) (cs : List Char) :
    byteCount (c :: cs) = c.utf8Size + byteCount cs := rfl

theorem byteCount_append (as bs : List Char) : byteCount (as ++ bs) = byteCount as + byteCount bs := by
  induction as with
  | nil => exact (Nat.zero_add _).symm
  | cons a as ih => rw [cons_append, byteCount_cons, ih, byteCount_cons, Nat.add_assoc]

theorem byteCount_toList (s : String) : byteCount s.toList = s.utf8ByteSize := by
  have hlist (cs : List Char) : byteCount cs = String.utf8Len cs := by
    induction cs with
    | nil => rfl
    | cons c cs ih => rw [byteCount_cons, ih, String.utf8Len_cons, Nat.add_comm]
  rw [hlist, String.utf8Len_toList]

theorem byteCount_eq_size (cs : List Char) : byteCount cs = (String.ofList cs).utf8ByteSize := by
  rw [← byteCount_toList, String.toList_ofList]

theorem Position.offset_after (p : Position) (cs : List Char) :
    (p.after cs).offset = p.offset + byteCount cs := by
  induction cs generalizing p with
  | nil => rfl
  | cons c cs ih =>
    have hnext : (p.next c).offset = p.offset + c.utf8Size := by
      unfold Position.next
      split <;> rfl
    rw [Position.after_cons, ih, hnext, byteCount_cons, Nat.add_assoc]

theorem byteCount_take_mono (text : List Char) (h : a ≤ b) :
    byteCount (text.take a) ≤ byteCount (text.take b) := by
  obtain ⟨k, rfl⟩ := Nat.exists_eq_add_of_le h
  rw [take_add, byteCount_append]
  exact Nat.le_add_right _ _

theorem byteCount_take_lt {text : List Char} (h : a < b) (hb : b ≤ text.length) :
    byteCount (text.take a) < byteCount (text.take b) := by
  have hone : text.take (a + 1) = text.take a ++ [text[a]] := take_succ_eq_append_getElem (by omega)
  have hnext : byteCount (text.take a) < byteCount (text.take (a + 1)) := by
    rw [hone, byteCount_append, byteCount_cons]
    have hpos := (text[a]).utf8Size_pos
    omega
  exact Nat.lt_of_lt_of_le hnext (byteCount_take_mono text h)

theorem byteCount_take_le_iff {text : List Char} (ha : a ≤ text.length) :
    byteCount (text.take a) ≤ byteCount (text.take b) ↔ a ≤ b := by
  refine ⟨fun h => ?_, byteCount_take_mono text⟩
  by_contra hlt
  have hless := byteCount_take_lt (Nat.lt_of_not_le hlt) ha
  omega

end Bytes

/-! ## Lines and columns -/

theorem Position.after_concat (p : Position) (cs : List Char) (c : Char) :
    p.after (cs ++ [c]) = (p.after cs).next c := by
  rw [Position.after_append]
  rfl

theorem Position.line_after (p : Position) (cs : List Char) :
    (p.after cs).line = p.line + cs.count '\n' := by
  induction cs generalizing p with
  | nil => rfl
  | cons c cs ih =>
    rw [Position.after_cons, ih]
    unfold Position.next
    split
    · next hc =>
      rw [hc, count_cons_self]
      exact Nat.succ_add_eq_add_succ _ _
    · next hc => rw [count_cons_of_ne hc]

theorem Position.col_after (cs : List Char) :
    (Position.origin.after cs).col = 1 + (cs.rtakeWhile (· ≠ '\n')).length := by
  induction cs using List.reverseRecOn with
  | nil => rfl
  | append_singleton cs c ih =>
    rw [Position.after_concat, rtakeWhile_concat]
    unfold Position.next
    by_cases hc : c = '\n'
    · rw [if_pos hc, if_neg (by simpa using hc)]
      rfl
    · rw [if_neg hc, if_pos (by simpa using hc), ih, length_append]
      rfl

theorem Position.after_plain (p : Position) {cs : List Char} (h : '\n' ∉ cs) :
    p.after cs = ⟨p.offset + byteCount cs, p.line, p.col + cs.length⟩ := by
  induction cs generalizing p with
  | nil => rfl
  | cons c cs ih =>
    rw [mem_cons, not_or] at h
    rw [after_cons, ih _ h.2, next, if_neg (Ne.symm h.1), byteCount_cons, length_cons,
      Nat.add_assoc, Nat.add_assoc, Nat.add_comm 1]

/-! ## Stretches of a text -/

section Stretches

def stretch (text : List Char) (a b : Nat) : List Char := (text.drop a).take (b - a)

def Span.ofStretch (text : List Char) (a b : Nat) : Span :=
  .between (Position.origin.after (text.take a)) (Position.origin.after (text.take b))

variable {text : List Char} {a b : Nat}

theorem take_append_stretch (text : List Char) (h : a ≤ b) :
    text.take a ++ stretch text a b = text.take b := by
  rw [stretch, ← take_add, Nat.add_sub_cancel' h]

theorem Span.start_ofStretch (text : List Char) (a b : Nat) :
    (ofStretch text a b).start = byteCount (text.take a) :=
  (Position.offset_after _ _).trans (Nat.zero_add _)

theorem Span.stop_ofStretch (text : List Char) (a b : Nat) :
    (ofStretch text a b).stop = byteCount (text.take b) :=
  (Position.offset_after _ _).trans (Nat.zero_add _)

/-- A span that covers `slice`, which stands behind `before`. -/
structure Span.Locates (s : Span) (before slice : String) : Prop where
  start : s.start = before.utf8ByteSize
  stop : s.stop = before.utf8ByteSize + slice.utf8ByteSize
  line : s.line = 1 + before.toList.count '\n'
  col : s.col = 1 + (before.toList.rtakeWhile (· ≠ '\n')).length

theorem Span.locates_between (as bs : List Char) :
    (between (Position.origin.after as) (Position.origin.after (as ++ bs))).Locates
      (String.ofList as) (String.ofList bs) where
  start := (Position.offset_after _ _).trans (by rw [byteCount_eq_size]; exact Nat.zero_add _)
  stop := (Position.offset_after _ _).trans (by
    rw [byteCount_append, byteCount_eq_size, byteCount_eq_size]
    exact Nat.zero_add _)
  line := by
    rw [String.toList_ofList]
    exact Position.line_after _ _
  col := by
    rw [String.toList_ofList]
    exact Position.col_after _

/-- A span covers the slice of a text that stands at its bytes. -/
def Span.Slices (s : Span) (source slice : String) : Prop :=
  ∃ before behind, source = before ++ slice ++ behind ∧ s.Locates before slice

theorem Span.slices_between {source : String} {as bs cs : List Char}
    (h : source.toList = as ++ bs ++ cs) :
    (between (Position.origin.after as) (Position.origin.after (as ++ bs))).Slices source
      (String.ofList bs) := by
  refine ⟨_, String.ofList cs, ?_, locates_between as bs⟩
  rw [← String.ofList_append, ← String.ofList_append, ← h, String.ofList_toList]

theorem Span.slices_ofStretch (source : String) (h : a ≤ b) :
    (ofStretch source.toList a b).Slices source (String.ofList (stretch source.toList a b)) := by
  rw [ofStretch, ← take_append_stretch _ h]
  apply slices_between
  rw [take_append_stretch _ h, take_append_drop]

def Span.Covers (s : Span) (text : List Char) (i : Nat) : Prop :=
  s.start ≤ byteCount (text.take i) ∧ byteCount (text.take (i + 1)) ≤ s.stop

theorem Span.covers_ofStretch_iff {i : Nat} (ha : a ≤ text.length) (hi : i < text.length) :
    (ofStretch text a b).Covers text i ↔ a ≤ i ∧ i < b := by
  rw [Covers, start_ofStretch, stop_ofStretch, byteCount_take_le_iff ha, byteCount_take_le_iff hi]
  exact Iff.rfl

end Stretches

end TagLang
