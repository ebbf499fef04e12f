import TagLang.Edit
import TagLang.Proofs.Source.Position
import TagLang.Proofs.Token.Lexes

/-! # Edits of a closing tag

A text is cut at the byte offset where a token says it begins, so the edit of a closing ID replaces
that ID and nothing else.
-/

namespace TagLang
open Grammar Lexeme Text List

/-! ## Cutting at a byte -/

theorem Edit.cutAt?_append (as bs : List Char) :
    Edit.cutAt? (byteCount as) (as ++ bs) = some (as, bs) := by
  induction as with
  | nil => exact Edit.cutAt?.eq_1 _
  | cons a as ih =>
    have hpos := a.utf8Size_pos
    obtain ⟨n, hn⟩ : ∃ n, byteCount (a :: as) = n + 1 :=
      ⟨a.utf8Size + byteCount as - 1, by rw [byteCount_cons]; omega⟩
    have hrest : n + 1 - a.utf8Size = byteCount as := by
      rw [← hn, byteCount_cons, Nat.add_sub_cancel_left]
    rw [hn, cons_append, Edit.cutAt?, if_pos (by rw [← hn, byteCount_cons]; omega), hrest, ih]
    rfl

/-- Replacing a stretch of a text changes nothing around it. -/
theorem Edit.apply_replace {before mid behind : List Char} {e : Edit} (hkind : e.kind ≠ .insert)
    (hstart : e.span.start = byteCount before) (hstop : e.span.stop = byteCount before + byteCount mid) :
    e.apply (String.ofList (before ++ (mid ++ behind))) =
      String.ofList (before ++ (e.replacement.toList ++ behind)) := by
  have hstart' : Edit.cutAt? e.span.start (before ++ (mid ++ behind)) = some (before, mid ++ behind) := by
    rw [hstart, Edit.cutAt?_append]
  have hstop' : Edit.cutAt? e.span.stop (before ++ (mid ++ behind)) = some (before ++ mid, behind) := by
    rw [hstop, ← byteCount_append, ← append_assoc, Edit.cutAt?_append]
  unfold Edit.apply
  rw [String.toList_ofList, hstart', hstop']
  dsimp only
  rw [if_pos (by omega), if_neg hkind, String.ofList_append, String.ofList_append, String.ofList_toList,
    String.append_assoc]

namespace Lexeme

/-! ## The ID of an attribute block -/

section Ids

theorem exists_occursAt? (needle as bs : List Char) : ∃ k ≤ as.length,
    occursAt? needle (as ++ (needle ++ bs)) = some k ∧ needle <+: (as ++ (needle ++ bs)).drop k := by
  have hfront {text : List Char} (h : needle <+: text) : occursAt? needle text = some 0 := by
    cases text with
    | nil => simp [occursAt?, prefix_nil.mp h]
    | cons c cs => rw [occursAt?, if_pos (List.isPrefixOf_iff_prefix.mpr h)]
  induction as with
  | nil => exact ⟨0, Nat.le_refl 0, hfront (prefix_append _ _), prefix_append _ _⟩
  | cons a as ih =>
    by_cases h : needle <+: a :: (as ++ (needle ++ bs))
    · exact ⟨0, Nat.zero_le _, hfront h, h⟩
    · obtain ⟨k, hk, hfound, hhere⟩ := ih
      refine ⟨k + 1, Nat.succ_le_succ hk, ?_, hhere⟩
      rw [cons_append, occursAt?, if_neg (fun hp => h (List.isPrefixOf_iff_prefix.mp hp)), hfound]
      rfl

theorem occursAt?_append {c : Char} {cs as : List Char} (h : c ∉ as) (bs : List Char) :
    occursAt? (c :: cs) (as ++ (c :: cs ++ bs)) = some as.length := by
  obtain ⟨k, hk, hfound, hhere⟩ := exists_occursAt? (c :: cs) as bs
  rcases Nat.lt_or_eq_of_le hk with hlt | rfl
  · rw [drop_append_of_le_length hk, drop_eq_getElem_cons hlt, cons_append, cons_prefix_cons] at hhere
    exact absurd (hhere.1 ▸ getElem_mem hlt) h
  · exact hfound

variable {x : Token} {start : Nat} {blanks : List Char} {id : String} {fields : List String}

theorem HasId.occursAt?_eq (h : HasId x start blanks id fields) (hid : IsId id)
    (hblanks : ∀ b ∈ blanks, isBlank b = true) :
    occursAt? id.toList x.raw.toList = some ('\x7b' :: blanks).length := by
  obtain ⟨tail, hraw⟩ := h.raw
  cases hlist : id.toList with
  | nil => exact absurd hlist hid.toList_ne_nil
  | cons c cs =>
    have hc : c ∉ '\x7b' :: blanks := by
      rw [mem_cons, not_or]
      refine ⟨(hid.plain c (hlist ▸ mem_cons_self)).2.1, fun hmem => ?_⟩
      have hblank := hblanks c hmem
      rw [hid.tight.head hlist] at hblank
      cases hblank
    rw [hraw, hlist]
    exact occursAt?_append hc tail

theorem HasId.idSpan_eq (h : HasId x start blanks id fields) (hid : IsId id)
    (hblanks : ∀ b ∈ blanks, isBlank b = true) :
    (idSpan x id).start = start + byteCount ('\x7b' :: blanks) ∧
      (idSpan x id).stop = start + byteCount ('\x7b' :: blanks) + byteCount id.toList := by
  obtain ⟨tail, hraw⟩ := h.raw
  have htake : x.raw.toList.take ('\x7b' :: blanks).length = '\x7b' :: blanks := by
    rw [hraw, ← cons_append, take_left]
  unfold idSpan spanInside
  dsimp only
  rw [hid.isEmpty_eq, h.occursAt?_eq hid hblanks, if_neg Bool.false_ne_true, Option.getD_some,
    htake, h.start, byteCount_toList]
  exact ⟨rfl, rfl⟩

def textWithId (before blanks behind : List Char) (id : String) : String :=
  String.ofList (before ++ '\x7b' :: blanks) ++ id ++ String.ofList behind

theorem textWithId_eq (before blanks behind : List Char) (id : String) :
    textWithId before blanks behind id =
    String.ofList (before ++ '\x7b' :: (blanks ++ (id.toList ++ behind))) := by
  apply String.toList_injective
  simp [textWithId, append_assoc]

theorem HasId.apply_closingId {before : List Char} (h : HasId x (byteCount before) blanks id fields)
    (hid : IsId id) (hblanks : ∀ b ∈ blanks, isBlank b = true) (behind : List Char)
    (openId : String) :
    (Edit.closingId openId id (idSpan x id)).apply (textWithId before blanks behind id) =
      textWithId before blanks behind openId := by
  have hfront (id : String) : textWithId before blanks behind id =
      String.ofList (before ++ '\x7b' :: blanks ++ (id.toList ++ behind)) := by
    rw [textWithId_eq, append_assoc, cons_append]
  obtain ⟨hstart, hstop⟩ := h.idSpan_eq hid hblanks
  rw [← byteCount_append] at hstart hstop
  unfold Edit.closingId
  rw [hid.isEmpty_eq, if_neg Bool.false_ne_true, hfront, hfront]
  exact Edit.apply_replace (e := Edit.replace _ _ openId) EditKind.noConfusion hstart hstop

theorem lex_replace_id {source : String} {pre post : List Token} {c : Token}
    (hlex : (lex source).errors = []) (htokens : (lex source).tokens = pre ++ c :: x :: post)
    (hx : x.kind = .attrs (id :: fields)) :
    ∃ before blanks behind, source = textWithId before blanks behind id ∧ byteCount before =
      x.span.start ∧ (∀ b ∈ blanks, isBlank b = true) ∧ ∀ other, IsId other → ∃ pre' c' x' post',
        lex (textWithId before blanks behind other) = ⟨pre' ++ c' :: x' :: post', []⟩ ∧
          HasId x' (byteCount before) blanks other fields ∧
          kinds pre' = kinds pre ∧ c'.kind = c.kind ∧ kinds post' = kinds post := by
  rw [← singleton_append, ← append_assoc] at htokens
  obtain ⟨post, span, rfl, hlexes⟩ := lexes_lex hlex htokens (by rw [hx]; exact TokenKind.noConfusion)
  rw [append_assoc, singleton_append] at hlexes
  obtain ⟨before, blanks, behind, hsource, hblanks, hid, hreplace⟩ := hlexes.replace_id hx
  rw [Position.offset_after, Position.origin, Nat.zero_add] at hid hreplace
  refine ⟨before, blanks, behind, ?_, hid.start.symm, hblanks, fun other hother => ?_⟩
  · rw [textWithId_eq, ← hsource, String.ofList_toList]
  obtain ⟨pre', c', x', post', hlexes', hid', hpre, hc, hpost⟩ := hreplace other hother
  obtain ⟨span', hlex'⟩ := hlexes'.lex_eq
  refine ⟨pre', c', x', post' ++ [.eofAt span'], ?_, hid', hpre, hc, ?_⟩
  · rw [textWithId_eq, hlex', append_assoc]
    rfl
  · rw [kinds_append, kinds_append, hpost]
    rfl

end Ids

end Lexeme

end TagLang
