import TagLang.Proofs.Token.Extent

/-! # Lexemes before a section sign or a line break

Nothing but a string, a comment or an attribute block goes past a section sign, so a lexeme that
ends before it is read in the same way whatever follows the sign. No lexeme but the line break
itself has one in it, so a lexeme is read before a line break as at the end of the text.
-/

namespace TagLang.Lexeme
open Text List

/-- Two ways to go on after a text: with something else behind a section sign, and with a line break
instead of the end. -/
inductive GoesOn : List Char → List Char → Prop
  | sign (bs bs' : List Char) : GoesOn ('§' :: bs) ('§' :: bs')
  | line (bs : List Char) : GoesOn [] ('\n' :: bs)

variable {as bs bs' : List Char} (h : GoesOn bs bs')
include h

/-! ## Runs of characters -/

section Runs

variable {β : Type}

theorem GoesOn.same (f : List Char → β) (hf : ∀ d, EndsWord d → ∀ cs, f (as ++ d :: cs) = f as) :
    f (as ++ bs') = f (as ++ bs) := by
  cases h with
  | sign => rw [hf _ (.inl rfl), hf _ (.inl rfl)]
  | line => rw [hf _ (.inr rfl), append_nil]

theorem GoesOn.nextIs {p : Char → Bool} (hp : ∀ d, EndsWord d → p d = false) (as : List Char) :
    nextIs p (as ++ bs') = nextIs p (as ++ bs) := h.same _ fun d hd => nextIs_break (hp d hd) as

theorem GoesOn.takeWhile {p : Char → Bool} (hsign : p '§' = true) (hline : p '\n' = false)
    (hlength : ((as ++ bs).takeWhile p).length ≤ as.length) :
    (as ++ bs').takeWhile p = (as ++ bs).takeWhile p := by
  cases h with
  | sign =>
    rw [takeWhile_append] at hlength ⊢
    rw [takeWhile_append]
    split at hlength
    · rw [takeWhile_cons_of_pos hsign, length_append, length_cons] at hlength
      omega
    · next hshort => rw [if_neg hshort, if_neg hshort]
  | line => rw [takeWhile_break hline, append_nil]

end Runs

/-! ## Strings and blocks -/

section Strings

omit h in
theorem readStringBody_plain {c : Char} (hc : c ≠ '\n' ∧ c ≠ '"' ∧ c ≠ '\\') (i : Nat) (cs : List Char) :
    readStringBody i (c :: cs) =
      { readStringBody (i + 1) cs with value := c :: (readStringBody (i + 1) cs).value } := by
  rw [readStringBody.eq_def]
  dsimp only
  rw [if_neg hc.1, if_neg hc.2.1, if_neg hc.2.2]

omit h in
theorem readStringBody_escape {e : Char} (he : e ≠ '\n') (i : Nat) (cs : List Char) :
    readStringBody i ('\\' :: e :: cs) =
      match unescape e with
      | some d => { readStringBody (i + 2) cs with value := d :: (readStringBody (i + 2) cs).value }
      | none =>
        { readStringBody (i + 2) cs with
          value := e :: (readStringBody (i + 2) cs).value
          faults := ⟨i, i + 2, .fault (.invalidEscape e)⟩ :: (readStringBody (i + 2) cs).faults } := by
  rw [readStringBody.eq_def]
  dsimp only
  refine (if_neg (by decide)).trans
    ((if_neg (by decide)).trans ((if_pos rfl).trans ((if_neg he).trans ?_)))
  cases unescape e <;> rfl

omit h in
/-- A line break or a quote ends a string, whatever follows it. -/
theorem readStringBody_stop {c : Char} (hc : c = '\n' ∨ c = '"') (i : Nat) (cs cs' : List Char) :
    readStringBody i (c :: cs) = readStringBody i (c :: cs') := by
  rcases hc with rfl | rfl
  · rw [readStringBody.eq_def, readStringBody.eq_def]
    rfl
  · rw [readStringBody.eq_def, readStringBody.eq_def]
    rfl

omit h in
theorem stop_escape {e : Char} (he : e ≠ '\n') (i : Nat) (cs : List Char) :
    (readStringBody i ('\\' :: e :: cs)).stop = (readStringBody (i + 2) cs).stop := by
  rw [readStringBody_escape he]
  split <;> rfl

theorem readStringBody_goesOn (i : Nat) (as : List Char)
    (hstop : (readStringBody i (as ++ bs)).stop ≤ i + as.length) :
    readStringBody i (as ++ bs') = readStringBody i (as ++ bs) := by
  -- An escape takes two characters, so the induction is on the length.
  induction hn : as.length using Nat.strongRecOn generalizing i as with
  | ind n ih =>
    cases as with
    | nil =>
      cases h with
      | sign bs =>
        rw [nil_append, readStringBody_plain (by decide)] at hstop
        have hlater := (between_readStringBody (i + 1) bs).start
        exact absurd (Nat.le_trans hlater hstop) (Nat.not_succ_le_self i)
      | line =>
        rw [nil_append, readStringBody.eq_def]
        rfl
    | cons c as =>
      rw [cons_append, length_cons] at hstop
      rw [length_cons] at hn
      rw [cons_append, cons_append]
      by_cases hend : c = '\n' ∨ c = '"'
      · exact readStringBody_stop hend _ _ _
      by_cases hc : c = '\\'
      · subst hc
        cases as with
        | nil =>
          cases h with
          | sign bs =>
            rw [nil_append, stop_escape (by decide), length_nil] at hstop
            have hlater := (between_readStringBody (i + 2) bs).start
            omega
          | line =>
            rw [nil_append, readStringBody.eq_def, readStringBody.eq_def]
            rfl
        | cons e as =>
          rw [cons_append, length_cons] at hstop
          rw [length_cons] at hn
          rw [cons_append, cons_append]
          by_cases he : e = '\n'
          · subst he
            rw [readStringBody.eq_def, readStringBody.eq_def]
            rfl
          · rw [stop_escape he] at hstop
            have hrest := ih as.length (by omega) (i + 2) as (by omega) rfl
            rw [readStringBody_escape he, readStringBody_escape he, hrest]
      · have hplain : c ≠ '\n' ∧ c ≠ '"' ∧ c ≠ '\\' :=
          ⟨fun hn => hend (.inl hn), fun hq => hend (.inr hq), hc⟩
        rw [readStringBody_plain hplain] at hstop
        dsimp only at hstop
        have hrest := ih as.length (by omega) (i + 1) as (by omega) rfl
        rw [readStringBody_plain hplain, readStringBody_plain hplain, hrest]

theorem readString_goesOn {quote : Nat} (hmore : (readString quote (as ++ bs)).more ≤ quote + as.length) :
    readString quote (as ++ bs') = readString quote (as ++ bs) := by
  have hstop : (readStringBody (quote + 1) (as ++ bs)).stop ≤ quote + 1 + as.length := by
    have hmore : (readStringBody (quote + 1) (as ++ bs)).stop - 1 ≤ quote + as.length := hmore
    omega
  unfold readString
  rw [readStringBody_goesOn h (quote + 1) as hstop]

theorem readTypedString_goesOn {start : Nat} (hstart : start ≤ as.length)
    (hmore : (readTypedString (as ++ bs) start).more < as.length) :
    readTypedString (as ++ bs') start = readTypedString (as ++ bs) start := by
  unfold readTypedString at hmore ⊢
  rw [h.same (malformed · start) fun d hd => malformed_break hd hstart]
  rw [drop_append_of_le_length hstart] at hmore ⊢
  rw [drop_append_of_le_length hstart]
  cases hrest : as.drop start with
  | nil => cases h <;> rfl
  | cons c rest =>
    by_cases hc : c = '"'
    · subst hc
      rw [hrest] at hmore
      have hlength := congrArg List.length hrest
      rw [length_drop, length_cons] at hlength
      have hmore : (readString start (rest ++ bs)).more < as.length := hmore
      exact readString_goesOn h (by omega)
    · simp [hc]

theorem readAttrs_goesOn {start : Nat}
    (hstop : (readAttrs start (as ++ bs)).stop ≤ start + 1 + as.length) :
    readAttrs start (as ++ bs') = readAttrs start (as ++ bs) := by
  have hlength : ((as ++ bs).takeWhile fun c => c ≠ '\x7d' ∧ c ≠ '\n').length ≤ as.length := by
    unfold readAttrs at hstop
    dsimp only at hstop
    split at hstop
    · dsimp only at hstop
      omega
    · dsimp only at hstop
      omega
  have hbody := h.takeWhile (by decide) (by decide) hlength
  unfold readAttrs
  rw [hbody]
  dsimp only
  rw [drop_append_of_le_length hlength, drop_append_of_le_length hlength,
    h.nextIs fun d hd => decide_eq_false (hd.ne (by decide))]

end Strings

/-! ## Lexemes -/

theorem GoesOn.writesTag {closing : Bool} {name behind : List Char}
    (hwrites : WritesTag as closing name behind) :
    WritesTag (as ++ bs) closing name (behind ++ bs) ∧
      WritesTag (as ++ bs') closing name (behind ++ bs') := by
  cases h with
  | sign => exact ⟨WritesTag.append (.inl rfl) hwrites _, WritesTag.append (.inl rfl) hwrites _⟩
  | line => exact ⟨by rwa [append_nil, append_nil], WritesTag.append (.inr rfl) hwrites _⟩

theorem readTag_goesOn (hmore : (readTag (as ++ bs)).more ≤ as.length) :
    readTag (as ++ bs') = readTag (as ++ bs) := by
  by_cases hattrs : ∃ closing name rest, WritesTag as closing name ('\x7b' :: rest)
  · obtain ⟨closing, name, rest, hwrites⟩ := hattrs
    obtain ⟨hread, hread'⟩ := h.writesTag hwrites
    generalize hstop : 1 + (slash closing).length + name.length = stop
    have hlength : stop + rest.length = as.length := by
      have htext := congrArg List.length hwrites.text
      rw [length_append, length_append, length_cons] at htext
      omega
    rw [hread.readTag_eq] at hmore ⊢
    rw [hread'.readTag_eq]
    unfold tagReading at hmore ⊢
    simp only [cons_append, hstop] at hmore ⊢
    have hend : (readAttrs stop (rest ++ bs)).stop ≤ stop + 1 + rest.length := by omega
    rw [readAttrs_goesOn h hend]
  · exact h.same readTag fun d hd => (readTag_break hd as).resolve_right hattrs

theorem readWord_goesOn (hmore : (readWord (as ++ bs)).more < as.length) :
    readWord (as ++ bs') = readWord (as ++ bs) := by
  by_cases hstring : ∃ rest, as = "STR:".toList ++ rest
  · obtain ⟨rest, rfl⟩ := hstring
    have hread (tail : List Char) : readWord ("STR:".toList ++ rest ++ tail) =
        readTypedString ("STR:".toList ++ rest ++ tail) 4 := by
      rw [append_assoc, readWord_string]
    rw [hread] at hmore ⊢
    rw [hread]
    exact readTypedString_goesOn h (by simp) hmore
  · exact h.same readWord fun d hd => (readWord_break hd as).resolve_right hstring

/-- A lexeme that ends with the text is the same for both ways to go on. -/
theorem read_goesOn {c : Char} (hmore : (read c (as ++ bs)).more ≤ as.length) :
    read c (as ++ bs') = read c (as ++ bs) := by
  unfold read at hmore ⊢
  rw [h.nextIs fun d hd => decide_eq_false (hd.ne (by decide))]
  split
  · rfl
  next hblank =>
  rw [if_neg hblank] at hmore
  split
  · next hcomment =>
    rw [if_pos hcomment] at hmore
    rw [h.takeWhile (by decide) (by decide) hmore]
  next hcomment =>
  rw [if_neg hcomment] at hmore
  split
  · next htag =>
    rw [if_pos htag] at hmore
    exact readTag_goesOn h hmore
  next htag =>
  rw [if_neg htag] at hmore
  split
  · next hstring =>
    rw [if_pos hstring] at hmore
    exact readString_goesOn h (by rwa [Nat.zero_add])
  next hstring =>
  rw [if_neg hstring] at hmore
  split
  · exact h.same (fun cs => readNumber (c :: cs) 0 false false) fun d hd cs =>
      readNumber_break hd (Nat.zero_le (c :: as).length) cs false false
  next hdigit =>
  rw [if_neg hdigit] at hmore
  split
  · next hword =>
    rw [if_pos hword] at hmore
    have hmore : (readWord (c :: as ++ bs)).more < (c :: as).length := Nat.lt_succ_of_le hmore
    exact readWord_goesOn h hmore
  · exact h.same (readSign c) fun d hd => readSign_break hd c as

end TagLang.Lexeme
