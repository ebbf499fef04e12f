import TagLang.Proofs.Source.Position
import TagLang.Proofs.Token.Break

/-! # The extent of a lexeme

What is found in a lexeme lies inside of it, and its tokens do not overlap. Apart from blanks and
comments, all characters of a lexeme belong to its findings, with one exception: a string that is
announced by its type and never closed is reported from its quote on.
-/

namespace TagLang.Lexeme
open Text List

structure Reading.Within (r : Reading) (text : List Char) : Prop where
  more : r.more < text.length
  marks : ∀ m ∈ r.marks, m.start < m.stop ∧ m.stop ≤ r.more + 1
  ordered : r.marks.Pairwise fun a b => (∃ k, a.sense = .token k) → (∃ k, b.sense = .token k) →
    a.stop ≤ b.start
  malformed : ∀ m ∈ r.marks, ∀ s, m.sense = .fault (.malformedLiteral s) →
    s = String.ofList (stretch text m.start m.stop)

def Reading.Covers (r : Reading) (i : Nat) : Prop := ∃ m ∈ r.marks, m.start ≤ i ∧ i < m.stop

structure Reading.Tiles (r : Reading) (text : List Char) : Prop extends r.Within text where
  full : ∀ i ≤ r.more, r.Covers i

/-! ## Single findings -/

section Single

variable {text : List Char} {n start : Nat}

theorem tiles_whole {sense : Sense} (hpos : 0 < n) (hle : n ≤ text.length)
    (hsense : ∀ s, sense = .fault (.malformedLiteral s) → s = String.ofList (text.take n)) :
    (whole n sense).Tiles text where
  more := by
    have hlt : n - 1 < text.length := by omega
    exact hlt
  marks m hm := by
    rw [mem_singleton.mp hm]
    exact ⟨hpos, Nat.le_of_eq (Nat.sub_add_cancel hpos).symm⟩
  ordered := pairwise_singleton _ _
  malformed m hm s hs := by
    rw [mem_singleton.mp hm] at hs ⊢
    exact hsense s hs
  full i hi := ⟨_, mem_singleton_self _, Nat.zero_le i, Nat.lt_of_le_pred hpos hi⟩

theorem tiles_tokenOf {kind : TokenKind} (hpos : 0 < n) (hle : n ≤ text.length) :
    (tokenOf n kind).Tiles text :=
  tiles_whole hpos hle nofun

theorem tiles_malformed (hpos : 0 < n) (hle : n ≤ text.length) : (malformed text n).Tiles text := by
  apply tiles_whole
  · omega
  · exact length_takeWhile_drop_le _ text hle
  · intro s hs
    cases hs
    rfl

theorem tiles_ite {p : Prop} [Decidable p] {r r' : Reading} (h : p → r.Tiles text)
    (h' : ¬p → r'.Tiles text) : (if p then r else r').Tiles text := by
  split
  · next hp => exact h hp
  · next hp => exact h' hp

end Single

/-! ## Numbers, words and signs -/

section Words

variable {text : List Char} {start : Nat}

theorem tiles_readHex (hpos : 0 < start) (hle : start ≤ text.length) (negative : Bool) :
    (readHex text start negative).Tiles text := by
  have hstop := length_takeWhile_drop_le isHexOrSeparator text hle
  exact tiles_ite (fun _ => tiles_malformed (by omega) hstop) fun _ => tiles_tokenOf (by omega) hstop

theorem lt_length_digits (h : nextIs Char.isDigit (text.drop start) = true) :
    0 < ((text.drop start).takeWhile isDigitOrSeparator).length := by
  obtain ⟨c, rest, hrest, hc⟩ := nextIs_iff.mp h
  have hdigit : isDigitOrSeparator c = true := by rw [isDigitOrSeparator, hc, Bool.true_or]
  rw [hrest, takeWhile_cons_of_pos hdigit]
  exact Nat.succ_pos _

theorem tiles_readDecimal (h : nextIs Char.isDigit (text.drop start) = true)
    (negative floatOnly : Bool) : (readDecimal text start negative floatOnly).Tiles text := by
  have hpos : 0 < start + ((text.drop start).takeWhile isDigitOrSeparator).length :=
    Nat.lt_of_lt_of_le (lt_length_digits h) (Nat.le_add_left _ _)
  have hpoint := length_takeWhile_drop_le isDigitOrSeparator text (Nat.le_of_lt (lt_length_of_nextIs h))
  unfold readDecimal
  dsimp only
  generalize start + ((text.drop start).takeWhile isDigitOrSeparator).length = pointAt at hpos hpoint
  cases hfraction : fraction? (text.drop pointAt) with
  | none =>
    exact tiles_ite (fun _ => tiles_malformed hpos hpoint) fun _ =>
      tiles_ite (fun _ => tiles_tokenOf hpos hpoint) fun _ =>
        tiles_ite (fun _ => tiles_tokenOf hpos hpoint) fun _ => tiles_malformed hpos hpoint
  | some places =>
    have hplaces := length_fraction?_le hfraction
    rw [length_drop] at hplaces
    have hstop : pointAt + 1 + places.length ≤ text.length := by omega
    exact tiles_ite (fun _ => tiles_malformed (Nat.add_pos_left (Nat.succ_pos _) _) hstop) fun _ =>
      tiles_tokenOf (Nat.add_pos_left (Nat.succ_pos _) _) hstop

theorem tiles_readNumber (h : nextIs Char.isDigit (text.drop start) = true)
    (negative floatOnly : Bool) : (readNumber text start negative floatOnly).Tiles text := by
  unfold readNumber
  split
  · next x rest hrest =>
    have hlength := congrArg List.length hrest
    rw [length_drop, length_cons, length_cons] at hlength
    exact tiles_ite (fun _ => tiles_readHex (by omega) (by omega) _) fun _ => tiles_readDecimal h _ _
  · exact tiles_readDecimal h _ _

theorem tiles_readTypedNumber (hpos : 0 < start) (hle : start ≤ text.length) (floatOnly : Bool) :
    (readTypedNumber text start floatOnly).Tiles text := by
  have hfirst : 0 < (if nextIs (· = '-') (text.drop start) then start + 1 else start) ∧
      (if nextIs (· = '-') (text.drop start) then start + 1 else start) ≤ text.length := by
    split
    · next hminus => exact ⟨Nat.succ_pos _, lt_length_of_nextIs hminus⟩
    · exact ⟨hpos, hle⟩
  refine tiles_ite (fun hdigit => ?_) fun _ => tiles_malformed hfirst.1 hfirst.2
  have hnumber := tiles_readNumber hdigit (nextIs (· = '-') (text.drop start)) floatOnly
  exact ⟨⟨hnumber.more, hnumber.marks, hnumber.ordered, hnumber.malformed⟩, hnumber.full⟩

theorem tiles_readTypedBool (hpos : 0 < start) (hle : start ≤ text.length) :
    (readTypedBool text start).Tiles text := by
  have hstop := length_takeWhile_drop_le isAlphanumeric text hle
  exact tiles_ite (fun _ => tiles_tokenOf (by omega) hstop) fun _ =>
    tiles_ite (fun _ => tiles_tokenOf (by omega) hstop) fun _ => tiles_malformed (by omega) hstop

theorem tiles_readSign (c : Char) (cs : List Char) : (readSign c cs).Tiles (c :: cs) := by
  unfold readSign
  split
  · next kind hkind =>
    obtain ⟨d, hd, -⟩ := Option.bind_eq_some_iff.mp hkind
    obtain ⟨rest, rfl⟩ := head?_eq_some_iff.mp hd
    exact tiles_tokenOf (by decide) (by simp)
  · split
    · exact tiles_tokenOf (by decide) (by simp)
    · exact tiles_whole (by decide) (by simp) nofun

end Words

/-! ## Tags -/

theorem readAttrs_bounds (start : Nat) (afterBrace : List Char) :
    (readAttrs start afterBrace).start = start ∧ start < (readAttrs start afterBrace).stop ∧
      (readAttrs start afterBrace).stop ≤ start + 1 + afterBrace.length := by
  have hbody := length_takeWhile_drop_le (fun c => c ≠ '\x7d' ∧ c ≠ '\n') afterBrace (Nat.zero_le _)
  rw [drop_zero] at hbody
  unfold readAttrs
  dsimp only
  split
  · next hnext =>
    have hlt := lt_length_of_nextIs hnext
    dsimp only
    omega
  · dsimp only
    omega

theorem sense_readAttrs (start : Nat) (afterBrace : List Char) (s : String) :
    (readAttrs start afterBrace).sense ≠ .fault (.malformedLiteral s) := by
  unfold readAttrs
  dsimp only
  split <;> nofun

theorem tiles_block {text : List Char} {stop : Nat} {kind : TokenKind} {block : Mark}
    (hpos : 0 < stop) (hstart : block.start = stop) (hlt : stop < block.stop)
    (hle : block.stop ≤ text.length) (hsense : ∀ s, block.sense ≠ .fault (.malformedLiteral s)) :
    Reading.Tiles { more := block.stop - 1, marks := [⟨0, stop, .token kind⟩, block] } text where
  more := by
    have hmore : block.stop - 1 < text.length := by omega
    exact hmore
  marks m hm := by
    have hmore : block.stop - 1 + 1 = block.stop := by omega
    simp only [mem_cons, not_mem_nil, or_false] at hm
    rcases hm with rfl | rfl
    · exact ⟨hpos, by rw [hmore]; exact Nat.le_of_lt hlt⟩
    · exact ⟨by rw [hstart]; exact hlt, by rw [hmore]⟩
  ordered := by
    rw [pairwise_pair]
    exact fun _ _ => Nat.le_of_eq hstart.symm
  malformed m hm s hs := by
    simp only [mem_cons, not_mem_nil, or_false] at hm
    rcases hm with rfl | rfl
    · cases hs
    · exact absurd hs (hsense s)
  full i hi := by
    by_cases hi' : i < stop
    · exact ⟨_, mem_cons_self, Nat.zero_le i, hi'⟩
    · have hmore : i ≤ block.stop - 1 := hi
      exact ⟨block, mem_cons_of_mem _ (mem_singleton_self _), by omega, by omega⟩

theorem tiles_readTag (cs : List Char) : (readTag cs).Tiles ('§' :: cs) := by
  rcases readTag_cases cs with ⟨closing, rest, hlone⟩ | ⟨closing, name, behind, hwrites⟩
  · rw [hlone.readTag_eq]
    refine tiles_whole (by omega) ?_ nofun
    rw [hlone.text, length_cons, length_append]
    omega
  · have hlength : ('§' :: cs).length = 1 + (slash closing).length + name.length + behind.length := by
      rw [hwrites.text, length_cons, length_append, length_append]
      omega
    rw [hwrites.readTag_eq]
    unfold tagReading
    dsimp only
    generalize hstop : 1 + (slash closing).length + name.length = stop at hlength
    have hpos : 0 < stop := by omega
    split
    · next afterBrace =>
      obtain ⟨hstart, hlt, hle⟩ := readAttrs_bounds stop afterBrace
      refine tiles_block hpos hstart hlt ?_ (sense_readAttrs stop afterBrace)
      rw [hlength, length_cons]
      omega
    · exact tiles_tokenOf hpos (by omega)

/-! ## Strings -/

section Strings

/-- The rest of a string ends between two places, and its wrong escapes lie inside of it. -/
structure StringBody.Between (body : StringBody) (i n : Nat) : Prop where
  start : i ≤ body.stop
  stop : body.stop ≤ n
  faults : ∀ m ∈ body.faults, i ≤ m.start ∧ m.start < m.stop ∧ m.stop ≤ body.stop ∧
    ∃ e, m.sense = .fault (.invalidEscape e)

theorem StringBody.Between.mono {body : StringBody} {i j n : Nat} (h : body.Between j n) (hij : i ≤ j) :
    body.Between i n where
  start := Nat.le_trans hij h.start
  stop := h.stop
  faults m hm := ⟨Nat.le_trans hij (h.faults m hm).1, (h.faults m hm).2⟩

theorem between_readStringBody (i : Nat) (cs : List Char) :
    (readStringBody i cs).Between i (i + cs.length) := by
  have hescape (i : Nat) (c e : Char) (cs : List Char) : i + (c :: e :: cs).length =
      i + 2 + cs.length := by
    simp only [length_cons]
    omega
  fun_induction readStringBody i cs with
  | case6 i e cs _ body d _ _ _ ih =>
    have hbody : body.Between i (i + 2 + cs.length) := ih.mono (Nat.le_add_right i 2)
    rw [hescape]
    exact ⟨hbody.start, hbody.stop, hbody.faults⟩
  | case7 i e cs _ body _ _ _ ih =>
    have hbody : body.Between i (i + 2 + cs.length) := ih.mono (Nat.le_add_right i 2)
    rw [hescape]
    refine ⟨hbody.start, hbody.stop, forall_mem_cons.mpr ⟨?_, hbody.faults⟩⟩
    exact ⟨Nat.le_refl i, Nat.lt_add_of_pos_right (by decide), ih.start, e, rfl⟩
  | case8 i c cs _ _ _ body ih =>
    have hbody : body.Between i (i + 1 + cs.length) := ih.mono (Nat.le_add_right i 1)
    rw [length_cons, Nat.add_comm cs.length, ← Nat.add_assoc]
    exact ⟨hbody.start, hbody.stop, hbody.faults⟩
  | _ => constructor <;> simp

def stringMark (quote : Nat) (body : StringBody) : Mark :=
  if body.closed then ⟨0, body.stop, .token (.str (String.ofList body.value))⟩
  else ⟨quote, body.stop, .fault .unterminatedString⟩

def stringReading (quote : Nat) (body : StringBody) : Reading :=
  { more := body.stop - 1, marks := body.faults ++ [stringMark quote body] }

theorem readString_eq (quote : Nat) (afterQuote : List Char) :
    readString quote afterQuote = stringReading quote (readStringBody (quote + 1) afterQuote) := rfl

variable {text : List Char} {quote : Nat} {body : StringBody}

theorem stringMark_bounds (quote : Nat) (body : StringBody) :
    (stringMark quote body).start ≤ quote ∧ (stringMark quote body).stop = body.stop ∧
      ∀ s, (stringMark quote body).sense ≠ .fault (.malformedLiteral s) := by
  unfold stringMark
  split
  · exact ⟨Nat.zero_le _, rfl, nofun⟩
  · exact ⟨Nat.le_refl _, rfl, nofun⟩

theorem more_stringReading {n : Nat} (h : body.Between (quote + 1) n) :
    (stringReading quote body).more + 1 = body.stop :=
  Nat.sub_add_cancel (Nat.le_trans (Nat.le_add_left 1 quote) h.start)

theorem within_stringReading (h : body.Between (quote + 1) text.length) :
    (stringReading quote body).Within text := by
  have hmore := more_stringReading h
  obtain ⟨hstart, hstop, hsense⟩ := stringMark_bounds quote body
  constructor
  · exact Nat.lt_of_succ_le (Nat.le_trans (Nat.le_of_eq hmore) h.stop)
  · intro m hm
    rw [hmore]
    rcases mem_append.mp hm with hm | hm
    · exact ⟨(h.faults m hm).2.1, (h.faults m hm).2.2.1⟩
    · rw [mem_singleton.mp hm, hstop]
      exact ⟨Nat.lt_of_le_of_lt hstart h.start, Nat.le_refl _⟩
  · have hfault (m : Mark) (hm : m ∈ body.faults) : ¬ ∃ k, m.sense = .token k := by
      rintro ⟨k, hk⟩
      obtain ⟨e, he⟩ := (h.faults m hm).2.2.2
      cases hk.symm.trans he
    refine pairwise_append.mpr
      ⟨?_, pairwise_singleton _ _, fun m hm _ _ htoken => absurd htoken (hfault m hm)⟩
    exact pairwise_of_forall_mem_list fun m hm _ _ htoken => absurd htoken (hfault m hm)
  · intro m hm s hs
    rcases mem_append.mp hm with hm | hm
    · obtain ⟨e, he⟩ := (h.faults m hm).2.2.2
      cases hs.symm.trans he
    · rw [mem_singleton.mp hm] at hs
      exact absurd hs (hsense s)

theorem tiles_stringReading (h : body.Between (quote + 1) text.length)
    (hquote : quote = 0 ∨ body.closed = true) : (stringReading quote body).Tiles text := by
  have hmem : stringMark quote body ∈ (stringReading quote body).marks :=
    mem_append_right _ (mem_singleton_self _)
  refine ⟨within_stringReading h, fun i hi => ⟨stringMark quote body, hmem, ?_, ?_⟩⟩
  · have hzero : (stringMark quote body).start = 0 := by
      rcases hquote with rfl | hclosed
      · exact Nat.le_zero.mp (stringMark_bounds 0 body).1
      · rw [stringMark, if_pos hclosed]
    rw [hzero]
    exact Nat.zero_le i
  · rw [(stringMark_bounds quote body).2.1, ← more_stringReading h]
    exact Nat.lt_succ_of_le hi

theorem covers_unclosed_iff (h : body.Between (quote + 1) text.length)
    (hclosed : body.closed = false) {i : Nat} :
    (stringReading quote body).Covers i ↔ quote ≤ i ∧ i < body.stop := by
  have hmark : stringMark quote body = ⟨quote, body.stop, .fault .unterminatedString⟩ :=
    if_neg (by simp [hclosed])
  constructor
  · rintro ⟨m, hm, hstart, hstop⟩
    rcases mem_append.mp hm with hm | hm
    · have hfault := h.faults m hm
      omega
    · rw [mem_singleton.mp hm, hmark] at hstart hstop
      exact ⟨hstart, hstop⟩
  · rintro ⟨hstart, hstop⟩
    refine ⟨stringMark quote body, mem_append_right _ (mem_singleton_self _), ?_⟩
    rw [hmark]
    exact ⟨hstart, hstop⟩

theorem between_of_drop {afterQuote : List Char} (h : text.drop quote = '"' :: afterQuote) :
    (readStringBody (quote + 1) afterQuote).Between (quote + 1) text.length := by
  have hlength := congrArg List.length h
  rw [length_drop, length_cons] at hlength
  have htext : text.length = quote + 1 + afterQuote.length := by omega
  rw [htext]
  exact between_readStringBody _ _

end Strings

/-! ## Lexemes -/

/-- A string that is announced by its type and has no closing quote on its line. -/
def OpensString (text : List Char) : Prop :=
  ∃ afterQuote, text = "STR:\"".toList ++ afterQuote ∧ (readStringBody 5 afterQuote).closed = false

theorem tiles_announcedString {rest : List Char} (h : ¬ OpensString ("STR:".toList ++ rest)) :
    (readTypedString ("STR:".toList ++ rest) 4).Tiles ("STR:".toList ++ rest) := by
  unfold readTypedString
  split
  · next afterQuote hquote =>
    rw [readString_eq]
    refine tiles_stringReading (between_of_drop hquote) (.inr ?_)
    by_contra hclosed
    obtain rfl : rest = '"' :: afterQuote := hquote
    exact h ⟨afterQuote, rfl, Bool.eq_false_iff.mpr hclosed⟩
  · exact tiles_malformed (by decide) (by simp)

theorem tiles_readWord {c : Char} {cs : List Char} (hc : isNameStart c = true)
    (hopens : ¬ OpensString (c :: cs)) : (readWord (c :: cs)).Tiles (c :: cs) := by
  by_cases hstr : ∃ rest, c :: cs = "STR:".toList ++ rest
  · obtain ⟨rest, htext⟩ := hstr
    rw [htext] at hopens ⊢
    rw [readWord_string]
    exact tiles_announcedString hopens
  rw [readWord_eq]
  refine tiles_ite (fun hannounces => ?_) fun _ => ?_
  · obtain ⟨rest, htext, -⟩ := eq_of_announces hannounces
    generalize (c :: cs).takeWhile isNameChar = word at htext
    have hle : (String.ofList word).length + 1 ≤ (c :: cs).length := by
      rw [htext, length_append, length_cons, String.length_ofList]
      omega
    refine tiles_ite (fun hname => ?_) fun _ =>
      tiles_ite (fun _ => tiles_readTypedBool (Nat.succ_pos _) hle) fun _ =>
      tiles_readTypedNumber (Nat.succ_pos _) hle _
    obtain rfl : word = "STR".toList := by rw [← hname, String.toList_ofList]
    exact absurd ⟨rest, htext⟩ hstr
  · have hchar : isNameChar c = true := by
      rw [isNameStart, Bool.or_eq_true] at hc
      rw [isNameChar, isAlphanumeric, Bool.or_eq_true, Bool.or_eq_true]
      exact hc.imp .inl id
    apply tiles_tokenOf
    · rw [takeWhile_cons_of_pos hchar]
      exact Nat.succ_pos _
    · exact (List.takeWhile_prefix _).length_le

theorem OpensString.read_eq {c : Char} {cs : List Char} (h : OpensString (c :: cs)) :
    ∃ body, read c cs = stringReading 4 body ∧ body.Between 5 (c :: cs).length ∧ body.closed = false := by
  obtain ⟨afterQuote, htext, hclosed⟩ := h
  have hdrop : (c :: cs).drop 4 = '"' :: afterQuote := by rw [htext]; rfl
  refine ⟨readStringBody 5 afterQuote, ?_, between_of_drop hdrop, hclosed⟩
  obtain ⟨rfl, rfl⟩ : c = 'S' ∧ cs = 'T' :: 'R' :: ':' :: '"' :: afterQuote := cons.inj htext
  exact readWord_string ('"' :: afterQuote)

/-- A lexeme is blank or a comment, or it has findings about all its characters, or it is a string
that is announced by its type and not closed. -/
theorem read_cases (c : Char) (cs : List Char) :
    (isBlank c = true ∧ read c cs = blank 0) ∨
      (∃ rest, c :: cs = '/' :: '/' :: rest ∧ read c cs = blank (cs.takeWhile (· ≠ '\n')).length) ∨
      OpensString (c :: cs) ∨ (read c cs).Tiles (c :: cs) := by
  by_cases hopens : OpensString (c :: cs)
  · exact .inr (.inr (.inl hopens))
  unfold read
  split
  · next hblank => exact .inl ⟨hblank, rfl⟩
  split
  · next hcomment =>
    obtain ⟨d, rest, rfl, hd⟩ := nextIs_iff.mp hcomment.2
    obtain rfl : d = '/' := of_decide_eq_true hd
    exact .inr (.inl ⟨rest, by rw [hcomment.1], rfl⟩)
  refine .inr (.inr (.inr ?_))
  split
  · next hsection =>
    rw [hsection]
    exact tiles_readTag cs
  split
  · next hquote =>
    rw [hquote, readString_eq]
    exact tiles_stringReading (between_of_drop rfl) (.inl rfl)
  split
  · next hdigit => exact tiles_readNumber (nextIs_iff.mpr ⟨c, cs, rfl, hdigit⟩) _ _
  split
  · next hname => exact tiles_readWord hname hopens
  · exact tiles_readSign c cs

theorem within_read (c : Char) (cs : List Char) : (read c cs).Within (c :: cs) := by
  have hblank {n : Nat} (hn : n ≤ cs.length) : (blank n).Within (c :: cs) :=
    ⟨Nat.lt_succ_of_le hn, nofun, .nil, nofun⟩
  rcases read_cases c cs with ⟨-, hread⟩ | ⟨rest, -, hread⟩ | hopens | htiles
  · rw [hread]
    exact hblank (Nat.zero_le _)
  · rw [hread]
    exact hblank (List.takeWhile_prefix _).length_le
  · obtain ⟨body, hread, hbetween, -⟩ := hopens.read_eq
    rw [hread]
    exact within_stringReading hbetween
  · exact htiles.toWithin

end TagLang.Lexeme
