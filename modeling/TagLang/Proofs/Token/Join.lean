import TagLang.Proofs.Source.Position
import TagLang.Proofs.Token.Line

/-! # One text below another

The lexer finds in two texts, one below the other, what it finds in the first and then what it finds
in the second, further down. There is one exception. A malformed integer that is announced by its
type takes back the latest token if that is a floating-point literal, and where the second text has
no token before such an integer, the latest token is one of the first text.
-/

namespace TagLang
open List

/-! ## Further down -/

section Moving

def Position.shift (p : Position) (bytes lines : Nat) : Position :=
  ⟨p.offset + bytes, p.line + lines, p.col⟩

def Span.shift (s : Span) (bytes lines : Nat) : Span :=
  ⟨s.start + bytes, s.stop + bytes, s.line + lines, s.col⟩

def Token.shift (t : Token) (bytes lines : Nat) : Token := { t with span := t.span.shift bytes lines }

def LexError.shift (e : LexError) (bytes lines : Nat) : LexError :=
  { e with span := e.span.shift bytes lines }

def LexOutput.shift (out : LexOutput) (bytes lines : Nat) : LexOutput :=
  ⟨out.tokens.map (·.shift bytes lines), out.errors.map (·.shift bytes lines)⟩

def LexOutput.below (out : LexOutput) (first : String) : LexOutput :=
  out.shift (first.utf8ByteSize + 1) (first.toList.count '\n' + 1)

/-- What is found in a text, and then in a second one; the first one goes on, so it has no end of
input. -/
def LexOutput.followedBy (first second : LexOutput) : LexOutput :=
  ⟨first.tokens.dropLast ++ second.tokens, first.errors ++ second.errors⟩

variable (bytes lines : Nat)

theorem Position.after_shift (p : Position) (cs : List Char) :
    (p.shift bytes lines).after cs = (p.after cs).shift bytes lines := by
  induction cs generalizing p with
  | nil => rfl
  | cons c cs ih =>
    have hnext : (p.shift bytes lines).next c = (p.next c).shift bytes lines := by
      unfold Position.next
      split
      · simp only [Position.shift, Nat.add_right_comm]
      · simp only [Position.shift, Nat.add_right_comm]
    rw [Position.after_cons, hnext, ih, Position.after_cons]

theorem Position.after_line (first second : List Char) : Position.origin.after (first ++ '\n' :: second) =
    (Position.origin.after second).shift (Grammar.byteCount first + 1) (first.count '\n' + 1) := by
  have hoffset := Position.offset_after Position.origin first
  have hline := Position.line_after Position.origin first
  have hbreak : (Position.origin.after first).next '\n' =
      Position.origin.shift (Grammar.byteCount first + 1) (first.count '\n' + 1) := by
    unfold Position.next
    rw [if_pos rfl, hoffset, hline]
    simp only [Position.shift, Position.origin, Nat.add_assoc]
    rfl
  rw [Position.after_append, Position.after_cons, hbreak, Position.after_shift]

end Moving

def LexError.ofLiteral (t : Token) : LexError := ⟨.malformedLiteral t.raw, t.span⟩

def Token.IsFloat (t : Token) : Prop := ∃ value, t.kind = .float value

namespace Lexeme
open Text

section Moving

variable (bytes lines : Nat)

def Found.shift (found : Found) (bytes lines : Nat) : Found :=
  ⟨found.tokens.map (·.shift bytes lines), found.errors.map (·.shift bytes lines)⟩

variable (found : Found) (p : Position) (text : List Char)

theorem Found.shift_add (m : Mark) :
    (found.add p text m).shift bytes lines =
      (found.shift bytes lines).add (p.shift bytes lines) text m := by
  unfold Found.add
  rw [Position.after_shift]
  dsimp only
  rw [Position.after_shift]
  cases m.sense <;> rfl

theorem Found.shift_rejectFloat :
    found.rejectFloat.shift bytes lines = (found.shift bytes lines).rejectFloat := by
  obtain ⟨tokens, errors⟩ := found
  cases tokens with
  | nil => rfl
  | cons t tokens =>
    obtain ⟨kind, raw, span⟩ := t
    cases kind <;> rfl

theorem Found.shift_extend (r : Reading) :
    (found.extend p text r).shift bytes lines =
      (found.shift bytes lines).extend (p.shift bytes lines) text r := by
  have hmarks : (r.marks.foldl (Found.add p text) found).shift bytes lines =
      r.marks.foldl (Found.add (p.shift bytes lines) text) (found.shift bytes lines) := by
    induction r.marks generalizing found with
    | nil => rfl
    | cons m marks ih => rw [foldl_cons, ih, Found.shift_add, foldl_cons]
  unfold Found.extend
  dsimp only
  rw [← hmarks]
  split
  · exact Found.shift_rejectFloat bytes lines _
  · rfl

theorem Found.output_shift :
    (found.output p).shift bytes lines = (found.shift bytes lines).output (p.shift bytes lines) := by
  unfold Found.output LexOutput.shift Found.shift
  simp only [map_append, map_reverse]
  rfl

end Moving

/-! ## Integers announced by their type -/

def BeginsNumber (text : List Char) : Prop :=
  ∃ sign d rest, text = sign ++ d :: rest ∧ (sign = [] ∨ sign = ['-']) ∧ d.isDigit = true

def AnnouncesInt (text : List Char) : Prop :=
  ∃ number, text = "INT:".toList ++ number ∧ BeginsNumber number

theorem beginsNumber_iff (text : List Char) : BeginsNumber text ↔
    nextIs Char.isDigit (if nextIs (· = '-') text then text.drop 1 else text) = true := by
  constructor
  · rintro ⟨sign, d, rest, rfl, rfl | rfl, hd⟩
    · have hminus : d ≠ '-' := by
        rintro rfl
        exact absurd hd (by decide)
      simpa [nextIs, hminus] using hd
    · simpa [nextIs] using hd
  · intro h
    split at h
    · next hminus =>
      obtain ⟨c, rest, rfl, hc⟩ := nextIs_iff.mp hminus
      obtain rfl : c = '-' := of_decide_eq_true hc
      obtain ⟨d, rest, rfl, hd⟩ := nextIs_iff.mp h
      exact ⟨['-'], d, rest, rfl, .inr rfl, hd⟩
    · obtain ⟨d, rest, rfl, hd⟩ := nextIs_iff.mp h
      exact ⟨[], d, rest, rfl, .inl rfl, hd⟩

theorem integral_readNumber (text : List Char) (start : Nat) (negative floatOnly : Bool) :
    (readNumber text start negative floatOnly).integral = false := by
  have hhex (start : Nat) : (readHex text start negative).integral = false := by
    unfold readHex
    dsimp only
    split <;> rfl
  have hdecimal : (readDecimal text start negative floatOnly).integral = false := by
    unfold readDecimal
    dsimp only
    cases fraction? _ with
    | some places => dsimp only; split <;> rfl
    | none =>
      dsimp only
      split
      · rfl
      split
      · rfl
      split <;> rfl
  unfold readNumber
  split
  · split
    · exact hhex _
    · exact hdecimal
  · exact hdecimal

theorem integral_readTag (cs : List Char) : (readTag cs).integral = false := by
  rcases readTag_cases cs with ⟨closing, rest, hlone⟩ | ⟨closing, name, behind, hwrites⟩
  · rw [hlone.readTag_eq]
    rfl
  · rw [hwrites.readTag_eq]
    unfold tagReading
    dsimp only
    split <;> rfl

theorem integral_readTypedNumber {text : List Char} {start : Nat} {floatOnly : Bool} :
    (readTypedNumber text start floatOnly).integral = true ↔ floatOnly = false ∧
      BeginsNumber (text.drop start) := by
  have hfirst : text.drop (if nextIs (· = '-') (text.drop start) then start + 1 else start) =
      if nextIs (· = '-') (text.drop start) then (text.drop start).drop 1 else text.drop start := by
    split
    · rw [drop_drop]
    · rfl
  rw [beginsNumber_iff, ← hfirst]
  unfold readTypedNumber
  dsimp only
  generalize (if nextIs (· = '-') (text.drop start) then start + 1 else start) = first
  split
  · next hdigit => simp [hdigit]
  · next hdigit => simp [hdigit, malformed, whole]

theorem integral_readSign (c : Char) (cs : List Char) : (readSign c cs).integral = false := by
  unfold readSign
  split
  · rfl
  · split <;> rfl

theorem integral_readAnnounced {name : String} (hname : name ∈ ["INT", "FLOAT", "BOOL", "STR"])
    (text : List Char) :
    (readAnnounced name text).integral = true ↔ name = "INT" ∧ BeginsNumber (text.drop 4) := by
  have hstring : (readTypedString text 4).integral = false := by
    unfold readTypedString
    split <;> rfl
  have hbool : (readTypedBool text 5).integral = false := by
    unfold readTypedBool
    dsimp only
    split
    · rfl
    · split <;> rfl
  simp only [mem_cons, not_mem_nil, or_false] at hname
  rcases hname with rfl | rfl | rfl | rfl
  · exact integral_readTypedNumber.trans (and_congr_left' (by simp))
  · exact integral_readTypedNumber.trans (by simp)
  · exact iff_of_false (Bool.eq_false_iff.mp hbool) (by simp)
  · exact iff_of_false (Bool.eq_false_iff.mp hstring) (by simp)

theorem integral_read_iff (c : Char) (cs : List Char) :
    (read c cs).integral = true ↔ AnnouncesInt (c :: cs) := by
  constructor
  · intro h
    unfold read at h
    split at h
    · cases h
    split at h
    · cases h
    split at h
    · cases (integral_readTag cs).symm.trans h
    split at h
    · cases h
    split at h
    · cases (integral_readNumber (c :: cs) 0 false false).symm.trans h
    split at h
    · rw [readWord_eq] at h
      split at h
      · next hannounces =>
        obtain ⟨rest, htext, hname⟩ := eq_of_announces hannounces
        obtain ⟨hint, hnumber⟩ := (integral_readAnnounced hname _).mp h
        have hword : (c :: cs).takeWhile isNameChar = "INT".toList := by rw [← hint, String.toList_ofList]
        rw [hword] at htext
        rw [htext] at hnumber
        exact ⟨rest, htext, hnumber⟩
      · cases h
    · cases (integral_readSign c cs).symm.trans h
  · rintro ⟨number, htext, hnumber⟩
    obtain ⟨rfl, rfl⟩ : c = 'I' ∧ cs = 'N' :: 'T' :: ':' :: number := cons.inj htext
    have hname : "INT" ∈ ["INT", "FLOAT", "BOOL", "STR"] := by decide
    have hword : read 'I' ('N' :: 'T' :: ':' :: number) =
        readAnnounced "INT" ("INT".toList ++ ':' :: number) :=
      readWord_announced hname number
    rw [hword, integral_readAnnounced hname]
    exact ⟨rfl, hnumber⟩

/-! ## What a second text takes back -/

namespace Found

variable {base own joint : Found} {lost kept : List Token} {reports : List LexError}

theorem rejectFloat_of_float {t : Token} {tokens : List Token} (h : own.tokens = t :: tokens)
    (ht : t.IsFloat) : own.rejectFloat = ⟨tokens, .ofLiteral t :: own.errors⟩ := by
  obtain ⟨kind, raw, span⟩ := t
  obtain ⟨value, rfl⟩ := ht
  unfold rejectFloat
  rw [h]
  rfl

theorem rejectFloat_of_not_float (h : ∀ t, own.tokens.head? = some t → ¬ t.IsFloat) :
    own.rejectFloat = own := by
  unfold rejectFloat
  split
  · next value raw span tokens htokens =>
    rw [htokens] at h
    exact absurd ⟨value, rfl⟩ (h _ rfl)
  · rfl

def EndsInFloat (found : Found) : Prop := ∃ t, found.tokens.head? = some t ∧ t.IsFloat

/-- What is found in two texts, where `base` is found in the first, and `own` would be found in the
second alone: some tokens of the first are taken back, and their reports stand among the errors of
the second. -/
structure Joins (base own joint : Found) (lost kept : List Token) (reports : List LexError) : Prop where
  base_tokens : base.tokens = lost ++ kept
  floats : ∀ t ∈ lost, t.IsFloat
  tokens : joint.tokens = own.tokens ++ kept
  errors : joint.errors = reports ++ base.errors
  sublist : own.errors.Sublist reports
  perm : reports.Perm (own.errors ++ lost.map .ofLiteral)

namespace Joins

theorem empty (base : Found) : Joins base {} base [] base.tokens [] :=
  ⟨rfl, nofun, rfl, rfl, .slnil, .nil⟩

variable (h : Joins base own joint lost kept reports)
include h

theorem cons (tokens : List Token) (e : LexError) :
    Joins base ⟨tokens, e :: own.errors⟩ ⟨tokens ++ kept, e :: joint.errors⟩ lost kept
      (e :: reports) where
  base_tokens := h.base_tokens
  floats := h.floats
  tokens := rfl
  errors := congrArg (e :: ·) h.errors
  sublist := h.sublist.cons_cons e
  perm := h.perm.cons e

theorem add (p : Position) (text : List Char) (m : Mark) :
    ∃ reports', Joins base (own.add p text m) (joint.add p text m) lost kept reports' := by
  unfold Found.add
  cases m.sense with
  | token kind => exact ⟨reports, h.base_tokens, h.floats, congrArg (_ :: ·) h.tokens, h.errors,
    h.sublist, h.perm⟩
  | fault fault =>
    dsimp only
    rw [h.tokens]
    exact ⟨_, h.cons own.tokens _⟩

theorem foldl (p : Position) (text : List Char) (marks : List Mark) :
    ∃ reports', Joins base (marks.foldl (Found.add p text) own)
      (marks.foldl (Found.add p text) joint) lost kept reports' := by
  induction marks generalizing own joint reports with
  | nil => exact ⟨reports, h⟩
  | cons m marks ih =>
    obtain ⟨reports', hm⟩ := h.add p text m
    exact ih hm

theorem rejectFloat_own (hown : own.tokens ≠ []) :
    ∃ reports', Joins base own.rejectFloat joint.rejectFloat lost kept reports' := by
  obtain ⟨t, tokens, htokens⟩ := exists_cons_of_ne_nil hown
  have hjoint : joint.tokens = t :: (tokens ++ kept) := by rw [h.tokens, htokens, cons_append]
  by_cases ht : t.IsFloat
  · rw [rejectFloat_of_float htokens ht, rejectFloat_of_float hjoint ht]
    exact ⟨_, h.cons tokens _⟩
  · have hstays {found : Found} {behind : List Token} (htokens : found.tokens = t :: behind) :
        found.rejectFloat = found := by
      apply rejectFloat_of_not_float
      intro u hu
      rw [htokens] at hu
      cases hu
      exact ht
    rw [hstays htokens, hstays hjoint]
    exact ⟨reports, h⟩

theorem rejectFloat_base (hown : own.tokens = []) :
    ∃ lost' kept' reports', Joins base own.rejectFloat joint.rejectFloat lost' kept' reports' ∧
      (lost' = [] ↔ lost = [] ∧ ¬ base.EndsInFloat) := by
  have hjoint : joint.tokens = kept := by rw [h.tokens, hown, nil_append]
  have hstays : own.rejectFloat = own := by
    apply rejectFloat_of_not_float
    rw [hown]
    exact nofun
  rw [hstays]
  by_cases hkept : ∃ t, kept.head? = some t ∧ t.IsFloat
  · obtain ⟨t, hhead, ht⟩ := hkept
    obtain ⟨kept', rfl⟩ := head?_eq_some_iff.mp hhead
    rw [rejectFloat_of_float hjoint ht]
    refine ⟨lost ++ [t], kept', .ofLiteral t :: reports, ⟨?_, ?_, ?_, ?_, ?_, ?_⟩, ?_⟩
    · rw [h.base_tokens, append_assoc]
      rfl
    · rw [forall_mem_append, forall_mem_singleton]
      exact ⟨h.floats, ht⟩
    · rw [hown]
      rfl
    · exact congrArg (_ :: ·) h.errors
    · exact h.sublist.cons _
    · rw [map_append, ← append_assoc]
      exact (h.perm.cons _).trans (perm_append_singleton _ _).symm
    · refine iff_of_false (by simp) ?_
      rintro ⟨rfl, hends⟩
      exact hends ⟨t, by rw [h.base_tokens]; rfl, ht⟩
  · have hjstays : joint.rejectFloat = joint := by
      apply rejectFloat_of_not_float
      intro t hhead ht
      exact hkept ⟨t, by rwa [hjoint] at hhead, ht⟩
    rw [hjstays]
    refine ⟨lost, kept, reports, h, ?_, And.left⟩
    rintro rfl
    refine ⟨rfl, ?_⟩
    rintro ⟨t, hhead, ht⟩
    rw [h.base_tokens] at hhead
    exact hkept ⟨t, hhead, ht⟩

theorem reports_eq (hlost : lost = []) : reports = own.errors := by
  have hlength := h.perm.length_eq
  rw [hlost, map_nil, append_nil] at hlength
  exact (h.sublist.eq_of_length hlength.symm).symm

theorem output_eq (p : Position) :
    joint.output p = ⟨kept.reverse ++ (own.output p).tokens, base.errors.reverse ++ reports.reverse⟩ := by
  unfold Found.output
  rw [h.tokens, h.errors, reverse_append, reverse_append, append_assoc]

end Joins

/-- No token has been found, and none is in an integral lexeme. -/
structure ReachesBack (own : Found) (r : Reading) : Prop where
  tokens : own.tokens = []
  integral : r.integral = true
  faults : ∀ m ∈ r.marks, ∃ fault, m.sense = .fault fault

theorem tokens_foldl_eq_nil_iff {p : Position} {text : List Char} {marks : List Mark} :
    (marks.foldl (Found.add p text) own).tokens = [] ↔
      own.tokens = [] ∧ ∀ m ∈ marks, ∃ fault, m.sense = .fault fault := by
  induction marks generalizing own with
  | nil => simp
  | cons m marks ih =>
    rw [foldl_cons, ih, forall_mem_cons, ← and_assoc]
    refine and_congr_left' ?_
    unfold Found.add
    cases m.sense <;> simp

theorem Joins.extend (h : Joins base own joint lost kept reports) (p : Position) (text : List Char)
    (r : Reading) :
    ∃ lost' kept' reports', Joins base (own.extend p text r) (joint.extend p text r) lost' kept'
      reports' ∧ (lost' = [] ↔ lost = [] ∧ ¬ (own.ReachesBack r ∧ base.EndsInFloat)) := by
  obtain ⟨reports', hmarks⟩ := h.foldl p text r.marks
  unfold Found.extend
  dsimp only
  split
  · next hintegral =>
    by_cases htokens : (r.marks.foldl (Found.add p text) own).tokens = []
    · obtain ⟨hown, hfaults⟩ := tokens_foldl_eq_nil_iff.mp htokens
      obtain ⟨lost', kept', reports', hjoins, hlost⟩ := hmarks.rejectFloat_base htokens
      refine ⟨lost', kept', reports', hjoins, hlost.trans (and_congr_right fun _ => not_congr ?_)⟩
      exact (and_iff_right ⟨hown, hintegral, hfaults⟩).symm
    · obtain ⟨reports', hjoins⟩ := hmarks.rejectFloat_own htokens
      refine ⟨lost, kept, reports', hjoins, (and_iff_left ?_).symm⟩
      rintro ⟨hreaches, -⟩
      exact htokens (tokens_foldl_eq_nil_iff.mpr ⟨hreaches.tokens, hreaches.faults⟩)
  · next hintegral =>
    refine ⟨lost, kept, reports', hmarks, (and_iff_left ?_).symm⟩
    rintro ⟨hreaches, -⟩
    exact hintegral hreaches.integral

end Found

/-! ## Runs -/

namespace Scan

/-- The lexeme that is read next reaches back behind the beginning of the text. -/
def ReachesBack (s : Scan) : Prop := ∃ c cs, s.rest = c :: cs ∧ s.found.ReachesBack (read c cs)

/-- The lexer has come to the same place of the second text, alone and below the first text. -/
def Below (first : List Char) (base : Found) (s : Scan) (lost : List Token) : Prop :=
  ∃ joint kept reports, Run ⟨first ++ ['\n'], base, s.before ++ s.rest⟩
    ⟨first ++ '\n' :: s.before, joint, s.rest⟩ ∧
    Found.Joins base (s.found.shift (Grammar.byteCount first + 1) (first.count '\n' + 1)) joint lost
      kept reports

variable {first second : List Char} {base : Found} {s t : Scan} {lost : List Token}

theorem ReachesBack.exists_step (h : s.ReachesBack) : ∃ t, Step s t := by
  obtain ⟨before, found, rest⟩ := s
  obtain ⟨c, cs, rfl, -⟩ := h
  exact ⟨_, .read before found c cs⟩

theorem below_start (first second : List Char) (base : Found) : (start second).Below first base [] :=
  ⟨base, base.tokens, [], .refl, Found.Joins.empty base⟩

theorem Step.below (h : Step s t) (hs : s.Below first base lost) :
    ∃ lost', t.Below first base lost' ∧
      (lost' = [] ↔ lost = [] ∧ ¬ (s.ReachesBack ∧ base.EndsInFloat)) := by
  obtain ⟨joint, kept, reports, hrun, hjoins⟩ := hs
  have htext := h.text_eq
  obtain ⟨before, found, c, cs⟩ := h
  dsimp only at hrun hjoins htext
  -- Both take the same step, at places that differ by the first text.
  have hstep := Step.read (first ++ '\n' :: before) joint c cs
  obtain ⟨lost', kept', reports', hnext, hlost⟩ :=
    hjoins.extend (Position.origin.after (first ++ '\n' :: before)) (c :: cs) (Lexeme.read c cs)
  generalize joint.extend (Position.origin.after (first ++ '\n' :: before)) (c :: cs)
    (Lexeme.read c cs) = joint' at hstep hnext
  refine ⟨lost', ⟨joint', kept', reports', ?_, ?_⟩, hlost.trans ?_⟩
  · rw [← htext] at hrun
    rw [append_assoc, cons_append] at hstep
    exact hrun.tail hstep
  · dsimp only
    rw [Found.shift_extend, ← Position.after_line]
    exact hnext
  · have hreaches : ReachesBack ⟨before, found, c :: cs⟩ ↔
        (found.shift (Grammar.byteCount first + 1) (first.count '\n' + 1)).ReachesBack
          (Lexeme.read c cs) := by
      constructor
      · rintro ⟨_, _, hrest, hback⟩
        cases hrest
        exact ⟨map_eq_nil_iff.mpr hback.tokens, hback.integral, hback.faults⟩
      · intro hback
        exact ⟨c, cs, rfl, map_eq_nil_iff.mp hback.tokens, hback.integral, hback.faults⟩
    rw [hreaches]

theorem Run.below (h : s.Run t) (hs : s.Below first base lost) :
    ∃ lost', t.Below first base lost' ∧ (lost' = [] → lost = []) ∧
      ((∀ u, s.Run u → ¬ (u.ReachesBack ∧ base.EndsInFloat)) → lost = [] → lost' = []) := by
  induction h with
  | refl => exact ⟨lost, hs, id, fun _ => id⟩
  | tail hrun hstep ih =>
    obtain ⟨lost', hbelow, hback, hkeeps⟩ := ih
    obtain ⟨lost'', hnext, hlost⟩ := hstep.below hbelow
    refine ⟨lost'', hnext, fun h => hback (hlost.mp h).1, fun hnever h =>
      hlost.mpr ⟨hkeeps hnever h, hnever _ hrun⟩⟩

theorem exists_below_end (first : List Char) (base : Found) {own : Found}
    (hend : (start second).Run ⟨second, own, []⟩) :
    ∃ lost, Below first base ⟨second, own, []⟩ lost ∧
      (lost = [] ↔ ¬ (base.EndsInFloat ∧ ∃ s, (start second).Run s ∧ s.ReachesBack)) := by
  have hstart := below_start first second base
  by_cases hback : base.EndsInFloat ∧ ∃ s, (start second).Run s ∧ s.ReachesBack
  · have hback' := hback
    obtain ⟨hfloat, s, hrun, hreaches⟩ := hback'
    obtain ⟨lost, hbelow, -⟩ := hrun.below hstart
    obtain ⟨t, hstep⟩ := hreaches.exists_step
    obtain ⟨lost', hnext, hlost⟩ := hstep.below hbelow
    obtain ⟨last, hlast, hstays, -⟩ := (Run.run_end hend (hrun.tail hstep)).below hnext
    refine ⟨last, hlast, iff_of_false ?_ (not_not.mpr hback)⟩
    intro hnil
    exact (hlost.mp (hstays hnil)).2 ⟨hreaches, hfloat⟩
  · obtain ⟨lost, hbelow, -, hkeeps⟩ := hend.below hstart
    refine ⟨lost, hbelow, iff_of_true (hkeeps ?_ rfl) hback⟩
    rintro s hrun ⟨hreaches, hfloat⟩
    exact hback ⟨hfloat, s, hrun, hreaches⟩

end Scan

end Lexeme

open Lexeme

def EndsInFloat (source : String) : Prop :=
  ∃ tokens t, (lex source).tokens.dropLast = tokens ++ [t] ∧ t.IsFloat

/-- Behind no token of a text comes an announced integer that is malformed. -/
def TakesBack (source : String) : Prop :=
  ∃ s c cs, (Scan.start source.toList).Run s ∧ s.rest = c :: cs ∧ s.found.tokens = [] ∧
    AnnouncesInt (c :: cs) ∧ ∀ m ∈ (read c cs).marks, ∃ fault, m.sense = .fault fault

section Joined

variable {source : String} {found : Found}

theorem takesBack_iff (source : String) :
    TakesBack source ↔ ∃ s, (Scan.start source.toList).Run s ∧ s.ReachesBack := by
  constructor
  · rintro ⟨s, c, cs, hrun, hrest, htokens, hint, hfaults⟩
    exact ⟨s, hrun, c, cs, hrest, htokens, (integral_read_iff c cs).mpr hint, hfaults⟩
  · rintro ⟨s, hrun, c, cs, hrest, hback⟩
    exact ⟨s, c, cs, hrun, hrest, hback.tokens, (integral_read_iff c cs).mp hback.integral, hback.faults⟩

theorem dropLast_tokens_output (found : Found) (p : Position) :
    (found.output p).tokens.dropLast = found.tokens.reverse :=
  dropLast_concat

theorem endsInFloat_iff {p : Position} (h : lex source = found.output p) :
    EndsInFloat source ↔ found.EndsInFloat := by
  unfold EndsInFloat Found.EndsInFloat
  rw [h, dropLast_tokens_output, exists_comm]
  refine exists_congr fun t => ?_
  rw [exists_and_right, head?_eq_some_iff]
  refine and_congr_left' ⟨?_, ?_⟩
  · rintro ⟨tokens, htokens⟩
    exact ⟨tokens.reverse, by rw [← reverse_reverse found.tokens, htokens, reverse_concat]⟩
  · rintro ⟨tokens, htokens⟩
    exact ⟨tokens.reverse, by rw [htokens, reverse_cons]⟩

end Joined

/-- Of two texts, one below the other, the second may take back floating-point literals at the end
of the first, and report them as malformed; all else is found as in the two texts alone. This
happens exactly if the last token of the first is such a literal and the second has a malformed
announced integer behind no token of its own. -/
theorem lex_line_break (p q : String) :
    (∃ kept lost reports, (lex p).tokens.dropLast = kept ++ lost ∧ (∀ t ∈ lost, t.IsFloat) ∧
      lex (p ++ "\n" ++ q) = ⟨kept ++ ((lex q).below p).tokens, (lex p).errors ++ reports⟩ ∧
      ((lex q).below p).errors.Sublist reports ∧
        reports.Perm (((lex q).below p).errors ++ lost.map .ofLiteral)) ∧
    (lex (p ++ "\n" ++ q) = (lex p).followedBy ((lex q).below p) ↔ ¬ (EndsInFloat p ∧ TakesBack q)) := by
  obtain ⟨base, hprun, hp⟩ := Scan.exists_run_lex p
  obtain ⟨own, hqrun, hq⟩ := Scan.exists_run_lex q
  obtain ⟨lost, ⟨joint, kept, reports, hrun, hjoins⟩, hlost⟩ := Scan.exists_below_end p.toList base hqrun
  have htext : (p ++ "\n" ++ q).toList = p.toList ++ '\n' :: q.toList := by
    rw [String.toList_append, String.toList_append, append_assoc]
    rfl
  have hjoint : lex (p ++ "\n" ++ q) = joint.output
      (Position.origin.after (p.toList ++ '\n' :: q.toList)) := by
    rw [← htext]
    apply Scan.Run.lex_eq
    rw [htext]
    exact (hprun.next_line q.toList).trans (by rwa [append_nil] at hrun)
  have hbelow : (lex q).below p =
      (own.shift (Grammar.byteCount p.toList + 1) (p.toList.count '\n' + 1)).output
      (Position.origin.after (p.toList ++ '\n' :: q.toList)) := by
    rw [LexOutput.below, hq, ← byteCount_toList, Found.output_shift, Position.after_line]
  rw [hjoins.output_eq, ← hbelow] at hjoint
  have hdropLast : (lex p).tokens.dropLast = kept.reverse ++ lost.reverse := by
    rw [hp, dropLast_tokens_output, hjoins.base_tokens, reverse_append]
  have herrors : (lex p).errors = base.errors.reverse := by rw [hp]; rfl
  have hown : ((lex q).below p).errors =
      (own.shift (Grammar.byteCount p.toList + 1) (p.toList.count '\n' + 1)).errors.reverse := by
        rw [hbelow]; rfl
  rw [← herrors] at hjoint
  refine ⟨⟨kept.reverse, lost.reverse, reports.reverse, hdropLast, ?_, hjoint, ?_, ?_⟩, ?_⟩
  · intro t ht
    exact hjoins.floats t (mem_reverse.mp ht)
  · rw [hown]
    exact hjoins.sublist.reverse
  · rw [hown, map_reverse]
    exact (reverse_perm _).trans (hjoins.perm.trans
      ((reverse_perm _).symm.append (reverse_perm _).symm))
  · rw [endsInFloat_iff hp, takesBack_iff, ← hlost, hjoint, LexOutput.followedBy, hdropLast]
    constructor
    · intro h
      have htokens := append_cancel_right (congrArg LexOutput.tokens h)
      simpa using htokens
    · intro hnil
      rw [hjoins.reports_eq hnil, hnil, hown, reverse_nil, append_nil]

/-- A floating-point literal is taken back on account of the line below it. -/
theorem lex_line_break_ne : lex ("1.5" ++ "\n" ++ "INT:99999999999999999999") ≠
    (lex "1.5").followedBy ((lex "INT:99999999999999999999").below "1.5") := by decide +kernel

end TagLang
