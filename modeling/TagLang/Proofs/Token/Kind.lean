import TagLang.Token.Lex

/-! # The kinds of tokens that a text has

Only a section sign begins a tag or an attribute block. Every other lexeme is a literal, a name or a
sign, and no lexeme is the end of input: `lex` adds that one token at the end.
-/

namespace TagLang
open List

/-- Kinds of tokens that are neither part of a tag nor the end of input. -/
def isWord : TokenKind → Bool
  | .tag _ => false
  | .closeTag _ => false
  | .attrs _ => false
  | .eof => false
  | _ => true

namespace Lexeme

/-! ## Readers of words -/

/-- The characters of a name: it begins with a letter or an underscore, and is no word with a
meaning of its own. -/
structure IsName (cs : List Char) : Prop where
  chars : ∀ c ∈ cs, isNameChar c = true
  start : ∃ c ∈ cs.head?, isNameStart c = true
  word : String.ofList cs ∉ ["true", "false", "null"]

/-- A property of the lexemes that words are made of. -/
structure OfReaders (Q : Reading → Prop) : Prop where
  fault (n : Nat) (f : LexFault) : Q (whole n (.fault f))
  word {n : Nat} {k : TokenKind} : isWord k = true → (∀ name, k ≠ .ident name) → Q (tokenOf n k)
  name {n : Nat} {cs : List Char} : IsName cs → Q (tokenOf n (.ident (String.ofList cs)))
  string (quote : Nat) (cs : List Char) : Q (readString quote cs)
  integral {r : Reading} (integral : Bool) : Q r → Q { r with integral }

section Readers

variable {Q : Reading → Prop}

theorem reads_ite {c : Prop} [Decidable c] {r r' : Reading} (h : Q r) (h' : Q r') :
    Q (if c then r else r') := by
  split
  · exact h
  · exact h'

variable (hQ : OfReaders Q)
include hQ

theorem reads_malformed (text : List Char) (n : Nat) : Q (malformed text n) := hQ.fault _ _

theorem reads_readHex (text : List Char) (start : Nat) (negative : Bool) :
    Q (readHex text start negative) :=
  reads_ite (reads_malformed hQ _ _) (hQ.word rfl (by simp))

theorem reads_readDecimal (text : List Char) (start : Nat) (negative floatOnly : Bool) :
    Q (readDecimal text start negative floatOnly) := by
  refine reads_ite (reads_malformed hQ _ _) ?_
  split
  · exact hQ.word rfl (by simp)
  · exact reads_ite (hQ.word rfl (by simp)) (reads_ite (hQ.word rfl (by simp)) (reads_malformed hQ _ _))

theorem reads_readNumber (text : List Char) (start : Nat) (negative floatOnly : Bool) :
    Q (readNumber text start negative floatOnly) := by
  unfold readNumber
  split
  · exact reads_ite (reads_readHex hQ _ _ _) (reads_readDecimal hQ _ _ _ _)
  · exact reads_readDecimal hQ _ _ _ _

theorem reads_readTypedNumber (text : List Char) (start : Nat) (floatOnly : Bool) :
    Q (readTypedNumber text start floatOnly) :=
  reads_ite (hQ.integral _ (reads_readNumber hQ _ _ _ _)) (reads_malformed hQ _ _)

theorem reads_readTypedBool (text : List Char) (start : Nat) : Q (readTypedBool text start) :=
  reads_ite (hQ.word rfl (by simp)) (reads_ite (hQ.word rfl (by simp)) (reads_malformed hQ _ _))

theorem reads_readTypedString (text : List Char) (start : Nat) : Q (readTypedString text start) := by
  unfold readTypedString
  split
  · exact hQ.string _ _
  · exact reads_malformed hQ _ _

theorem reads_wordKind {word : List Char} (n : Nat) (hchars : ∀ c ∈ word, isNameChar c = true)
    (hstart : ∃ c ∈ word.head?, isNameStart c = true) :
    Q (tokenOf n (wordKind (String.ofList word))) := by
  unfold wordKind
  split
  · exact hQ.word rfl (by simp)
  split
  · exact hQ.word rfl (by simp)
  split
  · exact hQ.word rfl (by simp)
  · next htrue hfalse hnull => exact hQ.name ⟨hchars, hstart, by simp [htrue, hfalse, hnull]⟩

theorem reads_readWord {c : Char} (h : isNameStart c = true) (cs : List Char) :
    Q (readWord (c :: cs)) := by
  have hchar : isNameChar c = true := by
    simp only [isNameStart, Bool.or_eq_true] at h
    simp only [isNameChar, Text.isAlphanumeric, Bool.or_eq_true]
    exact h.imp_left Or.inl
  have hstart : ∃ c' ∈ ((c :: cs).takeWhile isNameChar).head?, isNameStart c' = true :=
    ⟨c, by simp [hchar], h⟩
  exact reads_ite
    (reads_ite (reads_readTypedNumber hQ _ _ _) (reads_ite (reads_readTypedNumber hQ _ _ _)
      (reads_ite (reads_readTypedBool hQ _ _) (reads_readTypedString hQ _ _))))
    (reads_wordKind hQ _ (all_eq_true.mp all_takeWhile) hstart)

theorem reads_readSign (c : Char) (cs : List Char) : Q (readSign c cs) := by
  have hsingle {n : Nat} {kind : TokenKind} (h : singleSign c = some kind) : Q (tokenOf n kind) := by
    unfold singleSign at h
    split at h <;> cases h <;> exact hQ.word rfl (by simp)
  have hdouble {n : Nat} {d : Char} {kind : TokenKind} (h : doubleSign c d = some kind) :
      Q (tokenOf n kind) := by
    unfold doubleSign at h
    split at h <;> cases h <;> exact hQ.word rfl (by simp)
  unfold readSign
  split
  · next kind hkind =>
    obtain ⟨d, -, hd⟩ := Option.bind_eq_some_iff.mp hkind
    exact hdouble hd
  · split
    · next hkind => exact hsingle hkind
    · exact hQ.fault _ _

theorem reads_read {c : Char} (h : c ≠ '§') (cs : List Char) :
    (∃ n, read c cs = blank n) ∨ Q (read c cs) := by
  unfold read
  split
  · exact .inl ⟨_, rfl⟩
  split
  · exact .inl ⟨_, rfl⟩
  split
  · exact .inr (hQ.string _ _)
  split
  · exact .inr (reads_readNumber hQ _ _ _ _)
  split
  · next hstart => exact .inr (reads_readWord hQ hstart _)
  · exact .inr (reads_readSign hQ _ _)

end Readers

/-! ## Kinds of tokens -/

def Reading.Kinds (P : TokenKind → Prop) (r : Reading) : Prop :=
  ∀ m ∈ r.marks, ∀ k, m.sense = .token k → P k

/-- A property of all words, of which only names need to be looked at. -/
structure OfWords (P : TokenKind → Prop) : Prop where
  word {k : TokenKind} : isWord k = true → (∀ name, k ≠ .ident name) → P k
  name {cs : List Char} : IsName cs → P (.ident (String.ofList cs))

section Words

variable {P : TokenKind → Prop}

theorem kinds_token {n : Nat} {kind : TokenKind} (h : P kind) : (tokenOf n kind).Kinds P := by
  intro m hm k hk
  rw [tokenOf, whole, mem_singleton] at hm
  subst hm
  cases hk
  exact h

theorem kinds_fault (n : Nat) (fault : LexFault) : (whole n (.fault fault)).Kinds P := by
  intro m hm k hk
  rw [whole, mem_singleton] at hm
  subst hm
  cases hk

theorem kinds_blank (n : Nat) : (blank n).Kinds P := fun _ hm => by cases hm

theorem faults_readStringBody (i : Nat) (cs : List Char) :
    ∀ m ∈ (readStringBody i cs).faults, ∀ k, m.sense ≠ .token k := by
  fun_induction readStringBody i cs with
  | case6 i e cs _ body d _ _ _ ih => exact ih
  | case7 i e cs _ body _ _ _ ih =>
    intro m hm
    rcases mem_cons.mp hm with rfl | hm
    · exact fun k hk => by cases hk
    · exact ih m hm
  | case8 i c cs _ _ _ body ih => exact ih
  | _ => simp

theorem kinds_readString (hP : OfWords P) (quote : Nat) (cs : List Char) :
    (readString quote cs).Kinds P := by
  intro m hm k hk
  rcases mem_append.mp hm with hm | hm
  · exact absurd hk (faults_readStringBody _ _ m hm k)
  · rw [mem_singleton.mp hm] at hk
    split at hk
    · cases hk
      exact hP.word rfl (by simp)
    · cases hk

theorem ofReaders_kinds (hP : OfWords P) : OfReaders (Reading.Kinds P) where
  fault := kinds_fault
  word hk hname := kinds_token (hP.word hk hname)
  name h := kinds_token (hP.name h)
  string := kinds_readString hP
  integral _ h := h

end Words

section Tags

variable {P : TokenKind → Prop} (htag : ∀ name, P (.tag name)) (hclose : ∀ name, P (.closeTag name))
  (hattrs : ∀ fields, P (.attrs fields))
include htag hclose hattrs

theorem kinds_readTag (cs : List Char) : (readTag cs).Kinds P := by
  refine reads_ite (kinds_fault _ _) ?_
  have hkind (closing : Bool) (text : String) :
      P (if closing then TokenKind.closeTag text else .tag text) := by
    cases closing
    · exact htag text
    · exact hclose text
  split
  · intro m hm k hk
    rcases mem_cons.mp hm with rfl | hm
    · exact Sense.token.inj hk ▸ hkind _ _
    · rw [mem_singleton.mp hm, readAttrs] at hk
      split at hk
      · cases hk
        exact hattrs _
      · cases hk
  · exact kinds_token (hkind _ _)

theorem kinds_read (hP : OfWords P) (c : Char) (cs : List Char) : (read c cs).Kinds P := by
  by_cases hc : c = '§'
  · subst hc
    exact kinds_readTag htag hclose hattrs cs
  · rcases reads_read (ofReaders_kinds hP) hc cs with ⟨n, hread⟩ | hread
    · rw [hread]
      exact kinds_blank n
    · exact hread

end Tags

section Texts

def Mark.token (m : Mark) (p : Position) (text : List Char) (kind : TokenKind) : Token :=
  let start := p.after (text.take m.start)
  let body := (text.drop m.start).take (m.stop - m.start)
  ⟨kind, String.ofList body, .between start (start.after body)⟩

variable {P : Token → Prop} {p : Position} {text : List Char} {found : Found}

theorem Found.add_token {m : Mark} {kind : TokenKind} (h : m.sense = .token kind) :
    found.add p text m = ⟨m.token p text kind :: found.tokens, found.errors⟩ := by
  unfold Found.add
  rw [h]
  rfl

theorem Found.tokens_add {m : Mark} (hfound : ∀ t ∈ found.tokens, P t)
    (hm : ∀ k, m.sense = .token k → P (m.token p text k)) : ∀ t ∈ (found.add p text m).tokens, P t := by
  cases hsense : m.sense with
  | token kind =>
    rw [add_token hsense]
    exact forall_mem_cons.mpr ⟨hm kind hsense, hfound⟩
  | fault fault =>
    rw [Found.add, hsense]
    exact hfound

theorem Found.tokens_extend {r : Reading} (hfound : ∀ t ∈ found.tokens, P t)
    (hr : ∀ m ∈ r.marks, ∀ k, m.sense = .token k → P (m.token p text k)) :
    ∀ t ∈ (found.extend p text r).tokens, P t := by
  have hall : ∀ t ∈ (r.marks.foldl (Found.add p text) found).tokens, P t := by
    generalize r.marks = marks at hr
    induction marks generalizing found with
    | nil => exact hfound
    | cons m marks ih =>
      obtain ⟨hm, hmarks⟩ := forall_mem_cons.mp hr
      exact ih (Found.tokens_add hfound hm) hmarks
  unfold Found.extend
  dsimp only
  split
  · unfold Found.rejectFloat
    split
    · next htokens =>
      rw [htokens] at hall
      exact fun t ht => hall t (mem_cons_of_mem _ ht)
    · exact hall
  · exact hall

theorem tokens_lexFrom
    (hread : ∀ p c cs, ∀ m ∈ (read c cs).marks, ∀ k, m.sense = .token k → P (m.token p (c :: cs) k))
    (p : Position) (found : Found) (text : List Char) (hfound : ∀ t ∈ found.tokens, P t) :
    ∃ init span, (lexFrom p found text).tokens = init ++ [.eofAt span] ∧ ∀ t ∈ init, P t := by
  fun_induction lexFrom p found text with
  | case1 p found =>
    refine ⟨found.tokens.reverse, .between p p, reverse_cons, ?_⟩
    intro t ht
    exact hfound t (mem_reverse.mp ht)
  | case2 p found c cs r ih => exact ih (Found.tokens_extend hfound (hread p c cs))

end Texts

end Lexeme

theorem kinds_lex {P : TokenKind → Prop} (hread : ∀ c cs, (Lexeme.read c cs).Kinds P) (source : String) :
    ∃ init span, (lex source).tokens = init ++ [.eofAt span] ∧ ∀ t ∈ init, P t.kind :=
  Lexeme.tokens_lexFrom (P := fun t => P t.kind) (fun _ c cs => hread c cs) _ _ _ fun _ h => by cases h

theorem ended_tokens_lex (source : String) :
    ∃ init span, (lex source).tokens = init ++ [.eofAt span] ∧ ∀ t ∈ init, t.kind ≠ .eof := by
  refine kinds_lex (P := (· ≠ .eof))
    (Lexeme.kinds_read (fun _ => ?_) (fun _ => ?_) (fun _ => ?_) ?_) source
  · exact TokenKind.noConfusion
  · exact TokenKind.noConfusion
  · exact TokenKind.noConfusion
  · refine ⟨fun {k} hk _ heof => ?_, fun _ => TokenKind.noConfusion⟩
    rw [heof] at hk
    cases hk

end TagLang
