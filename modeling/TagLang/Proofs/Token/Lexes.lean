import TagLang.Proofs.Token.Kind
import TagLang.Proofs.Token.Section

/-! # Texts without a fault

`Lexes p text ts` says that a text that begins at `p` is a sequence of faultless lexemes with the
tokens `ts`. It is what `lex` finds when it reports nothing, without what was found before. The
kinds of the tokens do not depend on where the text stands.
-/

namespace TagLang.Lexeme
open Text List

abbrev kinds (ts : List Token) : List TokenKind := ts.map Token.kind

inductive Finds (p : Position) (text : List Char) : List Mark → List Token → Prop
  | nil : Finds p text [] []
  | cons {m : Mark} {kind : TokenKind} {ms : List Mark} {ts : List Token} : m.sense = .token kind →
    Finds p text ms ts → Finds p text (m :: ms) (m.token p text kind :: ts)

/-- A lexeme of the text that begins at `p` has no fault, and some tokens. -/
structure Reading.Yields (r : Reading) (p : Position) (text : List Char) (ts : List Token) : Prop where
  finds : Finds p text r.marks ts
  integral : r.integral = true → ∃ kind, (kinds ts).getLast? = some kind ∧ ∀ value, kind ≠ .float value

inductive Lexes : Position → List Char → List Token → Prop
  | nil (p : Position) : Lexes p [] []
  | cons {p : Position} {c : Char} {cs : List Char} {ts ts' : List Token} :
    (read c cs).Yields p (c :: cs) ts →
    Lexes (p.after (c :: cs.take (read c cs).more)) (cs.drop (read c cs).more) ts' →
    Lexes p (c :: cs) (ts ++ ts')

theorem kinds_append (a b : List Token) : kinds (a ++ b) = kinds a ++ kinds b := map_append

/-! ## What is found in a text -/

section Found

variable {p : Position} {text : List Char} {found : Found} {ts : List Token}

theorem Finds.foldl {marks : List Mark} (h : Finds p text marks ts) (found : Found) :
    marks.foldl (Found.add p text) found = ⟨ts.reverse ++ found.tokens, found.errors⟩ := by
  induction h generalizing found with
  | nil => rfl
  | cons hm _ ih =>
    rw [foldl_cons, Found.add_token hm, ih, reverse_cons, append_assoc]
    rfl

theorem finds_of_foldl {marks : List Mark} (h : (marks.foldl (Found.add p text) found).errors = []) :
    found.errors = [] ∧ ∃ ts, Finds p text marks ts := by
  induction marks generalizing found with
  | nil => exact ⟨h, [], .nil⟩
  | cons m ms ih =>
    obtain ⟨hnone, ts, hts⟩ := ih h
    cases hm : m.sense with
    | token kind =>
      rw [Found.add_token hm] at hnone
      exact ⟨hnone, _, .cons hm hts⟩
    | fault f =>
      rw [Found.add, hm] at hnone
      cases hnone

theorem marks_of_integral {c : Char} {cs : List Char} (h : (read c cs).integral = true) :
    (read c cs).marks ≠ [] := by
  have hQ : OfReaders fun r => r.marks ≠ [] := by
    refine ⟨fun _ _ => ?_, fun _ _ => ?_, fun _ => ?_, fun _ _ => ?_, fun _ h => h⟩
    · exact cons_ne_nil _ _
    · exact cons_ne_nil _ _
    · exact cons_ne_nil _ _
    · exact append_ne_nil_of_right_ne_nil _ (cons_ne_nil _ _)
  by_cases hc : c = '§'
  · subst hc
    have htag : (readTag cs).marks ≠ [] := by
      refine reads_ite (Q := fun r => r.marks ≠ []) (cons_ne_nil _ _) ?_
      split
      · exact cons_ne_nil _ _
      · exact cons_ne_nil _ _
    exact htag
  · rcases reads_read hQ hc cs with ⟨n, hread⟩ | hread
    · rw [hread] at h
      cases h
    · exact hread

theorem rejectFloat_of_last {t : Token} (tokens : List Token) (htokens : found.tokens = t :: tokens)
    (ht : ∀ value, t.kind ≠ .float value) : found.rejectFloat = found := by
  unfold Found.rejectFloat
  split
  · next value raw span rest heq =>
    rw [htokens] at heq
    exact absurd (congrArg Token.kind (cons.inj heq).1) (ht value)
  · rfl

theorem Reading.Yields.extend {r : Reading} (h : r.Yields p text ts) (found : Found) :
    found.extend p text r = ⟨ts.reverse ++ found.tokens, found.errors⟩ := by
  unfold Found.extend
  rw [h.finds.foldl found]
  dsimp only
  split
  · next hintegral =>
    obtain ⟨kind, hlast, hkind⟩ := h.integral hintegral
    rw [getLast?_map, Option.map_eq_some_iff] at hlast
    obtain ⟨t, hlast, rfl⟩ := hlast
    obtain ⟨init, rfl⟩ := getLast?_eq_some_iff.mp hlast
    exact rejectFloat_of_last (init.reverse ++ found.tokens) (by simp) hkind
  · rfl

theorem last_of_rejectFloat (h : found.rejectFloat.errors = []) :
    found.errors = [] ∧ ∀ t tokens, found.tokens = t :: tokens → ∀ value, t.kind ≠ .float value := by
  unfold Found.rejectFloat at h
  split at h
  · cases h
  · next hkind =>
    refine ⟨h, fun t tokens htokens value hvalue => ?_⟩
    obtain ⟨kind, raw, span⟩ := t
    cases hvalue
    exact hkind value raw span tokens htokens

theorem yields_of_extend {c : Char} {cs : List Char}
    (h : (found.extend p (c :: cs) (read c cs)).errors = []) :
    found.errors = [] ∧ ∃ ts, (read c cs).Yields p (c :: cs) ts := by
  unfold Found.extend at h
  dsimp only at h
  split at h
  · next hintegral =>
    obtain ⟨hnone, hlast⟩ := last_of_rejectFloat h
    obtain ⟨hbefore, ts, hts⟩ := finds_of_foldl hnone
    rw [hts.foldl found] at hlast
    refine ⟨hbefore, ts, hts, fun _ => ?_⟩
    have hne : ts ≠ [] := by
      rintro rfl
      cases hmarks : (read c cs).marks with
      | nil => exact marks_of_integral hintegral hmarks
      | cons m ms =>
        rw [hmarks] at hts
        cases hts
    refine ⟨(ts.getLast hne).kind, ?_, hlast _ (ts.dropLast.reverse ++ found.tokens) ?_⟩
    · rw [getLast?_map, getLast?_eq_some_getLast hne]
      rfl
    · rw [← cons_append, ← reverse_concat, dropLast_concat_getLast]
  · next hintegral =>
    obtain ⟨hbefore, ts, hts⟩ := finds_of_foldl h
    exact ⟨hbefore, ts, hts, fun h => absurd h hintegral⟩

theorem Lexes.lexFrom_eq (h : Lexes p text ts) (found : Found) :
    ∃ span, lexFrom p found text =
      ⟨found.tokens.reverse ++ (ts ++ [.eofAt span]), found.errors.reverse⟩ := by
  induction h generalizing found with
  | nil p =>
    refine ⟨.between p p, ?_⟩
    rw [lexFrom, reverse_cons]
    rfl
  | cons hread _ ih =>
    obtain ⟨span, hrest⟩ := ih (found.extend _ _ _)
    refine ⟨span, ?_⟩
    rw [lexFrom, hrest, hread.extend found]
    simp [append_assoc]

theorem lexes_of_errors (h : (lexFrom p found text).errors = []) :
    found.errors = [] ∧ ∃ ts, Lexes p text ts := by
  fun_induction lexFrom p found text with
  | case1 p found => exact ⟨reverse_eq_nil_iff.mp h, [], .nil p⟩
  | case2 p found c cs r ih =>
    obtain ⟨hnone, ts', hrest⟩ := ih h
    obtain ⟨hbefore, ts, hts⟩ := yields_of_extend hnone
    exact ⟨hbefore, ts ++ ts', .cons hts hrest⟩

theorem Lexes.lex_eq (h : Lexes .origin text ts) :
    ∃ span, lex (String.ofList text) = ⟨ts ++ [.eofAt span], []⟩ := by
  rw [lex, String.toList_ofList]
  exact h.lexFrom_eq {}

theorem lexes_lex {source : String} {pre post : List Token} {x : Token} (h : (lex source).errors = [])
    (htokens : (lex source).tokens = pre ++ x :: post) (hx : x.kind ≠ .eof) :
    ∃ post' span, post = post' ++ [.eofAt span] ∧ Lexes .origin source.toList (pre ++ x :: post') := by
  obtain ⟨-, ts, hts⟩ := lexes_of_errors h
  obtain ⟨span, hlex⟩ := hts.lex_eq
  rw [String.ofList_toList] at hlex
  rw [hlex] at htokens
  rcases eq_nil_or_concat post with rfl | ⟨post', last, rfl⟩
  · obtain ⟨-, hlast⟩ := append_inj' htokens rfl
    obtain ⟨rfl, -⟩ := cons.inj hlast
    exact absurd rfl hx
  · rw [concat_eq_append] at htokens ⊢
    obtain ⟨rfl, hlast⟩ := append_inj' (htokens.trans (append_assoc pre (x :: post') [last]).symm) rfl
    obtain ⟨rfl, -⟩ := cons.inj hlast
    exact ⟨post', span, rfl, hts⟩

end Found

/-! ## Other places, other texts behind -/

section Places

variable {text : List Char} {ts : List Token} {p : Position}

theorem Finds.move {marks : List Mark} (h : Finds p text marks ts) (q : Position)
    (text' : List Char) : ∃ ts', Finds q text' marks ts' ∧ kinds ts' = kinds ts := by
  induction h with
  | nil => exact ⟨[], .nil, rfl⟩
  | @cons m kind _ ts hm _ ih =>
    obtain ⟨ts', hts', hkinds⟩ := ih
    exact ⟨m.token q text' kind :: ts', .cons hm hts', congrArg (kind :: ·) hkinds⟩

theorem Reading.Yields.move {r : Reading} (h : r.Yields p text ts) (q : Position)
    (text' : List Char) : ∃ ts', r.Yields q text' ts' ∧ kinds ts' = kinds ts := by
  obtain ⟨ts', hts', hkinds⟩ := h.finds.move q text'
  exact ⟨ts', ⟨hts', hkinds ▸ h.integral⟩, hkinds⟩

theorem Lexes.move (h : Lexes p text ts) (q : Position) :
    ∃ ts', Lexes q text ts' ∧ kinds ts' = kinds ts := by
  induction h generalizing q with
  | nil => exact ⟨[], .nil q, rfl⟩
  | @cons p c cs _ _ hread _ ih =>
    obtain ⟨ts, hts, hkinds⟩ := hread.move q (c :: cs)
    obtain ⟨ts', hts', hkinds'⟩ := ih (q.after (c :: cs.take (read c cs).more))
    exact ⟨ts ++ ts', .cons hts hts', by rw [kinds_append, kinds_append, hkinds, hkinds']⟩

end Places

/-! ## Attribute blocks in a text -/

section Blocks

variable {p : Position} {text : List Char} {ts : List Token}

theorem Finds.unique {marks : List Mark} {ts ts' : List Token} (h : Finds p text marks ts)
    (h' : Finds p text marks ts') : ts' = ts := by
  induction h generalizing ts' with
  | nil =>
    cases h'
    rfl
  | cons hm _ ih =>
    cases h' with
    | cons hm' h' =>
      obtain rfl := Sense.token.inj (hm.symm.trans hm')
      rw [ih h']

theorem Finds.kinds {marks : List Mark} (h : Finds p text marks ts) :
    ∀ t ∈ ts, ∃ m ∈ marks, m.sense = .token t.kind := by
  induction h with
  | nil => simp
  | @cons m kind ms ts hm _ ih =>
    intro t ht
    rcases mem_cons.mp ht with rfl | ht
    · exact ⟨m, mem_cons_self, hm⟩
    · obtain ⟨m', hm', hsense⟩ := ih t ht
      exact ⟨m', mem_cons_of_mem _ hm', hsense⟩

theorem Finds.token_mem {marks : List Mark} (h : Finds p text marks ts) {m : Mark} (hm : m ∈ marks)
    {kind : TokenKind} (hsense : m.sense = .token kind) : m.token p text kind ∈ ts := by
  induction h with
  | nil => cases hm
  | cons hm' _ ih =>
    rcases mem_cons.mp hm with rfl | hm
    · obtain rfl := Sense.token.inj (hsense.symm.trans hm')
      exact mem_cons_self
    · exact mem_cons_of_mem _ (ih hm)

theorem eq_section {c : Char} {cs : List Char} {m : Mark} (hm : m ∈ (read c cs).marks)
    {fields : List String} (hsense : m.sense = .token (.attrs fields)) : c = '§' := by
  by_contra hc
  have hwords : OfWords fun k => ∀ fields, k ≠ .attrs fields := by
    refine ⟨fun {k} hk _ fields hattrs => ?_, fun _ _ => TokenKind.noConfusion⟩
    rw [hattrs] at hk
    cases hk
  rcases reads_read (ofReaders_kinds hwords) hc cs with ⟨n, hread⟩ | hread
  · rw [hread] at hm
    cases hm
  · exact hread m hm _ hsense fields rfl

theorem Reading.Yields.eq_section {c : Char} {cs : List Char}
    (h : (read c cs).Yields p (c :: cs) ts) {x : Token} (hx : x ∈ ts) {fields : List String}
    (hk : x.kind = .attrs fields) : c = '§' := by
  obtain ⟨m, hm, hsense⟩ := h.finds.kinds x hx
  exact Lexeme.eq_section hm (hk ▸ hsense)

theorem Mark.token_append {m : Mark} (as bs cs : List Char) {kind : TokenKind}
    (hstart : m.start = as.length) (hstop : m.stop = as.length + bs.length) :
    m.token p (as ++ (bs ++ cs)) kind =
      ⟨kind, String.ofList bs, .between (p.after as) ((p.after as).after bs)⟩ := by
  unfold Mark.token
  rw [hstart, hstop, take_left, drop_left, Nat.add_sub_cancel_left]
  dsimp only
  rw [take_left]

def tagToken (p : Position) (closing : Bool) (name : List Char) : Token where
  kind := tagKind closing name
  raw := String.ofList ('§' :: (slash closing ++ name))
  span := .between p (p.after ('§' :: (slash closing ++ name)))

def blockToken (p : Position) (body : List Char) : Token where
  kind := .attrs (attrFields body)
  raw := String.ofList ('\x7b' :: (body ++ ['\x7d']))
  span := .between p (p.after ('\x7b' :: (body ++ ['\x7d'])))

def PlainBody (body : List Char) : Prop := ∀ c ∈ body, c ≠ '\x7d' ∧ c ≠ '\n'

theorem WritesTag.yields {cs name body tail : List Char} {closing : Bool}
    (h : WritesTag cs closing name ('\x7b' :: (body ++ '\x7d' :: tail))) (hbody : PlainBody body)
    (p : Position) :
    (readTag cs).Yields p ('§' :: cs)
      [tagToken p closing name, blockToken (p.after ('§' :: (slash closing ++ name))) body] ∧
      cs.take (readTag cs).more = slash closing ++ (name ++ '\x7b' :: (body ++ ['\x7d'])) ∧
        cs.drop (readTag cs).more = tail := by
  have hread : readTag cs = { more := 1 + (slash closing).length + name.length + 1 + body.length, marks :=
      [⟨0, 1 + (slash closing).length + name.length, .token (tagKind closing name)⟩,
        ⟨1 + (slash closing).length + name.length,
          1 + (slash closing).length + name.length + 1 + body.length + 1,
          .token (.attrs (attrFields body))⟩] } := by
    rw [h.readTag_eq, tagReading, readAttrs_eq hbody]
    rfl
  have hcs : cs = slash closing ++ (name ++ '\x7b' :: (body ++ ['\x7d'])) ++ tail := by
    rw [h.text]
    simp only [append_assoc, cons_append, nil_append]
  have hmore : (readTag cs).more = (slash closing ++ (name ++ '\x7b' :: (body ++ ['\x7d']))).length := by
    rw [hread]
    simp only [length_append, length_cons, length_nil]
    omega
  have htext : '§' :: cs = '§' :: (slash closing ++ name) ++ ('\x7b' :: (body ++ ['\x7d']) ++ tail) := by
    rw [hcs]
    simp only [append_assoc, cons_append, nil_append]
  refine ⟨⟨?_, fun hintegral => ?_⟩, ?_, ?_⟩
  · have htag : Mark.token
        ⟨0, 1 + (slash closing).length + name.length, .token (tagKind closing name)⟩ p ('§' :: cs)
        (tagKind closing name) = tagToken p closing name := by
      rw [htext]
      refine Mark.token_append [] ('§' :: (slash closing ++ name)) _ rfl ?_
      simp only [length_nil, length_cons, length_append]
      omega
    have hblock : Mark.token ⟨1 + (slash closing).length + name.length,
        1 + (slash closing).length + name.length + 1 + body.length + 1,
          .token (.attrs (attrFields body))⟩ p ('§' :: cs)
        (.attrs (attrFields body)) = blockToken (p.after ('§' :: (slash closing ++ name))) body := by
      rw [htext]
      refine Mark.token_append ('§' :: (slash closing ++ name)) ('\x7b' :: (body ++ ['\x7d'])) tail ?_ ?_
      · simp only [length_cons, length_append]
        omega
      · simp only [length_cons, length_append, length_nil]
        omega
    rw [hread, ← htag, ← hblock]
    exact .cons rfl (.cons rfl .nil)
  · rw [hread] at hintegral
    cases hintegral
  · rw [hmore]
    exact (congrArg (List.take _) hcs).trans take_left
  · rw [hmore]
    exact (congrArg (List.drop _) hcs).trans drop_left

theorem yields_readTag {cs : List Char} (h : (readTag cs).Yields p ('§' :: cs) ts) :
    (∃ t closing name, ts = [t] ∧ t.kind = tagKind closing name) ∨
      ∃ closing name body tail, WritesTag cs closing name ('\x7b' :: (body ++ '\x7d' :: tail)) ∧
        PlainBody body ∧
        ts = [tagToken p closing name, blockToken (p.after ('§' :: (slash closing ++ name))) body] := by
  rcases readTag_cases cs with ⟨closing, rest, hlone⟩ | ⟨closing, name, behind, hwrites⟩
  · have hfinds := h.finds
    rw [hlone.readTag_eq] at hfinds
    rcases hfinds with _ | ⟨hm, -⟩
    cases hm
  · have hfinds := h.finds
    rw [hwrites.readTag_eq] at hfinds
    unfold tagReading at hfinds
    dsimp only at hfinds
    split at hfinds
    · next afterBrace =>
      right
      rcases hfinds with _ | ⟨-, hfinds⟩
      rcases hfinds with _ | ⟨hm, -⟩
      obtain ⟨body, tail, rfl, hbody, -⟩ := readAttrs_token hm
      exact ⟨closing, name, body, tail, hwrites, hbody, (hwrites.yields hbody p).1.finds.unique h.finds⟩
    · left
      rcases hfinds with _ | ⟨hm, hfinds⟩
      cases hfinds
      cases hm
      exact ⟨_, closing, name, rfl, rfl⟩

theorem kind_tagKind (closing : Bool) (name : List Char) (fields : List String) :
    tagKind closing name ≠ .attrs fields := by
  cases closing <;> exact TokenKind.noConfusion

theorem readTag_block {cs : List Char} {m : Mark} (hm : m ∈ (readTag cs).marks)
    {fields : List String} (hsense : m.sense = .token (.attrs fields)) :
    ∃ closing name body tail, WritesTag cs closing name ('\x7b' :: (body ++ '\x7d' :: tail)) ∧
      PlainBody body := by
  rcases readTag_cases cs with ⟨closing, rest, hlone⟩ | ⟨closing, name, behind, hwrites⟩
  · rw [hlone.readTag_eq] at hm
    rw [mem_singleton.mp hm] at hsense
    cases hsense
  · have htag : Sense.token (tagKind closing name) ≠ .token (.attrs fields) :=
      fun h => kind_tagKind closing name fields (Sense.token.inj h)
    rw [hwrites.readTag_eq] at hm
    unfold tagReading at hm
    dsimp only at hm
    split at hm
    · rcases mem_cons.mp hm with rfl | hm
      · exact absurd hsense htag
      · rw [mem_singleton.mp hm] at hsense
        obtain ⟨body, tail, rfl, hbody, -⟩ := readAttrs_token hsense
        exact ⟨closing, name, body, tail, hwrites, hbody⟩
    · rw [mem_singleton.mp hm] at hsense
      exact absurd hsense htag

/-- An attribute block holds its fields between its braces, also in a text with faults. -/
theorem exists_blockToken {source : String} {x : Token} {fields : List String}
    (hx : x ∈ (lex source).tokens) (hk : x.kind = .attrs fields) :
    ∃ p body, PlainBody body ∧ x = blockToken p body := by
  obtain ⟨init, span, htokens, hinit⟩ := tokens_lexFrom
    (P := fun t => ∀ fields, t.kind = .attrs fields → ∃ p body, PlainBody body ∧ t = blockToken p body)
    (fun p c cs m hm k hsense fields hk => by
      obtain rfl : k = .attrs fields := hk
      obtain rfl := eq_section hm hsense
      obtain ⟨closing, name, body, tail, hwrites, hbody⟩ := readTag_block hm hsense
      refine ⟨_, body, hbody, (mem_cons.mp
        ((hwrites.yields hbody p).1.finds.token_mem hm hsense)).elim ?_ mem_singleton.mp⟩
      exact fun heq => absurd (congrArg Token.kind heq).symm (kind_tagKind closing name fields))
    .origin {} source.toList (forall_mem_nil _)
  rw [lex, htokens] at hx
  rcases mem_append.mp hx with hx | hx
  · exact hinit x hx fields hk
  · rw [mem_singleton.mp hx] at hk
    cases hk

theorem Lexes.head {t : Token} (h : Lexes p text (t :: ts)) (fields : List String) :
    t.kind ≠ .attrs fields := by
  generalize hts : t :: ts = us at h
  induction h with
  | nil => cases hts
  | @cons p c cs us us' hread _ ih =>
    cases us with
    | nil => exact ih hts
    | cons u us =>
      obtain ⟨rfl, -⟩ := cons.inj hts
      intro hk
      obtain rfl := hread.eq_section mem_cons_self hk
      rcases yields_readTag hread with
        ⟨t', closing, name, hone, htag⟩ | ⟨closing, name, body, tail, -, -, htwo⟩
      · obtain ⟨rfl, -⟩ := cons.inj hone
        exact kind_tagKind closing name fields (htag.symm.trans hk)
      · obtain ⟨rfl, -⟩ := cons.inj htwo
        exact kind_tagKind closing name fields hk

end Blocks

/-! ## Another text behind a section sign -/

section Splice

variable {p : Position} {fields : List String} {pre post : List Token} {text : List Char} {c x : Token}

/-- A text that has the tokens `pre` before a section sign, whatever follows the sign. -/
def Precedes (p : Position) (front : List Char) (pre : List Token) : Prop :=
  ∀ cs ts, Lexes (p.after front) ('§' :: cs) ts → ∃ pre', kinds pre' = kinds pre ∧
    Lexes p (front ++ '§' :: cs) (pre' ++ ts)

theorem Precedes.cons {c : Char} {front cs : List Char} {pre ts : List Token}
    (hread : (read c (front ++ '§' :: cs)).Yields p (c :: (front ++ '§' :: cs)) ts)
    (hmore : (read c (front ++ '§' :: cs)).more ≤ front.length)
    (h : Precedes (p.after (c :: front.take (read c (front ++ '§' :: cs)).more))
      (front.drop (read c (front ++ '§' :: cs)).more) pre) : Precedes p (c :: front) (ts ++ pre) := by
  intro cs' ts' hrest
  have hsame := read_goesOn (.sign cs cs') hmore
  obtain ⟨us, hus, hkinds⟩ := hread.move p (c :: (front ++ '§' :: cs'))
  have hfront : p.after (c :: front) =
      (p.after (c :: front.take (read c (front ++ '§' :: cs)).more)).after
        (front.drop (read c (front ++ '§' :: cs)).more) := by
    rw [← Position.after_append, cons_append, take_append_drop]
  rw [hfront] at hrest
  obtain ⟨pre', hpre', hlexes⟩ := h cs' ts' hrest
  refine ⟨us ++ pre', by rw [kinds_append, kinds_append, hkinds, hpre'], ?_⟩
  rw [append_assoc, cons_append]
  refine .cons ?_ ?_
  · rw [hsame]
    exact hus
  · rw [hsame, drop_append_of_le_length hmore, take_append_of_le_length hmore]
    exact hlexes

/-- An attribute block stands behind a section sign at the end of a text that precedes it. -/
theorem Lexes.cut (h : Lexes p text (pre ++ c :: x :: post)) (hx : x.kind = .attrs fields) :
    ∃ front cs, text = front ++ '§' :: cs ∧ Precedes p front pre ∧
      (readTag cs).Yields (p.after front) ('§' :: cs) [c, x] ∧
      Lexes ((p.after front).after ('§' :: cs.take (readTag cs).more)) (cs.drop (readTag cs).more)
        post := by
  generalize hts : pre ++ c :: x :: post = us at h
  induction h generalizing pre with
  | nil => simp at hts
  | @cons p a as us us' hread hrest ih =>
    -- Either the block is in the lexemes behind this one, or it belongs to this one.
    have hlater {pre' : List Token} (hpre : pre = us ++ pre') (hus' : pre' ++ c :: x :: post = us') :
        ∃ front cs, a :: as = front ++ '§' :: cs ∧ Precedes p front pre ∧
          (readTag cs).Yields (p.after front) ('§' :: cs) [c, x] ∧
          Lexes ((p.after front).after ('§' :: cs.take (readTag cs).more))
            (cs.drop (readTag cs).more) post := by
      obtain ⟨front, cs, htext, hbefore, htag, hbehind⟩ := ih hus'
      have hshort : (read a as).more ≤ as.length := by
        have hlength := congrArg List.length htext
        rw [length_drop, length_append, length_cons] at hlength
        omega
      obtain ⟨taken, has, htaken⟩ : ∃ taken, as = taken ++ front ++ '§' :: cs ∧
          taken.length = (read a as).more := by
        refine ⟨as.take (read a as).more, ?_, by rw [length_take, Nat.min_eq_left hshort]⟩
        rw [append_assoc, ← htext, take_append_drop]
      subst has hpre
      have hmore : (read a (taken ++ front ++ '§' :: cs)).more ≤ (taken ++ front).length := by
        rw [← htaken, length_append]
        exact Nat.le_add_right _ _
      have htake : (taken ++ front ++ '§' :: cs).take (read a (taken ++ front ++ '§' :: cs)).more =
          taken := by
        rw [take_append_of_le_length hmore, ← htaken, take_left]
      have hafter : p.after (a :: (taken ++ front)) = (p.after (a :: taken)).after front := by
        rw [← Position.after_append, cons_append]
      rw [htake] at hbefore htag hbehind
      refine ⟨a :: (taken ++ front), cs, rfl, .cons hread hmore ?_, ?_, ?_⟩
      · rw [← htaken, take_left, drop_left]
        exact hbefore
      · rw [hafter]
        exact htag
      · rw [hafter]
        exact hbehind
    rcases append_eq_append_iff.mp hts with ⟨mid, hus, hmid⟩ | ⟨mid, hpre, hmid⟩
    · match mid with
      | [] => exact hlater (by rw [hus, append_nil, append_nil]) hmid
      | [t] =>
        obtain ⟨rfl, rfl⟩ := cons.inj hmid
        exact absurd hx (hrest.head fields)
      | t :: u :: mid =>
        obtain ⟨rfl, htail⟩ := cons.inj hmid
        obtain ⟨rfl, hpost⟩ := cons.inj htail
        obtain rfl := hread.eq_section (by rw [hus]; simp) hx
        have hlength := congrArg List.length hus
        rw [length_append, length_cons, length_cons] at hlength
        rcases yields_readTag hread with ⟨_, _, _, hone, -⟩ | ⟨_, _, _, _, -, -, htwo⟩
        · rw [hone, length_singleton] at hlength
          omega
        · rw [htwo, length_cons, length_singleton] at hlength
          obtain rfl : pre = [] := eq_nil_of_length_eq_zero (by omega)
          obtain rfl : mid = [] := eq_nil_of_length_eq_zero (by omega)
          subst hus hpost
          exact ⟨[], as, rfl, fun cs ts hts => ⟨[], rfl, hts⟩, hread, hrest⟩
    · exact hlater hpre hmid.symm

/-- Another body in an attribute block changes no other token but in its place. -/
theorem Lexes.replace_body (h : Lexes p text (pre ++ c :: x :: post)) (hx : x.kind = .attrs fields) :
    ∃ before body tail, text = before ++ '\x7b' :: (body ++ '\x7d' :: tail) ∧ PlainBody body ∧
      x = blockToken (p.after before) body ∧ ∀ other, PlainBody other → ∃ pre' c' post',
        Lexes p (before ++ '\x7b' :: (other ++ '\x7d' :: tail))
          (pre' ++ c' :: blockToken (p.after before) other :: post') ∧
          kinds pre' = kinds pre ∧ c'.kind = c.kind ∧ kinds post' = kinds post := by
  obtain ⟨front, cs, htext, hbefore, htag, hpost⟩ := h.cut hx
  rcases yields_readTag htag with ⟨_, _, _, hone, -⟩ | ⟨closing, name, body, tail, hwrites, hbody, htwo⟩
  · cases hone
  obtain ⟨rfl, hblock⟩ := cons.inj htwo
  obtain ⟨rfl, -⟩ := cons.inj hblock
  have hbrace (body : List Char) : front ++ '§' ::
      (slash closing ++ (name ++ '\x7b' :: (body ++ '\x7d' :: tail))) =
      front ++ '§' :: (slash closing ++ name) ++ '\x7b' :: (body ++ '\x7d' :: tail) := by
    simp only [append_assoc, cons_append]
  have hafter : p.after (front ++ '§' :: (slash closing ++ name)) =
      (p.after front).after ('§' :: (slash closing ++ name)) :=
    Position.after_append ..
  refine ⟨front ++ '§' :: (slash closing ++ name), body, tail, ?_, hbody, by rw [hafter],
    fun other hother => ?_⟩
  · rw [htext, hwrites.text, hbrace]
  have hother' : WritesTag (slash closing ++ (name ++ '\x7b' :: (other ++ '\x7d' :: tail))) closing name
      ('\x7b' :: (other ++ '\x7d' :: tail)) :=
    ⟨rfl, hwrites.nonempty, hwrites.capitals, hwrites.stops⟩
  obtain ⟨hyields, -, hdrop⟩ := hother'.yields hother (p.after front)
  rw [(hwrites.yields hbody (p.after front)).2.2, ← hdrop] at hpost
  obtain ⟨post', hpost', hkinds⟩ := hpost.move _
  obtain ⟨pre', hpre', hlexes⟩ := hbefore _ _ (.cons hyields hpost')
  rw [hbrace] at hlexes
  refine ⟨pre', _, post', ?_, hpre', rfl, hkinds⟩
  rw [hafter]
  exact hlexes

/-- An attribute block that begins at a byte offset, and whose ID stands behind some blanks. -/
structure HasId (x : Token) (start : Nat) (blanks : List Char) (id : String)
    (fields : List String) : Prop where
  kind : x.kind = .attrs (id :: fields)
  start : x.span.start = start
  raw : ∃ tail, x.raw.toList = '\x7b' :: (blanks ++ (id.toList ++ tail))

theorem hasId_blockToken {blanks behind : List Char} {id : String}
    (h : attrFields (blanks ++ (id.toList ++ behind)) = id :: fields) (p : Position) :
    HasId (blockToken p (blanks ++ (id.toList ++ behind))) p.offset blanks id fields where
  kind := congrArg TokenKind.attrs h
  start := rfl
  raw := ⟨behind ++ ['\x7d'], by
    rw [blockToken, String.toList_ofList]
    simp only [append_assoc]⟩

theorem Lexes.replace_id {id : String} (h : Lexes p text (pre ++ c :: x :: post))
    (hx : x.kind = .attrs (id :: fields)) :
    ∃ before blanks behind, text = before ++ '\x7b' :: (blanks ++ (id.toList ++ behind)) ∧
      (∀ b ∈ blanks, isBlank b = true) ∧
      HasId x (p.after before).offset blanks id fields ∧ ∀ other, IsId other → ∃ pre' c' x' post',
        Lexes p (before ++ '\x7b' :: (blanks ++ (other.toList ++ behind))) (pre' ++ c' :: x' :: post') ∧
          HasId x' (p.after before).offset blanks other fields ∧
          kinds pre' = kinds pre ∧ c'.kind = c.kind ∧ kinds post' = kinds post := by
  obtain ⟨before, body, tail, rfl, hbody, rfl, hreplace⟩ := h.replace_body hx
  have hfields : attrFields body = id :: fields := TokenKind.attrs.inj hx
  obtain ⟨blanks, behind, rfl, hblanks, hfirst⟩ := attrFields_first hfields
  refine ⟨before, blanks, behind ++ '\x7d' :: tail, ?_, hblanks, hasId_blockToken hfields _,
    fun other hother => ?_⟩
  · simp only [append_assoc]
  have hplain : PlainBody (blanks ++ (other.toList ++ behind)) := by
    intro a ha
    rcases mem_append.mp ha with hblank | ha
    · exact hbody a (mem_append_left _ hblank)
    rcases mem_append.mp ha with hid | hbehind
    · exact (hother.plain a hid).2.2
    · exact hbody a (mem_append_right _ (mem_append_right _ hbehind))
  obtain ⟨pre', c', post', hlexes, hkinds⟩ := hreplace _ hplain
  simp only [append_assoc] at hlexes
  exact ⟨pre', c', _, post', hlexes, hasId_blockToken (hfirst other hother) _, hkinds⟩

end Splice

end TagLang.Lexeme
