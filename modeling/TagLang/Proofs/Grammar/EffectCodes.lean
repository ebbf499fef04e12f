import TagLang.Proofs.Edit
import TagLang.Proofs.Grammar.Module

/-! # The places of effect codes

A declaration of effects lists its codes in an attribute block, with colons or commas between them
and blanks around them. The parser cuts the codes out of the block and then looks for each of them
behind the one before it. All codes that are left always stand in the text that is left to search,
so each is found, and not behind the place it was cut from.
-/

namespace TagLang.Grammar
open Lexeme Text List

/-! ## Texts inside a text -/

/-- Some texts stand one behind the other in a text, with anything between them. -/
inductive InOrder : List String → List Char → Prop
  | nil (text : List Char) : InOrder [] text
  | cons {code : String} {codes : List String} {rest : List Char} (gap : List Char) :
    InOrder codes rest → InOrder (code :: codes) (gap ++ (code.toList ++ rest))

namespace InOrder

variable {code : String} {codes codes' : List String} {text text' : List Char}

theorem behind (h : InOrder codes text) (before : List Char) : InOrder codes (before ++ text) := by
  cases h with
  | nil => exact .nil _
  | cons gap h =>
    rw [← append_assoc]
    exact .cons _ h

theorem append (h : InOrder codes text) (h' : InOrder codes' text') :
    InOrder (codes ++ codes') (text ++ text') := by
  induction h with
  | nil text => exact h'.behind text
  | cons gap _ ih =>
    rw [append_assoc, append_assoc]
    exact .cons gap ih

theorem self (code : String) : InOrder [code] code.toList := by
  simpa using InOrder.cons [] (.nil [])

theorem flatMap {f : String → List String} (h : InOrder codes text)
    (hf : ∀ code ∈ codes, InOrder (f code) code.toList) : InOrder (codes.flatMap f) text := by
  induction h with
  | nil text => exact .nil text
  | cons gap _ ih =>
    obtain ⟨hcode, hcodes⟩ := forall_mem_cons.mp hf
    exact (hcode.append (ih hcodes)).behind gap

theorem filter (p : String → Bool) (h : InOrder codes text) : InOrder (codes.filter p) text := by
  induction h with
  | nil text => exact .nil text
  | @cons code _ _ gap _ ih =>
    rw [filter_cons]
    split
    · exact .cons gap ih
    · exact (ih.behind code.toList).behind gap

theorem map_trim (h : InOrder codes text) : InOrder (codes.map trim) text := by
  rw [map_eq_flatMap]
  refine h.flatMap fun code _ => ?_
  obtain ⟨before, behind, hcode, -, -⟩ := trimChars_decompose code.toList
  have htrim : InOrder [trim code] (before ++ ((trim code).toList ++ behind)) :=
    .cons before (.nil behind)
  rwa [show (trim code).toList = trimChars code.toList from String.toList_ofList, ← hcode] at htrim

theorem splitChars (sep : Char) (text : List Char) :
    InOrder ((splitChars sep text).map String.ofList) text := by
  have hpieces (pieces : List (List Char)) :
      InOrder (pieces.map String.ofList) ([sep].intercalate pieces) := by
    induction pieces with
    | nil => exact .nil _
    | cons piece pieces ih =>
      have hpiece : InOrder [String.ofList piece] piece := by
        simpa using self (String.ofList piece)
      cases pieces with
      | nil => simpa using hpiece
      | cons piece' pieces =>
        rw [intercalate_cons_cons]
        exact (hpiece.append (.nil [sep])).append ih
  simpa only [intercalate_splitChars] using hpieces (Text.splitChars sep text)

theorem effectCodes (body : List Char) : InOrder (effectCodes (attrFields body)) body := by
  unfold attrFields
  split
  · exact .nil body
  · have hfields : InOrder
        ((Text.splitChars ':' body).map fun field => String.ofList (trimChars field)) body := by
      simpa [trim, Function.comp_def] using (splitChars ':' body).map_trim
    exact ((hfields.flatMap fun field _ => splitChars ',' field.toList).map_trim).filter _

/-- A search for the first text comes to an end where it stands, or earlier. -/
theorem found (h : InOrder (code :: codes) text) : ∃ k, occursAt? code.toList text = some k ∧
    code.toList <+: text.drop k ∧ InOrder codes (text.drop (k + code.length)) := by
  rcases h with _ | ⟨gap, h⟩
  rename_i rest
  obtain ⟨k, hk, hfound, hhere⟩ := exists_occursAt? code.toList gap rest
  refine ⟨k, hfound, hhere, ?_⟩
  have hle : k + code.length ≤ (gap ++ code.toList).length := by
    rw [length_append, String.length_toList]
    omega
  rw [← append_assoc, drop_append_of_le_length hle]
  exact h.behind _

end InOrder

/-! ## The search -/

section Search

/-- The spans of some codes, reckoned in bytes from a byte of the block on. There are none if a code
is not found, or if the block would be cut outside of its text or inside a character. -/
def codeSpansFrom? (x : Token) : Nat → List String → Option (List (String × Span))
  | _, [] => some []
  | start, code :: codes => do
    let (_, rest) ← Edit.cutAt? start x.raw.toList
    let offset := start + byteCount (rest.take (← occursAt? code.toList rest))
    let (before, _) ← Edit.cutAt? offset x.raw.toList
    let stop := offset + code.utf8ByteSize
    let found ← codeSpansFrom? x stop codes
    return (code, ⟨x.span.start + offset, x.span.start + stop, x.span.line,
      x.span.col + before.length⟩) :: found

/-- What is found of some codes from the character `start` of a block on: each at a place where the
block has it, one behind the other, and as the search in bytes finds them. -/
structure FoundFrom (x : Token) (start : Nat) (codes : List String) (found : List (String × Span)) :
    Prop where
  place : ∀ c ∈ found, ∃ i, start ≤ i ∧ c.1.toList <+: x.raw.toList.drop i ∧ c.2 = spanInside x i c.1
  ordered : found.Pairwise fun c d => c.2.stop ≤ d.2.start
  searched : codeSpansFrom? x (byteCount (x.raw.toList.take start)) codes = some found

variable {x : Token} {start i : Nat} {code : String} {codes : List String}

theorem byteCount_take_code {text : List Char} (h : code.toList <+: text.drop i) :
    byteCount (text.take (i + code.length)) = byteCount (text.take i) + code.utf8ByteSize := by
  rw [take_add, ← String.length_toList, ← prefix_iff_eq_take.mp h, byteCount_append, byteCount_toList]

theorem stop_spanInside (h : code.toList <+: x.raw.toList.drop i) :
    (spanInside x i code).stop = x.span.start + byteCount (x.raw.toList.take (i + code.length)) := by
  rw [byteCount_take_code h, ← Nat.add_assoc]
  rfl

theorem cutAt?_byteCount (text : List Char) (n : Nat) :
    Edit.cutAt? (byteCount (text.take n)) text = some (text.take n, text.drop n) := by
  have hcut := Edit.cutAt?_append (text.take n) (text.drop n)
  rwa [take_append_drop] at hcut

theorem foundFrom_cons {found : List (String × Span)} (hi : start ≤ i)
    (hfound : occursAt? code.toList (x.raw.toList.drop start) = some (i - start))
    (hcode : code.toList <+: x.raw.toList.drop i) (h : FoundFrom x (i + code.length) codes found) :
    FoundFrom x start (code :: codes) ((code, spanInside x i code) :: found) := by
  refine ⟨forall_mem_cons.mpr ⟨⟨i, hi, hcode, rfl⟩, ?_⟩, pairwise_cons.mpr ⟨?_, h.ordered⟩, ?_⟩
  · intro c hc
    obtain ⟨j, hj, hplace⟩ := h.place c hc
    exact ⟨j, by omega, hplace⟩
  · intro c hc
    obtain ⟨j, hj, -, hspan⟩ := h.place c hc
    rw [hspan, stop_spanInside hcode]
    exact Nat.add_le_add_left (byteCount_take_mono _ hj) _
  · have hoffset : byteCount (x.raw.toList.take start) + byteCount
        ((x.raw.toList.drop start).take (i - start)) = byteCount (x.raw.toList.take i) := by
      rw [← byteCount_append, ← take_add, Nat.add_sub_cancel' hi]
    simp only [codeSpansFrom?, cutAt?_byteCount, Option.bind_eq_bind, Option.bind_some, hfound, hoffset,
      ← byteCount_take_code hcode, h.searched]
    rw [spanInside, Nat.add_assoc, ← byteCount_take_code hcode]
    rfl

theorem foundFrom_codeSpans (h : InOrder codes (x.raw.toList.drop start)) :
    FoundFrom x start codes (codeSpans x start codes) := by
  induction codes generalizing start with
  | nil => exact ⟨forall_mem_nil _, .nil, rfl⟩
  | cons code codes ih =>
    obtain ⟨k, hfound, hcode, hcodes⟩ := h.found
    rw [drop_drop] at hcode hcodes
    rw [← Nat.add_assoc] at hcodes
    rw [codeSpans, hfound]
    apply foundFrom_cons (Nat.le_add_right start k) _ hcode (ih hcodes)
    rw [hfound, Nat.add_sub_cancel_left]

end Search

/-! ## Places in the source -/

section Places

variable {source : String} {x : Token} {i : Nat} {code : String}

section Blocks

variable {before behind : List Char}
  (hspan : x.span = .between (Position.origin.after before)
    (Position.origin.after (before ++ x.raw.toList)))
include hspan

theorem stop_spanInside_le (hcode : code.toList <+: x.raw.toList.drop i) :
    (spanInside x i code).stop ≤ x.span.stop := by
  have hstop : x.span.stop = x.span.start + byteCount x.raw.toList := by
    rw [hspan, Position.after_append]
    exact Position.offset_after _ _
  have hbytes := congrArg byteCount (take_append_drop (i + code.length) x.raw.toList)
  rw [byteCount_append] at hbytes
  rw [stop_spanInside hcode]
  omega

/-- A place in a block is on the line of the block, as the block has no line break. -/
theorem slices_spanInside (hsource : source.toList = before ++ (x.raw.toList ++ behind))
    (hline : '\n' ∉ x.raw.toList) (hcode : code.toList <+: x.raw.toList.drop i) :
    (spanInside x i code).Slices source code := by
  have hplain : '\n' ∉ x.raw.toList.take i := fun hmem => hline (mem_of_mem_take hmem)
  have hbetween : spanInside x i code = .between (Position.origin.after (before ++ x.raw.toList.take i))
      (Position.origin.after (before ++ x.raw.toList.take i ++ code.toList)) := by
    rw [Position.after_append _ _ code.toList, Position.after_append, Position.after_plain _ hplain,
      spanInside, hspan,
      ← byteCount_toList code, Span.between, Span.between, Position.offset_after _ code.toList]
  obtain ⟨rest, hrest⟩ := hcode
  have htext : source.toList = before ++ x.raw.toList.take i ++ code.toList ++ (rest ++ behind) := by
    rw [append_assoc _ code.toList, ← append_assoc code.toList, hrest, append_assoc,
      ← append_assoc (List.take _ _), take_append_drop, hsource]
  have hslices := Span.slices_between htext
  rwa [← hbetween, String.ofList_toList] at hslices

end Blocks

theorem codes_codeSpans (x : Token) (start : Nat) (codes : List String) :
    (codeSpans x start codes).map (·.1) = codes :=
  (map_codeSpans id x start codes).trans (map_id codes)

/-- Codes that are recorded of an attribute block. Each is the slice of the source at its span. The
spans are inside the block, one behind the other, and they are found without a search or a cut that
fails. -/
structure CodesIn (source : String) (x : Token) (codes : List (String × Span)) : Prop where
  slices : ∀ c ∈ codes, c.2.Slices source c.1
  inside : ∀ c ∈ codes, x.span.start ≤ c.2.start ∧ c.2.start < c.2.stop ∧ c.2.stop ≤ x.span.stop
  ordered : codes.Pairwise fun c d => c.2.stop ≤ d.2.start
  searched : codeSpansFrom? x 0 (codes.map (·.1)) = some codes

theorem codesIn_codeSpans {fields : List String} (hx : x ∈ (lex source).tokens)
    (hkind : x.kind = .attrs fields) : CodesIn source x (codeSpans x 0 (effectCodes fields)) := by
  obtain ⟨p, body, hbody, hblock⟩ := exists_blockToken hx hkind
  have hraw : x.raw.toList = '\x7b' :: (body ++ ['\x7d']) := by
    rw [hblock, blockToken, String.toList_ofList]
  have hfields : attrFields body = fields := by
    rw [hblock] at hkind
    exact TokenKind.attrs.inj hkind
  have hline : '\n' ∉ x.raw.toList := by
    rw [hraw]
    simpa using fun hmem => (hbody '\n' hmem).2 rfl
  have horder : InOrder (effectCodes fields) (x.raw.toList.drop 0) := by
    rw [hraw, ← hfields]
    simpa using ((InOrder.effectCodes body).append (.nil ['\x7d'])).behind ['\x7b']
  obtain ⟨before, behind, hsource, hspan⟩ := exists_place hx
  obtain ⟨hplace, hordered, hsearched⟩ := foundFrom_codeSpans horder
  refine ⟨fun c hc => ?_, fun c hc => ?_, hordered, ?_⟩
  · obtain ⟨i, -, hcode, hc⟩ := hplace c hc
    rw [hc]
    exact slices_spanInside hspan hsource hline hcode
  · have hmem : c.1 ∈ effectCodes fields := by
      rw [← codes_codeSpans x 0 (effectCodes fields)]
      exact mem_map_of_mem hc
    have hsize : c.1.utf8ByteSize ≠ 0 := by
      simpa using (mem_filter.mp hmem).2
    obtain ⟨i, -, hcode, hc⟩ := hplace c hc
    rw [hc]
    exact ⟨Nat.le_add_right _ _, Nat.lt_add_of_pos_right (Nat.pos_of_ne_zero hsize),
      stop_spanInside_le hspan hcode⟩
  · rwa [codes_codeSpans]

end Places

/-! ## Declarations of a module -/

section Declarations

def effectDecls (m : Module) : List EffectDecl :=
  (m.items.flatMap functionsOf).filterMap FunctionDef.effects

/-- Every declaration of effects is read from a tag. It has no codes if no attribute block follows
the tag. Otherwise its codes are those of the block, and each is recorded with the place of its text
in the block. -/
theorem effectCodes_at_text {source : String} {m : Module} {d : EffectDecl}
    (hm : (parse source).module = some m) (hd : d ∈ effectDecls m) :
    ∃ t us, t :: us <:+ (lex source).tokens ∧ t.kind = .tag "E" ∧
      ((d.codes = [] ∧ ∀ x ∈ us.head?, ∀ fields, x.kind ≠ .attrs fields) ∨
        ∃ x ∈ us.head?, ∃ fields, x.kind = .attrs fields ∧ d.codes.map (·.1) = effectCodes fields ∧
          CodesIn source x d.codes) := by
  obtain ⟨f, hf, hsome⟩ := mem_filterMap.mp hd
  obtain ⟨i, hi, hf⟩ := mem_flatMap.mp hf
  have hread := (parse_outcome source).result m hm i hi f hf
  cases hread.effects d hsome with
  | bare hsuffix hkind hnone => exact ⟨_, _, hsuffix, hkind, .inl ⟨rfl, hnone⟩⟩
  | block hsuffix hkind hattrs =>
    have hmem := hsuffix.subset (mem_cons_of_mem _ mem_cons_self)
    exact ⟨_, _, hsuffix, hkind,
      .inr ⟨_, rfl, _, hattrs, codes_codeSpans _ _ _, codesIn_codeSpans hmem hattrs⟩⟩

/-- A method whose effects are listed with a code inside another one, a code that is listed twice,
and an empty field. -/
def listedSource : String :=
  "§M\x7bm:A\x7d\n§IFACE\x7bi:I\x7d\n§MT\x7bf:g\x7d\n§E\x7b é w,w , é w,:\u00a0w\x7d " ++
  "§/MT\x7bf\x7d §/IFACE\x7bi\x7d §/M\x7bm\x7d"

set_option maxRecDepth 100000 in
theorem effectCodes_at_text_listed : ∃ m d x, (parse listedSource).module = some m ∧ d ∈ effectDecls m ∧
    d.codes = [("é w", ⟨37, 41, 4, 5⟩), ("w", ⟨42, 43, 4, 9⟩), ("é w", ⟨46, 50, 4, 13⟩),
      ("w", ⟨54, 55, 4, 19⟩)] ∧ CodesIn listedSource x d.codes := by
  have hdecls : (parse listedSource).module.map effectDecls = some
      [⟨[("é w", ⟨37, 41, 4, 5⟩), ("w", ⟨42, 43, 4, 9⟩),
      ("é w", ⟨46, 50, 4, 13⟩), ("w", ⟨54, 55, 4, 19⟩)], ⟨32, 56, 4, 1⟩⟩] := by decide +kernel
  obtain ⟨m, hm, hdecls⟩ := Option.map_eq_some_iff.mp hdecls
  have hd : _ ∈ effectDecls m := hdecls ▸ mem_singleton_self _
  obtain ⟨t, us, -, -, ⟨hnil, -⟩ | ⟨x, -, fields, -, -, hcodes⟩⟩ := effectCodes_at_text hm hd
  · cases hnil
  · exact ⟨m, _, x, hm, hd, rfl, hcodes⟩

end Declarations

end TagLang.Grammar
