import TagLang.Proofs.Logic.Eval
import TagLang.Proofs.Logic.Script
import TagLang.Proofs.Text.Numeral
import TagLang.Solver.Reply

/-! # Models are read back

A model is printed as a list of definitions, one for each variable: its name as a symbol, a sort,
and its value in one of the notations of truth values and bit-vectors. Whatever the order, the
layout and the notations, the same model is read from the text. Definitions of arrays and of
functions may stand among the others and are skipped.
-/

namespace TagLang
open List

namespace Text

theorem cutFirst?_append {sep : Char} {before : List Char} (h : sep ∉ before) (behind : List Char) :
    cutFirst? sep (.ofList (before ++ sep :: behind)) = some (.ofList before, .ofList behind) := by
  have hbefore : ∀ c ∈ before, decide (c ≠ sep) = true :=
    fun c hc => decide_eq_true (ne_of_mem_of_not_mem hc h)
  have hspan : (before ++ sep :: behind).span (· ≠ sep) = (before, sep :: behind) := by
    rw [span_eq_takeWhile_dropWhile, takeWhile_append_of_pos hbefore, dropWhile_append_of_pos hbefore]
    simp
  rw [cutFirst?, String.toList_ofList, hspan]

end Text

namespace Reply

open Text

variable {s : Sexp} {entries : List (String × BitValue)}

theorem number?_of_numeral {base limit : Nat} (hbase : base ≤ 16) {cs : List Char} {n : Nat}
    (h : Numeral base cs n) (hcs : cs ≠ []) (hn : n < limit) : number? base limit cs = some n := by
  obtain ⟨hall, hvalue⟩ := h.digitsValue_eq hbase
  have hsign : cs.head? ≠ some '+' := by
    intro hhead
    have hplus : isDigitOf base '+' = true := all_eq_true.mp hall '+' (mem_of_mem_head? hhead)
    have hnone : digitValue? '+' = none := by decide
    simp [isDigitOf, hnone] at hplus
  simp [number?, hsign, hall, hvalue, hn, hcs]

/-! ## Values -/

/-- The notations of a value: `true` and `false`, binary digits, hexadecimal digits for four bits
each, and a decimal number with a width. -/
inductive Spells : BitValue → Sexp → Prop
  | yes : Spells (.bool true) (.atom "true")
  | no : Spells (.bool false) (.atom "false")
  | binary {word : UInt64} {cs : List Char} : Numeral 2 cs word.toNat →
    Spells (.bits word cs.length) (.atom (.ofList ('#' :: 'b' :: cs)))
  | hexadecimal {word : UInt64} {cs : List Char} : Numeral 16 cs word.toNat →
    Spells (.bits word (4 * cs.length)) (.atom (.ofList ('#' :: 'x' :: cs)))
  | decimal {word : UInt64} {width : Nat} {cs ds : List Char} :
      cs ≠ [] → Numeral 10 cs word.toNat → ds ≠ [] →
    Numeral 10 ds width →
    Spells (.bits word width) (.list [.atom "_", .atom (.ofList ('b' :: 'v' :: cs)), .atom (.ofList ds)])

theorem ofBits_of_fits {word : UInt64} {width : Nat} (h64 : width ≤ 64)
    (hfits : Bits.Fits word width) : BitValue.ofBits word width = .bits word width := by
  have hmask : word &&& Bits.mask width = word := by
    rw [← UInt64.toNat_inj, Bits.toNat_and_mask word h64, Nat.mod_eq_of_lt hfits]
  rw [BitValue.ofBits, hmask]

theorem value?_of_spells {sort : VarSort} {v : BitValue} {x : Denotation} (hv : Represents sort v x)
    (h : Spells v s) : value? s = some v := by
  cases h with
  | yes => rfl
  | no => rfl
  | @binary word cs hcs =>
    cases hv with
    | bits valid fits =>
      have hne : cs ≠ [] := ne_nil_of_length_pos valid.1
      have hnum : number? 2 (twoPow 64) cs = some word.toNat :=
        number?_of_numeral (by decide) hcs hne word.toNat_lt
      simp [value?, atomValue?, hnum, ofBits_of_fits valid.2 fits]
  | @hexadecimal word cs hcs =>
    cases hv with
    | bits valid fits =>
      have hne : cs ≠ [] := ne_nil_of_length_pos (by omega)
      have hnum : number? 16 (twoPow 64) cs = some word.toNat :=
        number?_of_numeral (by decide) hcs hne word.toNat_lt
      simp [value?, atomValue?, hnum, ofBits_of_fits valid.2 fits]
  | @decimal word width cs ds hcs hword hds hwidth =>
    cases hv with
    | bits valid fits =>
      have hnum : number? 10 (twoPow 64) cs = some word.toNat :=
        number?_of_numeral (by decide) hword hcs word.toNat_lt
      have hshort : width < twoPow 32 := lt_of_le_of_lt valid.2 (by decide)
      have hnum' : number? 10 (twoPow 32) ds = some width :=
        number?_of_numeral (by decide) hwidth hds hshort
      simp [value?, hnum, hnum', ofBits_of_fits valid.2 fits]

/-! ## Definitions -/

def constantDef (name : String) (sort value : Sexp) : Sexp :=
  .list [.atom "define-fun", .atom (Script.symbol name), .list [], sort, value]

/-- The sorts and terms of the language have no empty list in them. -/
inductive Solid : Sexp → Prop
  | atom (text : String) : Solid (.atom text)
  | list {s : Sexp} {ss : List Sexp} : Solid s → (∀ t ∈ ss, Solid t) → Solid (.list (s :: ss))

/-- What an array can be defined as: a name, an indexed name such as `(_ as-array f)`, or an
application such as `(store a i v)` or `((as const s) v)`. These are no notations of truth values
and bit-vectors. -/
inductive ArrayTerm : Sexp → Prop
  | name {text : String} : text ≠ "true" → text ≠ "false" → text.toList.head? ≠ some '#' →
    ArrayTerm (.atom text)
  | indexed {text : String} {ss : List Sexp} : ¬['b', 'v'] <+: text.toList → (∀ t ∈ ss, Solid t) →
    ArrayTerm (.list (.atom "_" :: .atom text :: ss))
  | application {s : Sexp} {ss : List Sexp} : s ≠ .atom "_" → Solid s → (∀ t ∈ ss, Solid t) →
    ArrayTerm (.list (s :: ss))

inductive Skipped : Sexp → Prop
  | function {name : String} {arg : Sexp} {args : List Sexp} {sort body : Sexp} :
    (∀ s ∈ arg :: args, Solid s) → Solid sort → Solid body →
    Skipped (.list [.atom "define-fun", .atom name, .list (arg :: args), sort, body])
  | array {name : String} {index element value : Sexp} : Solid index → Solid element → ArrayTerm value →
    Skipped (.list
      [.atom "define-fun", .atom name, .list [], .list [.atom "Array", index, element], value])

theorem definitionsIn_eq_nil {ss : List Sexp} (h : ∀ s ∈ ss, definitions s = []) :
    definitionsIn ss = [] := by
  induction ss with
  | nil => rw [definitionsIn]
  | cons s ss ih =>
    have hs := forall_mem_cons.mp h
    rw [definitionsIn, hs.1, ih hs.2, append_nil]

theorem definitions_list {ss : List Sexp} (h : definition? ss = none) :
    definitions (.list ss) = definitionsIn ss := by
  rw [definitions, h]

theorem Solid.definitions_eq_nil (h : Solid s) : definitions s = [] := by
  induction h with
  | atom text => rw [definitions]
  | @list s ss hs hss ihs ihss =>
    have hnone : definition? (s :: ss) = none := by
      unfold definition?
      split
      · next heq =>
        -- The third item of a definition is an empty list.
        injection heq with _ htail
        have hempty : Solid (.list []) := hss _ (by rw [htail]; simp)
        cases hempty
      · rfl
    rw [definitions_list hnone]
    exact definitionsIn_eq_nil (forall_mem_cons.mpr ⟨ihs, ihss⟩)

theorem ArrayTerm.solid (h : ArrayTerm s) : Solid s := by
  cases h with
  | name => exact .atom _
  | indexed _ hss => exact .list (.atom _) (forall_mem_cons.mpr ⟨.atom _, hss⟩)
  | application _ hs hss => exact .list hs hss

theorem ArrayTerm.value?_eq_none (h : ArrayTerm s) : value? s = none := by
  cases h with
  | @name text htrue hfalse hhash =>
    rw [value?, atomValue?]
    split
    · next heq => simp [heq] at hhash
    · next heq => simp [heq] at hhash
    · rw [if_neg htrue, if_neg hfalse]
  | @indexed text ss hbv _ =>
    unfold value?
    split
    · next heq => cases heq
    · next v w heq =>
      simp only [Sexp.list.injEq, List.cons.injEq, Sexp.atom.injEq, true_and] at heq
      obtain ⟨rfl, -⟩ := heq
      split
      · next cs hcs => exact absurd ⟨cs, hcs.symm⟩ hbv
      · rfl
    · rfl
  | application hs _ _ =>
    unfold value?
    split
    · next heq => cases heq
    · next heq =>
      injection heq with heq
      injection heq with heq _
      exact absurd heq hs
    · rfl

theorem definitions_of_none {name : String} {args sort value : Sexp}
    (hnone : definition? [.atom "define-fun", .atom name, args, sort, value] = none)
    (hargs : definitions args = []) (hsort : Solid sort) (hvalue : Solid value) :
    definitions (.list [.atom "define-fun", .atom name, args, sort, value]) = [] := by
  rw [definitions_list hnone]
  simp [definitionsIn, definitions, hargs, hsort.definitions_eq_nil, hvalue.definitions_eq_nil]

theorem Skipped.definitions_eq_nil (h : Skipped s) : definitions s = [] := by
  cases h with
  | @function name arg args sort body hargs hsort hbody =>
    have hlist : Solid (.list (arg :: args)) := .list (hargs arg (by simp)) fun t ht =>
      hargs t (by simp [ht])
    exact definitions_of_none rfl hlist.definitions_eq_nil hsort hbody
  | @array name index element value hindex helement hvalue =>
    have hsort : Solid (.list [.atom "Array", index, element]) :=
      .list (.atom _) (by simp [hindex, helement])
    refine definitions_of_none ?_ ?_ hsort hvalue.solid
    · simp [definition?, hvalue.value?_eq_none]
    · simp [definitions, definitionsIn, definition?]

/-! ## Models -/

/-- Definitions of the entries in their order, with skipped definitions anywhere among them. -/
inductive Defines : List (String × BitValue) → List Sexp → Prop
  | nil : Defines [] []
  | constant {name : String} {v : BitValue} {value : Sexp} {entries : List (String × BitValue)}
    {items : List Sexp} (sort : Sexp) : Spells v value → Defines entries items →
    Defines ((name, v) :: entries) (constantDef name sort value :: items)
  | skipped {s : Sexp} {entries : List (String × BitValue)} {items : List Sexp} : Skipped s →
    Defines entries items → Defines entries (s :: items)

/-- A name that a symbol keeps, with a truth value or a bit-vector of 1 to 64 bits. -/
def Printable (entry : String × BitValue) : Prop :=
  '|' ∉ entry.1.toList ∧ ∃ sort x, Represents sort entry.2 x

theorem definitions_constantDef {name : String} {v : BitValue} (h : Printable (name, v))
    {value : Sexp} (hvalue : Spells v value) (sort : Sexp) :
    definitions (constantDef name sort value) = [(name, v)] := by
  obtain ⟨hname, _, _, hv⟩ := h
  simp [constantDef, definitions, definition?, value?_of_spells hv hvalue, Sexp.unquote_symbol hname]

theorem Defines.definitionsIn_eq {items : List Sexp} (h : Defines entries items)
    (hentries : ∀ e ∈ entries, Printable e) : definitionsIn items = entries := by
  induction h with
  | nil => rw [definitionsIn]
  | constant sort hvalue _ ih =>
    have hprintable := forall_mem_cons.mp hentries
    rw [definitionsIn, definitions_constantDef hprintable.1 hvalue, ih hprintable.2, singleton_append]
  | skipped hs _ ih => rw [definitionsIn, hs.definitions_eq_nil, ih hentries, nil_append]

/-- A text prints a model: after its first line stands the list of the definitions, in any order and
layout. Some solvers put `model` in front of them. -/
inductive Prints (m : SolverModel) : String → Prop
  | intro {line body : List Char} {head items : List Sexp} {entries : List (String × BitValue)} :
    '\n' ∉ line → head = [] ∨ head = [.atom "model"] → entries.Perm m.entries →
    Defines entries items → Sexp.Lays (Sexp.list (head ++ items)).spelling body →
    Prints m (.ofList (line ++ '\n' :: body))

theorem definitions_outer {head items : List Sexp} (hhead : head = [] ∨ head = [.atom "model"])
    (h : Defines entries items) : definitions (.list (head ++ items)) = definitionsIn items := by
  rcases hhead with rfl | rfl
  · have hnone : definition? items = none := by
      cases h with
      | nil => rfl
      | constant => rfl
      | skipped hs => cases hs <;> rfl
    rw [nil_append, definitions_list hnone]
  · have hnone : definition? (.atom "model" :: items) = none := by
      unfold definition?
      split
      · next heq => simp at heq
      · rfl
    rw [singleton_append, definitions_list hnone, definitionsIn, definitions, nil_append]

/-- A model is read back from every text that prints it. That of no variables is read as none. -/
theorem model_of_prints {m : SolverModel} (hordered : m.Ordered) (hentries : ∀ e ∈ m.entries, Printable e)
    {text : String} (h : Prints m text) : model? text = if m.isEmpty then none else some m := by
  cases h with
  | @intro line body head items entries hline hhead hperm hdefines hlays =>
    have hprintable : ∀ e ∈ entries, Printable e := fun e he => hentries e (hperm.mem_iff.mp he)
    have hread : definitionsIn (Sexp.readAll (.ofList body)) = entries := by
      rw [Sexp.readAll_of_lays hlays, definitionsIn, definitionsIn, append_nil,
        definitions_outer hhead hdefines, hdefines.definitionsIn_eq hprintable]
    have htable : Table.ofList entries.reverse = m :=
      Table.ofList_eq_of_perm hordered ((reverse_perm entries).trans hperm)
    rw [model?, Text.cutFirst?_append hline]
    dsimp only
    rw [hread, htable]

def mixedItems : List Sexp :=
  [constantDef "x y" (.indexed "BitVec" [4]) (.atom "#b1010"),
    .node "define-fun"
      [.atom "k", .list [.list [.atom "a", .atom "Bool"]], .atom "Bool", .node "not" [.atom "a"]],
    constantDef "ok" (.atom "Bool") (.atom "false"),
    .node "define-fun" [.atom "t", .list [], .node "Array" [.indexed "BitVec" [8], .atom "Bool"],
      .node "_" [.atom "as-array", .atom "k"]],
    constantDef "n" (.indexed "BitVec" [16]) (.node "_" [.atom "bv7", .atom "16"])]

theorem defines_mixedItems :
    Defines [("x y", .bits 10 4), ("ok", .bool false), ("n", .bits 7 16)] mixedItems := by
  have hword : Spells (.bits 10 4) (.atom "#b1010") := .binary (numeral_toDigits (by decide) _)
  have hseven : Spells (.bits 7 16) (.node "_" [.atom "bv7", .atom "16"]) :=
    .decimal (by decide) (numeral_toDigits (by decide) 7) (by decide) (numeral_toDigits (by decide) 16)
  have hatoms (texts : List String) : ∀ s ∈ texts.map Sexp.atom, Solid s := by
    simp [Solid.atom]
  refine .constant _ hword (.skipped ?_ (.constant _ .no (.skipped ?_ (.constant _ hseven .nil))))
  · refine .function ?_ (.atom _) (.list (.atom _) (hatoms ["a"]))
    intro s hs
    rw [mem_singleton.mp hs]
    exact .list (.atom _) (hatoms ["Bool"])
  · exact .array (.list (.atom _) (hatoms ["BitVec", "8"])) (.atom _)
      (.indexed (by decide) (hatoms ["k"]))

theorem proper_mixedItems : ∀ s ∈ mixedItems, s.Proper := by
  have hplain : (['#', 'b', '1', '0', '1', '0'].all fun c => !Sexp.isDelimiter c) = true := by decide
  have hbits : Sexp.IsAtom "#b1010" :=
    .word (by decide) fun c hc => by simpa using all_eq_true.mp hplain c hc
  have hdefine : Sexp.isWord "define-fun" = true := by decide
  have hconstant (name : String) {sort value : Sexp} (hsort : sort.Proper) (hvalue : value.Proper) :
      (constantDef name sort value).Proper :=
    Sexp.proper_node hdefine ⟨Sexp.isAtom_symbol name, trivial, hsort, hvalue, trivial⟩
  have hword {text : String} (h : Sexp.isWord text = true) : (Sexp.atom text).Proper :=
    Sexp.isAtom_of_isWord h
  have hsort (width : Nat) : (Sexp.indexed "BitVec" [width]).Proper := Sexp.proper_indexed (by decide) _
  simp only [mixedItems, forall_mem_cons]
  refine ⟨hconstant _ (hsort 4) hbits, Sexp.proper_node hdefine ?_,
    hconstant _ (hword (by decide)) (hword (by decide)),
    Sexp.proper_node hdefine ?_, hconstant _ (hsort 16) ?_, by simp⟩
  · exact ⟨hword (by decide), ⟨⟨hword (by decide), hword (by decide), trivial⟩, trivial⟩,
      hword (by decide), Sexp.proper_node (by decide) ⟨hword (by decide), trivial⟩, trivial⟩
  · exact ⟨hword (by decide), trivial, Sexp.proper_node (by decide) ⟨hsort 8, hword (by decide), trivial⟩,
      Sexp.proper_node (by decide) ⟨hword (by decide), hword (by decide), trivial⟩, trivial⟩
  · exact Sexp.proper_node (by decide) ⟨hword (by decide), hword (by decide), trivial⟩

theorem lays_lines {items : List Sexp} (h : ∀ s ∈ items, s.Proper) :
    Sexp.Lays (Sexp.spellingAll items ++ [.closing])
      (items.flatMap (fun s => '\n' :: ' ' :: ' ' :: s.write.toList) ++ ['\n', ')']) := by
  have hnewline : Text.isBlank '\n' = true := by decide
  have hdelimiter : Sexp.isDelimiter '\n' = true := by decide
  induction items with
  | nil => exact .blank hnewline (.closing .done)
  | cons s items ih =>
    have hs := forall_mem_cons.mp h
    have hrest : Sexp.Delimited
        (items.flatMap (fun s => '\n' :: ' ' :: ' ' :: s.write.toList) ++ ['\n', ')']) := by
      cases items <;> exact Sexp.delimited_cons hdelimiter _
    rw [Sexp.spellingAll, append_assoc, flatMap_cons, append_assoc]
    exact .blank hnewline (.blank Sexp.isBlank_space (.blank Sexp.isBlank_space
      (Sexp.lays_write s hs.1 hrest (ih hs.2))))

def mixedModel : SolverModel := ⟨[("n", .bits 7 16), ("ok", .bool false), ("x y", .bits 10 4)]⟩

def mixedText : String :=
  "sat\n(model\n  (define-fun |x y| () (_ BitVec 4) #b1010)\n  (define-fun k ((a Bool)) Bool (not a))\n" ++
    "  (define-fun ok () Bool false)\n  (define-fun t () (Array (_ BitVec 8) Bool) (_ as-array k))\n" ++
    "  (define-fun n () (_ BitVec 16) (_ bv7 16))\n)"

theorem prints_mixedText : Prints mixedModel mixedText := by
  have htext : mixedText = .ofList ("sat".toList ++ '\n' :: '(' :: ("model".toList ++
      (mixedItems.flatMap (fun s => '\n' :: ' ' :: ' ' :: s.write.toList) ++ ['\n', ')']))) := by
    decide +kernel
  have hmodel : Sexp.IsAtom "model" := Sexp.isAtom_of_isWord (by decide)
  have hlays := (lays_lines proper_mixedItems).atom hmodel (Sexp.delimited_cons (by decide) _)
  rw [htext]
  exact .intro (by decide) (.inr rfl) (reverse_perm _) defines_mixedItems hlays.opening

theorem model_of_prints_mixed : model? mixedText = some mixedModel := by
  have hordered : mixedModel.Ordered := by
    unfold Table.Ordered Table.keys
    decide
  have hprintable : ∀ e ∈ mixedModel.entries, Printable e := by
    simp only [mixedModel, forall_mem_cons, not_mem_nil, false_implies, implies_true, and_true]
    refine ⟨⟨by decide, _, _, .bits (by decide) ?_⟩, ⟨by decide, _, _, .bool false⟩,
      ⟨by decide, _, _, .bits (by decide) ?_⟩⟩
    · unfold Bits.Fits
      decide
    · unfold Bits.Fits
      decide
  rw [model_of_prints hordered hprintable prints_mixedText]
  rfl

end Reply

end TagLang
