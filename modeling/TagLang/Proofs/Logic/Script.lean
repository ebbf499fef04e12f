import TagLang.Logic.Script
import TagLang.Proofs.Solver.Sexp
import TagLang.Solver.Reply

/-! # The meaning of SMT-LIB texts

The text of a formula is read as one s-expression, which has the parts of the formula in its own
parts. The formula can be found again in this s-expression, up to the sorts of variables, which the
text does not give where they are used. So two formulas that differ in anything else have different
texts.
-/

namespace TagLang
open Script List

/-! ## S-expressions of formulas -/

namespace Sexp

def node (head : String) (args : List Sexp) : Sexp := .list (.atom head :: args)

def indexed (word : String) (indices : List Nat) : Sexp :=
  node "_" (.atom word :: indices.map fun n => .atom n.repr)

def nary (head empty : String) : List Sexp → Sexp
  | [] => .atom empty
  | [part] => part
  | parts => node head parts

end Sexp

def VarSort.sexp : VarSort → Sexp
  | .bool => .atom "Bool"
  | .bitVec width => .indexed "BitVec" [width]
  | .array index element => .node "Array" [.indexed "BitVec" [index], .indexed "BitVec" [element]]

def Script.declarationSexp (v : String × VarSort) : Sexp := .node (symbol v.1) [v.2.sexp]

mutual

def Formula.sexp : Formula → Sexp
  | .bool value => .atom (if value then "true" else "false")
  | .const bits width => .indexed ("bv" ++ bits.toNat.repr) [width]
  | .var name _ => .atom (symbol name)
  | .not a => .node "not" [a.sexp]
  | .and parts => .nary "and" "true" (sexpAll parts)
  | .or parts => .nary "or" "false" (sexpAll parts)
  | .xor a b => .node "xor" [a.sexp, b.sexp]
  | .implies a b => .node "=>" [a.sexp, b.sexp]
  | .eq a b => .node "=" [a.sexp, b.sexp]
  | .ite c a b => .node "ite" [c.sexp, a.sexp, b.sexp]
  | .binary op a b => .node op.text [a.sexp, b.sexp]
  | .compare cmp a b => .node cmp.text [a.sexp, b.sexp]
  | .neg a => .node "bvneg" [a.sexp]
  | .bitNot a => .node "bvnot" [a.sexp]
  | .signExtend more a => .list [.indexed "sign_extend" [more], a.sexp]
  | .zeroExtend more a => .list [.indexed "zero_extend" [more], a.sexp]
  | .extract count a => .list [.indexed "extract" [count - 1, 0], a.sexp]
  | .select array index => .node "select" [array.sexp, index.sexp]
  | .quantifier kind vars body =>
    .node (quantifierWord kind) [.list (vars.map declarationSexp), body.sexp]

def Formula.sexpAll : List Formula → List Sexp
  | [] => []
  | f :: fs => f.sexp :: sexpAll fs

end

/-! ## Writing -/

namespace Sexp

theorem writeAll_eq_map (ss : List Sexp) : writeAll ss = ss.map write := by
  induction ss with
  | nil => rfl
  | cons s ss ih => rw [writeAll, ih, map_cons]

theorem write_list (s : Sexp) (ss : List Sexp) :
    (list (s :: ss)).write = form s.write (ss.map write) := by
  rw [write, writeAll_eq_map, map_cons, form]

theorem write_node (head : String) (args : List Sexp) :
    (node head args).write = form head (args.map write) :=
  write_list (.atom head) args

theorem write_indexed (word : String) (indices : List Nat) :
    (indexed word indices).write = form "_" (word :: indices.map Nat.repr) := by
  rw [indexed, write_node, map_cons, map_map, write]
  rfl

theorem write_nary (head empty : String) (ss : List Sexp) :
    (nary head empty ss).write = Script.nary head empty (ss.map write) := by
  match ss with
  | [] => rfl
  | [s] => rfl
  | s :: s' :: ss => exact write_node head _

end Sexp

theorem VarSort.write_sexp (sort : VarSort) : sort.sexp.write = sort.render := by
  cases sort with
  | bool => rfl
  | bitVec width =>
    have hrender : (bitVec width).render = s!"(_ BitVec {width})" := rfl
    rw [sexp, Sexp.write_indexed, hrender, ← String.toList_inj]
    simp [form, toString]
  | array index element =>
    have hrender : (array index element).render =
        s!"(Array (_ BitVec {index}) (_ BitVec {element}))" := rfl
    rw [sexp, Sexp.write_node, hrender, ← String.toList_inj]
    simp [Sexp.write_indexed, form, toString]

theorem Script.write_declarationSexp (v : String × VarSort) :
    (declarationSexp v).write = declaration v := by
  rw [declarationSexp, Sexp.write_node, map_singleton, VarSort.write_sexp]
  rfl

mutual

theorem Formula.write_sexp : (f : Formula) → f.sexp.write = f.smtLib
  | .bool value => by rw [sexp, smtLib, Sexp.write]
  | .const bits width => by
    rw [sexp, smtLib, Sexp.write_indexed, ← String.toList_inj]
    simp [form, toString]
  | .var name _ => by rw [sexp, smtLib, Sexp.write]
  | .not a | .neg a | .bitNot a => by rw [sexp, smtLib, Sexp.write_node, map_singleton, write_sexp a]
  | .and parts | .or parts => by rw [sexp, smtLib, Sexp.write_nary, write_sexpAll parts]
  | .xor a b | .implies a b | .eq a b | .binary _ a b | .compare _ a b | .select a b => by
    rw [sexp, smtLib, Sexp.write_node, map_cons, map_singleton, write_sexp a, write_sexp b]
  | .ite c a b => by
    rw [sexp, smtLib, Sexp.write_node, map_cons, map_cons, map_singleton, write_sexp c, write_sexp a,
      write_sexp b]
  | .signExtend more a | .zeroExtend more a | .extract count a => by
    rw [sexp, smtLib, Sexp.write_list, map_singleton, write_sexp a, Sexp.write_indexed]
    refine congrArg (form · [a.smtLib]) (String.toList_inj.mp ?_)
    simp [form, toString]
  | .quantifier kind vars body => by
    have hvars : (vars.map declarationSexp).map Sexp.write = vars.map declaration := by
      rw [map_map]
      exact map_congr_left fun v _ => write_declarationSexp v
    rw [sexp, smtLib, Sexp.write_node, map_cons, map_singleton, write_sexp body, Sexp.write,
      Sexp.writeAll_eq_map, hvars]

theorem Formula.write_sexpAll : (fs : List Formula) → (sexpAll fs).map Sexp.write = smtLibAll fs
  | [] => rfl
  | f :: fs => by rw [sexpAll, smtLibAll, map_cons, write_sexp f, write_sexpAll fs]

end

/-! ## Atoms -/

namespace Sexp

theorem isDelimiter_of_isAlphanum {c : Char} (h : c.isAlphanum = true) : isDelimiter c = false := by
  have hrange : 48 ≤ c.toNat ∧ c.toNat ≤ 122 := by
    have hval : c.toNat = c.val.toNat := rfl
    delta Char.isAlphanum Char.isAlpha Char.isUpper Char.isLower Char.isDigit at h
    simp [UInt32.le_iff_toNat_le] at h
    omega
  have hparens : c ≠ '(' ∧ c ≠ ')' := by
    constructor <;>
    · rintro rfl
      exact absurd hrange.1 (by decide)
  have hblank : Text.isBlank c = false := by
    simp [Text.isBlank, Text.Ranges.holds, Text.blankRanges]
    omega
  simp [isDelimiter, hparens, hblank]

theorem isDelimiter_of_isSymbolChar {c : Char} (h : isSymbolChar c = true) : isDelimiter c = false := by
  have hsigns : ("~!@$%^&*_-+=<>.?/".toList.all fun d => !isDelimiter d) = true := by decide
  rw [isSymbolChar, Bool.or_eq_true] at h
  rcases h with halnum | hsign
  · exact isDelimiter_of_isAlphanum halnum
  · simpa using all_eq_true.mp hsigns c (contains_iff_mem.mp hsign)

def isWord (text : String) : Bool := !text.toList.isEmpty && text.toList.all isSymbolChar

theorem isWord_append {s t : String} (hs : isWord s = true) (ht : isWord t = true) :
    isWord (s ++ t) = true := by
  simp only [isWord, Bool.and_eq_true] at hs ht ⊢
  rw [String.toList_append, all_append, hs.2, ht.2]
  exact ⟨by simpa using fun h => absurd h (by simpa using hs.1), rfl⟩

theorem isWord_repr (n : Nat) : isWord n.repr = true := by
  have hdigits (c : Char) (hc : c ∈ Nat.toDigits 10 n) : isSymbolChar c = true := by
    rw [isSymbolChar, Char.isAlphanum, Nat.isDigit_of_mem_toDigits (by decide) (by decide) hc,
      Bool.or_true, Bool.true_or]
  rw [isWord, Nat.toList_repr, all_eq_true.mpr hdigits, Bool.and_true]
  simp

theorem isAtom_of_isWord {text : String} (h : isWord text = true) : IsAtom text := by
  obtain ⟨hne, hall⟩ := Bool.and_eq_true_iff.mp h
  have hchars (c : Char) (hc : c ∈ text.toList) : isSymbolChar c = true := all_eq_true.mp hall c hc
  rw [← String.ofList_toList (s := text)]
  cases hcs : text.toList with
  | nil => simp [hcs] at hne
  | cons c cs =>
    rw [hcs] at hchars
    refine .word ?_ fun d hd => isDelimiter_of_isSymbolChar (hchars d hd)
    rintro rfl
    exact absurd (hchars '|' mem_cons_self) (by decide)

theorem isAtom_symbol (name : String) : IsAtom (symbol name) := by
  unfold symbol
  dsimp only
  split
  · next hsimple =>
    simp only [Bool.and_eq_true] at hsimple
    exact isAtom_of_isWord (Bool.and_eq_true_iff.mpr ⟨hsimple.1.1.1, hsimple.1.2⟩)
  · have hquoted (cs : List Char) : "|" ++ String.ofList cs ++ "|" = .ofList ('|' :: (cs ++ ['|'])) := by
      rw [← String.toList_inj]
      simp
    rw [hquoted]
    refine .quoted ?_
    rintro hbar
    obtain ⟨c, -, hc⟩ := mem_map.mp hbar
    split at hc
    · exact absurd hc (by decide)
    · exact absurd hc ‹_›

theorem properAll_iff {ss : List Sexp} : ProperAll ss ↔ ∀ s ∈ ss, s.Proper := by
  induction ss with
  | nil => simp [ProperAll]
  | cons s ss ih => rw [ProperAll, ih, forall_mem_cons]

theorem proper_node {head : String} {args : List Sexp} (hhead : isWord head = true)
    (hargs : ProperAll args) : (node head args).Proper := ⟨isAtom_of_isWord hhead, hargs⟩

theorem proper_indexed {word : String} (hword : isWord word = true) (indices : List Nat) :
    (indexed word indices).Proper := by
  refine proper_node (by decide) ⟨isAtom_of_isWord hword, properAll_iff.mpr fun s hs => ?_⟩
  obtain ⟨n, -, rfl⟩ := mem_map.mp hs
  exact isAtom_of_isWord (isWord_repr n)

theorem proper_nary {head empty : String} {ss : List Sexp} (hhead : isWord head = true)
    (hempty : isWord empty = true) (hss : ProperAll ss) : (nary head empty ss).Proper := by
  match ss with
  | [] => exact isAtom_of_isWord hempty
  | [s] => exact hss.1
  | s :: s' :: ss => exact proper_node hhead hss

end Sexp

open Sexp in
theorem VarSort.proper_sexp (sort : VarSort) : sort.sexp.Proper := by
  have hbits (width : Nat) : (indexed "BitVec" [width]).Proper := proper_indexed (by decide) _
  cases sort with
  | bool => exact isAtom_of_isWord (by decide)
  | bitVec width => exact hbits width
  | array index element => exact proper_node (by decide) ⟨hbits index, hbits element, trivial⟩

namespace Formula
open Sexp

mutual

theorem proper_sexp : (f : Formula) → f.sexp.Proper
  | .bool value => by
    cases value <;> exact isAtom_of_isWord (by decide)
  | .const bits width => proper_indexed (isWord_append (by decide) (isWord_repr _)) _
  | .var name _ => isAtom_symbol name
  | .not a | .neg a | .bitNot a => proper_node (by decide) ⟨proper_sexp a, trivial⟩
  | .and parts | .or parts => proper_nary (by decide) (by decide) (proper_sexpAll parts)
  | .xor a b | .implies a b | .eq a b | .select a b =>
    proper_node (by decide) ⟨proper_sexp a, proper_sexp b, trivial⟩
  | .ite c a b => proper_node (by decide) ⟨proper_sexp c, proper_sexp a, proper_sexp b, trivial⟩
  | .binary op a b => proper_node (by cases op <;> decide) ⟨proper_sexp a, proper_sexp b, trivial⟩
  | .compare cmp a b => proper_node (by cases cmp <;> decide) ⟨proper_sexp a, proper_sexp b, trivial⟩
  | .signExtend _ a | .zeroExtend _ a | .extract _ a =>
    ⟨proper_indexed (by decide) _, proper_sexp a, trivial⟩
  | .quantifier kind vars body => by
    refine proper_node (by cases kind <;> decide)
      ⟨properAll_iff.mpr fun s hs => ?_, proper_sexp body, trivial⟩
    obtain ⟨v, -, rfl⟩ := mem_map.mp hs
    exact ⟨isAtom_symbol v.1, v.2.proper_sexp, trivial⟩

theorem proper_sexpAll : (fs : List Formula) → ProperAll (sexpAll fs)
  | [] => trivial
  | f :: fs => ⟨proper_sexp f, proper_sexpAll fs⟩

end

theorem readAll_smtLib (f : Formula) : Sexp.readAll f.smtLib = [f.sexp] := by
  rw [← f.write_sexp]
  exact readAll_write f.proper_sexp

end Formula

/-! ## Formulas of s-expressions -/

namespace Formula

def ofNode? (head : String) (args : List Formula) : Option Formula :=
  match head, args with
  | "not", [a] => some (.not a)
  | "and", parts => some (.and parts)
  | "or", parts => some (.or parts)
  | "xor", [a, b] => some (.xor a b)
  | "=>", [a, b] => some (.implies a b)
  | "=", [a, b] => some (.eq a b)
  | "ite", [c, a, b] => some (.ite c a b)
  | "bvneg", [a] => some (.neg a)
  | "bvnot", [a] => some (.bitNot a)
  | "select", [a, i] => some (.select a i)
  | op, [a, b] =>
    ((BitOp.all.find? (·.text = op)).map (.binary · a b)).or
      ((BitCmp.all.find? (·.text = op)).map (.compare · a b))
  | _, _ => none

theorem ofNode?_binary (op : BitOp) (a b : Formula) : ofNode? op.text [a, b] = some (.binary op a b) := by
  cases op <;> rfl

theorem ofNode?_compare (cmp : BitCmp) (a b : Formula) :
    ofNode? cmp.text [a, b] = some (.compare cmp a b) := by
  cases cmp <;> rfl

mutual

/-- The formula without the sorts of the variables where they are used. -/
def untyped : Formula → Formula
  | .bool value => .bool value
  | .const bits width => .const bits width
  | .var name _ => .var name .bool
  | .not a => .not a.untyped
  | .and parts => .and (untypedAll parts)
  | .or parts => .or (untypedAll parts)
  | .xor a b => .xor a.untyped b.untyped
  | .implies a b => .implies a.untyped b.untyped
  | .eq a b => .eq a.untyped b.untyped
  | .ite c a b => .ite c.untyped a.untyped b.untyped
  | .binary op a b => .binary op a.untyped b.untyped
  | .compare cmp a b => .compare cmp a.untyped b.untyped
  | .neg a => .neg a.untyped
  | .bitNot a => .bitNot a.untyped
  | .signExtend more a => .signExtend more a.untyped
  | .zeroExtend more a => .zeroExtend more a.untyped
  | .extract count a => .extract count a.untyped
  | .select array index => .select array.untyped index.untyped
  | .quantifier kind vars body => .quantifier kind vars body.untyped

def untypedAll : List Formula → List Formula
  | [] => []
  | f :: fs => f.untyped :: untypedAll fs

end

mutual

/-- Conjunctions and disjunctions have at least two parts, at least one bit is kept where bits are
cut off, and no name has a bar. -/
def Legible : Formula → Prop
  | .bool _ | .const _ _ => True
  | .var name _ => '|' ∉ name.toList
  | .not a | .neg a | .bitNot a | .signExtend _ a | .zeroExtend _ a => a.Legible
  | .and parts | .or parts => 2 ≤ parts.length ∧ LegibleAll parts
  | .xor a b | .implies a b | .eq a b | .binary _ a b | .compare _ a b | .select a b =>
    a.Legible ∧ b.Legible
  | .ite c a b => c.Legible ∧ a.Legible ∧ b.Legible
  | .extract count a => 1 ≤ count ∧ a.Legible
  | .quantifier _ vars body => (∀ v ∈ vars, '|' ∉ v.1.toList) ∧ body.Legible

def LegibleAll : List Formula → Prop
  | [] => True
  | f :: fs => f.Legible ∧ LegibleAll fs

end

end Formula

namespace Sexp

def numeral (cs : List Char) : Nat := Nat.ofDigitChars 10 cs 0

theorem numeral_repr (n : Nat) : numeral n.repr.toList = n := by
  rw [Nat.toList_repr]
  exact Nat.ofDigitChars_ten_toDigits

def sort? : Sexp → Option VarSort
  | .atom "Bool" => some .bool
  | .list [.atom "_", .atom "BitVec", .atom width] => some (.bitVec (numeral width.toList))
  | .list [.atom "Array", .list [_, _, .atom index], .list [_, _, .atom element]] =>
    some (.array (numeral index.toList) (numeral element.toList))
  | _ => none

def declaration? : Sexp → Option (String × VarSort)
  | .list [.atom name, sort] => sort.sort?.map (Reply.unquote name, ·)
  | _ => none

def constant? : List Sexp → Option Formula
  | [.atom value, .atom width] =>
    some (.const (.ofNat (numeral (value.toList.drop 2))) (numeral width.toList))
  | _ => none

def ofIndexed? (a : Formula) : List Sexp → Option Formula
  | [.atom "_", .atom "sign_extend", .atom more] => some (.signExtend (numeral more.toList) a)
  | [.atom "_", .atom "zero_extend", .atom more] => some (.zeroExtend (numeral more.toList) a)
  | [.atom "_", .atom "extract", .atom last, _] => some (.extract (numeral last.toList + 1) a)
  | _ => none

mutual

def formula? : Sexp → Option Formula
  | .atom "true" => some (.bool true)
  | .atom "false" => some (.bool false)
  | .atom name => some (.var (Reply.unquote name) .bool)
  | .list (.atom "_" :: rest) => constant? rest
  | .list [.atom "forall", .list vars, body] => do
    return .quantifier .universal (← vars.mapM declaration?) (← body.formula?)
  | .list [.atom "exists", .list vars, body] => do
    return .quantifier .existential (← vars.mapM declaration?) (← body.formula?)
  | .list (.atom head :: args) => do Formula.ofNode? head (← formulas? args)
  | .list [.list indices, a] => do ofIndexed? (← a.formula?) indices
  | .list _ => none

def formulas? : List Sexp → Option (List Formula)
  | [] => some []
  | s :: ss => do return (← s.formula?) :: (← formulas? ss)

end

theorem dropWhile_bars {cs : List Char} (h : '|' ∉ cs) : cs.dropWhile (· = '|') = cs := by
  cases cs with
  | nil => rfl
  | cons c cs =>
    have hc : c ≠ '|' := fun hc => h (hc ▸ mem_cons_self)
    exact dropWhile_cons_of_neg (by simpa using hc)

theorem dropWhile_quoted {cs : List Char} (h : '|' ∉ cs) :
    ((('|' :: (cs ++ ['|'])).dropWhile (· = '|')).reverse.dropWhile (· = '|')).reverse = cs := by
  rw [dropWhile_cons_of_pos (by simp)]
  cases cs with
  | nil => rfl
  | cons c cs =>
    have hc : c ≠ '|' := fun hc => h (hc ▸ mem_cons_self)
    rw [cons_append, dropWhile_cons_of_neg (by simpa using hc), ← cons_append, reverse_append,
      reverse_singleton, singleton_append, dropWhile_cons_of_pos (by simp),
      dropWhile_bars (by rwa [mem_reverse]), reverse_reverse]

theorem unquote_symbol {name : String} (h : '|' ∉ name.toList) : Reply.unquote (symbol name) = name := by
  unfold symbol
  dsimp only
  split
  · rw [Reply.unquote, dropWhile_bars h, dropWhile_bars (by simpa using h), reverse_reverse,
      String.ofList_toList]
  · have hmap : name.toList.map (fun c => if c = '|' then '_' else c) = name.toList :=
      (map_congr_left fun c hc => if_neg (ne_of_mem_of_not_mem hc h)).trans (map_id' _)
    have htext : ("|" ++ String.ofList name.toList ++ "|").toList =
        '|' :: (name.toList ++ ['|']) := by simp
    rw [hmap, Reply.unquote, htext, dropWhile_quoted h, String.ofList_toList]

theorem symbol_ne_of_mem {word : String} (hreserved : word ∈ reserved) (name : String) :
    symbol name ≠ word := by
  -- Only a quoted name begins with a bar, and no reserved word does.
  have hbars : ∀ w ∈ reserved, w.toList.head? ≠ some '|' := by decide
  intro heq
  unfold symbol at heq
  dsimp only at heq
  split at heq
  · next hsimple =>
    simp only [Bool.and_eq_true, Bool.not_eq_true', contains_eq_mem, decide_eq_false_iff_not] at hsimple
    exact hsimple.2 (heq ▸ hreserved)
  · exact hbars word hreserved (by rw [← heq]; simp)

theorem formula?_symbol {name : String} (h : '|' ∉ name.toList) :
    (Sexp.atom (symbol name)).formula? = some (.var name .bool) := by
  rw [formula?, unquote_symbol h]
  · exact symbol_ne_of_mem (by decide) name
  · exact symbol_ne_of_mem (by decide) name

theorem formula?_node {head : String} (h : head ∉ ["_", "forall", "exists"]) (args : List Sexp) :
    (node head args).formula? = (formulas? args).bind (Formula.ofNode? head) := by
  simp only [mem_cons, not_mem_nil, or_false, not_or] at h
  rw [node, formula?]
  · rfl
  · exact h.1
  · exact fun _ _ hall _ => h.2.1 ‹_›
  · exact fun _ _ hex _ => h.2.2 ‹_›

theorem formula?_indexed (word : String) (indices : List Nat) (s : Sexp) :
    (Sexp.list [indexed word indices, s]).formula? =
      s.formula?.bind (ofIndexed? · (.atom "_" :: .atom word :: indices.map fun n => .atom n.repr)) := rfl

theorem nary_of_two_le {ss : List Sexp} (h : 2 ≤ ss.length) (head empty : String) :
    nary head empty ss = node head ss := by
  match ss, h with
  | _ :: _ :: _, _ => rfl

theorem sort?_sexp (sort : VarSort) : sort.sexp.sort? = some sort := by
  cases sort with
  | bool => rfl
  | bitVec width =>
    have hread : (VarSort.bitVec width).sexp.sort? = some (.bitVec (numeral width.repr.toList)) := rfl
    rw [hread, numeral_repr]
  | array index element =>
    have hread : (VarSort.array index element).sexp.sort? =
        some (.array (numeral index.repr.toList) (numeral element.repr.toList)) := rfl
    rw [hread, numeral_repr, numeral_repr]

theorem mapM_declaration? {vars : List (String × VarSort)} (h : ∀ v ∈ vars, '|' ∉ v.1.toList) :
    (vars.map declarationSexp).mapM declaration? = some vars := by
  induction vars with
  | nil => rfl
  | cons v vars ih =>
    have hv : declaration? (declarationSexp v) = some v := by
      rw [declarationSexp, node, declaration?, sort?_sexp, unquote_symbol (h v mem_cons_self)]
      rfl
    rw [map_cons, mapM_cons, hv, ih fun v hv => h v (mem_cons_of_mem _ hv)]
    rfl

end Sexp

namespace Formula
open Sexp

theorem length_sexpAll (fs : List Formula) : (sexpAll fs).length = fs.length := by
  induction fs with
  | nil => rfl
  | cons f fs ih => rw [sexpAll, length_cons, length_cons, ih]

mutual

theorem formula?_sexp : (f : Formula) → f.Legible → f.sexp.formula? = some f.untyped
  | .bool value, _ => by cases value <;> rfl
  | .const bits width, _ => by
    have hvalue : ("bv" ++ bits.toNat.repr).toList.drop 2 = bits.toNat.repr.toList := by simp
    have hread : (Formula.const bits width).sexp.formula? =
        some (.const (.ofNat (numeral (("bv" ++ bits.toNat.repr).toList.drop 2)))
          (numeral width.repr.toList)) := rfl
    rw [hread, hvalue, numeral_repr, numeral_repr, UInt64.ofNat_toNat, untyped]
  | .var name _, h => formula?_symbol h
  | .not a, h | .neg a, h | .bitNot a, h => by
    rw [sexp, formula?_node (by decide), Sexp.formulas?, formula?_sexp a h]
    rfl
  | .and parts, h | .or parts, h => by
    have htwo : 2 ≤ (sexpAll parts).length := by
      rw [length_sexpAll]
      exact h.1
    rw [sexp, nary_of_two_le htwo, formula?_node (by decide), formulas?_sexpAll parts h.2]
    rfl
  | .xor a b, h | .implies a b, h | .eq a b, h | .select a b, h => by
    rw [sexp, formula?_node (by decide), Sexp.formulas?, formula?_sexp a h.1, Sexp.formulas?,
      formula?_sexp b h.2]
    rfl
  | .ite c a b, h => by
    rw [sexp, formula?_node (by decide), Sexp.formulas?, formula?_sexp c h.1, Sexp.formulas?,
      formula?_sexp a h.2.1, Sexp.formulas?, formula?_sexp b h.2.2]
    rfl
  | .binary op a b, h => by
    rw [sexp, formula?_node (by cases op <;> decide), Sexp.formulas?, formula?_sexp a h.1, Sexp.formulas?,
      formula?_sexp b h.2]
    exact ofNode?_binary op _ _
  | .compare cmp a b, h => by
    rw [sexp, formula?_node (by cases cmp <;> decide), Sexp.formulas?, formula?_sexp a h.1,
      Sexp.formulas?, formula?_sexp b h.2]
    exact ofNode?_compare cmp _ _
  | .signExtend more a, h => by
    rw [sexp, formula?_indexed, formula?_sexp a h]
    exact congrArg (fun n => some (signExtend n a.untyped)) (numeral_repr more)
  | .zeroExtend more a, h => by
    rw [sexp, formula?_indexed, formula?_sexp a h]
    exact congrArg (fun n => some (zeroExtend n a.untyped)) (numeral_repr more)
  | .extract count a, h => by
    have hcount : numeral (count - 1).repr.toList + 1 = count := by
      rw [numeral_repr, Nat.sub_add_cancel h.1]
    rw [sexp, formula?_indexed, formula?_sexp a h.2]
    exact congrArg (fun n => some (extract n a.untyped)) hcount
  | .quantifier kind vars body, h => by
    have hread : (Formula.quantifier kind vars body).sexp.formula? = (do
        return .quantifier kind (← (vars.map declarationSexp).mapM declaration?)
          (← body.sexp.formula?)) := by
      cases kind <;> rfl
    rw [hread, mapM_declaration? h.1, formula?_sexp body h.2]
    rfl

theorem formulas?_sexpAll :
    (fs : List Formula) → LegibleAll fs → formulas? (sexpAll fs) = some (untypedAll fs)
  | [], _ => rfl
  | f :: fs, h => by
    rw [sexpAll, Sexp.formulas?, formula?_sexp f h.1, formulas?_sexpAll fs h.2]
    rfl

end

theorem sexp_eq_of_smtLib_eq {f g : Formula} (h : f.smtLib = g.smtLib) : f.sexp = g.sexp := by
  have hread := f.readAll_smtLib
  rw [h, g.readAll_smtLib] at hread
  exact (singleton_inj.mp hread).symm

/-- The text of a formula is read as one s-expression, that of the formula. And formulas have the
same text only if they are equal but for the sorts of their variables. -/
theorem smtLib_denotes :
    (∀ f : Formula, Sexp.readAll f.smtLib = [f.sexp]) ∧
      ∀ f g : Formula, f.Legible → g.Legible → f.smtLib = g.smtLib → f.untyped = g.untyped := by
  refine ⟨readAll_smtLib, fun f g hf hg h => ?_⟩
  have hfound := formula?_sexp f hf
  rw [sexp_eq_of_smtLib_eq h, formula?_sexp g hg] at hfound
  exact (Option.some.inj hfound).symm

/-- The low half of every byte is three, or a condition with a name of two words holds. -/
def halves (sort : VarSort) : Formula :=
  .or [.quantifier .universal [("i", .bitVec 8)] (.eq (.extract 4 (.var "i" sort)) (.const 3 4)),
    .var "a b" .bool]

theorem legible_halves (sort : VarSort) : (halves sort).Legible := by
  simp [halves, Legible, LegibleAll]

theorem smtLib_denotes_halves :
    Sexp.readAll "(or (forall ((i (_ BitVec 8))) (= ((_ extract 3 0) i) (_ bv3 4))) |a b|)" =
      [(halves (.bitVec 8)).sexp] ∧
    (halves (.bitVec 8)).Legible ∧ (halves .bool).Legible ∧
      (halves (.bitVec 8)).smtLib = (halves .bool).smtLib ∧
    (halves (.bitVec 8)).untyped = (halves .bool).untyped := by
  have htext : (halves (.bitVec 8)).smtLib =
      "(or (forall ((i (_ BitVec 8))) (= ((_ extract 3 0) i) (_ bv3 4))) |a b|)" := by
    decide
  have hsame : (halves (.bitVec 8)).smtLib = (halves .bool).smtLib := rfl
  obtain ⟨hread, hequal⟩ := smtLib_denotes
  refine ⟨htext ▸ hread (halves (.bitVec 8)), legible_halves _, legible_halves _, hsame, ?_⟩
  exact hequal _ _ (legible_halves _) (legible_halves _) hsame

end Formula

end TagLang
