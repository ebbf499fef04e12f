import Mathlib.Data.List.Basic
import TagLang.Proofs.Coverage.Value
import TagLang.Proofs.Token.Name

/-! # Constant patterns and their written forms

Constant patterns are compared by their written forms. A literal, an option without a value and a
variant never have the same form: a text ends with its quote, a variant with an owner has a dot
before its name, a number begins with a digit or a sign, and a name is none of the words of the
language.
-/

namespace TagLang
open List

theorem toList_toString_int (n : Int) :
    (toString n).toList = (if n < 0 then ['-'] else []) ++ Nat.toDigits 10 n.natAbs := by
  cases n with
  | ofNat n =>
    have hrepr : toString (Int.ofNat n) = n.repr := rfl
    rw [hrepr, Nat.toList_repr]
    simp
  | negSucc n =>
    have hrepr : toString (Int.negSucc n) = "-" ++ (n + 1).repr := rfl
    rw [hrepr, String.toList_append, Nat.toList_repr]
    simp

theorem isDigit_of_mem_digits {c : Char} {n : Nat} (h : c ∈ Nat.toDigits 10 n) : c.isDigit = true :=
  Nat.isDigit_of_mem_toDigits (by decide) (by decide) h

theorem toString_int_injective {m n : Int} (h : toString m = toString n) : m = n := by
  have hlist := congrArg String.toList h
  rw [toList_toString_int, toList_toString_int] at hlist
  have hsign (k : Nat) (cs : List Char) : Nat.toDigits 10 k ≠ '-' :: cs := by
    intro heq
    have hdigit : ('-').isDigit = true := isDigit_of_mem_digits (n := k) (heq ▸ mem_cons_self)
    cases hdigit
  have habs (h : Nat.toDigits 10 m.natAbs = Nat.toDigits 10 n.natAbs) : m.natAbs = n.natAbs := by
    rw [← Nat.ofDigitChars_ten_toDigits (n := m.natAbs), h, Nat.ofDigitChars_ten_toDigits]
  split at hlist <;> split at hlist
  · have hsize := habs (cons.inj hlist).2
    omega
  · exact absurd hlist.symm (hsign _ _)
  · exact absurd hlist (hsign _ _)
  · have hsize := habs hlist
    omega

namespace Coverage

/-- What a pattern without parts inside stands for. -/
inductive Constant
  | literal (l : Literal)
  | noneOf
  | variant (owner : Option String) (name : String)
deriving DecidableEq, Repr

namespace Constant

open Lexeme

def render : Constant → String
  | .literal l => l.render
  | .noneOf => "None"
  | .variant (some owner) name => owner ++ "." ++ name
  | .variant none name => name

def takes : Constant → Value → Bool
  | .literal l, v => v = .ofLiteral l
  | .noneOf, v => v = .noneOf
  | .variant o n, .variant owner name => n = name && Bound.Pattern.ownerFits owner o
  | .variant o n, .carrying owner name _ => n = name && Bound.Pattern.ownerFits owner o
  | _, _ => false

def Named : Constant → Prop
  | .variant owner name => IsName name.toList ∧ (owner = none → name ≠ "None")
  | _ => True

inductive Form
  | quoted
  | dotted
  | number
  | word
deriving DecidableEq, Repr

def Form.of (cs : List Char) : Form :=
  if cs.getLast? = some '"' then .quoted
  else if '.' ∈ cs then .dotted
  else if cs.head?.any fun c => c.isDigit || c = '-' then .number
  else .word

def form : Constant → Form
  | .literal (.int _) => .number
  | .literal (.str _) => .quoted
  | .variant (some _) _ => .dotted
  | _ => .word

theorem isNameStart_of_number {c : Char} (h : (c.isDigit || c = '-') = true) : isNameStart c = false := by
  have hrange : 45 ≤ c.toNat ∧ c.toNat ≤ 57 := by
    rcases Bool.or_eq_true_iff.mp h with hdigit | hsign
    · rw [Char.isDigit_iff_toNat] at hdigit
      have hzero : '0'.toNat = 48 := rfl
      have hnine : '9'.toNat = 57 := rfl
      omega
    · rw [of_decide_eq_true hsign]
      decide
  have halpha : c.isAlpha = false := by
    rw [Bool.eq_false_iff]
    intro halpha
    delta Char.isAlpha Char.isUpper Char.isLower at halpha
    simp only [Bool.or_eq_true, Bool.and_eq_true, decide_eq_true_eq, UInt32.le_iff_toNat_le,
      ge_iff_le] at halpha
    have hvalue : c.toNat = c.val.toNat := rfl
    have hupper : 'A'.val.toNat = 65 := rfl
    have hlower : 'a'.val.toNat = 97 := rfl
    omega
  have hunderscore : (c == '_') = false := by
    rw [beq_eq_false_iff_ne]
    rintro rfl
    revert hrange
    decide
  rw [isNameStart, Text.isAlphabetic, if_pos (by omega), halpha, hunderscore]
  rfl

theorem form_name {name : String} (h : IsName name.toList) : Form.of name.toList = .word := by
  have hlast : name.toList.getLast? ≠ some '"' :=
    fun hlast => h.notMem rfl (mem_of_getLast? hlast)
  have hdot : '.' ∉ name.toList := h.notMem rfl
  have hhead : (name.toList.head?.any fun c => c.isDigit || c = '-') = false := by
    obtain ⟨c, hc, hstart⟩ := h.start
    rw [Option.mem_def.mp hc, Option.any_some]
    rw [Bool.eq_false_iff]
    intro hnumber
    rw [isNameStart_of_number hnumber] at hstart
    cases hstart
  rw [Form.of, if_neg hlast, if_neg hdot, hhead]
  rfl

theorem form_int (n : Int) : Form.of (toString n).toList = .number := by
  have hchar : ∀ c ∈ (toString n).toList, (c.isDigit || c = '-') = true := by
    intro c hc
    rw [toList_toString_int] at hc
    rcases mem_append.mp hc with hc | hc
    · split at hc
      · simp [mem_singleton.mp hc]
      · cases hc
    · simp [isDigit_of_mem_digits hc]
  have hne : (toString n).toList ≠ [] := by
    rw [toList_toString_int]
    simp
  have hlast : (toString n).toList.getLast? ≠ some '"' := by
    intro hlast
    have hquote := hchar _ (mem_of_getLast? hlast)
    revert hquote
    decide
  have hdot : '.' ∉ (toString n).toList := by
    intro hdot
    have hdot := hchar _ hdot
    revert hdot
    decide
  have hhead : ((toString n).toList.head?.any fun c => c.isDigit || c = '-') = true := by
    rw [head?_eq_some_head hne, Option.any_some]
    exact hchar _ (head_mem hne)
  rw [Form.of, if_neg hlast, if_neg hdot, if_pos hhead]

theorem form_dotted (owner : String) {name : String} (h : IsName name.toList) :
    Form.of (owner ++ "." ++ name).toList = .dotted := by
  have hlast : (owner ++ "." ++ name).toList.getLast? ≠ some '"' := by
    rw [String.toList_append, getLast?_append_of_ne_nil _ h.ne_nil]
    exact fun hlast => h.notMem rfl (mem_of_getLast? hlast)
  have hdot : '.' ∈ (owner ++ "." ++ name).toList := by simp
  rw [Form.of, if_neg hlast, if_pos hdot]

theorem form_quoted (s : String) : Form.of ("\"" ++ s ++ "\"").toList = .quoted := by
  have hlast : ("\"" ++ s ++ "\"").toList.getLast? = some '"' := by
    rw [String.toList_append]
    exact getLast?_concat
  rw [Form.of, if_pos hlast]

theorem form_render {c : Constant} (h : c.Named) : Form.of c.render.toList = c.form := by
  cases c with
  | literal l =>
    cases l with
    | int n => exact form_int n
    | str s => exact form_quoted s
    | bool b => cases b <;> rfl
    | null => rfl
  | noneOf => rfl
  | variant owner name =>
    cases owner with
    | none => exact form_name h.1
    | some owner => exact form_dotted owner h.1

theorem dotted_injective {o o' n n' : String} (hn : IsName n.toList) (hn' : IsName n'.toList)
    (h : o ++ "." ++ n = o' ++ "." ++ n') : o = o' ∧ n = n' := by
  -- Behind the last dot stands the name.
  have hname (o n : String) (hn : IsName n.toList) :
      (o ++ "." ++ n).toList.reverse.takeWhile (· ≠ '.') = n.toList.reverse := by
    have hnone : ∀ c ∈ n.toList.reverse, decide (c ≠ '.') = true := by
      intro c hc
      rw [decide_eq_true_eq]
      rintro rfl
      exact hn.notMem rfl (mem_reverse.mp hc)
    have hsplit : (o ++ "." ++ n).toList.reverse = n.toList.reverse ++ '.' :: o.toList.reverse := by simp
    rw [hsplit, takeWhile_append_of_pos hnone]
    simp
  have hnames : n = n' := by
    apply String.toList_injective
    rw [← reverse_inj, ← hname o n hn, h, hname o' n' hn']
  subst hnames
  refine ⟨?_, rfl⟩
  apply String.toList_injective
  have hlists := congrArg String.toList h
  simpa using hlists

def ofWord (s : String) : Constant :=
  if s = "true" then .literal (.bool true)
  else if s = "false" then .literal (.bool false)
  else if s = "null" then .literal .null
  else if s = "None" then .noneOf
  else .variant none s

theorem ofWord_render {c : Constant} (h : c.Named) (hform : c.form = .word) : ofWord c.render = c := by
  cases c with
  | noneOf => rfl
  | literal l =>
    cases l with
    | bool b => cases b <;> rfl
    | null => rfl
    | int | str => cases hform
  | variant owner name =>
    cases owner with
    | some owner => cases hform
    | none =>
      have hword := h.1.word
      rw [String.ofList_toList] at hword
      simp only [mem_cons, not_mem_nil, or_false, not_or] at hword
      rw [render, ofWord, if_neg hword.1, if_neg hword.2.1, if_neg hword.2.2, if_neg (h.2 rfl)]

section Forms

variable {c : Constant}

theorem exists_int (h : c.form = .number) : ∃ n, c = .literal (.int n) := by
  unfold form at h
  split at h <;> cases h
  exact ⟨_, rfl⟩

theorem exists_str (h : c.form = .quoted) : ∃ s, c = .literal (.str s) := by
  unfold form at h
  split at h <;> cases h
  exact ⟨_, rfl⟩

theorem exists_owned (h : c.form = .dotted) : ∃ owner name, c = .variant (some owner) name := by
  unfold form at h
  split at h <;> cases h
  exact ⟨_, _, rfl⟩

end Forms

theorem render_injective {c d : Constant} (hc : c.Named) (hd : d.Named) (h : c.render = d.render) :
    c = d := by
  have hform : d.form = c.form := by rw [← form_render hc, ← form_render hd, h]
  cases hcase : c.form with
  | number =>
    obtain ⟨m, rfl⟩ := exists_int hcase
    obtain ⟨n, rfl⟩ := exists_int (hform.trans hcase)
    rw [toString_int_injective h]
  | quoted =>
    obtain ⟨s, rfl⟩ := exists_str hcase
    obtain ⟨t, rfl⟩ := exists_str (hform.trans hcase)
    have hquotes : "\"" ++ s ++ "\"" = "\"" ++ t ++ "\"" := h
    have hlists := congrArg String.toList hquotes
    have hsame : s = t := String.toList_injective (by simpa using hlists)
    rw [hsame]
  | dotted =>
    obtain ⟨o, n, rfl⟩ := exists_owned hcase
    obtain ⟨o', n', rfl⟩ := exists_owned (hform.trans hcase)
    obtain ⟨rfl, rfl⟩ := dotted_injective hc.1 hd.1 h
    rfl
  | word => rw [← ofWord_render hc hcase, h, ofWord_render hd (hform.trans hcase)]

end Constant

end Coverage

namespace Bound.Pattern

open Coverage

mutual

/-- A pattern with `None()` read as `None`, wherever it stands inside. -/
def reading : Pattern → Pattern
  | .someOf p s => .someOf p.reading s
  | .okOf p s => .okOf p.reading s
  | .errOf p s => .errOf p.reading s
  | .variant none "None" [] s => .noneOf s
  | .variant o n args s => .variant o n (readings args) s
  | p => p

def readings : List Pattern → List Pattern
  | [] => []
  | p :: ps => p.reading :: readings ps

end

def asConstant? : Pattern → Option Constant
  | .literal l _ => some (.literal l)
  | .noneOf _ => some .noneOf
  | .variant none "None" [] _ => some .noneOf
  | .variant o n [] _ => some (.variant o n)
  | _ => none

theorem constant?_eq (p : Pattern) : p.constant? = p.asConstant?.map Constant.render := by
  unfold asConstant?
  split
  · rfl
  · rfl
  · rfl
  · next o n s hnone => cases o <;> rfl
  · next hliteral hnone _ hvariant =>
    cases p with
    | literal l s => exact absurd rfl (hliteral l s)
    | noneOf s => exact absurd rfl (hnone s)
    | variant o n args s =>
      cases args with
      | nil => exact absurd rfl (hvariant o n s)
      | cons a args => cases o <;> rfl
    | _ => rfl

theorem named_of_asConstant? {p : Pattern} {c : Constant} (h : p.asConstant? = some c)
    (hname : ∀ owner name span, p = .variant owner name [] span → Lexeme.IsName name.toList) :
    c.Named := by
  unfold asConstant? at h
  split at h
  · cases h
    trivial
  · cases h
    trivial
  · cases h
    trivial
  · next o n s hnone =>
    cases h
    exact ⟨hname _ _ _ rfl, fun ho hn => hnone ho hn⟩
  · cases h

theorem takes_reading {p : Pattern} {c : Constant} (h : p.asConstant? = some c) (v : Value) :
    p.reading.takes v = c.takes v := by
  unfold asConstant? at h
  split at h
  · cases h
    simp [reading, takes, Constant.takes]
  · cases h
    cases v <;> simp [reading, takes, Constant.takes]
  · cases h
    cases v <;> simp [reading, takes, Constant.takes]
  · next o n s hnone =>
    cases h
    have hreading : (Pattern.variant o n [] s).reading = .variant o n [] s := by
      rw [reading]
      · rfl
      · exact fun ho hn _ => hnone ho hn
    rw [hreading]
    cases v <;> simp [takes, takesPayload, Constant.takes]
  · cases h

theorem isCatchAll_reading (p : Pattern) : p.reading.isCatchAll = p.isCatchAll := by
  unfold reading
  split <;> rfl

end Bound.Pattern

end TagLang
