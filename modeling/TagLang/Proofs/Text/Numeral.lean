import Mathlib.Data.Nat.Basic
import TagLang.Text.Reader

/-! # Numerals

Which characters write a number in a base.
-/

namespace TagLang.Text

def Writes (c : Char) (d : Nat) : Prop := c = d.digitChar ∨ c = d.digitChar.toUpper

/-- Characters write a number in a base, the highest place first. Zeros may stand in front. -/
inductive Numeral (base : Nat) : List Char → Nat → Prop
  | nil : Numeral base [] 0
  | concat {cs : List Char} {c : Char} {n d : Nat} : Numeral base cs n → d < base → Writes c d →
    Numeral base (cs ++ [c]) (n * base + d)

theorem digitValue?_of_writes {c : Char} {d : Nat} (hd : d < 16) (h : Writes c d) :
    digitValue? c = some d := by
  have hdigits : ∀ d < 16, digitValue? d.digitChar = some d ∧
      digitValue? d.digitChar.toUpper = some d := by decide
  rcases h with rfl | rfl
  · exact (hdigits d hd).1
  · exact (hdigits d hd).2

theorem Numeral.digitsValue_eq {base : Nat} (hbase : base ≤ 16) {cs : List Char} {n : Nat}
    (h : Numeral base cs n) : cs.all (isDigitOf base) = true ∧ digitsValue base cs = n := by
  induction h with
  | nil => exact ⟨rfl, rfl⟩
  | concat _ hd hc ih =>
    have hvalue := digitValue?_of_writes (Nat.lt_of_lt_of_le hd hbase) hc
    constructor
    · simp [ih.1, isDigitOf, hvalue, hd]
    · have hprefix := ih.2
      unfold digitsValue at hprefix ⊢
      rw [List.foldl_append, hprefix, List.foldl_cons, List.foldl_nil, hvalue, Option.getD_some]

theorem numeral_toDigits {base : Nat} (hbase : 1 < base) (n : Nat) :
    Numeral base (Nat.toDigits base n) n := by
  induction n using Nat.strong_induction_on with
  | _ n ih =>
    rcases lt_or_ge n base with hlt | hle
    · have hone : Numeral base ([] ++ [n.digitChar]) (0 * base + n) := .concat .nil hlt (.inl rfl)
      rw [Nat.zero_mul, Nat.zero_add] at hone
      rwa [Nat.toDigits_of_lt_base hlt]
    · have hmore := ih (n / base) (Nat.div_lt_self (by omega) hbase)
      have hlast := hmore.concat (Nat.mod_lt n (by omega)) (.inl rfl)
      rwa [Nat.div_add_mod', ← Nat.toDigits_of_base_le hbase hle] at hlast

end TagLang.Text
