import TagLang.Proofs.Token.Kind

/-! # The characters of names

A name that the text of a module can say as an expression is made of letters, digits and
underscores. The fresh names of contracts hold an exclamation mark, so that no written name is one
of them.
-/

namespace TagLang

def Plain (name : String) : Prop := '!' ∉ name.toList

theorem Plain.append {a b : String} (ha : Plain a) (hb : Plain b) : Plain (a ++ b) := by
  unfold Plain at *
  simp [ha, hb]

def Token.PlainName (t : Token) : Prop := ∀ name, t.kind = .ident name → Plain name

section Characters

open Lexeme

variable {name : String}

theorem Lexeme.IsName.notMem (h : IsName name.toList) {c : Char} (hc : isNameChar c = false) :
    c ∉ name.toList := by
  intro hmem
  rw [h.chars c hmem] at hc
  cases hc

theorem Lexeme.IsName.plain (h : IsName name.toList) : Plain name := h.notMem rfl

theorem Lexeme.IsName.ne_nil (h : IsName name.toList) : name.toList ≠ [] := by
  obtain ⟨c, hc, -⟩ := h.start
  intro hnil
  rw [hnil] at hc
  cases hc

end Characters

theorem ofWords_isName : Lexeme.OfWords fun k => ∀ name, k = .ident name → Lexeme.IsName name.toList where
  word _ hk name hname := absurd hname (hk name)
  name h name hname := by
    cases hname
    rw [String.toList_ofList]
    exact h

theorem lex_isName {source : String} {t : Token} (ht : t ∈ (lex source).tokens) {name : String}
    (hname : t.kind = .ident name) : Lexeme.IsName name.toList := by
  obtain ⟨init, span, htokens, hinit⟩ := kinds_lex
    (Lexeme.kinds_read (fun _ _ h => by cases h) (fun _ _ h => by cases h) (fun _ _ h => by cases h)
      ofWords_isName) source
  rw [htokens] at ht
  rcases List.mem_append.mp ht with ht | ht
  · exact hinit t ht name hname
  · rw [List.mem_singleton.mp ht] at hname
    cases hname

theorem lex_plainNames (source : String) : ∀ t ∈ (lex source).tokens, t.PlainName :=
  fun _ ht _ hname => (lex_isName ht hname).plain

end TagLang
