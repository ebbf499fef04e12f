import Mathlib.Logic.Relation
import TagLang.Proofs.Token.Extent
import TagLang.Token.Lex

/-! # The lexer, lexeme by lexeme

Between two lexemes the lexer has read some text, has found something in it, and has the rest of the
text before it. A step reads one lexeme. What `lex` gives is what has been found when nothing is
left.
-/

namespace TagLang.Lexeme
open List

structure Scan where
  before : List Char
  found : Found
  rest : List Char

def Found.output (found : Found) (p : Position) : LexOutput :=
  ⟨found.tokens.reverse ++ [.eofAt (.between p p)], found.errors.reverse⟩

namespace Scan

def start (text : List Char) : Scan := ⟨[], {}, text⟩

inductive Step : Scan → Scan → Prop
  | read (before : List Char) (found : Found) (c : Char) (cs : List Char) :
    Step ⟨before, found, c :: cs⟩
      ⟨before ++ c :: cs.take (read c cs).more, found.extend (Position.origin.after before)
        (c :: cs) (read c cs), cs.drop (read c cs).more⟩

abbrev Run : Scan → Scan → Prop := Relation.ReflTransGen Step

def output (s : Scan) : LexOutput := lexFrom (Position.origin.after s.before) s.found s.rest

variable {s t u : Scan}

theorem Step.text_eq (h : Step s t) : t.before ++ t.rest = s.before ++ s.rest := by
  obtain ⟨before, found, c, cs⟩ := h
  rw [append_assoc, cons_append, take_append_drop]

theorem Step.output_eq (h : Step s t) : t.output = s.output := by
  obtain ⟨before, found, c, cs⟩ := h
  unfold output
  rw [lexFrom.eq_def _ _ (c :: cs), Position.after_append]

theorem length_lexeme (before : List Char) (c : Char) (cs : List Char) :
    (before ++ c :: cs.take (read c cs).more).length = before.length + (read c cs).more + 1 := by
  have hmore : (read c cs).more ≤ cs.length := Nat.le_of_lt_succ (within_read c cs).more
  rw [length_append, length_cons, length_take, Nat.min_eq_left hmore, Nat.add_assoc]

theorem Step.length_lt (h : Step s t) : s.before.length < t.before.length := by
  obtain ⟨before, found, c, cs⟩ := h
  dsimp only
  rw [length_lexeme]
  omega

theorem step_rightUnique : Relator.RightUnique Step := by
  rintro _ _ _ ⟨before, found, c, cs⟩ h
  cases h
  rfl

theorem Run.text_eq (h : s.Run t) : t.before ++ t.rest = s.before ++ s.rest := by
  induction h with
  | refl => rfl
  | tail _ hstep ih => exact hstep.text_eq.trans ih

theorem Run.output_eq (h : s.Run t) : t.output = s.output := by
  induction h with
  | refl => rfl
  | tail _ hstep ih => exact hstep.output_eq.trans ih

theorem Run.length_le (h : s.Run t) : s.before.length ≤ t.before.length := by
  induction h with
  | refl => exact Nat.le_refl _
  | tail _ hstep ih => exact Nat.le_of_lt (Nat.lt_of_le_of_lt ih hstep.length_lt)

theorem output_end (text : List Char) (found : Found) :
    output ⟨text, found, []⟩ = found.output (Position.origin.after text) := by
  rw [output, lexFrom, reverse_cons]
  rfl

/-- Every lexeme is shorter than what is left, so the lexer comes to the end. -/
theorem exists_run_end (s : Scan) :
    ∃ found, s.Run ⟨s.before ++ s.rest, found, []⟩ ∧
      s.output = found.output (Position.origin.after (s.before ++ s.rest)) := by
  induction hn : s.rest.length using Nat.strongRecOn generalizing s with
  | ind n ih =>
    obtain ⟨before, found, rest⟩ := s
    cases rest with
    | nil =>
      rw [append_nil]
      exact ⟨found, .refl, output_end before found⟩
    | cons c cs =>
      have hstep := Step.read before found c cs
      have hshorter : (cs.drop (read c cs).more).length < n := by
        rw [← hn, length_drop, length_cons]
        omega
      obtain ⟨last, hrun, houtput⟩ := ih _ hshorter ⟨_, found.extend _ _ _, cs.drop (read c cs).more⟩ rfl
      rw [hstep.text_eq] at hrun houtput
      exact ⟨last, .head hstep hrun, hstep.output_eq.symm.trans houtput⟩

theorem output_start (source : String) : (start source.toList).output = lex source := rfl

theorem exists_run_lex (source : String) : ∃ found, (start source.toList).Run ⟨source.toList, found, []⟩ ∧
    lex source = found.output (Position.origin.after source.toList) :=
  exists_run_end (start source.toList)

theorem Run.lex_eq {source : String} {found : Found}
    (h : (start source.toList).Run ⟨source.toList, found, []⟩) :
    lex source = found.output (Position.origin.after source.toList) := by
  rw [← output_start, ← h.output_eq, output_end]

theorem lex_eq_of_read {source : String} {c : Char} {cs : List Char}
    (htext : source.toList = c :: cs) (hmore : (read c cs).more = cs.length) :
    lex source = (Found.extend .origin source.toList {} (read c cs)).output
      (Position.origin.after source.toList) := by
  have hstep := Step.read [] {} c cs
  rw [hmore, take_length, drop_length, Position.after_nil, nil_append, ← htext] at hstep
  exact Run.lex_eq (.single (htext ▸ hstep))

theorem Run.run_end {text : List Char} {found : Found} (hend : (start text).Run ⟨text, found, []⟩)
    (h : (start text).Run s) : s.Run ⟨text, found, []⟩ := by
  rcases Relation.ReflTransGen.total_of_right_unique step_rightUnique h hend with hrun | hrun
  · exact hrun
  · rcases hrun.cases_head with rfl | ⟨t, hstep, -⟩
    · exact .refl
    · cases hstep

end Scan

end TagLang.Lexeme
