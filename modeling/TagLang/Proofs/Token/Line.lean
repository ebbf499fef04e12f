import TagLang.Proofs.Token.Scan
import TagLang.Proofs.Token.Section

/-! # Lexemes before a line break

No lexeme but the line break itself has one in it, so the lexer reads a line as it reads a text that
ends there.
-/

namespace TagLang.Lexeme
open Text List

theorem read_line (c : Char) (as bs : List Char) : read c (as ++ '\n' :: bs) = read c as := by
  have hmore : (read c (as ++ [])).more ≤ as.length := by
    rw [append_nil]
    exact Nat.le_of_lt_succ (within_read c as).more
  rw [read_goesOn (.line bs) hmore, append_nil]

theorem read_newline (cs : List Char) : read '\n' cs = blank 0 := if_pos (by decide)

theorem Found.add_append {p : Position} {text : List Char} {m : Mark} (hm : m.start < m.stop)
    (hstop : m.stop ≤ text.length) (behind : List Char) (found : Found) :
    found.add p (text ++ behind) m = found.add p text m := by
  have hstart : m.start ≤ text.length := by omega
  have hlength : m.stop - m.start ≤ (text.drop m.start).length := by
    rw [length_drop]
    omega
  unfold Found.add
  rw [take_append_of_le_length hstart, drop_append_of_le_length hstart, take_append_of_le_length hlength]

theorem Found.extend_append {p : Position} {text : List Char} {r : Reading} (hr : r.Within text)
    (behind : List Char) (found : Found) :
    found.extend p (text ++ behind) r = found.extend p text r := by
  unfold Found.extend
  rw [foldl_ext _ (Found.add p text)]
  intro found m hm
  have hmark := hr.marks m hm
  have hmore := hr.more
  exact Found.add_append hmark.1 (by omega) behind found

variable {s t : Scan}

theorem Scan.Step.line (h : Scan.Step s t) (lines : List Char) :
    Scan.Step ⟨s.before, s.found, s.rest ++ '\n' :: lines⟩
      ⟨t.before, t.found, t.rest ++ '\n' :: lines⟩ := by
  obtain ⟨before, found, c, cs⟩ := h
  have hstep := Scan.Step.read before found c (cs ++ '\n' :: lines)
  have hmore : (Lexeme.read c cs).more ≤ cs.length := Nat.le_of_lt_succ (within_read c cs).more
  rw [read_line, take_append_of_le_length hmore, drop_append_of_le_length hmore, ← cons_append,
    Found.extend_append (within_read c cs)] at hstep
  exact hstep

theorem Scan.Run.line (h : s.Run t) (lines : List Char) :
    Scan.Run ⟨s.before, s.found, s.rest ++ '\n' :: lines⟩
      ⟨t.before, t.found, t.rest ++ '\n' :: lines⟩ := by
  induction h with
  | refl => exact .refl
  | tail _ hstep ih => exact ih.tail (hstep.line lines)

theorem Scan.Run.next_line {first : List Char} {found : Found}
    (h : (Scan.start first).Run ⟨first, found, []⟩) (second : List Char) :
    (Scan.start (first ++ '\n' :: second)).Run ⟨first ++ ['\n'], found, second⟩ := by
  have hbreak := Scan.Step.read first found '\n' second
  rw [read_newline] at hbreak
  exact (Scan.Run.line h second).tail hbreak

end TagLang.Lexeme
