import TagLang.Edit.Distance
import Mathlib.Order.Bounds.Defs
import Mathlib.Order.MinMax

/-! # The distance is that of the shortest edit script

An edit script changes one character at a time, at any place of the text and in any order. The rows
of the table compare initial parts of the two texts by their last characters. Read backwards, they
follow a recursion on both texts, and no script is shorter than what this recursion computes.
-/

namespace TagLang
open List

namespace EditDistance

variable {as bs : List Char} {n : Nat}

/-- One character is inserted, deleted or substituted. -/
inductive Step : List Char → List Char → Prop
  | insert (before behind : List Char) (c : Char) : Step (before ++ behind) (before ++ c :: behind)
  | delete (before behind : List Char) (c : Char) : Step (before ++ c :: behind) (before ++ behind)
  | substitute (before behind : List Char) (c d : Char) :
    Step (before ++ c :: behind) (before ++ d :: behind)

inductive Script : Nat → List Char → List Char → Prop
  | nil (as : List Char) : Script 0 as as
  | cons {n : Nat} {as bs cs : List Char} : Step as bs → Script n bs cs → Script (n + 1) as cs

def distance : List Char → List Char → Nat
  | [], bs => bs.length
  | a :: as, [] => (a :: as).length
  | a :: as, b :: bs =>
    min (min (distance as (b :: bs) + 1) (distance (a :: as) bs + 1))
      (distance as bs + if a = b then 0 else 1)

/-! ## Scripts -/

theorem Step.cons (c : Char) (h : Step as bs) : Step (c :: as) (c :: bs) := by
  cases h with
  | insert before behind d => exact .insert (c :: before) behind d
  | delete before behind d => exact .delete (c :: before) behind d
  | substitute before behind d e => exact .substitute (c :: before) behind d e

theorem Step.reverse (h : Step as bs) : Step as.reverse bs.reverse := by
  cases h with
  | insert before behind c => simpa using Step.insert behind.reverse before.reverse c
  | delete before behind c => simpa using Step.delete behind.reverse before.reverse c
  | substitute before behind c d => simpa using Step.substitute behind.reverse before.reverse c d

theorem Script.lift (c : Char) (h : Script n as bs) : Script n (c :: as) (c :: bs) := by
  induction h with
  | nil as => exact .nil (c :: as)
  | cons hstep _ ih => exact .cons (hstep.cons c) ih

theorem Script.reverse (h : Script n as bs) : Script n as.reverse bs.reverse := by
  induction h with
  | nil as => exact .nil as.reverse
  | cons hstep _ ih => exact .cons hstep.reverse ih

theorem script_reverse_iff : Script n as.reverse bs.reverse ↔ Script n as bs := by
  constructor
  · intro h
    simpa using h.reverse
  · exact Script.reverse

theorem Script.insertFirst (b : Char) (h : Script n as bs) : Script (n + 1) as (b :: bs) :=
  .cons (.insert [] as b) (h.lift b)

theorem Script.deleteFirst (a : Char) (h : Script n as bs) : Script (n + 1) (a :: as) bs :=
  .cons (.delete [] as a) h

theorem Script.pair (a b : Char) (h : Script n as bs) :
    Script (n + if a = b then 0 else 1) (a :: as) (b :: bs) := by
  split
  · next hab => exact hab ▸ h.lift a
  · exact .cons (.substitute [] as a b) (h.lift b)

theorem Script.min {m : Nat} (hm : Script m as bs) (hn : Script n as bs) : Script (min m n) as bs := by
  rcases min_choice m n with hmin | hmin
  · rwa [hmin]
  · rwa [hmin]

/-! ## The recursion -/

@[simp] theorem distance_nil_left (bs : List Char) : distance [] bs = bs.length := by rw [distance]

@[simp] theorem distance_nil_right (as : List Char) : distance as [] = as.length := by
  cases as <;> rw [distance]

theorem script_distance (as bs : List Char) : Script (distance as bs) as bs := by
  induction as, bs using distance.induct with
  | case1 bs =>
    rw [distance_nil_left]
    induction bs with
    | nil => exact .nil []
    | cons b bs ih => exact ih.insertFirst b
  | case2 a as =>
    rw [distance_nil_right]
    induction as generalizing a with
    | nil => exact (Script.nil []).deleteFirst a
    | cons c as ih => exact (ih c).deleteFirst a
  | case3 a as b bs habove hleft hdiag =>
    rw [distance]
    exact ((habove.deleteFirst a).min (hleft.insertFirst b)).min (hdiag.pair a b)

theorem distance_self (as : List Char) : distance as as = 0 := by
  induction as with
  | nil => exact distance_nil_left []
  | cons a as ih => simp [distance, ih]

theorem distance_cons_left_le (a : Char) (as bs : List Char) :
    distance (a :: as) bs ≤ distance as bs + 1 := by
  cases bs with
  | nil => simp
  | cons b bs => rw [distance]; omega

theorem distance_cons_right_le (b : Char) (as bs : List Char) :
    distance as (b :: bs) ≤ distance as bs + 1 := by
  cases as with
  | nil => simp
  | cons a as => rw [distance]; omega

theorem distance_le_cons_left (a : Char) (as bs : List Char) :
    distance as bs ≤ distance (a :: as) bs + 1 := by
  induction bs with
  | nil => simp; omega
  | cons b bs ih =>
    have hright := distance_cons_right_le b as bs
    rw [distance]
    omega

theorem distance_substitute_le (a b : Char) (as bs : List Char) :
    distance (a :: as) bs ≤ distance (b :: as) bs + 1 := by
  induction bs with
  | nil => simp
  | cons c bs ih =>
    rw [distance, distance]
    split <;> split <;> omega

/-- What one step saves behind a common first character is no more than what it saves without. -/
theorem distance_lift_le (a : Char) (h : ∀ cs, distance as cs ≤ distance bs cs + 1) (cs : List Char) :
    distance (a :: as) cs ≤ distance (a :: bs) cs + 1 := by
  induction cs with
  | nil => simpa using h []
  | cons c cs ih =>
    have habove := h (c :: cs)
    have hdiag := h cs
    rw [distance, distance]
    omega

theorem Step.distance_le (h : Step as bs) (cs : List Char) : distance as cs ≤ distance bs cs + 1 := by
  cases h with
  | insert before behind c =>
    induction before generalizing cs with
    | nil => exact distance_le_cons_left c behind cs
    | cons a before ih => exact distance_lift_le a ih cs
  | delete before behind c =>
    induction before generalizing cs with
    | nil => exact distance_cons_left_le c behind cs
    | cons a before ih => exact distance_lift_le a ih cs
  | substitute before behind c d =>
    induction before generalizing cs with
    | nil => exact distance_substitute_le c d behind cs
    | cons a before ih => exact distance_lift_le a ih cs

theorem Script.distance_le (h : Script n as bs) : distance as bs ≤ n := by
  induction h with
  | nil as => exact Nat.le_of_eq (distance_self as)
  | cons hstep _ ih => exact Nat.le_trans (hstep.distance_le _) (Nat.succ_le_succ ih)

/-! ## The rows of the table -/

/-- The entries of a row from the place behind `done` on. Both parts of the texts before it are read
backwards. -/
def entries (as done : List Char) : List Char → List Nat
  | [] => [distance as done]
  | b :: bs => distance as done :: entries as (b :: done) bs

theorem entries_eq_cons (as done bs : List Char) :
    ∃ rest, entries as done bs = distance as done :: rest := by
  cases bs with
  | nil => exact ⟨[], rfl⟩
  | cons b bs => exact ⟨_, rfl⟩

theorem rowFrom_entries (c : Char) (as done bs : List Char) :
    distance (c :: as) done :: rowFrom c (distance (c :: as) done) bs (entries as done bs) =
      entries (c :: as) done bs := by
  induction bs generalizing done with
  | nil => rfl
  | cons b bs ih =>
    obtain ⟨rest, hrest⟩ := entries_eq_cons as (b :: done) bs
    have hentry : distance (c :: as) (b :: done) = min
        (min (distance as (b :: done) + 1) (distance (c :: as) done + 1))
        (distance as done + if c = b then 0 else 1) := by rw [distance]
    rw [entries, entries, ← ih, hrest, rowFrom, hentry]

theorem nextRow_entries (c : Char) (as bs : List Char) :
    nextRow bs (entries as [] bs) c = entries (c :: as) [] bs := by
  obtain ⟨rest, hrest⟩ := entries_eq_cons as [] bs
  have hfirst : distance as [] + 1 = distance (c :: as) [] := by simp
  rw [← rowFrom_entries, hrest, nextRow, hfirst]

theorem foldl_nextRow (as done bs : List Char) :
    as.foldl (nextRow bs) (entries done [] bs) = entries (as.reverse ++ done) [] bs := by
  induction as generalizing done with
  | nil => rfl
  | cons a as ih => rw [foldl_cons, nextRow_entries, ih, reverse_cons, append_assoc, singleton_append]

theorem entries_nil (done bs : List Char) :
    entries [] done bs = List.range' done.length (bs.length + 1) := by
  induction bs generalizing done with
  | nil => simp [entries]
  | cons b bs ih => rw [entries, ih, distance_nil_left, length_cons, length_cons, ← range'_succ]

theorem firstRow_eq (bs : List Char) : firstRow bs = entries [] [] bs := by
  rw [firstRow, entries_nil, range_eq_range']
  rfl

theorem getLastD_entries (as done bs : List Char) (n : Nat) :
    (entries as done bs).getLastD n = distance as (bs.reverse ++ done) := by
  induction bs generalizing done n with
  | nil => rfl
  | cons b bs ih => rw [entries, getLastD_cons, ih, reverse_cons, append_assoc, singleton_append]

end EditDistance

open EditDistance

theorem editDistance_eq (a b : String) :
    editDistance a b = distance a.toList.reverse b.toList.reverse := by
  rw [editDistance, firstRow_eq, foldl_nextRow, append_nil, getLastD_entries, append_nil]

/-- The computed distance is the length of a script that turns the first text into the second, and
no script that does so is shorter. -/
theorem editDistance_isLeast (a b : String) :
    IsLeast {n | Script n a.toList b.toList} (editDistance a b) := by
  rw [editDistance_eq]
  constructor
  · exact script_reverse_iff.mp (script_distance _ _)
  · intro n hscript
    exact (script_reverse_iff.mpr hscript).distance_le

end TagLang
