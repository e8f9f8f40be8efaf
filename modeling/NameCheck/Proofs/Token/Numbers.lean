import Mathlib.Data.Nat.Digits.Defs
import NameCheck.Proofs.Token.Lossless

/-!
# Numbers are exact or cut off

A run of digits yields the number that it denotes, or the greatest integer if the number is beyond
it, and only then a warning.  This is what the run comes to when its digits are read one after
another and every operation is checked: the reading breaks off exactly at the numbers that are too
large, however many digits and leading zeros they have.
-/

namespace NameCheck

open Segment

/-! ## Reading digits -/

namespace Numeral

/-- What a digit counts for in the last place. -/
def digit (c : Char) : Nat :=
  c.toNat - '0'.toNat

/-- The number that digits denote: each counts for the power of ten of its place. -/
def value (digits : List Char) : Nat :=
  Nat.ofDigits 10 (digits.reverse.map digit)

/-- A number that is not beyond the greatest integer. -/
def within? (n : Nat) : Option Nat :=
  if n ≤ maxInt then some n else none

/-- The number with one more digit at its end, in two checked operations. -/
def next? (n : Nat) (c : Char) : Option Nat :=
  (within? (10 * n)).bind fun tens => within? (tens + digit c)

/-- Reads digits from the left to the right. -/
def read? (digits : List Char) : Option Nat :=
  digits.foldlM next? 0

variable {digits : List Char} {c : Char} {n : Nat}

theorem within?_eq_none_iff : within? n = none ↔ maxInt < n := by
  rw [within?, ite_eq_right_iff, ← not_le]
  simp

theorem getD_within? (n : Nat) : (within? n).getD maxInt = min n maxInt := by
  rw [within?]
  by_cases h : n ≤ maxInt
  · rw [if_pos h, Option.getD_some, Nat.min_eq_left h]
  · rw [if_neg h, Option.getD_none, Nat.min_eq_right (Nat.le_of_not_le h)]

/-- Of the two operations the second one decides. -/
theorem next?_eq (n : Nat) (c : Char) : next? n c = within? (10 * n + digit c) := by
  by_cases h : 10 * n ≤ maxInt
  · rw [next?, within?, if_pos h, Option.bind_some]
  · have hsum : maxInt < 10 * n + digit c :=
      Nat.lt_of_lt_of_le (Nat.lt_of_not_le h) (Nat.le_add_right _ _)
    rw [next?, within?, if_neg h, Option.bind_none, within?_eq_none_iff.mpr hsum]

theorem decimal_concat (digits : List Char) (c : Char) :
    decimal (digits ++ [c]) = 10 * decimal digits + digit c := by
  rw [decimal, List.foldl_append]
  rfl

theorem decimal_eq_value (digits : List Char) : decimal digits = value digits := by
  induction digits using List.reverseRecOn with
  | nil => rfl
  | append_singleton digits c ih =>
      rw [decimal_concat, ih, value, value, List.reverse_concat, List.map_cons, Nat.ofDigits_cons]
      exact Nat.add_comm _ _

theorem read?_concat (digits : List Char) (c : Char) :
    read? (digits ++ [c]) = (read? digits).bind fun n => next? n c := by
  rw [read?, List.foldlM_append]
  exact congrArg (Option.bind _) (funext fun n => Option.bind_fun_some _)

/-- A reading that breaks off has gone beyond the greatest integer, and more digits lead further
beyond it. -/
theorem read?_eq (digits : List Char) : read? digits = within? (value digits) := by
  rw [← decimal_eq_value]
  induction digits using List.reverseRecOn with
  | nil => rfl
  | append_singleton digits c ih =>
      rw [read?_concat, ih, decimal_concat]
      by_cases h : decimal digits ≤ maxInt
      · rw [within?, if_pos h, Option.bind_some, next?_eq]
      · have hmore : maxInt < 10 * decimal digits + digit c := by omega
        rw [within?, if_neg h, Option.bind_none, within?_eq_none_iff.mpr hmore]

/-- The greatest integer is the result both of its own digits and of a reading that breaks off.
Only the latter is a number that is too large. -/
theorem read?_eq_none_iff : read? digits = none ↔ maxInt < value digits := by
  rw [read?_eq, within?_eq_none_iff]

end Numeral

/-! ## The judgement -/

namespace Segment

variable {segment : Segment} {rest : List Char}

theorem kind_of_digits (h : segment.Fits rest) (hint : segment.text ∈ Pattern.int.language) :
    segment.kind =
      if Numeral.value segment.text ≤ maxInt then
        .token (.int (Numeral.value segment.text))
      else .hugeInt := by
  have hmeans := h.means hint (by decide)
  rw [← Numeral.decimal_eq_value]
  generalize segment.kind = kind at hmeans
  cases hmeans with
  | int hle => rw [if_pos hle]
  | hugeInt hlt => rw [if_neg (Nat.not_le_of_lt hlt)]

end Segment

namespace Tokens

/-- Numbers are exact, or cut off with a warning.  A segment that the pattern of numbers matches
yields one lexeme, with its number or the greatest integer, whichever is less.  Nothing is reported
about it but a warning, and this exactly if the number is beyond the greatest integer, which shows
in a reading that breaks off and not in the lexeme. -/
theorem integer_literals {source : String} {placed : List (Segment × Span)} {piece : Segment × Span}
    (hlaid : LaysOut source.toList placed) (hpiece : piece ∈ placed)
    (hint : piece.1.text ∈ Pattern.int.language) :
    (ofString source).lexemesAt piece.2.start =
        [⟨.int (min (Numeral.value piece.1.text) maxInt : Nat), piece.2⟩] ∧
      (ofString source).reportsAt piece.2.start =
        (if maxInt < Numeral.value piece.1.text then
          [.warning "integer literal too large; using max value" piece.2.start]
        else []) ∧
      (Numeral.read? piece.1.text).getD maxInt = min (Numeral.value piece.1.text) maxInt ∧
      (Numeral.read? piece.1.text = none ↔ maxInt < Numeral.value piece.1.text) := by
  obtain ⟨rest, hfits⟩ := hlaid.exists_fits hpiece
  have hkind := kind_of_digits hfits hint
  have hlexemes := lexemesAt_of_mem hlaid hpiece
  have hreports := reportsAt_of_mem hlaid hpiece
  rw [token?, hkind] at hlexemes
  rw [diagnostic?, hkind] at hreports
  have hread : (Numeral.read? piece.1.text).getD maxInt =
      min (Numeral.value piece.1.text) maxInt := by
    rw [Numeral.read?_eq, Numeral.getD_within?]
  rw [← and_assoc]
  refine ⟨?_, hread, Numeral.read?_eq_none_iff⟩
  by_cases hle : Numeral.value piece.1.text ≤ maxInt
  · rw [if_pos hle] at hlexemes hreports
    rw [Nat.min_eq_left hle, if_neg (Nat.not_lt_of_le hle)]
    exact ⟨hlexemes, hreports⟩
  · rw [if_neg hle] at hlexemes hreports
    rw [Nat.min_eq_right (Nat.le_of_not_le hle), if_pos (Nat.lt_of_not_le hle)]
    exact ⟨hlexemes, hreports⟩

/-- Leading zeros do not count, and the number is just beyond the greatest integer. -/
theorem integer_literals_of_leading_zeros :
    LaysOut "-002147483648".toList
        [(⟨['-'], .token (.sign .minus)⟩, ⟨⟨1, 1⟩, ⟨1, 2⟩⟩),
          (⟨"002147483648".toList, .hugeInt⟩, ⟨⟨1, 2⟩, ⟨1, 14⟩⟩)] ∧
      "002147483648".toList ∈ Pattern.int.language ∧
      (ofString "-002147483648").lexemesAt ⟨1, 2⟩ = [⟨.int 2147483647, ⟨⟨1, 2⟩, ⟨1, 14⟩⟩⟩] ∧
      (ofString "-002147483648").reportsAt ⟨1, 2⟩ =
        [.warning "integer literal too large; using max value" (some ⟨1, 2⟩)] := by
  have hplaced : place .first (cut "-002147483648".toList) =
      [(⟨['-'], .token (.sign .minus)⟩, ⟨⟨1, 1⟩, ⟨1, 2⟩⟩),
        (⟨"002147483648".toList, .hugeInt⟩, ⟨⟨1, 2⟩, ⟨1, 14⟩⟩)] := by
    decide +kernel
  have hlaid := laysOut_place "-002147483648".toList
  rw [hplaced] at hlaid
  have hint : "002147483648".toList ∈ Pattern.int.language :=
    cons_mem_run.mpr ⟨rfl, List.all_eq_true.mp rfl⟩
  have hvalue : Numeral.value "002147483648".toList = 2147483648 := by decide +kernel
  obtain ⟨hlexemes, hreports, -⟩ :=
    integer_literals hlaid (List.mem_cons_of_mem _ (List.mem_singleton_self _)) hint
  rw [hvalue] at hlexemes hreports
  exact ⟨hlaid, hint, hlexemes, hreports⟩

end Tokens

end NameCheck
