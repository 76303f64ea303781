import Mathlib.Data.Int.Notation
import Mathlib.Data.List.Basic

/-! # JavaScript values of the client

Strings of digits, as the `data-index` attribute of a table row holds them, and
the array methods the player uses. -/

set_option autoImplicit false

namespace Phonograph.Client.Js

inductive JsErr where
  | typeError
  deriving DecidableEq, Repr

structure Numeral where
  chars : List Char
  digits : ∀ c ∈ chars, c.isDigit
  deriving DecidableEq

namespace Numeral

/-- `String(n)`. -/
def ofNat (n : ℕ) : Numeral where
  chars := Nat.toDigits 10 n
  digits _ member := Nat.isDigit_of_mem_toDigits (by decide) (by decide) member

/-- `Number(s)`. -/
def value (s : Numeral) : ℕ := Nat.ofDigitChars 10 s.chars 0

/-- `s + 1`, which joins the two as strings. -/
def plusOne (s : Numeral) : Numeral where
  chars := s.chars ++ ['1']
  digits c member := by
    rcases List.mem_append.mp member with inside | last
    · exact s.digits c inside
    · rw [List.mem_singleton.mp last]
      decide

def lt (s t : Numeral) : Bool := s.chars < t.chars

@[simp] theorem value_ofNat (n : ℕ) : (ofNat n).value = n := Nat.ofDigitChars_ten_toDigits

theorem ofNat_injective {m n : ℕ} (h : ofNat m = ofNat n) : m = n := by
  simpa using congrArg value h

@[simp] theorem value_plusOne (s : Numeral) : s.plusOne.value = 10 * s.value + 1 := by
  simp [value, plusOne, Nat.ofDigitChars]

/-- Joining a 1 to a number other than 0 gives the string of a number again. -/
theorem plusOne_ofNat {n : ℕ} (pos : 0 < n) : (ofNat n).plusOne = ofNat (10 * n + 1) := by
  have digits : Nat.toDigits 10 n ++ Nat.toDigits 10 1 = Nat.toDigits 10 (10 * n + 1) :=
    Nat.toDigits_append_toDigits (by decide) pos (by decide)
  simp only [plusOne, ofNat, mk.injEq, ← digits]
  rfl

theorem plusOne_zero : (ofNat 0).plusOne ≠ ofNat 1 := by decide

theorem not_lt_zero (n : ℕ) : (ofNat n).lt (ofNat 0) = false := by
  have digits := (ofNat n).digits
  have some : (ofNat n).chars ≠ [] := Nat.toDigits_ne_nil
  rw [lt, decide_eq_false_iff_not]
  cases shape : (ofNat n).chars with
  | nil => exact absurd shape some
  | cons c cs =>
      rw [shape] at digits
      have digit : '0' ≤ c := by
        have := digits c List.mem_cons_self
        simp only [Char.isDigit, Bool.and_eq_true, decide_eq_true_eq] at this
        exact this.1
      have zero : (ofNat 0).chars = ['0'] := rfl
      rw [zero, List.cons_lt_cons_iff]
      rintro (less | ⟨_, less⟩)
      · exact absurd digit (Char.not_le.mpr less)
      · exact absurd less (List.not_lt_nil _)

end Numeral

/-- `xs.splice(start, 0, x)`: a negative start counts from the end. -/
def spliceIn {α : Type} (xs : List α) (start : ℤ) (x : α) : List α :=
  xs.insertIdx (if start < 0 then (xs.length + start).toNat else min start.toNat xs.length) x

theorem length_spliceIn {α : Type} (xs : List α) {start : ℤ} (x : α) (low : 0 ≤ start) :
    (spliceIn xs start x).length = xs.length + 1 := by
  rw [spliceIn, if_neg (by omega), List.length_insertIdx_of_le_length (by omega)]

theorem getElem_spliceIn {α : Type} (xs : List α) {start i : ℕ} (x : α) (less : i < start)
    (bound : i < xs.length) : (spliceIn xs start x)[i]? = xs[i]? := by
  rw [spliceIn, if_neg (by omega), List.getElem?_insertIdx_of_lt (by omega)]

end Phonograph.Client.Js
