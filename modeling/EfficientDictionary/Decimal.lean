import Mathlib.Data.Nat.Digits.Defs
import Mathlib.Data.Nat.Cast.Order.Ring
import Mathlib.Data.Int.Order.Basic

/-!
# Numbers in decimal, as bytes

What `printf` makes of `%zu` and `%d`, and how to read it back. The digits are those of
`Nat.toDigits`; a text is a list of bytes.

* `readDecimal_decimal`, `readSigned_signedDecimal` — reading gives the number back.
* `isDigit_of_mem_decimal`, `length_decimal_le` — which bytes there are, and how many.
-/

namespace EfficientDictionary

/-- The bytes of ASCII characters. -/
def ascii (cs : List Char) : List UInt8 := cs.map fun c => UInt8.ofNat c.toNat

/-- The characters of ASCII bytes. -/
def characters (bytes : List UInt8) : List Char := bytes.map fun b => Char.ofNat b.toNat

/-- `%zu` -/
def decimal (n : ℕ) : List UInt8 := ascii (Nat.toDigits 10 n)

/-- `%d` -/
def signedDecimal (i : ℤ) : List UInt8 :=
  if i < 0 then 45 :: decimal i.natAbs else decimal i.natAbs

/-- The number that digits stand for. -/
def readDecimal (bytes : List UInt8) : ℕ := Nat.ofDigitChars 10 (characters bytes) 0

/-- The number that digits stand for, with a sign before them or not. -/
def readSigned (bytes : List UInt8) : ℤ :=
  match bytes with
  | [] => 0
  | b :: digits => if b = 45 then -readDecimal digits else readDecimal (b :: digits)

/-! ## The digits -/

section Digits

variable {c : Char} {b : UInt8} {n k : ℕ} {i : ℤ}

theorem toNat_of_isDigit (h : c.isDigit = true) : 48 ≤ c.toNat ∧ c.toNat ≤ 57 := by
  obtain ⟨hlo, hhi⟩ := Bool.and_eq_true_iff.mp h
  have hlo := UInt32.le_iff_toNat_le.mp (of_decide_eq_true hlo)
  have hhi := UInt32.le_iff_toNat_le.mp (of_decide_eq_true hhi)
  exact ⟨hlo, hhi⟩

theorem toNat_byte_of_isDigit (h : c.isDigit = true) : (UInt8.ofNat c.toNat).toNat = c.toNat := by
  obtain ⟨-, hhi⟩ := toNat_of_isDigit h
  exact UInt8.toNat_ofNat_of_lt' (by rw [UInt8.size]; omega)

theorem characters_ascii {cs : List Char} (h : ∀ c ∈ cs, c.isDigit = true) :
    characters (ascii cs) = cs := by
  rw [characters, ascii, List.map_map]
  refine (List.map_congr_left fun c hc => ?_).trans (List.map_id cs)
  rw [Function.comp_apply, toNat_byte_of_isDigit (h c hc), Char.ofNat_toNat]
  rfl

theorem isDigit_of_mem_toDigits (hc : c ∈ Nat.toDigits 10 n) : c.isDigit = true :=
  Nat.isDigit_of_mem_toDigits (by decide) (by decide) hc

/-- The bytes of a number are digits. -/
theorem isDigit_of_mem_decimal (hb : b ∈ decimal n) : 48 ≤ b ∧ b ≤ 57 := by
  obtain ⟨c, hc, rfl⟩ := List.mem_map.mp hb
  have hdigit := isDigit_of_mem_toDigits hc
  rw [UInt8.le_iff_toNat_le, UInt8.le_iff_toNat_le, toNat_byte_of_isDigit hdigit]
  exact toNat_of_isDigit hdigit

/-- With a sign there is a minus besides. -/
theorem mem_signedDecimal (hb : b ∈ signedDecimal i) : b = 45 ∨ 48 ≤ b ∧ b ≤ 57 := by
  rw [signedDecimal] at hb
  split_ifs at hb
  · exact (List.mem_cons.mp hb).imp_right isDigit_of_mem_decimal
  · exact Or.inr (isDigit_of_mem_decimal hb)

theorem length_decimal_le (hk : 0 < k) (h : n < 10 ^ k) : (decimal n).length ≤ k := by
  rw [decimal, ascii, List.length_map]
  exact (Nat.length_toDigits_le_iff (by decide) hk).mpr h

theorem length_signedDecimal_le (hk : 0 < k) (h : i.natAbs < 10 ^ k) :
    (signedDecimal i).length ≤ k + 1 := by
  have hdigits := length_decimal_le hk h
  rw [signedDecimal]
  split_ifs
  · rw [List.length_cons]
    omega
  · omega

/-! ## Reading -/

theorem readDecimal_decimal (n : ℕ) : readDecimal (decimal n) = n := by
  rw [readDecimal, decimal, characters_ascii fun c hc => isDigit_of_mem_toDigits hc,
    Nat.ofDigitChars_ten_toDigits]

theorem readSigned_signedDecimal (i : ℤ) : readSigned (signedDecimal i) = i := by
  rw [signedDecimal]
  split_ifs with hneg
  · rw [readSigned, if_pos rfl, readDecimal_decimal]
    omega
  · have hread := readDecimal_decimal i.natAbs
    cases hdigits : decimal i.natAbs with
    | nil =>
      have hlength := congrArg List.length hdigits
      rw [decimal, ascii, List.length_map] at hlength
      exact absurd (List.length_eq_zero_iff.mp hlength) Nat.toDigits_ne_nil
    | cons b digits =>
      have hb : 48 ≤ b := (isDigit_of_mem_decimal (hdigits ▸ List.mem_cons_self)).1
      have hsign : b ≠ 45 := by
        rintro rfl
        exact absurd hb (by decide)
      rw [hdigits] at hread
      rw [readSigned, if_neg hsign, hread]
      omega

end Digits

end EfficientDictionary
