import EfficientDictionary.Decimal
import EfficientDictionary.SavedFile
import Mathlib.Algebra.Order.Field.Rat

/-!
# The names and the contents of the result files

`SaveWords` and `SaveTime` make the names of their files with `snprintf`, from the prefix
that is passed to the program, and `SaveTime` writes one record behind a header. Text is cut
off where a buffer ends.

The wall time is computed exactly here; its conversion to a `float` and to text (`%.6f`) is
left to whoever calls.

* `wordsName_ne_timeName_iff` — when the two files have different names.
* `readTime_timeText` — the record can be read back, whatever the prefix is.
-/

namespace EfficientDictionary

/-! ## Definitions -/

/-- `FILENAME_MAX` of the C library -/
def filenameMax : ℕ := 4096

/-- `snprintf` into `size` bytes: the text, as far as it fits before the final `0`. -/
def snprintf (size : ℕ) (text : List UInt8) : List UInt8 := text.take (size - 1)

/-- A string literal of the source. -/
def literal (s : String) : List UInt8 := ascii s.toList

/-- The name of the file for the words. -/
def wordsName (filename : List UInt8) : List UInt8 :=
  snprintf filenameMax (literal "results/" ++ filename ++ literal ".words")

/-- The name of the file for the time. -/
def timeName (filename : List UInt8) : List UInt8 :=
  snprintf filenameMax (literal "results/" ++ filename ++ literal ".time")

/-- `struct timespec` -/
structure Timespec where
  /-- `tv_sec` -/
  tvSec : ℤ
  /-- `tv_nsec` -/
  tvNsec : ℤ
  deriving DecidableEq, Repr

/-- `CalcTime`, before the result is rounded to a `float`. -/
def calcTime (startTime endTime : Timespec) : ℚ :=
  let seconds := endTime.tvSec - startTime.tvSec
  let nanoseconds := endTime.tvNsec - startTime.tvNsec
  if nanoseconds < 0 then
    (seconds - 1 : ℤ) + (nanoseconds + 1000000000 : ℤ) / 1000000000
  else
    seconds + nanoseconds / 1000000000

/-- The conversion of an `int` to an `int8_t`. -/
def toInt8 (n : ℤ) : ℤ := Int.bmod n (2 ^ 8)

/-- The header of the file for the time. -/
def timeHeader : List UInt8 :=
  literal "result_filename, result_hash, max_threads, wall_time\n"

/-- The record in the file for the time. -/
def timeLine (filename : List UInt8) (hash : UInt64) (maxThreads : ℤ) (wallTime : List UInt8) :
    List UInt8 :=
  snprintf (2 * filenameMax)
    (filename ++ literal ", " ++ decimal hash.toNat ++ literal ", " ++ signedDecimal maxThreads ++
      literal ", " ++ wallTime ++ literal "\n")

/-- What `SaveTime` writes. -/
def timeText (filename : List UInt8) (hash : UInt64) (maxThreads : ℤ) (wallTime : List UInt8) :
    List UInt8 :=
  timeHeader ++ timeLine filename hash maxThreads wallTime

/-- A record, read back. -/
structure TimeRecord where
  /-- `result_filename` -/
  filename : List UInt8
  /-- `result_hash` -/
  hash : ℕ
  /-- `max_threads` -/
  maxThreads : ℤ
  /-- `wall_time` -/
  wallTime : List UInt8
  deriving DecidableEq, Repr

/-- Reads the record behind the header. The last three commas separate the fields; any others
belong to the name. -/
def readTime (text : List UInt8) : Option TimeRecord :=
  match ((text.drop timeHeader.length).splitOn 44).reverse with
  | wallTime :: maxThreads :: hash :: filename =>
    some ⟨[44].intercalate filename.reverse, readDecimal hash.tail, readSigned maxThreads.tail,
      wallTime.tail.dropLast⟩
  | _ => none

/-! ## The names -/

section Names

variable {filename filename' : List UInt8}

theorem snprintf_of_lt {size : ℕ} {text : List UInt8} (h : text.length < size) :
    snprintf size text = text :=
  List.take_of_length_le (by omega)

/-- Both names up to the point where they differ. -/
theorem take_resultName (filename ext : List UInt8) :
    snprintf filenameMax (literal "results/" ++ filename ++ ext) =
      snprintf filenameMax (literal "results/" ++ filename) ++
        ext.take (4087 - filename.length) := by
  have hlength : (literal "results/" ++ filename).length = 8 + filename.length := by
    rw [List.length_append]
    rfl
  have hrest : filenameMax - 1 - (8 + filename.length) = 4087 - filename.length := by
    rw [filenameMax]
    omega
  rw [snprintf, List.take_append, hlength, hrest]
  rfl

/-- **The result files have different names** exactly when the prefix leaves room for the first
letter of the extension. -/
theorem wordsName_ne_timeName_iff (filename : List UInt8) :
    wordsName filename ≠ timeName filename ↔ filename.length ≤ 4085 := by
  rw [wordsName, timeName, take_resultName, take_resultName, ne_eq, List.append_cancel_left_eq]
  obtain ⟨room, hroom⟩ : ∃ room, 4087 - filename.length = room := ⟨_, rfl⟩
  have hiff : filename.length ≤ 4085 ↔ 2 ≤ room := by omega
  rw [hroom, hiff]
  match room with
  | 0 => exact iff_of_false (fun h => h rfl) (by omega)
  | 1 => exact iff_of_false (fun h => h rfl) (by omega)
  | room + 2 =>
    refine iff_of_true (fun h => ?_) (by omega)
    have hsecond : (119 : UInt8) = 116 := (List.cons.inj (List.cons.inj h).2).1
    exact absurd hsecond (by decide)

end Names

/-! ## The time -/

/-- The borrow does not change the time. -/
theorem calcTime_eq (startTime endTime : Timespec) :
    calcTime startTime endTime = (endTime.tvSec - startTime.tvSec : ℤ) +
      (endTime.tvNsec - startTime.tvNsec : ℤ) / 1000000000 := by
  rw [calcTime]
  split_ifs
  · push_cast
    ring
  · rfl

theorem toInt8_bounds (n : ℤ) : -128 ≤ toInt8 n ∧ toInt8 n ≤ 127 := by
  have hlo := Int.le_bmod (x := n) (m := 2 ^ 8) (by decide)
  have hhi := Int.bmod_lt (x := n) (m := 2 ^ 8) (by decide)
  rw [toInt8]
  omega

/-- A positive `int` survives the conversion up to `127`. -/
theorem toInt8_eq_iff {n : ℤ} (hpos : 0 < n) : toInt8 n = n ↔ n ≤ 127 := by
  refine ⟨fun h => ?_, fun h => ?_⟩
  · rw [← h]
    exact (toInt8_bounds n).2
  · exact Int.bmod_eq_of_le_mul_two (by omega) (by omega)

/-! ## The record -/

section Record

variable {filename wallTime : List UInt8} {maxThreads : ℤ}

/-- A comma is not a digit. -/
theorem comma_notMem_decimal (n : ℕ) : (44 : UInt8) ∉ 32 :: decimal n := by
  rw [List.mem_cons, not_or]
  exact ⟨by decide, fun h => absurd (isDigit_of_mem_decimal h).1 (by decide)⟩

theorem comma_notMem_signedDecimal (i : ℤ) : (44 : UInt8) ∉ 32 :: signedDecimal i := by
  rw [List.mem_cons, not_or]
  refine ⟨by decide, fun h => ?_⟩
  rcases mem_signedDecimal h with hminus | hdigit
  · exact absurd hminus (by decide)
  · exact absurd hdigit.1 (by decide)

/-- Without the limit of the buffer, the record by its commas. -/
theorem timeLine_eq (hash : UInt64) (hthreads : -128 ≤ maxThreads ∧ maxThreads ≤ 127)
    (hfits : filename.length + wallTime.length ≤ 8160) :
    timeLine filename hash maxThreads wallTime =
      filename ++ 44 :: ((32 :: decimal hash.toNat) ++
        44 :: ((32 :: signedDecimal maxThreads) ++ 44 :: 32 :: (wallTime ++ [10]))) := by
  have hhash : (decimal hash.toNat).length ≤ 20 :=
    length_decimal_le (by decide) (hash.toNat_lt.trans (by decide))
  have hsigned : (signedDecimal maxThreads).length ≤ 4 :=
    length_signedDecimal_le (k := 3) (by decide) (by omega)
  have hline : filename ++ literal ", " ++ decimal hash.toNat ++ literal ", " ++
      signedDecimal maxThreads ++ literal ", " ++ wallTime ++ literal "\n" =
      filename ++ 44 :: ((32 :: decimal hash.toNat) ++
        44 :: ((32 :: signedDecimal maxThreads) ++ 44 :: 32 :: (wallTime ++ [10]))) := by
    have hcomma : literal ", " = [44, 32] := rfl
    have hend : literal "\n" = [10] := rfl
    rw [hcomma, hend]
    simp only [List.append_assoc, List.cons_append, List.nil_append]
  rw [timeLine, hline]
  refine snprintf_of_lt ?_
  simp only [List.length_append, List.length_cons, List.length_nil, filenameMax]
  omega

/-- The record is read back from the file. -/
theorem readTime_timeText (hash : UInt64) (hthreads : -128 ≤ maxThreads ∧ maxThreads ≤ 127)
    (hfits : filename.length + wallTime.length ≤ 8160) (hwall : (44 : UInt8) ∉ wallTime) :
    readTime (timeText filename hash maxThreads wallTime) =
      some ⟨filename, hash.toNat, maxThreads, wallTime⟩ := by
  have hlast : (44 : UInt8) ∉ 32 :: (wallTime ++ [10]) := by
    rw [List.mem_cons, List.mem_append, not_or, not_or]
    exact ⟨by decide, hwall, by decide⟩
  have hfields : (timeLine filename hash maxThreads wallTime).splitOn 44 =
      filename.splitOn 44 ++ [32 :: decimal hash.toNat, 32 :: signedDecimal maxThreads,
        32 :: (wallTime ++ [10])] := by
    rw [timeLine_eq hash hthreads hfits, List.splitOn_append_cons_self,
      List.splitOn_append_cons_self_of_not_mem (comma_notMem_decimal _),
      List.splitOn_append_cons_self_of_not_mem (comma_notMem_signedDecimal _),
      List.splitOn_eq_singleton hlast]
  rw [readTime, timeText, List.drop_left, hfields, List.reverse_append]
  simp only [List.reverse_cons, List.reverse_nil, List.nil_append, List.cons_append,
    List.reverse_reverse, List.tail_cons, List.intercalate_splitOn, readDecimal_decimal,
    readSigned_signedDecimal, List.dropLast_concat]

end Record

end EfficientDictionary
