import EfficientDictionary.Pieces
import Mathlib.Algebra.Order.BigOperators.Group.List
import Mathlib.Algebra.Order.Ring.Nat

/-!
# How much memory WordList asks for

`WordList` calls `malloc` twice: for the array of pointers into the document, and for the block
of the result. A word takes a letter at least and all but the last a separator, so both sizes are
linear in the length of the document. In particular no product or sum that goes into them is
large enough to wrap around.
-/

namespace EfficientDictionary

/-! ## Lists of strings -/

section Strings

variable {α : Type}

/-- A string in a list takes its length and one more. -/
def sizeWithZeros (strs : List (List α)) : ℕ := (strs.map fun t => t.length + 1).sum

/-- The pieces of a list and the places where it is cut are all there is. -/
theorem sizeWithZeros_splitOnP (p : α → Bool) (as : List α) :
    sizeWithZeros (as.splitOnP p) = as.length + 1 := by
  induction as with
  | nil => rfl
  | cons a as ih =>
    rw [List.splitOnP_cons_eq_if_modifyHead]
    split_ifs with h
    · rw [sizeWithZeros, List.map_cons, List.sum_cons, ← sizeWithZeros, ih, List.length_cons]
      exact Nat.add_comm _ _
    · obtain ⟨t, rest, hsplit⟩ := List.exists_cons_of_ne_nil (List.splitOnP_ne_nil p as)
      rw [hsplit] at ih ⊢
      rw [List.modifyHead_cons, sizeWithZeros, List.map_cons, List.sum_cons, List.length_cons,
        List.length_cons, ← ih, sizeWithZeros, List.map_cons, List.sum_cons]
      omega

/-- Fewer strings take less. -/
theorem sizeWithZeros_le {strs strs' : List (List α)} (h : strs.Subperm strs') :
    sizeWithZeros strs ≤ sizeWithZeros strs' := by
  obtain ⟨l, hperm, hsub⟩ := h
  rw [sizeWithZeros, ← (hperm.map _).sum_eq]
  exact (hsub.map _).sum_le_sum fun _ _ => Nat.zero_le _

/-- Strings that are not empty take two bytes at least. -/
theorem two_mul_length_le {strs : List (List α)} (h : ∀ t ∈ strs, t ≠ []) :
    2 * strs.length ≤ sizeWithZeros strs := by
  induction strs with
  | nil => exact Nat.zero_le _
  | cons t strs ih =>
    obtain ⟨hne, hrest⟩ := List.forall_mem_cons.mp h
    have hlen := List.length_pos_iff.mpr hne
    have hih := ih hrest
    rw [sizeWithZeros, List.map_cons, List.sum_cons, ← sizeWithZeros, List.length_cons]
    omega

end Strings

theorem length_poolCells_eq (strs : List (List UInt8)) :
    (poolCells strs).length = sizeWithZeros strs := by
  rw [poolCells, List.length_flatMap, sizeWithZeros]
  exact congrArg List.sum (List.map_congr_left fun t _ => length_stringCells t)

theorem length_packStrings (strs : List (List UInt8)) :
    (packStrings strs).length = strs.length * ptrBytes + sizeWithZeros strs := by
  rw [packStrings, List.length_append, length_tableCells, length_poolCells_eq]

/-! ## The words of a document -/

section Document

variable (doc : Mem)

/-- The words and their separators fit in the document, the last word needing none. -/
theorem sizeWithZeros_wordsOf_le : sizeWithZeros (wordsOf doc) ≤ doc.length + 1 := by
  rw [wordsOf_eq_pieces, pieces, ← sizeWithZeros_splitOnP (fun b => !isLetter b) doc]
  exact sizeWithZeros_le List.filter_sublist.subperm

/-- The distinct words are some of the words. -/
theorem distinctWords_subperm : (distinctWords doc).Subperm (wordsOf doc) :=
  List.Nodup.subperm (sortedDistinct_pairwise _).nodup fun _ ht => mem_sortedDistinct.mp ht

theorem two_mul_length_wordsOf_le : 2 * (wordsOf doc).length ≤ doc.length + 1 := by
  refine (two_mul_length_le fun t ht => ?_).trans (sizeWithZeros_wordsOf_le doc)
  rw [wordsOf_eq_pieces, pieces] at ht
  exact of_decide_eq_true (List.mem_filter.mp ht).2

end Document

/-! ## Result -/

/-- **What WordList asks `malloc` for**, with any sort: four bytes for each byte of the document
and the one behind it for the array, five for the block, nine for both. The block is the table
of pointers and the distinct words with their zeros, nothing else. -/
theorem wordList_space {sort : Mem → ℕ → CProg Ptr PUnit} (hsort : SortsWords sort)
    (doc beyond : Mem) (array : ℤ → Ptr) (hzero : byteAt beyond 0 = 0)
    (hruns : (runStarts doc).length < 2 ^ 31) :
    let wordCount := (countWords (doc ++ beyond) doc.length).wordCount
    wordCount * ptrBytes ≤ 4 * (doc.length + 1) ∧
      ∃ o, wordListWith sort ⟨some array, true⟩ (some (doc ++ beyond)) doc.length = .ok o ∧
        ∀ block, o.words = some block →
          block.length = o.count * ptrBytes + sizeWithZeros (distinctWords doc) ∧
            block.length ≤ 5 * (doc.length + 1) ∧
            wordCount * ptrBytes + block.length ≤ 9 * (doc.length + 1) := by
  have hcount := (countWords_doc doc beyond).2
  have htwo := two_mul_length_wordsOf_le doc
  have hdistinct := (distinctWords_subperm doc).length_le
  have hstrings := (sizeWithZeros_le (distinctWords_subperm doc)).trans
    (sizeWithZeros_wordsOf_le doc)
  dsimp only
  rw [hcount, ← length_wordsOf]
  refine ⟨by simp only [ptrBytes]; omega, ?_⟩
  by_cases hne : runStarts doc = []
  · exact ⟨_, wordListWith_of_nil _ hne, fun block h => by cases h⟩
  · refine ⟨_, wordListWith_of_ne_nil (hsort _ _ hruns) array hne, fun block h => ?_⟩
    obtain rfl := Option.some.inj h
    rw [map_cstr_runStarts hzero, ← distinctWords, length_packStrings]
    refine ⟨rfl, ?_, ?_⟩
    · simp only [ptrBytes]
      omega
    · simp only [ptrBytes]
      omega

/-- The document `a b`: its array and its block fill what they may. -/
theorem wordList_space_two :
    ∃ o, wordList ⟨some fun _ => 0, true⟩ (some [97, 32, 98]) 3 = .ok o ∧
      ∀ block, o.words = some block → 16 + block.length ≤ 36 := by
  obtain ⟨-, o, hrun, hblock⟩ := wordList_space sortsWords_quickSortWords [97, 32, 98] []
    (fun _ => 0) rfl (by decide)
  refine ⟨o, hrun, fun block h => ?_⟩
  exact (hblock block h).2.2

end EfficientDictionary
