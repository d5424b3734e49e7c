import EfficientDictionary.BaselineComparisons

/-!
# How deep the calls nest

A call of a quicksort stays on the stack until both calls it makes have returned, so what the
stack has to hold is not the number of calls but how deep they nest. The two recursions are
written here once more, with a result: how many calls with something to sort are open at the
same time. Apart from that they do the same.

Both quicksorts may nest as deep as there are words: that of `WordList` on words in order, the
baseline even on copies of one word, because it takes the `NULL`s for pivots one by one.
-/

namespace EfficientDictionary

/-! ## quick_sort_recursive -/

/-- `quick_sort_recursive`; the result is how deep the calls nest that have something to sort. -/
def quickSortRecursiveDepth (mem : Mem) (left right : ℤ) : CProg Ptr ℕ :=
  if h : left < right then do
    let idx ← (partitionWords mem left right).attach
    int (idx.1 - 1)
    let before ← quickSortRecursiveDepth mem left (idx.1 - 1)
    int (idx.1 + 1)
    let after ← quickSortRecursiveDepth mem (idx.1 + 1) right
    pure (max before after + 1)
  else
    pure 0
termination_by (right + 1 - left).toNat
decreasing_by
  all_goals
    obtain ⟨s, hs⟩ := idx.2
    have hbounds := partitionWords_bounds mem h.le s
    omega

/-- `quick_sort_words`, with the same result. -/
def quickSortWordsDepth (mem : Mem) (count : ℕ) : CProg Ptr ℕ :=
  if count ≤ 1 then pure 0 else quickSortRecursiveDepth mem 0 (toInt (count - 1))

section QuickSort

variable {left right : ℤ}

theorem quickSortRecursiveDepth_of_lt (mem : Mem) (h : left < right) :
    quickSortRecursiveDepth mem left right = (do
      let idx ← partitionWords mem left right
      int (idx - 1)
      let before ← quickSortRecursiveDepth mem left (idx - 1)
      int (idx + 1)
      let after ← quickSortRecursiveDepth mem (idx + 1) right
      pure (max before after + 1)) := by
  rw [quickSortRecursiveDepth, dif_pos h]
  rfl

theorem quickSortRecursiveDepth_of_le (mem : Mem) (h : right ≤ left) :
    quickSortRecursiveDepth mem left right = pure 0 := by
  rw [quickSortRecursiveDepth, dif_neg (not_lt.mpr h)]

/-- Counting does not change what is done. -/
theorem quickSortRecursiveDepth_exec (mem : Mem) (left right : ℤ) (s : Machine Call Ptr) :
    (quickSortRecursiveDepth mem left right).exec s =
      (quickSortRecursive mem left right).exec s := by
  revert s
  induction left, right using range_induction with
  | step left right ih =>
    intro s
    rcases lt_or_ge left right with h | h
    · obtain ⟨hlo, hhi⟩ := partitionWords_bounds mem h.le s
      rw [quickSortRecursiveDepth_of_lt mem h, quickSortRecursive_of_lt mem h]
      simp only [Prog.bind_exec, Prog.pure_exec]
      rw [ih left _ (by omega), ih _ right (by omega)]
    · rw [quickSortRecursiveDepth_of_le mem h, quickSortRecursive_of_le mem h]
      rfl

/-- The calls nest at most as deep as there are words after the first, and that deep only when
the range is lopsided. -/
theorem quickSortRecursiveDepth_val (mem : Mem) (left right : ℤ) (s : Machine Call Ptr) :
    (quickSortRecursiveDepth mem left right).val s ≤ (right - left).toNat ∧
      ((quickSortRecursiveDepth mem left right).val s = (right - left).toNat ↔
        Lopsided ((slice s.cells left (right + 1)).map (cstr mem))) := by
  revert s
  induction left, right using range_induction with
  | step left right ih =>
    intro s
    rcases lt_or_ge left right with h | h
    · obtain ⟨hlo, hhi⟩ := partitionWords_bounds mem h.le s
      rw [quickSortRecursiveDepth_of_lt mem h, partitionWords_lopsided_iff mem h.le]
      simp only [Prog.bind_val, Prog.pure_val, quickSortRecursiveDepth_exec]
      generalize (partitionWords mem left right).val s = idx at *
      generalize (partitionWords mem left right).exec s = s₁ at *
      have hsorts := quickSortRecursive_sorts mem left (idx - 1) ((int (idx - 1)).exec s₁)
      obtain ⟨hd, heq⟩ := ih left (idx - 1) (by omega) ((int (idx - 1)).exec s₁)
      obtain ⟨hd', heq'⟩ := ih (idx + 1) right (by omega) ((int (idx + 1)).exec
        ((quickSortRecursive mem left (idx - 1)).exec ((int (idx - 1)).exec s₁)))
      rw [Int.sub_add_cancel] at hsorts heq
      rw [int_cells] at hsorts heq
      -- the words after the pivot are still those of the partition
      rw [int_cells, slice_congr fun i hi _ => hsorts.rearranges.frame i (by omega)] at heq'
      generalize (quickSortRecursiveDepth mem left (idx - 1)).val _ = d at *
      generalize (quickSortRecursiveDepth mem (idx + 1) right).val _ = d' at *
      have hbefore : (idx - 1 - left).toNat = (idx - left).toNat - 1 := by omega
      have hafter : (right - (idx + 1)).toNat = (right - idx).toNat - 1 := by omega
      have hparts : (right - left).toNat = (idx - left).toNat + (right - idx).toNat := by omega
      have hlast : idx = right ↔ (right - idx).toNat = 0 := by omega
      have hfirst : idx = left ↔ (idx - left).toNat = 0 := by omega
      rw [hbefore] at hd heq
      rw [hafter] at hd' heq'
      rw [hparts, ← heq, ← heq', hlast, hfirst]
      exact split_le_rounds (by omega) hd hd'
    · have hzero : (right - left).toNat = 0 := by omega
      rw [quickSortRecursiveDepth_of_le mem h, hzero]
      refine ⟨le_refl 0, iff_of_true rfl (Lopsided.of_length_le ?_)⟩
      rw [List.length_map, length_slice]
      omega

theorem quickSortWordsDepth_exec (mem : Mem) (count : ℕ) (s : Machine Call Ptr) :
    (quickSortWordsDepth mem count).exec s = (quickSortWords mem count).exec s := by
  rw [quickSortWordsDepth, quickSortWords]
  split_ifs with hle
  · rfl
  · exact quickSortRecursiveDepth_exec mem 0 _ s

theorem quickSortWordsDepth_val (mem : Mem) {count : ℕ} (h : count ≤ 2 ^ 31)
    (s : Machine Call Ptr) :
    (quickSortWordsDepth mem count).val s ≤ count - 1 ∧
      ((quickSortWordsDepth mem count).val s = count - 1 ↔
        Lopsided ((slice s.cells 0 count).map (cstr mem))) := by
  rw [quickSortWordsDepth]
  split_ifs with hle
  · have hzero : count - 1 = 0 := by omega
    rw [hzero]
    refine ⟨le_refl 0, iff_of_true rfl (Lopsided.of_length_le ?_)⟩
    rw [List.length_map, length_slice]
    omega
  · have hrun := quickSortRecursiveDepth_val mem 0 (count - 1 : ℕ) s
    have hlast : ((count - 1 : ℕ) : ℤ) + 1 = count := by omega
    rw [hlast, Int.sub_zero, Int.toNat_natCast] at hrun
    rwa [toInt_of_lt (by omega)]

end QuickSort

/-! ## quicksort_recursive of the baseline -/

namespace Baseline

/-- `quicksort_recursive`; the result is how deep the calls nest that have something to sort. -/
def quicksortRecursiveDepth (mem : Mem) (left right : ℤ) : CProg (Option Ptr) ℕ :=
  if h : left < right then do
    let partitionIndex ← (partition mem left right).attach
    int (partitionIndex.1 - 1)
    let before ← quicksortRecursiveDepth mem left (partitionIndex.1 - 1)
    int (partitionIndex.1 + 1)
    let after ← quicksortRecursiveDepth mem (partitionIndex.1 + 1) right
    pure (max before after + 1)
  else
    pure 0
termination_by (right + 1 - left).toNat
decreasing_by
  all_goals
    obtain ⟨s, hs⟩ := partitionIndex.2
    have hbounds := partition_bounds mem h.le s
    omega

section Quicksort

variable {left right : ℤ}

theorem quicksortRecursiveDepth_of_lt (mem : Mem) (h : left < right) :
    quicksortRecursiveDepth mem left right = (do
      let partitionIndex ← partition mem left right
      int (partitionIndex - 1)
      let before ← quicksortRecursiveDepth mem left (partitionIndex - 1)
      int (partitionIndex + 1)
      let after ← quicksortRecursiveDepth mem (partitionIndex + 1) right
      pure (max before after + 1)) := by
  rw [quicksortRecursiveDepth, dif_pos h]
  rfl

theorem quicksortRecursiveDepth_of_le (mem : Mem) (h : right ≤ left) :
    quicksortRecursiveDepth mem left right = pure 0 := by
  rw [quicksortRecursiveDepth, dif_neg (not_lt.mpr h)]

/-- Counting does not change what is done. -/
theorem quicksortRecursiveDepth_exec (mem : Mem) (left right : ℤ)
    (s : Machine Call (Option Ptr)) :
    (quicksortRecursiveDepth mem left right).exec s =
      (quicksortRecursive mem left right).exec s := by
  revert s
  induction left, right using range_induction with
  | step left right ih =>
    intro s
    rcases lt_or_ge left right with h | h
    · obtain ⟨hlo, hhi⟩ := partition_bounds mem h.le s
      rw [quicksortRecursiveDepth_of_lt mem h, quicksortRecursive_of_lt mem h]
      simp only [Prog.bind_exec, Prog.pure_exec]
      rw [ih left _ (by omega), ih _ right (by omega)]
    · rw [quicksortRecursiveDepth_of_le mem h, quicksortRecursive_of_le mem h]
      rfl

/-- The calls nest at most as deep as there are cells after the first. -/
theorem quicksortRecursiveDepth_le (mem : Mem) (left right : ℤ)
    (s : Machine Call (Option Ptr)) :
    (quicksortRecursiveDepth mem left right).val s ≤ (right - left).toNat := by
  revert s
  induction left, right using range_induction with
  | step left right ih =>
    intro s
    rcases lt_or_ge left right with h | h
    · obtain ⟨hlo, hhi⟩ := partition_bounds mem h.le s
      rw [quicksortRecursiveDepth_of_lt mem h]
      simp only [Prog.bind_val, Prog.pure_val]
      generalize (partition mem left right).val s = idx at *
      generalize (partition mem left right).exec s = s₁ at *
      have hbefore := ih left (idx - 1) (by omega) ((int (idx - 1)).exec s₁)
      have hafter := ih (idx + 1) right (by omega) ((int (idx + 1)).exec
        ((quicksortRecursiveDepth mem left (idx - 1)).exec ((int (idx - 1)).exec s₁)))
      omega
    · rw [quicksortRecursiveDepth_of_le mem h]
      exact Nat.zero_le _

/-- All words of the range that are left are one and the same. -/
def OneWord (mem : Mem) (t : List UInt8) (w : ℤ → Option Ptr) (l r : ℤ) : Prop :=
  ∀ p ∈ present w l r, cstr mem p = t

theorem OneWord.of_perm {mem : Mem} {t : List UInt8} {w w' : ℤ → Option Ptr} {l r l' r' : ℤ}
    (h : OneWord mem t w l r) (hperm : (present w' l' r').Perm (present w l r)) :
    OneWord mem t w' l' r' :=
  fun p hp => h p (hperm.mem_iff.mp hp)

/-- On copies of one word the calls nest as deep as that: the last copy goes to the end and the
others become `NULL`, then one `NULL` after the other is the pivot. -/
theorem quicksortRecursiveDepth_of_oneWord {mem : Mem} {t : List UInt8} (left right : ℤ)
    (s : Machine Call (Option Ptr)) (hone : OneWord mem t s.cells left (right + 1)) :
    (quicksortRecursiveDepth mem left right).val s = (right - left).toNat := by
  revert s
  induction left, right using range_induction with
  | step left right ih =>
    intro s hone
    rcases lt_or_ge left right with h | h
    · rw [quicksortRecursiveDepth_of_lt mem h]
      cases hp : s.cells right with
      | none =>
        have hrest := ih (left + 1) right (by omega) ((int (left + 1)).exec
          ((int (left - 1)).exec ((partition mem left right).exec s)))
          (hone.of_perm (present_of_none mem h.le hp))
        simp only [Prog.bind_val, Prog.pure_val, (partition_of_none mem left hp).1,
          quicksortRecursiveDepth_of_le mem (by omega : left - 1 ≤ left), Prog.pure_exec]
        omega
      | some pivot =>
        have hsift := partition_of_some mem h.le hp
        have hpivot := hone pivot (mem_present.mpr ⟨right, h.le, Int.lt_succ right, hp⟩)
        -- no word of the range is smaller than the pivot, or greater
        have hnone : ∀ p ∈ present ((partition mem left right).exec s).cells left (right + 1),
            cstr mem p = t := by
          intro p hp'
          rcases List.mem_append.mp (hsift.entries.mem_iff.mp hp') with hmem | hmem
          · exact hone p (List.mem_of_mem_filter hmem)
          · rw [List.mem_singleton.mp hmem, hpivot]
        have hlast : (partition mem left right).val s = right := by
          by_contra hne
          obtain ⟨p, hcell, hlt⟩ := hsift.high right (lt_of_le_of_ne hsift.hi hne) (le_refl right)
          have heq := hnone p (mem_present.mpr ⟨right, h.le, Int.lt_succ right, hcell⟩)
          rw [heq, hpivot] at hlt
          exact lt_irrefl t hlt
        have hrest := ih left (right - 1) (by omega) ((int (right - 1)).exec
          ((partition mem left right).exec s)) <| by
          intro p hp'
          rw [Int.sub_add_cancel] at hp'
          obtain ⟨i, hi, hir, hcell⟩ := mem_present.mp hp'
          exact hnone p (mem_present.mpr ⟨i, hi, by omega, hcell⟩)
        simp only [Prog.bind_val, Prog.pure_val, hlast, hrest,
          quicksortRecursiveDepth_of_le mem (by omega : right ≤ right + 1)]
        omega
    · rw [quicksortRecursiveDepth_of_le mem h, Prog.pure_val]
      omega

end Quicksort

end Baseline

/-! ## Results -/

/-- **The stack in a run of WordList**: on the words that the scan has found, the calls of
`quick_sort_recursive` nest at most as deep as there are words after the first, and that deep
exactly when the words are lopsided. -/
theorem wordList_depth (doc beyond : Mem) (array : ℤ → Ptr) (hzero : byteAt beyond 0 = 0)
    (hsize : (wordsOf doc).length < 2 ^ 31) :
    let mem := terminated doc ++ beyond
    let n := (wordsOf doc).length
    let s := (collectWords mem doc.length).exec ⟨array, []⟩
    (quickSortWordsDepth mem n).exec s = (quickSortWords mem n).exec s ∧
      (quickSortWordsDepth mem n).val s ≤ n - 1 ∧
      ((quickSortWordsDepth mem n).val s = n - 1 ↔ Lopsided (wordsOf doc)) := by
  have hdepth := quickSortWordsDepth_val (terminated doc ++ beyond)
    (length_runStarts_le hsize)
    ((collectWords (terminated doc ++ beyond) doc.length).exec ⟨array, []⟩)
  rw [slice_collectWords array fun _ => hzero] at hdepth
  dsimp only
  rw [length_wordsOf]
  exact ⟨quickSortWordsDepth_exec _ _ _, hdepth⟩

/-- The document `a b c`: the two words after the first. -/
theorem wordList_depth_three :
    (quickSortWordsDepth [97, 0, 98, 0, 99] 3).val
      ((collectWords [97, 0, 98, 0, 99] 5).exec ⟨fun _ => 0, []⟩) = 2 := by
  have hwords : wordsOf [97, 32, 98, 32, 99] = [[97], [98], [99]] := by decide
  have hrun := wordList_depth [97, 32, 98, 32, 99] [] (fun _ => 0) rfl (by decide)
  rw [hwords] at hrun
  exact hrun.2.2.mpr (Lopsided.of_increasing (by decide))

namespace Baseline

/-- **The stack in a run of the baseline**: the calls of `quicksort_recursive` nest at most as
deep as there are words after the first, and that deep on copies of one word, although each copy
is compared only once. -/
theorem repeated_word_depth (doc beyond : Mem) (array : ℤ → Option Ptr)
    (hzero : byteAt beyond 0 = 0) (hsize : (wordsOf doc).length < 2 ^ 31) :
    let mem := terminated doc ++ beyond
    let n := (wordsOf doc).length
    let s := (scanWords (doc ++ beyond) doc.length).exec ⟨array, []⟩
    let depth := quicksortRecursiveDepth mem 0 (toInt (n - 1))
    depth.exec s = (quicksortRecursive mem 0 (toInt (n - 1))).exec s ∧
      depth.val s ≤ n - 1 ∧
      ∀ t, wordsOf doc = List.replicate n t → depth.val s = n - 1 := by
  have hcount := length_wordsOf doc
  obtain ⟨-, hwords⟩ := scanWords_doc doc beyond array
  have hint : toInt ((wordsOf doc).length - 1) = ((wordsOf doc).length - 1 : ℕ) :=
    toInt_of_lt (by omega)
  have hle := quicksortRecursiveDepth_le (terminated doc ++ beyond) 0
    ((wordsOf doc).length - 1 : ℕ) ((scanWords (doc ++ beyond) doc.length).exec ⟨array, []⟩)
  rw [Int.sub_zero, Int.toNat_natCast] at hle
  dsimp only
  rw [hint]
  refine ⟨quicksortRecursiveDepth_exec _ _ _ _, hle, fun t hcopies => ?_⟩
  rcases Nat.eq_zero_or_pos (wordsOf doc).length with hnil | hpos
  · omega
  · have hone : OneWord (terminated doc ++ beyond) t
        ((scanWords (doc ++ beyond) doc.length).exec ⟨array, []⟩).cells 0
        (((wordsOf doc).length - 1 : ℕ) + 1) := by
      intro p hp
      have hlast : (((wordsOf doc).length - 1 : ℕ) : ℤ) + 1 = (runStarts doc).length := by omega
      rw [hlast, present_of_slice hwords] at hp
      have hword : cstr (terminated doc ++ beyond) p ∈ wordsOf doc := by
        rw [wordsOf, ← map_cstr_runStarts hzero]
        exact List.mem_map_of_mem hp
      rw [hcopies] at hword
      exact List.eq_of_mem_replicate hword
    rw [quicksortRecursiveDepth_of_oneWord 0 _ _ hone, Int.sub_zero, Int.toNat_natCast]

/-- The document `a a a`. -/
theorem repeated_word_depth_three :
    (quicksortRecursiveDepth [97, 0, 97, 0, 97] 0 2).val
      ((scanWords [97, 32, 97, 32, 97] 5).exec ⟨fun _ => none, []⟩) = 2 := by
  have hwords : wordsOf [97, 32, 97, 32, 97] = List.replicate 3 [97] := by decide
  have hrun := repeated_word_depth [97, 32, 97, 32, 97] [] (fun _ => none) rfl (by decide)
  rw [hwords] at hrun
  exact hrun.2.2 [97] rfl

end Baseline

end EfficientDictionary
