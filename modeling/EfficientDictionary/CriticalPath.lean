import EfficientDictionary.ParallelComparisons

/-!
# The longest chain of comparisons

With a thread for every task, `quick_sort_parallel` takes as long as the longest chain of
comparisons that wait for one another. A comment in the source expects `n + n/2 + n/4 + ... = 2n`
of them, and words that are in order take no more. Copies of one word all end up on one side of
the pivot: the chain is then all of the work, and that is no less than the pairs of words, which
is what `quick_sort_words` takes with one thread.
-/

namespace EfficientDictionary

/-- The longest chain of comparisons in a call of `quick_sort_parallel` on the array `w`: those of
the partition, then the longer one of the two tasks. -/
def quickSortParallelChain (mem : Mem) (threshold left right : ℤ) (w : ℤ → Ptr) : ℕ :=
  if left < right then
    if right - left < threshold then
      comparisons ((quickSortRecursive mem left right).exec ⟨w, []⟩).trace
    else
      comparisons ((seqPivotSelect mem left right).exec ⟨w, []⟩).trace +
        max (quickSortParallelChain mem threshold left
            ((seqPivotSelect mem left right).val ⟨w, []⟩ - 1)
            ((seqPivotSelect mem left right).exec ⟨w, []⟩).cells)
          (quickSortParallelChain mem threshold
            ((seqPivotSelect mem left right).val ⟨w, []⟩ + 1) right
            ((seqPivotSelect mem left right).exec ⟨w, []⟩).cells)
  else
    0
termination_by (right + 1 - left).toNat
decreasing_by
  all_goals
    have hbounds := seqPivotSelect_bounds mem ‹left < right› ⟨w, []⟩
    omega

section Chain

variable {mem : Mem} {threshold left right : ℤ} {w : ℤ → Ptr}

theorem quickSortParallelChain_of_le (mem : Mem) (threshold : ℤ) (w : ℤ → Ptr) (h : right ≤ left) :
    quickSortParallelChain mem threshold left right w = 0 := by
  rw [quickSortParallelChain, if_neg (not_lt.mpr h)]

theorem quickSortParallelChain_of_lt_threshold (mem : Mem) (w : ℤ → Ptr) (h : left < right)
    (hsmall : right - left < threshold) :
    quickSortParallelChain mem threshold left right w =
      comparisons ((quickSortRecursive mem left right).exec ⟨w, []⟩).trace := by
  rw [quickSortParallelChain, if_pos h, if_pos hsmall]

theorem quickSortParallelChain_of_tasks (h : left < right) (hbig : ¬ right - left < threshold)
    {idx : ℤ} {w' : ℤ → Ptr} (hval : (seqPivotSelect mem left right).val ⟨w, []⟩ = idx)
    (hcells : ((seqPivotSelect mem left right).exec ⟨w, []⟩).cells = w') :
    quickSortParallelChain mem threshold left right w = 3 + (right - 1 - left).toNat +
      max (quickSortParallelChain mem threshold left (idx - 1) w')
        (quickSortParallelChain mem threshold (idx + 1) right w') := by
  rw [quickSortParallelChain, if_pos h, if_neg hbig, hval, hcells, comparisons,
    (seqPivotSelect_takes mem left right ⟨w, []⟩).tally_eq]

/-- What the sequential quicksort takes depends on the words only. -/
theorem quickSortRecursive_takes_comparisons (mem : Mem) (left right : ℤ) {s : Machine Call Ptr}
    (hs : s.cells = w) :
    Takes Call.isStrcmp (comparisons ((quickSortRecursive mem left right).exec ⟨w, []⟩).trace)
      (quickSortRecursive mem left right) s := by
  obtain ⟨k, hk, -⟩ := quickSortRecursive_takes mem left right ⟨w, []⟩
  rw [comparisons, hk.tally_eq]
  exact (quickSortRecursive_sameCost mem mem left right).takes
    (.of_cells fun i _ => congrFun hs i) hk

/-- A partition, wherever the run stands. -/
theorem seqPivotSelect_congr (mem : Mem) (h : left < right) {s : Machine Call Ptr}
    (hs : s.cells = w) :
    (seqPivotSelect mem left right).val s = (seqPivotSelect mem left right).val ⟨w, []⟩ ∧
      ((seqPivotSelect mem left right).exec s).cells =
        ((seqPivotSelect mem left right).exec ⟨w, []⟩).cells :=
  (seqPivotSelect_local mem h).cells_congr hs

/-- The chain is part of the work, which every schedule has to do. -/
theorem quickSortParallelChain_le (mem : Mem) (threshold left right : ℤ) (w : ℤ → Ptr) :
    ∃ k, quickSortParallelChain mem threshold left right w ≤ k ∧
      ∀ (σ : Choices Bool) (s : Machine Call Ptr), s.cells = w →
        Takes Call.isStrcmp k (quickSortParallel mem threshold σ left right) s := by
  revert w
  induction left, right using range_induction with
  | step left right ih =>
    intro w
    rcases lt_or_ge left right with h | h
    · by_cases hsmall : right - left < threshold
      · refine ⟨_, le_refl _, fun σ s hs => ?_⟩
        rw [quickSortParallel_of_lt_threshold mem threshold σ h hsmall,
          quickSortParallelChain_of_lt_threshold mem w h hsmall]
        exact quickSortRecursive_takes_comparisons mem left right hs
      · obtain ⟨hlo, hhi⟩ := seqPivotSelect_bounds mem h ⟨w, []⟩
        rw [quickSortParallelChain_of_tasks h hsmall rfl rfl]
        have hcongr := fun s hs => seqPivotSelect_congr (w := w) mem h (s := s) hs
        generalize (seqPivotSelect mem left right).val ⟨w, []⟩ = idx at *
        generalize ((seqPivotSelect mem left right).exec ⟨w, []⟩).cells = w' at *
        obtain ⟨k, hle, hfirst⟩ := ih left (idx - 1) (by omega) w'
        obtain ⟨k', hle', hsecond⟩ := ih (idx + 1) right (by omega) w'
        refine ⟨3 + (right - 1 - left).toNat + (k + k'), by omega, fun σ s hs => ?_⟩
        obtain ⟨hval, hcells⟩ := hcongr s hs
        rw [quickSortParallel_of_tasks mem threshold σ h hsmall]
        refine (seqPivotSelect_takes mem left right s).bind ?_
        rw [hval]
        exact quickSortParallelTasks_takes σ
          (fun s' hs' => hfirst σ.first s' (hs'.trans hcells))
          fun s' hs' => hsecond σ.second s' (hs'.trans hcells)
    · refine ⟨0, (quickSortParallelChain_of_le mem threshold w h).le, fun σ s _ => ?_⟩
      rw [quickSortParallel_of_le mem threshold σ h]
      exact Takes.pure _ _

/-! ## Words in order -/

/-- Every range is halved, so the chain is `n + n/2 + n/4 + ...` and what is below the threshold. -/
theorem quickSortParallelChain_of_increasing (mem : Mem) (threshold left right : ℤ) (w : ℤ → Ptr)
    (hinc : IncreasingOn mem w left (right + 1)) :
    quickSortParallelChain mem threshold left right w ≤ 2 * (right + 1 - left).toNat +
      Nat.clog 2 ((right + 1 - left).toNat + 1) + threshold.toNat.choose 2 := by
  induction left, right using range_induction with
  | step left right ih =>
    rcases lt_or_ge left right with h | h
    · by_cases hsmall : right - left < threshold
      · obtain ⟨k, hk, hle, -⟩ := quickSortRecursive_takes mem left right ⟨w, []⟩
        rw [quickSortParallelChain_of_lt_threshold mem w h hsmall, comparisons, hk.tally_eq]
        exact hle.trans <| (Nat.choose_le_choose 2 (by omega)).trans (Nat.le_add_left _ _)
      · obtain ⟨hlo, hhi⟩ := seqMid_bounds h
        obtain ⟨hval, hcells⟩ := seqPivotSelect_of_increasing (s := ⟨w, []⟩) h hinc
        obtain ⟨hab, hba, hsize⟩ := seqMid_halves h
        have hfirst := ih left (seqMid left right - 1) (by omega)
          (hinc.mono (le_refl left) (by omega))
        have hsecond := ih (seqMid left right + 1) right (by omega)
          (hinc.mono (by omega) (le_refl _))
        rw [quickSortParallelChain_of_tasks h hsmall hval hcells]
        have hsplit := split_le_chain hab hba hfirst hsecond
        have hcost : 3 + (right - 1 - left).toNat = (right + 1 - left).toNat + 1 := by omega
        rw [hcost, ← hsize]
        exact hsplit
    · rw [quickSortParallelChain_of_le mem threshold w h]
      exact Nat.zero_le _

/-! ## Copies of one word -/

/-- The words of `[l, r)` are copies of `t`. -/
def CopiesOn (mem : Mem) (t : List UInt8) (w : ℤ → Ptr) (l r : ℤ) : Prop :=
  ∀ i, l ≤ i → i < r → cstr mem (w i) = t

/-- The pivot of copies stays at the front, so all others are on one side. -/
theorem seqPivotSelect_of_copies {t : List UInt8} {s : Machine Call Ptr} (h : left < right)
    (hcopies : CopiesOn mem t s.cells left (right + 1)) :
    (seqPivotSelect mem left right).val s = left ∧
      CopiesOn mem t ((seqPivotSelect mem left right).exec s).cells left (right + 1) := by
  obtain ⟨hperm, hsplit⟩ := seqPivotSelect_spec mem h s
  obtain ⟨hlo, hhi⟩ := seqPivotSelect_bounds mem h s
  have hafter : CopiesOn mem t ((seqPivotSelect mem left right).exec s).cells left (right + 1) :=
    (hperm.forall_iff (P := fun p => cstr mem p = t)).mpr hcopies
  refine ⟨?_, hafter⟩
  by_contra hne
  have hlt := hsplit.low left (le_refl left) (lt_of_le_of_ne hlo (Ne.symm hne))
  rw [hafter left (le_refl left) (by omega), hafter _ hlo (by omega)] at hlt
  exact lt_irrefl t hlt

/-- The chain is all of the work, and no shorter than what one thread takes. -/
theorem quickSortParallelChain_of_copies {t : List UInt8} (mem : Mem) (threshold left right : ℤ)
    (w : ℤ → Ptr) (hcopies : CopiesOn mem t w left (right + 1)) :
    (right + 1 - left).toNat.choose 2 ≤ quickSortParallelChain mem threshold left right w ∧
      ∀ (σ : Choices Bool) (s : Machine Call Ptr), s.cells = w →
        Takes Call.isStrcmp (quickSortParallelChain mem threshold left right w)
          (quickSortParallel mem threshold σ left right) s := by
  revert w
  induction left, right using range_induction with
  | step left right ih =>
    intro w hcopies
    rcases lt_or_ge left right with h | h
    · by_cases hsmall : right - left < threshold
      · rw [quickSortParallelChain_of_lt_threshold mem w h hsmall]
        refine ⟨?_, fun σ s hs => ?_⟩
        · obtain ⟨k, hk, -, heq⟩ := quickSortRecursive_takes mem left right ⟨w, []⟩
          have hkeys : (slice w left (right + 1)).map (cstr mem) =
              List.replicate (slice w left (right + 1)).length t :=
            List.map_eq_replicate_iff.mpr fun p hp => by
              obtain ⟨i, hi, hir, rfl⟩ := mem_slice.mp hp
              exact hcopies i hi hir
          rw [comparisons, hk.tally_eq]
          refine (heq.mpr ?_).ge
          rw [hkeys]
          exact Lopsided.replicate (lt_irrefl t) _
        · rw [quickSortParallel_of_lt_threshold mem threshold σ h hsmall]
          exact quickSortRecursive_takes_comparisons mem left right hs
      · obtain ⟨hval, hafter⟩ := seqPivotSelect_of_copies (s := ⟨w, []⟩) h hcopies
        rw [quickSortParallelChain_of_tasks h hsmall hval rfl]
        have hcongr := fun s hs => seqPivotSelect_congr (w := w) mem h (s := s) hs
        generalize ((seqPivotSelect mem left right).exec ⟨w, []⟩).cells = w' at *
        obtain ⟨hpairs, hwork⟩ := ih (left + 1) right (by omega) w' fun i hi hir =>
          hafter i (by omega) hir
        have hsize : (right + 1 - left).toNat = (right + 1 - (left + 1)).toNat + 1 := by omega
        rw [quickSortParallelChain_of_le mem threshold w' (by omega : left - 1 ≤ left),
          Nat.zero_max, hsize, choose_two_succ]
        refine ⟨by omega, fun σ s hs => ?_⟩
        obtain ⟨hsame, hcells⟩ := hcongr s hs
        rw [quickSortParallel_of_tasks mem threshold σ h hsmall]
        refine (seqPivotSelect_takes mem left right s).bind ?_
        rw [hsame, hval, ← Nat.zero_add (quickSortParallelChain mem threshold (left + 1) right w')]
        refine quickSortParallelTasks_takes σ (fun s' _ => ?_) fun s' hs' => ?_
        · rw [quickSortParallel_of_le mem threshold _ (by omega : left - 1 ≤ left)]
          exact Takes.pure _ _
        · exact hwork σ.second s' (hs'.trans hcells)
    · rw [quickSortParallelChain_of_le mem threshold w h]
      refine ⟨(Nat.choose_eq_zero_of_lt (by omega)).le, fun σ s _ => ?_⟩
      rw [quickSortParallel_of_le mem threshold σ h]
      exact Takes.pure _ _

end Chain

/-! ## Results -/

/-- **Words in order keep the threads busy**: apart from what is below the threshold the chain is
linear, as the comment in the source has it, and it is never more than the work. -/
theorem quickSortParallel_increasing_chain (mem : Mem) (threshold left right : ℤ) (w : ℤ → Ptr)
    (hinc : IncreasingOn mem w left (right + 1)) :
    let n := (right + 1 - left).toNat
    let chain := quickSortParallelChain mem threshold left right w
    chain ≤ 2 * n + Nat.clog 2 (n + 1) + threshold.toNat.choose 2 ∧
      ∀ σ, chain ≤
        comparisons ((quickSortParallel mem threshold σ left right).exec ⟨w, []⟩).trace := by
  refine ⟨quickSortParallelChain_of_increasing mem threshold left right w hinc, fun σ => ?_⟩
  obtain ⟨k, hle, hwork⟩ := quickSortParallelChain_le mem threshold left right w
  rw [comparisons, (hwork σ ⟨w, []⟩ rfl).tally_eq]
  exact hle

/-- The words `a`, `b` and `c`. -/
theorem quickSortParallel_increasing_chain_three :
    quickSortParallelChain [97, 0, 98, 0, 99, 0] 0 0 2 (fun i => 2 * i.toNat) ≤ 8 := by
  have hbound : 2 * (2 + 1 - 0 : ℤ).toNat + Nat.clog 2 ((2 + 1 - 0 : ℤ).toNat + 1) +
      (0 : ℤ).toNat.choose 2 = 8 := by decide
  rw [← hbound]
  exact (quickSortParallel_increasing_chain [97, 0, 98, 0, 99, 0] 0 0 2
    (fun i => 2 * i.toNat) (increasingOn_iff.mpr (by decide))).1

/-- **Copies of one word keep one thread busy**: the chain is all of the work of every schedule,
and no shorter than what `quick_sort_words` takes. -/
theorem quickSortParallel_copies_chain (mem : Mem) (threshold left right : ℤ) (w : ℤ → Ptr)
    (t : List UInt8) (hcopies : CopiesOn mem t w left (right + 1)) :
    let chain := quickSortParallelChain mem threshold left right w
    (right + 1 - left).toNat.choose 2 ≤ chain ∧
      ∀ σ, comparisons ((quickSortParallel mem threshold σ left right).exec ⟨w, []⟩).trace =
        chain := by
  obtain ⟨hpairs, hwork⟩ := quickSortParallelChain_of_copies mem threshold left right w hcopies
  exact ⟨hpairs, fun σ => (hwork σ ⟨w, []⟩ rfl).tally_eq⟩

/-- Three copies of `a`. -/
theorem quickSortParallel_copies_chain_three :
    3 ≤ quickSortParallelChain [97, 0] 0 0 2 fun _ => 0 := by
  have hword : cstr [97, 0] 0 = [97] := by decide
  exact (quickSortParallel_copies_chain [97, 0] 0 0 2 (fun _ => 0) [97] fun _ _ _ => hword).1

end EfficientDictionary
