import EfficientDictionary.TaskSort
import EfficientDictionary.ThreeWay

/-!
# The quicksort with parallel partitions

`quicksort_parallel_recursive` and `quicksort_parallel`: three-way parallel partitions, the
two outer parts sorted by sibling tasks. Ranges are half-open here, except in the calls of
`quick_sort_recursive` that handle the small ones.

At every node of the task tree a `TaskChoice` says which sibling runs first and what the
team of threads of its partition does, so nodes may even differ in their number of threads.
The threshold is a parameter; the source fixes it to 3000 in `quicksort_parallel`.
-/

namespace EfficientDictionary

/-! ## The recursion -/

/-- What the run-time system decides at a node of the task tree. -/
structure TaskChoice where
  /-- whether the task for the smaller words runs first -/
  firstFirst : Bool
  /-- the threads of the partition -/
  team : Team

/-- The partition always leaves two ranges shorter than the one it was given. -/
theorem parSortPartition_bounds (mem : Mem) (team : Team) {left right : ℤ}
    (h : 1 < right - left) (s : Machine Call Ptr) :
    left ≤ ((parSortPartition mem team left right).val s).1 ∧
      ((parSortPartition mem team left right).val s).1 <
        ((parSortPartition mem team left right).val s).2 ∧
      ((parSortPartition mem team left right).val s).2 ≤ right := by
  have hpart := (parSortPartition_spec mem team h s).1
  obtain ⟨i, hi, hir, hpivot⟩ := parPivotSelect_mem mem (by omega : left < right) s
  have hself : sideOf mem ((parPivotSelect mem left right).val s) (s.cells i) = .equal := by
    rw [sideOf_equal, hpivot, strcmpAt_eq_zero_iff]
  exact ⟨hpart.bounds.1, hpart.middle_nonempty hi hir hself, hpart.bounds.2.2⟩

/-- `quicksort_parallel_recursive` -/
def quicksortParallelRecursive (mem : Mem) (threshold : ℤ) (σ : Choices TaskChoice)
    (left right : ℤ) : CProg Ptr PUnit :=
  if h : right - left ≤ 1 then
    pure ⟨⟩
  else if right - left ≤ threshold then do
    int (right - 1)
    quickSortRecursive mem left (right - 1)
  else do
    let m ← (parSortPartition mem σ.here.team left right).attach
    par σ.here.firstFirst (quicksortParallelRecursive mem threshold σ.first left m.1.1)
      (quicksortParallelRecursive mem threshold σ.second m.1.2 right)
termination_by (right - left).toNat
decreasing_by
  all_goals
    obtain ⟨s, hs⟩ := m.2
    have hbounds := parSortPartition_bounds mem σ.here.team (not_le.mp h) s
    rw [hs] at hbounds
    omega

/-- `quicksort_parallel` with any threshold -/
def quicksortParallelWith (threshold : ℤ) (σ : Choices TaskChoice) (mem : Mem) (n : ℤ) :
    CProg Ptr PUnit :=
  if n ≤ 1 then pure ⟨⟩ else quicksortParallelRecursive mem threshold σ 0 n

/-- `quicksort_parallel` -/
def quicksortParallel (σ : Choices TaskChoice) (mem : Mem) (n : ℤ) : CProg Ptr PUnit :=
  quicksortParallelWith 3000 σ mem n

/-! ## Footprint, result, independence of the schedule -/

section QuicksortParallel

variable (mem : Mem) (threshold : ℤ) {left right : ℤ}

theorem quicksortParallelRecursive_of_le (σ : Choices TaskChoice) (h : right - left ≤ 1) :
    quicksortParallelRecursive mem threshold σ left right = pure ⟨⟩ := by
  rw [quicksortParallelRecursive, dif_pos h]

theorem quicksortParallelRecursive_of_le_threshold (σ : Choices TaskChoice)
    (h : 1 < right - left) (hsmall : right - left ≤ threshold) :
    quicksortParallelRecursive mem threshold σ left right = (do
      int (right - 1)
      quickSortRecursive mem left (right - 1)) := by
  rw [quicksortParallelRecursive, dif_neg (not_le.mpr h), if_pos hsmall]

/-- The two tasks a call spawns. -/
def quicksortParallelTasks (mem : Mem) (threshold : ℤ) (σ : Choices TaskChoice)
    (left right : ℤ) (m : ℤ × ℤ) : CProg Ptr PUnit :=
  par σ.here.firstFirst (quicksortParallelRecursive mem threshold σ.first left m.1)
    (quicksortParallelRecursive mem threshold σ.second m.2 right)

theorem quicksortParallelRecursive_of_tasks (σ : Choices TaskChoice) (h : 1 < right - left)
    (hbig : ¬ right - left ≤ threshold) :
    quicksortParallelRecursive mem threshold σ left right =
      (parSortPartition mem σ.here.team left right >>=
        quicksortParallelTasks mem threshold σ left right) := by
  rw [quicksortParallelRecursive, dif_neg (not_le.mpr h), if_neg hbig]
  rfl

/-- The pivot is a word of the range and a median of the three looked at, so the partition
leaves a middle of at least one word, and the ranges of the two tasks are shorter than the one
they come from. -/
theorem parPivotSelect_progress (h : 2 ≤ right - left) (s : Machine Call Ptr) :
    ∃ pivot, (parPivotSelect mem left right).val s = pivot ∧
      (∃ i, left ≤ i ∧ i < right ∧ pivot = s.cells i) ∧
      IsMedian (cstr mem) (s.cells left) (s.cells (parMid left right)) (s.cells (right - 1))
        pivot ∧
      ∀ team, ∃ m, (parSortPartition mem team left right).val s = m ∧
        (left ≤ m.1 ∧ m.1 < m.2 ∧ m.2 ≤ right) ∧
        (m.1 - left < right - left ∧ right - m.2 < right - left) ∧
        (∀ i, m.1 ≤ i → i < m.2 →
          strcmpAt mem (((parSortPartition mem team left right).exec s).cells i) pivot = 0) ∧
        ∀ σ, σ.here.team = team → ¬ right - left ≤ threshold →
          (quicksortParallelRecursive mem threshold σ left right).exec s =
            (par σ.here.firstFirst (quicksortParallelRecursive mem threshold σ.first left m.1)
              (quicksortParallelRecursive mem threshold σ.second m.2 right)).exec
                ((parSortPartition mem team left right).exec s) := by
  refine ⟨_, rfl, parPivotSelect_mem mem (by omega) s, parPivotSelect_isMedian mem left right s,
    fun team => ?_⟩
  have hm := parSortPartition_bounds mem team (by omega : 1 < right - left) s
  have hpart := (parSortPartition_spec mem team (by omega : 1 < right - left) s).1
  refine ⟨_, rfl, hm, ⟨by omega, by omega⟩, fun i hi him => ?_, fun σ hteam hbig => ?_⟩
  · exact sideOf_equal.mp (Partitions.side_of_slice hpart.equal hi him)
  · rw [quicksortParallelRecursive_of_tasks mem threshold σ (by omega) hbig, hteam,
      Prog.bind_exec]
    rfl

/-- The words `c`, `b` and `a`: the pivot is `b`, and its tasks get ranges of fewer words. -/
theorem parPivotSelect_progress_three :
    (parPivotSelect [99, 0, 98, 0, 97, 0] 0 3).val ⟨fun i => 2 * i.toNat, []⟩ = 2 ∧
      IsMedian (cstr [99, 0, 98, 0, 97, 0]) 0 2 4 2 ∧
      ((parSortPartition [99, 0, 98, 0, 97, 0] Team.solo 0 3).val ⟨fun i => 2 * i.toNat, []⟩).1 <
        ((parSortPartition [99, 0, 98, 0, 97, 0] Team.solo 0 3).val
          ⟨fun i => 2 * i.toNat, []⟩).2 := by
  obtain ⟨pivot, hval, _, hmedian, hteam⟩ :=
    parPivotSelect_progress [99, 0, 98, 0, 97, 0] 1 (by decide : (2 : ℤ) ≤ 3 - 0)
      ⟨fun i => 2 * i.toNat, []⟩
  obtain rfl : 2 = pivot := by
    rw [← hval]
    decide
  obtain ⟨m, hm, hbounds, _⟩ := hteam Team.solo
  rw [hm]
  exact ⟨hval, hmedian, hbounds.2.1⟩

/-- The two sibling tasks have nothing in common. -/
theorem ranges_disjoint {m : ℤ × ℤ} (left right : ℤ) (h : m.1 < m.2) :
    Disjoint (Set.Ico left m.1) (Set.Ico m.2 right) := by
  rw [Set.disjoint_left]
  rintro i ⟨_, hi⟩ ⟨hi', _⟩
  omega

theorem quicksortParallelTasks_local (σ : Choices TaskChoice) {m : ℤ × ℤ}
    (hm : left ≤ m.1 ∧ m.1 < m.2 ∧ m.2 ≤ right)
    (hleft : Local (Set.Ico left m.1)
      (quicksortParallelRecursive mem threshold σ.first left m.1))
    (hright : Local (Set.Ico m.2 right)
      (quicksortParallelRecursive mem threshold σ.second m.2 right)) :
    Local (Set.Ico left right) (quicksortParallelTasks mem threshold σ left right m) := by
  refine Local.par ?_ ?_
  · exact hleft.mono (Set.Ico_subset_Ico_right (by omega))
  · exact hright.mono (Set.Ico_subset_Ico_left (by omega))

theorem quicksortParallelRecursive_local (σ : Choices TaskChoice) (left right : ℤ) :
    Local (Set.Ico left right) (quicksortParallelRecursive mem threshold σ left right) := by
  revert σ
  induction left, right using range_induction with
  | step left right ih =>
    intro σ
    rcases le_or_gt (right - left) 1 with h | h
    · rw [quicksortParallelRecursive_of_le mem threshold σ h]
      exact Local.pure _ _
    · by_cases hsmall : right - left ≤ threshold
      · rw [quicksortParallelRecursive_of_le_threshold mem threshold σ h hsmall]
        refine (int_local _ _).bind fun _ => ?_
        exact (quickSortRecursive_local mem left (right - 1)).mono
          (Set.Icc_subset_Ico_right (by omega))
      · rw [quicksortParallelRecursive_of_tasks mem threshold σ h hsmall]
        refine (parSortPartition_local mem _ left right).bind fun s => ?_
        have hm := parSortPartition_bounds mem σ.here.team h s
        refine quicksortParallelTasks_local mem threshold σ hm ?_ ?_
        · exact ih left _ (by omega) _
        · exact ih _ right (by omega) _

theorem quicksortParallelRecursive_sorts (σ : Choices TaskChoice) (left right : ℤ)
    (s : Machine Call Ptr) :
    Sorts (cstr mem) left right s.cells
      ((quicksortParallelRecursive mem threshold σ left right).exec s).cells := by
  revert σ s
  induction left, right using range_induction with
  | step left right ih =>
    intro σ s
    rcases le_or_gt (right - left) 1 with h | h
    · rw [quicksortParallelRecursive_of_le mem threshold σ h]
      exact Sorts.of_le (by omega)
    · by_cases hsmall : right - left ≤ threshold
      · rw [quicksortParallelRecursive_of_le_threshold mem threshold σ h hsmall]
        have hrun := quickSortRecursive_sorts mem left (right - 1) ((int (right - 1)).exec s)
        rwa [Int.sub_add_cancel] at hrun
      · rw [quicksortParallelRecursive_of_tasks mem threshold σ h hsmall]
        obtain ⟨hlo, hlt, hhi⟩ := parSortPartition_bounds mem σ.here.team h s
        have hpart := (parSortPartition_spec mem σ.here.team h s).1
        rw [Prog.bind_exec]
        generalize (parSortPartition mem σ.here.team left right).val s = m at *
        generalize (parSortPartition mem σ.here.team left right).exec s = s₁ at *
        -- the words equal to the pivot are the middle block
        refine Sorts.glue_par hlo hlt.le hhi hpart.rearranges ?_ ?_ ?_
          (quicksortParallelRecursive_local mem threshold σ.first left m.1)
          (quicksortParallelRecursive_local mem threshold σ.second m.2 right)
          (ranges_disjoint left right hlt) (ih left m.1 (by omega) σ.first)
          (ih m.2 right (by omega) σ.second) σ.here.firstFirst
          (k := cstr mem ((parPivotSelect mem left right).val s))
        · intro i hi him
          have hside := Partitions.side_of_slice hpart.less hi him
          exact (strcmpAt_neg_iff.mp (sideOf_less.mp hside)).le
        · intro i hi him
          have hside := Partitions.side_of_slice hpart.equal hi him
          exact strcmpAt_eq_zero_iff.mp (sideOf_equal.mp hside)
        · intro i hi him
          have hside := Partitions.side_of_slice hpart.greater hi him
          exact (strcmpAt_pos_iff.mp (sideOf_greater.mp hside)).le

/-- Teams differ in speed only. -/
theorem parSortPartition_sameCells (team team' : Team) (h : 1 < right - left) :
    SameCells (parSortPartition mem team left right) (parSortPartition mem team' left right) :=
  fun s => (parSortPartition_spec mem team h s).1.unique (parSortPartition_spec mem team' h s).1

/-- Any two schedules, with any numbers of threads, leave the same array. -/
theorem quicksortParallelRecursive_sameCells (σ σ' : Choices TaskChoice) (left right : ℤ) :
    SameCells (quicksortParallelRecursive mem threshold σ left right)
      (quicksortParallelRecursive mem threshold σ' left right) := by
  revert σ σ'
  induction left, right using range_induction with
  | step left right ih =>
    intro σ σ'
    rcases le_or_gt (right - left) 1 with h | h
    · rw [quicksortParallelRecursive_of_le mem threshold σ h,
        quicksortParallelRecursive_of_le mem threshold σ' h]
      exact SameCells.refl _
    · by_cases hsmall : right - left ≤ threshold
      · rw [quicksortParallelRecursive_of_le_threshold mem threshold σ h hsmall,
          quicksortParallelRecursive_of_le_threshold mem threshold σ' h hsmall]
        exact SameCells.refl _
      · rw [quicksortParallelRecursive_of_tasks mem threshold σ h hsmall,
          quicksortParallelRecursive_of_tasks mem threshold σ' h hsmall]
        refine SameCells.bind (R := Set.Ico left right)
          (parSortPartition_sameCells mem _ _ h) (fun s => ?_) fun s => ?_
        · obtain ⟨hlo, hlt, hhi⟩ := parSortPartition_bounds mem σ.here.team h s
          exact par_sameCells (quicksortParallelRecursive_local mem threshold _ left _)
            (quicksortParallelRecursive_local mem threshold _ _ right)
            (ranges_disjoint left right hlt) (ih left _ (by omega) _ _)
            (ih _ right (by omega) _ _) _ _
        · have hm := parSortPartition_bounds mem σ.here.team h s
          exact quicksortParallelTasks_local mem threshold σ' hm
            (quicksortParallelRecursive_local mem threshold _ _ _)
            (quicksortParallelRecursive_local mem threshold _ _ _)

theorem quicksortParallelWith_sorts (σ : Choices TaskChoice) (n : ℤ) (s : Machine Call Ptr) :
    Sorts (cstr mem) 0 n s.cells ((quicksortParallelWith threshold σ mem n).exec s).cells := by
  rw [quicksortParallelWith]
  split_ifs with hle
  · exact Sorts.of_le (by omega)
  · exact quicksortParallelRecursive_sorts mem threshold σ 0 n s

/-- **The quicksort with parallel partitions is correct**, on every half-open range and
under every threshold, schedule and numbers of threads, whichever calls are left to
`quick_sort_recursive`. -/
theorem quicksortParallel_correct (σ : Choices TaskChoice) (s : Machine Call Ptr) :
    (∀ left right : ℤ, StrcmpSorted mem left right s.cells
      ((quicksortParallelRecursive mem threshold σ left right).exec s).cells) ∧
    ∀ n : ℤ, StrcmpSorted mem 0 n s.cells
      ((quicksortParallelWith threshold σ mem n).exec s).cells :=
  ⟨fun left right => (quicksortParallelRecursive_sorts mem threshold σ left right s).strcmpSorted,
    fun n => (quicksortParallelWith_sorts mem threshold σ n s).strcmpSorted⟩

/-- **The sibling tasks of both parallel sorts are independent.** A call touches its own
range only, the ranges of the two tasks it spawns are disjoint parts of it, and so every
order of siblings at every node leaves the same pointers in the same places; for
`quicksort_parallel_recursive` so does every choice of threads. -/
theorem siblings_independent :
    (∀ (σ : Choices Bool) (left right : ℤ),
      Local (Set.Icc left right) (quickSortParallel mem threshold σ left right)) ∧
    (∀ (left right : ℤ) (s : Machine Call Ptr), left < right →
      let idx := (seqPivotSelect mem left right).val s
      Set.Icc left (idx - 1) ⊆ Set.Icc left right ∧ Set.Icc (idx + 1) right ⊆ Set.Icc left right ∧
        Disjoint (Set.Icc left (idx - 1)) (Set.Icc (idx + 1) right)) ∧
    (∀ (σ σ' : Choices Bool) (left right : ℤ) (s : Machine Call Ptr),
      ((quickSortParallel mem threshold σ left right).exec s).cells =
        ((quickSortParallel mem threshold σ' left right).exec s).cells) ∧
    (∀ (σ : Choices TaskChoice) (left right : ℤ),
      Local (Set.Ico left right) (quicksortParallelRecursive mem threshold σ left right)) ∧
    (∀ (team : Team) (left right : ℤ) (s : Machine Call Ptr), 1 < right - left →
      let m := (parSortPartition mem team left right).val s
      Set.Ico left m.1 ⊆ Set.Ico left right ∧ Set.Ico m.2 right ⊆ Set.Ico left right ∧
        Disjoint (Set.Ico left m.1) (Set.Ico m.2 right)) ∧
    ∀ (σ σ' : Choices TaskChoice) (left right : ℤ) (s : Machine Call Ptr),
      ((quicksortParallelRecursive mem threshold σ left right).exec s).cells =
        ((quicksortParallelRecursive mem threshold σ' left right).exec s).cells := by
  refine ⟨quickSortParallel_local mem threshold, fun left right s h => ?_,
    fun σ σ' left right s => ?_, quicksortParallelRecursive_local mem threshold,
    fun team left right s h => ?_, fun σ σ' left right s => ?_⟩
  · obtain ⟨hlo, hhi⟩ := seqPivotSelect_bounds mem h s
    exact ⟨Set.Icc_subset_Icc_right (by omega), Set.Icc_subset_Icc_left (by omega),
      tasks_disjoint left right _⟩
  · exact (quickSortParallel_sameCells mem threshold σ σ' left right s).2
  · obtain ⟨hlo, hlt, hhi⟩ := parSortPartition_bounds mem team h s
    exact ⟨Set.Ico_subset_Ico_right (by omega), Set.Ico_subset_Ico_left (by omega),
      ranges_disjoint left right hlt⟩
  · exact (quicksortParallelRecursive_sameCells mem threshold σ σ' left right s).2

end QuicksortParallel

end EfficientDictionary
