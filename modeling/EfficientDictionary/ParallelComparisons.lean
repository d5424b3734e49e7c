import EfficientDictionary.Comparisons
import EfficientDictionary.SameWords

/-!
# Comparisons of the parallel sorts

Threads change when words are compared, not how often: the number of calls of `strcmp` is the
same for every schedule, and for every number of threads of every partition; the words and the
order they come in settle it. On words that are
in order already the median of three pays: the pivots of `quick_sort_parallel` halve the range,
where those of `quick_sort_recursive` split off one word at a time. On few words many times the
three-way partition of `quicksort_parallel` pays: no word equal to a pivot is looked at again.
-/

namespace EfficientDictionary

/-! ## The cost of a median -/

section Median

variable {κ : Type} [LinearOrder κ]

/-- A second comparison is made when the first succeeds. -/
def ascendingCost (x y : κ) : ℕ := if x ≤ y then 2 else 1

/-- The other direction is tested when the first fails. -/
def betweenCost (x y z : κ) : ℕ :=
  ascendingCost x y + if x ≤ y ∧ y ≤ z then 0 else ascendingCost z y

/-- And a second entry is tested when the one in the middle fails. -/
def medianCost (x y z : κ) : ℕ :=
  betweenCost x y z + if (x ≤ y ∧ y ≤ z) ∨ (z ≤ y ∧ y ≤ x) then 0 else betweenCost y z x

/-- The median of three takes between two comparisons and seven. -/
theorem medianCost_bounds (x y z : κ) : 2 ≤ medianCost x y z ∧ medianCost x y z ≤ 7 := by
  simp only [medianCost, betweenCost, ascendingCost]
  grind

end Median

section Tasks

variable {mem : Mem} {threshold left right : ℤ} {s : Machine Call Ptr}

/-! ## quick_sort_recursive and quick_sort_parallel -/

theorem quickSortRecursive_sameCost (mem mem' : Mem) (left right : ℤ) :
    SameCost Call.isStrcmp (cstr mem) (cstr mem') (Set.Icc left right)
      (quickSortRecursive mem left right) (quickSortRecursive mem' left right) := by
  induction left, right using range_induction with
  | step left right ih =>
    rcases lt_or_ge left right with h | h
    · rw [quickSortRecursive_of_lt mem h, quickSortRecursive_of_lt mem' h]
      refine SameCost.bind_takes (partitionWords_takes mem left right)
        (partitionWords_takes mem' left right) (partitionWords_tracks mem mem' h.le) fun s => ?_
      obtain ⟨hlo, hhi⟩ := partitionWords_bounds mem h.le s
      generalize (partitionWords mem left right).val s = idx at *
      have hsub : Set.Icc left (idx - 1) ⊆ Set.Icc left right :=
        Set.Icc_subset_Icc_right (by omega)
      have hsub' : Set.Icc (idx + 1) right ⊆ Set.Icc left right :=
        Set.Icc_subset_Icc_left (by omega)
      refine SameCost.bind_takes (int_takes _) (int_takes _) (Tracks.note _) fun _ => ?_
      -- the first call leaves the words of the second alone
      have hframe : Tracks (cstr mem) (cstr mem') (Set.Icc left right) (Set.Icc (idx + 1) right)
          (quickSortRecursive mem left (idx - 1)) (quickSortRecursive mem' left (idx - 1)) :=
        (Tracks.of_local (quickSortRecursive_local mem left (idx - 1))
          (quickSortRecursive_local mem' left (idx - 1))
          (tasks_disjoint left right idx)).weaken hsub'
      refine SameCost.bind ((ih left (idx - 1) (by omega)).mono hsub) hframe fun _ => ?_
      exact SameCost.bind_takes (int_takes _) (int_takes _) (Tracks.note _) fun _ =>
        ih (idx + 1) right (by omega)
    · rw [quickSortRecursive_of_le mem h, quickSortRecursive_of_le mem' h]
      exact SameCost.of_takes (Takes.pure _) (Takes.pure _)

theorem orderWords_takes (mem : Mem) (a b : ℤ) (s : Machine Call Ptr) :
    Takes Call.isStrcmp 1 (orderWords mem a b) s := by
  refine (Takes.load a s).bind_free <| (Takes.load b _).bind_free ?_
  refine (strcmp_takes mem _ _ _).then_free ?_
  exact Takes.ite (fun _ => swapWords_takes a b _) fun _ => Takes.pure _ _

/-- Three comparisons find the median, which is compared with the words between. -/
theorem seqPivotSelect_takes (mem : Mem) (left right : ℤ) (s : Machine Call Ptr) :
    Takes Call.isStrcmp (3 + (right - 1 - left).toNat) (seqPivotSelect mem left right) s := by
  have hpark : ∀ s, Takes Call.isStrcmp (1 + (1 + 1)) (parkPivot mem left right) s := by
    intro s
    refine (int_takes _ s).bind_free <| (orderWords_takes mem _ _ _).bind ?_
    refine (orderWords_takes mem _ _ _).bind ?_
    exact (orderWords_takes mem _ _ _).then_free (swapWords_takes _ _ _)
  rw [seqPivotSelect_eq]
  refine (hpark s).bind <| (Takes.load _ _).bind_free ?_
  refine (moveSmaller_takes mem _ left (right - 1) _).then_free ?_
  exact (swapWords_takes _ _ _).bind_free (Takes.pure _ _)

/-- Any two schedules of the tasks of `quick_sort_parallel` take the same. -/
theorem quickSortParallel_sameCost (mem mem' : Mem) (threshold : ℤ) (σ σ' : Choices Bool)
    (left right : ℤ) :
    SameCost Call.isStrcmp (cstr mem) (cstr mem') (Set.Icc left right)
      (quickSortParallel mem threshold σ left right)
      (quickSortParallel mem' threshold σ' left right) := by
  revert σ σ'
  induction left, right using range_induction with
  | step left right ih =>
    intro σ σ'
    rcases lt_or_ge left right with h | h
    · by_cases hsmall : right - left < threshold
      · rw [quickSortParallel_of_lt_threshold mem threshold σ h hsmall,
          quickSortParallel_of_lt_threshold mem' threshold σ' h hsmall]
        exact quickSortRecursive_sameCost mem mem' left right
      · rw [quickSortParallel_of_tasks mem threshold σ h hsmall,
          quickSortParallel_of_tasks mem' threshold σ' h hsmall]
        refine SameCost.bind_takes (seqPivotSelect_takes mem left right)
          (seqPivotSelect_takes mem' left right) (seqPivotSelect_tracks mem mem' h) fun s => ?_
        obtain ⟨hlo, hhi⟩ := seqPivotSelect_bounds mem h s
        generalize (seqPivotSelect mem left right).val s = idx at *
        refine SameCost.bind_takes (int_takes _) (int_takes _) (Tracks.note _) fun _ =>
          SameCost.bind_takes (int_takes _) (int_takes _) (Tracks.note _) fun _ => ?_
        exact SameCost.par (ih left (idx - 1) (by omega) _ _) (ih (idx + 1) right (by omega) _ _)
          (quickSortParallel_local mem threshold _ _ _)
          (quickSortParallel_local mem threshold _ _ _)
          (quickSortParallel_local mem' threshold _ _ _)
          (quickSortParallel_local mem' threshold _ _ _) (tasks_disjoint left right idx)
          (Set.Icc_subset_Icc_right (by omega)) (Set.Icc_subset_Icc_left (by omega)) _ _
    · rw [quickSortParallel_of_le mem threshold σ h, quickSortParallel_of_le mem' threshold σ' h]
      exact SameCost.of_takes (Takes.pure _) (Takes.pure _)

/-! ## par_sort_partition -/

theorem ascending_takes (mem : Mem) (a b c : Ptr) (s : Machine Call Ptr) :
    Takes Call.isStrcmp (ascendingCost (cstr mem a) (cstr mem b)) (ascending mem a b c) s := by
  rw [ascendingCost]
  split_ifs with h
  · show Takes Call.isStrcmp (1 + 1) _ _
    refine (strcmp_takes mem a b s).bind ?_
    rw [strcmp_val, if_pos (strcmpAt_nonpos_iff.mpr h)]
    exact (strcmp_takes mem b c _).then_free (Takes.pure _ _)
  · refine (strcmp_takes mem a b s).then_free ?_
    rw [strcmp_val, if_neg (mt strcmpAt_nonpos_iff.mp h)]
    exact Takes.pure _ _

theorem between_takes (mem : Mem) (a b c : Ptr) (s : Machine Call Ptr) :
    Takes Call.isStrcmp (betweenCost (cstr mem a) (cstr mem b) (cstr mem c)) (between mem a b c)
      s := by
  refine (ascending_takes mem a b c s).bind ?_
  by_cases h : cstr mem a ≤ cstr mem b ∧ cstr mem b ≤ cstr mem c
  · rw [if_pos h, if_pos ((ascending_val mem).mpr h)]
    exact Takes.pure _ _
  · rw [if_neg h, if_neg (mt (ascending_val mem).mp h)]
    exact ascending_takes mem c b a _

theorem parPivotSelect_takes (mem : Mem) (left right : ℤ) (s : Machine Call Ptr) :
    Takes Call.isStrcmp
      (medianCost (cstr mem (s.cells left)) (cstr mem (s.cells (parMid left right)))
        (cstr mem (s.cells (right - 1))))
      (parPivotSelect mem left right) s := by
  refine (int_takes _ s).bind_free <| (Takes.load _ _).bind_free <|
    (Takes.load _ _).bind_free <| (Takes.load _ _).bind_free ?_
  refine (between_takes mem _ _ _ _).bind ?_
  split_ifs with h hrun hrun
  · exact Takes.pure _ _
  · exact absurd ((between_val mem).mpr h) hrun
  · exact absurd ((between_val mem).mp hrun) h
  · refine (between_takes mem _ _ _ _).then_free ?_
    exact Takes.ite (fun _ => Takes.pure _ _) fun _ => Takes.pure _ _

theorem compareWord_takes (mem : Mem) (pivot : Ptr) (i : ℤ) (s : Machine Call Ptr) :
    Takes Call.isStrcmp 1 (compareWord mem pivot i) s :=
  (int_takes i s).bind_free <| (Takes.load i _).bind_free <|
    (strcmp_takes mem _ pivot _).then_free (Takes.pure _ _)

theorem noteChunk_takes (left ws : ℤ) (id : ℕ) (s : Machine Call Ptr) :
    Takes Call.isStrcmp 0 (noteChunk left ws id) s :=
  (int_takes _ _).bind_free <| (int_takes _ _).bind_free <| (int_takes _ _).bind_free <|
    int_takes _ _

/-- How many words there are in chunk `id`. -/
def chunkCost (left right ws : ℤ) (id : ℕ) : ℕ :=
  (cut left right ws (id + 1) - cut left right ws id).toNat

/-- An inner loop compares the words of its chunk. -/
theorem chunkLoop_takes {β : Type} {ws : ℤ} (hws : 0 ≤ ws) (id : ℕ) (b : β)
    {body : ℤ → β → CProg Ptr β} (hbody : ∀ i b s, Takes Call.isStrcmp 1 (body i b) s)
    (s : Machine Call Ptr) :
    Takes Call.isStrcmp (chunkCost left right ws id)
      (forRange (chunkStart left ws id) (chunkEnd left right ws id) b body) s := by
  have hrun := Takes.forRange hbody (cut left right ws id) (cut left right ws (id + 1)) b s
  rwa [forRange_chunk hws, chunkCost, ← Nat.mul_one (Int.toNat _)]

theorem countChunk_takes (mem : Mem) (pivot : Ptr) {ws : ℤ} (hws : 0 ≤ ws) (id : ℕ)
    (n : Side → ℤ → ℤ) (s : Machine Call Ptr) :
    Takes Call.isStrcmp (chunkCost left right ws id) (countChunk mem pivot left right ws id n)
      s := by
  refine (noteChunk_takes left ws id s).bind_free ?_
  split_ifs with h
  · obtain ⟨hstart, hend⟩ := cut_of_chunkStart hws h
    rw [chunkCost, hstart, hend, Int.sub_self]
    exact Takes.pure _ _
  · refine (chunkLoop_takes hws id _ (fun i count s => ?_) _).then_free (Takes.pure _ _)
    exact (compareWord_takes mem pivot i s).then_free (Takes.pure _ _)

theorem scatterChunk_takes (mem : Mem) (pivot : Ptr) {ws : ℤ} (hws : 0 ≤ ws) (base : Side → ℤ)
    (sums : Side → ℤ → ℤ) (id : ℕ) (temp : ℤ → Ptr) (s : Machine Call Ptr) :
    Takes Call.isStrcmp (chunkCost left right ws id)
      (scatterChunk mem pivot left right ws base sums id temp) s := by
  refine (noteChunk_takes left ws id s).bind_free ?_
  refine (chunkLoop_takes hws id _ (fun i st s => ?_) _).then_free (Takes.pure _ _)
  refine (compareWord_takes mem pivot i s).then_free <| (Takes.load i _).bind_free ?_
  have htemp : ∀ k s, Takes Call.isStrcmp 0 (note (.temp k) : CProg Ptr PUnit) s :=
    fun k s => Takes.note (.temp k) s
  exact (htemp _ _).bind_free (Takes.pure _ _)

/-- Chunk by chunk, in any order of service, all words of the range are compared. -/
theorem sum_chunkCost {ws : ℤ} (hle : left ≤ right) (hws : 0 ≤ ws) {p : ℕ}
    (hcover : right ≤ left + p * ws) (served : ChunkOrder) :
    ((served.order p).map (chunkCost left right ws)).sum = (right - left).toNat := by
  have hupto : ∀ q, ((List.range q).map (chunkCost left right ws)).sum =
      (cut left right ws q - left).toNat := by
    intro q
    induction q with
    | zero => rw [cut_zero hle, Int.sub_self]; rfl
    | succ q ih =>
      have hlo := left_le_cut hle hws q
      have hmono := cut_mono left right hws (Nat.le_add_right q 1)
      rw [List.range_succ, List.map_append, List.sum_append, ih, List.map_singleton,
        List.sum_singleton, chunkCost]
      omega
  rw [((served.perm p).map _).sum_eq, hupto, cut_of_le hcover]

theorem copyBack_takes (left n : ℤ) (temp : ℤ → Ptr) (s : Machine Call Ptr) :
    Takes Call.isStrcmp 0 (copyBack left n temp) s := by
  have hturn : ∀ (k : ℤ) (_ : PUnit) s,
      Takes Call.isStrcmp 0 (store (left + k) (temp k) : CProg Ptr PUnit) s :=
    fun k _ s => Takes.store (left + k) (temp k) s
  have hrun := Takes.forRange hturn 0 n ⟨⟩ s
  rwa [Nat.mul_zero] at hrun

/-- Once the pivot is chosen every team compares each word twice with it. -/
theorem distribute_takes (mem : Mem) (team : Team) (h : 1 < right - left) (pivot : Ptr)
    (s : Machine Call Ptr) :
    Takes Call.isStrcmp ((right - left).toNat + (right - left).toNat)
      (distribute mem team left right (chunkSize team (right - left)) pivot) s := by
  have hle : left ≤ right := by omega
  have hws := chunkSize_nonneg team h
  have hcover : right ≤ left + ((chunks team (right - left)).toNat : ℤ) *
      chunkSize team (right - left) :=
    Int.le_add_of_sub_left_le (le_chunks_mul_chunkSize team h)
  rw [distribute]
  generalize chunkSize team (right - left) = ws at *
  generalize (chunks team (right - left)).toNat = p at *
  have hcount : ∀ n s, Takes Call.isStrcmp (right - left).toNat
      (forEach (team.countOrder.order p) n (countChunk mem pivot left right ws)) s := by
    intro n s
    rw [← sum_chunkCost hle hws hcover team.countOrder]
    exact Takes.forEach_sum (fun id _ n s => countChunk_takes mem pivot hws id n s) n s
  have hscatter : ∀ base sums temp s, Takes Call.isStrcmp (right - left).toNat
      (forEach (team.scatterOrder.order p) temp
        (scatterChunk mem pivot left right ws base sums)) s := by
    intro base sums temp s
    rw [← sum_chunkCost hle hws hcover team.scatterOrder]
    exact Takes.forEach_sum
      (fun id _ temp s => scatterChunk_takes mem pivot hws base sums id temp s) temp s
  refine (hcount _ s).bind <| (hscatter _ _ _ _).then_free ?_
  exact (copyBack_takes _ _ _ _).bind_free (Takes.pure _ _)

theorem parSortPartition_takes (mem : Mem) (team : Team) (h : 1 < right - left)
    (s : Machine Call Ptr) :
    Takes Call.isStrcmp
      (medianCost (cstr mem (s.cells left)) (cstr mem (s.cells (parMid left right)))
        (cstr mem (s.cells (right - 1))) + ((right - left).toNat + (right - left).toNat))
      (parSortPartition mem team left right) s := by
  rw [parSortPartition_of_lt mem team h]
  exact (parPivotSelect_takes mem left right s).bind <| (int_takes _ _).bind_free <|
    (int_takes _ _).bind_free <| distribute_takes mem team h _ _

/-- Any two teams take the same. -/
theorem parSortPartition_sameCost (mem mem' : Mem) (team team' : Team) (h : 1 < right - left) :
    SameCost Call.isStrcmp (cstr mem) (cstr mem') (Set.Ico left right)
      (parSortPartition mem team left right) (parSortPartition mem' team' left right) := by
  intro s s' hkeys
  have hmid := parMid_bounds (by omega : left < right)
  refine ⟨_, parSortPartition_takes mem team h s, ?_⟩
  rw [hkeys left ⟨le_refl left, by omega⟩, hkeys _ hmid, hkeys (right - 1) ⟨by omega, by omega⟩]
  exact parSortPartition_takes mem' team' h s'

/-! ## quicksort_parallel -/

/-- Any two schedules of the tasks of `quicksort_parallel` take the same, with any teams for
their partitions. -/
theorem quicksortParallelRecursive_sameCost (mem mem' : Mem) (threshold : ℤ)
    (σ σ' : Choices TaskChoice) (left right : ℤ) :
    SameCost Call.isStrcmp (cstr mem) (cstr mem') (Set.Ico left right)
      (quicksortParallelRecursive mem threshold σ left right)
      (quicksortParallelRecursive mem' threshold σ' left right) := by
  revert σ σ'
  induction left, right using range_induction with
  | step left right ih =>
    intro σ σ'
    rcases le_or_gt (right - left) 1 with h | h
    · rw [quicksortParallelRecursive_of_le mem threshold σ h,
        quicksortParallelRecursive_of_le mem' threshold σ' h]
      exact SameCost.of_takes (Takes.pure _) (Takes.pure _)
    · by_cases hsmall : right - left ≤ threshold
      · rw [quicksortParallelRecursive_of_le_threshold mem threshold σ h hsmall,
          quicksortParallelRecursive_of_le_threshold mem' threshold σ' h hsmall]
        refine SameCost.bind_takes (int_takes _) (int_takes _) (Tracks.note _) fun _ => ?_
        exact (quickSortRecursive_sameCost mem mem' left (right - 1)).mono
          (Set.Icc_subset_Ico_right (by omega))
      · rw [quicksortParallelRecursive_of_tasks mem threshold σ h hsmall,
          quicksortParallelRecursive_of_tasks mem' threshold σ' h hsmall]
        refine SameCost.bind (parSortPartition_sameCost mem mem' _ _ h)
          (parSortPartition_tracks mem mem' _ _ h) fun s => ?_
        obtain ⟨hlo, hlt, hhi⟩ := parSortPartition_bounds mem σ.here.team h s
        exact SameCost.par (ih left _ (by omega) _ _) (ih _ right (by omega) _ _)
          (quicksortParallelRecursive_local mem threshold _ _ _)
          (quicksortParallelRecursive_local mem threshold _ _ _)
          (quicksortParallelRecursive_local mem' threshold _ _ _)
          (quicksortParallelRecursive_local mem' threshold _ _ _)
          (ranges_disjoint left right hlt) (Set.Ico_subset_Ico_right (by omega))
          (Set.Ico_subset_Ico_left (by omega)) _ _

/-! ## Words of few kinds -/

/-- How many different strings the words of `[l, r)` are. -/
def kindsIn (mem : Mem) (w : ℤ → Ptr) (l r : ℤ) : ℕ :=
  ((slice w l r).map (cstr mem)).toFinset.card

theorem mem_kinds {w : ℤ → Ptr} {l r : ℤ} {t : List UInt8} :
    t ∈ ((slice w l r).map (cstr mem)).toFinset ↔ ∃ i, l ≤ i ∧ i < r ∧ cstr mem (w i) = t := by
  simp only [List.mem_toFinset, List.mem_map, mem_slice]
  constructor
  · rintro ⟨-, ⟨i, hi, hir, rfl⟩, rfl⟩
    exact ⟨i, hi, hir, rfl⟩
  · rintro ⟨i, hi, hir, rfl⟩
    exact ⟨_, ⟨i, hi, hir, rfl⟩, rfl⟩

/-- A stretch of the partition holds words of the range, on their side of the pivot. -/
theorem Partitions.exists_of_stretch {f : Ptr → Side} {w w' : ℤ → Ptr} {a b i : ℤ} {c : Side}
    (h : slice w' a b = (slice w left right).filter fun p => f p = c) (ha : a ≤ i) (hb : i < b) :
    f (w' i) = c ∧ ∃ j, left ≤ j ∧ j < right ∧ w j = w' i := by
  have hmem : w' i ∈ slice w' a b := mem_slice.mpr ⟨i, ha, hb, rfl⟩
  rw [h, List.mem_filter] at hmem
  exact ⟨of_decide_eq_true hmem.2, mem_slice.mp hmem.1⟩

/-- The words on the two sides of the pivot are of different kinds, and of other kinds than the
pivot. -/
theorem kindsIn_partition {w w' : ℤ → Ptr} {pivot : Ptr} {m : ℤ × ℤ}
    (h : Partitions (sideOf mem pivot) left right w w' m)
    (hpivot : ∃ i, left ≤ i ∧ i < right ∧ w i = pivot) :
    kindsIn mem w' left m.1 + kindsIn mem w' m.2 right + 1 ≤ kindsIn mem w left right := by
  obtain ⟨i, hi, hir, rfl⟩ := hpivot
  refine card_split_le ?_ ?_ (mem_kinds.mpr ⟨i, hi, hir, rfl⟩)
  · intro t ht
    obtain ⟨j, hj, hjm, rfl⟩ := mem_kinds.mp ht
    obtain ⟨hside, k, hk, hkr, heq⟩ := Partitions.exists_of_stretch h.less hj hjm
    exact ⟨mem_kinds.mpr ⟨k, hk, hkr, by rw [heq]⟩, strcmpAt_neg_iff.mp (sideOf_less.mp hside)⟩
  · intro t ht
    obtain ⟨j, hj, hjm, rfl⟩ := mem_kinds.mp ht
    obtain ⟨hside, k, hk, hkr, heq⟩ := Partitions.exists_of_stretch h.greater hj hjm
    exact ⟨mem_kinds.mpr ⟨k, hk, hkr, by rw [heq]⟩,
      strcmpAt_pos_iff.mp (sideOf_greater.mp hside)⟩

/-- `n` words are `n (n - 1) / 2` pairs. -/
theorem two_mul_pairs_le {n t : ℕ} (h : n - 1 ≤ t) : 2 * n.choose 2 ≤ n * t := by
  rw [Nat.choose_two_right]
  exact (Nat.mul_div_le _ _).trans (Nat.mul_le_mul_left n h)

/-- **The three-way partition drops a kind of words at a time**, so above the threshold the cost
of each kind is at most that of one partition. -/
theorem quicksortParallelRecursive_takes (mem : Mem) (threshold left right : ℤ)
    (σ : Choices TaskChoice) (s : Machine Call Ptr) :
    ∃ k, Takes Call.isStrcmp k (quicksortParallelRecursive mem threshold σ left right) s ∧
      2 * k ≤ kindsIn mem s.cells left right * (2 * (7 + 2 * (right - left).toNat)) +
        (right - left).toNat * threshold.toNat := by
  revert σ s
  induction left, right using range_induction with
  | step left right ih =>
    intro σ s
    rcases le_or_gt (right - left) 1 with h | h
    · rw [quicksortParallelRecursive_of_le mem threshold σ h]
      exact ⟨0, Takes.pure _ _, Nat.zero_le _⟩
    · by_cases hsmall : right - left ≤ threshold
      · rw [quicksortParallelRecursive_of_le_threshold mem threshold σ h hsmall]
        obtain ⟨k, hk, hle, -⟩ :=
          quickSortRecursive_takes mem left (right - 1) ((int (right - 1)).exec s)
        rw [Int.sub_add_cancel] at hle
        have hpairs := two_mul_pairs_le (by omega : (right - left).toNat - 1 ≤ threshold.toNat)
        exact ⟨k, (int_takes _ _).bind_free hk, by omega⟩
      · rw [quicksortParallelRecursive_of_tasks mem threshold σ h hsmall]
        obtain ⟨hlo, hlt, hhi⟩ := parSortPartition_bounds mem σ.here.team h s
        have hcost := parSortPartition_takes mem σ.here.team h s
        have hmedian := (medianCost_bounds (cstr mem (s.cells left))
          (cstr mem (s.cells (parMid left right))) (cstr mem (s.cells (right - 1)))).2
        have hpart := (parSortPartition_spec mem σ.here.team h s).1
        obtain ⟨i, hi, hir, hpivot⟩ := parPivotSelect_mem mem (by omega : left < right) s
        have hkinds := kindsIn_partition hpart ⟨i, hi, hir, hpivot.symm⟩
        generalize hm : (parSortPartition mem σ.here.team left right).val s = m at *
        generalize hs₁ : (parSortPartition mem σ.here.team left right).exec s = s₁ at *
        obtain ⟨k, hk, hbound⟩ := ih left m.1 (by omega) σ.first s₁
        obtain ⟨k', hk', hbound'⟩ := ih m.2 right (by omega) σ.second s₁
        have htasks := Takes.par (quicksortParallelRecursive_local mem threshold σ.first left m.1)
          (quicksortParallelRecursive_local mem threshold σ.second m.2 right)
          (ranges_disjoint left right hlt)
          (fun _ hs => (quicksortParallelRecursive_sameCost mem mem threshold _ _ _ _).takes
            (.of_cells hs) hk)
          (fun _ hs => (quicksortParallelRecursive_sameCost mem mem threshold _ _ _ _).takes
            (.of_cells hs) hk')
          σ.here.firstFirst
        refine ⟨_ + (k + k'), hcost.bind ?_, ?_⟩
        · rw [hm, hs₁]
          exact htasks
        · have hsplit := split_le_kinds (by omega : (m.1 - left).toNat + (right - m.2).toNat ≤
            (right - left).toNat) hkinds hbound hbound'
          refine le_trans ?_ hsplit
          omega

/-! ## Words in order -/

theorem partitionWords_of_increasing (h : left ≤ right)
    (hinc : IncreasingOn mem s.cells left (right + 1)) :
    (partitionWords mem left right).val s = right ∧
      ((partitionWords mem left right).exec s).cells = s.cells := by
  have hlt : ∀ i, left ≤ i → i < right → cstr mem (s.cells i) < cstr mem (s.cells right) :=
    fun i hi hr => hinc i right hi hr (Int.lt_succ right)
  refine ⟨?_, partitionWords_of_forall_lt h hlt⟩
  rw [← partitionWords_eq_right_iff mem h s, keepAll_eq_nil_iff]
  exact forall_keys_iff.mpr hlt

/-- Words in order stay where they are. -/
theorem quickSortRecursive_of_increasing (mem : Mem) (left right : ℤ) (s : Machine Call Ptr)
    (hinc : IncreasingOn mem s.cells left (right + 1)) :
    ((quickSortRecursive mem left right).exec s).cells = s.cells := by
  revert s
  induction left, right using range_induction with
  | step left right ih =>
    intro s hinc
    rcases lt_or_ge left right with h | h
    · obtain ⟨hval, hcells⟩ := partitionWords_of_increasing h.le hinc
      rw [quickSortRecursive_of_lt mem h]
      simp only [Prog.bind_exec, hval]
      rw [quickSortRecursive_of_le mem (by omega : right ≤ right + 1), Prog.pure_exec, int_cells,
        ih left (right - 1) (by omega), int_cells, hcells]
      rw [Int.sub_add_cancel, int_cells, hcells]
      exact hinc.mono (le_refl left) (by omega)
    · rw [quickSortRecursive_of_le mem h]
      rfl

/-- The pivot of words in order is the one in the middle, and they stay where they are. -/
theorem seqPivotSelect_of_increasing (h : left < right)
    (hinc : IncreasingOn mem s.cells left (right + 1)) :
    (seqPivotSelect mem left right).val s = seqMid left right ∧
      ((seqPivotSelect mem left right).exec s).cells = s.cells := by
  obtain ⟨hlo, hhi⟩ := seqMid_bounds h
  have hsorted := hinc.sortedOn
  -- the three words looked at are in order, so all that happens is that the pivot is parked
  have hthree : sortThree (cstr mem) left (seqMid left right) right s.cells = s.cells := by
    have hexchange : ∀ i j, left ≤ i → i ≤ j → j ≤ right →
        compareExchange (cstr mem) i j s.cells = s.cells := fun i j hi hij hj =>
      if_neg (not_lt.mpr (hsorted i j hi hij (Int.lt_add_one_iff.mpr hj)))
    rw [sortThree, hexchange left _ (le_refl left) hlo (by omega),
      hexchange left right (le_refl left) h.le (le_refl right),
      hexchange _ right hlo (by omega) (le_refl right)]
  have hpark := parkPivot_cells mem left right s
  rw [hthree] at hpark
  rw [seqPivotSelect_eq]
  simp only [Prog.bind_val, Prog.bind_exec, Prog.pure_val, Prog.pure_exec, load_val,
    swapWords_cells]
  generalize (parkPivot mem left right).exec s = s₁ at *
  have hpivot : s₁.cells (right - 1) = s.cells (seqMid left right) := by
    rw [hpark, comp_swap_right]
  generalize seqMid left right = mid at *
  have hlow : ∀ i, left ≤ i → i < mid →
      cstr mem (s₁.cells i) < cstr mem (s₁.cells (right - 1)) := by
    intro i hi him
    rw [hpivot, hpark, comp_swap_of_ne him.ne (by omega)]
    exact hinc i mid hi him (by omega)
  have hhigh : ∀ i, mid ≤ i → i < right - 1 →
      ¬ cstr mem (s₁.cells i) < cstr mem (s₁.cells (right - 1)) := by
    intro i him hi
    rw [hpivot, hpark]
    rcases eq_or_lt_of_le him with rfl | hlt
    · rw [comp_swap_left]
      exact (hinc mid (right - 1) hlo (by omega) (by omega)).not_gt
    · rw [comp_swap_of_ne hlt.ne' (by omega)]
      exact (hinc mid i hlo hlt (by omega)).not_gt
  obtain ⟨hval, hcells⟩ := moveSmaller_of_split (s := (load (right - 1) : CProg Ptr Ptr).exec s₁)
    hlo hhi hlow hhigh
  rw [hval, hcells, load_cells, hpark]
  refine ⟨rfl, funext fun i => ?_⟩
  simp

/-- Two tasks take what each of them takes on the words as they are. -/
theorem quickSortParallelTasks_takes {idx : ℤ} {k k' : ℕ} (σ : Choices Bool)
    (hfirst : ∀ s', s'.cells = s.cells →
      Takes Call.isStrcmp k (quickSortParallel mem threshold σ.first left (idx - 1)) s')
    (hsecond : ∀ s', s'.cells = s.cells →
      Takes Call.isStrcmp k' (quickSortParallel mem threshold σ.second (idx + 1) right) s') :
    Takes Call.isStrcmp (k + k') (quickSortParallelTasks mem threshold σ left right idx) s := by
  have hcells : ((int (idx + 1)).exec ((int (idx - 1)).exec s)).cells = s.cells := by
    rw [int_cells, int_cells]
  refine (int_takes _ _).bind_free <| (int_takes _ _).bind_free ?_
  exact Takes.par (quickSortParallel_local mem threshold σ.first left (idx - 1))
    (quickSortParallel_local mem threshold σ.second (idx + 1) right)
    (tasks_disjoint left right idx)
    (fun _ hs => (quickSortParallel_sameCost mem mem threshold _ _ _ _).takes (.of_cells hs)
      (hfirst _ hcells))
    (fun _ hs => (quickSortParallel_sameCost mem mem threshold _ _ _ _).takes (.of_cells hs)
      (hsecond _ hcells)) _

/-- Two tasks that leave the words where they are. -/
theorem quickSortParallelTasks_of_same {idx : ℤ} (σ : Choices Bool)
    (hfirst : ∀ s', s'.cells = s.cells →
      ((quickSortParallel mem threshold σ.first left (idx - 1)).exec s').cells = s'.cells)
    (hsecond : ∀ s', s'.cells = s.cells →
      ((quickSortParallel mem threshold σ.second (idx + 1) right).exec s').cells = s'.cells) :
    ((quickSortParallelTasks mem threshold σ left right idx).exec s).cells = s.cells := by
  have hcells : ((int (idx + 1)).exec ((int (idx - 1)).exec s)).cells = s.cells := by
    rw [int_cells, int_cells]
  rw [quickSortParallelTasks, Prog.bind_exec, Prog.bind_exec,
    par_cells_eq (quickSortParallel_local mem threshold σ.first left (idx - 1))
      (quickSortParallel_local mem threshold σ.second (idx + 1) right)
      (tasks_disjoint left right idx) (hfirst _ hcells) (hsecond _ hcells), hcells]

/-- The middle leaves two halves. -/
theorem seqMid_halves (h : left < right) :
    (seqMid left right - 1 + 1 - left).toNat ≤ (right + 1 - (seqMid left right + 1)).toNat ∧
      (right + 1 - (seqMid left right + 1)).toNat ≤ (seqMid left right - 1 + 1 - left).toNat + 1 ∧
      (seqMid left right - 1 + 1 - left).toNat + (right + 1 - (seqMid left right + 1)).toNat + 1 =
        (right + 1 - left).toNat := by
  have hmid : seqMid left right = left + (right - left) / 2 := by
    rw [seqMid, Int.tdiv_eq_ediv_of_nonneg (by omega)]
  rw [hmid]
  omega

/-- What a range of `n` words in order takes at most, twice. -/
def halvingBound (threshold : ℤ) (n : ℕ) : ℕ :=
  2 * ((n + 1) * Nat.clog 2 (n + 1)) + n * threshold.toNat

/-- **The median of three halves words in order**: `n + 1` comparisons for each round of halving,
and all pairs only in the ranges below the threshold. -/
theorem quickSortParallel_of_increasing (mem : Mem) (threshold : ℤ) (left right : ℤ)
    (w : ℤ → Ptr) (hinc : IncreasingOn mem w left (right + 1)) :
    ∃ k, 2 * k ≤ halvingBound threshold (right + 1 - left).toNat ∧
      ∀ (σ : Choices Bool) (s : Machine Call Ptr), s.cells = w →
        ((quickSortParallel mem threshold σ left right).exec s).cells = w ∧
          Takes Call.isStrcmp k (quickSortParallel mem threshold σ left right) s := by
  induction left, right using range_induction with
  | step left right ih =>
    rcases lt_or_ge left right with h | h
    · by_cases hsmall : right - left < threshold
      · refine ⟨(right + 1 - left).toNat.choose 2, ?_, fun σ s hs => ?_⟩
        · have hpairs := Nat.mul_div_le
            ((right + 1 - left).toNat * ((right + 1 - left).toNat - 1)) 2
          have hthreshold := Nat.mul_le_mul_left (right + 1 - left).toNat
            (by omega : (right + 1 - left).toNat - 1 ≤ threshold.toNat)
          rw [← Nat.choose_two_right] at hpairs
          rw [halvingBound]
          omega
        · subst hs
          obtain ⟨k, hk, -, heq⟩ := quickSortRecursive_takes mem left right s
          rw [quickSortParallel_of_lt_threshold mem threshold σ h hsmall,
            ← heq.mpr (Lopsided.of_increasing (increasingOn_iff.mp hinc))]
          exact ⟨quickSortRecursive_of_increasing mem left right s hinc, hk⟩
      · obtain ⟨hlo, hhi⟩ := seqMid_bounds h
        obtain ⟨hab, hba, hsize⟩ := seqMid_halves h
        obtain ⟨k, hbound, hfirst⟩ := ih left (seqMid left right - 1) (by omega)
          (hinc.mono (le_refl left) (by omega))
        obtain ⟨k', hbound', hsecond⟩ := ih (seqMid left right + 1) right (by omega)
          (hinc.mono (by omega) (le_refl _))
        refine ⟨3 + (right - 1 - left).toNat + (k + k'), ?_, fun σ s hs => ?_⟩
        · have hsplit := split_le_clog hab hba hbound hbound'
          have hcost : 3 + (right - 1 - left).toNat = (right + 1 - left).toNat + 1 := by omega
          rw [hcost, ← hsize]
          exact hsplit
        · subst hs
          obtain ⟨hval, hcells⟩ := seqPivotSelect_of_increasing h hinc
          rw [quickSortParallel_of_tasks mem threshold σ h hsmall, Prog.bind_exec, hval]
          have hfirst' := fun s' hs' => hfirst σ.first s' (Eq.trans hs' hcells)
          have hsecond' := fun s' hs' => hsecond σ.second s' (Eq.trans hs' hcells)
          have hsame := quickSortParallelTasks_of_same σ
            (fun s' hs' => (hfirst' s' hs').1.trans (hs'.trans hcells).symm)
            fun s' hs' => (hsecond' s' hs').1.trans (hs'.trans hcells).symm
          refine ⟨hsame.trans hcells, (seqPivotSelect_takes mem left right s).bind ?_⟩
          rw [hval]
          exact quickSortParallelTasks_takes σ (fun s' hs' => (hfirst' s' hs').2)
            fun s' hs' => (hsecond' s' hs').2
    · refine ⟨0, Nat.zero_le _, fun σ s hs => ?_⟩
      rw [quickSortParallel_of_le mem threshold σ h]
      exact ⟨hs, Takes.pure _ _⟩

end Tasks

/-! ## The sorts on an array of words -/

section WordList

variable {doc beyond : Mem}

theorem quickSortWordsParallelWith_sameCost (mem mem' : Mem) (threshold : ℤ)
    (σ σ' : Choices Bool) (count : ℕ) :
    SameCost Call.isStrcmp (cstr mem) (cstr mem') (Set.Ico 0 (count : ℤ))
      (quickSortWordsParallelWith threshold σ mem count)
      (quickSortWordsParallelWith threshold σ' mem' count) := by
  have hint := toInt_le (count - 1)
  rw [quickSortWordsParallelWith, quickSortWordsParallelWith]
  split_ifs with hle
  · exact SameCost.of_takes (Takes.pure _) (Takes.pure _)
  · exact (quickSortParallel_sameCost mem mem' threshold σ σ' 0 _).mono
      (Set.Icc_subset_Ico_right (by omega))

theorem quicksortParallelCount_sameCost (mem mem' : Mem) (threshold : ℤ)
    (σ σ' : Choices TaskChoice) (count : ℕ) :
    SameCost Call.isStrcmp (cstr mem) (cstr mem') (Set.Ico 0 (count : ℤ))
      (quicksortParallelCount threshold σ mem count)
      (quicksortParallelCount threshold σ' mem' count) := by
  rw [quicksortParallelCount, quicksortParallelCount, quicksortParallelWith, quicksortParallelWith]
  split_ifs with hle
  · exact SameCost.of_takes (Takes.pure _) (Takes.pure _)
  · exact (quicksortParallelRecursive_sameCost mem mem' threshold σ σ' 0 _).mono
      (Set.Ico_subset_Ico_right (toInt_le count))

/-- Documents with the same words give the sort the same words. -/
theorem collectWords_sameKeys {doc' beyond' : Mem} (array array' : ℤ → Ptr)
    (hlast : alnumAt doc (doc.length - 1) = true → byteAt beyond 0 = 0)
    (hlast' : alnumAt doc' (doc'.length - 1) = true → byteAt beyond' 0 = 0)
    (hwords : wordsOf doc = wordsOf doc') :
    SameKeys (cstr (terminated doc ++ beyond)) (cstr (terminated doc' ++ beyond'))
      (Set.Ico 0 ((runStarts doc).length : ℤ))
      ((collectWords (terminated doc ++ beyond) doc.length).exec ⟨array, []⟩).cells
      ((collectWords (terminated doc' ++ beyond') doc'.length).exec ⟨array', []⟩).cells := by
  have hlength : (runStarts doc).length = (runStarts doc').length := by
    rw [← length_wordsOf, hwords, length_wordsOf]
  rw [SameKeys.iff_map_slice, slice_collectWords array hlast, hlength,
    slice_collectWords array' hlast', hwords]

/-- Sorts that take the same on the same words make `WordList` take the same on documents with
the same words. -/
theorem wordListWith_countP_eq {doc' beyond' : Mem} {sort sort' : Mem → ℕ → CProg Ptr PUnit}
    (hsame : ∀ mem mem' (count : ℕ), SameCost Call.isStrcmp (cstr mem) (cstr mem')
      (Set.Ico 0 (count : ℤ)) (sort mem count) (sort' mem' count)) (array array' : ℤ → Ptr)
    (hlast : alnumAt doc (doc.length - 1) = true → byteAt beyond 0 = 0)
    (hlast' : alnumAt doc' (doc'.length - 1) = true → byteAt beyond' 0 = 0)
    (hwords : wordsOf doc = wordsOf doc') :
    ∃ o o', wordListWith sort ⟨some array, true⟩ (some (doc ++ beyond)) doc.length = .ok o ∧
      wordListWith sort' ⟨some array', true⟩ (some (doc' ++ beyond')) doc'.length = .ok o' ∧
      o.calls.countP Call.isStrcmp = o'.calls.countP Call.isStrcmp := by
  have hlength : (runStarts doc).length = (runStarts doc').length := by
    rw [← length_wordsOf, hwords, length_wordsOf]
  by_cases hne : runStarts doc = []
  · rw [hne] at hlength
    have hne' := List.length_eq_zero_iff.mp hlength.symm
    exact ⟨_, _, wordListWith_of_nil _ hne, wordListWith_of_nil _ hne', rfl⟩
  · have hne' : runStarts doc' ≠ [] := by
      rwa [ne_eq, ← List.length_eq_zero_iff, ← hlength, List.length_eq_zero_iff]
    obtain ⟨k, hk, hk'⟩ := hsame _ _ _ _ _ (collectWords_sameKeys array array' hlast hlast' hwords)
    refine ⟨_, _, wordListWith_packs sort beyond array hne,
      wordListWith_packs sort' beyond' array' hne', ?_⟩
    rw [hlength] at hk'
    rw [wordListCalls_countP beyond array hk, wordListCalls_countP beyond' array' hk', hlength]

/-- So the words settle what `WordList` takes with any of a family of such sorts. -/
theorem wordListWith_steady {ι : Type} (i₀ : ι) {sort : ι → Mem → ℕ → CProg Ptr PUnit}
    (hsame : ∀ i i' mem mem' (count : ℕ), SameCost Call.isStrcmp (cstr mem) (cstr mem')
      (Set.Ico 0 (count : ℤ)) (sort i mem count) (sort i' mem' count)) :
    ∃ k : List (List UInt8) → ℕ, ∀ doc beyond : Mem,
      (alnumAt doc (doc.length - 1) = true → byteAt beyond 0 = 0) →
      ∀ (i : ι) (array : ℤ → Ptr), ∃ o,
        wordListWith (sort i) ⟨some array, true⟩ (some (doc ++ beyond)) doc.length = .ok o ∧
          o.calls.countP Call.isStrcmp = k (wordsOf doc) := by
  have hsettled : ∀ words : List (List UInt8), ∃ k, ∀ doc beyond : Mem, wordsOf doc = words →
      (alnumAt doc (doc.length - 1) = true → byteAt beyond 0 = 0) →
      ∀ (i : ι) (array : ℤ → Ptr), ∃ o,
        wordListWith (sort i) ⟨some array, true⟩ (some (doc ++ beyond)) doc.length = .ok o ∧
          o.calls.countP Call.isStrcmp = k := by
    intro words
    by_cases hsome : ∃ doc, wordsOf doc = words
    · -- one run on a document with these words says what the others take
      obtain ⟨doc', rfl⟩ := hsome
      have hnil : alnumAt doc' (doc'.length - 1) = true → byteAt [] 0 = 0 := fun _ => rfl
      obtain ⟨_, o', -, hrun', -⟩ := wordListWith_countP_eq (hsame i₀ i₀) (fun _ => 0)
        (fun _ => 0) hnil hnil rfl
      refine ⟨o'.calls.countP Call.isStrcmp, fun doc beyond hwords hlast i array => ?_⟩
      obtain ⟨o, o'', hrun, hrun'', heq⟩ :=
        wordListWith_countP_eq (hsame i i₀) array (fun _ => 0) hlast hnil hwords
      obtain rfl := Except.ok.inj (hrun'.symm.trans hrun'')
      exact ⟨o, hrun, heq⟩
    · exact ⟨0, fun doc _ hwords => absurd ⟨doc, hwords⟩ hsome⟩
  choose k hk using hsettled
  exact ⟨k, fun doc beyond => hk (wordsOf doc) doc beyond rfl⟩

theorem quicksortParallelCount_takes (mem : Mem) (threshold : ℤ) (σ : Choices TaskChoice)
    {count : ℕ} (h : count ≤ 2 ^ 31) (s : Machine Call Ptr) :
    ∃ k, Takes Call.isStrcmp k (quicksortParallelCount threshold σ mem count) s ∧
      2 * k ≤ kindsIn mem s.cells 0 count * (2 * (7 + 2 * count)) + count * threshold.toNat := by
  rw [quicksortParallelCount, quicksortParallelWith]
  split_ifs with hle
  · exact ⟨0, Takes.pure _ _, Nat.zero_le _⟩
  · have hint : toInt count = count := by
      rcases h.lt_or_eq with hlt | rfl
      · exact toInt_of_lt hlt
      · exact absurd (by decide) hle
    have hrun := quicksortParallelRecursive_takes mem threshold 0 count σ s
    rw [Int.sub_zero, Int.toNat_natCast] at hrun
    rwa [hint]

theorem quickSortWordsParallelWith_takes (mem : Mem) (threshold : ℤ) (σ : Choices Bool)
    {count : ℕ} (h : count ≤ 2 ^ 31) (s : Machine Call Ptr)
    (hinc : IncreasingOn mem s.cells 0 count) :
    ∃ k, Takes Call.isStrcmp k (quickSortWordsParallelWith threshold σ mem count) s ∧
      2 * k ≤ halvingBound threshold count := by
  rw [quickSortWordsParallelWith]
  split_ifs with hle
  · exact ⟨0, Takes.pure _ _, Nat.zero_le _⟩
  · have hint := toInt_pred_add_one h hle
    obtain ⟨k, hbound, hrun⟩ := quickSortParallel_of_increasing mem threshold 0
      (toInt (count - 1)) s.cells (by rwa [hint])
    rw [hint, Int.sub_zero, Int.toNat_natCast] at hbound
    exact ⟨k, (hrun σ s rfl).2, hbound⟩

/-- The kinds among the words of a document are its distinct words. -/
theorem kindsIn_collectWords (array : ℤ → Ptr) (hzero : byteAt beyond 0 = 0) :
    kindsIn (terminated doc ++ beyond)
      ((collectWords (terminated doc ++ beyond) doc.length).exec ⟨array, []⟩).cells 0
        (runStarts doc).length = (distinctWords doc).length := by
  rw [kindsIn, slice_collectWords array fun _ => hzero, distinctWords_eq_wordsOf, sortedDistinct,
    Finset.length_sort]

end WordList

/-! ## Results -/

section Results

variable {doc : Mem}

/-- **Every team compares alike**: for any number of threads, chunks served in any order, and any
contents of the fresh arrays, a partition compares each word twice with the pivot, after finding
it with two to seven comparisons. -/
theorem parSortPartition_comparisons (mem : Mem) (words : ℤ → Ptr) {left right : ℤ}
    (h : 1 < right - left) :
    ∃ c, 2 ≤ c ∧ c ≤ 7 ∧ ∀ team,
      comparisons ((parSortPartition mem team left right).exec ⟨words, []⟩).trace =
        c + 2 * (right - left).toNat := by
  obtain ⟨hlo, hhi⟩ := medianCost_bounds (cstr mem (words left))
    (cstr mem (words (parMid left right))) (cstr mem (words (right - 1)))
  refine ⟨_, hlo, hhi, fun team => ?_⟩
  rw [comparisons, (parSortPartition_takes mem team h ⟨words, []⟩).tally_eq, Nat.two_mul]

/-- The words `b` and `a`. -/
theorem parSortPartition_comparisons_two :
    4 < comparisons ((parSortPartition [98, 0, 97, 0] Team.solo 0 2).exec
      ⟨fun i => 2 * i.toNat, []⟩).trace := by
  obtain ⟨c, hlo, -, hteam⟩ :=
    parSortPartition_comparisons [98, 0, 97, 0] (fun i => 2 * i.toNat)
      (by decide : (1 : ℤ) < 2 - 0)
  rw [hteam Team.solo]
  exact Nat.lt_add_of_pos_left (Nat.lt_of_lt_of_le Nat.two_pos hlo)

/-- **Threads compare as often as one of them would**: for each of the parallel sorts the number
of comparisons of `WordList` is settled by the words and the order they come in, whatever is
between them, whatever the run-time system decides and whatever `malloc` has left in the
array. -/
theorem wordList_comparisons_steady (threshold : ℤ) :
    (∃ k : List (List UInt8) → ℕ, ∀ doc beyond : Mem,
      (alnumAt doc (doc.length - 1) = true → byteAt beyond 0 = 0) →
      ∀ (σ : Choices Bool) (array : ℤ → Ptr), ∃ o,
        wordListWith (quickSortWordsParallelWith threshold σ) ⟨some array, true⟩
            (some (doc ++ beyond)) doc.length = .ok o ∧
          o.calls.countP Call.isStrcmp = k (wordsOf doc)) ∧
      ∃ k : List (List UInt8) → ℕ, ∀ doc beyond : Mem,
        (alnumAt doc (doc.length - 1) = true → byteAt beyond 0 = 0) →
        ∀ (σ : Choices TaskChoice) (array : ℤ → Ptr), ∃ o,
          wordListWith (quicksortParallelCount threshold σ) ⟨some array, true⟩
              (some (doc ++ beyond)) doc.length = .ok o ∧
            o.calls.countP Call.isStrcmp = k (wordsOf doc) := by
  constructor
  · exact wordListWith_steady (fun _ => true) fun σ σ' mem mem' =>
      quickSortWordsParallelWith_sameCost mem mem' threshold σ σ'
  · exact wordListWith_steady (fun _ => ⟨true, Team.solo⟩) fun σ σ' mem mem' =>
      quicksortParallelCount_sameCost mem mem' threshold σ σ'

/-- The documents `b a` and `b,,a`, with the tasks in either order. -/
theorem wordList_comparisons_steady_two :
    ∃ o o', wordListWith (quicksortParallelCount 0 fun _ => ⟨true, Team.solo⟩)
        ⟨some fun _ => 0, true⟩ (some [98, 32, 97]) 3 = .ok o ∧
      wordListWith (quicksortParallelCount 0 fun _ => ⟨false, Team.solo⟩)
        ⟨some fun _ => 1, true⟩ (some [98, 44, 44, 97]) 4 = .ok o' ∧
      o.calls.countP Call.isStrcmp = o'.calls.countP Call.isStrcmp := by
  have hwords : wordsOf [98, 32, 97] = wordsOf [98, 44, 44, 97] := by decide
  obtain ⟨-, k, hk⟩ := wordList_comparisons_steady 0
  obtain ⟨o, hrun, hcount⟩ :=
    hk [98, 32, 97] [] (fun _ => rfl) (fun _ => ⟨true, Team.solo⟩) fun _ => 0
  obtain ⟨o', hrun', hcount'⟩ :=
    hk [98, 44, 44, 97] [] (fun _ => rfl) (fun _ => ⟨false, Team.solo⟩) fun _ => 1
  rw [← hwords] at hcount'
  exact ⟨o, o', hrun, hrun', hcount.trans hcount'.symm⟩

/-- **Repeated words are cheap for `quicksort_parallel`**: each of the distinct words costs no
more than one partition, and only ranges below the threshold are compared pair by pair. -/
theorem wordList_repeated_words_comparisons (threshold : ℤ) (σ : Choices TaskChoice)
    (doc beyond : Mem) (array : ℤ → Ptr) (hzero : byteAt beyond 0 = 0)
    (hsize : (wordsOf doc).length < 2 ^ 31) :
    let n := (wordsOf doc).length
    ∃ o, wordListWith (quicksortParallelCount threshold σ) ⟨some array, true⟩
        (some (doc ++ beyond)) doc.length = .ok o ∧
      2 * o.calls.countP Call.isStrcmp ≤
        (distinctWords doc).length * (2 * (7 + 2 * n)) + n * threshold.toNat + 2 * (n - 1) := by
  by_cases hne : runStarts doc = []
  · exact ⟨_, wordListWith_of_nil _ hne, Nat.zero_le _⟩
  · obtain ⟨k, hk, hle⟩ := quicksortParallelCount_takes (terminated doc ++ beyond) threshold σ
      (length_runStarts_le hsize)
      ((collectWords (terminated doc ++ beyond) doc.length).exec ⟨array, []⟩)
    rw [kindsIn_collectWords array hzero] at hle
    refine ⟨_, wordListWith_packs _ beyond array hne, ?_⟩
    rw [wordListCalls_countP beyond array hk, length_wordsOf]
    omega

/-- The document `a a a`, without a threshold. -/
theorem wordList_repeated_words_comparisons_three :
    ∃ o, wordListWith (quicksortParallelCount 0 fun _ => ⟨true, Team.solo⟩)
        ⟨some fun _ => 0, true⟩ (some [97, 32, 97, 32, 97]) 5 = .ok o ∧
      2 * o.calls.countP Call.isStrcmp ≤ 30 := by
  have hwords : wordsOf [97, 32, 97, 32, 97] = List.replicate 3 [97] := by decide
  have hdistinct : distinctWords [97, 32, 97, 32, 97] = [[97]] := by
    rw [distinctWords_eq_wordsOf, hwords]
    exact (eq_sortedDistinct (List.pairwise_singleton _ _) fun t => by simp).symm
  obtain ⟨o, hrun, hle⟩ := wordList_repeated_words_comparisons 0 (fun _ => ⟨true, Team.solo⟩)
    [97, 32, 97, 32, 97] [] (fun _ => 0) rfl (by decide)
  rw [hdistinct, hwords] at hle
  exact ⟨o, hrun, hle⟩

/-- **Words in order are cheap for `quick_sort_parallel`**: the pivots of `quick_sort_words` take
all pairs, those of the parallel sort halve every range down to the threshold. -/
theorem wordList_increasing_comparisons (threshold : ℤ) (σ : Choices Bool) (beyond : Mem)
    (array array' : ℤ → Ptr) (hincreasing : (wordsOf doc).Pairwise (· < ·))
    (hsize : (wordsOf doc).length < 2 ^ 31) :
    let n := (wordsOf doc).length
    ∃ o o', wordList ⟨some array, true⟩ (some (doc ++ beyond)) doc.length = .ok o ∧
      wordListWith (quickSortWordsParallelWith threshold σ) ⟨some array', true⟩
        (some (doc ++ beyond)) doc.length = .ok o' ∧
      2 * o.calls.countP Call.isStrcmp = n * (n - 1) + 2 * (n - 1) ∧
      2 * o'.calls.countP Call.isStrcmp ≤
        2 * ((n + 1) * Nat.clog 2 (n + 1)) + n * threshold.toNat + 2 * (n - 1) := by
  have hseen := map_cstr_increasing beyond hincreasing
  obtain ⟨o, hrun, k, hcount, -, heq⟩ := wordList_countP doc beyond array hsize
  have hpairs : 2 * (wordsOf doc).length.choose 2 =
      (wordsOf doc).length * ((wordsOf doc).length - 1) := by
    rw [Nat.choose_two_right, Nat.mul_div_cancel' (Nat.even_mul_pred_self _).two_dvd]
  rw [heq.mpr (Lopsided.of_increasing hseen)] at hcount
  by_cases hne : runStarts doc = []
  · exact ⟨o, _, hrun, wordListWith_of_nil _ hne, by omega, Nat.zero_le _⟩
  · rw [← collectWords_doc doc beyond ⟨array', []⟩] at hseen
    obtain ⟨k', hk', hle⟩ := quickSortWordsParallelWith_takes (terminated doc ++ beyond) threshold σ
      (length_runStarts_le hsize)
      ((collectWords (terminated doc ++ beyond) doc.length).exec ⟨array', []⟩)
      (increasingOn_iff.mpr hseen)
    refine ⟨o, _, hrun, wordListWith_packs _ beyond array' hne, by omega, ?_⟩
    rw [wordListCalls_countP beyond array' hk', length_wordsOf]
    rw [halvingBound] at hle
    omega

/-- The document `a b`, with the threshold of the source. -/
theorem wordList_increasing_comparisons_two :
    ∃ o, wordList ⟨some fun _ => 0, true⟩ (some [97, 32, 98]) 3 = .ok o ∧
      2 * o.calls.countP Call.isStrcmp = 4 := by
  have hwords : wordsOf [97, 32, 98] = [[97], [98]] := by decide
  obtain ⟨o, -, hrun, -, hcount, -⟩ := wordList_increasing_comparisons 5000 (fun _ => true) []
    (fun _ => 0) (fun _ => 0) (by rw [hwords]; decide)
    (by decide : (wordsOf [97, 32, 98]).length < 2 ^ 31)
  rw [List.append_nil] at hrun
  rw [hwords] at hcount
  exact ⟨o, hrun, hcount⟩

end Results

end EfficientDictionary
