import EfficientDictionary.MedianPivot
import EfficientDictionary.QuickSort

/-!
# The quicksort with parallel tasks

`seq_pivot_select`, `quick_sort_parallel` and `quick_sort_words_parallel`: sequential
partitions around the median of three words, the two parts sorted by sibling tasks. The three
conditional swaps that find the median are `sortThree`.

A schedule `σ : Choices Bool` says at every node of the task tree which sibling runs
first. The threshold is a parameter of every definition; the source fixes it to 5000 in
`quick_sort_words_parallel`.
-/

namespace EfficientDictionary

/-! ## Definitions -/

/-- `if (strcmp(words[a], words[b]) > 0) swap_words(&words[a], &words[b])` -/
def orderWords (mem : Mem) (a b : ℤ) : CProg Ptr PUnit := do
  let word ← load a
  let other ← load b
  let ret ← strcmp mem word other
  if 0 < ret then
    swapWords a b
  else
    pure ⟨⟩

/-- The middle index of `seq_pivot_select`. -/
def seqMid (left right : ℤ) : ℤ := left + (right - left).tdiv 2

/-- `seq_pivot_select` -/
def seqPivotSelect (mem : Mem) (left right : ℤ) : CProg Ptr ℤ := do
  let mid := seqMid left right
  int mid
  orderWords mem left mid
  orderWords mem left right
  orderWords mem mid right
  swapWords mid (right - 1)
  let pivot ← load (right - 1)
  let idx ← moveSmaller mem pivot left (right - 1)
  swapWords idx (right - 1)
  pure idx

/-! ## seq_pivot_select -/

section SeqPivotSelect

variable {mem : Mem} {a b left right : ℤ}

theorem seqMid_bounds (h : left < right) :
    left ≤ seqMid left right ∧ seqMid left right ≤ right - 1 := by
  rw [seqMid, Int.tdiv_eq_ediv_of_nonneg (by omega)]
  omega

theorem orderWords_cells (mem : Mem) (a b : ℤ) (s : Machine Call Ptr) :
    ((orderWords mem a b).exec s).cells = compareExchange (cstr mem) a b s.cells := by
  by_cases h : 0 < strcmpAt mem (s.cells a) (s.cells b)
  · rw [compareExchange, if_pos (strcmpAt_pos_iff.mp h)]
    simp [orderWords, h]
  · rw [compareExchange, if_neg (mt strcmpAt_pos_iff.mpr h)]
    simp [orderWords, h]

theorem orderWords_local {R : Set ℤ} (ha : a ∈ R) (hb : b ∈ R) :
    Local R (orderWords mem a b) := by
  refine (Local.load ha).bind fun _ => (Local.load hb).bind fun _ => ?_
  refine (strcmp_local R _ _ _).bind fun _ => Local.ite (fun _ => ?_) fun _ => Local.pure R _
  exact swapWords_local ha hb

theorem orderWords_keeps {R : Set ℤ} {P : Ptr → Prop} {Q : Call → Prop} {lo up : ℤ}
    (hQ : SortNotes P Q lo up) (ha : a ∈ R) (hb : b ∈ R) : Keeps R P Q (orderWords mem a b) := by
  refine (Keeps.load a).bind fun s hs => (Keeps.load b).bind fun s' hs' => ?_
  refine (strcmp_keeps (hQ.strcmp _ _ (hs.cells a ha) (hs'.cells b hb)) mem).bind fun _ _ => ?_
  exact Keeps.ite (fun _ => swapWords_keeps ha hb) fun _ => Keeps.pure _

/-- The part of `seq_pivot_select` before the partition loop: it leaves the pivot at
`right - 1` and a word not below it at `right`. -/
def parkPivot (mem : Mem) (left right : ℤ) : CProg Ptr PUnit := do
  let mid := seqMid left right
  int mid
  orderWords mem left mid
  orderWords mem left right
  orderWords mem mid right
  swapWords mid (right - 1)

theorem seqPivotSelect_eq (mem : Mem) (left right : ℤ) :
    seqPivotSelect mem left right = (do
      parkPivot mem left right
      let pivot ← load (right - 1)
      let idx ← moveSmaller mem pivot left (right - 1)
      swapWords idx (right - 1)
      pure idx) := rfl

theorem parkPivot_cells (mem : Mem) (left right : ℤ) (s : Machine Call Ptr) :
    ((parkPivot mem left right).exec s).cells =
      sortThree (cstr mem) left (seqMid left right) right s.cells ∘
        Equiv.swap (seqMid left right) (right - 1) := by
  simp only [parkPivot, Prog.bind_exec, swapWords_cells, orderWords_cells, int_cells]
  rfl

/-- The words before the partition loop. -/
theorem comp_parkPivot (mem : Mem) (left right : ℤ) (s : Machine Call Ptr) :
    cstr mem ∘ ((parkPivot mem left right).exec s).cells =
      parkMedian left (seqMid left right) right (cstr mem ∘ s.cells) := by
  rw [parkPivot_cells, ← Function.comp_assoc, comp_sortThree]
  rfl

theorem parkPivot_spec (mem : Mem) (h : left < right) (s : Machine Call Ptr) :
    Rearranges left (right + 1) s.cells ((parkPivot mem left right).exec s).cells ∧
      cstr mem (((parkPivot mem left right).exec s).cells (right - 1)) ≤
        cstr mem (((parkPivot mem left right).exec s).cells right) := by
  obtain ⟨hlo, hhi⟩ := seqMid_bounds h
  have hmid : left ≤ seqMid left right ∧ seqMid left right < right + 1 := by omega
  have hleft : left ≤ left ∧ left < right + 1 := by omega
  have hright : left ≤ right ∧ right < right + 1 := by omega
  have hprev : left ≤ right - 1 ∧ right - 1 < right + 1 := by omega
  rw [parkPivot_cells]
  refine ⟨(sortThree_rearranges _ _ hleft hmid hright).trans (Rearranges.swap hmid hprev), ?_⟩
  -- the word at `right` is not moved again
  rw [comp_swap_right, comp_swap_of_ne (by omega) (by omega)]
  exact sortThree_le _ _ _ _ _

/-- With three words or more the word parked is a median of three different ones. -/
theorem parkPivot_isMedian (mem : Mem) (h : 2 ≤ right - left) (s : Machine Call Ptr) :
    IsMedian (cstr mem) (s.cells left) (s.cells (seqMid left right)) (s.cells right)
      (((parkPivot mem left right).exec s).cells (right - 1)) := by
  have hlo : left < seqMid left right := by
    rw [seqMid, Int.tdiv_eq_ediv_of_nonneg (by omega)]
    omega
  have hhi := (seqMid_bounds (by omega : left < right)).2
  rw [parkPivot_cells, comp_swap_right]
  exact isMedian_sortThree _ _ hlo.ne (by omega) (by omega)

theorem parkPivot_local (mem : Mem) (h : left < right) :
    Local (Set.Icc left right) (parkPivot mem left right) := by
  obtain ⟨hlo, hhi⟩ := seqMid_bounds h
  have hmid : seqMid left right ∈ Set.Icc left right := ⟨hlo, by omega⟩
  have hleft : left ∈ Set.Icc left right := ⟨le_refl left, h.le⟩
  have hright : right ∈ Set.Icc left right := ⟨h.le, le_refl right⟩
  have hprev : right - 1 ∈ Set.Icc left right := ⟨by omega, by omega⟩
  exact (int_local _ _).bind fun _ => (orderWords_local hleft hmid).bind fun _ =>
    (orderWords_local hleft hright).bind fun _ => (orderWords_local hmid hright).bind fun _ =>
      swapWords_local hmid hprev

theorem seqPivotSelect_bounds (mem : Mem) (h : left < right) (s : Machine Call Ptr) :
    left ≤ (seqPivotSelect mem left right).val s ∧
      (seqPivotSelect mem left right).val s ≤ right - 1 := by
  rw [seqPivotSelect_eq]
  simp only [Prog.bind_val, Prog.pure_val]
  exact moveSmaller_bounds _ _ (by omega) _

theorem seqPivotSelect_spec (mem : Mem) (h : left < right) (s : Machine Call Ptr) :
    Rearranges left (right + 1) s.cells ((seqPivotSelect mem left right).exec s).cells ∧
      SplitAt (cstr mem) ((seqPivotSelect mem left right).exec s).cells left
        ((seqPivotSelect mem left right).val s) (right + 1)
        (cstr mem (((seqPivotSelect mem left right).exec s).cells
          ((seqPivotSelect mem left right).val s))) := by
  obtain ⟨hpark, hlast⟩ := parkPivot_spec mem h s
  rw [seqPivotSelect_eq]
  simp only [Prog.bind_val, Prog.bind_exec, Prog.pure_val, Prog.pure_exec, load_val,
    swapWords_cells]
  generalize (parkPivot mem left right).exec s = s₁ at *
  have hle : left ≤ right - 1 := by omega
  obtain ⟨hlo, hhi⟩ := moveSmaller_bounds mem (s₁.cells (right - 1)) hle
    ((load (right - 1) : CProg Ptr Ptr).exec s₁)
  obtain ⟨hperm, hsplit⟩ := moveSmaller_spec mem (s₁.cells (right - 1)) hle
    ((load (right - 1) : CProg Ptr Ptr).exec s₁)
  -- the loop leaves the last two words where they were
  have hpivot := hperm.frame (right - 1) (Or.inr (le_refl _))
  have hright := hperm.frame right (Or.inr (by omega))
  rw [load_cells] at hpivot hright
  refine ⟨hpark.trans ((hperm.mono (le_refl left) (by omega)).trans
    (Rearranges.swap ⟨hlo, by omega⟩ ⟨hle, by omega⟩)), ?_⟩
  generalize (moveSmaller mem (s₁.cells (right - 1)) left (right - 1)).val
    ((load (right - 1) : CProg Ptr Ptr).exec s₁) = idx at *
  generalize (moveSmaller mem (s₁.cells (right - 1)) left (right - 1)).exec
    ((load (right - 1) : CProg Ptr Ptr).exec s₁) = s₂ at *
  rw [← hpivot] at hsplit
  have hplaced := hsplit.place_pivot hhi
  rw [Int.sub_add_cancel] at hplaced
  refine hplaced.push_high ?_
  rw [comp_swap_left, comp_swap_of_ne (by omega) (by omega), hpivot, hright]
  exact hlast

/-- The pivot ends up at the index returned. -/
theorem seqPivotSelect_pivot (mem : Mem) (h : left < right) (s : Machine Call Ptr) :
    ((seqPivotSelect mem left right).exec s).cells ((seqPivotSelect mem left right).val s) =
      ((parkPivot mem left right).exec s).cells (right - 1) := by
  rw [seqPivotSelect_eq]
  simp only [Prog.bind_val, Prog.bind_exec, Prog.pure_val, Prog.pure_exec, swapWords_cells]
  rw [comp_swap_left]
  -- the loop leaves the pivot where it was parked
  exact (moveSmaller_spec mem _ (by omega) _).1.frame (right - 1) (Or.inr (le_refl _))

/-- The range is permuted and split at the index returned, and what stands there is a median
of the three words looked at whenever they are three. -/
theorem seqPivotSelect_median (mem : Mem) (h : left < right) (s : Machine Call Ptr) :
    ∃ (idx : ℤ) (w' : ℤ → Ptr), (seqPivotSelect mem left right).val s = idx ∧
      ((seqPivotSelect mem left right).exec s).cells = w' ∧
      (left ≤ idx ∧ idx ≤ right - 1) ∧
      (slice w' left (right + 1)).Perm (slice s.cells left (right + 1)) ∧
      (∀ i, left ≤ i → i < idx → strcmpAt mem (w' i) (w' idx) < 0) ∧
      (∀ i, idx < i → i ≤ right → 0 ≤ strcmpAt mem (w' i) (w' idx)) ∧
      (2 ≤ right - left → IsMedian (cstr mem) (s.cells left) (s.cells (seqMid left right))
        (s.cells right) (w' idx)) ∧
      ∀ i, i < left ∨ right < i → w' i = s.cells i := by
  obtain ⟨hperm, hsplit⟩ := seqPivotSelect_spec mem h s
  refine ⟨_, _, rfl, rfl, seqPivotSelect_bounds mem h s, hperm.perm, fun i hi hidx => ?_,
    fun i hidx hi => ?_, fun hthree => ?_, fun i hi => hperm.frame i (by omega)⟩
  · exact strcmpAt_neg_iff.mpr (hsplit.low i hi hidx)
  · have hhigh := hsplit.high i hidx.le (Int.lt_add_one_iff.mpr hi)
    rw [← not_lt, strcmpAt_neg_iff]
    exact hhigh.not_gt
  · rw [seqPivotSelect_pivot mem h s]
    exact parkPivot_isMedian mem hthree s

/-- The words `c`, `b` and `a`: the pivot is `b` and stays in the middle. -/
theorem seqPivotSelect_median_three :
    (seqPivotSelect [99, 0, 98, 0, 97, 0] 0 2).val ⟨fun i => 2 * i.toNat, []⟩ = 1 ∧
      IsMedian (cstr [99, 0, 98, 0, 97, 0]) 0 2 4
        (((seqPivotSelect [99, 0, 98, 0, 97, 0] 0 2).exec ⟨fun i => 2 * i.toNat, []⟩).cells 1) := by
  obtain ⟨idx, w', hval, hcells, _, _, _, _, hmedian, _⟩ :=
    seqPivotSelect_median [99, 0, 98, 0, 97, 0] (by decide : (0 : ℤ) < 2)
      ⟨fun i => 2 * i.toNat, []⟩
  obtain rfl : (1 : ℤ) = idx := by
    rw [← hval]
    decide
  rw [hcells]
  exact ⟨hval, hmedian (by decide)⟩

theorem seqPivotSelect_local (mem : Mem) (h : left < right) :
    Local (Set.Icc left right) (seqPivotSelect mem left right) := by
  have hle : left ≤ right - 1 := by omega
  have hprev : right - 1 ∈ Set.Icc left right := ⟨hle, by omega⟩
  rw [seqPivotSelect_eq]
  refine (parkPivot_local mem h).bind fun _ => (Local.load hprev).bind fun _ => ?_
  refine (moveSmaller_local hle ?_).bind fun s => ?_
  · exact fun i hi => ⟨hi.1, by have := hi.2; omega⟩
  · obtain ⟨hlo, hhi⟩ := moveSmaller_bounds mem _ hle s
    have hidx : _ ∈ Set.Icc left right := ⟨hlo, by omega⟩
    exact (swapWords_local hidx hprev).bind fun _ => Local.pure _ _

theorem seqPivotSelect_keeps {R : Set ℤ} {P : Ptr → Prop} {Q : Call → Prop} {lo up : ℤ}
    (hQ : SortNotes P Q lo up) (h : left < right) (hR : Set.Icc left right ⊆ R) (hlo : lo ≤ left)
    (hup : right ≤ up) : Keeps R P Q (seqPivotSelect mem left right) := by
  obtain ⟨hmlo, hmhi⟩ := seqMid_bounds h
  have hle : left ≤ right - 1 := by omega
  have hmid : seqMid left right ∈ R := hR ⟨hmlo, by omega⟩
  have hleft : left ∈ R := hR ⟨le_refl left, h.le⟩
  have hright : right ∈ R := hR ⟨h.le, le_refl right⟩
  have hprev : right - 1 ∈ R := hR ⟨hle, by omega⟩
  refine (Keeps.note (hQ.int _ (by omega) (by omega))).bind fun _ _ =>
    (orderWords_keeps hQ hleft hmid).bind fun _ _ =>
    (orderWords_keeps hQ hleft hright).bind fun _ _ =>
    (orderWords_keeps hQ hmid hright).bind fun _ _ =>
    (swapWords_keeps hmid hprev).bind fun _ _ => (Keeps.load (right - 1)).bind fun s hs => ?_
  refine (moveSmaller_keeps hQ (hs.cells _ hprev) hle (fun i hi => hR ⟨hi.1, ?_⟩) hlo
    (by omega)).bind fun s' _ => ?_
  · exact hi.2.le.trans (by omega)
  · obtain ⟨hidx, hidx'⟩ := moveSmaller_bounds mem ((load (right - 1) : CProg Ptr Ptr).val s) hle s'
    exact (swapWords_keeps (hR ⟨hidx, by omega⟩) hprev).bind fun _ _ => Keeps.pure _

/-- The words behind the pivot. -/
theorem seqPivotSelect_behind (mem : Mem) (h : left < right) (s : Machine Call Ptr) :
    (slice ((seqPivotSelect mem left right).exec s).cells
      ((seqPivotSelect mem left right).val s + 1) (right + 1)).map (cstr mem) =
    behindMedian ((slice s.cells left (right + 1)).map (cstr mem)) := by
  have hle : left ≤ right - 1 := by omega
  have hmid : seqMid left right = left + (right - left) / 2 := by
    rw [seqMid, Int.tdiv_eq_ediv_of_nonneg (by omega)]
  have hkeys := comp_parkPivot mem left right s
  rw [map_slice (cstr mem) s.cells, ← keptBehind_parkMedian _ h, ← hmid, ← hkeys, keptBehind,
    ← map_slice, seqPivotSelect_eq]
  simp only [Prog.bind_val, Prog.bind_exec, Prog.pure_val, Prog.pure_exec, load_val,
    swapWords_cells]
  generalize (parkPivot mem left right).exec s = s₁ at *
  have hbounds := moveSmaller_bounds mem (s₁.cells (right - 1)) hle
    ((load (right - 1) : CProg Ptr Ptr).exec s₁)
  have hkept := moveSmaller_keepAll mem (s₁.cells (right - 1)) hle
    ((load (right - 1) : CProg Ptr Ptr).exec s₁)
  have hright := (moveSmaller_spec mem (s₁.cells (right - 1)) hle
    ((load (right - 1) : CProg Ptr Ptr).exec s₁)).1.frame right (Or.inr (by omega))
  rw [load_cells] at hkept hright
  generalize (moveSmaller mem (s₁.cells (right - 1)) left (right - 1)).val
    ((load (right - 1) : CProg Ptr Ptr).exec s₁) = idx at *
  generalize (moveSmaller mem (s₁.cells (right - 1)) left (right - 1)).exec
    ((load (right - 1) : CProg Ptr Ptr).exec s₁) = s₂ at *
  have hrotate := slice_swap_rotate s₂.cells hbounds.2
  rw [Int.sub_add_cancel] at hrotate
  -- the last word has not been moved
  rw [slice_succ_right (by omega), hrotate, comp_swap_of_ne (by omega) (by omega), hright,
    List.map_append, List.map_rotate, hkept]
  congr!

end SeqPivotSelect

/-! ## quick_sort_parallel and quick_sort_words_parallel -/

/-- `quick_sort_parallel`, the siblings run in the order `σ` says -/
def quickSortParallel (mem : Mem) (threshold : ℤ) (σ : Choices Bool) (left right : ℤ) :
    CProg Ptr PUnit :=
  if h : left < right then
    if right - left < threshold then
      quickSortRecursive mem left right
    else do
      let idx ← (seqPivotSelect mem left right).attach
      int (idx.1 - 1)
      int (idx.1 + 1)
      par σ.here (quickSortParallel mem threshold σ.first left (idx.1 - 1))
        (quickSortParallel mem threshold σ.second (idx.1 + 1) right)
  else
    pure ⟨⟩
termination_by (right + 1 - left).toNat
decreasing_by
  all_goals
    obtain ⟨s, hs⟩ := idx.2
    have hbounds := seqPivotSelect_bounds mem h s
    omega

/-- `quick_sort_words_parallel` with any threshold -/
def quickSortWordsParallelWith (threshold : ℤ) (σ : Choices Bool) (mem : Mem) (count : ℕ) :
    CProg Ptr PUnit :=
  if count ≤ 1 then pure ⟨⟩ else quickSortParallel mem threshold σ 0 (toInt (count - 1))

/-- `quick_sort_words_parallel` -/
def quickSortWordsParallel (σ : Choices Bool) (mem : Mem) (count : ℕ) : CProg Ptr PUnit :=
  quickSortWordsParallelWith 5000 σ mem count

section QuickSortParallel

variable (mem : Mem) (threshold : ℤ) {left right : ℤ}

theorem quickSortParallel_of_le (σ : Choices Bool) (h : right ≤ left) :
    quickSortParallel mem threshold σ left right = pure ⟨⟩ := by
  rw [quickSortParallel, dif_neg (not_lt.mpr h)]

theorem quickSortParallel_of_lt_threshold (σ : Choices Bool) (h : left < right)
    (hsmall : right - left < threshold) :
    quickSortParallel mem threshold σ left right = quickSortRecursive mem left right := by
  rw [quickSortParallel, dif_pos h, if_pos hsmall]

/-- The part of a call that spawns the two tasks. -/
def quickSortParallelTasks (mem : Mem) (threshold : ℤ) (σ : Choices Bool)
    (left right idx : ℤ) : CProg Ptr PUnit := do
  int (idx - 1)
  int (idx + 1)
  par σ.here (quickSortParallel mem threshold σ.first left (idx - 1))
    (quickSortParallel mem threshold σ.second (idx + 1) right)

theorem quickSortParallel_of_tasks (σ : Choices Bool) (h : left < right)
    (hbig : ¬ right - left < threshold) :
    quickSortParallel mem threshold σ left right =
      (seqPivotSelect mem left right >>= quickSortParallelTasks mem threshold σ left right) := by
  rw [quickSortParallel, dif_pos h, if_neg hbig]
  rfl

/-- The two sibling tasks have nothing in common. -/
theorem tasks_disjoint (left right idx : ℤ) :
    Disjoint (Set.Icc left (idx - 1)) (Set.Icc (idx + 1) right) := by
  rw [Set.disjoint_left]
  rintro i ⟨_, hi⟩ ⟨hi', _⟩
  omega

theorem quickSortParallelTasks_local (σ : Choices Bool) {idx : ℤ} (hlo : left ≤ idx)
    (hhi : idx ≤ right)
    (hleft : Local (Set.Icc left (idx - 1))
      (quickSortParallel mem threshold σ.first left (idx - 1)))
    (hright : Local (Set.Icc (idx + 1) right)
      (quickSortParallel mem threshold σ.second (idx + 1) right)) :
    Local (Set.Icc left right) (quickSortParallelTasks mem threshold σ left right idx) := by
  refine (int_local _ _).bind fun _ => (int_local _ _).bind fun _ => Local.par ?_ ?_
  · exact hleft.mono (Set.Icc_subset_Icc_right (by omega))
  · exact hright.mono (Set.Icc_subset_Icc_left (by omega))

theorem quickSortParallel_local (σ : Choices Bool) (left right : ℤ) :
    Local (Set.Icc left right) (quickSortParallel mem threshold σ left right) := by
  revert σ
  induction left, right using range_induction with
  | step left right ih =>
    intro σ
    rcases lt_or_ge left right with h | h
    · by_cases hsmall : right - left < threshold
      · rw [quickSortParallel_of_lt_threshold mem threshold σ h hsmall]
        exact quickSortRecursive_local mem left right
      · rw [quickSortParallel_of_tasks mem threshold σ h hsmall]
        refine (seqPivotSelect_local mem h).bind fun s => ?_
        obtain ⟨hlo, hhi⟩ := seqPivotSelect_bounds mem h s
        refine quickSortParallelTasks_local mem threshold σ hlo (by omega) ?_ ?_
        · exact ih left _ (by omega) _
        · exact ih _ right (by omega) _
    · rw [quickSortParallel_of_le mem threshold σ h]
      exact Local.pure _ _

/-- The `int`s of the tasks lie within one of the range, as those of the recursion do. -/
theorem quickSortParallel_keeps {R : Set ℤ} {P : Ptr → Prop} {Q : Call → Prop} {lo up : ℤ}
    (hQ : SortNotes P Q lo up) (σ : Choices Bool) (left right : ℤ) (hR : Set.Icc left right ⊆ R)
    (hlo : lo < left) (hup : right < up) :
    Keeps R P Q (quickSortParallel mem threshold σ left right) := by
  revert σ
  induction left, right using range_induction with
  | step left right ih =>
    intro σ
    rcases lt_or_ge left right with h | h
    · by_cases hsmall : right - left < threshold
      · rw [quickSortParallel_of_lt_threshold mem threshold σ h hsmall]
        exact quickSortRecursive_keeps hQ left right hR hlo hup
      · rw [quickSortParallel_of_tasks mem threshold σ h hsmall]
        refine (seqPivotSelect_keeps hQ h hR hlo.le hup.le).bind fun s _ => ?_
        obtain ⟨hl, hr⟩ := seqPivotSelect_bounds mem h s
        refine (Keeps.note (hQ.int _ (by omega) (by omega))).bind fun _ _ =>
          (Keeps.note (hQ.int _ (by omega) (by omega))).bind fun _ _ => Keeps.par ?_ ?_
        · exact ih left _ (by omega) ((Set.Icc_subset_Icc_right (by omega)).trans hR) hlo
            (by omega) σ.first
        · exact ih _ right (by omega) ((Set.Icc_subset_Icc_left (by omega)).trans hR) (by omega)
            hup σ.second
    · rw [quickSortParallel_of_le mem threshold σ h]
      exact Keeps.pure _

theorem quickSortWordsParallelWith_keeps {P : Ptr → Prop} {Q : Call → Prop} {count : ℕ}
    (hQ : SortNotes P Q (-1) count) (σ : Choices Bool) :
    Keeps (Set.Ico 0 (count : ℤ)) P Q (quickSortWordsParallelWith threshold σ mem count) := by
  refine Keeps.ite (fun _ => Keeps.pure _) fun hlt => ?_
  have hint := toInt_le (count - 1)
  exact quickSortParallel_keeps mem threshold hQ σ 0 _
    (Set.Icc_subset_Ico_right (by omega)) (by omega) (by omega)

theorem quickSortParallel_sorts (σ : Choices Bool) (left right : ℤ) (s : Machine Call Ptr) :
    Sorts (cstr mem) left (right + 1) s.cells
      ((quickSortParallel mem threshold σ left right).exec s).cells := by
  revert σ s
  induction left, right using range_induction with
  | step left right ih =>
    intro σ s
    rcases lt_or_ge left right with h | h
    · by_cases hsmall : right - left < threshold
      · rw [quickSortParallel_of_lt_threshold mem threshold σ h hsmall]
        exact quickSortRecursive_sorts mem left right s
      · rw [quickSortParallel_of_tasks mem threshold σ h hsmall]
        obtain ⟨hlo, hhi⟩ := seqPivotSelect_bounds mem h s
        obtain ⟨hperm, hsplit⟩ := seqPivotSelect_spec mem h s
        rw [Prog.bind_exec]
        generalize (seqPivotSelect mem left right).val s = idx at *
        generalize (seqPivotSelect mem left right).exec s = s₁ at *
        have hleft := ih left (idx - 1) (by omega) σ.first
        rw [Int.sub_add_cancel] at hleft
        -- the pivot alone is the middle block
        refine Sorts.glue_par (s := (int (idx + 1)).exec ((int (idx - 1)).exec s₁)) hlo
          (Int.le_add_one (le_refl idx)) (by omega) hperm
          (fun i hi him => (hsplit.low i hi him).le) (fun i hi him => ?_)
          (fun i hi hir => hsplit.high i (by omega) hir)
          (quickSortParallel_local mem threshold σ.first left (idx - 1))
          (quickSortParallel_local mem threshold σ.second (idx + 1) right)
          (tasks_disjoint left right idx) hleft (ih (idx + 1) right (by omega) σ.second) σ.here
        rw [le_antisymm (Int.lt_add_one_iff.mp him) hi]
        rfl
    · rw [quickSortParallel_of_le mem threshold σ h]
      exact Sorts.of_le (by omega)

/-- Any two schedules leave the same array. -/
theorem quickSortParallel_sameCells (σ σ' : Choices Bool) (left right : ℤ) :
    SameCells (quickSortParallel mem threshold σ left right)
      (quickSortParallel mem threshold σ' left right) := by
  revert σ σ'
  induction left, right using range_induction with
  | step left right ih =>
    intro σ σ'
    rcases lt_or_ge left right with h | h
    · by_cases hsmall : right - left < threshold
      · rw [quickSortParallel_of_lt_threshold mem threshold σ h hsmall,
          quickSortParallel_of_lt_threshold mem threshold σ' h hsmall]
        exact SameCells.refl _
      · rw [quickSortParallel_of_tasks mem threshold σ h hsmall,
          quickSortParallel_of_tasks mem threshold σ' h hsmall]
        have hsame : ∀ idx, left ≤ idx → idx ≤ right →
            SameCells (quickSortParallelTasks mem threshold σ left right idx)
              (quickSortParallelTasks mem threshold σ' left right idx) := by
          intro idx hlo hhi s
          exact par_sameCells (quickSortParallel_local mem threshold _ left (idx - 1))
            (quickSortParallel_local mem threshold _ (idx + 1) right)
            (tasks_disjoint left right idx) (ih left (idx - 1) (by omega) _ _)
            (ih (idx + 1) right (by omega) _ _) _ _ _
        refine SameCells.bind (R := Set.Icc left right) (SameCells.refl _)
          (fun s => ?_) fun s => ?_
        · obtain ⟨hlo, hhi⟩ := seqPivotSelect_bounds mem h s
          exact hsame _ hlo (by omega)
        · obtain ⟨hlo, hhi⟩ := seqPivotSelect_bounds mem h s
          exact quickSortParallelTasks_local mem threshold σ' hlo (by omega)
            (quickSortParallel_local mem threshold _ _ _)
            (quickSortParallel_local mem threshold _ _ _)
    · rw [quickSortParallel_of_le mem threshold σ h, quickSortParallel_of_le mem threshold σ' h]
      exact SameCells.refl _

theorem quickSortWordsParallelWith_sorts (σ : Choices Bool) {count : ℕ} (h : count ≤ 2 ^ 31)
    (s : Machine Call Ptr) :
    Sorts (cstr mem) 0 count s.cells
      ((quickSortWordsParallelWith threshold σ mem count).exec s).cells := by
  rw [quickSortWordsParallelWith]
  split_ifs with hle
  · exact Sorts.of_le (by omega)
  · have hrun := quickSortParallel_sorts mem threshold σ 0 (toInt (count - 1)) s
    rw [toInt_of_lt (by omega)] at hrun
    rw [toInt_of_lt (by omega)]
    have hcount : ((count - 1 : ℕ) : ℤ) + 1 = count := by omega
    rwa [hcount] at hrun

end QuickSortParallel

end EfficientDictionary
