import EfficientDictionary.Lockstep
import EfficientDictionary.MedianPivot
import EfficientDictionary.ParallelSort

/-!
# The same words elsewhere

Nothing but `strcmp` looks at the words, so the partitions do the same to the same words, in
whatever memory they are and whatever pointers lead to them: they return the same indices and
leave the words in the same order.
-/

namespace EfficientDictionary

section SameWords

variable {mem mem' : Mem} {pivot pivot' : Ptr} {left right hi i idx : ℤ} {R : Set ℤ}

/-! ## partition_words and seq_pivot_select -/

theorem moveSmallerTurn_tracks (hpivot : cstr mem pivot = cstr mem' pivot') (hi : i ∈ R)
    (hidx : idx ∈ R) :
    Tracks (cstr mem) (cstr mem') R R (moveSmallerTurn mem pivot i idx)
      (moveSmallerTurn mem' pivot' i idx) := by
  intro s s' hkeys
  have hsame : strcmpAt mem (s.cells i) pivot < 0 ↔ strcmpAt mem' (s'.cells i) pivot' < 0 := by
    rw [strcmpAt_neg_iff, strcmpAt_neg_iff, hkeys i hi, hpivot]
  by_cases h : strcmpAt mem (s.cells i) pivot < 0
  · obtain ⟨hval, hcells⟩ := moveSmallerTurn_of_lt idx h
    obtain ⟨hval', hcells'⟩ := moveSmallerTurn_of_lt idx (hsame.mp h)
    rw [hval, hval', hcells, hcells']
    exact ⟨rfl, hkeys.swap hidx hi⟩
  · obtain ⟨hval, hcells⟩ := moveSmallerTurn_of_not_lt idx h
    obtain ⟨hval', hcells'⟩ := moveSmallerTurn_of_not_lt idx (mt hsame.mpr h)
    rw [hval, hval', hcells, hcells']
    exact ⟨rfl, hkeys⟩

theorem moveSmaller_tracks (hpivot : cstr mem pivot = cstr mem' pivot') (h : left ≤ hi)
    (hR : Set.Ico left hi ⊆ R) :
    Tracks (cstr mem) (cstr mem') R R (moveSmaller mem pivot left hi)
      (moveSmaller mem' pivot' left hi) := by
  refine Tracks.forRange (I := fun i idx => left ≤ idx ∧ idx ≤ i) h ⟨le_refl _, le_refl _⟩ ?_
  intro i idx hl hr hidx
  refine ⟨moveSmallerTurn_tracks hpivot (hR ⟨hl, hr⟩) (hR ⟨hidx.1, by omega⟩), fun s => ?_⟩
  rcases moveSmallerTurn_val mem pivot i idx s with hv | hv
  · omega
  · omega

theorem partitionWords_tracks (mem mem' : Mem) (h : left ≤ right) :
    Tracks (cstr mem) (cstr mem') (Set.Icc left right) (Set.Icc left right)
      (partitionWords mem left right) (partitionWords mem' left right) := by
  intro s s' hkeys
  have hright : right ∈ Set.Icc left right := ⟨h, le_refl right⟩
  obtain ⟨hval, hcells⟩ := moveSmaller_tracks (hkeys right hright) h Set.Ico_subset_Icc_self
    ((load right : CProg Ptr Ptr).exec s) ((load right : CProg Ptr Ptr).exec s') hkeys
  have hidx := moveSmaller_bounds mem (s.cells right) h ((load right : CProg Ptr Ptr).exec s)
  simp only [partitionWords, Prog.bind_val, Prog.bind_exec, Prog.pure_val, Prog.pure_exec,
    load_val, swapWords_cells]
  rw [← hval]
  exact ⟨rfl, hcells.swap hidx hright⟩

theorem parkPivot_tracks (mem mem' : Mem) (h : left < right) :
    Tracks (cstr mem) (cstr mem') (Set.Icc left right) (Set.Icc left right)
      (parkPivot mem left right) (parkPivot mem' left right) := by
  intro s s' hkeys
  obtain ⟨hlo, hhi⟩ := seqMid_bounds h
  -- the keys before the scan are those of one array, shifted by nothing
  have hsame : Shifted left right 0 (cstr mem ∘ s.cells) (cstr mem' ∘ s'.cells) := by
    intro i hl hr
    rw [Int.add_zero]
    exact hkeys i ⟨hl, hr⟩
  have hpark := hsame.parkMedian h ⟨hlo, by omega⟩
  simp only [Int.add_zero, ← comp_parkPivot] at hpark
  refine ⟨Subsingleton.elim _ _, fun i hi => ?_⟩
  have hkey := hpark i hi.1 hi.2
  rwa [Int.add_zero] at hkey

theorem seqPivotSelect_tracks (mem mem' : Mem) (h : left < right) :
    Tracks (cstr mem) (cstr mem') (Set.Icc left right) (Set.Icc left right)
      (seqPivotSelect mem left right) (seqPivotSelect mem' left right) := by
  intro s s' hkeys
  have hle : left ≤ right - 1 := by omega
  have hprev : right - 1 ∈ Set.Icc left right := ⟨hle, by omega⟩
  obtain ⟨-, hpark⟩ := parkPivot_tracks mem mem' h s s' hkeys
  rw [seqPivotSelect_eq, seqPivotSelect_eq]
  simp only [Prog.bind_val, Prog.bind_exec, Prog.pure_val, Prog.pure_exec, load_val,
    swapWords_cells]
  generalize (parkPivot mem left right).exec s = s₁ at *
  generalize (parkPivot mem' left right).exec s' = s₁' at *
  obtain ⟨hval, hcells⟩ := moveSmaller_tracks (R := Set.Icc left right) (hpark _ hprev) hle
    (fun i hi => ⟨hi.1, by have := hi.2; omega⟩) ((load (right - 1) : CProg Ptr Ptr).exec s₁)
    ((load (right - 1) : CProg Ptr Ptr).exec s₁') hpark
  obtain ⟨hidx, hidx'⟩ := moveSmaller_bounds mem (s₁.cells (right - 1)) hle
    ((load (right - 1) : CProg Ptr Ptr).exec s₁)
  rw [← hval]
  exact ⟨rfl, hcells.swap ⟨hidx, by omega⟩ hprev⟩

/-! ## par_sort_partition -/

theorem sideOf_congr {word word' : Ptr} (hword : cstr mem word = cstr mem' word')
    (hpivot : cstr mem pivot = cstr mem' pivot') :
    sideOf mem pivot word = sideOf mem' pivot' word' := by
  rcases lt_trichotomy (cstr mem word) (cstr mem pivot) with h | h | h
  · have h' : cstr mem' word' < cstr mem' pivot' := by rwa [← hword, ← hpivot]
    rw [sideOf_less.mpr (strcmpAt_neg_iff.mpr h), sideOf_less.mpr (strcmpAt_neg_iff.mpr h')]
  · have h' : cstr mem' word' = cstr mem' pivot' := by rw [← hword, ← hpivot, h]
    rw [sideOf_equal.mpr (strcmpAt_eq_zero_iff.mpr h),
      sideOf_equal.mpr (strcmpAt_eq_zero_iff.mpr h')]
  · have h' : cstr mem' pivot' < cstr mem' word' := by rwa [← hword, ← hpivot]
    rw [sideOf_greater.mpr (strcmpAt_pos_iff.mpr h), sideOf_greater.mpr (strcmpAt_pos_iff.mpr h')]

/-- The pivots are the same word: both are medians of the same three. -/
theorem parPivotSelect_congr (h : left < right) {s s' : Machine Call Ptr}
    (hkeys : SameKeys (cstr mem) (cstr mem') (Set.Ico left right) s.cells s'.cells) :
    cstr mem ((parPivotSelect mem left right).val s) =
      cstr mem' ((parPivotSelect mem' left right).val s') := by
  refine (parPivotSelect_isMedian mem left right s).key_eq
    (parPivotSelect_isMedian mem' left right s') (hkeys _ ⟨le_refl left, h⟩)
    (hkeys _ (parMid_bounds h)) (hkeys _ ⟨by omega, by omega⟩)

theorem Partitions.sameKeys {w w' v v' : ℤ → Ptr} {m m' : ℤ × ℤ}
    (hpivot : cstr mem pivot = cstr mem' pivot')
    (hkeys : SameKeys (cstr mem) (cstr mem') (Set.Ico left right) w v)
    (h : Partitions (sideOf mem pivot) left right w w' m)
    (h' : Partitions (sideOf mem' pivot') left right v v' m') :
    m = m' ∧ SameKeys (cstr mem) (cstr mem') (Set.Ico left right) w' v' := by
  have hside : ∀ c, ((slice w left right).filter fun a => sideOf mem pivot a = c).map (cstr mem) =
      ((slice v left right).filter fun a => sideOf mem' pivot' a = c).map (cstr mem') := fun c =>
    map_filter_congr (fun a b hab => by rw [sideOf_congr hab hpivot])
      (SameKeys.iff_map_slice.mp hkeys)
  have hbefore : before (sideOf mem pivot) w left right =
      before (sideOf mem' pivot') v left right := by
    funext c
    have hlength := congrArg List.length (hside c)
    rw [List.length_map, List.length_map] at hlength
    rw [← length_filter_slice, hlength, length_filter_slice]
  rw [h.boundaries, h'.boundaries, hbefore, SameKeys.iff_map_slice, h.slice_eq, h'.slice_eq]
  refine ⟨rfl, ?_⟩
  simp only [List.map_append, hside]

theorem parSortPartition_tracks (mem mem' : Mem) (team team' : Team) (h : 1 < right - left) :
    Tracks (cstr mem) (cstr mem') (Set.Ico left right) (Set.Ico left right)
      (parSortPartition mem team left right) (parSortPartition mem' team' left right) :=
  fun s s' hkeys => Partitions.sameKeys (parPivotSelect_congr (by omega) hkeys) hkeys
    (parSortPartition_spec mem team h s).1 (parSortPartition_spec mem' team' h s').1

end SameWords

end EfficientDictionary
