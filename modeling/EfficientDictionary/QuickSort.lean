import EfficientDictionary.CString
import EfficientDictionary.LastPivot
import EfficientDictionary.Segment

/-!
# The sequential quicksort

`swap_words`, `partition_words`, `quick_sort_recursive` and `quick_sort_words`, over the
array of word pointers. `int` is unbounded here; the values the code computes are
reported to the trace.

The loop that moves the smaller words to the front stands twice in the source, once in
`partition_words` and once in `seq_pivot_select`, with different ends. It is one
definition here, `moveSmaller`, with the end as a parameter.

Each function has its lemmas: the bounds of the index it returns, its footprint, what it
does to the array, and what it reports: comparisons of words it has read, and `int`s near
its range (`SortNotes`).
-/

namespace EfficientDictionary

variable {α : Type}

/-! ## Definitions -/

/-- `swap_words(&words[a], &words[b])` -/
def swapWords (a b : ℤ) : CProg α PUnit := do
  let temp ← load a
  let other ← load b
  store a other
  store b temp

/-- One turn of the partition loop: a word smaller than the pivot is exchanged with the
word at `idx`. -/
def moveSmallerTurn (mem : Mem) (pivot : Ptr) (i idx : ℤ) : CProg Ptr ℤ := do
  int i
  let word ← load i
  let ret ← strcmp mem word pivot
  if ret < 0 then do
    swapWords idx i
    int (idx + 1)
    pure (idx + 1)
  else
    pure idx

/-- The loop `for (int i = left; i < hi; i++)` that moves every word smaller than the
pivot to the front; it returns the final `idx`. -/
def moveSmaller (mem : Mem) (pivot : Ptr) (left hi : ℤ) : CProg Ptr ℤ :=
  forRange left hi left (moveSmallerTurn mem pivot)

/-- `partition_words` -/
def partitionWords (mem : Mem) (left right : ℤ) : CProg Ptr ℤ := do
  let pivot ← load right
  let idx ← moveSmaller mem pivot left right
  swapWords idx right
  pure idx

/-- `Q` holds of the notes of a sort: of the comparisons of words with `P`, and of the `int`s
between `lo` and `hi`. -/
structure SortNotes (P : Ptr → Prop) (Q : Call → Prop) (lo hi : ℤ) : Prop where
  /-- the comparisons -/
  strcmp : ∀ a b, P a → P b → Q (.strcmp a b)
  /-- the results of `int` computations -/
  int : ∀ v, lo ≤ v → v ≤ hi → Q (.int v)

theorem SortNotes.narrow {P : Ptr → Prop} {Q : Call → Prop} {lo hi lo' hi' : ℤ}
    (h : SortNotes P Q lo hi) (hlo : lo ≤ lo') (hhi : hi' ≤ hi) : SortNotes P Q lo' hi' :=
  ⟨h.strcmp, fun v hv hv' => h.int v (hlo.trans hv) (hv'.trans hhi)⟩

@[simp] theorem swapWords_cells (a b : ℤ) (s : Machine Call α) :
    ((swapWords a b).exec s).cells = s.cells ∘ Equiv.swap a b := by
  funext i
  simp only [swapWords, Prog.bind_exec, load_exec, load_val, store_exec, Function.update_apply,
    Function.comp_apply, Equiv.swap_apply_def]
  split_ifs with hb ha <;> simp_all

theorem swapWords_local {R : Set ℤ} {a b : ℤ} (ha : a ∈ R) (hb : b ∈ R) :
    Local R (swapWords a b : CProg α PUnit) :=
  (Local.load ha).bind fun _ => (Local.load hb).bind fun _ =>
    (Local.store ha _).bind fun _ => Local.store hb _

theorem swapWords_keeps {R : Set ℤ} {P : α → Prop} {Q : Call → Prop} {a b : ℤ} (ha : a ∈ R)
    (hb : b ∈ R) : Keeps R P Q (swapWords a b) := by
  refine (Keeps.load a).bind fun s hs => ?_
  refine (Keeps.load b).bind fun s' hs' => ?_
  exact (Keeps.store fun _ => hs'.cells b hb).bind fun _ _ => Keeps.store fun _ => hs.cells a ha

/-! ## The partition loop -/

section MoveSmaller

variable {mem : Mem} {pivot : Ptr} {left hi i idx : ℤ} {s : Machine Call Ptr}

theorem moveSmallerTurn_of_lt (idx : ℤ) (h : strcmpAt mem (s.cells i) pivot < 0) :
    (moveSmallerTurn mem pivot i idx).val s = idx + 1 ∧
      ((moveSmallerTurn mem pivot i idx).exec s).cells = s.cells ∘ Equiv.swap idx i := by
  simp [moveSmallerTurn, h]

theorem moveSmallerTurn_of_not_lt (idx : ℤ) (h : ¬ strcmpAt mem (s.cells i) pivot < 0) :
    (moveSmallerTurn mem pivot i idx).val s = idx ∧
      ((moveSmallerTurn mem pivot i idx).exec s).cells = s.cells := by
  simp [moveSmallerTurn, h]

/-- A turn keeps `idx` or moves it up by one. -/
theorem moveSmallerTurn_val (mem : Mem) (pivot : Ptr) (i idx : ℤ) (s : Machine Call Ptr) :
    (moveSmallerTurn mem pivot i idx).val s = idx ∨
      (moveSmallerTurn mem pivot i idx).val s = idx + 1 := by
  by_cases h : strcmpAt mem (s.cells i) pivot < 0
  · exact Or.inr (moveSmallerTurn_of_lt idx h).1
  · exact Or.inl (moveSmallerTurn_of_not_lt idx h).1

theorem moveSmallerTurn_local {R : Set ℤ} (hi : i ∈ R) (hidx : idx ∈ R) :
    Local R (moveSmallerTurn mem pivot i idx) := by
  refine (int_local R _).bind fun _ => (Local.load hi).bind fun _ => ?_
  refine (strcmp_local R _ _ _).bind fun _ => Local.ite ?_ ?_
  · intro _
    exact (swapWords_local hidx hi).bind fun _ => (int_local R _).bind fun _ => Local.pure R _
  · intro _
    exact Local.pure R _

theorem moveSmallerTurn_keeps {R : Set ℤ} {P : Ptr → Prop} {Q : Call → Prop} {lo up : ℤ}
    (hQ : SortNotes P Q lo up) (hpivot : P pivot) (hi : i ∈ R) (hidx : idx ∈ R)
    (hlo : lo ≤ idx) (hle : idx ≤ i) (hup : i < up) :
    Keeps R P Q (moveSmallerTurn mem pivot i idx) := by
  refine (Keeps.note (hQ.int i (by omega) hup.le)).bind fun _ _ => ?_
  refine (Keeps.load i).bind fun s hs => ?_
  refine (strcmp_keeps (hQ.strcmp _ _ (hs.cells i hi) hpivot) mem).bind fun _ _ => ?_
  refine Keeps.ite (fun _ => ?_) fun _ => Keeps.pure _
  refine (swapWords_keeps hidx hi).bind fun _ _ => ?_
  exact (Keeps.note (hQ.int _ (by omega) (by omega))).bind fun _ _ => Keeps.pure _

theorem moveSmaller_bounds (mem : Mem) (pivot : Ptr) (h : left ≤ hi) (s : Machine Call Ptr) :
    left ≤ (moveSmaller mem pivot left hi).val s ∧
      (moveSmaller mem pivot left hi).val s ≤ hi := by
  refine forRange_inv (I := fun i idx _ => left ≤ idx ∧ idx ≤ i) h ⟨le_refl _, le_refl _⟩ ?_
  intro i idx s _ _ hidx
  rcases moveSmallerTurn_val mem pivot i idx s with hv | hv
  · omega
  · omega

/-- What the loop does: it permutes the range it scans and splits it at the index it
returns. -/
theorem moveSmaller_spec (mem : Mem) (pivot : Ptr) (h : left ≤ hi) (s : Machine Call Ptr) :
    Rearranges left hi s.cells ((moveSmaller mem pivot left hi).exec s).cells ∧
      SplitAt (cstr mem) ((moveSmaller mem pivot left hi).exec s).cells left
        ((moveSmaller mem pivot left hi).val s) hi (cstr mem pivot) := by
  have hrun := forRange_inv (f := moveSmallerTurn mem pivot) (b := left) (s := s)
    (I := fun i idx s' => (left ≤ idx ∧ idx ≤ i) ∧ Rearranges left hi s.cells s'.cells ∧
      SplitAt (cstr mem) s'.cells left idx i (cstr mem pivot))
    h ⟨⟨le_refl _, le_refl _⟩, Rearranges.refl _ _ _, SplitAt.empty _ _ _ _⟩ ?_
  · exact hrun.2
  · rintro i idx s' hl hr ⟨hidx, hperm, hsplit⟩
    by_cases hlt : strcmpAt mem (s'.cells i) pivot < 0
    · -- the word moves to `idx`, the word there takes its place
      obtain ⟨hval, hcells⟩ := moveSmallerTurn_of_lt idx hlt
      rw [hval, hcells]
      refine ⟨⟨by omega, by omega⟩, hperm.trans (Rearranges.swap ⟨hidx.1, by omega⟩ ⟨hl, hr⟩), ?_⟩
      exact hsplit.push_low hidx.1 hidx.2 (strcmpAt_neg_iff.mp hlt)
    · obtain ⟨hval, hcells⟩ := moveSmallerTurn_of_not_lt idx hlt
      rw [hval, hcells]
      refine ⟨⟨hidx.1, by omega⟩, hperm, hsplit.push_high ?_⟩
      rw [strcmpAt_neg_iff] at hlt
      exact not_lt.mp hlt

theorem moveSmaller_local {R : Set ℤ} (h : left ≤ hi) (hR : Set.Ico left hi ⊆ R) :
    Local R (moveSmaller mem pivot left hi) := by
  refine (Local.forRange (I := fun i idx => left ≤ idx ∧ idx ≤ i) h
    ⟨le_refl _, le_refl _⟩ ?_).1
  intro i idx hl hr hidx
  refine ⟨moveSmallerTurn_local (hR ⟨hl, hr⟩) (hR ⟨hidx.1, by omega⟩), fun s => ?_⟩
  rcases moveSmallerTurn_val mem pivot i idx s with hv | hv
  · omega
  · omega

theorem moveSmaller_keeps {R : Set ℤ} {P : Ptr → Prop} {Q : Call → Prop} {lo up : ℤ}
    (hQ : SortNotes P Q lo up) (hpivot : P pivot) (h : left ≤ hi) (hR : Set.Ico left hi ⊆ R)
    (hlo : lo ≤ left) (hup : hi ≤ up) : Keeps R P Q (moveSmaller mem pivot left hi) := by
  refine Keeps.forRange (I := fun i idx => left ≤ idx ∧ idx ≤ i) h ⟨le_refl _, le_refl _⟩ ?_
  intro i idx hl hr hidx
  refine ⟨moveSmallerTurn_keeps hQ hpivot (hR ⟨hl, hr⟩) (hR ⟨hidx.1, by omega⟩) (by omega)
    hidx.2 (by omega), fun s => ?_⟩
  rcases moveSmallerTurn_val mem pivot i idx s with hv | hv
  · omega
  · omega

/-- The words behind the index returned are those the scan has kept back. -/
theorem moveSmaller_keepAll (mem : Mem) (pivot : Ptr) (h : left ≤ hi) (s : Machine Call Ptr) :
    (slice ((moveSmaller mem pivot left hi).exec s).cells ((moveSmaller mem pivot left hi).val s)
      hi).map (cstr mem) =
    keepAll (cstr mem pivot) ((slice s.cells left hi).map (cstr mem)) := by
  have hrun := forRange_inv (f := moveSmallerTurn mem pivot) (b := left) (s := s)
    (I := fun i idx s' => (left ≤ idx ∧ idx ≤ i) ∧ (∀ j, i ≤ j → s'.cells j = s.cells j) ∧
      (slice s'.cells idx i).map (cstr mem) =
        keepAll (cstr mem pivot) ((slice s.cells left i).map (cstr mem)))
    h ⟨⟨le_refl _, le_refl _⟩, fun _ _ => rfl, ?_⟩ ?_
  · exact hrun.2.2
  · rw [slice_of_le (le_refl left)]
    rfl
  · rintro i idx s' hl hr ⟨hidx, hrest, hkept⟩
    rw [slice_succ_right hl, List.map_append, List.map_singleton, keepAll_append_singleton,
      ← hrest i (le_refl i), ← hkept]
    by_cases hlt : strcmpAt mem (s'.cells i) pivot < 0
    · obtain ⟨hval, hcells⟩ := moveSmallerTurn_of_lt idx hlt
      rw [hval, hcells, keepStep_of_lt (strcmpAt_neg_iff.mp hlt), slice_swap_rotate _ hidx.2,
        List.map_rotate]
      refine ⟨⟨by omega, by omega⟩, fun j hj => ?_, rfl⟩
      rw [← hrest j (by omega), comp_swap_of_ne (by omega) (by omega)]
    · obtain ⟨hval, hcells⟩ := moveSmallerTurn_of_not_lt idx hlt
      rw [hval, hcells, keepStep_of_not_lt (mt strcmpAt_neg_iff.mpr hlt), slice_succ_right hidx.2,
        List.map_append, List.map_singleton]
      exact ⟨⟨hidx.1, by omega⟩, fun j hj => hrest j (by omega), rfl⟩

end MoveSmaller

/-! ## partition_words -/

section PartitionWords

variable {mem : Mem} {left right : ℤ}

theorem partitionWords_bounds (mem : Mem) (h : left ≤ right) (s : Machine Call Ptr) :
    left ≤ (partitionWords mem left right).val s ∧
      (partitionWords mem left right).val s ≤ right := by
  simp only [partitionWords, Prog.bind_val, Prog.pure_val]
  exact moveSmaller_bounds _ _ h _

theorem partitionWords_spec (mem : Mem) (h : left ≤ right) (s : Machine Call Ptr) :
    Rearranges left (right + 1) s.cells ((partitionWords mem left right).exec s).cells ∧
      SplitAt (cstr mem) ((partitionWords mem left right).exec s).cells left
        ((partitionWords mem left right).val s) (right + 1)
        (cstr mem (((partitionWords mem left right).exec s).cells
          ((partitionWords mem left right).val s))) := by
  obtain ⟨hperm, hsplit⟩ := moveSmaller_spec mem (s.cells right) h
    ((load right : CProg Ptr Ptr).exec s)
  obtain ⟨hlo, hhi⟩ := moveSmaller_bounds mem (s.cells right) h
    ((load right : CProg Ptr Ptr).exec s)
  simp only [partitionWords, Prog.bind_val, Prog.bind_exec, Prog.pure_val, Prog.pure_exec,
    load_val, swapWords_cells]
  -- the loop leaves the pivot where it was
  have hpivot := hperm.frame right (Or.inr (le_refl right))
  rw [load_exec] at hpivot
  refine ⟨(hperm.mono (le_refl left) (by omega)).trans
    (Rearranges.swap ⟨hlo, by omega⟩ ⟨h, by omega⟩), SplitAt.place_pivot ?_ hhi⟩
  rw [load_exec, hpivot]
  exact hsplit

theorem partitionWords_local (mem : Mem) (h : left ≤ right) :
    Local (Set.Icc left right) (partitionWords mem left right) := by
  have hright : right ∈ Set.Icc left right := ⟨h, le_refl right⟩
  refine (Local.load hright).bind fun s => ?_
  refine (moveSmaller_local h Set.Ico_subset_Icc_self).bind fun s' => ?_
  exact (swapWords_local (moveSmaller_bounds _ _ h s') hright).bind fun _ => Local.pure _ _

theorem partitionWords_keeps {R : Set ℤ} {P : Ptr → Prop} {Q : Call → Prop} {lo up : ℤ}
    (hQ : SortNotes P Q lo up) (h : left ≤ right) (hR : Set.Icc left right ⊆ R) (hlo : lo ≤ left)
    (hup : right ≤ up) : Keeps R P Q (partitionWords mem left right) := by
  have hright : right ∈ R := hR ⟨h, le_refl right⟩
  refine (Keeps.load right).bind fun s hs => ?_
  refine (moveSmaller_keeps hQ (hs.cells right hright) h
    (Set.Ico_subset_Icc_self.trans hR) hlo hup).bind fun s' _ => ?_
  have hidx := hR (moveSmaller_bounds mem ((load right : CProg Ptr Ptr).val s) h s')
  exact (swapWords_keeps hidx hright).bind fun _ _ => Keeps.pure _

/-- The pivot takes the place of the first word kept back. -/
theorem partitionWords_keepAll (mem : Mem) (h : left ≤ right) (s : Machine Call Ptr) :
    (slice ((partitionWords mem left right).exec s).cells
      ((partitionWords mem left right).val s + 1) (right + 1)).map (cstr mem) =
    (keepAll (cstr mem (s.cells right)) ((slice s.cells left right).map (cstr mem))).rotate 1 := by
  have hbounds := moveSmaller_bounds mem (s.cells right) h ((load right : CProg Ptr Ptr).exec s)
  have hkept := moveSmaller_keepAll mem (s.cells right) h ((load right : CProg Ptr Ptr).exec s)
  simp only [partitionWords, Prog.bind_val, Prog.bind_exec, Prog.pure_val, Prog.pure_exec,
    load_val, swapWords_cells]
  rw [slice_swap_rotate _ hbounds.2, List.map_rotate, hkept]
  rfl

/-- The pivot stays last when nothing has been kept back. -/
theorem partitionWords_eq_right_iff (mem : Mem) (h : left ≤ right) (s : Machine Call Ptr) :
    keepAll (cstr mem (s.cells right)) ((slice s.cells left right).map (cstr mem)) = [] ↔
      (partitionWords mem left right).val s = right := by
  have hbounds := partitionWords_bounds mem h s
  rw [← List.rotate_eq_nil_iff, ← partitionWords_keepAll mem h s, ← List.length_eq_zero_iff,
    List.length_map, length_slice]
  omega

end PartitionWords

/-! ## quick_sort_recursive and quick_sort_words -/

/-- `quick_sort_recursive` -/
def quickSortRecursive (mem : Mem) (left right : ℤ) : CProg Ptr PUnit :=
  if h : left < right then do
    let idx ← (partitionWords mem left right).attach
    int (idx.1 - 1)
    quickSortRecursive mem left (idx.1 - 1)
    int (idx.1 + 1)
    quickSortRecursive mem (idx.1 + 1) right
  else
    pure ⟨⟩
termination_by (right + 1 - left).toNat
decreasing_by
  all_goals
    obtain ⟨s, hs⟩ := idx.2
    have hbounds := partitionWords_bounds mem h.le s
    omega

/-- `quick_sort_words` -/
def quickSortWords (mem : Mem) (count : ℕ) : CProg Ptr PUnit :=
  if count ≤ 1 then pure ⟨⟩ else quickSortRecursive mem 0 (toInt (count - 1))

section QuickSort

variable {mem : Mem}

theorem quickSortRecursive_of_lt (mem : Mem) {left right : ℤ} (h : left < right) :
    quickSortRecursive mem left right = (do
      let idx ← partitionWords mem left right
      int (idx - 1)
      quickSortRecursive mem left (idx - 1)
      int (idx + 1)
      quickSortRecursive mem (idx + 1) right) := by
  rw [quickSortRecursive, dif_pos h]
  rfl

theorem quickSortRecursive_of_le (mem : Mem) {left right : ℤ} (h : right ≤ left) :
    quickSortRecursive mem left right = pure ⟨⟩ := by
  rw [quickSortRecursive, dif_neg (not_lt.mpr h)]

theorem quickSortRecursive_sorts (mem : Mem) (left right : ℤ) (s : Machine Call Ptr) :
    Sorts (cstr mem) left (right + 1) s.cells
      ((quickSortRecursive mem left right).exec s).cells := by
  revert s
  induction left, right using range_induction with
  | step left right ih =>
    intro s
    rcases lt_or_ge left right with h | h
    · obtain ⟨hlo, hhi⟩ := partitionWords_bounds mem h.le s
      obtain ⟨hperm, hsplit⟩ := partitionWords_spec mem h.le s
      rw [quickSortRecursive_of_lt mem h]
      simp only [Prog.bind_exec]
      generalize (partitionWords mem left right).val s = idx at *
      generalize (partitionWords mem left right).exec s = s₁ at *
      have hleft := ih left (idx - 1) (by omega) ((int (idx - 1)).exec s₁)
      have hright := ih (idx + 1) right (by omega) ((int (idx + 1)).exec
        ((quickSortRecursive mem left (idx - 1)).exec ((int (idx - 1)).exec s₁)))
      rw [Int.sub_add_cancel, int_cells] at hleft
      rw [int_cells] at hright
      -- the pivot alone is the middle block
      refine Sorts.glue hlo (Int.le_add_one (le_refl idx)) (by omega) hperm
        (fun i hi him => (hsplit.low i hi him).le) (fun i hi him => ?_)
        (fun i hi hir => hsplit.high i (by omega) hir) hleft hright
      rw [le_antisymm (Int.lt_add_one_iff.mp him) hi]
    · rw [quickSortRecursive_of_le mem h]
      exact Sorts.of_le (by omega)

theorem quickSortRecursive_local (mem : Mem) (left right : ℤ) :
    Local (Set.Icc left right) (quickSortRecursive mem left right) := by
  induction left, right using range_induction with
  | step left right ih =>
    rcases lt_or_ge left right with h | h
    · rw [quickSortRecursive_of_lt mem h]
      refine (partitionWords_local mem h.le).bind fun s => ?_
      obtain ⟨hlo, hhi⟩ := partitionWords_bounds mem h.le s
      refine (Local.note _ _).bind fun _ => ?_
      refine ((ih left _ (by omega)).mono (Set.Icc_subset_Icc_right (by omega))).bind fun _ => ?_
      refine (Local.note _ _).bind fun _ => ?_
      exact (ih _ right (by omega)).mono (Set.Icc_subset_Icc_left (by omega))
    · rw [quickSortRecursive_of_le mem h]
      exact Local.pure _ _

/-- The `int`s of the recursion lie within one of its range. -/
theorem quickSortRecursive_keeps {R : Set ℤ} {P : Ptr → Prop} {Q : Call → Prop} {lo up : ℤ}
    (hQ : SortNotes P Q lo up) (left right : ℤ) (hR : Set.Icc left right ⊆ R)
    (hlo : lo < left) (hup : right < up) : Keeps R P Q (quickSortRecursive mem left right) := by
  induction left, right using range_induction with
  | step left right ih =>
    rcases lt_or_ge left right with h | h
    · rw [quickSortRecursive_of_lt mem h]
      refine (partitionWords_keeps hQ h.le hR hlo.le hup.le).bind fun s _ => ?_
      obtain ⟨hl, hr⟩ := partitionWords_bounds mem h.le s
      refine (Keeps.note (hQ.int _ (by omega) (by omega))).bind fun _ _ => ?_
      refine (ih left _ (by omega) ((Set.Icc_subset_Icc_right (by omega)).trans hR) hlo
        (by omega)).bind fun _ _ => ?_
      refine (Keeps.note (hQ.int _ (by omega) (by omega))).bind fun _ _ => ?_
      exact ih _ right (by omega) ((Set.Icc_subset_Icc_left (by omega)).trans hR) (by omega) hup
    · rw [quickSortRecursive_of_le mem h]
      exact Keeps.pure _

theorem quickSortWords_keeps {P : Ptr → Prop} {Q : Call → Prop} {count : ℕ}
    (hQ : SortNotes P Q (-1) count) :
    Keeps (Set.Ico 0 (count : ℤ)) P Q (quickSortWords mem count) := by
  refine Keeps.ite (fun _ => Keeps.pure _) fun hlt => ?_
  have hint := toInt_le (count - 1)
  refine quickSortRecursive_keeps hQ 0 _ (fun i hi => ⟨hi.1, ?_⟩) (by omega) (by omega)
  have hi' := hi.2
  omega

theorem quickSortWords_sorts (mem : Mem) {count : ℕ} (h : count ≤ 2 ^ 31) (s : Machine Call Ptr) :
    Sorts (cstr mem) 0 count s.cells ((quickSortWords mem count).exec s).cells := by
  rw [quickSortWords]
  split_ifs with hle
  · exact Sorts.of_le (by omega)
  · have hrun := quickSortRecursive_sorts mem 0 (toInt (count - 1)) s
    rw [toInt_of_lt (by omega)] at hrun
    rw [toInt_of_lt (by omega)]
    have hcount : ((count - 1 : ℕ) : ℤ) + 1 = count := by omega
    rwa [hcount] at hrun

/-- Whatever the count, the words are permuted. -/
theorem quickSortWords_rearranges (mem : Mem) (count : ℕ) (s : Machine Call Ptr) :
    Rearranges 0 count s.cells ((quickSortWords mem count).exec s).cells := by
  rw [quickSortWords]
  split_ifs with hle
  · exact Rearranges.refl _ _ _
  · have hint := toInt_le (count - 1)
    exact (quickSortRecursive_sorts mem 0 _ s).rearranges.mono (le_refl 0) (by omega)

end QuickSort

end EfficientDictionary
