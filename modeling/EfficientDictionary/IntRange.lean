import EfficientDictionary.ParallelSort

/-!
# What fits an `int`

Indices are `int`s in the source, of 32 bits, and the sorts compute with them unchecked. The
definitions compute with unbounded integers and report the results, so that the question is
which numbers a run reports. A run that reports a number that is no `int` has no meaning.

* `quickSort_correct_iff` — the sequential quicksort is right but for the index after the range,
  which is formed when a pivot turns out to be the greatest word of what is left of the range, as
  `LastTop` says.
* `quickSortParallel_correct_iff` — so is the one with tasks, but for the ranges that are left to
  the sequential one, as `EndsInTop` says.
* `parSortPartition_ints_iff` — the sizes of the chunks are rounded up, so the last one may end
  behind the range.
* `quicksortParallelRecursive_keepsInts` — no more is formed than words and threads together.
-/

namespace EfficientDictionary

/-- The values of an `int`. -/
def IsInt (v : ℤ) : Prop := -2 ^ 31 ≤ v ∧ v ≤ 2 ^ 31 - 1

instance (v : ℤ) : Decidable (IsInt v) := inferInstanceAs (Decidable (_ ∧ _))

/-- The number a call reports, if it reports one, lies between `lo` and `up`. -/
def Call.IntIn (lo up : ℤ) (c : Call) : Prop := ∀ v, c = .int v → lo ≤ v ∧ v ≤ up

theorem Call.intIn_int {lo up v : ℤ} (hlo : lo ≤ v) (hup : v ≤ up) :
    (Call.int v).IntIn lo up := by
  rintro v' heq
  obtain rfl := Call.int.inj heq
  exact ⟨hlo, hup⟩

/-! ## quick_sort_recursive -/

section QuickSort

variable {mem : Mem} {left right : ℤ}

/-- A number a part of the sort cannot report is reported after it if it was before. -/
theorem note_int_mem_iff {β : Type} {R R' : Set ℤ} {m : CProg Ptr β} {v : ℤ} (hm : Local R m)
    (hkeeps : Keeps R' (fun _ => True) (· ≠ Call.int v) m) (s : Machine Call Ptr) :
    .note (.int v) ∈ (m.exec s).trace ↔ .note (.int v) ∈ s.trace := by
  refine ⟨fun hafter => ?_, hm.mem_trace⟩
  by_contra hbefore
  have hguard : Guarded R' (fun _ => True) (· ≠ Call.int v) s :=
    ⟨fun _ _ => trivial, fun e he heq => hbefore (heq ▸ he)⟩
  exact (hkeeps s hguard).reported _ hafter rfl

theorem sortNotes_ne {v lo up : ℤ} (h : up < v) :
    SortNotes (fun _ => True) (· ≠ Call.int v) lo up where
  strcmp := fun _ _ _ _ => Call.noConfusion
  int := fun _ _ hup heq => absurd (Call.int.inj heq) (by omega)

/-- **When the index after the range is formed**: at the first partition whose pivot is
greater than all other words of its range. -/
theorem quickSortRecursive_int_iff (mem : Mem) (left right : ℤ) (s : Machine Call Ptr) :
    .note (.int (right + 1)) ∈ ((quickSortRecursive mem left right).exec s).trace ↔
      LastTop ((slice s.cells left (right + 1)).map (cstr mem)) ∨
        .note (.int (right + 1)) ∈ s.trace := by
  revert s
  induction left, right using range_induction with
  | step left right ih =>
    intro s
    rcases lt_or_ge left right with h | h
    · obtain ⟨hlo, hhi⟩ := partitionWords_bounds mem h.le s
      have hkept := partitionWords_keepAll mem h.le s
      have hlast := partitionWords_eq_right_iff mem h.le s
      have hfirst := note_int_mem_iff (partitionWords_local mem h.le) (partitionWords_keeps
        (sortNotes_ne (Int.lt_succ right)) h.le (Set.subset_univ _) (le_refl left)
        (le_refl right)) s
      rw [quickSortRecursive_of_lt mem h, slice_succ_right h.le, List.map_append,
        List.map_singleton, lastTop_append_singleton]
      simp only [Prog.bind_exec]
      generalize (partitionWords mem left right).val s = idx at *
      generalize (partitionWords mem left right).exec s = s₁ at *
      -- the left part reports smaller numbers and leaves the right part alone
      have hsecond := note_int_mem_iff (quickSortRecursive_local mem left (idx - 1))
        (quickSortRecursive_keeps (sortNotes_ne (by omega : idx < right + 1)) left (idx - 1)
          (Set.subset_univ _) (by omega : left - 1 < left) (by omega)) ((int (idx - 1)).exec s₁)
      have hframe := (quickSortRecursive_local mem left (idx - 1)).frame ((int (idx - 1)).exec s₁)
      generalize (quickSortRecursive mem left (idx - 1)).exec ((int (idx - 1)).exec s₁) = s₂ at *
      have hslice : slice ((int (idx + 1)).exec s₂).cells (idx + 1) (right + 1) =
          slice s₁.cells (idx + 1) (right + 1) :=
        slice_congr fun i hi _ => hframe i fun hin => absurd hin.2 (by omega)
      have hkeys : (slice s.cells left right).map (cstr mem) ≠ [] := by
        rw [← List.length_pos_iff, List.length_map, length_slice]
        omega
      have hbefore : right + 1 ≠ idx - 1 := by omega
      rw [ih (idx + 1) right (by omega), hslice, hkept, hlast, int_exec, List.mem_cons, hsecond,
        int_exec, List.mem_cons, hfirst, Event.note.injEq, Call.int.injEq, Event.note.injEq,
        Call.int.injEq, or_iff_right hbefore, add_left_inj, @eq_comm ℤ right, and_iff_right hkeys,
        or_assoc]
      exact or_left_comm
    · rw [quickSortRecursive_of_le mem h]
      refine (or_iff_right (not_lastTop_of_length_le ?_)).symm
      rw [List.length_map, length_slice]
      omega

theorem quickSortWords_int_iff (mem : Mem) {count : ℕ} (h : count ≤ 2 ^ 31)
    (s : Machine Call Ptr) :
    .note (.int count) ∈ ((quickSortWords mem count).exec s).trace ↔
      LastTop ((slice s.cells 0 count).map (cstr mem)) ∨ .note (.int count) ∈ s.trace := by
  rw [quickSortWords]
  split_ifs with hle
  · refine (or_iff_right (not_lastTop_of_length_le ?_)).symm
    rw [List.length_map, length_slice]
    omega
  · have hrun := quickSortRecursive_int_iff mem 0 (toInt (count - 1)) s
    rw [toInt_of_lt (by omega)] at hrun
    rw [toInt_of_lt (by omega)]
    have hcount : ((count - 1 : ℕ) : ℤ) + 1 = count := by omega
    rwa [hcount] at hrun

/-- The bounds are those of a guard. -/
theorem sortNotes_intIn (lo up : ℤ) : SortNotes (fun _ => True) (Call.IntIn lo up) lo up where
  strcmp := fun _ _ _ _ _ heq => Call.noConfusion heq
  int := fun _ hlo hup => Call.intIn_int hlo hup

/-- What a program reports that keeps to some bounds, when nothing was reported before. -/
theorem Keeps.int_bounds {β : Type} {R : Set ℤ} {m : CProg Ptr β} {lo up v : ℤ} {words : ℤ → Ptr}
    (hm : Keeps R (fun _ => True) (Call.IntIn lo up) m)
    (hv : .note (.int v) ∈ (m.exec ⟨words, []⟩).trace) : lo ≤ v ∧ v ≤ up :=
  (hm ⟨words, []⟩ ⟨fun _ _ => trivial, fun _ he => absurd he List.not_mem_nil⟩).reported _ hv v rfl

/-- A run that stays within one of its range has a meaning unless it forms the index after the
greatest one. -/
theorem ints_iff_of_top {t : List (Event Call)} {top : Prop} (h0 : 0 ≤ left)
    (hright : right ≤ 2 ^ 31 - 1)
    (hbounds : ∀ v, .note (.int v) ∈ t → left - 1 ≤ v ∧ v ≤ right + 1)
    (htop : .note (.int (right + 1)) ∈ t ↔ top) :
    (∀ v, .note (.int v) ∈ t → IsInt v) ↔ ¬ (right = 2 ^ 31 - 1 ∧ top) := by
  refine ⟨?_, fun hno v hv => ?_⟩
  · rintro hall ⟨hmax, hlast⟩
    have hint := (hall _ (htop.mpr hlast)).2
    omega
  · obtain ⟨hlo, hup⟩ := hbounds v hv
    refine ⟨by omega, ?_⟩
    by_contra hover
    obtain rfl : v = right + 1 := by omega
    exact hno ⟨by omega, htop.mp hv⟩

/-- **When the sequential quicksort is correct.** On an inclusive range, empty ones included, its
run has a meaning and sorts by `strcmp` unless the range ends at the greatest `int` and its words
are reduced to a list that ends in the greatest of them. Up to `2 ^ 31 - 1` words are always
sorted. -/
theorem quickSort_correct_iff (mem : Mem) (words : ℤ → Ptr) :
    (∀ left right : ℤ, 0 ≤ left → right ≤ 2 ^ 31 - 1 →
      let s := (quickSortRecursive mem left right).exec ⟨words, []⟩
      ((∀ v, .note (.int v) ∈ s.trace → IsInt v) ∧
          StrcmpSorted mem left (right + 1) words s.cells ↔
        ¬ (right = 2 ^ 31 - 1 ∧ LastTop ((slice words left (right + 1)).map (cstr mem))))) ∧
    ∀ count < 2 ^ 31,
      let s := (quickSortWords mem count).exec ⟨words, []⟩
      (∀ v, .note (.int v) ∈ s.trace → IsInt v) ∧
        StrcmpSorted mem 0 (count : ℕ) words s.cells := by
  refine ⟨fun left right h0 hright => ?_, fun count hcount => ⟨fun v hv => ?_, ?_⟩⟩
  · have hkeeps : Keeps Set.univ (fun _ => True) (Call.IntIn (left - 1) (right + 1))
        (quickSortRecursive mem left right) :=
      quickSortRecursive_keeps (sortNotes_intIn _ _) left right (Set.subset_univ _) (by omega)
        (by omega)
    have hsorts := (quickSortRecursive_sorts mem left right ⟨words, []⟩).strcmpSorted
    refine (and_iff_left hsorts).trans (ints_iff_of_top h0 hright (fun v => hkeeps.int_bounds) ?_)
    exact (quickSortRecursive_int_iff mem left right ⟨words, []⟩).trans
      (or_iff_left List.not_mem_nil)
  · obtain ⟨hlo, hup⟩ := (quickSortWords_keeps (sortNotes_intIn (-1) count)).int_bounds hv
    exact ⟨by omega, by omega⟩
  · exact (quickSortWords_sorts mem hcount.le ⟨words, []⟩).strcmpSorted

/-- The words `a` and `b` at the greatest indices. -/
theorem lastTop_greatest :
    LastTop ((slice (fun i => if i = 2 ^ 31 - 1 then 2 else 0) (2 ^ 31 - 2) (2 ^ 31 - 1 + 1)).map
      (cstr [97, 0, 98, 0])) := by
  have hwords : (slice (fun i => if i = 2 ^ 31 - 1 then 2 else 0) (2 ^ 31 - 2) (2 ^ 31 - 1 + 1)).map
      (cstr [97, 0, 98, 0]) = [[97]] ++ [[98]] := by
    decide
  rw [hwords]
  exact .top (List.cons_ne_nil [97] []) (by decide)

/-- At the greatest index there is no index after the range. -/
theorem quickSort_overflows :
    let s := (quickSortRecursive [97, 0, 98, 0] (2 ^ 31 - 2) (2 ^ 31 - 1)).exec
      ⟨fun i => if i = 2 ^ 31 - 1 then 2 else 0, []⟩
    ¬ ((∀ v, .note (.int v) ∈ s.trace → IsInt v) ∧
      StrcmpSorted [97, 0, 98, 0] (2 ^ 31 - 2) (2 ^ 31 - 1 + 1)
        (fun i => if i = 2 ^ 31 - 1 then 2 else 0) s.cells) := by
  rintro s ⟨hall, -⟩
  have hreport := (quickSortRecursive_int_iff [97, 0, 98, 0] (2 ^ 31 - 2) (2 ^ 31 - 1)
    ⟨fun i => if i = 2 ^ 31 - 1 then 2 else 0, []⟩).mpr (Or.inl lastTop_greatest)
  exact absurd (hall _ hreport).2 (by decide)

end QuickSort

/-! ## quick_sort_parallel -/

section QuickSortParallel

variable (mem : Mem) (threshold : ℤ)

/-- Of two tasks the one that is silent about a number may run first or second. -/
theorem par_note_iff {m m' : CProg Ptr PUnit} {v : ℤ} {T : (ℤ → Ptr) → Prop}
    (hquiet : ∀ s, .note (.int v) ∈ (m.exec s).trace ↔ .note (.int v) ∈ s.trace)
    (hsame : ∀ s, T (m.exec s).cells ↔ T s.cells)
    (hnext : ∀ s, .note (.int v) ∈ (m'.exec s).trace ↔ T s.cells ∨ .note (.int v) ∈ s.trace)
    (b : Bool) (s : Machine Call Ptr) :
    .note (.int v) ∈ ((par b m m').exec s).trace ↔ T s.cells ∨ .note (.int v) ∈ s.trace := by
  cases b with
  | true => exact (hnext (m.exec s)).trans (or_congr (hsame s) (hquiet s))
  | false => exact (hquiet (m'.exec s)).trans (hnext s)

/-- **When the tasks form the index after the range**: when the sequential sort does that is left
with the end of it. -/
theorem quickSortParallel_int_iff (σ : Choices Bool) (left right : ℤ) (s : Machine Call Ptr) :
    .note (.int (right + 1)) ∈ ((quickSortParallel mem threshold σ left right).exec s).trace ↔
      EndsInTop threshold ((slice s.cells left (right + 1)).map (cstr mem)) ∨
        .note (.int (right + 1)) ∈ s.trace := by
  revert σ s
  induction left, right using range_induction with
  | step left right ih =>
    intro σ s
    have hlen : ((slice s.cells left (right + 1)).map (cstr mem)).length =
        (right + 1 - left).toNat := by
      rw [List.length_map, length_slice]
    rcases lt_or_ge left right with h | h
    · by_cases hsmall : right - left < threshold
      · rw [quickSortParallel_of_lt_threshold mem threshold σ h hsmall,
          endsInTop_of_few (by omega)]
        exact quickSortRecursive_int_iff mem left right s
      · rw [quickSortParallel_of_tasks mem threshold σ h hsmall,
          endsInTop_of_more (by omega) (by omega), ← seqPivotSelect_behind mem h s, Prog.bind_exec]
        obtain ⟨hlo, hhi⟩ := seqPivotSelect_bounds mem h s
        have hfirst := note_int_mem_iff (seqPivotSelect_local mem h) (seqPivotSelect_keeps
          (sortNotes_ne (Int.lt_succ right)) h (Set.subset_univ _) (le_refl left)
          (le_refl right)) s
        generalize (seqPivotSelect mem left right).val s = idx at *
        generalize (seqPivotSelect mem left right).exec s = s₁ at *
        -- the task before the pivot reports smaller numbers, and leaves the words behind it alone
        have hquiet := fun s' => note_int_mem_iff (quickSortParallel_local mem threshold σ.first
          left (idx - 1)) (quickSortParallel_keeps mem threshold
            (sortNotes_ne (by omega : idx < right + 1)) σ.first left (idx - 1)
            (Set.subset_univ _) (by omega : left - 1 < left) (by omega)) s'
        have hsame : ∀ s' : Machine Call Ptr,
            slice ((quickSortParallel mem threshold σ.first left (idx - 1)).exec s').cells (idx + 1)
              (right + 1) = slice s'.cells (idx + 1) (right + 1) := fun s' =>
          slice_congr fun i hi _ => (quickSortParallel_local mem threshold σ.first left
            (idx - 1)).frame s' i fun hin => absurd hin.2 (by omega)
        have hbefore : right + 1 ≠ idx - 1 := by omega
        have hbehind : right + 1 ≠ idx + 1 := by omega
        have hpar := par_note_iff (T := fun w => EndsInTop threshold
          ((slice w (idx + 1) (right + 1)).map (cstr mem))) hquiet
          (fun s' => by rw [hsame s']) (ih (idx + 1) right (by omega) σ.second) σ.here
        rw [quickSortParallelTasks, Prog.bind_exec, Prog.bind_exec, hpar, int_exec, List.mem_cons,
          int_exec, List.mem_cons, hfirst, Event.note.injEq, Call.int.injEq, Event.note.injEq,
          Call.int.injEq, or_iff_right hbefore, or_iff_right hbehind]
    · rw [quickSortParallel_of_le mem threshold σ h]
      exact (or_iff_right (not_endsInTop_of_length_le (by omega))).symm

/-- **When the quicksort with tasks is correct.** On an inclusive range, empty ones included, under
every threshold and schedule, its run has a meaning and sorts by `strcmp` unless the range ends at
the greatest `int` and the words that are left to the sequential sort at its end are reduced to a
list that ends in the greatest of them. Up to `2 ^ 31 - 1` words are always sorted. -/
theorem quickSortParallel_correct_iff (σ : Choices Bool) (words : ℤ → Ptr) :
    (∀ left right : ℤ, 0 ≤ left → right ≤ 2 ^ 31 - 1 →
      let s := (quickSortParallel mem threshold σ left right).exec ⟨words, []⟩
      ((∀ v, .note (.int v) ∈ s.trace → IsInt v) ∧
          StrcmpSorted mem left (right + 1) words s.cells ↔
        ¬ (right = 2 ^ 31 - 1 ∧
          EndsInTop threshold ((slice words left (right + 1)).map (cstr mem))))) ∧
    ∀ count < 2 ^ 31,
      let s := (quickSortWordsParallelWith threshold σ mem count).exec ⟨words, []⟩
      (∀ v, .note (.int v) ∈ s.trace → IsInt v) ∧
        StrcmpSorted mem 0 (count : ℕ) words s.cells := by
  refine ⟨fun left right h0 hright => ?_, fun count hcount => ⟨fun v hv => ?_, ?_⟩⟩
  · have hkeeps := quickSortParallel_keeps mem threshold (sortNotes_intIn (left - 1) (right + 1)) σ
      left right (Set.subset_univ _) (by omega) (by omega)
    have hsorts := (quickSortParallel_sorts mem threshold σ left right ⟨words, []⟩).strcmpSorted
    refine (and_iff_left hsorts).trans (ints_iff_of_top h0 hright (fun v => hkeeps.int_bounds) ?_)
    exact (quickSortParallel_int_iff mem threshold σ left right ⟨words, []⟩).trans
      (or_iff_left List.not_mem_nil)
  · obtain ⟨hlo, hup⟩ := (quickSortWordsParallelWith_keeps mem threshold
      (sortNotes_intIn (-1) count) σ).int_bounds hv
    exact ⟨by omega, by omega⟩
  · exact (quickSortWordsParallelWith_sorts mem threshold σ hcount.le ⟨words, []⟩).strcmpSorted

/-- The words `a` and `b` at the greatest indices, and the threshold of the source. -/
theorem quickSortParallel_overflows :
    let s := (quickSortParallel [97, 0, 98, 0] 5000 (fun _ => true) (2 ^ 31 - 2)
      (2 ^ 31 - 1)).exec ⟨fun i => if i = 2 ^ 31 - 1 then 2 else 0, []⟩
    ¬ ((∀ v, .note (.int v) ∈ s.trace → IsInt v) ∧
      StrcmpSorted [97, 0, 98, 0] (2 ^ 31 - 2) (2 ^ 31 - 1 + 1)
        (fun i => if i = 2 ^ 31 - 1 then 2 else 0) s.cells) := by
  rintro s ⟨hall, -⟩
  have hfew : EndsInTop 5000 _ := (endsInTop_of_few (by decide)).mpr lastTop_greatest
  have hreport := (quickSortParallel_int_iff [97, 0, 98, 0] 5000 (fun _ => true) (2 ^ 31 - 2)
    (2 ^ 31 - 1) ⟨fun i => if i = 2 ^ 31 - 1 then 2 else 0, []⟩).mpr (Or.inl hfew)
  exact absurd (hall _ hreport).2 (by decide)

end QuickSortParallel

/-! ## par_sort_partition -/

section Partition

/-- The guard of the lemmas below: the numbers reported lie between `-1` and `up`. -/
abbrev KeepsInts {α β : Type} (up : ℤ) (m : CProg α β) : Prop :=
  Keeps Set.univ (fun _ => True) (Call.IntIn (-1) up) m

variable (mem : Mem) (team : Team) {left right ws p up : ℤ} {id : ℕ}

theorem int_keepsInts {v : ℤ} (h0 : 0 ≤ v) (hup : v ≤ up) :
    KeepsInts up (int v : CProg Ptr PUnit) :=
  Keeps.note (Call.intIn_int (by omega) hup)

theorem strcmp_keepsInts (a b : Ptr) : KeepsInts up (strcmp mem a b : CProg Ptr ℤ) :=
  strcmp_keeps (fun _ h => nomatch h) mem

theorem between_keepsInts (a b c : Ptr) : KeepsInts up (between mem a b c) := by
  have hasc : ∀ a b c, KeepsInts up (ascending mem a b c) := fun a b c =>
    (strcmp_keepsInts mem a b).bind fun _ _ => Keeps.ite
      (fun _ => (strcmp_keepsInts mem b c).bind fun _ _ => Keeps.pure _) fun _ => Keeps.pure _
  exact (hasc a b c).bind fun _ _ => Keeps.ite (fun _ => Keeps.pure _) fun _ => hasc c b a

theorem parPivotSelect_keepsInts (h0 : 0 ≤ left) (h : left < right) (hup : right ≤ up) :
    KeepsInts up (parPivotSelect mem left right) := by
  obtain ⟨hlo, hhi⟩ := parMid_bounds h
  refine (int_keepsInts (by omega) (by omega)).bind fun _ _ => (Keeps.load _).bind fun _ _ =>
    (Keeps.load _).bind fun _ _ => (Keeps.load _).bind fun _ _ => ?_
  refine (between_keepsInts mem _ _ _).bind fun _ _ => Keeps.ite (fun _ => Keeps.pure _) fun _ => ?_
  exact (between_keepsInts mem _ _ _).bind fun _ _ =>
    Keeps.ite (fun _ => Keeps.pure _) fun _ => Keeps.pure _

/-- What the chunks of a call with `p` of them are held to. -/
structure ChunksUpTo (left right ws p up : ℤ) : Prop where
  /-- the range starts at an index -/
  left_nonneg : 0 ≤ left
  /-- and ends behind its start -/
  left_le : left ≤ right
  /-- the chunks have a size -/
  ws_nonneg : 0 ≤ ws
  /-- the range ends before the bound -/
  right_le : right ≤ up
  /-- and so does the last chunk, unclipped -/
  last_le : left + p * ws ≤ up

/-- The bounds of a chunk lie before those of the last one. -/
theorem ChunksUpTo.bounds (h : ChunksUpTo left right ws p up) (hid : (id : ℤ) < p) :
    0 ≤ (id : ℤ) * ws ∧ (id : ℤ) * ws ≤ ((id : ℤ) + 1) * ws ∧
      left + ((id : ℤ) + 1) * ws ≤ up := by
  obtain ⟨-, -, hws, -, hlast⟩ := h
  have hend : ((id : ℤ) + 1) * ws ≤ p * ws := Int.mul_le_mul_of_nonneg_right (by omega) hws
  have hnext : ((id : ℤ) + 1) * ws = id * ws + ws := by rw [Int.add_mul, Int.one_mul]
  exact ⟨Int.mul_nonneg (Int.natCast_nonneg id) hws, by omega, by omega⟩

theorem noteChunk_keepsInts (h : ChunksUpTo left right ws p up) (hid : (id : ℤ) < p) :
    KeepsInts up (noteChunk left ws id) := by
  obtain ⟨hstart, hend, hlast⟩ := h.bounds hid
  have h0 := h.left_nonneg
  refine (int_keepsInts hstart (by omega)).bind fun _ _ => ?_
  refine (int_keepsInts (by omega) (by omega)).bind fun _ _ => ?_
  refine (int_keepsInts (by omega) (by omega)).bind fun _ _ => ?_
  exact int_keepsInts (by omega) hlast

theorem compareWord_keepsInts (pivot : Ptr) {i : ℤ} (h0 : 0 ≤ i) (hup : i ≤ up) :
    KeepsInts up (compareWord mem pivot i) :=
  (int_keepsInts h0 hup).bind fun _ _ => (Keeps.load i).bind fun _ _ =>
    (strcmp_keepsInts mem _ pivot).bind fun _ _ => Keeps.pure _

/-- The inner loops run over indices of the range. -/
theorem chunkLoop_keepsInts {β : Type} (h : ChunksUpTo left right ws p up) (id : ℕ) (b : β)
    {body : ℤ → β → CProg Ptr β}
    (hbody : ∀ i, 0 ≤ i → i ≤ up → ∀ b, KeepsInts up (body i b)) :
    KeepsInts up (forRange (chunkStart left ws id) (chunkEnd left right ws id) b body) := by
  obtain ⟨h0, hle, hws, hright, -⟩ := h
  have hstart := left_le_cut hle hws id
  have hend := cut_le_right left right ws (id + 1)
  rw [forRange_chunk hws]
  exact Keeps.forRange_all (fun i hlo hhi b => hbody i (by omega) (by omega) b) b

theorem countChunk_keepsInts (pivot : Ptr) (h : ChunksUpTo left right ws p up)
    (hid : (id : ℤ) < p) (n : Side → ℤ → ℤ) :
    KeepsInts up (countChunk mem pivot left right ws id n) := by
  refine (noteChunk_keepsInts h hid).bind fun _ _ => ?_
  refine Keeps.ite (fun _ => Keeps.pure _) fun _ => ?_
  refine (chunkLoop_keepsInts h id _ fun i hi hup _ => ?_).bind fun _ _ => Keeps.pure _
  exact (compareWord_keepsInts mem pivot hi hup).bind fun _ _ => Keeps.pure _

theorem scatterChunk_keepsInts (pivot : Ptr) (h : ChunksUpTo left right ws p up)
    (hid : (id : ℤ) < p) (base : Side → ℤ) (sums : Side → ℤ → ℤ) (temp : ℤ → Ptr) :
    KeepsInts up (scatterChunk mem pivot left right ws base sums id temp) := by
  refine (noteChunk_keepsInts h hid).bind fun _ _ => ?_
  refine (chunkLoop_keepsInts h id _ fun i hi hup _ => ?_).bind fun _ _ => Keeps.pure _
  refine (compareWord_keepsInts mem pivot hi hup).bind fun _ _ => (Keeps.load i).bind fun _ _ => ?_
  exact (Keeps.note fun _ h => nomatch h).bind fun _ _ => Keeps.pure _

theorem copyBack_keepsInts (left n : ℤ) (temp : ℤ → Ptr) : KeepsInts up (copyBack left n temp) :=
  Keeps.forRange_all (fun _ _ _ _ => Keeps.store fun _ => trivial) _

/-- The numbers a call reports stay below any bound on three of them. -/
theorem parSortPartition_keepsInts (h0 : 0 ≤ left) (h : 1 < right - left) (hright : right ≤ up)
    (hceil : right - left + chunks team (right - left) ≤ up)
    (hlast : left + chunks team (right - left) * chunkSize team (right - left) ≤ up) :
    KeepsInts up (parSortPartition mem team left right) := by
  have hp := chunks_pos team h
  have hws := chunkSize_nonneg team h
  have hchunks : ChunksUpTo left right (chunkSize team (right - left))
      (chunks team (right - left)) up := ⟨h0, by omega, hws, hright, hlast⟩
  have hid : ∀ {served : ChunkOrder} {id : ℕ},
      id ∈ served.order (chunks team (right - left)).toNat →
        (id : ℤ) < chunks team (right - left) := by
    intro served id hmem
    have hlt := served.mem_order.mp hmem
    omega
  rw [parSortPartition_of_lt mem team h]
  refine (parPivotSelect_keepsInts mem h0 (by omega) hright).bind fun _ _ => ?_
  refine (int_keepsInts (by omega) hceil).bind fun _ _ => ?_
  refine (int_keepsInts (by omega) (by omega)).bind fun _ _ => ?_
  refine (Keeps.forEach (fun id hmem n =>
    countChunk_keepsInts mem _ hchunks (hid hmem) n) _).bind fun _ _ => ?_
  refine (Keeps.forEach (fun id hmem temp =>
    scatterChunk_keepsInts mem _ hchunks (hid hmem) _ _ temp) _).bind fun _ _ => ?_
  exact (copyBack_keepsInts left _ _).bind fun _ _ => Keeps.pure _

/-- What the range and the number of threads must be for a partition to compute with `int`s
only. -/
structure PartitionFits (left right threads : ℤ) : Prop where
  /-- the range starts at an index -/
  left_nonneg : 0 ≤ left
  /-- its end is an `int` -/
  right_le : right ≤ 2 ^ 31 - 1
  /-- so is its length together with the number of chunks -/
  sum_le : right - left + min (right - left) threads ≤ 2 ^ 31 - 1
  /-- and the end of the last chunk, unclipped -/
  last_lt : right + (-(right - left)) % min (right - left) threads < 2 ^ 31

theorem chunks_eq_min (team : Team) (n : ℤ) : chunks team n = min n team.threads := by
  rw [chunks, Int.min_def]
  split_ifs <;> omega

/-- The last chunk of such a partition ends at an `int`. -/
theorem PartitionFits.chunksUpTo {threads : ℤ} (hfits : PartitionFits left right threads)
    (h : 1 < right - left) (hpos : 1 ≤ threads) :
    ChunksUpTo left right
      ((right - left + min (right - left) threads - 1).tdiv (min (right - left) threads))
      (min (right - left) threads) (2 ^ 31 - 1) := by
  obtain ⟨h0, hright, -, hlast⟩ := hfits
  have hp : 1 ≤ min (right - left) threads := by omega
  have hround := mul_tdiv_round_up (by omega : 0 ≤ right - left) hp
  exact ⟨h0, by omega, (chunkSize_spec (by omega) hp).1, hright, by omega⟩

/-- Threads that do not reach the greatest `int` from the end of the range do for any partition
of a part of it. -/
theorem PartitionFits.of_threads {threads l r : ℤ} (h0 : 0 ≤ left) (hpos : 1 ≤ threads)
    (hsum : right + threads ≤ 2 ^ 31 - 1) (hl : left ≤ l) (hr : r ≤ right) (hlt : 1 < r - l) :
    PartitionFits l r threads := by
  have hmod := Int.emod_lt_of_pos (-(r - l)) (by omega : 0 < min (r - l) threads)
  exact ⟨by omega, by omega, by omega, by omega⟩

/-- **No more is formed than words and threads together**, whichever partitions the tasks get to
and whatever is left to the sequential sort. -/
theorem quicksortParallelRecursive_keepsInts (threshold : ℤ) (σ : Choices TaskChoice)
    (left right : ℤ) (h0 : 0 ≤ left) (hthreads : ∀ π, right + (σ π).team.threads ≤ up) :
    KeepsInts up (quicksortParallelRecursive mem threshold σ left right) := by
  revert σ
  induction left, right using range_induction with
  | step left right ih =>
    intro σ hthreads
    rcases le_or_gt (right - left) 1 with h | h
    · rw [quicksortParallelRecursive_of_le mem threshold σ h]
      exact Keeps.pure _
    · have hsum : right + σ.here.team.threads ≤ up := hthreads []
      have hpos := σ.here.team.pos
      by_cases hsmall : right - left ≤ threshold
      · rw [quicksortParallelRecursive_of_le_threshold mem threshold σ h hsmall]
        refine (int_keepsInts (by omega) (by omega)).bind fun _ _ => ?_
        exact quickSortRecursive_keeps (sortNotes_intIn (-1) up) left (right - 1)
          (Set.subset_univ _) (by omega) (by omega)
      · rw [quicksortParallelRecursive_of_tasks mem threshold σ h hsmall]
        have hmin := chunks_eq_min σ.here.team (right - left)
        have hround := mul_tdiv_round_up (by omega : 0 ≤ right - left) (chunks_pos σ.here.team h)
        have hmod := Int.emod_lt_of_pos (-(right - left))
          (by omega : 0 < chunks σ.here.team (right - left))
        refine (parSortPartition_keepsInts mem σ.here.team h0 h (by omega) (by omega)
          (by rw [chunkSize, hround]; omega)).bind fun s _ => ?_
        obtain ⟨hlo, hlt, hhi⟩ := parSortPartition_bounds mem σ.here.team h s
        generalize (parSortPartition mem σ.here.team left right).val s = m at *
        have hfirst : ∀ π, m.1 + (σ.first π).team.threads ≤ up := fun π =>
          (Int.add_le_add_right (hlt.le.trans hhi) _).trans (hthreads (true :: π))
        exact Keeps.par (ih left m.1 (by omega) h0 σ.first hfirst)
          (ih m.2 right (by omega) (by omega) σ.second fun π => hthreads (false :: π))

/-- What a turn of the counting loop reports last of its bounds. -/
theorem countChunk_reports (hle : left ≤ right) (pivot : Ptr) (hws : 0 ≤ ws) (id : ℕ)
    (n : Side → ℤ → ℤ) (s : Machine Call Ptr) :
    .note (.int (left + (id + 1) * ws)) ∈
      ((countChunk mem pivot left right ws id n).exec s).trace := by
  rw [countChunk_eq, Prog.bind_exec]
  exact (tallyChunk_local mem hle pivot hws id n).mem_trace List.mem_cons_self

/-- A call reports the sum that the chunk size is taken from, and where the last chunk would
end. -/
theorem parSortPartition_reports (h : 1 < right - left) (s : Machine Call Ptr) :
    .note (.int (right - left + chunks team (right - left))) ∈
        ((parSortPartition mem team left right).exec s).trace ∧
      .note (.int (left + chunks team (right - left) * chunkSize team (right - left))) ∈
        ((parSortPartition mem team left right).exec s).trace := by
  have hle : left ≤ right := by omega
  have hp := chunks_pos team h
  have hws := chunkSize_nonneg team h
  rw [parSortPartition_of_lt mem team h]
  refine ⟨?_, ?_⟩
  · rw [Prog.bind_exec, Prog.bind_exec, Prog.bind_exec]
    exact (distribute_local mem team hle _ hws).mem_trace
      (List.mem_cons_of_mem _ List.mem_cons_self)
  · -- the last chunk is served by the counting loop
    have hlast : (chunks team (right - left)).toNat - 1 ∈
        team.countOrder.order (chunks team (right - left)).toNat :=
      team.countOrder.mem_order.mpr (by omega)
    have hid : (((chunks team (right - left)).toNat - 1 : ℕ) : ℤ) + 1 =
        chunks team (right - left) := by omega
    rw [Prog.bind_exec, Prog.bind_exec, Prog.bind_exec, distribute, Prog.bind_exec,
      Prog.bind_exec, Prog.bind_exec]
    refine (Local.pure Set.univ _).mem_trace ?_
    refine (copyBack_local left right _).mem_trace ?_
    refine (Local.forEach (fun id _ temp =>
      scatterChunk_local mem hle _ hws _ _ id temp) _).mem_trace ?_
    refine Local.mem_trace_forEach (fun id _ n => countChunk_local mem hle _ hws id n) hlast
      (fun n s' => ?_) _ _
    have hreport := countChunk_reports mem hle ((parPivotSelect mem left right).val s) hws
      ((chunks team (right - left)).toNat - 1) n s'
    rwa [hid] at hreport

/-- **When the numbers of a call are `int`s**: the length of the range and the number of chunks
together must be one, and so must the end of the range when its length is rounded up to a multiple
of the number of chunks. -/
theorem parSortPartition_ints_iff (mem : Mem) (team : Team) {left right : ℤ} (h0 : 0 ≤ left)
    (h : 2 ≤ right - left) (hright : right ≤ 2 ^ 31 - 1) (words : ℤ → Ptr) :
    (∀ v, .note (.int v) ∈ ((parSortPartition mem team left right).exec ⟨words, []⟩).trace →
      IsInt v) ↔
    right - left + min (right - left) team.threads ≤ 2 ^ 31 - 1 ∧
      right + (-(right - left)) % min (right - left) team.threads < 2 ^ 31 := by
  have hp := chunks_pos team (by omega : 1 < right - left)
  have hround := mul_tdiv_round_up (by omega : 0 ≤ right - left) hp
  rw [← chunks_eq_min]
  refine ⟨fun hall => ?_, ?_⟩
  · obtain ⟨hceil, hlast⟩ := parSortPartition_reports mem team (by omega : 1 < right - left)
      ⟨words, []⟩
    have hceil' := (hall _ hceil).2
    have hlast' := (hall _ hlast).2
    rw [chunkSize, hround] at hlast'
    exact ⟨hceil', by omega⟩
  · rintro ⟨hceil, hlast⟩ v hv
    have hkeeps : KeepsInts (2 ^ 31 - 1) (parSortPartition mem team left right) :=
      parSortPartition_keepsInts mem team h0 (by omega) hright hceil
        (by rw [chunkSize, hround]; omega)
    obtain ⟨hlo, hup⟩ := hkeeps.int_bounds hv
    exact ⟨by omega, hup⟩

/-- Two words and one thread. -/
theorem parSortPartition_ints_iff_two :
    (∀ v, .note (.int v) ∈ ((parSortPartition [98, 0, 97, 0] .solo 0 2).exec
        ⟨fun i => (2 * i).toNat, []⟩).trace → IsInt v) ↔
      (2 : ℤ) - 0 + min (2 - 0) 1 ≤ 2 ^ 31 - 1 ∧ (2 : ℤ) + (-(2 - 0)) % min (2 - 0) 1 < 2 ^ 31 :=
  parSortPartition_ints_iff _ .solo (le_refl 0) (by decide) (by decide) _

/-- The longest range, and two threads: `n + p` is `2 ^ 31 + 1`. -/
theorem parSortPartition_ints_overflow :
    ¬ ∀ v, .note (.int v) ∈ ((parSortPartition [97, 0] { Team.solo with
        threads := 2, pos := by decide } 0 (2 ^ 31 - 1)).exec ⟨fun _ => 0, []⟩).trace →
      IsInt v := by
  intro hall
  have hreport := (parSortPartition_reports [97, 0] { Team.solo with
    threads := 2, pos := by decide } (by decide : (1 : ℤ) < 2 ^ 31 - 1 - 0) ⟨fun _ => 0, []⟩).1
  exact absurd (hall _ hreport).2 (by decide)

end Partition

end EfficientDictionary
