import EfficientDictionary.BaselineWordList
import EfficientDictionary.IntRange

/-!
# The arrays of pointers

Both implementations ask `malloc` for an array of pointers, fill it in a scan of the document,
sort it and drop duplicates, all in place. Nothing that `malloc` has left in the array is ever
read, and no cell behind the words of the document is touched. For this the indices must be
`int`s, so the number of words is bounded.

* `WrittenFirst` — every load of a trace comes after a store to the same cell.
* `SourceSort` — the sort that `WordList` calls, and the alternatives it lists.
-/

namespace EfficientDictionary

universe u

/-! ## Written before read -/

section WrittenFirst

variable {ε : Type u} {t t' : List (Event ε)}

/-- Every load of the trace comes after a store to the same cell. -/
def WrittenFirst (t : List (Event ε)) : Prop :=
  ∀ (later earlier : List (Event ε)) (i : ℤ), t = later ++ .load i :: earlier →
    .store i ∈ earlier

theorem WrittenFirst.of_no_loads (h : ∀ i, .load i ∉ t) : WrittenFirst t := by
  rintro later earlier i rfl
  exact absurd (List.mem_append_right later List.mem_cons_self) (h i)

/-- Once all cells of `R` have been written, any accesses within `R` may follow. -/
theorem WrittenFirst.append {R : Set ℤ} (h : WrittenFirst t) (hstored : ∀ i ∈ R, .store i ∈ t)
    (hwithin : ∀ e ∈ t', e.Within R) : WrittenFirst (t' ++ t) := by
  intro later earlier i heq
  rcases List.append_eq_append_iff.mp heq with ⟨rest, hlater, hearlier⟩ | ⟨rest, ht', hrest⟩
  · exact h rest earlier i hearlier
  · cases rest with
    | nil => exact h [] earlier i hrest.symm
    | cons e rest =>
      obtain ⟨rfl, rfl⟩ := List.cons.inj hrest
      have hi : i ∈ R := hwithin (.load i) (by rw [ht']; simp)
      exact List.mem_append_right rest (hstored i hi)

end WrittenFirst

/-! ## The sorts -/

/-- The sorts that `WordList` calls or lists as alternatives, for any threshold and any
decision of the run-time system that gives a partition at most `threads` threads. -/
inductive SourceSort (threads : ℕ) : (Mem → ℕ → CProg Ptr PUnit) → Prop where
  /-- `quick_sort_words` -/
  | quickSortWords : SourceSort threads quickSortWords
  /-- `insertion_sort` -/
  | insertionSort : SourceSort threads insertionSort
  /-- `quick_sort_words_parallel` -/
  | quickSortWordsParallel (threshold : ℤ) (σ : Choices Bool) :
    SourceSort threads (quickSortWordsParallelWith threshold σ)
  /-- `quicksort_parallel` -/
  | quicksortParallel (threshold : ℤ) (σ : Choices TaskChoice)
    (hσ : ∀ π, (σ π).team.threads ≤ threads) :
    SourceSort threads (quicksortParallelCount threshold σ)

section Sorts

variable {sort : Mem → ℕ → CProg Ptr PUnit} {threads : ℕ}

theorem Icc_toInt_subset {count : ℕ} (h : ¬ count ≤ 1) :
    Set.Icc 0 (toInt (count - 1)) ⊆ Set.Ico 0 (count : ℤ) := by
  have hint := toInt_le (count - 1)
  exact Set.Icc_subset_Ico_right (by omega)

/-- Each of them keeps to the words it is given. -/
theorem SourceSort.local (h : SourceSort threads sort) (mem : Mem) (count : ℕ) :
    Local (Set.Ico 0 (count : ℤ)) (sort mem count) := by
  cases h with
  | quickSortWords =>
    refine Local.ite (fun _ => Local.pure _ _) fun hlt => ?_
    exact (quickSortRecursive_local mem 0 _).mono (Icc_toInt_subset hlt)
  | insertionSort => exact insertionSort_local mem count
  | quickSortWordsParallel threshold σ =>
    refine Local.ite (fun _ => Local.pure _ _) fun hlt => ?_
    exact (quickSortParallel_local mem threshold σ 0 _).mono (Icc_toInt_subset hlt)
  | quicksortParallel threshold σ =>
    rw [quicksortParallelCount, quicksortParallelWith]
    split_ifs
    · exact Local.pure _ _
    · exact (quicksortParallelRecursive_local mem threshold σ 0 _).mono
        (Set.Ico_subset_Ico_right (toInt_le count))

/-- Each of them computes with numbers up to the number of words and threads. -/
theorem SourceSort.keepsInts (h : SourceSort threads sort) (mem : Mem) (count : ℕ) :
    KeepsInts (count + threads) (sort mem count) := by
  have hnotes : SortNotes (fun _ => True) (Call.IntIn (-1) (count + threads)) (-1) count :=
    (sortNotes_intIn (-1) (count + threads)).narrow (le_refl _) (by omega)
  cases h with
  | quickSortWords => exact (quickSortWords_keeps hnotes).of_reports
  | insertionSort => exact insertionSort_keeps mem count fun _ _ _ heq => Call.noConfusion heq
  | quickSortWordsParallel threshold σ =>
    exact (quickSortWordsParallelWith_keeps mem threshold hnotes σ).of_reports
  | quicksortParallel threshold σ hσ =>
    have hint := toInt_le count
    rw [quicksortParallelCount, quicksortParallelWith]
    refine Keeps.ite (fun _ => Keeps.pure _) fun _ => ?_
    refine quicksortParallelRecursive_keepsInts mem threshold σ 0 _ (le_refl 0) fun π => ?_
    have hteam := hσ π
    omega

end Sorts

/-! ## The scans -/

section Scans

variable {doc beyond : Mem} {n : ℕ}

theorem collectWords_no_loads (mem : Mem) (n : ℕ) (array : ℤ → Ptr) (i : ℤ) :
    .load i ∉ ((collectWords mem n).exec ⟨array, []⟩).trace := by
  refine forEach_range_inv (f := collectStep mem) (s := ⟨array, []⟩)
    (I := fun _ _ s => .load i ∉ s.trace) List.not_mem_nil ?_
  rintro k ⟨m, inside⟩ s _ h
  rw [(collectStep_spec mem k m inside s).2]
  split_ifs
  · rw [store_exec, List.mem_cons, not_or]
    refine ⟨fun heq => ?_, h⟩
    cases heq
  · exact h

/-- The second scan of `WordList` writes every cell of the array. -/
theorem mem_collectWords (beyond : Mem) (array : ℤ → Ptr) {i : ℤ} :
    .store i ∈ ((collectWords (terminated doc ++ beyond) doc.length).exec ⟨array, []⟩).trace ↔
      i ∈ Set.Ico 0 ((runStarts doc).length : ℤ) := by
  have hstored := (collectWords_inv beyond (le_refl doc.length) ⟨array, []⟩).stored
  have hstarts : startsBelow doc doc.length = runStarts doc := rfl
  have hnil : stores (⟨array, []⟩ : Machine Call Ptr).trace = [] := rfl
  rw [hstarts, hnil, List.append_nil] at hstored
  rw [← mem_stores, hstored, List.mem_reverse, List.mem_map]
  refine ⟨?_, fun h => ⟨i.toNat, List.mem_range.mpr ?_, Int.toNat_of_nonneg h.1⟩⟩
  · rintro ⟨k, hk, rfl⟩
    exact ⟨Int.natCast_nonneg k, Int.ofNat_lt.mpr (List.mem_range.mp hk)⟩
  · obtain ⟨hlo, hhi⟩ := h
    omega

namespace Baseline

theorem scanWords_no_loads (mem : Mem) (n : ℕ) (array : ℤ → Option Ptr) (i : ℤ) :
    .load i ∉ ((scanWords mem n).exec ⟨array, []⟩).trace := by
  refine forEach_range_inv (f := scanStep) (s := ⟨array, []⟩)
    (I := fun _ _ s => .load i ∉ s.trace) List.not_mem_nil ?_
  rintro k ⟨mem, count, inside⟩ s _ h
  rw [(scanStep_spec mem k count inside s).2]
  split_ifs
  · rw [store_exec, List.mem_cons, not_or]
    refine ⟨fun heq => ?_, h⟩
    cases heq
  · exact h

end Baseline

/-- A scan that has written the cells of `R`, and nothing else, and a program that keeps to
them. -/
theorem accesses_of_local {ε α β : Type} {R : Set ℤ} {m : Prog ε α β} (hlocal : Local R m)
    {s : Machine ε α} (hloads : ∀ i, .load i ∉ s.trace)
    (hstores : ∀ i, .store i ∈ s.trace ↔ i ∈ R) :
    (∀ e ∈ (m.exec s).trace, e.Within R) ∧ WrittenFirst (m.exec s).trace := by
  obtain ⟨t, htrace, hwithin⟩ := hlocal.traced s
  rw [htrace]
  refine ⟨List.forall_mem_append.mpr ⟨hwithin, fun e he => ?_⟩, ?_⟩
  · cases e with
    | load i => exact absurd he (hloads i)
    | store i => exact (hstores i).mp he
    | note e => trivial
  · exact (WrittenFirst.of_no_loads hloads).append (fun i hi => (hstores i).mpr hi) hwithin

end Scans

/-! ## The results -/

/-- **WordList uses its array of pointers safely**, whichever sort it calls, as long as there are
fewer words and threads together than `2 ^ 31`: no `int` overflows, it touches the cells of its
words only, reads none before writing it, and what `malloc` has left in the array has no influence
on what is found. -/
theorem wordArray_accesses {sort : Mem → ℕ → CProg Ptr PUnit} {threads : ℕ}
    (hsort : SourceSort threads sort) (doc beyond : Mem)
    (hsize : (runStarts doc).length + threads < 2 ^ 31) (array array' : ℤ → Ptr) :
    let st := countWords (doc ++ beyond) doc.length
    let r := (fillSortUnique sort st.mem doc.length st.wordCount).run ⟨array, []⟩
    let r' := (fillSortUnique sort st.mem doc.length st.wordCount).run ⟨array', []⟩
    (∀ v, .note (.int v) ∈ r.2.trace → IsInt v) ∧
      (∀ e ∈ r.2.trace, e.Within (Set.Ico 0 (st.wordCount : ℤ))) ∧ WrittenFirst r.2.trace ∧
      (st.wordCount ≠ 0 → r.1 ≤ st.wordCount) ∧
      r.1 = r'.1 ∧ ∀ i ∈ Set.Ico 0 (st.wordCount : ℤ), r.2.cells i = r'.2.cells i := by
  obtain ⟨hmem, hcount⟩ := countWords_doc doc beyond
  dsimp only
  rw [hmem, hcount]
  generalize hscan : collectWords (terminated doc ++ beyond) doc.length = scan
  generalize hn : (runStarts doc).length = n
  have hlocal : Local (Set.Ico 0 (n : ℤ)) (do
      sort (terminated doc ++ beyond) n
      uniqueWords (terminated doc ++ beyond) n) :=
    (hsort.local _ n).bind fun _ => uniqueWords_local _ n
  have hfill : fillSortUnique sort (terminated doc ++ beyond) doc.length n =
      (do let _ ← scan
          sort (terminated doc ++ beyond) n
          uniqueWords (terminated doc ++ beyond) n) := by
    rw [fillSortUnique, hscan]
  have hsame : ∀ i ∈ Set.Ico 0 (n : ℤ), (scan.exec ⟨array, []⟩).cells i =
      (scan.exec ⟨array', []⟩).cells i := by
    have hwords := collectWords_doc doc beyond ⟨array, []⟩
    have hwords' := collectWords_doc doc beyond ⟨array', []⟩
    rw [hscan, hn] at hwords hwords'
    exact fun i hi => eq_of_slice_eq (hwords.trans hwords'.symm) hi.1 hi.2
  obtain ⟨hwithin, hfirst⟩ := accesses_of_local hlocal
    (s := scan.exec ⟨array, []⟩) (fun i => by rw [← hscan]; exact collectWords_no_loads _ _ _ i)
    (fun i => by rw [← hscan, ← hn]; exact mem_collectWords beyond array)
  obtain ⟨hval, hcells⟩ := hlocal.depends _ _ hsame
  have hkeeps : KeepsInts (n + threads) (fillSortUnique sort (terminated doc ++ beyond) doc.length
      n) := by
    refine (collectWords_keeps _ _).bind fun _ _ => (hsort.keepsInts _ n).bind fun _ _ => ?_
    exact (uniqueWords_keeps fun _ _ _ _ _ heq => Call.noConfusion heq).of_reports
  refine ⟨fun v hv => ?_, ?_⟩
  · obtain ⟨hlo, hup⟩ := hkeeps.int_bounds hv
    exact ⟨by omega, by omega⟩
  rw [hfill]
  refine ⟨hwithin, hfirst, fun hpos => ?_, hval, hcells⟩
  have hinv := uniqueWords_inv (terminated doc ++ beyond) (Nat.one_le_iff_ne_zero.mpr hpos)
    ((sort (terminated doc ++ beyond) n).exec (scan.exec ⟨array, []⟩))
  exact hinv.count.le.trans (length_firsts_le _ _ n)

/-- The document `b a`, with the insertion sort. -/
theorem wordArray_accesses_two :
    WrittenFirst ((fillSortUnique insertionSort [98, 0, 97] 3 2).exec ⟨fun _ => 7, []⟩).trace :=
  (wordArray_accesses (@SourceSort.insertionSort 0) [98, 32, 97] [] (by decide)
    (fun _ => 7) fun _ => 0).2.2.1

namespace Baseline

/-- After the scan the baseline is nothing but its sort. -/
theorem wordListBaseLine_run {mem mem' : Mem} {docLen n : ℕ} {inside : Bool}
    {s : Machine Call (Option Ptr)} (hscan : (scanWords mem docLen).val s = ⟨mem', n, inside⟩) :
    (wordListBaseLine mem docLen).run s =
      ((mem', (sequentialSortUniqueWords mem' n).val ((scanWords mem docLen).exec s)),
        (sequentialSortUniqueWords mem' n).exec ((scanWords mem docLen).exec s)) := by
  refine Prod.ext ?_ ?_
  · change (wordListBaseLine mem docLen).val s = _
    simp only [wordListBaseLine, Prog.bind_val, Prog.pure_val, hscan]
  · change (wordListBaseLine mem docLen).exec s = _
    simp only [wordListBaseLine, Prog.bind_exec, Prog.pure_exec, hscan]

/-- The baseline computes with numbers up to the number of its words. -/
theorem wordListBaseLine_ints (doc beyond : Mem) (array : ℤ → Option Ptr) {v : ℤ}
    (hv : .note (.int v) ∈ ((wordListBaseLine (doc ++ beyond) doc.length).exec ⟨array, []⟩).trace) :
    -1 ≤ v ∧ v ≤ (runStarts doc).length := by
  obtain ⟨hstate, -⟩ := scanWords_doc doc beyond array
  have hrun := congrArg Prod.snd (wordListBaseLine_run hstate)
  have hscan : Guarded Set.univ (fun _ => True) (Call.IntIn (-1) (runStarts doc).length)
      ((scanWords (doc ++ beyond) doc.length).exec ⟨array, []⟩) :=
    scanWords_keeps _ _ _ ⟨fun _ _ => trivial, fun _ he => absurd he List.not_mem_nil⟩
  rw [Prog.exec, hrun] at hv
  exact (sequentialSortUniqueWords_keeps (sortNotes_intIn (-1) (runStarts doc).length) _ _
    hscan).reported _ hv v rfl

/-- The baseline touches the cells of its words only, and reads none before writing it. -/
theorem wordListBaseLine_accesses (doc beyond : Mem) (array : ℤ → Option Ptr) :
    let r := (wordListBaseLine (doc ++ beyond) doc.length).run ⟨array, []⟩
    (∀ e ∈ r.2.trace, e.Within (Set.Ico 0 ((runStarts doc).length : ℤ))) ∧
      WrittenFirst r.2.trace := by
  obtain ⟨hstate, -⟩ := scanWords_doc doc beyond array
  dsimp only
  rw [wordListBaseLine_run hstate]
  exact accesses_of_local (sequentialSortUniqueWords_local _ _)
    (scanWords_no_loads (doc ++ beyond) doc.length array)
    (scanWords_inv beyond (le_refl doc.length) array).stores

/-- **So does the baseline**, for fewer than `2 ^ 31` words: no `int` overflows, the cells of its
words are all it touches, and it reads none before writing it, so what `malloc` has left in the
array has no influence. -/
theorem words_accesses (doc beyond : Mem) (hruns : (runStarts doc).length < 2 ^ 31)
    (array array' : ℤ → Option Ptr) :
    let r := (wordListBaseLine (doc ++ beyond) doc.length).run ⟨array, []⟩
    let r' := (wordListBaseLine (doc ++ beyond) doc.length).run ⟨array', []⟩
    (∀ v, .note (.int v) ∈ r.2.trace → IsInt v) ∧
      (∀ e ∈ r.2.trace, e.Within (Set.Ico 0 ((runStarts doc).length : ℤ))) ∧
      WrittenFirst r.2.trace ∧ r.1 = r'.1 ∧
      ∀ i ∈ Set.Ico 0 ((runStarts doc).length : ℤ), r.2.cells i = r'.2.cells i := by
  obtain ⟨hstate, hwords⟩ := scanWords_doc doc beyond array
  obtain ⟨hstate', hwords'⟩ := scanWords_doc doc beyond array'
  obtain ⟨hwithin, hfirst⟩ := wordListBaseLine_accesses doc beyond array
  obtain ⟨hval, hcells⟩ := (sequentialSortUniqueWords_local (terminated doc ++ beyond)
    (runStarts doc).length).depends _ _ fun i hi =>
      eq_of_slice_eq (hwords.trans hwords'.symm) hi.1 hi.2
  refine ⟨fun v hv => ?_, hwithin, hfirst, ?_⟩
  · obtain ⟨hlo, hup⟩ := wordListBaseLine_ints doc beyond array hv
    exact ⟨by omega, by omega⟩
  · rw [wordListBaseLine_run hstate, wordListBaseLine_run hstate']
    exact ⟨Prod.ext rfl hval, hcells⟩

/-- The document `b a`. -/
theorem words_accesses_two :
    WrittenFirst ((wordListBaseLine [98, 32, 97] 3).exec ⟨fun _ => none, []⟩).trace :=
  (words_accesses [98, 32, 97] [] (by decide) (fun _ => none) fun _ => none).2.2.1

end Baseline

end EfficientDictionary
