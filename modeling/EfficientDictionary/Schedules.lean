import EfficientDictionary.PartitionTasks
import EfficientDictionary.WordList

/-!
# WordList under every schedule

`WordList` with one of the parallel sorts, the accesses of whose tasks a scheduler
interleaves as it likes. `ScheduledBy` says that a sort is the outcome of such schedules, a
new one at every call. All of them sort, so all of them give the dictionary that the
sequential sort gives.
-/

namespace EfficientDictionary

/-- Every run of `sort` on `count` words is what some schedule of the text `c` leads to. -/
def ScheduledBy (threads : Choices Threads) (c : ℕ → SortCode PUnit)
    (sort : Mem → ℕ → CProg Ptr PUnit) (count : ℕ) : Prop :=
  ∀ (mem : Mem) (s : Machine Call Ptr), ∃ n w w', words w = s.cells ∧
    Steps (Tasks.bodies mem threads) n (c count).process w .done w' ∧
    words w' = ((sort mem count).exec s).cells

/-- The call of `quicksort_parallel` in `WordList`: the count is converted to an `int`. -/
def Tasks.quicksortParallelCount (threshold : ℤ) (count : ℕ) : SortCode PUnit :=
  Tasks.quicksortParallelWith threshold (toInt count)

section Schedules

variable {threads : Choices Threads} {threshold : ℤ} {sort : Mem → ℕ → CProg Ptr PUnit} {count : ℕ}

theorem ScheduledBy.sorts_of_tasks (hcount : count < 2 ^ 31)
    (h : ScheduledBy threads (Tasks.quickSortWordsParallelWith threshold) sort count) (mem : Mem) :
    SortsArray sort mem count := by
  intro s
  obtain ⟨n, w, w', hw, hsteps, hw'⟩ := h mem s
  have hsettles := (quickSortWordsParallelWith_follows mem threads threshold (fun _ => true)
    hcount).settles w s.trace
  have hsorts := quickSortWordsParallelWith_sorts mem threshold (fun _ => true) hcount.le s
  rw [hsettles.eq_of_steps hsteps, words_setWords, hw] at hw'
  rwa [← hw']

theorem ScheduledBy.sorts_of_partitions (hcount : ∀ π, count + (threads π).1 ≤ 2 ^ 31 - 1)
    (h : ScheduledBy threads (Tasks.quicksortParallelCount threshold) sort count) (mem : Mem) :
    SortsArray sort mem count := by
  intro s
  obtain ⟨n, w, w', hw, hsteps, hw'⟩ := h mem s
  have hlt : count < 2 ^ 31 := by
    have hpos := (threads []).2
    have hsum := hcount []
    omega
  rw [Tasks.quicksortParallelCount, toInt_of_lt hlt] at hsteps
  obtain ⟨v, hrun, hcells⟩ := quicksortParallelWith_effect mem threads threshold count hcount w
  obtain ⟨σ⟩ : Nonempty (Choices TaskChoice) := ⟨fun _ => ⟨true, .solo⟩⟩
  have hsorts := quicksortParallelWith_sorts mem threshold σ count s
  rw [hrun.settles.eq_of_steps hsteps, hcells σ s hw] at hw'
  rwa [hw'] at hsorts

/-- The sequential orders of the tasks are schedules. -/
theorem scheduledBy_quickSortWordsParallelWith (threads : Choices Threads) (threshold : ℤ)
    (σ : Choices Bool) (hcount : count < 2 ^ 31) :
    ScheduledBy threads (Tasks.quickSortWordsParallelWith threshold)
      (quickSortWordsParallelWith threshold σ) count := by
  intro mem s
  obtain ⟨n, hsteps⟩ := ((quickSortWordsParallelWith_follows mem threads threshold σ
    hcount).settles (wordMemory s.cells) s.trace).exists_steps
  exact ⟨n, _, _, rfl, hsteps, rfl⟩

/-- **The dictionary does not depend on the schedule.** If the sort in `WordList` is the
outcome of any interleavings of the accesses of the tasks of one of the parallel quicksorts,
the document, the block of the result byte for byte, and the count are those of `WordList`. The
number of words is an `int`, and with `quicksort_parallel` it still is when a number of threads
is added to it. -/
theorem wordList_everySchedule (doc beyond : Mem) (heap : Mallocs)
    (hruns : (runStarts doc).length < 2 ^ 31)
    (hsort : ScheduledBy threads (Tasks.quickSortWordsParallelWith threshold) sort
        (runStarts doc).length ∨
      (∀ π, (runStarts doc).length + (threads π).1 ≤ 2 ^ 31 - 1) ∧
        ScheduledBy threads (Tasks.quicksortParallelCount threshold) sort
          (runStarts doc).length) :
    (wordListWith sort heap (some (doc ++ beyond)) doc.length).map Outcome.result =
      (wordList heap (some (doc ++ beyond)) doc.length).map Outcome.result := by
  refine wordListWith_result_eq ?_ (sortsWords_quickSortWords _ _ hruns) heap
  rcases hsort with h | ⟨hthreads, h⟩
  · exact h.sorts_of_tasks hruns _
  · exact h.sorts_of_partitions hthreads _

/-- The document `b a`, sorted by one task after the other. -/
theorem wordList_everySchedule_two :
    (wordListWith (quickSortWordsParallelWith 5000 fun _ => false) ⟨some fun _ => 0, true⟩
        (some [98, 32, 97]) 3).map Outcome.result =
      (wordList ⟨some fun _ => 0, true⟩ (some [98, 32, 97]) 3).map Outcome.result :=
  wordList_everySchedule [98, 32, 97] [] ⟨some fun _ => 0, true⟩ (by decide)
    (Or.inl (scheduledBy_quickSortWordsParallelWith (fun _ => ⟨1, le_refl 1⟩) 5000
      (fun _ => false) (by decide)))

end Schedules

end EfficientDictionary
