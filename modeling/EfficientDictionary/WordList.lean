import EfficientDictionary.Pack
import EfficientDictionary.ParallelSort
import EfficientDictionary.InsertionSort
import EfficientDictionary.Tokenizer
import EfficientDictionary.Unique

/-!
# WordList

The main function: tokenize, sort, drop duplicates, pack. The sort is a parameter
(`wordListWith`), since the source lists three alternatives to the one it calls; `wordList`
is the function as it stands.

Memory is the document followed by whatever lies `beyond` it. The timing output is left
out, and `words` and `count` are taken to be non-null, as they are written without a check
at the end.

`wordListWith_strings` says what every sort leads to. From it follow the correctness of
`WordList` and the equality of the results of all sorts.
-/

namespace EfficientDictionary

/-! ## Definitions -/

/-- `ERR_SAFE_ALLOC_MEM` -/
def errSafeAllocMem : ℕ := 301

/-- What the two calls of `malloc` return. -/
structure Mallocs where
  /-- the word array with its initial content, or `NULL` -/
  wordArray : Option (ℤ → Ptr)
  /-- whether the block for the result is there -/
  strBlock : Bool

/-- What the caller finds afterwards, and the string calls made on the way. -/
structure Outcome where
  /-- the memory at `*doc` -/
  doc : Option Mem
  /-- the block at `*words`, or `NULL` -/
  words : Option (List Cell)
  /-- `*count` -/
  count : ℕ
  /-- the string calls made after tokenizing, latest first -/
  calls : List Call

/-- The strings the caller reads at `(*words)[0], …, (*words)[*count - 1]`. -/
def Outcome.strings (o : Outcome) : List (Option (List UInt8)) :=
  (List.range o.count).map fun i => o.words.bind fun block => wordAt block i

/-- The result proper, without the calls. -/
def Outcome.result (o : Outcome) : Option Mem × Option (List Cell) × ℕ :=
  (o.doc, o.words, o.count)

/-- The steps that work on the word array: fill it, sort it, filter it. The result is
`unique_count`. -/
def fillSortUnique (sort : Mem → ℕ → CProg Ptr PUnit) (mem : Mem) (docLen wordCount : ℕ) :
    CProg Ptr ℕ := do
  let _ ← collectWords mem docLen
  sort mem wordCount
  uniqueWords mem wordCount

/-- `WordList` with any sort -/
def wordListWith (sort : Mem → ℕ → CProg Ptr PUnit) (heap : Mallocs) (doc : Option Mem)
    (docLen : ℕ) : Except ℕ Outcome :=
  match doc with
  | none => .ok ⟨none, none, 0, []⟩
  | some mem =>
    if docLen = 0 then
      .ok ⟨some mem, none, 0, []⟩
    else
      let st := countWords mem docLen
      if st.wordCount = 0 then
        .ok ⟨some st.mem, none, 0, []⟩
      else
        match heap.wordArray with
        | none => .error errSafeAllocMem
        | some array =>
          let sorted := (fillSortUnique sort st.mem docLen st.wordCount).exec ⟨array, []⟩
          let uniqueCount := (fillSortUnique sort st.mem docLen st.wordCount).val ⟨array, []⟩
          if heap.strBlock then
            let packed := packBlock st.mem sorted.cells uniqueCount
            .ok ⟨some st.mem, some packed.1, uniqueCount, packed.2 ++ notes sorted.trace⟩
          else
            .error errSafeAllocMem

/-- `WordList` -/
def wordList : Mallocs → Option Mem → ℕ → Except ℕ Outcome := wordListWith quickSortWords

/-! ## What every sort leads to -/

/-- `sort` sorts every array of `count` words. -/
def SortsArray (sort : Mem → ℕ → CProg Ptr PUnit) (mem : Mem) (count : ℕ) : Prop :=
  ∀ s : Machine Call Ptr, Sorts (cstr mem) 0 count s.cells ((sort mem count).exec s).cells

/-- `sort` sorts every array whose length is an `int`. -/
def SortsWords (sort : Mem → ℕ → CProg Ptr PUnit) : Prop :=
  ∀ (mem : Mem) (count : ℕ), count < 2 ^ 31 → ∀ s : Machine Call Ptr,
    Sorts (cstr mem) 0 count s.cells ((sort mem count).exec s).cells

section WordList

variable {sort : Mem → ℕ → CProg Ptr PUnit} {doc beyond : Mem}

/-- After sorting and filtering, the front of the array holds the distinct strings. -/
theorem fillSortUnique_strings (beyond : Mem)
    (hsort : SortsArray sort (terminated doc ++ beyond) (runStarts doc).length)
    (hne : runStarts doc ≠ []) (s : Machine Call Ptr) :
    stringsTo (terminated doc ++ beyond)
      ((fillSortUnique sort (terminated doc ++ beyond) doc.length
        (runStarts doc).length).exec s).cells
      ((fillSortUnique sort (terminated doc ++ beyond) doc.length
        (runStarts doc).length).val s) =
    sortedDistinct ((runStarts doc).map (cstr (terminated doc ++ beyond))) := by
  have hpos : 1 ≤ (runStarts doc).length := List.length_pos_iff.mpr hne
  have hfill := collectWords_doc doc beyond s
  simp only [fillSortUnique, Prog.bind_exec, Prog.bind_val]
  generalize (collectWords (terminated doc ++ beyond) doc.length).exec s = s₁ at *
  have hsorts := hsort s₁
  generalize (sort (terminated doc ++ beyond) (runStarts doc).length).exec s₁ = s₂ at *
  obtain ⟨hlt, hmem⟩ := uniqueWords_strings hpos s₂ hsorts.sorted
  refine eq_sortedDistinct hlt fun t => (hmem t).trans ?_
  rw [(hsorts.rearranges.perm.map _).mem_iff, hfill]

theorem runStarts_eq_nil_of_length (h : doc.length = 0) : runStarts doc = [] := by
  rw [runStarts, h]
  rfl

/-- When there is no word the result is `NULL` and `0`. -/
theorem wordListWith_of_nil (heap : Mallocs) (h : runStarts doc = []) :
    wordListWith sort heap (some (doc ++ beyond)) doc.length =
      .ok ⟨some (terminated doc ++ beyond), none, 0, []⟩ := by
  obtain ⟨hmem, hcount⟩ := countWords_doc doc beyond
  rw [h] at hcount
  by_cases hlen : doc.length = 0
  · obtain rfl := List.length_eq_zero_iff.mp hlen
    rfl
  · simp only [wordListWith, if_neg hlen, hcount, hmem]
    rfl

/-- The word array after sorting and filtering, with `unique_count`. -/
def sortedArray (sort : Mem → ℕ → CProg Ptr PUnit) (doc beyond : Mem) (array : ℤ → Ptr) :
    ℕ × Machine Call Ptr :=
  (fillSortUnique sort (terminated doc ++ beyond) doc.length (runStarts doc).length).run ⟨array, []⟩

/-- The string calls of a run that sorts, filters and packs. -/
def wordListCalls (sort : Mem → ℕ → CProg Ptr PUnit) (doc beyond : Mem) (array : ℤ → Ptr) :
    List Call :=
  let sorted := sortedArray sort doc beyond array
  (packBlock (terminated doc ++ beyond) sorted.2.cells sorted.1).2 ++ notes sorted.2.trace

/-- When there are words the result is the packed block of what is left in the array. -/
theorem wordListWith_packs (sort : Mem → ℕ → CProg Ptr PUnit) (beyond : Mem) (array : ℤ → Ptr)
    (hne : runStarts doc ≠ []) :
    wordListWith sort ⟨some array, true⟩ (some (doc ++ beyond)) doc.length =
      .ok ⟨some (terminated doc ++ beyond),
        some (packBlock (terminated doc ++ beyond) (sortedArray sort doc beyond array).2.cells
          (sortedArray sort doc beyond array).1).1,
        (sortedArray sort doc beyond array).1, wordListCalls sort doc beyond array⟩ := by
  obtain ⟨hmem, hcount⟩ := countWords_doc doc beyond
  have hlen : doc.length ≠ 0 := fun h => hne (runStarts_eq_nil_of_length h)
  have hpos : (runStarts doc).length ≠ 0 := fun h => hne (List.length_eq_zero_iff.mp h)
  simp only [wordListWith, if_neg hlen, hcount, hmem, if_neg hpos]
  rfl

/-- That block holds the distinct strings. -/
theorem wordListWith_of_ne_nil
    (hsort : SortsArray sort (terminated doc ++ beyond) (runStarts doc).length) (array : ℤ → Ptr)
    (hne : runStarts doc ≠ []) :
    wordListWith sort ⟨some array, true⟩ (some (doc ++ beyond)) doc.length =
      .ok ⟨some (terminated doc ++ beyond),
        some (packStrings (sortedDistinct ((runStarts doc).map (cstr (terminated doc ++ beyond))))),
        (sortedDistinct ((runStarts doc).map (cstr (terminated doc ++ beyond)))).length,
        wordListCalls sort doc beyond array⟩ := by
  have hstrs := fillSortUnique_strings beyond hsort hne ⟨array, []⟩
  rw [wordListWith_packs sort beyond array hne, ← hstrs, length_stringsTo, ← packBlock_cells]
  rfl

/-- Without memory for both blocks the program exits. -/
theorem wordListWith_of_null {heap : Mallocs} (hne : runStarts doc ≠ [])
    (hnull : heap.wordArray = none ∨ heap.strBlock = false) :
    wordListWith sort heap (some (doc ++ beyond)) doc.length = .error errSafeAllocMem := by
  obtain ⟨hmem, hcount⟩ := countWords_doc doc beyond
  have hlen : doc.length ≠ 0 := fun h => hne (runStarts_eq_nil_of_length h)
  have hpos : (runStarts doc).length ≠ 0 := fun h => hne (List.length_eq_zero_iff.mp h)
  simp only [wordListWith, if_neg hlen, hcount, hmem, if_neg hpos]
  rcases hnull with h | h
  · rw [h]
  · rw [h]
    cases heap.wordArray <;> rfl

/-- Any two sorts lead to the same result, or to the same exit. -/
theorem wordListWith_result_eq {sort' : Mem → ℕ → CProg Ptr PUnit}
    (hsort : SortsArray sort (terminated doc ++ beyond) (runStarts doc).length)
    (hsort' : SortsArray sort' (terminated doc ++ beyond) (runStarts doc).length)
    (heap : Mallocs) :
    (wordListWith sort heap (some (doc ++ beyond)) doc.length).map Outcome.result =
      (wordListWith sort' heap (some (doc ++ beyond)) doc.length).map Outcome.result := by
  by_cases hne : runStarts doc = []
  · rw [wordListWith_of_nil heap hne, wordListWith_of_nil heap hne]
  · obtain ⟨wordArray, strBlock⟩ := heap
    cases wordArray with
    | none =>
      rw [wordListWith_of_null hne (Or.inl rfl), wordListWith_of_null hne (Or.inl rfl)]
    | some array =>
      cases strBlock with
      | false =>
        rw [wordListWith_of_null hne (Or.inr rfl), wordListWith_of_null hne (Or.inr rfl)]
      | true =>
        rw [wordListWith_of_ne_nil hsort array hne, wordListWith_of_ne_nil hsort' array hne]
        simp only [Except.map, Outcome.result]

/-- What the caller reads in the packed block of `strs`. -/
theorem strings_packStrings {strs : List (List UInt8)} (hzero : ∀ t ∈ strs, (0 : UInt8) ∉ t)
    (doc : Option Mem) (calls : List Call) :
    Outcome.strings ⟨doc, some (packStrings strs), strs.length, calls⟩ = strs.map some := by
  refine List.ext_getElem ?_ fun i hi hi' => ?_
  · rw [Outcome.strings, List.length_map, List.length_range, List.length_map]
  · rw [List.length_map] at hi'
    simp only [Outcome.strings, List.getElem_map, List.getElem_range, Option.bind_some]
    exact wordAt_packStrings hzero hi'

theorem zero_notMem_sortedDistinct {mem : Mem} {ps : List Ptr} :
    ∀ t ∈ sortedDistinct (ps.map (cstr mem)), (0 : UInt8) ∉ t := by
  intro t ht
  obtain ⟨p, _, rfl⟩ := List.mem_map.mp (mem_sortedDistinct.mp ht)
  exact zero_notMem_cstr mem p

theorem zero_notMem_distinctWords : ∀ t ∈ distinctWords doc, (0 : UInt8) ∉ t := by
  intro t ht
  rw [distinctWords, ← @map_cstr_runStarts [] rfl] at ht
  exact zero_notMem_sortedDistinct t ht

theorem mem_distinctWords {t : List UInt8} :
    t ∈ distinctWords doc ↔ ∃ s n, IsRun doc s n ∧ t = (doc.drop s).take n :=
  mem_sortedDistinct.trans mem_map_runText

theorem distinctWords_eq_nil_iff : distinctWords doc = [] ↔ runStarts doc = [] := by
  rw [List.eq_nil_iff_forall_not_mem, List.eq_nil_iff_forall_not_mem]
  refine ⟨fun h s hs => ?_, fun h t ht => ?_⟩
  · exact h _ (mem_sortedDistinct.mpr (List.mem_map_of_mem hs))
  · obtain ⟨s, hs, _⟩ := List.mem_map.mp (mem_sortedDistinct.mp ht)
    exact h s hs

/-- In `strcmp` order the words increase. -/
theorem distinctWords_strcmp :
    (distinctWords doc).Pairwise fun a b => strcmpBytes a b < 0 := by
  refine (sortedDistinct_pairwise _).imp_of_mem fun {a b} ha hb hlt => ?_
  rw [strcmpBytes_neg_iff, toCString_of_notMem (zero_notMem_distinctWords a ha),
    toCString_of_notMem (zero_notMem_distinctWords b hb)]
  exact hlt

/-- The caller's view of a run, when the byte after the document is `0`. -/
theorem wordListWith_strings (hsort : SortsWords sort) (array : ℤ → Ptr)
    (hzero : byteAt beyond 0 = 0) (hruns : (runStarts doc).length < 2 ^ 31) :
    ∃ o, wordListWith sort ⟨some array, true⟩ (some (doc ++ beyond)) doc.length = .ok o ∧
      o.strings = (distinctWords doc).map some ∧ o.count = (distinctWords doc).length ∧
      o.doc = some (terminated doc ++ beyond) ∧ (distinctWords doc = [] → o.words = none) := by
  by_cases hne : runStarts doc = []
  · have hnil := distinctWords_eq_nil_iff.mpr hne
    refine ⟨_, wordListWith_of_nil _ hne, ?_, ?_, rfl, fun _ => rfl⟩
    · rw [hnil]
      rfl
    · rw [hnil]
      rfl
  · have hwords : sortedDistinct ((runStarts doc).map (cstr (terminated doc ++ beyond))) =
        distinctWords doc := by
      rw [map_cstr_runStarts hzero, distinctWords]
    refine ⟨_, wordListWith_of_ne_nil (hsort _ _ hruns) array hne, ?_, ?_, rfl, fun h => ?_⟩
    · rw [hwords]
      exact strings_packStrings zero_notMem_distinctWords _ _
    · rw [hwords]
    · exact absurd (distinctWords_eq_nil_iff.mp h) hne

end WordList

/-! ## The sorts of the source -/

theorem sortsWords_quickSortWords : SortsWords quickSortWords :=
  fun mem _ h s => quickSortWords_sorts mem h.le s

theorem sortsWords_insertionSort : SortsWords insertionSort :=
  fun mem count _ s => insertionSort_sorts mem count s

theorem sortsWords_quickSortWordsParallelWith (threshold : ℤ) (σ : Choices Bool) :
    SortsWords (quickSortWordsParallelWith threshold σ) :=
  fun mem _ h s => quickSortWordsParallelWith_sorts mem threshold σ h.le s

/-- The call of `quicksort_parallel` in `WordList`: the count is converted to an `int`. -/
def quicksortParallelCount (threshold : ℤ) (σ : Choices TaskChoice) (mem : Mem) (count : ℕ) :
    CProg Ptr PUnit :=
  quicksortParallelWith threshold σ mem (toInt count)

theorem sortsWords_quicksortParallelCount (threshold : ℤ) (σ : Choices TaskChoice) :
    SortsWords (quicksortParallelCount threshold σ) := by
  intro mem count h s
  rw [quicksortParallelCount, toInt_of_lt h]
  exact quicksortParallelWith_sorts mem threshold σ count s

/-! ## Results -/

/-- **WordList returns the distinct words of the document.** What the caller reads at
`(*words)[0], …` increases strictly by `strcmp`, and consists of the maximal runs of letters
and digits; without such a run `*words` is `NULL` and `*count` is `0`. The document is
changed at the first byte after each run only, which becomes `0`. -/
theorem wordList_distinct_words (doc beyond : Mem) (array : ℤ → Ptr)
    (hzero : byteAt beyond 0 = 0) (hruns : (runStarts doc).length < 2 ^ 31) :
    ∃ (o : Outcome) (strs : List (List UInt8)) (doc' : Mem),
      wordList ⟨some array, true⟩ (some (doc ++ beyond)) doc.length = .ok o ∧
      o.count = strs.length ∧ o.strings = strs.map some ∧
      strs.Pairwise (fun a b => strcmpBytes a b < 0) ∧
      (∀ t, t ∈ strs ↔ ∃ s n, IsRun doc s n ∧ t = (doc.drop s).take n) ∧
      ((¬ ∃ s n, IsRun doc s n) → o.words = none ∧ o.count = 0) ∧
      o.doc = some (doc' ++ beyond) ∧ doc'.length = doc.length ∧
      (∀ s n, IsRun doc s n → s + n < doc.length → byteAt doc' (s + n) = 0) ∧
      ∀ i < doc.length, (∀ s n, IsRun doc s n → s + n ≠ i) → byteAt doc' i = byteAt doc i := by
  obtain ⟨o, hrun, hstrings, hcount, hdoc, hnull⟩ :=
    wordListWith_strings sortsWords_quickSortWords array hzero hruns
  refine ⟨o, distinctWords doc, terminated doc, hrun, hcount, hstrings, distinctWords_strcmp,
    fun t => mem_distinctWords, fun hno => ?_, hdoc, length_terminated doc, fun s n h hlt => ?_,
    fun i hi hno => ?_⟩
  · have hnil : distinctWords doc = [] := by
      refine List.eq_nil_iff_forall_not_mem.mpr fun t ht => ?_
      obtain ⟨s, n, h, _⟩ := mem_distinctWords.mp ht
      exact hno ⟨s, n, h⟩
    refine ⟨hnull hnil, ?_⟩
    rw [hcount, hnil]
    rfl
  · rw [terminated, byteAt_zeroAt, if_pos ⟨hlt, h.endsRun⟩]
  · rw [terminated, byteAt_zeroAt, if_neg]
    rintro ⟨_, hend⟩
    obtain ⟨hout, hprev⟩ := endsRun_iff.mpr hend
    obtain ⟨s, n, hrun', hsum⟩ := exists_isRun_of_inWord hprev hout
    exact hno s n hrun' hsum

/-- The document `b a`: `a` is among the words, and the blank becomes `0`. -/
theorem wordList_distinct_words_two :
    ∃ (o : Outcome) (strs : List (List UInt8)) (doc' : Mem),
      wordList ⟨some fun _ => 0, true⟩ (some [98, 32, 97]) 3 = .ok o ∧
        o.strings = strs.map some ∧ [97] ∈ strs ∧ o.doc = some doc' ∧ byteAt doc' 1 = 0 := by
  obtain ⟨o, strs, doc', hrun, _, hstrings, _, hmem, _, hdoc, _, hends, _⟩ :=
    wordList_distinct_words [98, 32, 97] [] (fun _ => 0) rfl (by decide)
  rw [List.append_nil] at hdoc
  refine ⟨o, strs, doc', hrun, hstrings, (hmem _).mpr ⟨2, 1, ?_, rfl⟩, hdoc,
    hends 0 1 ?_ (by decide)⟩
  · exact ⟨by decide, by decide, by decide, by decide⟩
  · exact ⟨by decide, by decide, by decide, by decide⟩

/-- **The four sorts are interchangeable**: with the insertion sort, or either of the
parallel quicksorts under any threshold, schedule and numbers of threads, the document, the
block of the result byte for byte, and the count are those of `WordList`. -/
theorem wordList_sorts_agree (doc beyond : Mem) (heap : Mallocs)
    (hruns : (runStarts doc).length < 2 ^ 31) :
    (wordListWith insertionSort heap (some (doc ++ beyond)) doc.length).map Outcome.result =
      (wordList heap (some (doc ++ beyond)) doc.length).map Outcome.result ∧
    (∀ (threshold : ℤ) (σ : Choices Bool),
      (wordListWith (quickSortWordsParallelWith threshold σ) heap (some (doc ++ beyond))
        doc.length).map Outcome.result =
      (wordList heap (some (doc ++ beyond)) doc.length).map Outcome.result) ∧
    ∀ (threshold : ℤ) (σ : Choices TaskChoice),
      (wordListWith (quicksortParallelCount threshold σ) heap (some (doc ++ beyond))
        doc.length).map Outcome.result =
      (wordList heap (some (doc ++ beyond)) doc.length).map Outcome.result :=
  ⟨wordListWith_result_eq (sortsWords_insertionSort _ _ hruns)
      (sortsWords_quickSortWords _ _ hruns) heap,
    fun threshold σ => wordListWith_result_eq
      (sortsWords_quickSortWordsParallelWith threshold σ _ _ hruns)
      (sortsWords_quickSortWords _ _ hruns) heap,
    fun threshold σ => wordListWith_result_eq
      (sortsWords_quicksortParallelCount threshold σ _ _ hruns)
      (sortsWords_quickSortWords _ _ hruns) heap⟩

/-- The document `b a` with the insertion sort. -/
theorem wordList_sorts_agree_two :
    (wordListWith insertionSort ⟨some fun _ => 0, true⟩ (some [98, 32, 97]) 3).map
        Outcome.result =
      (wordList ⟨some fun _ => 0, true⟩ (some [98, 32, 97]) 3).map Outcome.result :=
  (wordList_sorts_agree [98, 32, 97] [] ⟨some fun _ => 0, true⟩ (by decide)).1

end EfficientDictionary
