import EfficientDictionary.Baseline
import EfficientDictionary.WordList

/-!
# WordListBaseLine

The baseline tokenizes in a single pass, which stores a pointer to each word and terminates
the words as it goes, and then calls `SequentialSortUniqueWords`. Its array has room for
`doc_len / 2` pointers; here the array is unbounded and the trace tells which cells were
written.

* `scanWords_inv` — the single pass and the two passes of `WordList` see the same runs.
* `baseline_eq_wordList` — the two functions have the same result.
* `two_mul_startsBelow_le`, `startsBelow_tight` — how many words can be begun in `n` bytes,
  and which texts reach that number.
-/

namespace EfficientDictionary

namespace Baseline

variable {doc beyond : Mem} {n : ℕ}

/-! ## Definitions -/

/-- The variables of the scan. -/
structure ScanState where
  /-- the document and whatever follows it -/
  mem : Mem
  /-- `*count` -/
  count : ℕ
  /-- `is_prev_valid` -/
  isPrevValid : Bool

/-- One turn of the scan. -/
def scanStep (i : ℕ) (st : ScanState) : CProg (Option Ptr) ScanState :=
  let alnum := isalnum (schar (byteAt st.mem i))
  if !st.isPrevValid then
    if alnum then do
      store st.count (some i)
      pure { st with count := st.count + 1, isPrevValid := true }
    else
      pure st
  else if alnum then
    pure st
  else
    pure { st with mem := st.mem.set i 0, isPrevValid := false }

/-- The scan. -/
def scanWords (mem : Mem) (docLen : ℕ) : CProg (Option Ptr) ScanState :=
  forEach (List.range docLen) ⟨mem, 0, false⟩ scanStep

/-- `max_words` -/
def maxWords (docLen : ℕ) : ℕ := docLen / 2

/-- `WordListBaseLine`; it returns the memory at `*doc` and `*count`. -/
def wordListBaseLine (mem : Mem) (docLen : ℕ) : CProg (Option Ptr) (Mem × ℕ) := do
  let st ← scanWords mem docLen
  let count ← sequentialSortUniqueWords st.mem st.count
  pure (st.mem, count)

/-- The strings the caller reads at `(*words)[0], …, (*words)[count - 1]`. -/
def readStrings (mem : Mem) (words : ℤ → Option Ptr) (count : ℕ) : List (Option (List UInt8)) :=
  (slice words 0 count).map fun word => word.map (cstr mem)

/-! ## The scan -/

/-- A turn in one formula: a word is begun at a letter outside a word, and ended at another
byte inside one. -/
theorem scanStep_spec (mem : Mem) (i k : ℕ) (b : Bool) (s : Machine Call (Option Ptr)) :
    (scanStep i ⟨mem, k, b⟩).val s =
      ⟨if isLetter (byteAt mem i) = false ∧ b = true then mem.set i 0 else mem,
        if isLetter (byteAt mem i) = true ∧ b = false then k + 1 else k,
        isLetter (byteAt mem i)⟩ ∧
    (scanStep i ⟨mem, k, b⟩).exec s =
      if isLetter (byteAt mem i) = true ∧ b = false then
        (store (k : ℤ) (some i) : CProg _ PUnit).exec s
      else s := by
  have hletter : isalnum (schar (byteAt mem i)) = isLetter (byteAt mem i) := isalnum_schar _
  rw [scanStep, hletter]
  cases isLetter (byteAt mem i) <;> cases b <;> simp

/-- After `n` bytes: the words ended so far are terminated, the words begun so far are
counted and stored, and nothing else has been stored. -/
structure ScanInv (doc beyond : Mem) (n : ℕ) (st : ScanState) (s : Machine Call (Option Ptr)) :
    Prop where
  /-- the variables -/
  state : st = ⟨zeroAt (endsRun doc) n (doc ++ beyond), (startsBelow doc n).length, inWord doc n⟩
  /-- the array -/
  words : slice s.cells 0 (startsBelow doc n).length = (startsBelow doc n).map some
  /-- the stores -/
  stores : ∀ i : ℤ, .store i ∈ s.trace ↔ 0 ≤ i ∧ i < (startsBelow doc n).length

theorem scanStep_inv {st : ScanState} {s : Machine Call (Option Ptr)} (hn : n < doc.length)
    (h : ScanInv doc beyond n st s) :
    ScanInv doc beyond (n + 1) ((scanStep n st).val s) ((scanStep n st).exec s) := by
  obtain ⟨rfl, hwords, hstores⟩ := h
  obtain ⟨hval, hexec⟩ := scanStep_spec (zeroAt (endsRun doc) n (doc ++ beyond)) n
    (startsBelow doc n).length (inWord doc n) s
  rw [isLetter_zeroAt hn] at hval hexec
  rw [hval, hexec]
  refine ⟨?_, ?_, fun i => ?_⟩
  · rw [length_startsBelow_succ, zeroAt_endsRun_succ]
    rfl
  · rw [startsBelow_succ]
    by_cases h : startsRun doc n = true
    · rw [if_pos (startsRun_iff.mpr h), if_pos h, List.length_append, List.length_singleton,
        Nat.cast_succ, store_exec, List.map_append, ← hwords]
      exact slice_update_right (Int.natCast_nonneg _) _
    · rw [if_neg (mt startsRun_iff.mp h), if_neg h, List.append_nil]
      exact hwords
  · rw [length_startsBelow_succ]
    by_cases h : startsRun doc n = true
    · rw [if_pos (startsRun_iff.mpr h), if_pos (startsRun_iff.mpr h), store_exec, List.mem_cons,
        hstores, Event.store.injEq]
      omega
    · rw [if_neg (mt startsRun_iff.mp h), if_neg (mt startsRun_iff.mp h)]
      exact hstores i

/-- **The scan meets every run once**: at its start, where it stores a pointer, and at its
end, where it writes a `0`. -/
theorem scanWords_inv (beyond : Mem) (hn : n ≤ doc.length) (array : ℤ → Option Ptr) :
    ScanInv doc beyond n ((scanWords (doc ++ beyond) n).val ⟨array, []⟩)
      ((scanWords (doc ++ beyond) n).exec ⟨array, []⟩) := by
  refine forEach_range_inv (I := ScanInv doc beyond) ?_ fun i st s hi h => scanStep_inv (by omega) h
  refine ⟨by rw [zeroAt_zero]; rfl, rfl, fun i => iff_of_false List.not_mem_nil ?_⟩
  rintro ⟨hlo, hhi⟩
  exact absurd hhi (not_lt.mpr hlo)

/-- The scan reports nothing. -/
theorem scanWords_keeps {R : Set ℤ} {Q : Call → Prop} (mem : Mem) (docLen : ℕ) :
    Keeps R (fun _ => True) Q (scanWords mem docLen) := by
  refine Keeps.forEach (fun i _ st => ?_) _
  refine Keeps.ite (fun _ => Keeps.ite (fun _ => ?_) fun _ => Keeps.pure _) fun _ =>
    Keeps.ite (fun _ => Keeps.pure _) fun _ => Keeps.pure _
  exact (Keeps.store fun _ => trivial).bind fun _ _ => Keeps.pure _

/-- What the scan leaves for the sort. -/
theorem scanWords_doc (doc beyond : Mem) (array : ℤ → Option Ptr) :
    (scanWords (doc ++ beyond) doc.length).val ⟨array, []⟩ =
        ⟨terminated doc ++ beyond, (runStarts doc).length, inWord doc doc.length⟩ ∧
      slice ((scanWords (doc ++ beyond) doc.length).exec ⟨array, []⟩).cells 0
        (runStarts doc).length = (runStarts doc).map some := by
  have hinv := scanWords_inv beyond (le_refl doc.length) array
  refine ⟨?_, hinv.words⟩
  rw [hinv.state, zeroAt_append]
  rfl

/-! ## The result -/

/-- The baseline leaves the terminated document, and pointers to its distinct words. -/
theorem wordListBaseLine_spec (array : ℤ → Option Ptr) (hzero : byteAt beyond 0 = 0)
    (hruns : (runStarts doc).length < 2 ^ 31) :
    (wordListBaseLine (doc ++ beyond) doc.length).val ⟨array, []⟩ =
        (terminated doc ++ beyond, (distinctWords doc).length) ∧
      readStrings (terminated doc ++ beyond)
        ((wordListBaseLine (doc ++ beyond) doc.length).exec ⟨array, []⟩).cells
        (distinctWords doc).length = (distinctWords doc).map some := by
  obtain ⟨hstate, hwords⟩ := scanWords_doc doc beyond array
  obtain ⟨ps, hval, hfront, hlt, hmem, -⟩ :=
    sequentialSortUniqueWords_spec (terminated doc ++ beyond) hruns hwords
  have hdistinct : ps.map (cstr (terminated doc ++ beyond)) = distinctWords doc := by
    rw [distinctWords, ← map_cstr_runStarts hzero]
    exact eq_sortedDistinct hlt hmem
  have hlength : ps.length = (distinctWords doc).length := by
    rw [← hdistinct, List.length_map]
  simp only [wordListBaseLine, Prog.bind_val, Prog.bind_exec, Prog.pure_val, Prog.pure_exec,
    hstate]
  refine ⟨?_, ?_⟩
  · rw [hval, hlength]
  · rw [readStrings, ← hlength, hfront, ← hdistinct, List.map_map, List.map_map]
    rfl

/-- **The two implementations agree**: on equal copies of a document they report the same
count and the same strings, in the same order, and leave equal documents. -/
theorem baseline_eq_wordList (doc beyond : Mem) (array : ℤ → Ptr) (array' : ℤ → Option Ptr)
    (hzero : byteAt beyond 0 = 0) (hruns : (runStarts doc).length < 2 ^ 31) :
    ∃ (o : Outcome) (mem : Mem),
      wordList ⟨some array, true⟩ (some (doc ++ beyond)) doc.length = .ok o ∧
      o.doc = some mem ∧
      (wordListBaseLine (doc ++ beyond) doc.length).val ⟨array', []⟩ = (mem, o.count) ∧
      readStrings mem ((wordListBaseLine (doc ++ beyond) doc.length).exec ⟨array', []⟩).cells
        o.count = o.strings := by
  obtain ⟨o, hrun, hstrings, hcount, hdoc, -⟩ :=
    wordListWith_strings sortsWords_quickSortWords array hzero hruns
  obtain ⟨hval, hread⟩ := wordListBaseLine_spec array' hzero hruns
  refine ⟨o, terminated doc ++ beyond, hrun, hdoc, ?_, ?_⟩
  · rw [hval, hcount]
  · rw [hcount, hread, hstrings]

/-- The document `b a b`. -/
theorem baseline_eq_wordList_three :
    ∃ (o : Outcome) (mem : Mem),
      wordList ⟨some fun _ => 0, true⟩ (some [98, 32, 97, 32, 98]) 5 = .ok o ∧
      o.doc = some mem ∧
      (wordListBaseLine [98, 32, 97, 32, 98] 5).val ⟨fun _ => none, []⟩ = (mem, o.count) ∧
      readStrings mem ((wordListBaseLine [98, 32, 97, 32, 98] 5).exec ⟨fun _ => none, []⟩).cells
        o.count = o.strings :=
  baseline_eq_wordList [98, 32, 97, 32, 98] [] (fun _ => 0) (fun _ => none) rfl (by decide)

/-! ## The capacity -/

/-- The text alternates: its letters and digits are at the even positions below `n`. -/
def Alternates (doc : Mem) (n : ℕ) : Prop := ∀ i < n, alnumAt doc i = true ↔ i % 2 = 0

theorem alternates_succ :
    Alternates doc (n + 1) ↔ Alternates doc n ∧ (alnumAt doc n = true ↔ n % 2 = 0) := by
  refine ⟨fun h => ⟨fun i hi => h i (by omega), h n (Nat.lt_succ_self n)⟩, ?_⟩
  rintro ⟨h, hlast⟩ i hi
  rcases eq_or_lt_of_le (Nat.lt_succ_iff.mp hi) with rfl | hlt
  · exact hlast
  · exact h i hlt

/-- Every word but the last costs a letter and a separator, and the bound is reached by the
alternating texts only. -/
theorem two_mul_startsBelow (doc : Mem) (n : ℕ) :
    2 * (startsBelow doc n).length ≤ n + (inWord doc n).toNat ∧
      (2 * (startsBelow doc n).length = n + (inWord doc n).toNat ↔ Alternates doc n) := by
  induction n with
  | zero => exact ⟨le_refl 0, iff_of_true rfl fun i hi => absurd hi (Nat.not_lt_zero i)⟩
  | succ n ih =>
    obtain ⟨hle, hiff⟩ := ih
    rw [alternates_succ, ← hiff, startsBelow_succ, startsRun, inWord]
    -- a start and an end keep the balance, a byte that is neither costs one
    cases alnumAt doc n <;> cases hprev : inWord doc n <;> rw [hprev] at hle <;>
      simp at hle ⊢ <;> omega

/-- The words begun in the document fit the array, unless it alternates and its length is
odd. -/
theorem length_runStarts_le_iff :
    (runStarts doc).length ≤ maxWords doc.length ↔
      ¬ (doc.length % 2 = 1 ∧ Alternates doc doc.length) := by
  obtain ⟨hle, hiff⟩ := two_mul_startsBelow doc doc.length
  have hbit := Bool.toNat_le (inWord doc doc.length)
  have hstarts : startsBelow doc doc.length = runStarts doc := rfl
  rw [← hiff, hstarts, maxWords]
  rw [hstarts] at hle
  omega

/-- No more words are begun early on. -/
theorem length_startsBelow_le (hn : n ≤ doc.length) :
    (startsBelow doc n).length ≤ (runStarts doc).length :=
  ((List.range_sublist.mpr hn).filter _).length_le

/-- The scan and the sort write to the cells of the words only. -/
theorem wordListBaseLine_stores (doc beyond : Mem) (array : ℤ → Option Ptr) {i : ℤ}
    (hi : .store i ∈ ((wordListBaseLine (doc ++ beyond) doc.length).exec ⟨array, []⟩).trace) :
    0 ≤ i ∧ i < (runStarts doc).length := by
  have hinv := scanWords_inv beyond (le_refl doc.length) array
  have hcount : ((scanWords (doc ++ beyond) doc.length).val ⟨array, []⟩).count =
      (runStarts doc).length := by
    rw [hinv.state]
    rfl
  obtain ⟨t, htrace, hwithin⟩ := (sequentialSortUniqueWords_local
    ((scanWords (doc ++ beyond) doc.length).val ⟨array, []⟩).mem
    ((scanWords (doc ++ beyond) doc.length).val ⟨array, []⟩).count).traced
    ((scanWords (doc ++ beyond) doc.length).exec ⟨array, []⟩)
  have hmem : .store i ∈ t ++ ((scanWords (doc ++ beyond) doc.length).exec ⟨array, []⟩).trace := by
    rwa [← htrace]
  rcases List.mem_append.mp hmem with hsort | hscan
  · have hin := hwithin _ hsort
    rw [hcount] at hin
    exact hin
  · exact (hinv.stores i).mp hscan

/-- **The array is large enough** exactly when the text does not alternate over an odd
length: then the words begun never outnumber `max_words`, and no cell from `max_words` on is
written by the scan or the sort. -/
theorem baseline_capacity (doc beyond : Mem) (array : ℤ → Option Ptr) :
    ((∀ n ≤ doc.length, ((scanWords (doc ++ beyond) n).val ⟨array, []⟩).count ≤
          maxWords doc.length) ∧
        ∀ i : ℤ, .store i ∈ ((wordListBaseLine (doc ++ beyond) doc.length).exec ⟨array, []⟩).trace →
          i < maxWords doc.length) ↔
      ¬ (doc.length % 2 = 1 ∧ ∀ i < doc.length, alnumAt doc i = true ↔ i % 2 = 0) := by
  have hinv := fun (n : ℕ) (hn : n ≤ doc.length) => scanWords_inv beyond hn array
  have hlast := hinv doc.length (le_refl _)
  rw [← Alternates, ← length_runStarts_le_iff]
  refine ⟨fun h => ?_, fun h => ⟨fun n hn => ?_, fun i hi => ?_⟩⟩
  · have hcount := h.1 doc.length (le_refl _)
    rwa [hlast.state] at hcount
  · rw [(hinv n hn).state]
    exact (length_startsBelow_le hn).trans h
  · exact (wordListBaseLine_stores doc beyond array hi).2.trans_le (Int.ofNat_le.mpr h)

/-- The document `a`: there is no room for a pointer, and one is stored. -/
theorem baseline_capacity_letter :
    ¬ ((∀ n ≤ 1, ((scanWords [97] n).val ⟨fun _ => none, []⟩).count ≤ maxWords 1) ∧
      ∀ i : ℤ, .store i ∈ ((wordListBaseLine [97] 1).exec ⟨fun _ => none, []⟩).trace →
        i < maxWords 1) :=
  fun h => absurd (h.1 1 (le_refl 1)) (by decide)

end Baseline

end EfficientDictionary
