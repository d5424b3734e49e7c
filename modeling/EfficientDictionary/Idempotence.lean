import EfficientDictionary.BaselineWordList

/-!
# Tokenizing twice

`WordList` and `WordListBaseLine` destroy separators, the first one after each word. What
they leave is a document with the same runs and nothing to terminate (`terminated_terminated`
and the lemmas before it), so running either of them on it changes nothing more and finds
the same words.
-/

namespace EfficientDictionary

/-- The two implementations. -/
inductive Implementation : Type where
  /-- `WordList` -/
  | wordList
  /-- `WordListBaseLine` -/
  | wordListBaseLine
  deriving DecidableEq, Repr

/-- What the caller finds after a run. -/
structure Found where
  /-- the memory at `*doc` -/
  mem : Mem
  /-- the strings at `(*words)[0], …, (*words)[count - 1]` -/
  strings : List (Option (List UInt8))
  /-- `*count` -/
  count : ℕ
  deriving DecidableEq

/-- Arrays fresh from `malloc`, with whatever is in them. -/
structure Arrays where
  /-- `word_array` -/
  wordArray : ℤ → Ptr
  /-- `*words` of the baseline -/
  words : ℤ → Option Ptr

/-- Run an implementation on the buffer `mem`, with the memory it asks for. -/
def Implementation.run (arrays : Arrays) (mem : Mem) (docLen : ℕ) : Implementation → Option Found
  | .wordList =>
    match EfficientDictionary.wordList ⟨some arrays.wordArray, true⟩ (some mem) docLen with
    | .ok o => o.doc.map fun mem => ⟨mem, o.strings, o.count⟩
    | .error _ => none
  | .wordListBaseLine =>
    let r := (Baseline.wordListBaseLine mem docLen).run ⟨arrays.words, []⟩
    some ⟨r.1.1, Baseline.readStrings r.1.1 r.2.cells r.1.2, r.1.2⟩

/-- Either implementation leaves the terminated document and finds its distinct words. -/
theorem Implementation.run_eq (which : Implementation) (arrays : Arrays) {doc beyond : Mem}
    (hzero : byteAt beyond 0 = 0) (hruns : (runStarts doc).length < 2 ^ 31) :
    which.run arrays (doc ++ beyond) doc.length =
      some ⟨terminated doc ++ beyond, (distinctWords doc).map some,
        (distinctWords doc).length⟩ := by
  cases which with
  | wordList =>
    obtain ⟨o, hrun, hstrings, hcount, hdoc, -⟩ :=
      wordListWith_strings sortsWords_quickSortWords arrays.wordArray hzero hruns
    rw [Implementation.run, EfficientDictionary.wordList, hrun]
    simp only [hdoc, Option.map_some, hstrings, hcount]
  | wordListBaseLine =>
    obtain ⟨hval, hread⟩ := Baseline.wordListBaseLine_spec arrays.words hzero hruns
    have hrun : (Baseline.wordListBaseLine (doc ++ beyond) doc.length).run ⟨arrays.words, []⟩ =
        ((terminated doc ++ beyond, (distinctWords doc).length),
          (Baseline.wordListBaseLine (doc ++ beyond) doc.length).exec ⟨arrays.words, []⟩) :=
      Prod.ext hval rfl
    rw [Implementation.run, hrun]
    simp only [hread]

/-- **Tokenizing is idempotent**, across both implementations: running either of them on the
buffer that either of them has left finds the same strings and the same count, and leaves
the buffer as it is. -/
theorem tokenizing_idempotent (doc beyond : Mem) (hzero : byteAt beyond 0 = 0)
    (hruns : (runStarts doc).length < 2 ^ 31) (first second : Implementation)
    (arrays arrays' : Arrays) :
    ∃ found, first.run arrays (doc ++ beyond) doc.length = some found ∧
      second.run arrays' found.mem doc.length = some found := by
  refine ⟨_, first.run_eq arrays hzero hruns, ?_⟩
  have hruns' : (runStarts (terminated doc)).length < 2 ^ 31 := by rwa [runStarts_terminated]
  have hagain := second.run_eq arrays' hzero hruns'
  rwa [length_terminated, terminated_terminated, distinctWords_terminated] at hagain

/-- The document `b a`, first with `WordList`, then with the baseline. -/
theorem tokenizing_idempotent_two :
    ∃ found, Implementation.wordList.run ⟨fun _ => 0, fun _ => none⟩ [98, 32, 97] 3 = some found ∧
      Implementation.wordListBaseLine.run ⟨fun _ => 0, fun _ => none⟩ found.mem 3 = some found :=
  tokenizing_idempotent [98, 32, 97] [] rfl (by decide) .wordList .wordListBaseLine
    ⟨fun _ => 0, fun _ => none⟩ ⟨fun _ => 0, fun _ => none⟩

end EfficientDictionary
