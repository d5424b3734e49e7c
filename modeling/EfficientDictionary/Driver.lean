import EfficientDictionary.Accesses
import EfficientDictionary.LoadFile
import EfficientDictionary.Pieces
import EfficientDictionary.TimeFile
import EfficientDictionary.WordInts

/-!
# The program

`main` loads a file, finds its words with one of the two implementations, saves them, and saves
the time it took. Here it is a function of the files: it returns the code the process ends
with, and the files afterwards. The messages on the terminal are left out.

What else the program depends on is a `System`: the answers of the library calls, and what is
found in memory that nobody has written. When a pointer is followed that is none, the array of the
baseline is left, or an `int` overflows, there is no result.

* `Served` — every library call succeeds; `main_of_served` is what such a run leaves when its
  implementation finds some strings.
* `Ready` — nothing else stands in the way of a run; `main_of_ready` is what this one leaves.
-/

namespace EfficientDictionary

/-! ## Definitions -/

/-- The files, by name. -/
abbrev Files : Type := List UInt8 → Option (List UInt8)

/-- What a run finds. -/
structure System where
  /-- whether `fopen` opens a file for reading, if it is there -/
  readable : List UInt8 → Bool
  /-- whether `fopen` opens a file for writing -/
  writable : List UInt8 → Bool
  /-- whether `malloc` has a block of a given size for the document -/
  malloc : ℕ → Bool
  /-- how many bytes `fread` delivers at most -/
  delivers : ℕ
  /-- what follows the document in memory -/
  beyond : Mem
  /-- what `malloc` returns to `WordList` -/
  mallocs : Mallocs
  /-- what `malloc` returns to `WordListBaseLine` -/
  words : Option (ℤ → Option Ptr)
  /-- how a byte of a pointer, or one that has not been written, reads as a `char` -/
  rawByte : Cell → UInt8
  /-- `temp` of `SaveWords` -/
  temp : Option (ℤ → UInt8)
  /-- what of a text that `fwrite` or `fprintf` is given a closed file holds -/
  kept : List UInt8 → List UInt8
  /-- `omp_get_max_threads()` -/
  maxThreads : ℤ
  /-- the first reading of the clock -/
  startTime : Timespec
  /-- the second reading of the clock -/
  endTime : Timespec
  /-- a number, converted to `float` and printed as `%.6f` -/
  sixDigits : ℚ → List UInt8

/-- The text of the wall time -/
def System.wallTime (sys : System) : List UInt8 :=
  sys.sixDigits (calcTime sys.startTime sys.endTime)

/-- The library calls of `LoadFile` -/
def System.environment (sys : System) (files : Files) : Environment where
  file name := if sys.readable name then files name else none
  malloc := sys.malloc
  delivers := sys.delivers

/-- `words` as `main` passes it on: the pointers, and the memory they lead to. -/
structure FoundWords where
  /-- that memory -/
  mem : Mem
  /-- `words[0], …, words[count - 1]` -/
  words : List Ptr

/-- The strings at the pointers. -/
def FoundWords.strings (found : FoundWords) : List (List UInt8) := found.words.map (cstr found.mem)

/-- A byte of a block, read as a `char`. -/
def Cell.value (rawByte : Cell → UInt8) : Cell → UInt8
  | .byte b => b
  | cell => rawByte cell

/-- A call that has a meaning: an `int` that has been computed is one. -/
def Call.hasMeaning : Call → Bool
  | .int v => decide (IsInt v)
  | _ => true

/-- A step that has a meaning, with an array of `capacity` cells. -/
def Event.hasMeaning (capacity : ℕ) : Event Call → Bool
  | .load i => decide (0 ≤ i ∧ i < capacity)
  | .store i => decide (0 ≤ i ∧ i < capacity)
  | .note call => call.hasMeaning

/-- What the calling function finds in `*words` after `WordList`: nothing when there is something
other than pointers. -/
def Outcome.found (rawByte : Cell → UInt8) (o : Outcome) : Option FoundWords :=
  match o.words with
  | none => if o.count = 0 then some ⟨[], []⟩ else none
  | some block =>
    (((List.range o.count).map (pointerAt block)).mapM id).map fun words =>
      ⟨block.map (Cell.value rawByte), words⟩

/-- The call of `WordList` or `WordListBaseLine` in `main`. An error is the code of `exit`;
nothing is found when a step of the run has no meaning. -/
def Implementation.find (sys : System) (mem : Mem) (docLen : ℕ) :
    Implementation → Except ℕ (Option FoundWords)
  | .wordList =>
    (EfficientDictionary.wordList sys.mallocs (some mem) docLen).map fun o =>
      if o.calls.all Call.hasMeaning then o.found sys.rawByte else none
  | .wordListBaseLine =>
    -- the first word is stored without a look at what `malloc` has returned
    let capacity := if sys.words.isSome then Baseline.maxWords docLen else 0
    let r := (Baseline.wordListBaseLine mem docLen).run ⟨sys.words.getD fun _ => none, []⟩
    .ok (if r.2.trace.all (Event.hasMeaning capacity) then
        ((slice r.2.cells 0 r.1.2).mapM id).map fun words => ⟨r.1.1, words⟩
      else none)

/-- `max_threads` -/
def Implementation.maxThreads (sys : System) : Implementation → ℤ
  | .wordList => toInt8 sys.maxThreads
  | .wordListBaseLine => 1

/-- `SaveWords`, with the file it opens: the return value and `*hash`, or the code of `exit`,
and the files. -/
def saveWordsFile (sys : System) (files : Files) (found : FoundWords) (filename : List UInt8)
    (hash : UInt64) : Except ℕ (ℕ × UInt64) × Files :=
  let opens := sys.writable (wordsName filename)
  let saved := saveWords opens sys.temp found.mem found.words hash
  let content := match saved with
    | .ok saved => written saved.trace
    | .error _ => []
  (saved.map fun saved => (saved.code, saved.hash),
    if found.words.length = 0 ∨ opens = false then files
    else Function.update files (wordsName filename) (some (sys.kept content)))

/-- `SaveTime` -/
def saveTime (sys : System) (files : Files) (maxThreads : ℤ) (hash : UInt64)
    (filename : List UInt8) : ℕ × Files :=
  if !sys.writable (timeName filename) then
    (errSaveFileOpen, files)
  else
    (successCode, Function.update files (timeName filename)
      (some (sys.kept (timeText filename hash maxThreads sys.wallTime))))

/-- The part of `main` after the words have been found; `offset` is where `doc` lies in the
block that is freed at the end. -/
def saveResults (which : Implementation) (sys : System) (files : Files) (found : FoundWords)
    (offset : ℕ) (filename : List UInt8) : Option (ℕ × Files) :=
  match saveWordsFile sys files found filename 0 with
  | (.error code, files) => some (code, files)
  | (.ok (code, hash), files) =>
    if code ≠ successCode then
      some (code, files)
    else
      let (code, files) := saveTime sys files (which.maxThreads sys) hash filename
      if code ≠ successCode then
        some (code, files)
      else if offset ≠ 0 then
        none
      else
        some (successCode, files)

/-- `main`, of either build: the code that the process ends with, and the files. -/
def main (which : Implementation) (sys : System) (files : Files) (argv : List (List UInt8)) :
    Option (ℕ × Files) :=
  match argv with
  | [_, input, filename] =>
    let loaded := loadFile (sys.environment files) input 0 .null 0
    if loaded.code ≠ successCode then
      some (loaded.code, files)
    else
      match loaded.doc with
      | .into block offset =>
        match which.find sys (block.drop offset ++ sys.beyond) loaded.docLen.toNat with
        | .error code => some (code, files)
        | .ok none => none
        | .ok (some found) => saveResults which sys files found offset filename
      | _ => none
  | _ => some (1, files)

/-! ## The words that are found -/

section Find

variable {doc beyond : Mem} {raw : Cell → UInt8} {block : List Cell}

theorem sortedDistinct_map_cstr
    (hlast : alnumAt doc (doc.length - 1) = true → byteAt beyond 0 = 0) :
    sortedDistinct ((runStarts doc).map (cstr (terminated doc ++ beyond))) = distinctWords doc := by
  rw [map_cstr_eq_wordsOf hlast, distinctWords_eq_wordsOf]

/-- What is read as a string in a block are bytes of strings. -/
theorem toCString_value {cells : List Cell} {t : List UInt8} (h : cellString cells = some t) :
    toCString (cells.map (Cell.value raw)) = t := by
  induction cells generalizing t with
  | nil => cases h
  | cons cell cells ih =>
    cases cell with
    | undef => cases h
    | ptr off k => cases h
    | byte b =>
      rw [cellString] at h
      rw [List.map_cons, Cell.value]
      split_ifs at h with hb
      · obtain rfl := Option.some.inj h
        rw [hb, toCString_cons_zero]
      · obtain ⟨t, ht, rfl⟩ := Option.map_eq_some_iff.mp h
        rw [toCString_cons hb, ih ht]

/-- Strings that are read through the table of a block are found at its pointers. -/
theorem exists_pointers (raw : Cell → UInt8) {slots : List ℕ} {strs : List (List UInt8)}
    (h : slots.map (wordAt block) = strs.map some) :
    ∃ words : List Ptr, (slots.map (pointerAt block)).mapM id = some words ∧
      words.map (cstr (block.map (Cell.value raw))) = strs := by
  induction slots generalizing strs with
  | nil =>
    obtain rfl := List.map_eq_nil_iff.mp h.symm
    exact ⟨[], rfl, rfl⟩
  | cons i slots ih =>
    cases strs with
    | nil => cases h
    | cons t strs =>
      obtain ⟨hword, hrest⟩ := List.cons.inj h
      obtain ⟨off, hoff, hstring⟩ := Option.bind_eq_some_iff.mp hword
      obtain ⟨words, hwords, hstrs⟩ := ih hrest
      refine ⟨off :: words, ?_, ?_⟩
      · rw [List.map_cons, List.mapM_cons, hwords, hoff]
        rfl
      · rw [List.map_cons, hstrs, cstr, ← List.map_drop, toCString_value hstring]

theorem mapM_id_map_some (words : List Ptr) : (words.map some).mapM id = some words := by
  induction words with
  | nil => rfl
  | cons p words ih =>
    rw [List.map_cons, List.mapM_cons, ih]
    rfl

theorem Call.hasMeaning_of_int {call : Call} (h : ∀ v, call = .int v → IsInt v) :
    call.hasMeaning = true := by
  cases call with
  | int v => exact decide_eq_true (h v rfl)
  | _ => rfl

/-- The calls of a run of `WordList` have a meaning. -/
theorem all_hasMeaning_wordListCalls (beyond : Mem) (array : ℤ → Ptr)
    (hruns : (runStarts doc).length < 2 ^ 31) :
    (wordListCalls quickSortWords doc beyond array).all Call.hasMeaning = true := by
  refine List.all_eq_true.mpr fun call hcall => Call.hasMeaning_of_int ?_
  rintro v rfl
  obtain ⟨hlo, hup⟩ := int_bounds_wordListCalls beyond array hcall
  exact ⟨by omega, by omega⟩

/-- The steps of a run of the baseline have one when the words fit its array. -/
theorem Baseline.all_hasMeaning (beyond : Mem) (array : ℤ → Option Ptr) {capacity : ℕ}
    (hruns : (runStarts doc).length < 2 ^ 31) (hfits : (runStarts doc).length ≤ capacity) :
    ((wordListBaseLine (doc ++ beyond) doc.length).run ⟨array, []⟩).2.trace.all
      (Event.hasMeaning capacity) = true := by
  obtain ⟨hwithin, -⟩ := wordListBaseLine_accesses doc beyond array
  refine List.all_eq_true.mpr fun event hevent => ?_
  have hcell : ∀ i ∈ Set.Ico 0 ((runStarts doc).length : ℤ), 0 ≤ i ∧ i < capacity :=
    fun i hi => ⟨hi.1, hi.2.trans_le (Int.ofNat_le.mpr hfits)⟩
  cases event with
  | load i => exact decide_eq_true (hcell i (hwithin _ hevent))
  | store i => exact decide_eq_true (hcell i (hwithin _ hevent))
  | note call =>
    refine Call.hasMeaning_of_int ?_
    rintro v rfl
    obtain ⟨hlo, hup⟩ := wordListBaseLine_ints doc beyond array hevent
    exact ⟨by omega, by omega⟩

/-- Either implementation finds the distinct words, the baseline if they fit its array. -/
theorem Implementation.find_spec (which : Implementation) {sys : System} {array : ℤ → Ptr}
    (hheap : sys.mallocs = ⟨some array, true⟩)
    (hwords : which = .wordListBaseLine → sys.words.isSome ∧
      (runStarts doc).length ≤ Baseline.maxWords doc.length)
    (hlast : alnumAt doc (doc.length - 1) = true → byteAt sys.beyond 0 = 0)
    (hruns : (runStarts doc).length < 2 ^ 31) :
    ∃ found, which.find sys (doc ++ sys.beyond) doc.length = .ok (some found) ∧
      found.strings = distinctWords doc := by
  have hdistinct := sortedDistinct_map_cstr hlast
  cases which with
  | wordList =>
    by_cases hne : runStarts doc = []
    · refine ⟨⟨[], []⟩, ?_, (distinctWords_eq_nil_iff.mpr hne).symm⟩
      rw [find, hheap, EfficientDictionary.wordList, wordListWith_of_nil _ hne]
      rfl
    · have hzero : ∀ t ∈ distinctWords doc, (0 : UInt8) ∉ t := zero_notMem_distinctWords
      have hstrings := strings_packStrings hzero none []
      obtain ⟨words, hwords, hstrs⟩ := exists_pointers sys.rawByte hstrings
      refine ⟨⟨_, words⟩, ?_, hstrs⟩
      rw [find, hheap, EfficientDictionary.wordList,
        wordListWith_of_ne_nil (sortsWords_quickSortWords _ _ hruns) array hne, hdistinct]
      simp only [Except.map, all_hasMeaning_wordListCalls sys.beyond array hruns, if_true,
        Outcome.found, hwords, Option.map_some]
  | wordListBaseLine =>
    obtain ⟨hsome, hfits⟩ := hwords rfl
    have hmeaning := Baseline.all_hasMeaning sys.beyond (sys.words.getD fun _ => none) hruns hfits
    obtain ⟨hstate, hscanned⟩ := Baseline.scanWords_doc doc sys.beyond
      (sys.words.getD fun _ => none)
    obtain ⟨ps, hval, hfront, hlt, hmem, -⟩ :=
      Baseline.sequentialSortUniqueWords_spec (terminated doc ++ sys.beyond) hruns hscanned
    refine ⟨⟨terminated doc ++ sys.beyond, ps⟩, ?_, ?_⟩
    · rw [Baseline.wordListBaseLine_run hstate] at hmeaning
      rw [find, hsome, if_pos rfl, Baseline.wordListBaseLine_run hstate]
      dsimp only
      rw [if_pos hmeaning, hval, hfront, mapM_id_map_some]
      rfl
    · rw [FoundWords.strings, ← hdistinct]
      exact eq_sortedDistinct hlt hmem

end Find

/-! ## The files that are written -/

section Save

variable {maxLen : ℕ} {mem : Mem} {words : List Ptr} {sys : System} {files : Files}
  {found : FoundWords} {filename : List UInt8}

/-- `*hash` after saving the strings, when it was `0` before. -/
def wordsHash (strs : List (List UInt8)) : UInt64 :=
  if strs = [] then 0 else strs.foldl hash fnvOffsetBasis

/-- The letters of the words are all that is hashed, in order. -/
theorem saveLoop_hash (maxLen : ℕ) (mem : Mem) (words : List Ptr) (st : SaveState)
    (s : Machine (List UInt8) UInt8) :
    ((saveLoop maxLen mem words st).val s).hash = (words.map (cstr mem)).foldl hash st.hash := by
  induction words generalizing st s with
  | nil => rfl
  | cons word words ih =>
    have hstep : ((saveStep maxLen mem word st).val s).hash = hash st.hash (cstr mem word) := by
      rw [saveStep_eq]
      split_ifs
      · rfl
      · rfl
    rw [List.map_cons, List.foldl_cons, ← hstep]
    exact ih _ _

/-- Saving some words: the hash, and the lines of the file. -/
theorem saveWordsWith_of_ne_nil (maxLen : ℕ) (mem : Mem) (hne : words ≠ []) (temp : ℤ → UInt8)
    (hash₀ : UInt64) :
    ∃ saved, saveWordsWith maxLen true (some temp) mem words hash₀ = .ok saved ∧
      saved.code = successCode ∧ saved.hash = wordsHash (words.map (cstr mem)) ∧
      written saved.trace = fileLines (words.map (cstr mem)) := by
  have hstart : SaveInv [] (⟨0, fnvOffsetBasis⟩ : SaveState).currLen ⟨temp, []⟩ := rfl
  have hinv := saveLoop_inv maxLen mem words hstart
  have hfile := (fwrite_spec ((saveLoop maxLen mem words ⟨0, fnvOffsetBasis⟩).val
    ⟨temp, []⟩).currLen ((saveLoop maxLen mem words ⟨0, fnvOffsetBasis⟩).exec ⟨temp, []⟩)).1
  rw [hinv, List.nil_append] at hfile
  have hlen : words.length ≠ 0 := fun h => hne (List.length_eq_zero_iff.mp h)
  rw [saveWordsWith, if_neg hlen, wordsHash, if_neg (mt List.map_eq_nil_iff.mp hne)]
  exact ⟨_, rfl, rfl, saveLoop_hash maxLen mem words _ _, hfile⟩

/-- The files with the words saved. -/
def withWords (files : Files) (filename : List UInt8) (strs : List (List UInt8)) : Files :=
  if strs = [] then files
  else Function.update files (wordsName filename) (some (fileLines strs))

/-- `SaveWords`, when the file can be opened and keeps what is written, and there is memory. -/
theorem saveWordsFile_eq (files : Files) (found : FoundWords)
    (hopens : sys.writable (wordsName filename) = true) (hkept : ∀ text, sys.kept text = text)
    {temp : ℤ → UInt8}
    (htemp : sys.temp = some temp) :
    saveWordsFile sys files found filename 0 =
      (.ok (successCode, wordsHash found.strings), withWords files filename found.strings) := by
  rw [saveWordsFile, hopens, htemp, withWords]
  by_cases hnil : found.words = []
  · have hstrs : found.strings = [] := List.map_eq_nil_iff.mpr hnil
    rw [hnil, hstrs]
    rfl
  · have hlen : ¬ (found.words.length = 0 ∨ true = false) := by
      rintro (h | h)
      · exact hnil (List.length_eq_zero_iff.mp h)
      · cases h
    obtain ⟨saved, hrun, hcode, hhash, hfile⟩ :=
      saveWordsWith_of_ne_nil (1024 * 1024) found.mem hnil temp 0
    have hstrs : found.strings ≠ [] := fun h => hnil (List.map_eq_nil_iff.mp h)
    rw [saveWords, hrun, if_neg hlen, if_neg hstrs, hkept]
    simp only [Except.map, hcode, hhash, hfile]
    rfl

end Save

/-! ## A run -/

/-- Every call of the library succeeds in a run of `which` that reads the file `input`, whatever its
size. -/
structure Served (which : Implementation) (sys : System) (files : Files)
    (input filename content : List UInt8) : Prop where
  /-- the argument is a C string -/
  noZero : (0 : UInt8) ∉ input
  /-- it is not too long -/
  short : input.length ≤ maxFilenameLen
  /-- the file is there -/
  holds : files input = some content
  /-- it can be opened -/
  readable : sys.readable input = true
  /-- there is memory for it -/
  malloc : sys.malloc content.length = true
  /-- it is read in full -/
  delivered : content.length ≤ sys.delivers
  /-- there is memory for the pointers -/
  wordArray : sys.mallocs.wordArray.isSome
  /-- there is memory for the strings -/
  strBlock : sys.mallocs.strBlock = true
  /-- there is memory for the pointers of the baseline -/
  words : which = .wordListBaseLine → sys.words.isSome
  /-- there is memory for the buffer -/
  temp : sys.temp.isSome
  /-- the file for the words can be opened -/
  opensWords : sys.writable (wordsName filename) = true
  /-- the file for the time can be opened -/
  opensTime : sys.writable (timeName filename) = true
  /-- what is written to a file stays there -/
  kept : ∀ text, sys.kept text = text

/-- Nothing stands in the way of such a run, whose file has the content `content`. -/
structure Ready (which : Implementation) (sys : System) (files : Files)
    (input filename content : List UInt8) : Prop extends
    Served which sys files input filename content where
  /-- its length is a `uint32_t`, and not the largest one -/
  length : content.length < 2 ^ 32 - 1
  /-- when it ends with a word, this happens to be terminated -/
  last : alnumAt content (content.length - 1) = true → byteAt sys.beyond 0 = 0
  /-- the words fit the array of the baseline -/
  fits : which = .wordListBaseLine →
    (runStarts content).length ≤ Baseline.maxWords content.length

/-- The text in the file for the time, when the strings `strs` have been found. -/
def recorded (which : Implementation) (sys : System) (filename : List UInt8)
    (strs : List (List UInt8)) : List UInt8 :=
  timeText filename (wordsHash strs) (which.maxThreads sys) sys.wallTime

/-- The files after a run that has found the strings `strs`. -/
def results (which : Implementation) (sys : System) (files : Files) (filename : List UInt8)
    (strs : List (List UInt8)) : Files :=
  Function.update (withWords files filename strs) (timeName filename)
    (some (recorded which sys filename strs))

section Run

variable {which : Implementation} {sys : System} {files : Files}
  {input filename content : List UInt8}

/-- The file is loaded to the start of a block of its own. -/
theorem Served.loadFile_eq (h : Served which sys files input filename content) :
    loadFile (sys.environment files) input 0 .null 0 =
      ⟨successCode, .into content 0, UInt32.ofNat content.length⟩ := by
  have hname : cstr input 0 = input := toCString_of_notMem h.noZero
  have hshort : ¬ strlenAt input 0 > maxFilenameLen := by
    rw [strlenAt, hname]
    exact not_lt.mpr h.short
  have hfile : (sys.environment files).file (cstr input 0) = some content := by
    rw [hname]
    exact (if_pos h.readable).trans h.holds
  have hmalloc : ¬ (!(sys.environment files).malloc content.length) = true := by
    have hmemory : (sys.environment files).malloc content.length = true := h.malloc
    rw [hmemory]
    exact Bool.false_ne_true
  have hfull : content.take (sys.environment files).delivers = content :=
    List.take_of_length_le h.delivered
  rw [loadFile, loadFileWith, if_neg hshort, hfile]
  dsimp only
  rw [if_neg hmalloc, hfull, if_neg (not_not_intro rfl), hasBom_schar, if_neg Bool.false_ne_true]

theorem Ready.toNat_length (h : Ready which sys files input filename content) :
    (UInt32.ofNat content.length).toNat = content.length := by
  have hlength := h.length
  rw [UInt32.toNat_ofNat']
  exact Nat.mod_eq_of_lt (by omega)

/-- Two words have a separator between them. -/
theorem Ready.length_runStarts (h : Ready which sys files input filename content) :
    (runStarts content).length < 2 ^ 31 := by
  have hlength := h.length
  obtain ⟨hle, -⟩ := Baseline.two_mul_startsBelow content content.length
  have hstarts : startsBelow content content.length = runStarts content := rfl
  have hbit := Bool.toNat_le (inWord content content.length)
  rw [hstarts] at hle
  omega

theorem Served.mallocs_eq (h : Served which sys files input filename content) :
    ∃ array, sys.mallocs = ⟨some array, true⟩ := by
  obtain ⟨array, harray⟩ := Option.isSome_iff_exists.mp h.wordArray
  exact ⟨array, by rw [← harray, ← h.strBlock]⟩

/-- What the implementation finds is saved; `doc` is what it looks at. -/
theorem main_of_served (h : Served which sys files input filename content)
    (program : List UInt8) {doc beyond : Mem} {strs : List (List UInt8)}
    (hmem : content ++ sys.beyond = doc ++ beyond)
    (hlen : (UInt32.ofNat content.length).toNat = doc.length)
    (hfind : ∃ found, which.find sys (doc ++ beyond) doc.length = .ok (some found) ∧
      found.strings = strs) :
    main which sys files [program, input, filename] =
      some (successCode, results which sys files filename strs) := by
  obtain ⟨temp, htemp⟩ := Option.isSome_iff_exists.mp h.temp
  obtain ⟨found, hfound, hstrings⟩ := hfind
  have htime : ¬ (!sys.writable (timeName filename)) = true := by
    rw [h.opensTime]
    exact Bool.false_ne_true
  rw [main, h.loadFile_eq]
  dsimp only
  rw [if_neg (not_not_intro rfl), hlen, List.drop_zero, hmem, hfound]
  dsimp only
  rw [saveResults, saveWordsFile_eq files found h.opensWords h.kept htemp, hstrings]
  dsimp only
  rw [if_neg (not_not_intro rfl), saveTime, if_neg htime, h.kept]
  rfl

/-- **A run that nothing stands in the way of** saves the distinct words of the file. -/
theorem main_of_ready (h : Ready which sys files input filename content)
    (program : List UInt8) :
    main which sys files [program, input, filename] =
      some (successCode, results which sys files filename (distinctWords content)) := by
  obtain ⟨array, hheap⟩ := h.mallocs_eq
  exact main_of_served h.toServed program rfl h.toNat_length
    (which.find_spec hheap (fun heq => ⟨h.words heq, h.fits heq⟩) h.last h.length_runStarts)

end Run

end EfficientDictionary
