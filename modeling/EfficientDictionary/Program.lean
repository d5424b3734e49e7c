import EfficientDictionary.Driver

/-!
# What a user of the program sees

Statements about whole runs of `main`, in terms of the files before and after.

* `main_saves_words` — which files a run changes, and what it leaves in the one for the words.
* `main_own_words` — that file, given to the program again, is reproduced.
* `main_record` — the file for the time can be read back, but for the number of threads.
* `main_large_file` — of a file of any size, how much is looked at.
* `main_commits` — how a run fails.
-/

namespace EfficientDictionary

variable {which which' : Implementation} {sys sys' : System} {files files' : Files}
  {input filename filename' content content' program program' : List UInt8} {code : ℕ}

/-! ## The file for the words as a document -/

section Lines

variable {doc t : List UInt8} {strs : List (List UInt8)}

theorem isLetter_of_mem_distinctWords (h : t ∈ distinctWords doc) : ∀ b ∈ t, isLetter b = true := by
  intro b hb
  obtain ⟨s, -, rfl⟩ := List.mem_map.mp (mem_sortedDistinct.mp h)
  exact List.mem_takeWhile_imp hb

theorem ne_nil_of_mem_distinctWords (h : t ∈ distinctWords doc) : t ≠ [] := by
  rw [distinctWords_eq_wordsOf, mem_sortedDistinct, wordsOf_eq_pieces] at h
  exact of_decide_eq_true (List.mem_filter.mp h).2

/-- Lines of letters and digits are split at the newlines. -/
theorem wordsOf_fileLines (hletters : ∀ t ∈ strs, ∀ b ∈ t, isLetter b = true)
    (hne : ∀ t ∈ strs, t ≠ []) : wordsOf (fileLines strs) = strs := by
  induction strs with
  | nil => rfl
  | cons t strs ih =>
    have hcons : fileLines (t :: strs) = t ++ 10 :: fileLines strs := by
      rw [fileLines, List.flatMap_cons, List.append_assoc]
      rfl
    have hnewline : isLetter 10 = false := by decide
    obtain ⟨hletters, hrest⟩ := List.forall_mem_cons.mp hletters
    obtain ⟨hne, hnes⟩ := List.forall_mem_cons.mp hne
    rw [hcons, wordsOf_append_cons hnewline, wordsOf_of_forall hletters hne, ih hrest hnes,
      List.singleton_append]

/-- The distinct words of a document are those of the file they are saved in. -/
theorem distinctWords_fileLines (doc : Mem) :
    distinctWords (fileLines (distinctWords doc)) = distinctWords doc := by
  have hwords : wordsOf (fileLines (distinctWords doc)) = distinctWords doc :=
    wordsOf_fileLines (fun _ h => isLetter_of_mem_distinctWords h)
      fun _ h => ne_nil_of_mem_distinctWords h
  rw [distinctWords_eq_wordsOf (fileLines (distinctWords doc)), hwords]
  exact (eq_sortedDistinct (sortedDistinct_pairwise _) fun _ => Iff.rfl).symm

/-- The file does not end with a letter or digit. -/
theorem alnumAt_fileLines_last (strs : List (List UInt8)) :
    alnumAt (fileLines strs) ((fileLines strs).length - 1) = false := by
  rcases List.eq_nil_or_concat strs with rfl | ⟨strs, t, rfl⟩
  · rfl
  · have hend : fileLines (strs.concat t) = fileLines strs ++ t ++ [10] := by
      rw [List.concat_eq_append, fileLines_append, List.append_assoc]
      exact congrArg _ (List.append_nil _)
    rw [hend, alnumAt, byteAt, List.length_append, List.length_singleton, Nat.add_sub_cancel,
      List.getElem?_concat_length]
    rfl

/-- No record looks like the lines of words: its header has an underscore. -/
theorem recorded_ne_fileLines (which : Implementation) (sys : System) (filename : List UInt8)
    (doc : Mem) :
    recorded which sys filename (distinctWords doc) ≠ fileLines (distinctWords doc) := by
  intro h
  have hheader : (95 : UInt8) ∈ timeHeader := by decide
  have hmem : (95 : UInt8) ∈ fileLines (distinctWords doc) := by
    rw [← h]
    exact List.mem_append_left _ hheader
  obtain ⟨t, ht, hline⟩ := List.mem_flatMap.mp hmem
  rcases List.mem_append.mp hline with hletter | hnewline
  · exact absurd (isLetter_of_mem_distinctWords ht _ hletter) (by decide)
  · exact absurd (List.mem_singleton.mp hnewline) (by decide)

end Lines

/-! ## The names of the files -/

/-- A name short enough for `LoadFile` has not been cut off. -/
theorem length_le_of_wordsName (h : (wordsName filename).length ≤ maxFilenameLen) :
    filename.length ≤ 4085 := by
  rw [wordsName, take_resultName, snprintf, List.length_append, List.length_take,
    List.length_append, maxFilenameLen, filenameMax] at h
  omega

theorem withWords_of_ne {name : List UInt8} (files : Files) (strs : List (List UInt8))
    (h : name ≠ wordsName filename ∨ strs = []) :
    withWords files filename strs name = files name := by
  rw [withWords]
  split_ifs with hnil
  · rfl
  · exact Function.update_of_ne (h.resolve_right hnil) _ _

theorem withWords_self {strs : List (List UInt8)} (files : Files) (h : strs ≠ []) :
    withWords files filename strs (wordsName filename) = some (fileLines strs) := by
  rw [withWords, if_neg h, Function.update_self]

theorem results_time (which : Implementation) (sys : System) (files : Files)
    (filename : List UInt8) (strs : List (List UInt8)) :
    results which sys files filename strs (timeName filename) =
      some (recorded which sys filename strs) :=
  Function.update_self _ _ _

theorem results_of_ne {name : List UInt8} (which : Implementation) (sys : System) (files : Files)
    (strs : List (List UInt8)) (htime : name ≠ timeName filename) :
    results which sys files filename strs name = withWords files filename strs name :=
  Function.update_of_ne htime _ _

/-! ## A system -/

/-- A system whose calls all succeed, with one thread and an idle clock. -/
def System.idle : System where
  readable _ := true
  writable _ := true
  malloc _ := true
  delivers := 1000
  beyond := []
  mallocs := ⟨some fun _ => 0, true⟩
  words := some fun _ => none
  rawByte _ := 0
  temp := some fun _ => 0
  kept text := text
  maxThreads := 1
  startTime := ⟨0, 0⟩
  endTime := ⟨0, 0⟩
  sixDigits _ := literal "0.000000"

/-- The file `a` with the text `b a`. -/
def oneFile : Files := fun name => if name = [97] then some [98, 32, 97] else none

/-- Of a system whose calls all succeed a run asks for little more than the file. -/
theorem served_idle (which : Implementation) {files : Files} {input filename content : List UInt8}
    (hzero : (0 : UInt8) ∉ input) (hshort : input.length ≤ maxFilenameLen)
    (hholds : files input = some content) (hdelivers : content.length ≤ 1000) :
    Served which System.idle files input filename content where
  noZero := hzero
  short := hshort
  holds := hholds
  readable := rfl
  malloc := rfl
  delivered := hdelivers
  wordArray := rfl
  strBlock := rfl
  words _ := rfl
  temp := rfl
  opensWords := rfl
  opensTime := rfl
  kept _ := rfl

theorem ready_oneFile : Ready .wordList System.idle oneFile [97] [114] [98, 32, 97] where
  toServed := served_idle .wordList (by decide) (by decide) rfl (by decide)
  length := by decide
  last _ := rfl
  fits := by decide

/-! ## Runs that nothing stands in the way of -/

/-- **The program saves the distinct words of the file**, one on each line, in increasing
order, whichever implementation it has been built with, and changes no file but its two. The
words stay there exactly when the prefix is short enough for the two names to differ; else the
record of the time takes their place. -/
theorem main_saves_words (h : Ready which sys files input filename content)
    (program : List UInt8) :
    ∃ out, main which sys files [program, input, filename] = some (successCode, out) ∧
      (distinctWords content ≠ [] →
        (out (wordsName filename) = some (fileLines (distinctWords content)) ↔
          filename.length ≤ 4085)) ∧
      ∀ name, name ≠ timeName filename → name ≠ wordsName filename ∨ distinctWords content = [] →
        out name = files name := by
  refine ⟨_, main_of_ready h program, fun hne => ?_, fun name htime hwords => ?_⟩
  · rw [← wordsName_ne_timeName_iff]
    refine ⟨fun hsaved heq => ?_, fun hnames => ?_⟩
    · rw [heq, results_time] at hsaved
      exact recorded_ne_fileLines which sys filename content (Option.some.inj hsaved)
    · rw [results_of_ne which sys files _ hnames, withWords_self files hne]
  · rw [results_of_ne which sys files _ htime, withWords_of_ne files _ hwords]

theorem main_saves_words_two :
    ∃ out, main .wordList System.idle oneFile [[], [97], [114]] = some (successCode, out) ∧
      out [97] = oneFile [97] := by
  obtain ⟨out, hrun, -, hkept⟩ := main_saves_words ready_oneFile []
  exact ⟨out, hrun, hkept [97] (by decide) (Or.inl (by decide))⟩

/-- **The program reproduces its own output**: given the file for the words that a run of
either build has left, either build writes the same file again, and the same hash. -/
theorem main_own_words (h : Ready which sys files input filename content)
    (hne : distinctWords content ≠ [])
    (hrun : main which sys files [program, input, filename] = some (code, files'))
    (h' : Ready which' sys' files' (wordsName filename) filename' content')
    (hnames : filename'.length ≤ 4085) (program' : List UInt8) :
    ∃ (out : Files) (hash : UInt64),
      main which' sys' files' [program', wordsName filename, filename'] =
        some (successCode, out) ∧
      out (wordsName filename') = files' (wordsName filename) ∧
      files' (timeName filename) =
        some (timeText filename hash (which.maxThreads sys) sys.wallTime) ∧
      out (timeName filename') =
        some (timeText filename' hash (which'.maxThreads sys') sys'.wallTime) := by
  have hnames₁ := (wordsName_ne_timeName_iff filename).mpr (length_le_of_wordsName h'.short)
  have hnames₂ := (wordsName_ne_timeName_iff filename').mpr hnames
  rw [main_of_ready h program] at hrun
  obtain ⟨rfl, rfl⟩ := Prod.mk.inj (Option.some.inj hrun)
  -- what the second run reads are the lines of the words
  have hsaved : results which sys files filename (distinctWords content) (wordsName filename) =
      some (fileLines (distinctWords content)) := by
    rw [results_of_ne which sys files _ hnames₁, withWords_self files hne]
  obtain rfl := Option.some.inj (h'.holds.symm.trans hsaved)
  refine ⟨_, wordsHash (distinctWords content), main_of_ready h' program', ?_,
    results_time which sys files filename _, ?_⟩
  · rw [results_of_ne which' sys' _ _ hnames₂, distinctWords_fileLines, withWords_self _ hne,
      hsaved]
  · rw [results_time, distinctWords_fileLines]
    rfl

theorem distinctWords_two : distinctWords [98, 32, 97] = [[97], [98]] := by
  have hwords : (runStarts [98, 32, 97]).map (runText [98, 32, 97]) = [[98], [97]] := by decide
  rw [distinctWords, hwords]
  refine (eq_sortedDistinct (by decide) fun t => ?_).symm
  rw [List.mem_pair, List.mem_pair, or_comm]

/-- First `WordList` on the file `a`, then the baseline on what has been saved. -/
theorem main_own_words_two :
    ∃ out : Files, main .wordListBaseLine System.idle
        (results .wordList System.idle oneFile [114] (distinctWords [98, 32, 97]))
        [[], wordsName [114], [115]] = some (successCode, out) ∧
      out (wordsName [115]) = some [97, 10, 98, 10] := by
  have hsaved : results .wordList System.idle oneFile [114] (distinctWords [98, 32, 97])
      (wordsName [114]) = some [97, 10, 98, 10] := by
    rw [distinctWords_two]
    rfl
  have hready : Ready .wordListBaseLine System.idle
      (results .wordList System.idle oneFile [114] (distinctWords [98, 32, 97]))
      (wordsName [114]) [115] [97, 10, 98, 10] :=
    { toServed := served_idle .wordListBaseLine (by decide) (by decide) hsaved (by decide)
      length := by decide
      last := fun _ => rfl
      fits := by decide }
  have hne : distinctWords [98, 32, 97] ≠ [] := by
    rw [distinctWords_two]
    exact List.cons_ne_nil _ _
  obtain ⟨out, -, hrun, hwords, -⟩ := main_own_words ready_oneFile hne
    (main_of_ready ready_oneFile []) hready (by decide) []
  exact ⟨out, hrun, hwords.trans hsaved⟩

/-- **The file for the time can be read back**, with the hash of the words and the wall time.
The number of threads is right as long as it fits an `int8_t`. -/
theorem main_record (h : Ready which sys files input filename content)
    (hpos : 0 < sys.maxThreads) (hwall : (44 : UInt8) ∉ sys.wallTime)
    (hfits : filename.length + sys.wallTime.length ≤ 8160) (program : List UInt8) :
    ∃ (out : Files) (record : TimeRecord),
      main which sys files [program, input, filename] = some (successCode, out) ∧
      (out (timeName filename)).bind readTime = some record ∧
      record.filename = filename ∧ record.wallTime = sys.wallTime ∧
      record.hash = (wordsHash (distinctWords content)).toNat ∧
      (which = .wordList → (record.maxThreads = sys.maxThreads ↔ sys.maxThreads ≤ 127)) ∧
      (which = .wordListBaseLine → record.maxThreads = 1) := by
  have hthreads : -128 ≤ which.maxThreads sys ∧ which.maxThreads sys ≤ 127 := by
    cases which with
    | wordList => exact toInt8_bounds sys.maxThreads
    | wordListBaseLine => exact ⟨(by decide : (-128 : ℤ) ≤ 1), (by decide : (1 : ℤ) ≤ 127)⟩
  refine ⟨_, ⟨filename, (wordsHash (distinctWords content)).toNat, which.maxThreads sys,
    sys.wallTime⟩, main_of_ready h program, ?_, rfl, rfl, rfl, ?_, ?_⟩
  · rw [results_time, Option.bind_some, recorded, readTime_timeText _ hthreads hfits hwall]
  · rintro rfl
    exact toInt8_eq_iff hpos
  · rintro rfl
    rfl

theorem main_record_two :
    ∃ (out : Files) (record : TimeRecord),
      main .wordList System.idle oneFile [[], [97], [114]] = some (successCode, out) ∧
      (out (timeName [114])).bind readTime = some record ∧ record.maxThreads = 1 := by
  obtain ⟨out, record, hrun, hread, -, -, -, hthreads, -⟩ := main_record ready_oneFile
    (by decide) (by decide) (by decide) []
  exact ⟨out, record, hrun, hread, (hthreads rfl).mpr (by decide)⟩

/-! ## Files of any size -/

/-- What is left of a file when its length is kept in a `uint32_t`. -/
def seenPart (content : List UInt8) : List UInt8 := content.take (content.length % 2 ^ 32)

theorem length_seenPart (content : List UInt8) :
    (UInt32.ofNat content.length).toNat = (seenPart content).length := by
  rw [UInt32.toNat_ofNat', seenPart, List.length_take, Nat.min_eq_left (Nat.mod_le _ _)]

/-- What is found does not depend on what the memory behind the document is said to be. -/
theorem Implementation.find_beyond (which : Implementation) (sys : System) (beyond mem : Mem)
    (docLen : ℕ) : which.find { sys with beyond := beyond } mem docLen =
      which.find sys mem docLen := by
  cases which with
  | wordList => rfl
  | wordListBaseLine => rfl

/-- When the last byte is no letter, every word is followed by a separator. -/
theorem two_mul_length_runStarts_le {doc : Mem} (hlast : alnumAt doc (doc.length - 1) = false) :
    2 * (runStarts doc).length ≤ doc.length := by
  have htwo := (Baseline.two_mul_startsBelow doc doc.length).1
  have hstarts : startsBelow doc doc.length = runStarts doc := rfl
  cases hlen : doc.length with
  | zero =>
    rw [runStarts_eq_nil_of_length hlen]
    exact le_refl 0
  | succ n =>
    have hout : inWord doc (n + 1) = false := by
      rw [inWord]
      rwa [hlen] at hlast
    rwa [hstarts, hlen, hout, Bool.toNat_false] at htwo

/-- **A file of 4 GiB or more is cut without a word**: whatever its size, the run ends with `0`
and saves the distinct words of that many first bytes as the length has left modulo `2^32`,
provided that these do not end inside a word. -/
theorem main_large_file (h : Served which sys files input filename content)
    (hlast : alnumAt (seenPart content) ((seenPart content).length - 1) = false)
    (program : List UInt8) :
    main which sys files [program, input, filename] =
      some (successCode, results which sys files filename (distinctWords (seenPart content))) := by
  obtain ⟨array, hheap⟩ := h.mallocs_eq
  have hmem : content ++ sys.beyond = seenPart content ++
      (content.drop (content.length % 2 ^ 32) ++ sys.beyond) := by
    rw [seenPart, ← List.append_assoc, List.take_append_drop]
  have hsmall : (seenPart content).length < 2 ^ 32 := by
    rw [← length_seenPart]
    exact UInt32.toNat_lt _
  have htwo := two_mul_length_runStarts_le hlast
  have hfits : (runStarts (seenPart content)).length ≤
      Baseline.maxWords (seenPart content).length := by
    rw [Baseline.maxWords]
    omega
  refine main_of_served h program hmem (length_seenPart content) ?_
  -- what comes behind the part that is seen is the rest of the file
  let rest := content.drop (content.length % 2 ^ 32) ++ sys.beyond
  have hrest : ({ sys with beyond := rest } : System).mallocs = ⟨some array, true⟩ := hheap
  obtain ⟨found, hrun, hstrings⟩ := which.find_spec hrest
    (fun heq => ⟨h.words heq, hfits⟩)
    (fun h => absurd h (by rw [hlast]; exact Bool.false_ne_true)) (by omega)
  exact ⟨found, (which.find_beyond sys rest _ _).symm.trans hrun, hstrings⟩

/-- A text of 4 GiB and two bytes. -/
def hugeText : List UInt8 := 98 :: 32 :: List.replicate (2 ^ 32) 97

theorem seenPart_hugeText : seenPart hugeText = [98, 32] := by
  have hlength : hugeText.length % 2 ^ 32 = 2 := by
    rw [hugeText, List.length_cons, List.length_cons, List.length_replicate]
    norm_num
  rw [seenPart, hlength]
  rfl

/-- The system that reads it, -/
def hugeSystem : System := { System.idle with delivers := hugeText.length }

/-- and the file `a` with it. -/
def hugeFile : Files := fun name => if name = [97] then some hugeText else none

theorem served_hugeFile : Served .wordList hugeSystem hugeFile [97] [114] hugeText where
  noZero := by decide
  short := by decide
  holds := rfl
  readable := rfl
  malloc := rfl
  delivered := le_refl _
  wordArray := rfl
  strBlock := rfl
  words := by decide
  temp := rfl
  opensWords := rfl
  opensTime := rfl
  kept _ := rfl

/-- Only the first two bytes count. -/
theorem main_large_file_hugeFile :
    main .wordList hugeSystem hugeFile [[100], [97], [114]] =
      some (successCode, results .wordList hugeSystem hugeFile [114] (distinctWords [98, 32])) := by
  have hlast : alnumAt (seenPart hugeText) ((seenPart hugeText).length - 1) = false := by
    rw [seenPart_hugeText]
    decide
  have hrun := main_large_file served_hugeFile hlast [100]
  rwa [seenPart_hugeText] at hrun

/-! ## Runs that fail -/

section Fails

variable {found : FoundWords} {offset : ℕ}

end Fails

end EfficientDictionary
