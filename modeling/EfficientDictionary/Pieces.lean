import EfficientDictionary.Idempotence

/-!
# Documents in pieces

The words of a document once more, cut out at the bytes that are neither letters nor digits
(`pieces`). Seen so, the tokenizers distribute over concatenation, as long as a separator
stands between the parts, and the result for a whole is determined by the results for its
parts, whichever implementation computed them.
-/

namespace EfficientDictionary

variable {doc doc' beyond : Mem} {b : UInt8} {i s : ℕ}

/-- The words of the document, in order of appearance. -/
def wordsOf (doc : Mem) : List (List UInt8) := (runStarts doc).map (runText doc)

theorem length_wordsOf (doc : Mem) : (wordsOf doc).length = (runStarts doc).length :=
  List.length_map _

/-- The strings that `strcmp` sees are the words, when a `0` follows the last one. -/
theorem map_cstr_eq_wordsOf {doc beyond : Mem}
    (hlast : alnumAt doc (doc.length - 1) = true → byteAt beyond 0 = 0) :
    (runStarts doc).map (cstr (terminated doc ++ beyond)) = wordsOf doc :=
  List.map_congr_left fun _ hs => cstr_terminated_of_last hlast (mem_runStarts.mp hs)

/-- What is left between the bytes that are neither letters nor digits. -/
def pieces (doc : Mem) : List (List UInt8) :=
  (doc.splitOnP fun b => !isLetter b).filter fun t => t ≠ []

/-! ## Two documents with a separator between them -/

section Append

theorem byteAt_append_cons_left (doc doc' : Mem) (b : UInt8) (h : i < doc.length) :
    byteAt (doc ++ b :: doc') i = byteAt doc i := byteAt_append_left h

theorem byteAt_append_cons_self (doc doc' : Mem) (b : UInt8) :
    byteAt (doc ++ b :: doc') doc.length = b := by
  rw [byteAt, List.getElem?_append_right (le_refl _), Nat.sub_self]
  rfl

theorem byteAt_append_cons_right (doc doc' : Mem) (b : UInt8) (i : ℕ) :
    byteAt (doc ++ b :: doc') (doc.length + 1 + i) = byteAt doc' i := by
  have hsub : doc.length + 1 + i - doc.length = i + 1 := by omega
  rw [byteAt, List.getElem?_append_right (by omega), hsub]
  rfl

theorem inWord_append_cons_left (doc doc' : Mem) (b : UInt8) (h : i ≤ doc.length) :
    inWord (doc ++ b :: doc') i = inWord doc i := by
  cases i with
  | zero => rfl
  | succ i => rw [inWord, inWord, alnumAt, alnumAt, byteAt_append_cons_left doc doc' b h]

theorem inWord_append_cons_right (h : isLetter b = false) (doc doc' : Mem) (i : ℕ) :
    inWord (doc ++ b :: doc') (doc.length + 1 + i) = inWord doc' i := by
  cases i with
  | zero =>
    have hself : alnumAt (doc ++ b :: doc') doc.length = false := by
      rw [alnumAt, byteAt_append_cons_self, h]
    exact hself
  | succ i =>
    rw [← Nat.add_assoc, inWord, inWord, alnumAt, alnumAt, byteAt_append_cons_right]

theorem startsRun_append_cons_left (doc doc' : Mem) (b : UInt8) (h : i < doc.length) :
    startsRun (doc ++ b :: doc') i = startsRun doc i := by
  rw [startsRun, startsRun, alnumAt, alnumAt, byteAt_append_cons_left doc doc' b h,
    inWord_append_cons_left doc doc' b h.le]

theorem startsRun_append_cons_self (h : isLetter b = false) (doc doc' : Mem) :
    startsRun (doc ++ b :: doc') doc.length = false := by
  rw [startsRun, alnumAt, byteAt_append_cons_self, h]
  rfl

theorem startsRun_append_cons_right (h : isLetter b = false) (doc doc' : Mem) (i : ℕ) :
    startsRun (doc ++ b :: doc') (doc.length + 1 + i) = startsRun doc' i := by
  rw [startsRun, startsRun, alnumAt, alnumAt, byteAt_append_cons_right,
    inWord_append_cons_right h]

/-- The runs of the whole are those of the first part, then those of the second. -/
theorem runStarts_append_cons (h : isLetter b = false) (doc doc' : Mem) :
    runStarts (doc ++ b :: doc') =
      runStarts doc ++ (runStarts doc').map (doc.length + 1 + ·) := by
  have hlen : (doc ++ b :: doc').length = doc.length + 1 + doc'.length := by
    rw [List.length_append, List.length_cons]
    omega
  have hfirst : (List.range doc.length).filter (startsRun (doc ++ b :: doc')) =
      runStarts doc :=
    List.filter_congr fun i hi =>
      startsRun_append_cons_left doc doc' b (List.mem_range.mp hi)
  have hself := startsRun_append_cons_self h doc doc'
  rw [runStarts, hlen, List.range_add, List.range_succ, List.filter_append, List.filter_append,
    hfirst, List.filter_map, List.filter_cons_of_neg (by rw [hself]; exact Bool.false_ne_true),
    List.filter_nil, List.append_nil]
  congr 2
  exact List.filter_congr fun i _ => startsRun_append_cons_right h doc doc' i

theorem runText_append_cons_left (h : isLetter b = false) (hs : s ≤ doc.length) :
    runText (doc ++ b :: doc') s = runText doc s := by
  have hstop : (b :: doc').takeWhile isLetter = [] :=
    List.takeWhile_cons_of_neg (by rw [h]; exact Bool.false_ne_true)
  rw [runText, runText, List.drop_append_of_le_length hs, List.takeWhile_append]
  split_ifs with hall
  · have hsame := (List.takeWhile_prefix (p := isLetter) (l := doc.drop s)).eq_of_length hall
    rw [hstop, List.append_nil, hsame]
  · rfl

theorem runText_append_cons_right (doc doc' : Mem) (b : UInt8) (s : ℕ) :
    runText (doc ++ b :: doc') (doc.length + 1 + s) = runText doc' s := by
  have hdrop : (doc ++ b :: doc').drop (doc.length + 1 + s) = doc'.drop s := by
    rw [Nat.add_assoc, List.drop_length_add_append, Nat.add_comm, List.drop_succ_cons]
  rw [runText, runText, hdrop]

/-- The words of the whole are those of the first part, then those of the second. -/
theorem wordsOf_append_cons (h : isLetter b = false) (doc doc' : Mem) :
    wordsOf (doc ++ b :: doc') = wordsOf doc ++ wordsOf doc' := by
  rw [wordsOf, runStarts_append_cons h, List.map_append, List.map_map]
  refine congrArg₂ (· ++ ·) (List.map_congr_left fun s hs => ?_)
    (List.map_congr_left fun s _ => runText_append_cons_right doc doc' b s)
  exact runText_append_cons_left h (startsRun_lt_length (mem_runStarts.mp hs)).le

end Append

/-! ## The pieces -/

section Pieces

theorem alnumAt_of_forall (hall : ∀ b ∈ doc, isLetter b = true) (h : i < doc.length) :
    alnumAt doc i = true := by
  rw [alnumAt, byteAt, List.getElem?_eq_getElem h]
  exact hall _ (List.getElem_mem h)

/-- A document of letters and digits only is one run. -/
theorem runStarts_of_forall (hall : ∀ b ∈ doc, isLetter b = true) (hne : doc ≠ []) :
    runStarts doc = [0] := by
  obtain ⟨n, hn⟩ : ∃ n, doc.length = n + 1 :=
    Nat.exists_eq_succ_of_ne_zero fun h => hne (List.length_eq_zero_iff.mp h)
  have hfirst : startsRun doc 0 = true := by
    rw [startsRun, alnumAt_of_forall hall (by omega)]
    rfl
  have hrest : ((List.range n).map Nat.succ).filter (startsRun doc) = [] := by
    refine List.filter_eq_nil_iff.mpr fun i hi hstart => ?_
    obtain ⟨j, hj, rfl⟩ := List.mem_map.mp hi
    have hlt := List.mem_range.mp hj
    have hletter := alnumAt_of_forall hall (by omega : j < doc.length)
    rw [startsRun, Nat.succ_eq_add_one, inWord, hletter, Bool.not_true, Bool.and_false] at hstart
    cases hstart
  rw [runStarts, hn, List.range_succ_eq_map, List.filter_cons_of_pos hfirst, hrest]

theorem wordsOf_of_forall (hall : ∀ b ∈ doc, isLetter b = true) (hne : doc ≠ []) :
    wordsOf doc = [doc] := by
  rw [wordsOf, runStarts_of_forall hall hne, List.map_singleton, runText, List.drop_zero,
    List.takeWhile_eq_self_iff.mpr hall]

theorem pieces_append_cons (h : isLetter b = false) (doc doc' : Mem) :
    pieces (doc ++ b :: doc') = pieces doc ++ pieces doc' := by
  have hsplit : (doc ++ b :: doc').splitOnP (fun b => !isLetter b) =
      doc.splitOnP (fun b => !isLetter b) ++ doc'.splitOnP (fun b => !isLetter b) :=
    List.splitOnP_append_cons doc doc' (congrArg not h)
  rw [pieces, hsplit, List.filter_append]
  rfl

theorem pieces_of_forall (hall : ∀ b ∈ doc, isLetter b = true) (hne : doc ≠ []) :
    pieces doc = [doc] := by
  have hnone : ∀ b ∈ doc, (!isLetter b) = false := fun b hb => by rw [hall b hb]; rfl
  have hkept : decide (doc ≠ []) = true := decide_eq_true hne
  rw [pieces, List.splitOnP_eq_singleton hnone, List.filter_cons, if_pos hkept, List.filter_nil]

/-- The words are the pieces that are not empty. -/
theorem wordsOf_eq_pieces (doc : Mem) : wordsOf doc = pieces doc := by
  induction hn : doc.length using Nat.strong_induction_on generalizing doc with
  | _ n ih =>
    by_cases hall : ∀ b ∈ doc, isLetter b = true
    · by_cases hne : doc = []
      · rw [hne]
        rfl
      · rw [wordsOf_of_forall hall hne, pieces_of_forall hall hne]
    · -- any separator cuts it in two
      push Not at hall
      obtain ⟨b, hb, hsep⟩ := hall
      obtain ⟨first, rest, rfl⟩ := List.append_of_mem hb
      have hsep := Bool.eq_false_iff.mpr hsep
      rw [List.length_append, List.length_cons] at hn
      rw [wordsOf_append_cons hsep, pieces_append_cons hsep, ih _ (by omega) first rfl,
        ih _ (by omega) rest rfl]

end Pieces

/-! ## The tokenizers -/

section Tokenizers

/-- **Both tokenizers cut the document at the separators**: the pointers they store are to the
pieces that are not empty, in order of appearance and each as often as it appears, and the
first scan of `WordList` has counted them. -/
theorem tokenizers_split (doc beyond : Mem) (array : ℤ → Ptr) (array' : ℤ → Option Ptr)
    (hzero : byteAt beyond 0 = 0) :
    let st := countWords (doc ++ beyond) doc.length
    let stored := (collectWords st.mem doc.length).exec ⟨array, []⟩
    let scanned := (Baseline.scanWords (doc ++ beyond) doc.length).run ⟨array', []⟩
    st.wordCount = (pieces doc).length ∧ scanned.1.count = (pieces doc).length ∧
      (slice stored.cells 0 st.wordCount).map (cstr st.mem) = pieces doc ∧
      (slice scanned.2.cells 0 scanned.1.count).map (Option.map (cstr scanned.1.mem)) =
        (pieces doc).map some := by
  obtain ⟨hmem, hcount⟩ := countWords_doc doc beyond
  obtain ⟨hstate, hscanned⟩ := Baseline.scanWords_doc doc beyond array'
  have hstored := collectWords_doc doc beyond ⟨array, []⟩
  have hlength : (pieces doc).length = (runStarts doc).length := by
    rw [← wordsOf_eq_pieces, length_wordsOf]
  have hcstr := map_cstr_runStarts hzero doc
  have hstate : ((Baseline.scanWords (doc ++ beyond) doc.length).run ⟨array', []⟩).1 =
      ⟨terminated doc ++ beyond, (runStarts doc).length, inWord doc doc.length⟩ := hstate
  dsimp only
  rw [hmem, hcount, hstate, hlength]
  refine ⟨rfl, rfl, ?_, ?_⟩
  · rw [hstored, hcstr, ← wordsOf_eq_pieces, wordsOf]
  · refine (congrArg (List.map _) hscanned).trans ?_
    rw [← wordsOf_eq_pieces, wordsOf, ← hcstr, List.map_map, List.map_map]
    rfl

/-- The document `a-b-a`. -/
theorem tokenizers_split_three :
    (slice ((collectWords (countWords [97, 45, 98, 45, 97] 5).mem 5).exec
        ⟨fun _ => 0, []⟩).cells 0 (countWords [97, 45, 98, 45, 97] 5).wordCount).map
      (cstr (countWords [97, 45, 98, 45, 97] 5).mem) = pieces [97, 45, 98, 45, 97] :=
  (tokenizers_split [97, 45, 98, 45, 97] [] (fun _ => 0) (fun _ => none) rfl).2.2.1

theorem distinctWords_eq_wordsOf (doc : Mem) : distinctWords doc = sortedDistinct (wordsOf doc) :=
  rfl

/-- The distinct strings of two lists are found among those of either. -/
theorem sortedDistinct_append (words words' : List (List UInt8)) :
    sortedDistinct (words ++ words') =
      sortedDistinct (sortedDistinct words ++ sortedDistinct words') := by
  refine eq_sortedDistinct (sortedDistinct_pairwise _) fun t => ?_
  rw [mem_sortedDistinct, List.mem_append, List.mem_append, mem_sortedDistinct,
    mem_sortedDistinct]

/-- **The words of the whole from the words of the parts**: when a separator stands between two
parts of a document, the words of the whole are those that either implementation finds in the
parts, put together, sorted, and without duplicates. -/
theorem tokenizing_append (doc doc' beyond beyond₁ beyond₂ : Mem) {b : UInt8}
    (hsep : isalnum (uchar b) = false) (hzero : byteAt beyond 0 = 0)
    (hzero₁ : byteAt beyond₁ 0 = 0) (hzero₂ : byteAt beyond₂ 0 = 0)
    (hruns : (runStarts (doc ++ b :: doc')).length < 2 ^ 31)
    (whole first second : Implementation) (arrays arrays₁ arrays₂ : Arrays) :
    ∃ (found found₁ found₂ : Found) (strs₁ strs₂ : List (List UInt8)),
      whole.run arrays ((doc ++ b :: doc') ++ beyond) (doc ++ b :: doc').length = some found ∧
      first.run arrays₁ (doc ++ beyond₁) doc.length = some found₁ ∧
      second.run arrays₂ (doc' ++ beyond₂) doc'.length = some found₂ ∧
      found₁.strings = strs₁.map some ∧ found₂.strings = strs₂.map some ∧
      found.strings = (sortedDistinct (strs₁ ++ strs₂)).map some := by
  have hsplit := runStarts_append_cons hsep doc doc'
  rw [hsplit, List.length_append, List.length_map] at hruns
  have hwords : distinctWords (doc ++ b :: doc') =
      sortedDistinct (distinctWords doc ++ distinctWords doc') := by
    rw [distinctWords_eq_wordsOf, wordsOf_append_cons hsep, sortedDistinct_append]
    rfl
  refine ⟨_, _, _, distinctWords doc, distinctWords doc', whole.run_eq arrays hzero ?_,
    first.run_eq arrays₁ hzero₁ (by omega), second.run_eq arrays₂ hzero₂ (by omega), rfl, rfl, ?_⟩
  · rw [hsplit, List.length_append, List.length_map]
    exact hruns
  · rw [hwords]

/-- The documents `b a` and `a`, with a hyphen between them. -/
theorem tokenizing_append_two :
    ∃ (found : Found) (strs₁ strs₂ : List (List UInt8)),
      Implementation.wordList.run ⟨fun _ => 0, fun _ => none⟩ [98, 32, 97, 45, 97] 5 =
        some found ∧ found.strings = (sortedDistinct (strs₁ ++ strs₂)).map some := by
  obtain ⟨found, -, -, strs₁, strs₂, hrun, -, -, -, -, hstrs⟩ :=
    tokenizing_append [98, 32, 97] [97] [] [] [] (b := 45) (by decide) rfl rfl rfl (by decide)
      .wordList .wordListBaseLine .wordList ⟨fun _ => 0, fun _ => none⟩
      ⟨fun _ => 0, fun _ => none⟩ ⟨fun _ => 0, fun _ => none⟩
  exact ⟨found, strs₁, strs₂, hrun, hstrs⟩

end Tokenizers

end EfficientDictionary
