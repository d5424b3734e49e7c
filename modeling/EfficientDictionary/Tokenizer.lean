import EfficientDictionary.Runs

/-!
# The two scans of WordList

The first scan counts the words and writes a `0` after each; the second runs over the
buffer the first has altered and stores a pointer to every word.

Both are the same state machine, with `in_word` as its state. The invariant is that after
`n` bytes `in_word` says whether the byte before `n` is a letter or digit (`inWord`), so a
word is begun exactly where a run starts and ended exactly where one ends.
-/

namespace EfficientDictionary

variable {doc beyond : Mem} {n : ℕ}

/-! ## Definitions -/

/-- The variables of the first scan. -/
structure ScanState where
  /-- the document and whatever follows it -/
  mem : Mem
  /-- `word_count` -/
  wordCount : ℕ
  /-- `in_word` -/
  inWord : Bool

/-- One turn of the first scan. -/
def countStep (st : ScanState) (i : ℕ) : ScanState :=
  let letter := isalnum (uchar (byteAt st.mem i))
  if letter && !st.inWord then
    { st with wordCount := st.wordCount + 1, inWord := true }
  else if !letter && st.inWord then
    { st with mem := st.mem.set i 0, inWord := false }
  else
    st

/-- The first scan. -/
def countWords (mem : Mem) (docLen : ℕ) : ScanState :=
  (List.range docLen).foldl countStep ⟨mem, 0, false⟩

/-- One turn of the second scan, on `word_start` and `in_word`. -/
def collectStep (mem : Mem) (i : ℕ) (st : ℕ × Bool) : CProg Ptr (ℕ × Bool) :=
  let letter := isalnum (uchar (byteAt mem i))
  if letter && !st.2 then do
    store st.1 i
    pure (st.1 + 1, true)
  else if !letter && st.2 then
    pure (st.1, false)
  else
    pure st

/-- The second scan. -/
def collectWords (mem : Mem) (docLen : ℕ) : CProg Ptr (ℕ × Bool) :=
  forEach (List.range docLen) (0, false) (collectStep mem)

/-! ## The first scan -/

/-- The starts of the runs below `n`. -/
def startsBelow (doc : Mem) (n : ℕ) : List ℕ := (List.range n).filter (startsRun doc)

theorem startsBelow_succ (doc : Mem) (n : ℕ) :
    startsBelow doc (n + 1) =
      startsBelow doc n ++ if startsRun doc n = true then [n] else [] := by
  by_cases h : startsRun doc n = true
  · simp [startsBelow, List.range_succ, h]
  · simp [startsBelow, List.range_succ, h]

theorem length_startsBelow_succ (doc : Mem) (n : ℕ) :
    (startsBelow doc (n + 1)).length =
      if alnumAt doc n = true ∧ inWord doc n = false then (startsBelow doc n).length + 1
      else (startsBelow doc n).length := by
  rw [startsBelow_succ]
  by_cases h : startsRun doc n = true
  · rw [if_pos h, if_pos (startsRun_iff.mpr h), List.length_append, List.length_singleton]
  · rw [if_neg h, if_neg (mt startsRun_iff.mp h), List.append_nil]

/-- After any turn `in_word` says what the byte was. -/
theorem countStep_eq (mem : Mem) (k : ℕ) (b : Bool) (i : ℕ) :
    countStep ⟨mem, k, b⟩ i =
      ⟨if isLetter (byteAt mem i) = false ∧ b = true then mem.set i 0 else mem,
        if isLetter (byteAt mem i) = true ∧ b = false then k + 1 else k,
        isLetter (byteAt mem i)⟩ := by
  have hletter : isalnum (uchar (byteAt mem i)) = isLetter (byteAt mem i) := rfl
  rw [countStep, hletter]
  cases isLetter (byteAt mem i) <;> cases b <;> simp

/-- The memory and the counters after `n` bytes. -/
theorem countWords_eq (hn : n ≤ doc.length) :
    countWords (doc ++ beyond) n =
      ⟨zeroAt (endsRun doc) n (doc ++ beyond), (startsBelow doc n).length, inWord doc n⟩ := by
  induction n with
  | zero => rw [zeroAt_zero]; rfl
  | succ n ih =>
    have hbyte : isLetter (byteAt (zeroAt (endsRun doc) n (doc ++ beyond)) n) = alnumAt doc n :=
      isLetter_zeroAt (by omega)
    rw [countWords, List.range_succ, List.foldl_append, ← countWords, ih (by omega),
      List.foldl_cons, List.foldl_nil, countStep_eq, hbyte, zeroAt_endsRun_succ,
      length_startsBelow_succ]
    rfl

/-- What the first scan leaves: the terminated document and the number of its runs. -/
theorem countWords_doc (doc beyond : Mem) :
    (countWords (doc ++ beyond) doc.length).mem = terminated doc ++ beyond ∧
      (countWords (doc ++ beyond) doc.length).wordCount = (runStarts doc).length := by
  rw [countWords_eq (le_refl doc.length), zeroAt_append]
  exact ⟨rfl, rfl⟩

/-! ## The second scan -/

/-- After any turn `in_word` says what the byte was, and a pointer was stored at a letter
outside a word only. -/
theorem collectStep_spec (mem : Mem) (i k : ℕ) (b : Bool) (s : Machine Call Ptr) :
    (collectStep mem i (k, b)).val s =
      ((if isLetter (byteAt mem i) = true ∧ b = false then k + 1 else k),
        isLetter (byteAt mem i)) ∧
    (collectStep mem i (k, b)).exec s =
      if isLetter (byteAt mem i) = true ∧ b = false then
        (store (k : ℤ) i : CProg Ptr PUnit).exec s
      else s := by
  have hletter : isalnum (uchar (byteAt mem i)) = isLetter (byteAt mem i) := rfl
  rw [collectStep, hletter]
  cases isLetter (byteAt mem i) <;> cases b <;> simp

/-- After `n` bytes: the runs begun so far are counted, their starts are in the array, in
order and from index `0` on, and nothing else has been stored. -/
structure CollectInv (doc : Mem) (n : ℕ) (s : Machine Call Ptr) (st : ℕ × Bool)
    (s' : Machine Call Ptr) : Prop where
  /-- the variables -/
  state : st = ((startsBelow doc n).length, inWord doc n)
  /-- the array -/
  words : slice s'.cells 0 (startsBelow doc n).length = startsBelow doc n
  /-- the stores -/
  stored : stores s'.trace =
    ((List.range (startsBelow doc n).length).map Int.ofNat).reverse ++ stores s.trace

theorem collectStep_inv {st : ℕ × Bool} {s s' : Machine Call Ptr} (hn : n < doc.length)
    (h : CollectInv doc n s st s') :
    CollectInv doc (n + 1) s ((collectStep (terminated doc ++ beyond) n st).val s')
      ((collectStep (terminated doc ++ beyond) n st).exec s') := by
  obtain ⟨rfl, hwords, hstored⟩ := h
  obtain ⟨hval, hexec⟩ := collectStep_spec (terminated doc ++ beyond) n
    (startsBelow doc n).length (inWord doc n) s'
  rw [isLetter_terminated hn] at hval hexec
  rw [hval, hexec]
  by_cases h : startsRun doc n = true
  · rw [if_pos (startsRun_iff.mpr h), if_pos (startsRun_iff.mpr h)]
    have hnext : startsBelow doc (n + 1) = startsBelow doc n ++ [n] := by
      rw [startsBelow_succ, if_pos h]
    refine ⟨?_, ?_, ?_⟩
    · rw [hnext, List.length_append]
      rfl
    · rw [hnext, List.length_append, List.length_singleton, Nat.cast_succ, store_exec,
        slice_update_right (Int.natCast_nonneg _), hwords]
    · rw [hnext, List.length_append, List.length_singleton, stores_store, hstored, List.range_succ,
        List.map_append, List.reverse_append]
      rfl
  · rw [if_neg (mt startsRun_iff.mp h), if_neg (mt startsRun_iff.mp h)]
    have hnext : startsBelow doc (n + 1) = startsBelow doc n := by
      rw [startsBelow_succ, if_neg h, List.append_nil]
    refine ⟨?_, ?_, ?_⟩
    · rw [hnext]
      rfl
    · rw [hnext]
      exact hwords
    · rw [hnext]
      exact hstored

/-- The second scan stores the starts of the runs, in order, from index `0` on. -/
theorem collectWords_inv (beyond : Mem) (hn : n ≤ doc.length) (s : Machine Call Ptr) :
    CollectInv doc n s ((collectWords (terminated doc ++ beyond) n).val s)
      ((collectWords (terminated doc ++ beyond) n).exec s) := by
  refine forEach_range_inv (f := collectStep (terminated doc ++ beyond))
    (I := fun i st s' => CollectInv doc i s st s') ⟨rfl, rfl, rfl⟩ ?_
  exact fun i st s' hi h => collectStep_inv (by omega) h

theorem collectWords_doc (doc beyond : Mem) (s : Machine Call Ptr) :
    slice ((collectWords (terminated doc ++ beyond) doc.length).exec s).cells 0
      (runStarts doc).length = runStarts doc :=
  (collectWords_inv beyond (le_refl doc.length) s).words

/-- The second scan reports nothing. -/
theorem collectWords_keeps {R : Set ℤ} {Q : Call → Prop} (mem : Mem) (docLen : ℕ) :
    Keeps R (fun _ => True) Q (collectWords mem docLen) := by
  refine Keeps.forEach_range (I := fun _ _ => True) trivial fun i st _ _ => ⟨?_, fun _ => trivial⟩
  refine Keeps.ite (fun _ => ?_) fun _ => Keeps.ite (fun _ => Keeps.pure _) fun _ => Keeps.pure _
  exact (Keeps.store fun _ => trivial).bind fun _ _ => Keeps.pure _

/-- **The two scans agree.** The second scan, over the buffer the first has altered, stores
`word_count` pointers, each index below it once and in order. They are the starts of the
maximal runs of the original document, in increasing order, and in the buffer, cut off
after the document, the string at each of them is its run. -/
theorem collectWords_stores_runs (doc beyond : Mem) (array : ℤ → Ptr) :
    let st := countWords (doc ++ beyond) doc.length
    let r := (collectWords st.mem doc.length).run ⟨array, []⟩
    let ps := slice r.2.cells 0 st.wordCount
    r.1.1 = st.wordCount ∧
      (stores r.2.trace).reverse = (List.range st.wordCount).map Int.ofNat ∧
      ps.Pairwise (· < ·) ∧ (∀ p, p ∈ ps ↔ ∃ n, IsRun doc p n) ∧
      ∀ p n, IsRun doc p n → cstr (st.mem.take doc.length) p = (doc.drop p).take n := by
  obtain ⟨hmem, hcount⟩ := countWords_doc doc beyond
  have hinv := collectWords_inv beyond (le_refl doc.length) ⟨array, []⟩
  have hstarts : startsBelow doc doc.length = runStarts doc := rfl
  dsimp only
  rw [hmem, hcount, List.take_left' (length_terminated doc)]
  refine ⟨congrArg Prod.fst hinv.state, ?_, ?_, fun p => ?_, fun p n h => ?_⟩
  · refine (congrArg List.reverse hinv.stored).trans ?_
    rw [hstarts, List.reverse_append, List.reverse_reverse]
    rfl
  · refine (congrArg (List.Pairwise (· < ·)) hinv.words).mpr (runStarts_pairwise doc)
  · refine (congrArg (p ∈ ·) hinv.words).to_iff.trans (mem_runStarts.trans ⟨fun h => ?_, ?_⟩)
    · exact ⟨_, isRun_of_startsRun h⟩
    · rintro ⟨n, h⟩
      exact h.startsRun
  · rw [← h.text_eq_take, ← @cstr_terminated doc [] p rfl h.startsRun, List.append_nil]

end EfficientDictionary
