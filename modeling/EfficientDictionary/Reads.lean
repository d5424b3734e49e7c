import EfficientDictionary.WordList

/-!
# The bytes WordList reads

After tokenizing, `WordList` looks at the document through `strcmp`, `strlen` and `memcpy`
only. Each of them stops at the `0` that ends a word, so everything depends on that `0`
lying in the document. The tokenizer writes one when it sees the separator after a word,
which a word at the very end of the document does not have.

* `sortedArray_guarded` — every call is about starts of runs.
* `exists_zero_after` — when the last byte is a separator every word ends in the document.
* `exists_read_length` — when it is not, some call looks at the byte after the document.
-/

namespace EfficientDictionary

variable {doc beyond mem : Mem} {p n : ℕ}

/-! ## The reads of a call -/

/-- The call looks at the first `n` bytes of memory only. -/
def Call.Inside (mem : Mem) (n : ℕ) (c : Call) : Prop := ∀ k ∈ c.reads mem, k < n

theorem strcmp_inside {a b : Ptr} (ha : a + strlenAt mem a < n) (hb : b + strlenAt mem b < n) :
    (Call.strcmp a b).Inside mem n := by
  intro k hk
  obtain ⟨j, hj, hmem⟩ := List.mem_flatMap.mp hk
  have hspan := strcmpSpan_le (mem.drop a) (mem.drop b)
  have hja : j ≤ strlenAt mem a := Nat.lt_succ_iff.mp ((List.mem_range.mp hj).trans_le hspan.1)
  have hjb : j ≤ strlenAt mem b := Nat.lt_succ_iff.mp ((List.mem_range.mp hj).trans_le hspan.2)
  rcases List.mem_cons.mp hmem with rfl | hmem
  · exact (Nat.add_le_add_left hja a).trans_lt ha
  · obtain rfl := List.mem_singleton.mp hmem
    exact (Nat.add_le_add_left hjb b).trans_lt hb

theorem strlen_inside {a : Ptr} (ha : a + strlenAt mem a < n) : (Call.strlen a).Inside mem n := by
  intro k hk
  obtain ⟨j, hj, rfl⟩ := List.mem_map.mp hk
  exact (Nat.add_le_add_left (Nat.lt_succ_iff.mp (List.mem_range.mp hj)) a).trans_lt ha

/-- Copying a string with its `0` reads what measuring it does. -/
theorem memcpy_inside {a : Ptr} (ha : a + strlenAt mem a < n) :
    (Call.memcpy a (strlenAt mem a + 1)).Inside mem n :=
  strlen_inside ha

/-- Every byte up to the `0` is read by `strlen`. -/
theorem mem_reads_strlen {a k : ℕ} (hk : k ≤ strlenAt mem a) :
    a + k ∈ (Call.strlen a).reads mem :=
  List.mem_map.mpr ⟨k, List.mem_range.mpr (by omega), rfl⟩

/-- And by `strcmp`, when the strings are equal. -/
theorem mem_reads_strcmp {a b k : ℕ} (heq : cstr mem a = cstr mem b) (hk : k ≤ strlenAt mem a) :
    a + k ∈ (Call.strcmp a b).reads mem := by
  have hspan := strcmpSpan_of_eq_zero (strcmpAt_eq_zero_iff.mpr heq)
  have hspan' : strcmpSpan (mem.drop a) (mem.drop b) = strlenAt mem a + 1 := hspan
  refine List.mem_flatMap.mpr ⟨k, List.mem_range.mpr (by omega), List.mem_cons_self⟩

/-! ## The ends of the words -/

/-- When the last byte is a separator, the `0` after a word lies in the document. -/
theorem exists_zero_after (beyond : Mem) (hlast : alnumAt doc (doc.length - 1) = false)
    (hp : p ∈ runStarts doc) :
    ∃ k, p < k ∧ k < doc.length ∧ byteAt (terminated doc ++ beyond) k = 0 := by
  have hrun := isRun_of_startsRun (mem_runStarts.mp hp)
  have hpos := hrun.pos
  have hlt : p + (runText doc p).length < doc.length := by
    refine lt_of_le_of_ne hrun.le_length fun hend => ?_
    have hinside := hrun.inside ((runText doc p).length - 1) (by omega)
    rw [← Nat.add_sub_assoc hpos, hend, hlast] at hinside
    exact Bool.false_ne_true hinside
  refine ⟨p + (runText doc p).length, by omega, hlt, ?_⟩
  rw [byteAt_terminated hlt, if_pos hrun.endsRun]

theorem add_strlenAt_lt (beyond : Mem) (hlast : alnumAt doc (doc.length - 1) = false)
    (hp : p ∈ runStarts doc) : p + strlenAt (terminated doc ++ beyond) p < doc.length := by
  obtain ⟨k, hpk, hk, hzero⟩ := exists_zero_after beyond hlast hp
  exact (add_strlenAt_le hpk.le hzero).trans_lt hk

/-- When it is a letter or digit, the last word does not. -/
theorem exists_runStart_of_last (hlast : alnumAt doc (doc.length - 1) = true) :
    ∃ s n, s ∈ runStarts doc ∧ s + n = doc.length ∧
      ∀ beyond, n ≤ strlenAt (terminated doc ++ beyond) s := by
  have hpos := lt_length_of_alnumAt hlast
  have hprev : inWord doc doc.length = true := by
    obtain ⟨m, hm⟩ : ∃ m, doc.length = m + 1 := ⟨doc.length - 1, by omega⟩
    rw [hm] at hlast ⊢
    exact hlast
  obtain ⟨s, n, hrun, hend⟩ := exists_isRun_of_inWord hprev (alnumAt_of_length_le (le_refl _))
  refine ⟨s, n, mem_runStarts.mpr hrun.startsRun, hend, fun beyond => ?_⟩
  by_contra hlt
  have hinside := hrun.inside _ (not_le.mp hlt)
  have hzero := byteAt_strlenAt (terminated doc ++ beyond) s
  rw [byteAt_terminated (lt_length_of_alnumAt hinside), if_neg] at hzero
  · exact byteAt_ne_zero_of_alnumAt hinside hzero
  · rw [endsRun, hinside]
    exact Bool.false_ne_true

/-! ## The calls of a run -/

/-- Every call of the sort and the filter is about starts of runs, and those are what the
array holds. -/
theorem sortedArray_guarded (beyond : Mem) (array : ℤ → Ptr) {Q : Call → Prop}
    (hQ : SortNotes (· ∈ runStarts doc) Q (-1) (runStarts doc).length) :
    Guarded (Set.Ico 0 ((runStarts doc).length : ℤ)) (· ∈ runStarts doc) Q
      (sortedArray quickSortWords doc beyond array).2 := by
  have hslice := collectWords_doc doc beyond ⟨array, []⟩
  have hnone := collectWords_keeps (R := ∅) (Q := fun _ => False)
    (terminated doc ++ beyond) doc.length ⟨array, []⟩
    ⟨fun _ h => absurd h (Set.notMem_empty _), fun _ h => absurd h List.not_mem_nil⟩
  have hfilled : Guarded (Set.Ico 0 ((runStarts doc).length : ℤ)) (· ∈ runStarts doc) Q
      ((collectWords (terminated doc ++ beyond) doc.length).exec ⟨array, []⟩) := by
    refine ⟨fun i hi => ?_, fun e he => (hnone.reported e he).elim⟩
    rw [← hslice]
    exact mem_slice.mpr ⟨i, hi.1, hi.2, rfl⟩
  exact uniqueWords_keeps hQ.strcmp _ (quickSortWords_keeps hQ _ hfilled)

/-- What the filter did, in terms of a permutation `w` of the starts. -/
theorem sortedArray_unique (beyond : Mem) (array : ℤ → Ptr) (hne : runStarts doc ≠ []) :
    ∃ w : ℤ → Ptr, (slice w 0 (runStarts doc).length).Perm (runStarts doc) ∧
      UniqueInv (terminated doc ++ beyond) w (runStarts doc).length
        (sortedArray quickSortWords doc beyond array).1
        (sortedArray quickSortWords doc beyond array).2 := by
  have hslice := collectWords_doc doc beyond ⟨array, []⟩
  have hsorted := quickSortWords_rearranges (terminated doc ++ beyond) (runStarts doc).length
    ((collectWords (terminated doc ++ beyond) doc.length).exec ⟨array, []⟩)
  have hperm := hsorted.perm
  rw [hslice] at hperm
  exact ⟨_, hperm, uniqueWords_inv _ (List.length_pos_iff.mpr hne) _⟩

/-- **When the last byte is a separator all reads stay in the document.** -/
theorem wordListCalls_inside (beyond : Mem) (array : ℤ → Ptr) (hne : runStarts doc ≠ [])
    (hlast : alnumAt doc (doc.length - 1) = false) :
    ∀ c ∈ wordListCalls quickSortWords doc beyond array,
      c.Inside (terminated doc ++ beyond) doc.length := by
  have hends := fun (p : Ptr) (hp : p ∈ runStarts doc) => add_strlenAt_lt beyond hlast hp
  have hguard := sortedArray_guarded beyond array
    (Q := Call.Inside (terminated doc ++ beyond) doc.length)
    ⟨fun a b ha hb => strcmp_inside (hends a ha) (hends b hb),
      fun v _ _ k hk => absurd hk List.not_mem_nil⟩
  obtain ⟨w, -, hunique⟩ := sortedArray_unique beyond array hne
  have hcount := length_firsts_le (cstr (terminated doc ++ beyond)) w (runStarts doc).length
  rw [← hunique.count] at hcount
  intro c hc
  rcases List.mem_append.mp hc with hc | hc
  · obtain ⟨i, hi, hcall⟩ := (packBlock_calls _ _).mp hc
    have hword := hguard.cells i ⟨by omega, by omega⟩
    rcases hcall with rfl | rfl
    · exact memcpy_inside (hends _ hword)
    · exact strlen_inside (hends _ hword)
  · exact hguard.notes c hc

/-- **When it is a letter or digit, the byte after the document is read**: the last word is
measured, or dropped because it equals another. -/
theorem exists_read_length (beyond : Mem) (array : ℤ → Ptr)
    (hlast : alnumAt doc (doc.length - 1) = true) :
    ∃ c ∈ wordListCalls quickSortWords doc beyond array,
      doc.length ∈ c.reads (terminated doc ++ beyond) := by
  obtain ⟨s, n, hs, hend, hstrlen⟩ := exists_runStart_of_last hlast
  obtain ⟨w, hperm, hunique⟩ := sortedArray_unique beyond array (List.ne_nil_of_mem hs)
  obtain ⟨i, hi, hin, rfl⟩ := mem_slice.mp (hperm.mem_iff.mpr hs)
  obtain ⟨k, rfl⟩ := Int.eq_ofNat_of_zero_le hi
  have hk : k < (runStarts doc).length := Int.ofNat_lt.mp hin
  rw [← hend]
  by_cases hfirst : k ∈ firsts (cstr (terminated doc ++ beyond)) w (runStarts doc).length
  · -- the word is kept, so its length is taken
    have hfront : w k ∈ slice (sortedArray quickSortWords doc beyond array).2.cells 0
        (sortedArray quickSortWords doc beyond array).1 := by
      rw [hunique.front]
      exact List.mem_map.mpr ⟨k, hfirst, rfl⟩
    obtain ⟨j, hj, hju, hcell⟩ := mem_slice.mp hfront
    obtain ⟨m, rfl⟩ := Int.eq_ofNat_of_zero_le hj
    refine ⟨.strlen (w k), List.mem_append_left _ ?_, mem_reads_strlen (hstrlen beyond)⟩
    refine (packBlock_calls _ _).mpr ⟨m, Int.ofNat_lt.mp hju, Or.inr ?_⟩
    rw [← hcell]
  · -- it is dropped, so it has been compared with an equal word
    rw [mem_firsts, not_and, not_or, not_not] at hfirst
    obtain ⟨hzero, heq⟩ := hfirst hk
    refine ⟨.strcmp (w k) (w (k - 1)), List.mem_append_right _ ?_,
      mem_reads_strcmp heq (hstrlen beyond)⟩
    exact mem_notes.mpr (hunique.calls k (Nat.one_le_iff_ne_zero.mpr hzero) hk)

/-- **The reads stay in the document exactly when its last byte is a separator**, and so
does the `0` after each word the second scan has stored. -/
theorem wordList_reads_inside (doc beyond : Mem) (array : ℤ → Ptr) :
    ∃ (o : Outcome) (mem : Mem),
      wordList ⟨some array, true⟩ (some (doc ++ beyond)) doc.length = .ok o ∧
      o.doc = some mem ∧
      (((∀ c ∈ o.calls, ∀ k ∈ c.reads mem, k < doc.length) ∧
        ∀ p ∈ slice ((collectWords mem doc.length).exec ⟨array, []⟩).cells 0
            (countWords (doc ++ beyond) doc.length).wordCount,
          ∃ k, p < k ∧ k < doc.length ∧ byteAt mem k = 0) ↔
        alnumAt doc (doc.length - 1) = false) := by
  have hpointers : slice ((collectWords (terminated doc ++ beyond) doc.length).exec
      ⟨array, []⟩).cells 0 (countWords (doc ++ beyond) doc.length).wordCount = runStarts doc := by
    rw [(countWords_doc doc beyond).2]
    exact collectWords_doc doc beyond ⟨array, []⟩
  by_cases hne : runStarts doc = []
  · refine ⟨_, terminated doc ++ beyond, wordListWith_of_nil _ hne, rfl, ?_⟩
    rw [hpointers, hne]
    refine iff_of_true ⟨fun c hc => ?_, fun p hp => ?_⟩ (Bool.eq_false_iff.mpr fun hlast => ?_)
    · exact absurd hc List.not_mem_nil
    · exact absurd hp List.not_mem_nil
    · obtain ⟨s, _, hs, _⟩ := exists_runStart_of_last hlast
      rw [hne] at hs
      exact absurd hs List.not_mem_nil
  · have hrun := wordListWith_packs quickSortWords beyond array hne
    refine ⟨_, terminated doc ++ beyond, hrun, rfl, ?_⟩
    rw [hpointers]
    refine ⟨fun h => Bool.eq_false_iff.mpr fun hlast => ?_, fun hlast => ⟨?_, fun p hp => ?_⟩⟩
    · obtain ⟨c, hc, hread⟩ := exists_read_length beyond array hlast
      exact absurd (h.1 c hc _ hread) (lt_irrefl _)
    · exact wordListCalls_inside beyond array hne hlast
    · exact exists_zero_after beyond hlast hp

/-- The document `a`: `strlen` looks for the end of the word behind the document. -/
theorem wordList_reads_letter :
    ¬ ∀ o, wordList ⟨some fun _ => 0, true⟩ (some [97]) 1 = .ok o →
      ∀ c ∈ o.calls, ∀ k ∈ c.reads [97], k < 1 :=
  fun h => absurd (h _ rfl (.strlen 0) (by decide) 1 (by decide)) (by decide)

end EfficientDictionary
