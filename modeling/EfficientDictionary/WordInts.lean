import EfficientDictionary.IntRange
import EfficientDictionary.Reads
import EfficientDictionary.BaselineWordList

/-!
# What fits an `int` in WordList

How many words a text may have for the sort of `WordList` to stay within `int`.

* `length_runStarts_eq_iff` — how long a text must be for the number of its words not to be an
  `int`.
* `wordList_ints_iff` — of these texts, which ones make the sort form that number.
-/

namespace EfficientDictionary

section WordList

variable {doc beyond : Mem}

/-- The numbers a run reports are those of its sort and its filter, as packing reports none. -/
theorem int_mem_wordListCalls {beyond : Mem} {array : ℤ → Ptr} {v : ℤ} :
    .int v ∈ wordListCalls quickSortWords doc beyond array ↔
      .note (.int v) ∈ (sortedArray quickSortWords doc beyond array).2.trace := by
  rw [wordListCalls, List.mem_append, mem_notes]
  refine or_iff_right fun hpack => ?_
  obtain ⟨i, _, hcall⟩ := (packBlock_calls _ _).mp hpack
  rcases hcall with hcall | hcall <;> exact nomatch hcall

/-- The number of words is reported when the index after the last one is formed. -/
theorem length_mem_wordListCalls_iff (beyond : Mem) (array : ℤ → Ptr)
    (h : (runStarts doc).length ≤ 2 ^ 31) :
    .int (runStarts doc).length ∈ wordListCalls quickSortWords doc beyond array ↔
      LastTop ((runStarts doc).map (cstr (terminated doc ++ beyond))) := by
  have hexec : (sortedArray quickSortWords doc beyond array).2 =
      (uniqueWords (terminated doc ++ beyond) (runStarts doc).length).exec
        ((quickSortWords (terminated doc ++ beyond) (runStarts doc).length).exec
          ((collectWords (terminated doc ++ beyond) doc.length).exec ⟨array, []⟩)) := rfl
  have hcollect := collectWords_keeps (R := ∅) (Q := fun _ => False)
    (terminated doc ++ beyond) doc.length ⟨array, []⟩
    ⟨fun _ hi => absurd hi (Set.notMem_empty _), fun _ he => absurd he List.not_mem_nil⟩
  have hfilter := note_int_mem_iff (v := (runStarts doc).length)
    (uniqueWords_local (terminated doc ++ beyond) (runStarts doc).length)
    (uniqueWords_keeps fun _ _ _ _ => Call.noConfusion)
  rw [int_mem_wordListCalls, hexec, hfilter, quickSortWords_int_iff _ h, collectWords_doc,
    or_iff_left (hcollect.reported _)]

/-- The numbers reported lie within one of the indices of the words. -/
theorem int_bounds_wordListCalls (beyond : Mem) (array : ℤ → Ptr) {v : ℤ}
    (hv : .int v ∈ wordListCalls quickSortWords doc beyond array) :
    -1 ≤ v ∧ v ≤ (runStarts doc).length := by
  have hguard := sortedArray_guarded beyond array
    (Q := Call.IntIn (-1) (runStarts doc).length)
    ⟨fun _ _ _ _ _ heq => Call.noConfusion heq, fun _ hlo hup => Call.intIn_int hlo hup⟩
  exact hguard.reported _ (int_mem_wordListCalls.mp hv) v rfl

/-- Below `2 ^ 32` bytes there is room for `2 ^ 31` words only when the text alternates over
the greatest length. -/
theorem length_runStarts_eq_iff (hlen : doc.length < 2 ^ 32) :
    (runStarts doc).length ≤ 2 ^ 31 ∧
      ((runStarts doc).length = 2 ^ 31 ↔
        doc.length = 2 ^ 32 - 1 ∧ Baseline.Alternates doc doc.length) := by
  obtain ⟨hle, hiff⟩ := Baseline.two_mul_startsBelow doc doc.length
  have hbit := Bool.toNat_le (inWord doc doc.length)
  have hstarts : startsBelow doc doc.length = runStarts doc := rfl
  rw [hstarts] at hle hiff
  rw [← hiff]
  omega

/-- **When the sort stays within `int`**: always, but for a text of the greatest length that
alternates between one-letter words and separators, and whose words the recursion reduces to
a range that ends in the greatest of them. -/
theorem wordList_ints_iff (doc beyond : Mem) (array : ℤ → Ptr) (hlen : doc.length < 2 ^ 32) :
    ∃ o, wordList ⟨some array, true⟩ (some (doc ++ beyond)) doc.length = .ok o ∧
      ((toInt ((countWords (doc ++ beyond) doc.length).wordCount - 1) =
            ((countWords (doc ++ beyond) doc.length).wordCount - 1 : ℕ) ∧
          ∀ v, .int v ∈ o.calls → IsInt v) ↔
        ¬ (doc.length = 2 ^ 32 - 1 ∧ (∀ i < doc.length, alnumAt doc i = true ↔ i % 2 = 0) ∧
          LastTop ((runStarts doc).map (cstr (terminated doc ++ beyond))))) := by
  obtain ⟨hle, hmax⟩ := length_runStarts_eq_iff hlen
  have hconv : toInt ((runStarts doc).length - 1) = ((runStarts doc).length - 1 : ℕ) :=
    toInt_of_lt (by omega)
  rw [(countWords_doc doc beyond).2, ← Baseline.Alternates, ← and_assoc, ← hmax]
  simp only [and_iff_right hconv]
  by_cases hne : runStarts doc = []
  · refine ⟨_, wordListWith_of_nil _ hne, iff_of_true (fun v hv => absurd hv List.not_mem_nil) ?_⟩
    rw [hne]
    exact fun h => not_lastTop_nil h.2
  · refine ⟨_, wordListWith_packs quickSortWords beyond array hne, fun hall => ?_,
      fun hno v hv => ?_⟩
    · rintro ⟨hcount, htop⟩
      have hreport := (length_mem_wordListCalls_iff beyond array hle).mpr htop
      have hint := hall _ hreport
      rw [hcount] at hint
      exact absurd hint.2 (by decide)
    · obtain ⟨hlo, hup⟩ := int_bounds_wordListCalls beyond array hv
      refine ⟨by omega, ?_⟩
      by_contra hover
      have hv' : v = (runStarts doc).length := by omega
      rw [hv'] at hv
      exact hno ⟨by omega, (length_mem_wordListCalls_iff beyond array hle).mp hv⟩

/-- The document `b a`. -/
theorem wordList_ints_iff_two :
    ∃ o, wordList ⟨some fun _ => 0, true⟩ (some [98, 32, 97]) 3 = .ok o ∧
      ((toInt ((countWords [98, 32, 97] 3).wordCount - 1) =
            ((countWords [98, 32, 97] 3).wordCount - 1 : ℕ) ∧
          ∀ v, .int v ∈ o.calls → IsInt v) ↔
        ¬ (3 = 2 ^ 32 - 1 ∧ (∀ i < 3, alnumAt [98, 32, 97] i = true ↔ i % 2 = 0) ∧
          LastTop ((runStarts [98, 32, 97]).map (cstr (terminated [98, 32, 97] ++ []))))) :=
  wordList_ints_iff [98, 32, 97] [] (fun _ => 0) (by decide)

/-- The words of an alternating text that ends in its greatest byte. -/
theorem lastTop_of_alternates {m : ℕ} (beyond : Mem) (hlen : doc.length = m + 1) (hpos : 0 < m)
    (heven : m % 2 = 0) (halt : Baseline.Alternates doc doc.length)
    (hlast : ∀ p < m, byteAt doc p < byteAt doc m) :
    LastTop ((runStarts doc).map (cstr (terminated doc ++ beyond))) := by
  have hstart : ∀ p, p ≤ m → p % 2 = 0 → startsRun doc p = true := by
    intro p hp hmod
    refine startsRun_iff.mp ⟨(halt p (by omega)).mpr hmod, ?_⟩
    cases p with
    | zero => rfl
    | succ p =>
      have hodd := mt (halt p (by omega)).mp (by omega)
      exact Bool.eq_false_iff.mpr hodd
  have hruns : runStarts doc = (List.range m).filter (startsRun doc) ++ [m] := by
    rw [runStarts, hlen, List.range_succ, List.filter_append,
      List.filter_singleton, hstart m (le_refl m) heven]
    rfl
  have hfirst : 0 ∈ (List.range m).filter (startsRun doc) :=
    List.mem_filter.mpr ⟨List.mem_range.mpr hpos, hstart 0 (Nat.zero_le m) rfl⟩
  have hmem : ∀ p, p ≤ m → p < (terminated doc ++ beyond).length := by
    intro p hp
    rw [List.length_append, length_terminated, hlen]
    omega
  rw [hruns, List.map_append, List.map_singleton]
  refine .top (List.ne_nil_of_mem (List.mem_map_of_mem hfirst)) fun a ha => ?_
  obtain ⟨p, hp, rfl⟩ := List.mem_map.mp ha
  obtain ⟨hrange, hrun⟩ := List.mem_filter.mp hp
  have hlt := List.mem_range.mp hrange
  refine cstr_lt_of_byteAt_lt (hmem p hlt.le) (hmem m (le_refl m)) ?_
  rw [byteAt_terminated_of_alnumAt beyond (startsRun_iff.mpr hrun).1,
    byteAt_terminated_of_alnumAt beyond (startsRun_iff.mpr (hstart m (le_refl m) heven)).1]
  exact hlast p hlt

/-- The text `a a … a b`. -/
def longText (n : ℕ) : Mem :=
  (List.range n).map fun i => if i % 2 = 1 then 32 else if i + 1 = n then 98 else 97

theorem byteAt_longText {n i : ℕ} (h : i < n) :
    byteAt (longText n) i = if i % 2 = 1 then 32 else if i + 1 = n then 98 else 97 := by
  rw [byteAt, longText, List.getElem?_map, List.getElem?_range h]
  rfl

theorem longText_alternates (n : ℕ) : Baseline.Alternates (longText n) n := by
  intro i hi
  rw [alnumAt, byteAt_longText hi]
  split_ifs with hodd hend
  · exact iff_of_false (by decide) (by omega)
  · exact iff_of_true (by decide) (by omega)
  · exact iff_of_true (by decide) (by omega)

theorem longText_overflows {n : ℕ} (hn : n = 2 ^ 32 - 1) :
    ∃ o, wordList ⟨some fun _ => 0, true⟩ (some (longText n)) n = .ok o ∧
      ¬ ∀ v, .int v ∈ o.calls → IsInt v := by
  have hlen : (longText n).length = n := by
    rw [longText, List.length_map, List.length_range]
  have halt : Baseline.Alternates (longText n) (longText n).length := by
    rw [hlen]
    exact longText_alternates n
  obtain ⟨hle, hmax⟩ := length_runStarts_eq_iff (by omega : (longText n).length < 2 ^ 32)
  have hcount := hmax.mpr ⟨by omega, halt⟩
  have htop := @lastTop_of_alternates (longText n) (n - 1) [] (by omega) (by omega) (by omega)
    halt fun p hp => ?_
  · have hne : runStarts (longText n) ≠ [] := by
      intro hnil
      rw [hnil] at hcount
      exact absurd hcount (by decide)
    have hrun := wordListWith_packs quickSortWords [] (fun _ => 0) hne
    rw [List.append_nil, hlen] at hrun
    refine ⟨_, hrun, fun hall => ?_⟩
    have hint := hall _ ((length_mem_wordListCalls_iff [] (fun _ => 0) hle).mpr htop)
    rw [hcount] at hint
    exact absurd hint.2 (by decide)
  · rw [byteAt_longText (by omega), byteAt_longText (by omega),
      if_neg (by omega : ¬ (n - 1) % 2 = 1), if_pos (by omega : n - 1 + 1 = n),
      if_neg (by omega : ¬ p + 1 = n)]
    split_ifs <;> decide

/-- The longest of these texts. -/
theorem wordList_ints_overflow :
    ∃ o, wordList ⟨some fun _ => 0, true⟩ (some (longText (2 ^ 32 - 1))) (2 ^ 32 - 1) = .ok o ∧
      ¬ ∀ v, .int v ∈ o.calls → IsInt v :=
  longText_overflows rfl

end WordList

end EfficientDictionary
