import EfficientDictionary.Comparisons

/-!
# Comparisons of the baseline

The baseline drops the copies of a pivot as it meets them, so no word is a pivot twice. With
`d` distinct words among `m` it makes at most `d * m - (d + 1).choose 2` comparisons, where the
quicksort of `WordList` may make all `m.choose 2`, however many of the words are copies.
-/

namespace EfficientDictionary

namespace Baseline

/-! ## What is present on both sides of a pivot -/

section Sides

variable {mem : Mem} {p : Ptr} {w w' : ℤ → Option Ptr} {l m r : ℤ}

/-- The distinct strings of a range. -/
def distinctIn (mem : Mem) (w : ℤ → Option Ptr) (l r : ℤ) : List (List UInt8) :=
  sortedDistinct ((present w l r).map (cstr mem))

theorem length_sortedDistinct_le (words : List (List UInt8)) :
    (sortedDistinct words).length ≤ words.length := by
  rw [sortedDistinct, Finset.length_sort]
  exact List.toFinset_card_le words

theorem length_distinctIn_le (mem : Mem) (w : ℤ → Option Ptr) (l r : ℤ) :
    (distinctIn mem w l r).length ≤ (present w l r).length := by
  have hle := length_sortedDistinct_le ((present w l r).map (cstr mem))
  rwa [List.length_map] at hle

theorem distinctIn_of_perm {l' r' : ℤ} (h : (present w' l' r').Perm (present w l r)) :
    distinctIn mem w' l' r' = distinctIn mem w l r := by
  rw [distinctIn, sortedDistinct, List.toFinset_eq_of_perm _ _ (h.map (cstr mem))]
  rfl

/-- The distinct strings are those before the pivot, that of the pivot, and those after it. -/
theorem distinctIn_of_sifted (h : SiftedAround (cstr mem) p l m r w w')
    (hp : p ∈ present w l (r + 1)) :
    distinctIn mem w l (r + 1) =
      distinctIn mem w' l m ++ cstr mem p :: distinctIn mem w' (m + 1) (r + 1) := by
  have hlow : ∀ t ∈ distinctIn mem w' l m, t < cstr mem p := by
    intro t ht
    obtain ⟨a, ha, rfl⟩ := List.mem_map.mp (mem_sortedDistinct.mp ht)
    obtain ⟨i, hi, him, hcell⟩ := mem_present.mp ha
    exact h.low i hi him a hcell
  have hhigh : ∀ t ∈ distinctIn mem w' (m + 1) (r + 1), cstr mem p < t := by
    intro t ht
    obtain ⟨a, ha, rfl⟩ := List.mem_map.mp (mem_sortedDistinct.mp ht)
    obtain ⟨i, hi, hir, hcell⟩ := mem_present.mp ha
    obtain ⟨b, hb, hlt⟩ := h.high i (by omega) (by omega)
    rw [hcell] at hb
    rwa [Option.some.inj hb]
  have hreduces := h.reduces hp
  refine (eq_sortedDistinct ?_ fun t => ?_).symm
  · refine List.pairwise_append.mpr ⟨sortedDistinct_pairwise _,
      List.pairwise_cons.mpr ⟨hhigh, sortedDistinct_pairwise _⟩, fun a ha b hb => ?_⟩
    rcases List.mem_cons.mp hb with rfl | hb
    · exact hlow a ha
    · exact (hlow a ha).trans (hhigh b hb)
  · have hkeys : t ∈ (present w l (r + 1)).map (cstr mem) ↔
        t ∈ (present w' l (r + 1)).map (cstr mem) := by
      rw [List.mem_map, List.mem_map]
      refine ⟨?_, ?_⟩
      · rintro ⟨a, ha, rfl⟩
        exact hreduces.keeps a ha
      · rintro ⟨a, ha, rfl⟩
        exact ⟨a, hreduces.sub a ha, rfl⟩
    rw [hkeys, h.present_eq, List.map_append, List.map_cons, List.mem_append, List.mem_append,
      List.mem_cons, List.mem_cons, distinctIn, distinctIn, mem_sortedDistinct, mem_sortedDistinct]

end Sides

/-! ## The sort -/

section Sorting

variable {mem : Mem} {pivot : Ptr} {left right i idx : ℤ} {s : Machine Call (Option Ptr)}

/-- A turn compares what it finds. -/
theorem partitionTurn_takes (mem : Mem) (pivot : Ptr) (i idx : ℤ)
    (s : Machine Call (Option Ptr)) :
    Takes Call.isStrcmp (s.cells i).toList.length (partitionTurn mem pivot i idx) s := by
  have hswap : ∀ s : Machine Call (Option Ptr),
      Takes Call.isStrcmp 0 (do swap idx i; int (idx + 1); pure (idx + 1)) s :=
    fun s => (swapWords_takes idx i s).bind_free <|
      (int_takes (idx + 1) _).bind_free (Takes.pure _ _)
  refine (int_takes i s).bind_free <| (Takes.load i _).bind_free ?_
  rw [load_val, int_cells]
  cases s.cells i with
  | none => exact hswap _
  | some word =>
    refine (strcmp_takes mem word pivot _).then_free ?_
    refine Takes.ite (fun _ => hswap _) fun _ => Takes.ite (fun _ => ?_) fun _ => Takes.pure _ _
    exact (Takes.store i none _).bind_free (hswap _)

/-- The loop compares what is present. -/
theorem partitionLoop_takes (mem : Mem) (pivot : Ptr) (h : left ≤ right)
    (s : Machine Call (Option Ptr)) :
    Takes Call.isStrcmp (present s.cells left right).length
      (forRange left right left (partitionTurn mem pivot)) s := by
  have hrun := forRange_inv (f := partitionTurn mem pivot) (b := left) (s := s)
    (I := fun i idx s' => Sifts (cstr mem) (cstr mem pivot) left idx i s.cells s'.cells ∧
      tally Call.isStrcmp s'.trace =
        (present s.cells left i).length + tally Call.isStrcmp s.trace)
    h ⟨Sifts.empty _ _ _ _, ?_⟩ ?_
  · exact hrun.2
  · rw [present, slice_of_le (le_refl left)]
    exact (Nat.zero_add _).symm
  · rintro i idx s' hl - ⟨hsifts, hcount⟩
    refine ⟨partitionTurn_sifts hsifts, ?_⟩
    rw [partitionTurn_takes mem pivot i idx s', hcount, hsifts.frame i (Or.inr (le_refl i)),
      present_succ hl, List.length_append]
    omega

/-- A word as pivot is compared with the others that are present. -/
theorem partition_takes_of_some (mem : Mem) (h : left ≤ right) (hp : s.cells right = some pivot) :
    Takes Call.isStrcmp ((present s.cells left (right + 1)).length - 1)
      (partition mem left right) s := by
  rw [present_succ h, hp, Option.toList_some, List.length_append, List.length_singleton,
    Nat.add_sub_cancel]
  refine (Takes.load right s).bind_free ?_
  rw [load_val, hp]
  refine (partitionLoop_takes mem pivot h _).then_free ?_
  exact (swapWords_takes _ right _).bind_free (Takes.pure _ _)

theorem partition_takes_of_none (mem : Mem) (left : ℤ) (hp : s.cells right = none) :
    Takes Call.isStrcmp 0 (partition mem left right) s := by
  refine (Takes.load right s).bind_free ?_
  rw [load_val, hp]
  exact (swapWords_takes left right _).bind_free (Takes.pure _ _)

/-- A `NULL` that has moved to the front leaves the same behind it. -/
theorem present_of_none (mem : Mem) (h : left ≤ right) (hp : s.cells right = none) :
    (present ((partition mem left right).exec s).cells (left + 1) (right + 1)).Perm
      (present s.cells left (right + 1)) := by
  have hcells := (partition_of_none mem left hp).2
  have hswap : Rearranges left (right + 1) s.cells (s.cells ∘ Equiv.swap left right) :=
    Rearranges.swap ⟨le_refl left, by omega⟩ ⟨h, by omega⟩
  have hperm := hswap.present
  rw [present_append _ (by omega : left ≤ left + 1) (by omega), present_cell, comp_swap_left, hp,
    Option.toList_none, List.nil_append] at hperm
  rwa [hcells]

/-- **Each distinct word is compared at most once with each word.** -/
theorem quicksortRecursive_takes (mem : Mem) (left right : ℤ) (s : Machine Call (Option Ptr)) :
    ∃ k, Takes Call.isStrcmp k (quicksortRecursive mem left right) s ∧
      k + ((distinctIn mem s.cells left (right + 1)).length + 1).choose 2 ≤
        (distinctIn mem s.cells left (right + 1)).length *
          (present s.cells left (right + 1)).length := by
  revert s
  induction left, right using range_induction with
  | step left right ih =>
    intro s
    rcases lt_or_ge left right with h | h
    · obtain ⟨hlo, hhi⟩ := partition_bounds mem h.le s
      rw [quicksortRecursive_of_lt mem h]
      cases hp : s.cells right with
      | none =>
        have hval := (partition_of_none mem left hp).1
        have hsame := present_of_none mem h.le hp
        obtain ⟨k, hk, hbound⟩ := ih (left + 1) right (by omega)
          ((int (left + 1)).exec ((int (left - 1)).exec ((partition mem left right).exec s)))
        rw [int_cells, int_cells, distinctIn_of_perm hsame, hsame.length_eq] at hbound
        refine ⟨k, (partition_takes_of_none mem left hp).bind_free ?_, hbound⟩
        -- there is nothing before the pivot
        rw [hval, quicksortRecursive_of_le mem (by omega : left - 1 ≤ left)]
        refine (int_takes _ _).bind_free <| (Takes.pure _ _).bind_free ?_
        exact (int_takes _ _).bind_free hk
      | some pivot =>
        have hcost := partition_takes_of_some mem h.le hp
        have hsift := partition_of_some mem h.le hp
        have hpivot := mem_present.mpr ⟨right, h.le, Int.lt_succ right, hp⟩
        generalize hidx : (partition mem left right).val s = idx at *
        generalize hs₁ : (partition mem left right).exec s = s₁ at *
        have hframe := (quicksortRecursive_distills mem left (idx - 1)
          ((int (idx - 1)).exec s₁)).reduces.frame
        obtain ⟨k, hk, hbound⟩ := ih left (idx - 1) (by omega) ((int (idx - 1)).exec s₁)
        obtain ⟨k', hk', hbound'⟩ := ih (idx + 1) right (by omega) ((int (idx + 1)).exec
          ((quicksortRecursive mem left (idx - 1)).exec ((int (idx - 1)).exec s₁)))
        rw [Int.sub_add_cancel, int_cells] at hbound
        rw [int_cells, distinctIn, present_congr fun i hi _ => hframe i (by omega),
          ← distinctIn] at hbound'
        rw [distinctIn_of_sifted hsift hpivot, List.length_append, List.length_cons]
        refine ⟨_, hcost.bind ?_, split_le_mul (length_distinctIn_le _ _ _ _)
          (hsift.length_present_le hpivot) hbound hbound'⟩
        rw [hidx, hs₁]
        exact (int_takes _ _).bind_free <| hk.bind <| (int_takes _ _).bind_free hk'
    · have hone : (present s.cells left (right + 1)).length ≤ 1 := by
        refine (List.length_filterMap_le _ _).trans ?_
        rw [length_slice]
        omega
      rw [quicksortRecursive_of_le mem h]
      exact ⟨0, Takes.pure _ _, choose_two_le_mul (length_distinctIn_le mem s.cells _ _) hone⟩

theorem compactWords_takes (count : ℕ) (s : Machine Call (Option Ptr)) :
    Takes Call.isStrcmp 0 (compactWords count) s := by
  have hturn : ∀ i ∈ List.range count, ∀ j s, Takes Call.isStrcmp 0 (compactTurn i j) s := by
    intro i _ j s
    refine (Takes.load _ _).bind_free (Takes.ite (fun _ => ?_) fun _ =>
      (int_takes _ _).bind_free (Takes.pure _ _))
    refine (Takes.load _ _).bind_free <| (Takes.store _ _ _).bind_free ?_
    exact (int_takes _ _).bind_free <| (int_takes _ _).bind_free (Takes.pure _ _)
  have hrun := Takes.forEach hturn 0 s
  rwa [Nat.mul_zero] at hrun

theorem sequentialSortUniqueWords_takes {ws : List Ptr} (mem : Mem) (hcount : ws.length ≤ 2 ^ 31)
    (hwords : slice s.cells 0 ws.length = ws.map some) :
    ∃ k, Takes Call.isStrcmp k (sequentialSortUniqueWords mem ws.length) s ∧
      k + ((sortedDistinct (ws.map (cstr mem))).length + 1).choose 2 ≤
        (sortedDistinct (ws.map (cstr mem))).length * ws.length := by
  rw [sequentialSortUniqueWords]
  split_ifs with hle
  · have hdistinct := length_sortedDistinct_le (ws.map (cstr mem))
    rw [List.length_map] at hdistinct
    exact ⟨0, Takes.pure _ _, choose_two_le_mul hdistinct hle⟩
  · have hint := toInt_pred_add_one hcount hle
    obtain ⟨k, hk, hbound⟩ := quicksortRecursive_takes mem 0 (toInt (ws.length - 1)) s
    rw [hint, distinctIn, present_of_slice hwords] at hbound
    exact ⟨k, hk.then_free (compactWords_takes _ _), hbound⟩

theorem scanWords_takes (mem : Mem) (docLen : ℕ) (s : Machine Call (Option Ptr)) :
    Takes Call.isStrcmp 0 (scanWords mem docLen) s := by
  have hturn : ∀ i ∈ List.range docLen, ∀ st s, Takes Call.isStrcmp 0 (scanStep i st) s := by
    intro i _ st s
    refine Takes.ite (fun _ => Takes.ite (fun _ => ?_) fun _ => Takes.pure _ _) fun _ =>
      Takes.ite (fun _ => Takes.pure _ _) fun _ => Takes.pure _ _
    exact (Takes.store _ _ _).bind_free (Takes.pure _ _)
  have hrun := Takes.forEach hturn ⟨mem, 0, false⟩ s
  rwa [Nat.mul_zero] at hrun

end Sorting

/-! ## The result -/

/-- The scan and the last loop compare nothing. -/
theorem wordListBaseLine_takes (doc : Mem) {beyond : Mem} (array : ℤ → Option Ptr)
    (hzero : byteAt beyond 0 = 0) (hsize : (wordsOf doc).length < 2 ^ 31) :
    ∃ k, Takes Call.isStrcmp k (wordListBaseLine (doc ++ beyond) doc.length) ⟨array, []⟩ ∧
      k + ((distinctWords doc).length + 1).choose 2 ≤
        (distinctWords doc).length * (wordsOf doc).length := by
  obtain ⟨hstate, hwords⟩ := scanWords_doc doc beyond array
  obtain ⟨k, hk, hbound⟩ := sequentialSortUniqueWords_takes (terminated doc ++ beyond)
    (length_runStarts_le hsize) hwords
  rw [map_cstr_runStarts hzero] at hbound
  refine ⟨k, (scanWords_takes _ _ _).bind_free ?_, ?_⟩
  · rw [hstate]
    exact hk.then_free (Takes.pure _ _)
  · rw [length_wordsOf]
    exact hbound

/-- **What the baseline compares**: each of the distinct words with each word at most once, less
the pairs of distinct words. -/
theorem baseline_comparisons (doc beyond : Mem) (array : ℤ → Option Ptr)
    (hzero : byteAt beyond 0 = 0) (hsize : (wordsOf doc).length < 2 ^ 31) :
    let k := comparisons ((wordListBaseLine (doc ++ beyond) doc.length).exec ⟨array, []⟩).trace
    k + ((distinctWords doc).length + 1).choose 2 ≤
      (distinctWords doc).length * (wordsOf doc).length := by
  obtain ⟨k, hk, hbound⟩ := wordListBaseLine_takes doc array hzero hsize
  dsimp only
  rw [comparisons, hk.tally_eq]
  exact hbound

/-- The document `a a a`. -/
theorem baseline_comparisons_three :
    comparisons ((wordListBaseLine [97, 32, 97, 32, 97] 5).exec ⟨fun _ => none, []⟩).trace +
        ((distinctWords [97, 32, 97, 32, 97]).length + 1).choose 2 ≤
      (distinctWords [97, 32, 97, 32, 97]).length * (wordsOf [97, 32, 97, 32, 97]).length :=
  baseline_comparisons [97, 32, 97, 32, 97] [] (fun _ => none) rfl (by decide)

/-- **Copies of one word** set the two implementations apart: `WordList` compares all pairs of
them, the baseline each with the first pivot only. -/
theorem repeated_word_comparisons {doc : Mem} {n : ℕ} {t : List UInt8}
    (hcopies : wordsOf doc = List.replicate n t) (beyond beyond' : Mem) (array : ℤ → Ptr)
    (array' : ℤ → Option Ptr) (hzero : byteAt beyond 0 = 0) (hzero' : byteAt beyond' 0 = 0)
    (hsize : n < 2 ^ 31) :
    ∃ o, wordList ⟨some array, true⟩ (some (doc ++ beyond)) doc.length = .ok o ∧
      o.calls.countP Call.isStrcmp = n.choose 2 + (n - 1) ∧
      comparisons ((wordListBaseLine (doc ++ beyond') doc.length).exec ⟨array', []⟩).trace ≤
        n - 1 := by
  have hwords : (wordsOf doc).length < 2 ^ 31 := by rwa [hcopies, List.length_replicate]
  obtain ⟨o, hrun, k, hcount, -, heq⟩ := wordList_countP doc beyond array hwords
  rw [map_cstr_eq_wordsOf fun _ => hzero] at heq
  obtain ⟨k', hk', hbound⟩ := wordListBaseLine_takes doc array' hzero' hwords
  rw [hcopies, List.length_replicate] at hcount heq hbound
  refine ⟨o, hrun, ?_, ?_⟩
  · rw [hcount, heq.mpr (Lopsided.replicate (lt_irrefl t) n)]
  · rw [comparisons, hk'.tally_eq]
    rw [distinctWords_eq_wordsOf, hcopies] at hbound
    cases n with
    | zero => exact (Nat.le_add_right _ _).trans (hbound.trans (Nat.mul_zero _).le)
    | succ n =>
      have hone : sortedDistinct (List.replicate (n + 1) t) = [t] :=
        (eq_sortedDistinct (List.pairwise_singleton _ t) fun u => by simp).symm
      rw [hone, List.length_singleton, Nat.one_mul] at hbound
      exact Nat.le_of_succ_le_succ hbound

/-- The document `a a a`: five comparisons against two. -/
theorem repeated_word_comparisons_three :
    ∃ o, wordList ⟨some fun _ => 0, true⟩ (some [97, 32, 97, 32, 97]) 5 = .ok o ∧
      o.calls.countP Call.isStrcmp = 5 ∧
      comparisons ((wordListBaseLine [97, 32, 97, 32, 97] 5).exec ⟨fun _ => none, []⟩).trace ≤
        2 :=
  repeated_word_comparisons
    (by decide : wordsOf [97, 32, 97, 32, 97] = List.replicate 3 [97]) [] []
    (fun _ => 0) (fun _ => none) rfl rfl (by decide)

end Baseline

end EfficientDictionary
