import EfficientDictionary.Cost
import EfficientDictionary.Program
import Mathlib.Algebra.BigOperators.Intervals
import Mathlib.Algebra.Order.BigOperators.Group.Finset

/-!
# Comparisons

How many calls of `strcmp` the sorts make. The quicksort compares at most all pairs of words,
and all pairs exactly when its pivots never have words on both sides; the order its own output
is in is one of these. The insertion sort compares by inversions, and next to nothing on words
that are in order.
-/

namespace EfficientDictionary

/-- The call is one of `strcmp`. -/
def Call.isStrcmp : Call → Bool
  | .strcmp _ _ => true
  | _ => false

/-- The number of comparisons in a trace. -/
def comparisons (t : List (Event Call)) : ℕ := tally Call.isStrcmp t

/-- The words of `[l, r)` increase. -/
def IncreasingOn (mem : Mem) (w : ℤ → Ptr) (l r : ℤ) : Prop :=
  ∀ i j, l ≤ i → i < j → j < r → cstr mem (w i) < cstr mem (w j)

section Increasing

variable {mem : Mem} {w : ℤ → Ptr} {l r : ℤ}

theorem increasingOn_iff :
    IncreasingOn mem w l r ↔ ((slice w l r).map (cstr mem)).Pairwise (· < ·) := by
  rw [List.pairwise_map, pairwise_slice, IncreasingOn]

theorem IncreasingOn.sortedOn (h : IncreasingOn mem w l r) : SortedOn (cstr mem) w l r := by
  intro i j hi hij hj
  rcases eq_or_lt_of_le hij with rfl | hlt
  · exact le_refl _
  · exact (h i j hi hlt hj).le

theorem IncreasingOn.mono {l' r' : ℤ} (h : IncreasingOn mem w l r) (hl : l ≤ l') (hr : r' ≤ r) :
    IncreasingOn mem w l' r' :=
  fun i j hi hij hj => h i j (hl.trans hi) hij (by omega)

end Increasing

section Calls

variable {α : Type}

theorem strcmp_takes (mem : Mem) (a b : Ptr) (s : Machine Call α) :
    Takes Call.isStrcmp 1 (strcmp mem a b) s := by
  have hnote : Takes Call.isStrcmp 1 (note (.strcmp a b) : CProg α PUnit) s := Takes.note _ s
  exact hnote.bind (Takes.pure _ _)

theorem int_takes (v : ℤ) (s : Machine Call α) : Takes Call.isStrcmp 0 (int v) s :=
  Takes.note (.int v) s

theorem swapWords_takes (a b : ℤ) (s : Machine Call α) :
    Takes Call.isStrcmp 0 (swapWords a b) s :=
  (Takes.load a s).bind_free <| (Takes.load b _).bind_free <|
    (Takes.store a _ _).bind_free (Takes.store b _ _)

end Calls

/-! ## The sequential quicksort -/

section QuickSort

variable {mem : Mem} {pivot : Ptr} {left right hi : ℤ} {s : Machine Call Ptr}

theorem moveSmallerTurn_takes (mem : Mem) (pivot : Ptr) (i idx : ℤ) (s : Machine Call Ptr) :
    Takes Call.isStrcmp 1 (moveSmallerTurn mem pivot i idx) s := by
  refine (int_takes i s).bind_free <| (Takes.load i _).bind_free ?_
  refine (strcmp_takes mem _ pivot _).then_free ?_
  refine Takes.ite (fun _ => ?_) fun _ => Takes.pure _ _
  exact (swapWords_takes idx i _).bind_free <| (int_takes _ _).bind_free (Takes.pure _ _)

theorem moveSmaller_takes (mem : Mem) (pivot : Ptr) (left hi : ℤ) (s : Machine Call Ptr) :
    Takes Call.isStrcmp (hi - left).toNat (moveSmaller mem pivot left hi) s := by
  have hrun := Takes.forRange (moveSmallerTurn_takes mem pivot) left hi left s
  rwa [Nat.mul_one] at hrun

/-- A partition compares every other word with the pivot. -/
theorem partitionWords_takes (mem : Mem) (left right : ℤ) (s : Machine Call Ptr) :
    Takes Call.isStrcmp (right - left).toNat (partitionWords mem left right) s := by
  refine (Takes.load right s).bind_free ?_
  refine (moveSmaller_takes mem _ left right _).then_free ?_
  exact (swapWords_takes _ right _).bind_free (Takes.pure _ _)

/-- Words that are split at `m` already stay as they are. -/
theorem moveSmaller_of_split {m : ℤ} (hlm : left ≤ m) (hmh : m ≤ hi)
    (hlow : ∀ i, left ≤ i → i < m → cstr mem (s.cells i) < cstr mem pivot)
    (hhigh : ∀ i, m ≤ i → i < hi → ¬ cstr mem (s.cells i) < cstr mem pivot) :
    (moveSmaller mem pivot left hi).val s = m ∧
      ((moveSmaller mem pivot left hi).exec s).cells = s.cells := by
  have hrun := forRange_inv (f := moveSmallerTurn mem pivot) (b := left) (s := s)
    (I := fun i idx s' => idx = min i m ∧ s'.cells = s.cells) (hlm.trans hmh)
    ⟨(min_eq_left hlm).symm, rfl⟩ ?_
  · rwa [min_eq_right hmh] at hrun
  · rintro i idx s' hl hr ⟨rfl, hcells⟩
    rcases lt_or_ge i m with him | him
    · have hword : strcmpAt mem (s'.cells i) pivot < 0 := by
        rw [hcells]
        exact strcmpAt_neg_iff.mpr (hlow i hl him)
      obtain ⟨hval, hexec⟩ := moveSmallerTurn_of_lt (min i m) hword
      rw [hval, hexec, min_eq_left him.le, min_eq_left (by omega : i + 1 ≤ m), Equiv.swap_self,
        hcells]
      exact ⟨rfl, rfl⟩
    · have hword : ¬ strcmpAt mem (s'.cells i) pivot < 0 := by
        rw [hcells]
        exact mt strcmpAt_neg_iff.mp (hhigh i him hr)
      obtain ⟨hval, hexec⟩ := moveSmallerTurn_of_not_lt (min i m) hword
      rw [hval, hexec, min_eq_right him, min_eq_right (by omega : m ≤ i + 1)]
      exact ⟨rfl, hcells⟩

theorem partitionWords_of_forall_lt (h : left ≤ right)
    (hlt : ∀ i, left ≤ i → i < right → cstr mem (s.cells i) < cstr mem (s.cells right)) :
    ((partitionWords mem left right).exec s).cells = s.cells := by
  obtain ⟨hval, hcells⟩ := moveSmaller_of_split (s := (load right : CProg Ptr Ptr).exec s) h
    (le_refl right) hlt fun i hi hr => absurd hr (not_lt.mpr hi)
  simp only [partitionWords, Prog.bind_exec, Prog.pure_exec, load_val, swapWords_cells]
  rw [hval, hcells, Equiv.swap_self]
  rfl

/-- The words before the pivot, as keys. -/
theorem map_slice_succ_right (mem : Mem) (w : ℤ → Ptr) (h : left ≤ right) :
    (slice w left (right + 1)).map (cstr mem) =
      (slice w left right).map (cstr mem) ++ [cstr mem (w right)] := by
  rw [slice_succ_right h, List.map_append, List.map_singleton]

theorem forall_keys_iff {P : List UInt8 → Prop} {w : ℤ → Ptr} :
    (∀ t ∈ (slice w left right).map (cstr mem), P t) ↔
      ∀ i, left ≤ i → i < right → P (cstr mem (w i)) := by
  rw [List.forall_mem_map]
  refine ⟨fun h i hl hr => h _ (mem_slice.mpr ⟨i, hl, hr, rfl⟩), ?_⟩
  rintro h a ha
  obtain ⟨i, hl, hr, rfl⟩ := mem_slice.mp ha
  exact h i hl hr

/-- A lopsided range stays lopsided on the side where the partition leaves words. -/
theorem partitionWords_lopsided_iff (mem : Mem) (h : left ≤ right) (s : Machine Call Ptr) :
    Lopsided ((slice s.cells left (right + 1)).map (cstr mem)) ↔
      ((partitionWords mem left right).val s = right ∧
        Lopsided ((slice ((partitionWords mem left right).exec s).cells left
          ((partitionWords mem left right).val s)).map (cstr mem))) ∨
      ((partitionWords mem left right).val s = left ∧
        Lopsided ((slice ((partitionWords mem left right).exec s).cells
          ((partitionWords mem left right).val s + 1) (right + 1)).map (cstr mem))) := by
  have hbounds := partitionWords_bounds mem h s
  have hkept := partitionWords_keepAll mem h s
  have hlow := partitionWords_eq_right_iff mem h s
  have hhigh : (∀ a ∈ (slice s.cells left right).map (cstr mem), ¬ a < cstr mem (s.cells right)) ↔
      (partitionWords mem left right).val s = left := by
    have hlength := congrArg List.length hkept
    rw [List.length_map, length_slice, List.length_rotate] at hlength
    rw [← length_keepAll_eq_iff, ← hlength, List.length_map, length_slice]
    omega
  rw [map_slice_succ_right mem s.cells h, lopsided_append_singleton, hhigh, ← keepAll_eq_nil_iff,
    hlow]
  refine or_congr (and_congr_right fun hidx => ?_) (and_congr_right fun hidx => ?_)
  · have hsmaller := forall_keys_iff.mp (keepAll_eq_nil_iff.mp (hlow.mpr hidx))
    rw [hidx, partitionWords_of_forall_lt h hsmaller]
  · rw [hkept, keepAll_of_forall_not_lt (hhigh.mpr hidx)]

/-- The quicksort compares at most all pairs of words, and all pairs only when the range is
lopsided. -/
theorem quickSortRecursive_takes (mem : Mem) (left right : ℤ) (s : Machine Call Ptr) :
    ∃ k, Takes Call.isStrcmp k (quickSortRecursive mem left right) s ∧
      k ≤ (right + 1 - left).toNat.choose 2 ∧
      (k = (right + 1 - left).toNat.choose 2 ↔
        Lopsided ((slice s.cells left (right + 1)).map (cstr mem))) := by
  revert s
  induction left, right using range_induction with
  | step left right ih =>
    intro s
    rcases lt_or_ge left right with h | h
    · obtain ⟨hlo, hhi⟩ := partitionWords_bounds mem h.le s
      have hcost := partitionWords_takes mem left right s
      rw [quickSortRecursive_of_lt mem h, partitionWords_lopsided_iff mem h.le]
      generalize hidx : (partitionWords mem left right).val s = idx at *
      generalize hs₁ : (partitionWords mem left right).exec s = s₁ at *
      have hsorts := quickSortRecursive_sorts mem left (idx - 1) ((int (idx - 1)).exec s₁)
      obtain ⟨k, hk, hkle, hkeq⟩ := ih left (idx - 1) (by omega) ((int (idx - 1)).exec s₁)
      obtain ⟨k', hk', hkle', hkeq'⟩ := ih (idx + 1) right (by omega) ((int (idx + 1)).exec
        ((quickSortRecursive mem left (idx - 1)).exec ((int (idx - 1)).exec s₁)))
      rw [Int.sub_add_cancel] at hsorts hkle hkeq
      rw [int_cells] at hsorts hkeq
      -- the words after the pivot are still those of the partition
      rw [int_cells, slice_congr fun i hi _ => hsorts.rearranges.frame i (by omega)] at hkeq'
      have hright : (right + 1 - (idx + 1)).toNat = (right - idx).toNat := by omega
      have hparts : (right - left).toNat = (idx - left).toNat + (right - idx).toNat := by omega
      have hall : (right + 1 - left).toNat = (idx - left).toNat + (right - idx).toNat + 1 := by
        omega
      have hlast : idx = right ↔ (right - idx).toNat = 0 := by omega
      have hfirst : idx = left ↔ (idx - left).toNat = 0 := by omega
      rw [hright] at hkle' hkeq'
      rw [hparts] at hcost
      rw [hall, ← hkeq, ← hkeq', hlast, hfirst]
      refine ⟨_, hcost.bind ?_, split_le_choose_two hkle hkle'⟩
      rw [hidx, hs₁]
      exact (int_takes _ _).bind_free <| hk.bind <| (int_takes _ _).bind_free hk'
    · refine ⟨0, ?_, Nat.zero_le _, iff_of_true ?_ (Lopsided.of_length_le ?_)⟩
      · rw [quickSortRecursive_of_le mem h]
        exact Takes.pure _ _
      · rw [Nat.choose_eq_zero_of_lt (by omega)]
      · rw [List.length_map, length_slice]
        omega

/-- As many words as there are when their number has been an `int`. -/
theorem toInt_pred_add_one {count : ℕ} (h : count ≤ 2 ^ 31) (hle : ¬ count ≤ 1) :
    toInt (count - 1) + 1 = count := by
  rw [toInt_of_lt (by omega)]
  omega

theorem quickSortWords_takes (mem : Mem) {count : ℕ} (h : count ≤ 2 ^ 31)
    (s : Machine Call Ptr) :
    ∃ k, Takes Call.isStrcmp k (quickSortWords mem count) s ∧ k ≤ count.choose 2 ∧
      (k = count.choose 2 ↔ Lopsided ((slice s.cells 0 count).map (cstr mem))) := by
  rw [quickSortWords]
  split_ifs with hle
  · refine ⟨0, Takes.pure _ _, Nat.zero_le _, iff_of_true ?_ (Lopsided.of_length_le ?_)⟩
    · rw [Nat.choose_eq_zero_of_lt (Nat.lt_succ_of_le hle)]
    · rw [List.length_map, length_slice]
      omega
  · have hrun := quickSortRecursive_takes mem 0 (toInt (count - 1)) s
    rwa [toInt_pred_add_one h hle, Int.sub_zero, Int.toNat_natCast] at hrun

end QuickSort

/-! ## The insertion sort -/

section InsertionSort

variable {mem : Mem} {key : Ptr} {i j n : ℕ} {s : Machine Call Ptr}

/-- How many of the words before the one at `i` are greater. -/
def greaterBefore (mem : Mem) (w : ℤ → Ptr) (i : ℕ) : ℕ :=
  (slice w 0 i).countP fun p => cstr mem (w i) < cstr mem p

/-- In a sorted prefix the search stops behind the words greater than the key, one comparison
later if there is a word left. -/
theorem shiftGreater_takes (mem : Mem) (key : Ptr) (s : Machine Call Ptr)
    (hsorted : SortedOn (cstr mem) s.cells 0 j) :
    Takes Call.isStrcmp
      (min ((slice s.cells 0 j).countP (fun p => cstr mem key < cstr mem p) + 1) j)
      (shiftGreater mem key j) s := by
  induction j generalizing s with
  | zero =>
    rw [Nat.min_zero]
    exact Takes.pure _ _
  | succ j ih =>
    have hslice : slice s.cells 0 ((j + 1 : ℕ) : ℤ) = slice s.cells 0 j ++ [s.cells j] :=
      slice_succ_right (Int.natCast_nonneg j)
    rw [shiftGreater]
    refine (Takes.load _ _).bind_free ?_
    by_cases h : cstr mem key < cstr mem (s.cells j)
    · -- the word moves up, out of the prefix that is left
      have hcount : min ((slice s.cells 0 ((j + 1 : ℕ) : ℤ)).countP
          (fun p => cstr mem key < cstr mem p) + 1) (j + 1) =
          1 + min ((slice s.cells 0 j).countP (fun p => cstr mem key < cstr mem p) + 1) j := by
        rw [hslice, List.countP_append, List.countP_singleton, if_pos (decide_eq_true h)]
        omega
      rw [hcount]
      refine (strcmp_takes mem _ key _).bind ?_
      rw [strcmp_val, load_val, if_pos (strcmpAt_pos_iff.mpr h)]
      refine (Takes.load _ _).bind_free <| (Takes.store _ _ _).bind_free ?_
      have hsame : ∀ a : ℤ, a < j → Function.update s.cells ((j : ℤ) + 1) (s.cells j) a =
          s.cells a := fun a ha => Function.update_of_ne (by omega) _ _
      rw [← slice_congr fun a _ ha => hsame a ha]
      refine ih _ fun a b ha hab hb => ?_
      have hle := hsorted a b ha hab (by omega)
      rwa [← hsame a (by omega), ← hsame b hb] at hle
    · -- no word of the prefix is greater than the last one
      have hnone : (slice s.cells 0 ((j + 1 : ℕ) : ℤ)).countP
          (fun p => cstr mem key < cstr mem p) = 0 := by
        rw [List.countP_eq_zero]
        intro p hp
        obtain ⟨a, ha, haj, rfl⟩ := mem_slice.mp hp
        have hle := hsorted a j ha (by omega) (by omega)
        exact mt of_decide_eq_true (not_lt.mpr (hle.trans (not_lt.mp h)))
      rw [hnone, Nat.zero_add, Nat.min_eq_left (Nat.succ_le_succ (Nat.zero_le j))]
      refine (strcmp_takes mem _ key _).then_free ?_
      rw [strcmp_val, load_val, if_neg (mt strcmpAt_pos_iff.mp h)]
      exact Takes.pure _ _

/-- Inserting a word into a sorted prefix. -/
theorem insertWord_takes (mem : Mem) (i : ℕ) (s : Machine Call Ptr)
    (hsorted : SortedOn (cstr mem) s.cells 0 i) :
    Takes Call.isStrcmp (min (greaterBefore mem s.cells i + 1) i) (insertWord mem i) s := by
  refine (Takes.load _ _).bind_free ?_
  refine (shiftGreater_takes mem (s.cells i) ((load i : CProg Ptr Ptr).exec s) hsorted).then_free ?_
  exact Takes.store _ _ _

/-- The insertion sort takes a comparison for each pair of words in the wrong order, and one
more for each word that does not come first. -/
theorem insertionSort_takes (mem : Mem) (count : ℕ) (s : Machine Call Ptr) :
    Takes Call.isStrcmp
      (∑ k ∈ Finset.range (count - 1), min (greaterBefore mem s.cells (k + 1) + 1) (k + 1))
      (insertionSort mem count) s := by
  refine Takes.forEach_range (I := fun k _ s' =>
    StablySorts (cstr mem) 0 ((k + 1 : ℕ) : ℤ) s.cells s'.cells)
    (StablySorts.of_le _ _ (by omega)) ?_
  intro k _ s' _ hs'
  have hturn := insertWord_stablySorts mem (k + 1) s' hs'.sorted
  refine ⟨⟨(hs'.stable.mono (le_refl 0) (by omega)).trans hturn.stable, hturn.sorted⟩, ?_⟩
  -- the prefix holds the same words in another order
  have hsame : greaterBefore mem s'.cells (k + 1) = greaterBefore mem s.cells (k + 1) := by
    rw [greaterBefore, greaterBefore, hs'.sorts.rearranges.frame _ (Or.inr (le_refl _))]
    exact hs'.sorts.rearranges.perm.countP_eq _
  rw [← hsame]
  exact insertWord_takes mem (k + 1) s' hs'.sorted

/-- The words before a word are fewer than its index. -/
theorem sum_min_le_choose_two (c : ℕ → ℕ) (count : ℕ) :
    ∑ k ∈ Finset.range (count - 1), min (c k) (k + 1) ≤ count.choose 2 := by
  cases count with
  | zero => exact le_refl 0
  | succ m =>
    calc ∑ k ∈ Finset.range m, min (c k) (k + 1)
        ≤ ∑ k ∈ Finset.range m, (k + 1) := Finset.sum_le_sum fun k _ => min_le_right _ _
      _ = ∑ k ∈ Finset.range (m + 1), k := (Finset.sum_range_succ' (fun k => k) m).symm
      _ = (m + 1).choose 2 := by rw [Finset.sum_range_id, Nat.choose_two_right]

/-- Nothing is greater than a word that comes later in a sorted array. -/
theorem sum_min_of_sorted {w : ℤ → Ptr} {count : ℕ} (h : SortedOn (cstr mem) w 0 count) :
    ∑ k ∈ Finset.range (count - 1), min (greaterBefore mem w (k + 1) + 1) (k + 1) =
      count - 1 := by
  have hone : ∀ k ∈ Finset.range (count - 1),
      min (greaterBefore mem w (k + 1) + 1) (k + 1) = 1 := by
    intro k hk
    have hlt := Finset.mem_range.mp hk
    have hnone : greaterBefore mem w (k + 1) = 0 := by
      rw [greaterBefore, List.countP_eq_zero]
      intro p hp
      obtain ⟨i, hi, hik, rfl⟩ := mem_slice.mp hp
      exact mt of_decide_eq_true (not_lt.mpr (h i _ hi hik.le (by omega)))
    rw [hnone]
    omega
  rw [Finset.sum_const_nat hone, Finset.card_range, Nat.mul_one]

end InsertionSort

/-! ## WordList -/

section WordList

variable {doc beyond : Mem} {n k : ℕ}

/-- The filter compares neighbours. -/
theorem uniqueWords_takes (mem : Mem) (n : ℕ) (s : Machine Call Ptr) :
    Takes Call.isStrcmp (n - 1) (uniqueWords mem n) s := by
  have hturn : ∀ i u s, Takes Call.isStrcmp 1 (uniqueStep mem i u) s := by
    intro i u s
    refine (Takes.load _ _).bind_free <| (Takes.load _ _).bind_free ?_
    refine (strcmp_takes mem _ _ _).then_free ?_
    refine Takes.ite (fun _ => ?_) fun _ => Takes.pure _ _
    exact (Takes.load _ _).bind_free <| (Takes.store _ _ _).bind_free (Takes.pure _ _)
  have hturns : ∀ i ∈ List.range (n - 1), ∀ u s,
      Takes Call.isStrcmp 1 (uniqueStep mem (i + 1) u) s := fun i _ => hturn (i + 1)
  have hrun := Takes.forEach hturns 1 s
  rwa [List.length_range, Nat.mul_one] at hrun

/-- The scan compares nothing. -/
theorem collectWords_takes (mem : Mem) (docLen : ℕ) (s : Machine Call Ptr) :
    Takes Call.isStrcmp 0 (collectWords mem docLen) s := by
  have hturn : ∀ i ∈ List.range docLen, ∀ st s,
      Takes Call.isStrcmp 0 (collectStep mem i st) s := by
    intro i _ st s
    refine Takes.ite (fun _ => ?_) fun _ =>
      Takes.ite (fun _ => Takes.pure _ _) fun _ => Takes.pure _ _
    exact (Takes.store _ _ _).bind_free (Takes.pure _ _)
  have hrun := Takes.forEach hturn (0, false) s
  rwa [Nat.mul_zero] at hrun

/-- Nor does packing, so what is left is the sort and the filter. -/
theorem wordListCalls_countP {sort : Mem → ℕ → CProg Ptr PUnit} (beyond : Mem) (array : ℤ → Ptr)
    (hsort : Takes Call.isStrcmp k (sort (terminated doc ++ beyond) (runStarts doc).length)
      ((collectWords (terminated doc ++ beyond) doc.length).exec ⟨array, []⟩)) :
    (wordListCalls sort doc beyond array).countP Call.isStrcmp =
      k + ((runStarts doc).length - 1) := by
  have hpack : ((packBlock (terminated doc ++ beyond) (sortedArray sort doc beyond array).2.cells
      (sortedArray sort doc beyond array).1).2).countP Call.isStrcmp = 0 := by
    rw [List.countP_eq_zero]
    intro c hc
    obtain ⟨i, -, rfl | rfl⟩ := (packBlock_calls _ _).mp hc <;> exact Bool.false_ne_true
  have hrun : Takes Call.isStrcmp (k + ((runStarts doc).length - 1))
      (fillSortUnique sort (terminated doc ++ beyond) doc.length (runStarts doc).length)
      ⟨array, []⟩ :=
    (collectWords_takes _ _ _).bind_free <| hsort.bind (uniqueWords_takes _ _ _)
  rw [wordListCalls, List.countP_append, hpack, Nat.zero_add]
  exact hrun.tally_eq

theorem length_runStarts_le (h : (wordsOf doc).length < 2 ^ 31) :
    (runStarts doc).length ≤ 2 ^ 31 := by
  rw [← length_wordsOf]
  exact h.le

/-- The words as the sort finds them. -/
theorem slice_collectWords (array : ℤ → Ptr)
    (hlast : alnumAt doc (doc.length - 1) = true → byteAt beyond 0 = 0) :
    (slice ((collectWords (terminated doc ++ beyond) doc.length).exec ⟨array, []⟩).cells 0
      (runStarts doc).length).map (cstr (terminated doc ++ beyond)) = wordsOf doc := by
  rw [collectWords_doc, map_cstr_eq_wordsOf hlast]

/-- The sort and the filter of `WordList`, on the words as `strcmp` sees them. -/
theorem wordList_countP (doc beyond : Mem) (array : ℤ → Ptr)
    (hsize : (wordsOf doc).length < 2 ^ 31) :
    ∃ o, wordList ⟨some array, true⟩ (some (doc ++ beyond)) doc.length = .ok o ∧
      ∃ k, o.calls.countP Call.isStrcmp = k + ((wordsOf doc).length - 1) ∧
        k ≤ (wordsOf doc).length.choose 2 ∧
        (k = (wordsOf doc).length.choose 2 ↔
          Lopsided ((runStarts doc).map (cstr (terminated doc ++ beyond)))) := by
  rw [length_wordsOf] at hsize ⊢
  by_cases hne : runStarts doc = []
  · refine ⟨_, wordListWith_of_nil _ hne, 0, ?_⟩
    rw [hne]
    exact ⟨rfl, le_refl 0, iff_of_true rfl .nil⟩
  · obtain ⟨k, hk, hle, heq⟩ := quickSortWords_takes (terminated doc ++ beyond) hsize.le
      ((collectWords (terminated doc ++ beyond) doc.length).exec ⟨array, []⟩)
    rw [collectWords_doc] at heq
    refine ⟨_, wordListWith_packs quickSortWords beyond array hne, k, ?_⟩
    rw [wordListCalls_countP beyond array hk]
    exact ⟨rfl, hle, heq⟩

/-- With the insertion sort instead, on words that are sorted already. -/
theorem wordListWith_insertionSort_countP (array : ℤ → Ptr)
    (hlast : alnumAt doc (doc.length - 1) = true → byteAt beyond 0 = 0)
    (hincreasing : (wordsOf doc).Pairwise (· < ·)) :
    ∃ o, wordListWith insertionSort ⟨some array, true⟩ (some (doc ++ beyond)) doc.length = .ok o ∧
      o.calls.countP Call.isStrcmp = ((wordsOf doc).length - 1) + ((wordsOf doc).length - 1) := by
  rw [length_wordsOf]
  by_cases hne : runStarts doc = []
  · refine ⟨_, wordListWith_of_nil _ hne, ?_⟩
    rw [hne]
    rfl
  · have hk := insertionSort_takes (terminated doc ++ beyond) (runStarts doc).length
      ((collectWords (terminated doc ++ beyond) doc.length).exec ⟨array, []⟩)
    rw [← slice_collectWords array hlast] at hincreasing
    rw [sum_min_of_sorted (increasingOn_iff.mpr hincreasing).sortedOn] at hk
    exact ⟨_, wordListWith_packs insertionSort beyond array hne,
      wordListCalls_countP beyond array hk⟩

end WordList

/-! ## Results -/

section Results

variable {doc : Mem}

/-- **The quicksort compares at most all pairs of words**, and all pairs exactly when the words
are lopsided: pivot by pivot, all other words are smaller or none is. -/
theorem quickSortWords_comparisons (mem : Mem) (words : ℤ → Ptr) {count : ℕ}
    (h : count < 2 ^ 31) :
    let k := comparisons ((quickSortWords mem count).exec ⟨words, []⟩).trace
    k ≤ count.choose 2 ∧
      (k = count.choose 2 ↔ Lopsided ((slice words 0 count).map (cstr mem))) := by
  obtain ⟨k, hk, hle⟩ := quickSortWords_takes mem h.le ⟨words, []⟩
  dsimp only
  rw [comparisons, hk.tally_eq]
  exact hle

/-- The words `a`, `b` and `c` in this order. -/
theorem quickSortWords_comparisons_three :
    comparisons ((quickSortWords [97, 0, 98, 0, 99, 0] 3).exec
      ⟨fun i => 2 * i.toNat, []⟩).trace = 3 :=
  (quickSortWords_comparisons [97, 0, 98, 0, 99, 0] (fun i => 2 * i.toNat)
    (by decide : 3 < 2 ^ 31)).2.mpr (Lopsided.of_increasing (by decide))

/-- **What the insertion sort compares**: each word with those before it that are greater, and
with one more if there is one. On sorted words that is one comparison each, and never more than
all pairs. -/
theorem insertionSort_comparisons (mem : Mem) (words : ℤ → Ptr) (count : ℕ) :
    let k := comparisons ((insertionSort mem count).exec ⟨words, []⟩).trace
    k = ∑ i ∈ Finset.range (count - 1), min (greaterBefore mem words (i + 1) + 1) (i + 1) ∧
      k ≤ count.choose 2 ∧ (SortedOn (cstr mem) words 0 count → k = count - 1) := by
  have hk := (insertionSort_takes mem count ⟨words, []⟩).tally_eq
  dsimp only
  rw [comparisons, hk]
  exact ⟨rfl, sum_min_le_choose_two _ count, fun h => sum_min_of_sorted h⟩

/-- **What WordList compares**: pairs of words in the sort, at most all of them, and neighbours
in the filter. It compares all pairs exactly when the words are lopsided. -/
theorem wordList_comparisons (doc beyond : Mem) (array : ℤ → Ptr) (hzero : byteAt beyond 0 = 0)
    (hsize : (wordsOf doc).length < 2 ^ 31) :
    let n := (wordsOf doc).length
    ∃ o, wordList ⟨some array, true⟩ (some (doc ++ beyond)) doc.length = .ok o ∧
      o.calls.countP Call.isStrcmp ≤ n.choose 2 + (n - 1) ∧
      (o.calls.countP Call.isStrcmp = n.choose 2 + (n - 1) ↔ Lopsided (wordsOf doc)) := by
  obtain ⟨o, hrun, k, hcount, hle, heq⟩ := wordList_countP doc beyond array hsize
  rw [map_cstr_eq_wordsOf fun _ => hzero] at heq
  refine ⟨o, hrun, ?_⟩
  rw [hcount, ← heq]
  omega

/-- The document `b a b`. -/
theorem wordList_comparisons_three :
    ∃ o, wordList ⟨some fun _ => 0, true⟩ (some [98, 32, 97, 32, 98]) 5 = .ok o ∧
      o.calls.countP Call.isStrcmp ≤ 5 := by
  obtain ⟨o, hrun, hle, -⟩ :=
    wordList_comparisons [98, 32, 97, 32, 98] [] (fun _ => 0) rfl (by decide)
  exact ⟨o, hrun, hle⟩

/-- **On its own output WordList is at its worst**: run on the file of words that `SaveWords`
writes, it compares all pairs of words, where the insertion sort would compare each word with
the one before it. -/
theorem wordList_own_words_comparisons (doc beyond : Mem) (array array' : ℤ → Ptr)
    (hsize : (distinctWords doc).length < 2 ^ 31) :
    let file := fileLines (distinctWords doc)
    let n := (distinctWords doc).length
    ∃ o o', wordList ⟨some array, true⟩ (some (file ++ beyond)) file.length = .ok o ∧
      wordListWith insertionSort ⟨some array', true⟩ (some (file ++ beyond)) file.length =
        .ok o' ∧
      o.calls.countP Call.isStrcmp = n.choose 2 + (n - 1) ∧
      o'.calls.countP Call.isStrcmp = (n - 1) + (n - 1) := by
  have hwords : wordsOf (fileLines (distinctWords doc)) = distinctWords doc :=
    wordsOf_fileLines (fun _ h => isLetter_of_mem_distinctWords h)
      fun _ h => ne_nil_of_mem_distinctWords h
  have hincreasing : (distinctWords doc).Pairwise (· < ·) := sortedDistinct_pairwise _
  have hlast := alnumAt_fileLines_last (distinctWords doc)
  dsimp only
  generalize fileLines (distinctWords doc) = file at *
  generalize distinctWords doc = strs at *
  have hbehind : alnumAt file (file.length - 1) = true → byteAt beyond 0 = 0 := by
    rw [hlast]
    exact fun h => absurd h Bool.false_ne_true
  obtain ⟨o, hrun, k, hcount, -, heq⟩ := wordList_countP file beyond array (by rwa [hwords])
  rw [map_cstr_eq_wordsOf hbehind] at heq
  rw [hwords] at hcount heq
  obtain ⟨o', hrun', hcount'⟩ :=
    wordListWith_insertionSort_countP array' hbehind (by rwa [hwords])
  rw [hwords] at hcount'
  refine ⟨o, o', hrun, hrun', ?_, hcount'⟩
  rw [hcount, heq.mpr (Lopsided.of_increasing hincreasing)]

/-- The document `b a`, whose file of words is `a`, `b`. -/
theorem wordList_own_words_comparisons_two :
    ∃ o, wordList ⟨some fun _ => 0, true⟩ (some (fileLines (distinctWords [98, 32, 97])))
        (fileLines (distinctWords [98, 32, 97])).length = .ok o ∧
      o.calls.countP Call.isStrcmp = 2 := by
  have hwords : wordsOf [98, 32, 97] = [[98], [97]] := by decide
  have hdistinct : distinctWords [98, 32, 97] = [[97], [98]] := by
    rw [distinctWords_eq_wordsOf, hwords]
    exact (eq_sortedDistinct (by decide) fun t => by simp [or_comm]).symm
  obtain ⟨o, -, hrun, -, hcount, -⟩ :=
    wordList_own_words_comparisons [98, 32, 97] [] (fun _ => 0) (fun _ => 0)
      (by rw [hdistinct]; decide)
  rw [List.append_nil] at hrun
  rw [hdistinct] at hcount
  exact ⟨o, hrun, hcount⟩

end Results

end EfficientDictionary
