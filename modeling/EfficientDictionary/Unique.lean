import EfficientDictionary.CString

/-!
# The duplicate filter of WordList

The loop that keeps, of the sorted word array, each word that differs from its predecessor.
It writes the words it keeps to the front of the array it is still reading.

* `firsts key w n` — the indices the filter should keep, in terms of the original array.
* `UniqueInv` — the invariant: the front holds the words kept so far, everything from
  `unique_count` on is untouched, and so is the entry the next comparison looks back at.
-/

namespace EfficientDictionary

/-! ## The indices to keep -/

section Firsts

variable {α κ : Type} [LinearOrder κ] {key : α → κ} {w : ℤ → α} {n : ℕ}

/-- The indices below `n` whose key differs from the key before. -/
def firsts (key : α → κ) (w : ℤ → α) (n : ℕ) : List ℕ :=
  (List.range n).filter fun k => k = 0 ∨ key (w k) ≠ key (w (k - 1))

theorem firsts_one (key : α → κ) (w : ℤ → α) : firsts key w 1 = [0] := by
  simp [firsts]

theorem firsts_succ_of_ne (h : key (w n) ≠ key (w (n - 1))) :
    firsts key w (n + 1) = firsts key w n ++ [n] := by
  simp [firsts, List.range_succ, h]

theorem firsts_succ_of_eq (hn : n ≠ 0) (h : key (w n) = key (w (n - 1))) :
    firsts key w (n + 1) = firsts key w n := by
  simp [firsts, List.range_succ, h, hn]

theorem length_firsts_le (key : α → κ) (w : ℤ → α) (n : ℕ) : (firsts key w n).length ≤ n := by
  have hle := List.length_filter_le (fun k : ℕ => decide (k = 0 ∨ key (w k) ≠ key (w (k - 1))))
    (List.range n)
  rwa [List.length_range] at hle

theorem mem_firsts {k : ℕ} :
    k ∈ firsts key w n ↔ k < n ∧ (k = 0 ∨ key (w k) ≠ key (w (k - 1))) := by
  rw [firsts, List.mem_filter, List.mem_range, decide_eq_true_iff]

/-- Of a sorted array the keys kept increase. -/
theorem firsts_pairwise (h : SortedOn key w 0 n) :
    ((firsts key w n).map fun k : ℕ => key (w k)).Pairwise (· < ·) := by
  rw [List.pairwise_map]
  refine (List.pairwise_lt_range.filter _).imp_of_mem fun {a b} _ hb hlt => ?_
  obtain ⟨hbn, hfirst⟩ := mem_firsts.mp hb
  have hne : key (w b) ≠ key (w (b - 1)) := hfirst.resolve_left (by omega)
  -- `a` is at or before the predecessor of `b`
  have hpred := h a (b - 1) (by omega) (by omega) (by omega)
  exact hpred.trans_lt (lt_of_le_of_ne (h (b - 1) b (by omega) (by omega) (by omega)) hne.symm)

/-- Every key of the array is the key of an index kept. -/
theorem exists_mem_firsts (k : ℕ) (hk : k < n) :
    ∃ j ∈ firsts key w n, key (w j) = key (w k) := by
  induction k with
  | zero => exact ⟨0, mem_firsts.mpr ⟨hk, Or.inl rfl⟩, rfl⟩
  | succ k ih =>
    have hpred : ((k + 1 : ℕ) : ℤ) - 1 = k := by omega
    by_cases h : key (w (k + 1 : ℕ)) = key (w ((k + 1 : ℕ) - 1))
    · obtain ⟨j, hj, hkey⟩ := ih (by omega)
      refine ⟨j, hj, ?_⟩
      rw [hkey, h, hpred]
    · exact ⟨k + 1, mem_firsts.mpr ⟨hk, Or.inr h⟩, rfl⟩

/-- The keys kept are the keys of the array. -/
theorem mem_map_firsts {c : κ} :
    c ∈ (firsts key w n).map (fun k : ℕ => key (w k)) ↔ c ∈ (slice w 0 n).map key := by
  simp only [List.mem_map, mem_slice]
  refine ⟨?_, ?_⟩
  · rintro ⟨k, hk, rfl⟩
    exact ⟨w k, ⟨k, by omega, Int.ofNat_lt.mpr (mem_firsts.mp hk).1, rfl⟩, rfl⟩
  · rintro ⟨a, ⟨i, hi, hin, rfl⟩, rfl⟩
    obtain ⟨k, rfl⟩ := Int.eq_ofNat_of_zero_le hi
    exact exists_mem_firsts k (Int.ofNat_lt.mp hin)

end Firsts

/-! ## The filter -/

/-- One turn of the filter; it returns the new `unique_count`. -/
def uniqueStep (mem : Mem) (i uniqueCount : ℕ) : CProg Ptr ℕ := do
  let word ← load i
  let prev ← load (i - 1)
  let ret ← strcmp mem word prev
  if ret ≠ 0 then do
    let word ← load i
    store uniqueCount word
    pure (uniqueCount + 1)
  else
    pure uniqueCount

/-- The filter; it returns `unique_count`. -/
def uniqueWords (mem : Mem) (wordCount : ℕ) : CProg Ptr ℕ :=
  forEach (List.range (wordCount - 1)) 1 fun k uniqueCount => uniqueStep mem (k + 1) uniqueCount

section Filter

variable {mem : Mem} {w : ℤ → Ptr} {i : ℕ}

/-- The state of the filter when the words below `i` have been looked at; `w` is the array
it started from. -/
structure UniqueInv (mem : Mem) (w : ℤ → Ptr) (i uniqueCount : ℕ) (s : Machine Call Ptr) :
    Prop where
  /-- `unique_count` counts the words kept -/
  count : uniqueCount = (firsts (cstr mem) w i).length
  /-- they stand at the front -/
  front : slice s.cells 0 uniqueCount = (firsts (cstr mem) w i).map fun k : ℕ => w k
  /-- the rest of the array is as it was -/
  rest : ∀ j : ℤ, uniqueCount ≤ j → s.cells j = w j
  /-- and so is the entry the next comparison looks back at -/
  back : s.cells (i - 1) = w (i - 1)
  /-- neighbours have been compared -/
  calls : ∀ k : ℕ, 1 ≤ k → k < i → .note (.strcmp (w k) (w (k - 1))) ∈ s.trace

/-- The filter has not touched what it still has to read. -/
theorem UniqueInv.unread {u : ℕ} {s : Machine Call Ptr} (h : UniqueInv mem w i u s) {j : ℤ}
    (hj : (i : ℤ) - 1 ≤ j) : s.cells j = w j := by
  have hle := length_firsts_le (cstr mem) w i
  rw [← h.count] at hle
  rcases eq_or_lt_of_le hj with rfl | hlt
  · exact h.back
  · exact h.rest j (by omega)

theorem uniqueStep_of_ne {u : ℕ} {s : Machine Call Ptr}
    (h : cstr mem (s.cells i) ≠ cstr mem (s.cells (i - 1))) :
    (uniqueStep mem i u).val s = u + 1 ∧
      ((uniqueStep mem i u).exec s).cells = Function.update s.cells u (s.cells i) := by
  rw [ne_eq, ← strcmpAt_eq_zero_iff] at h
  simp [uniqueStep, h]

theorem uniqueStep_of_eq {u : ℕ} {s : Machine Call Ptr}
    (h : cstr mem (s.cells i) = cstr mem (s.cells (i - 1))) :
    (uniqueStep mem i u).val s = u ∧ ((uniqueStep mem i u).exec s).cells = s.cells := by
  rw [← strcmpAt_eq_zero_iff] at h
  simp [uniqueStep, h]

/-- Either way the two neighbours are compared, and the trace only grows. -/
theorem uniqueStep_calls (mem : Mem) (i u : ℕ) (s : Machine Call Ptr) :
    .note (.strcmp (s.cells i) (s.cells (i - 1))) ∈ ((uniqueStep mem i u).exec s).trace ∧
      ∀ e ∈ s.trace, e ∈ ((uniqueStep mem i u).exec s).trace := by
  by_cases h : strcmpAt mem (s.cells i) (s.cells (i - 1)) = 0
  · simp +contextual [uniqueStep, h]
  · simp +contextual [uniqueStep, h]

/-- One turn of the filter. -/
theorem uniqueStep_inv {u : ℕ} {s : Machine Call Ptr} (hi : 1 ≤ i)
    (h : UniqueInv mem w i u s) :
    UniqueInv mem w (i + 1) ((uniqueStep mem i u).val s) ((uniqueStep mem i u).exec s) := by
  have hword : s.cells i = w i := h.unread (Int.sub_le_self _ Int.one_nonneg)
  have hsucc : ((i + 1 : ℕ) : ℤ) - 1 = i := by omega
  have hcalls : ∀ k : ℕ, 1 ≤ k → k < i + 1 →
      .note (.strcmp (w k) (w (k - 1))) ∈ ((uniqueStep mem i u).exec s).trace := by
    obtain ⟨hnew, hold⟩ := uniqueStep_calls mem i u s
    intro k hk hki
    rcases eq_or_lt_of_le (Nat.lt_succ_iff.mp hki) with rfl | hlt
    · rwa [hword, h.back] at hnew
    · exact hold _ (h.calls k hk hlt)
  by_cases heq : cstr mem (w i) = cstr mem (w (i - 1))
  · have hstep : cstr mem (s.cells i) = cstr mem (s.cells (i - 1)) := by rwa [hword, h.back]
    obtain ⟨hval, hcells⟩ := uniqueStep_of_eq (u := u) hstep
    rw [hval]
    refine ⟨?_, ?_, ?_, ?_, hcalls⟩
    · rw [firsts_succ_of_eq (by omega) heq, h.count]
    · rw [firsts_succ_of_eq (by omega) heq, hcells, h.front]
    · rw [hcells]
      exact h.rest
    · rw [hcells, hsucc, hword]
  · have hstep : cstr mem (s.cells i) ≠ cstr mem (s.cells (i - 1)) := by rwa [hword, h.back]
    obtain ⟨hval, hcells⟩ := uniqueStep_of_ne (u := u) hstep
    rw [hval]
    refine ⟨?_, ?_, ?_, ?_, hcalls⟩
    · rw [firsts_succ_of_ne heq, List.length_append, ← h.count]
      rfl
    · rw [firsts_succ_of_ne heq, hcells, Nat.cast_succ, slice_update_right (Int.natCast_nonneg u),
        hword, List.map_append, ← h.front]
      rfl
    · intro j hj
      rw [hcells, Function.update_of_ne (by omega)]
      exact h.rest j (by omega)
    · -- the entry written is either this one, with its own word, or an earlier one
      rw [hcells, hsucc, Function.update_apply]
      split_ifs
      · exact hword
      · exact hword

/-- **The filter keeps what it should**, though it writes to the array it reads. -/
theorem uniqueWords_inv (mem : Mem) {n : ℕ} (hn : 1 ≤ n) (s : Machine Call Ptr) :
    UniqueInv mem s.cells n ((uniqueWords mem n).val s) ((uniqueWords mem n).exec s) := by
  have hrun := forEach_range_inv (f := fun k u => uniqueStep mem (k + 1) u) (n := n - 1)
    (b := 1) (s := s) (I := fun k u s' => UniqueInv mem s.cells (k + 1) u s')
    ⟨?_, ?_, fun _ _ => rfl, rfl, fun k hk hk1 => absurd hk (by omega)⟩
    fun k u s' _ h => uniqueStep_inv (Nat.succ_le_succ (Nat.zero_le k)) h
  · rwa [Nat.sub_add_cancel hn] at hrun
  · rw [firsts_one]
    rfl
  · rw [firsts_one, Nat.cast_one]
    exact slice_singleton s.cells 0

theorem uniqueStep_val_le {k u : ℕ} (h : u ≤ k) (s : Machine Call Ptr) :
    (uniqueStep mem k u).val s ≤ k + 1 := by
  by_cases heq : cstr mem (s.cells k) = cstr mem (s.cells (k - 1))
  · rw [(uniqueStep_of_eq heq).1]
    omega
  · rw [(uniqueStep_of_ne heq).1]
    omega

/-- The filter touches the words only. -/
theorem uniqueWords_local (mem : Mem) (n : ℕ) : Local (Set.Ico 0 (n : ℤ)) (uniqueWords mem n) := by
  refine (Local.forEach_range (I := fun k u => u ≤ k + 1) (le_refl 1) fun k u hk hu => ?_).1
  have hword : ((k + 1 : ℕ) : ℤ) ∈ Set.Ico 0 (n : ℤ) := ⟨by omega, by omega⟩
  have hprev : ((k + 1 : ℕ) : ℤ) - 1 ∈ Set.Ico 0 (n : ℤ) := ⟨by omega, by omega⟩
  have hfront : (u : ℤ) ∈ Set.Ico 0 (n : ℤ) := ⟨by omega, by omega⟩
  refine ⟨?_, uniqueStep_val_le hu⟩
  refine (Local.load hword).bind fun _ => (Local.load hprev).bind fun _ => ?_
  refine (strcmp_local _ _ _ _).bind fun _ => Local.ite (fun _ => ?_) fun _ => Local.pure _ _
  exact (Local.load hword).bind fun _ => (Local.store hfront _).bind fun _ => Local.pure _ _

/-- The filter reports comparisons of words of the array. -/
theorem uniqueWords_keeps {P : Ptr → Prop} {Q : Call → Prop} {n : ℕ}
    (hcmp : ∀ a b, P a → P b → Q (.strcmp a b)) :
    Keeps (Set.Ico 0 (n : ℤ)) P Q (uniqueWords mem n) := by
  refine Keeps.forEach_range (I := fun k u => u ≤ k + 1) (le_refl 1) fun k u hk hu =>
    ⟨?_, uniqueStep_val_le hu⟩
  have hword : ((k + 1 : ℕ) : ℤ) ∈ Set.Ico 0 (n : ℤ) := ⟨by omega, by omega⟩
  have hprev : ((k + 1 : ℕ) : ℤ) - 1 ∈ Set.Ico 0 (n : ℤ) := ⟨by omega, by omega⟩
  refine (Keeps.load _).bind fun s hs => (Keeps.load _).bind fun s' hs' => ?_
  refine (strcmp_keeps (hcmp _ _ (hs.cells _ hword) (hs'.cells _ hprev)) mem).bind fun _ _ => ?_
  refine Keeps.ite (fun _ => ?_) fun _ => Keeps.pure _
  refine (Keeps.load _).bind fun s hs => ?_
  exact (Keeps.store fun _ => hs.cells _ hword).bind fun _ _ => Keeps.pure _

/-- The strings left at the front of a sorted array: increasing, and those of the array. -/
theorem uniqueWords_strings {n : ℕ} (hn : 1 ≤ n) (s : Machine Call Ptr)
    (hsorted : SortedOn (cstr mem) s.cells 0 n) :
    ((slice ((uniqueWords mem n).exec s).cells 0 ((uniqueWords mem n).val s)).map
        (cstr mem)).Pairwise (· < ·) ∧
      ∀ t, t ∈ (slice ((uniqueWords mem n).exec s).cells 0
        ((uniqueWords mem n).val s)).map (cstr mem) ↔ t ∈ (slice s.cells 0 n).map (cstr mem) := by
  have hinv := uniqueWords_inv mem hn s
  rw [hinv.front, List.map_map]
  exact ⟨firsts_pairwise hsorted, fun t => mem_map_firsts⟩

/-- **The filter keeps each word that differs from its predecessor**, pointer for pointer and
in terms of the array it was given. `uniqueWords mem i` is what has been done before the
turn of index `i`, and it has left every entry from `i - 1` on as it was. Of a sorted array
what is kept increases strictly and has the same strings. -/
theorem uniqueWords_filters (mem : Mem) {n : ℕ} (hn : 1 ≤ n) (s : Machine Call Ptr) :
    slice ((uniqueWords mem n).exec s).cells 0 ((uniqueWords mem n).val s) =
        (firsts (cstr mem) s.cells n).map (fun k : ℕ => s.cells k) ∧
      (∀ i : ℕ, 1 ≤ i → i < n → ∀ j : ℤ, (i : ℤ) - 1 ≤ j →
        ((uniqueWords mem i).exec s).cells j = s.cells j) ∧
      ((∀ i j : ℤ, 0 ≤ i → i ≤ j → j < n → strcmpAt mem (s.cells i) (s.cells j) ≤ 0) →
        (slice ((uniqueWords mem n).exec s).cells 0 ((uniqueWords mem n).val s)).Pairwise
            (fun a b => strcmpAt mem a b < 0) ∧
          ∀ t, t ∈ (slice ((uniqueWords mem n).exec s).cells 0 ((uniqueWords mem n).val s)).map
            (cstr mem) ↔ t ∈ (slice s.cells 0 n).map (cstr mem)) := by
  refine ⟨(uniqueWords_inv mem hn s).front, fun i hi _ j hj => ?_, fun hsorted => ?_⟩
  · exact (uniqueWords_inv mem hi s).unread hj
  · have hkeys : SortedOn (cstr mem) s.cells 0 n :=
      fun i j hi hij hj => strcmpAt_nonpos_iff.mp (hsorted i j hi hij hj)
    obtain ⟨hlt, hmem⟩ := uniqueWords_strings hn s hkeys
    refine ⟨?_, hmem⟩
    rw [List.pairwise_map] at hlt
    exact hlt.imp fun h => strcmpAt_neg_iff.mpr h

/-- The words `a`, `a` and `b`: the second is dropped. -/
theorem uniqueWords_filters_three :
    slice ((uniqueWords [97, 0, 98, 0] 3).exec ⟨fun i => if i < 2 then 0 else 2, []⟩).cells 0
      ((uniqueWords [97, 0, 98, 0] 3).val ⟨fun i => if i < 2 then 0 else 2, []⟩) = [0, 2] := by
  rw [(uniqueWords_filters [97, 0, 98, 0] (by decide : 1 ≤ 3) _).1]
  decide

end Filter

end EfficientDictionary
