import EfficientDictionary.CString
import EfficientDictionary.Stable

/-!
# The insertion sort

`insertion_sort`, the simplest of the alternatives to the sequential quicksort.

While the inner loop shifts words up, the array holds one pointer twice and the key is in
no cell. The proofs speak of the array with the key put back at `j`, which is a
rearrangement of the original at every moment: one turn of the loop exchanges its cells
`j - 1` and `j`. It does so only when the word at `j - 1` is greater than the key, so the
rearrangement is stable.
-/

namespace EfficientDictionary

/-! ## Definitions -/

/-- The inner loop, from `j` downwards: every word greater than `key` moves up one place,
until one is not. It returns the final `j`. -/
def shiftGreater (mem : Mem) (key : Ptr) : ℕ → CProg Ptr ℕ
  | 0 => pure 0
  | j + 1 => do
    let word ← load j
    let ret ← strcmp mem word key
    if 0 < ret then do
      let word ← load j
      store (j + 1) word
      shiftGreater mem key j
    else
      pure (j + 1)

/-- One turn of the outer loop. -/
def insertWord (mem : Mem) (i : ℕ) : CProg Ptr PUnit := do
  let key ← load i
  let j ← shiftGreater mem key i
  store j key

/-- `insertion_sort` -/
def insertionSort (mem : Mem) (count : ℕ) : CProg Ptr PUnit :=
  forEach (List.range (count - 1)) ⟨⟩ fun k _ => insertWord mem (k + 1)

/-! ## The array with the key put back -/

section Insertion

variable {α κ : Type} [LinearOrder κ] {key : α → κ} {v : ℤ → α} {j r : ℤ}

/-- The range `[0, r)` is sorted but for the cell at `j`, which is not above the cells
after it. -/
structure InsertedAt (key : α → κ) (v : ℤ → α) (j r : ℤ) : Prop where
  /-- the other cells are in order -/
  rest : ∀ a b, 0 ≤ a → a ≤ b → b < r → a ≠ j → b ≠ j → key (v a) ≤ key (v b)
  /-- those after `j` are not below it -/
  above : ∀ b, j < b → b < r → key (v j) ≤ key (v b)

/-- At the top of the range there is nothing to be above. -/
theorem InsertedAt.start (h : SortedOn key v 0 j) : InsertedAt key v j (j + 1) :=
  ⟨fun a b ha hab hb _ hne => h a b ha hab (by omega), fun b hjb hb => by omega⟩

/-- One turn of the inner loop. -/
theorem InsertedAt.shift (h : InsertedAt key v j r) (hj : 0 < j) (hr : j < r)
    (hlt : key (v j) < key (v (j - 1))) :
    InsertedAt key (v ∘ Equiv.swap (j - 1) j) (j - 1) r := by
  have hleft := comp_swap_left v (j - 1) j
  have hright := comp_swap_right v (j - 1) j
  have hother : ∀ a, a ≠ j - 1 → a ≠ j → (v ∘ Equiv.swap (j - 1) j) a = v a :=
    fun _ => comp_swap_of_ne
  refine ⟨fun a b ha hab hb hna hnb => ?_, fun b hjb hb => ?_⟩
  · -- the cell that moved up to `j` stands where its order says
    rcases eq_or_ne a j with rfl | haj
    · rcases eq_or_ne b a with rfl | hba
      · exact le_refl _
      · rw [hright, hother b hnb hba]
        exact h.rest (a - 1) b (by omega) (by omega) hb (by omega) hba
    · rw [hother a hna haj]
      rcases eq_or_ne b j with rfl | hbj
      · rw [hright]
        exact h.rest a (b - 1) ha (by omega) (by omega) haj (by omega)
      · rw [hother b hnb hbj]
        exact h.rest a b ha hab hb haj hbj
  · rw [hleft]
    rcases eq_or_ne b j with rfl | hbj
    · rw [hright]
      exact hlt.le
    · rw [hother b (by omega) hbj]
      exact h.above b (by omega) hb

/-- When the loop stops, the cell at `j` is in its place. -/
theorem InsertedAt.sorted (h : InsertedAt key v j r)
    (hstop : j ≤ 0 ∨ key (v (j - 1)) ≤ key (v j)) : SortedOn key v 0 r := by
  intro a b ha hab hb
  rcases eq_or_ne a j with rfl | haj
  · rcases eq_or_lt_of_le hab with rfl | hlt
    · exact le_refl _
    · exact h.above b hlt hb
  · rcases eq_or_ne b j with rfl | hbj
    · have hle := hstop.resolve_left (by omega)
      exact (h.rest a (b - 1) ha (by omega) (by omega) haj (by omega)).trans hle
    · exact h.rest a b ha hab hb haj hbj

/-- Moving the word at `j - 1` up to `j` exchanges two cells of the array with the key put
back. -/
theorem update_shift (v : ℤ → α) (j : ℤ) (x : α) :
    Function.update (Function.update v (j + 1) (v j)) j x =
      Function.update v (j + 1) x ∘ Equiv.swap j (j + 1) := by
  funext i
  simp only [Function.update_apply, Function.comp_apply, Equiv.swap_apply_def]
  split_ifs <;> first | rfl | omega

end Insertion

/-! ## The inner loop -/

section ShiftGreater

variable {mem : Mem} {key : Ptr} {i j : ℕ}

theorem shiftGreater_of_lt {s : Machine Call Ptr} (h : 0 < strcmpAt mem (s.cells j) key) :
    ∃ s' : Machine Call Ptr, s'.cells = Function.update s.cells (j + 1) (s.cells j) ∧
      (shiftGreater mem key (j + 1)).val s = (shiftGreater mem key j).val s' ∧
      (shiftGreater mem key (j + 1)).exec s = (shiftGreater mem key j).exec s' := by
  refine ⟨Prog.exec (do
    let word ← load j
    let _ ← strcmp mem word key
    let word ← load j
    store (j + 1) word) s, rfl, ?_, ?_⟩
  · simp [shiftGreater, h]
  · simp [shiftGreater, h]

theorem shiftGreater_of_le {s : Machine Call Ptr} (h : ¬ 0 < strcmpAt mem (s.cells j) key) :
    (shiftGreater mem key (j + 1)).val s = j + 1 ∧
      ((shiftGreater mem key (j + 1)).exec s).cells = s.cells := by
  simp [shiftGreater, h]

theorem shiftGreater_le (s : Machine Call Ptr) : (shiftGreater mem key j).val s ≤ j := by
  induction j generalizing s with
  | zero => exact le_refl 0
  | succ j ih =>
    by_cases h : 0 < strcmpAt mem (s.cells j) key
    · obtain ⟨s', _, hval, _⟩ := shiftGreater_of_lt h
      rw [hval]
      exact (ih s').trans (Nat.le_succ j)
    · rw [(shiftGreater_of_le h).1]

/-- What the inner loop does to the array with the key put back: it rearranges it without
changing the order of equal strings, and if only the key was out of place it sorts it. -/
theorem shiftGreater_spec (mem : Mem) (key : Ptr) (hj : j ≤ i) (s : Machine Call Ptr) :
    Stable (cstr mem) 0 (i + 1) (Function.update s.cells j key)
        (Function.update ((shiftGreater mem key j).exec s).cells
          ((shiftGreater mem key j).val s : ℕ) key) ∧
      (InsertedAt (cstr mem) (Function.update s.cells j key) j (i + 1) →
        SortedOn (cstr mem) (Function.update ((shiftGreater mem key j).exec s).cells
          ((shiftGreater mem key j).val s : ℕ) key) 0 (i + 1)) := by
  induction j generalizing s with
  | zero => exact ⟨Stable.refl _ _ _ _, fun h => h.sorted (Or.inl (le_refl 0))⟩
  | succ j ih =>
    have hkey : Function.update s.cells ((j + 1 : ℕ) : ℤ) key ((j + 1 : ℕ) : ℤ) = key :=
      Function.update_self _ _ _
    have hword : Function.update s.cells ((j + 1 : ℕ) : ℤ) key j = s.cells j :=
      Function.update_of_ne (by omega) _ _
    rw [Nat.cast_succ] at hkey hword ⊢
    by_cases h : 0 < strcmpAt mem (s.cells j) key
    · obtain ⟨s', hcells, hval, hexec⟩ := shiftGreater_of_lt h
      obtain ⟨hstable, hsorted⟩ := ih (by omega) s'
      rw [hcells, update_shift] at hstable hsorted
      rw [hval, hexec]
      have hlt : cstr mem (Function.update s.cells ((j : ℤ) + 1) key (j + 1)) <
          cstr mem (Function.update s.cells ((j : ℤ) + 1) key j) := by
        rw [hkey, hword]
        exact strcmpAt_pos_iff.mp h
      refine ⟨(Stable.swap_adjacent (by omega) (by omega) hlt).trans hstable,
        fun hins => hsorted ?_⟩
      have hnext := hins.shift (by omega) (by omega) (by rwa [add_sub_cancel_right])
      rwa [add_sub_cancel_right] at hnext
    · obtain ⟨hval, hcells⟩ := shiftGreater_of_le h
      rw [hval, hcells, Nat.cast_succ]
      refine ⟨Stable.refl _ _ _ _, fun hins => hins.sorted (Or.inr ?_)⟩
      rw [add_sub_cancel_right, hkey, hword]
      rw [strcmpAt_pos_iff] at h
      exact not_lt.mp h

theorem shiftGreater_local (hj : j ≤ i) :
    Local (Set.Icc 0 (i : ℤ)) (shiftGreater mem key j) := by
  induction j with
  | zero => exact Local.pure _ _
  | succ j ih =>
    have hmem : (j : ℤ) ∈ Set.Icc 0 (i : ℤ) := ⟨by omega, by omega⟩
    have hmem' : (j : ℤ) + 1 ∈ Set.Icc 0 (i : ℤ) := ⟨by omega, by omega⟩
    refine (Local.load hmem).bind fun _ => (strcmp_local _ _ _ _).bind fun _ => ?_
    refine Local.ite (fun _ => ?_) fun _ => Local.pure _ _
    refine (Local.load hmem).bind fun _ => (Local.store hmem' _).bind fun _ => ?_
    exact ih (by omega)

theorem shiftGreater_keeps {R : Set ℤ} {Q : Call → Prop} (hcmp : ∀ a b, Q (.strcmp a b)) :
    Keeps R (fun _ => True) Q (shiftGreater mem key j) := by
  induction j with
  | zero => exact Keeps.pure _
  | succ j ih =>
    refine (Keeps.load _).bind fun _ _ => (strcmp_keeps (hcmp _ _) mem).bind fun _ _ => ?_
    refine Keeps.ite (fun _ => ?_) fun _ => Keeps.pure _
    exact (Keeps.load _).bind fun _ _ => (Keeps.store fun _ => trivial).bind fun _ _ => ih

end ShiftGreater

/-! ## The outer loop -/

/-- One turn of the outer loop inserts the word at `i` into the sorted prefix, behind the
words equal to it. -/
theorem insertWord_stablySorts (mem : Mem) (i : ℕ) (s : Machine Call Ptr)
    (h : SortedOn (cstr mem) s.cells 0 i) :
    StablySorts (cstr mem) 0 (i + 1) s.cells ((insertWord mem i).exec s).cells := by
  obtain ⟨hstable, hsorted⟩ := shiftGreater_spec mem (s.cells i) (le_refl i)
    ((load i : CProg Ptr Ptr).exec s)
  have hsame : Function.update ((load i : CProg Ptr Ptr).exec s).cells i (s.cells i) = s.cells :=
    Function.update_eq_self _ _
  rw [hsame] at hstable hsorted
  exact ⟨hstable, hsorted (InsertedAt.start h)⟩

theorem insertionSort_stablySorts (mem : Mem) (count : ℕ) (s : Machine Call Ptr) :
    StablySorts (cstr mem) 0 count s.cells ((insertionSort mem count).exec s).cells := by
  rcases Nat.lt_or_ge count 2 with hcount | hcount
  · have hzero : count - 1 = 0 := by omega
    rw [insertionSort, hzero]
    exact StablySorts.of_le _ _ (by omega)
  · have hrun := forEach_range_inv (f := fun k _ => insertWord mem (k + 1)) (b := ⟨⟩)
      (n := count - 1) (s := s)
      (I := fun k _ s' => StablySorts (cstr mem) 0 ((k + 1 : ℕ) : ℤ) s.cells s'.cells)
      (StablySorts.of_le _ _ (by omega)) fun k _ s' _ hs' => ?_
    · have hcount' : count - 1 + 1 = count := by omega
      rwa [hcount'] at hrun
    · have hturn := insertWord_stablySorts mem (k + 1) s' hs'.sorted
      exact ⟨(hs'.stable.mono (le_refl 0) (by omega)).trans hturn.stable, hturn.sorted⟩

theorem insertionSort_sorts (mem : Mem) (count : ℕ) (s : Machine Call Ptr) :
    Sorts (cstr mem) 0 count s.cells ((insertionSort mem count).exec s).cells :=
  (insertionSort_stablySorts mem count s).sorts

/-- The array is left sorted by `strcmp`, equal strings in the order they were in, and no
other array is both. -/
theorem insertionSort_stable (mem : Mem) (count : ℕ) (s : Machine Call Ptr) :
    ∃ w' : ℤ → Ptr, ((insertionSort mem count).exec s).cells = w' ∧
      StrcmpSorted mem 0 count s.cells w' ∧ Stable (cstr mem) 0 count s.cells w' ∧
      ∀ w'' : ℤ → Ptr, StrcmpSorted mem 0 count s.cells w'' →
        Stable (cstr mem) 0 count s.cells w'' → w'' = w' := by
  have hsorts := insertionSort_stablySorts mem count s
  refine ⟨_, rfl, hsorts.sorts.strcmpSorted, hsorts.stable, fun w'' hsorted hstable => ?_⟩
  have horder : SortedOn (cstr mem) w'' 0 count := fun i j hi hij hj =>
    strcmpAt_nonpos_iff.mp (hsorted.ordered i j hi hij hj)
  exact StablySorts.unique ⟨hstable, horder⟩ hsorts

theorem insertionSort_local (mem : Mem) (count : ℕ) :
    Local (Set.Ico 0 (count : ℤ)) (insertionSort mem count) := by
  refine Local.forEach (fun k hk _ => ?_) _
  have hcount := List.mem_range.mp hk
  have hsub : Set.Icc 0 ((k + 1 : ℕ) : ℤ) ⊆ Set.Ico 0 (count : ℤ) :=
    Set.Icc_subset_Ico_right (by omega)
  have hself : ((k + 1 : ℕ) : ℤ) ∈ Set.Icc 0 ((k + 1 : ℕ) : ℤ) := ⟨by omega, le_refl _⟩
  refine Local.mono ?_ hsub
  refine (Local.load hself).bind fun _ => ?_
  refine (shiftGreater_local (le_refl _)).bind fun s => ?_
  exact Local.store (R := Set.Icc 0 _)
    ⟨Int.natCast_nonneg _, Int.ofNat_le.mpr (shiftGreater_le s)⟩ _

/-- The indices are no `int`s here, so comparisons are all that is reported. -/
theorem insertionSort_keeps {R : Set ℤ} {Q : Call → Prop} (mem : Mem) (count : ℕ)
    (hcmp : ∀ a b, Q (.strcmp a b)) : Keeps R (fun _ => True) Q (insertionSort mem count) := by
  refine Keeps.forEach (fun k _ _ => ?_) _
  refine (Keeps.load _).bind fun _ _ => (shiftGreater_keeps hcmp).bind fun _ _ => ?_
  exact Keeps.store fun _ => trivial

end EfficientDictionary
