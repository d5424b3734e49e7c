import EfficientDictionary.Segment

/-!
# Medians of three

General facts about a median of three entries by their keys, and the two ways to find one.

* `IsMedian key a b c m` — `m` is one of the three, and of the other two one is not above it
  and one not below.
* `Between key a b c` — `b` lies between `a` and `c`. Of three entries one always does, so
  two questions decide: `between_of_not`.
* `compareExchange key i j w` — the cells `i` and `j` of `w` put in order. Three of these,
  `sortThree`, leave a median in the second cell: `isMedian_sortThree`.
-/

namespace EfficientDictionary

universe u v

variable {α : Type u} {κ : Type v}

/-! ## Medians -/

/-- The entry `m` is one of the three and lies between the other two. -/
def IsMedian [LE κ] (key : α → κ) (a b c m : α) : Prop :=
  ∃ lo hi, [lo, m, hi].Perm [a, b, c] ∧ key lo ≤ key m ∧ key m ≤ key hi

/-- The entry `b` lies between `a` and `c`, one way or the other. -/
def Between [LE κ] (key : α → κ) (a b c : α) : Prop :=
  (key a ≤ key b ∧ key b ≤ key c) ∨ (key c ≤ key b ∧ key b ≤ key a)

section Median

variable {key : α → κ} {a b c m : α}

theorem IsMedian.mem [LE κ] (h : IsMedian key a b c m) : m = a ∨ m = b ∨ m = c := by
  obtain ⟨lo, hi, hperm, _, _⟩ := h
  have hmem : m ∈ [a, b, c] := hperm.mem_iff.mp (by simp)
  simpa using hmem

/-- The three entries may be given in any order. -/
theorem IsMedian.rotate [LE κ] (h : IsMedian key b c a m) : IsMedian key a b c m := by
  obtain ⟨lo, hi, hperm, hlo, hhi⟩ := h
  have hrotate : ([b, c] ++ [a]).Perm ([a] ++ [b, c]) := List.perm_append_comm
  exact ⟨lo, hi, hperm.trans hrotate, hlo, hhi⟩

theorem Between.isMedian [LE κ] (h : Between key a b c) : IsMedian key a b c b := by
  rcases h with ⟨hab, hbc⟩ | ⟨hcb, hba⟩
  · exact ⟨a, c, List.Perm.refl _, hab, hbc⟩
  · exact ⟨c, a, List.reverse_perm [a, b, c], hcb, hba⟩

/-- When neither of two entries lies between the others, the third does. -/
theorem between_of_not [LinearOrder κ] (hb : ¬ Between key a b c) (hc : ¬ Between key b c a) :
    Between key c a b := by
  rcases le_total (key a) (key b) with hab | hab <;>
    rcases le_total (key b) (key c) with hbc | hbc
  · exact absurd (Or.inl ⟨hab, hbc⟩) hb
  · rcases le_total (key c) (key a) with hca | hca
    · exact Or.inl ⟨hca, hab⟩
    · exact absurd (Or.inr ⟨hca, hbc⟩) hc
  · rcases le_total (key c) (key a) with hca | hca
    · exact absurd (Or.inl ⟨hbc, hca⟩) hc
    · exact Or.inr ⟨hab, hca⟩
  · exact absurd (Or.inr ⟨hbc, hab⟩) hb

/-- Medians of three entries with the same keys have the same key. -/
theorem IsMedian.key_eq [LinearOrder κ] {key' : α → κ} {a' b' c' m' : α}
    (h : IsMedian key a b c m) (h' : IsMedian key' a' b' c' m') (ha : key a = key' a')
    (hb : key b = key' b') (hc : key c = key' c') : key m = key' m' := by
  obtain ⟨lo, hi, hperm, hlo, hhi⟩ := h
  obtain ⟨lo', hi', hperm', hlo', hhi'⟩ := h'
  have hkeys : [key lo, key m, key hi].Perm [key' lo', key' m', key' hi'] := by
    have hleft := hperm.map key
    have hright := hperm'.map key'
    simp only [List.map_cons, List.map_nil] at hleft hright
    rw [ha, hb, hc] at hleft
    exact hleft.trans hright.symm
  have hsorted : [key lo, key m, key hi].Pairwise (· ≤ ·) := by
    simp [hlo, hhi, hlo.trans hhi]
  have hsorted' : [key' lo', key' m', key' hi'].Pairwise (· ≤ ·) := by
    simp [hlo', hhi', hlo'.trans hhi']
  have heq := hkeys.eq_of_pairwise' hsorted hsorted'
  exact (List.cons.inj (List.cons.inj heq).2).1

end Median

/-! ## Putting two cells in order -/

section CompareExchange

variable [LinearOrder κ] {key : α → κ}

/-- The array `w` with the cells `i` and `j` exchanged if they are out of order. -/
def compareExchange (key : α → κ) (i j : ℤ) (w : ℤ → α) : ℤ → α :=
  if key (w j) < key (w i) then w ∘ Equiv.swap i j else w

variable (key) (w : ℤ → α) {i j k : ℤ}

/-- Either the two cells are in order and stay, or they are not and are exchanged. -/
theorem compareExchange_cases (i j : ℤ) :
    (key (w i) ≤ key (w j) ∧ compareExchange key i j w i = w i ∧
      compareExchange key i j w j = w j) ∨
    (key (w j) < key (w i) ∧ compareExchange key i j w i = w j ∧
      compareExchange key i j w j = w i) := by
  rcases lt_or_ge (key (w j)) (key (w i)) with h | h
  · rw [compareExchange, if_pos h, comp_swap_left, comp_swap_right]
    exact Or.inr ⟨h, rfl, rfl⟩
  · rw [compareExchange, if_neg h.not_gt]
    exact Or.inl ⟨h, rfl, rfl⟩

theorem compareExchange_of_ne (hi : k ≠ i) (hj : k ≠ j) :
    compareExchange key i j w k = w k := by
  rw [compareExchange]
  split_ifs
  · exact comp_swap_of_ne hi hj
  · rfl

theorem compareExchange_le (i j : ℤ) :
    key (compareExchange key i j w i) ≤ key (compareExchange key i j w j) := by
  rcases compareExchange_cases key w i j with ⟨hle, hi, hj⟩ | ⟨hlt, hi, hj⟩
  · rwa [hi, hj]
  · rw [hi, hj]
    exact hlt.le

/-- The first cell does not go up. -/
theorem compareExchange_left_le (i j : ℤ) : key (compareExchange key i j w i) ≤ key (w i) := by
  rcases compareExchange_cases key w i j with ⟨_, hi, _⟩ | ⟨hlt, hi, _⟩
  · rw [hi]
  · rw [hi]
    exact hlt.le

/-- A bound of both cells from below stays one. -/
theorem le_compareExchange_left {bound : κ} (hi : bound ≤ key (w i)) (hj : bound ≤ key (w j)) :
    bound ≤ key (compareExchange key i j w i) := by
  rcases compareExchange_cases key w i j with ⟨_, heq, _⟩ | ⟨_, heq, _⟩
  · rwa [heq]
  · rwa [heq]

theorem compareExchange_perm (i j : ℤ) :
    [compareExchange key i j w i, compareExchange key i j w j].Perm [w i, w j] := by
  rcases compareExchange_cases key w i j with ⟨_, hi, hj⟩ | ⟨_, hi, hj⟩
  · rw [hi, hj]
  · rw [hi, hj]
    exact List.Perm.swap _ _ _

theorem compareExchange_rearranges {l r : ℤ} (hi : l ≤ i ∧ i < r) (hj : l ≤ j ∧ j < r) :
    Rearranges l r w (compareExchange key i j w) := by
  rw [compareExchange]
  split_ifs
  · exact Rearranges.swap hi hj
  · exact Rearranges.refl _ _ _

/-- The keys are exchanged along with the cells. -/
theorem comp_compareExchange (i j : ℤ) :
    key ∘ compareExchange key i j w = compareExchange id i j (key ∘ w) := by
  rw [compareExchange, compareExchange]
  exact apply_ite (key ∘ ·) _ _ _

/-! ## Putting three cells in order -/

/-- The array `w` with the cells `i`, `j` and `k` put in order. -/
def sortThree (key : α → κ) (i j k : ℤ) (w : ℤ → α) : ℤ → α :=
  compareExchange key j k (compareExchange key i k (compareExchange key i j w))

theorem comp_sortThree (i j k : ℤ) :
    key ∘ sortThree key i j k w = sortThree id i j k (key ∘ w) := by
  simp only [sortThree, comp_compareExchange]

/-- The last two cells are in order even when some of the three are one cell. -/
theorem sortThree_le (i j k : ℤ) : key (sortThree key i j k w j) ≤ key (sortThree key i j k w k) :=
  compareExchange_le _ _ _ _

theorem sortThree_rearranges {l r : ℤ} (hi : l ≤ i ∧ i < r) (hj : l ≤ j ∧ j < r)
    (hk : l ≤ k ∧ k < r) : Rearranges l r w (sortThree key i j k w) :=
  ((compareExchange_rearranges key w hi hj).trans (compareExchange_rearranges key _ hi hk)).trans
    (compareExchange_rearranges key _ hj hk)

/-- Putting three different cells in order leaves a median in the second one. -/
theorem isMedian_sortThree (hij : i ≠ j) (hik : i ≠ k) (hjk : j ≠ k) :
    IsMedian key (w i) (w j) (w k) (sortThree key i j k w j) := by
  have hw₁ := compareExchange_of_ne key w hik.symm hjk.symm
  have hperm₁ := compareExchange_perm key w i j
  have hle₁ := compareExchange_le key w i j
  rw [sortThree]
  generalize compareExchange key i j w = w₁ at *
  have hw₂ := compareExchange_of_ne key w₁ hij.symm hjk
  have hperm₂ := compareExchange_perm key w₁ i k
  have hle₂ := compareExchange_le key w₁ i k
  have hdown := compareExchange_left_le key w₁ i k
  generalize compareExchange key i k w₁ = w₂ at *
  have hperm₃ := compareExchange_perm key w₂ j k
  refine ⟨w₂ i, compareExchange key j k w₂ k, ?_, ?_, compareExchange_le key w₂ j k⟩
  · have hpair : [w₁ j, w₂ i, w₂ k].Perm [w₁ j, w₁ i, w₁ k] := hperm₂.cons _
    have hlast : [w₁ i, w₁ j, w₁ k].Perm [w i, w j, w k] := by
      rw [hw₁]
      exact hperm₁.append_right [w k]
    refine (hperm₃.cons (w₂ i)).trans ?_
    rw [hw₂]
    exact (List.Perm.swap _ _ _).trans (hpair.trans ((List.Perm.swap _ _ _).trans hlast))
  · -- after two exchanges the first cell is the least of the three
    refine le_compareExchange_left key w₂ ?_ hle₂
    rw [hw₂]
    exact hdown.trans hle₁

end CompareExchange

end EfficientDictionary
