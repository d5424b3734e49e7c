import EfficientDictionary.Segment

/-!
# Rearrangements that keep equal keys in order

General facts about an array `w : ℤ → α` and a rearrangement `w'` of it, where it is known of
every entry from where it came, so that entries are told apart even when they are equal.

* `MovedBy key l r σ w w'` — the entry at `i` comes from `σ i`, and entries with equal keys are
  in the order they were in.
* `Stable key l r w w'` — moved by some `σ`. It composes, as `Rearranges` does, and exchanging
  two neighbours that are out of order is stable.
* `StablySorts key l r w w'` — stable and in order; `StablySorts.unique` says that there is
  only one such `w'`.
-/

namespace EfficientDictionary

universe u v

variable {α : Type u} {κ : Type v} {key : α → κ} {l r : ℤ} {σ τ : Equiv.Perm ℤ}
  {w w' w'' : ℤ → α}

/-- The entry of `w'` at `i` is the one of `w` at `σ i`, and ties keep their order. -/
structure MovedBy (key : α → κ) (l r : ℤ) (σ : Equiv.Perm ℤ) (w w' : ℤ → α) : Prop where
  /-- where the entries come from -/
  source : ∀ i, w' i = w (σ i)
  /-- those outside the range stay -/
  frame : ∀ i, i < l ∨ r ≤ i → σ i = i
  /-- those with equal keys keep their order -/
  ties : ∀ i j, i < j → key (w' i) = key (w' j) → σ i < σ j

/-- Some `σ` tells where the entries of `w'` come from. -/
def Stable (key : α → κ) (l r : ℤ) (w w' : ℤ → α) : Prop := ∃ σ, MovedBy key l r σ w w'

theorem MovedBy.rearranges (h : MovedBy key l r σ w w') : Rearranges l r w w' := by
  obtain rfl : w' = w ∘ σ := funext h.source
  exact ⟨slice_comp_perm h.frame, fun i hi => congrArg w (h.frame i hi)⟩

/-- First by `σ`, then by `τ`. -/
theorem MovedBy.trans (h : MovedBy key l r σ w w') (h' : MovedBy key l r τ w' w'') :
    MovedBy key l r (τ.trans σ) w w'' := by
  refine ⟨fun i => (h'.source i).trans (h.source (τ i)), fun i hi => ?_, fun i j hij heq => ?_⟩
  · rw [Equiv.trans_apply, h'.frame i hi, h.frame i hi]
  · have hlt := h'.ties i j hij heq
    rw [h'.source, h'.source] at heq
    exact h.ties (τ i) (τ j) hlt heq

namespace Stable

theorem rearranges (h : Stable key l r w w') : Rearranges l r w w' := by
  obtain ⟨σ, hσ⟩ := h
  exact hσ.rearranges

theorem refl (key : α → κ) (l r : ℤ) (w : ℤ → α) : Stable key l r w w :=
  ⟨Equiv.refl ℤ, fun _ => rfl, fun _ _ => rfl, fun _ _ hij _ => hij⟩

theorem trans (h : Stable key l r w w') (h' : Stable key l r w' w'') : Stable key l r w w'' := by
  obtain ⟨σ, hσ⟩ := h
  obtain ⟨τ, hτ⟩ := h'
  exact ⟨τ.trans σ, hσ.trans hτ⟩

/-- What is stable on a range is stable on any larger range. -/
theorem mono {l' r' : ℤ} (h : Stable key l r w w') (hl : l' ≤ l) (hr : r ≤ r') :
    Stable key l' r' w w' := by
  obtain ⟨σ, hσ⟩ := h
  exact ⟨σ, hσ.source, fun i hi => hσ.frame i (by omega), hσ.ties⟩

/-- Exchanging two neighbours that are out of order changes the order of no tie. -/
theorem swap_adjacent [Preorder κ] {j : ℤ} (hl : l ≤ j) (hr : j + 1 < r)
    (hlt : key (w (j + 1)) < key (w j)) : Stable key l r w (w ∘ Equiv.swap j (j + 1)) := by
  refine ⟨Equiv.swap j (j + 1), fun _ => rfl, fun i hi => ?_, fun i k hik heq => ?_⟩
  · exact Equiv.swap_apply_of_ne_of_ne (by omega) (by omega)
  · by_cases hpair : i = j ∧ k = j + 1
    · -- only this pair changes its order, and it is no tie
      obtain ⟨rfl, rfl⟩ := hpair
      rw [comp_swap_left, comp_swap_right] at heq
      exact absurd heq hlt.ne
    · rw [Equiv.swap_apply_def, Equiv.swap_apply_def]
      split_ifs <;> omega

end Stable

/-- `w'` is `w` with the range sorted, ties in the order they were in. -/
structure StablySorts [LE κ] (key : α → κ) (l r : ℤ) (w w' : ℤ → α) : Prop where
  /-- ties keep their order and nothing else changed -/
  stable : Stable key l r w w'
  /-- the range is in order -/
  sorted : SortedOn key w' l r

namespace StablySorts

theorem sorts [LE κ] (h : StablySorts key l r w w') : Sorts key l r w w' :=
  ⟨h.stable.rearranges, h.sorted⟩

variable [LinearOrder κ]

/-- A range of at most one entry is sorted as it is. -/
theorem of_le (key : α → κ) (w : ℤ → α) (h : r ≤ l + 1) : StablySorts key l r w w :=
  ⟨Stable.refl key l r w, (Sorts.of_le h).sorted⟩

/-- The places the entries come from increase by key and, for equal keys, by place. -/
theorem pairwise_source (hσ : MovedBy key l r σ w w') (hsorted : SortedOn key w' l r) :
    (slice σ l r).Pairwise fun a b =>
      key (w a) < key (w b) ∨ (key (w a) = key (w b) ∧ a < b) := by
  refine pairwise_slice.mpr fun i j hi hij hj => ?_
  rw [← hσ.source, ← hσ.source]
  rcases eq_or_lt_of_le (hsorted i j hi hij.le hj) with heq | hlt
  · exact Or.inr ⟨heq, hσ.ties i j hij heq⟩
  · exact Or.inl hlt

/-- **There is only one way to sort stably.** -/
theorem unique (h : StablySorts key l r w w') (h' : StablySorts key l r w w'') : w' = w'' := by
  obtain ⟨⟨σ, hσ⟩, hsorted⟩ := h
  obtain ⟨⟨τ, hτ⟩, hsorted'⟩ := h'
  have hperm : (slice σ l r).Perm (slice τ l r) :=
    (slice_comp_perm hσ.frame : (slice (id ∘ σ) l r).Perm (slice id l r)).trans
      (slice_comp_perm hτ.frame : (slice (id ∘ τ) l r).Perm (slice id l r)).symm
  have hslice : slice σ l r = slice τ l r := by
    refine List.Perm.eq_of_pairwise (fun a b _ _ hab hba => ?_) (pairwise_source hσ hsorted)
      (pairwise_source hτ hsorted') hperm
    -- the order of the places is strict, so it does not hold both ways
    rcases hab with hlt | ⟨heq, hab⟩ <;> rcases hba with hlt' | ⟨heq', hba⟩
    · exact absurd hlt hlt'.asymm
    · exact absurd heq' hlt.ne'
    · exact absurd heq hlt'.ne'
    · exact absurd hab hba.asymm
  funext i
  by_cases hi : l ≤ i ∧ i < r
  · rw [hσ.source, hτ.source, eq_of_slice_eq hslice hi.1 hi.2]
  · rw [hσ.source, hτ.source, hσ.frame i (by omega), hτ.frame i (by omega)]

end StablySorts

end EfficientDictionary
