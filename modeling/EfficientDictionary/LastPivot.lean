import Mathlib.Data.List.Rotate

/-!
# The last element as a pivot

A partition scans a range for the elements smaller than its last one. Each of them is exchanged
with the first element that has been kept back so far, so what is kept back is rotated. The
facts here are about the lists of keys alone.

* `keepAll` — what is kept back, in the order in which it ends up.
* `LastTop` — going on with what is kept back, one comes to a last element greater than all
  others.
* `Lopsided` — the pivot never has elements on both sides: the rounds are as many as there
  are elements.
-/

namespace EfficientDictionary

universe u

variable {κ : Type u} [LT κ] [DecidableLT κ]

/-- One turn: a smaller element takes the place of the first one kept back, which moves to the
end. -/
def keepStep (pivot : κ) (kept : List κ) (a : κ) : List κ :=
  if a < pivot then kept.rotate 1 else kept ++ [a]

/-- What a scan keeps back. -/
def keepAll (pivot : κ) (keys : List κ) : List κ := keys.foldl (keepStep pivot) []

/-- The last element is greater than all others, of which there is one at least; or this holds
of what is kept back when it is the pivot. -/
inductive LastTop : List κ → Prop where
  /-- it is greater -/
  | top {keys : List κ} {pivot : κ} (hne : keys ≠ []) (hlt : ∀ a ∈ keys, a < pivot) :
      LastTop (keys ++ [pivot])
  /-- it is kept back, the pivot having taken the place of the first -/
  | next {keys : List κ} {pivot : κ} (h : LastTop ((keepAll pivot keys).rotate 1)) :
      LastTop (keys ++ [pivot])

variable {pivot : κ} {keys : List κ}

theorem keepStep_of_lt {a : κ} (h : a < pivot) (kept : List κ) :
    keepStep pivot kept a = kept.rotate 1 := if_pos h

theorem keepStep_of_not_lt {a : κ} (h : ¬ a < pivot) (kept : List κ) :
    keepStep pivot kept a = kept ++ [a] := if_neg h

theorem keepAll_append_singleton (pivot : κ) (keys : List κ) (a : κ) :
    keepAll pivot (keys ++ [a]) = keepStep pivot (keepAll pivot keys) a := by
  rw [keepAll, List.foldl_append]
  rfl

/-- Nothing is kept back when every element is smaller than the pivot. -/
theorem keepAll_eq_nil_iff : keepAll pivot keys = [] ↔ ∀ a ∈ keys, a < pivot := by
  induction keys using List.reverseRecOn with
  | nil => exact iff_of_true rfl fun a ha => absurd ha List.not_mem_nil
  | append_singleton keys b ih =>
    rw [keepAll_append_singleton, List.forall_mem_append, ← ih, List.forall_mem_singleton]
    by_cases hlt : b < pivot
    · rw [keepStep_of_lt hlt, List.rotate_eq_nil_iff]
      exact ⟨fun h => ⟨h, hlt⟩, fun h => h.1⟩
    · rw [keepStep_of_not_lt hlt]
      exact iff_of_false (List.append_ne_nil_of_right_ne_nil _ (List.cons_ne_nil b []))
        fun h => hlt h.2

/-- What one round decides. -/
theorem lastTop_append_singleton :
    LastTop (keys ++ [pivot]) ↔
      (keys ≠ [] ∧ keepAll pivot keys = []) ∨ LastTop ((keepAll pivot keys).rotate 1) := by
  rw [keepAll_eq_nil_iff]
  refine ⟨fun h => ?_, fun h => ?_⟩
  · generalize heq : keys ++ [pivot] = all at h
    cases h with
    | top hne hlt =>
      obtain ⟨rfl, hlast⟩ := List.append_inj' heq rfl
      obtain rfl := List.singleton_inj.mp hlast
      exact Or.inl ⟨hne, hlt⟩
    | next hnext =>
      obtain ⟨rfl, hlast⟩ := List.append_inj' heq rfl
      obtain rfl := List.singleton_inj.mp hlast
      exact Or.inr hnext
  · rcases h with ⟨hne, hlt⟩ | hnext
    · exact .top hne hlt
    · exact .next hnext

theorem not_lastTop_nil : ¬ LastTop ([] : List κ) := by
  intro h
  generalize heq : ([] : List κ) = all at h
  cases h with
  | top _ _ => exact List.append_ne_nil_of_right_ne_nil _ (List.cons_ne_nil _ _) heq.symm
  | next _ => exact List.append_ne_nil_of_right_ne_nil _ (List.cons_ne_nil _ _) heq.symm

/-- A single element has no others to be greater than. -/
theorem not_lastTop_of_length_le (h : keys.length ≤ 1) : ¬ LastTop keys := by
  intro htop
  rcases List.eq_nil_or_concat' keys with rfl | ⟨init, pivot, rfl⟩
  · exact not_lastTop_nil htop
  · rw [List.length_append, List.length_singleton] at h
    obtain rfl := List.length_eq_zero_iff.mp (by omega : init.length = 0)
    rcases lastTop_append_singleton.mp htop with ⟨hne, -⟩ | hnext
    · exact hne rfl
    · exact not_lastTop_nil hnext

/-! ## Pivots with nothing on one side -/

/-- All elements are smaller than the pivot, or none is, and the same goes for the elements that
are left. -/
inductive Lopsided : List κ → Prop where
  /-- there is nothing to split -/
  | nil : Lopsided []
  /-- the elements before the pivot stay as they are -/
  | low {keys : List κ} {pivot : κ} (hlt : ∀ a ∈ keys, a < pivot) (h : Lopsided keys) :
      Lopsided (keys ++ [pivot])
  /-- the pivot takes the place of the first, which becomes the last -/
  | high {keys : List κ} {pivot : κ} (hge : ∀ a ∈ keys, ¬ a < pivot)
      (h : Lopsided (keys.rotate 1)) : Lopsided (keys ++ [pivot])

theorem length_keepAll_le (pivot : κ) (keys : List κ) :
    (keepAll pivot keys).length ≤ keys.length := by
  induction keys using List.reverseRecOn with
  | nil => exact le_refl 0
  | append_singleton keys b ih =>
    rw [keepAll_append_singleton, keepStep, List.length_append, List.length_singleton]
    split_ifs
    · exact (List.length_rotate _ _).le.trans (ih.trans (Nat.le_succ _))
    · rw [List.length_append, List.length_singleton]
      exact Nat.add_le_add_right ih 1

/-- Everything is kept back, and stays where it is, when nothing is smaller than the pivot. -/
theorem length_keepAll_eq_iff :
    (keepAll pivot keys).length = keys.length ↔ ∀ a ∈ keys, ¬ a < pivot := by
  induction keys using List.reverseRecOn with
  | nil => exact iff_of_true rfl fun a ha => absurd ha List.not_mem_nil
  | append_singleton keys b ih =>
    have hle := length_keepAll_le pivot keys
    rw [keepAll_append_singleton, List.forall_mem_append, ← ih, List.forall_mem_singleton,
      List.length_append, List.length_singleton]
    by_cases hlt : b < pivot
    · rw [keepStep_of_lt hlt, List.length_rotate]
      exact iff_of_false (by omega) fun h => h.2 hlt
    · rw [keepStep_of_not_lt hlt, List.length_append, List.length_singleton,
        Nat.add_right_cancel_iff]
      exact ⟨fun h => ⟨h, hlt⟩, fun h => h.1⟩

theorem keepAll_of_forall_not_lt (h : ∀ a ∈ keys, ¬ a < pivot) : keepAll pivot keys = keys := by
  induction keys using List.reverseRecOn with
  | nil => rfl
  | append_singleton keys b ih =>
    obtain ⟨hkeys, hb⟩ := List.forall_mem_append.mp h
    rw [keepAll_append_singleton, ih hkeys, keepStep_of_not_lt (hb b List.mem_cons_self)]

section Lopsided

omit [DecidableLT κ]

theorem lopsided_append_singleton :
    Lopsided (keys ++ [pivot]) ↔
      ((∀ a ∈ keys, a < pivot) ∧ Lopsided keys) ∨
        ((∀ a ∈ keys, ¬ a < pivot) ∧ Lopsided (keys.rotate 1)) := by
  refine ⟨fun h => ?_, fun h => ?_⟩
  · generalize heq : keys ++ [pivot] = all at h
    cases h with
    | nil => exact absurd heq (List.append_ne_nil_of_right_ne_nil _ (List.cons_ne_nil _ _))
    | low hlt hrest =>
      obtain ⟨rfl, hlast⟩ := List.append_inj' heq rfl
      obtain rfl := List.singleton_inj.mp hlast
      exact Or.inl ⟨hlt, hrest⟩
    | high hge hrest =>
      obtain ⟨rfl, hlast⟩ := List.append_inj' heq rfl
      obtain rfl := List.singleton_inj.mp hlast
      exact Or.inr ⟨hge, hrest⟩
  · rcases h with ⟨hlt, hrest⟩ | ⟨hge, hrest⟩
    · exact .low hlt hrest
    · exact .high hge hrest

theorem Lopsided.of_length_le (h : keys.length ≤ 1) : Lopsided keys := by
  rcases List.eq_nil_or_concat' keys with rfl | ⟨init, pivot, rfl⟩
  · exact .nil
  · rw [List.length_append, List.length_singleton] at h
    obtain rfl := List.length_eq_zero_iff.mp (by omega : init.length = 0)
    exact .low (fun a ha => absurd ha List.not_mem_nil) .nil

/-- Increasing elements are lopsided: the last one is the greatest. -/
theorem Lopsided.of_increasing (h : keys.Pairwise (· < ·)) : Lopsided keys := by
  induction keys using List.reverseRecOn with
  | nil => exact .nil
  | append_singleton keys pivot ih =>
    obtain ⟨hkeys, _, hlt⟩ := List.pairwise_append.mp h
    exact .low (fun a ha => hlt a ha pivot List.mem_cons_self) (ih hkeys)

/-- So are copies of one element: none of them is smaller than the others. -/
theorem Lopsided.replicate {a : κ} (h : ¬ a < a) (n : ℕ) : Lopsided (List.replicate n a) := by
  induction n with
  | zero => exact .nil
  | succ n ih =>
    rw [List.replicate_succ']
    refine .high (fun b hb => ?_) ?_
    · rwa [List.eq_of_mem_replicate hb]
    · rwa [List.rotate_replicate]

end Lopsided

end EfficientDictionary
