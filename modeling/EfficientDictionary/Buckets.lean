import EfficientDictionary.Segment
import Mathlib.Data.Finset.Card

/-!
# Placing the cells of a range by class

General facts about a stable distribution: the cells of `[l, r)` fall into classes, each
class gets a stretch of a target array, and each cell goes to the first free place of its
class.

* `before f w l i c` — how many cells of `[l, i)` are of class `c`.
* `place f w l base i` — where the cell at `i` goes.
* `Layout f w l r base` — the stretches do not overlap and fill `[0, r - l)`.
* `slice_of_placed` — a target in which every cell is in its place holds, on the stretch
  of each class, the cells of that class in their original order. How the target was
  filled, and in which order, does not matter.
* `Layout.places_perm` — the places are used once each.
-/

namespace EfficientDictionary

universe u v

variable {α : Type u} {κ : Type v} [DecidableEq κ] {f : α → κ} {w : ℤ → α} {l m r i j : ℤ}

/-! ## Counting -/

/-- How many cells of `[l, i)` are of class `c`. -/
def before (f : α → κ) (w : ℤ → α) (l i : ℤ) (c : κ) : ℤ :=
  (slice w l i).countP fun a => f a = c

theorem before_self (f : α → κ) (w : ℤ → α) (l : ℤ) (c : κ) : before f w l l c = 0 := by
  rw [before, slice_of_le (le_refl l)]
  rfl

theorem before_nonneg (f : α → κ) (w : ℤ → α) (l i : ℤ) (c : κ) : 0 ≤ before f w l i c :=
  Int.natCast_nonneg _

theorem before_add (f : α → κ) (w : ℤ → α) (hlm : l ≤ m) (hmr : m ≤ r) (c : κ) :
    before f w l r c = before f w l m c + before f w m r c := by
  rw [before, ← slice_append w hlm hmr, List.countP_append, Nat.cast_add]
  rfl

theorem before_succ (f : α → κ) (w : ℤ → α) (h : l ≤ i) (c : κ) :
    before f w l (i + 1) c = before f w l i c + if f (w i) = c then 1 else 0 := by
  rw [before, slice_succ_right h, List.countP_append, Nat.cast_add, before]
  by_cases hc : f (w i) = c
  · simp [hc]
  · simp [hc]

/-- Counting the cell at `i` as well. -/
theorem update_before (f : α → κ) (w : ℤ → α) (h : l ≤ i) :
    Function.update (before f w l i) (f (w i)) (before f w l i (f (w i)) + 1) =
      before f w l (i + 1) := by
  funext c
  rw [before_succ f w h, Function.update_apply]
  split_ifs with hc hc' hc'
  · rw [hc]
  · exact absurd hc.symm hc'
  · exact absurd hc'.symm hc
  · rw [add_zero]

/-- Before a later cell there is one cell more of the class of an earlier one. -/
theorem before_lt (f : α → κ) (w : ℤ → α) (hli : l ≤ i) (hij : i < j) :
    before f w l i (f (w i)) + 1 ≤ before f w l j (f (w i)) := by
  have hnonneg := before_nonneg f w (i + 1) j (f (w i))
  rw [before_add f w (hli.trans (by omega)) (by omega : i + 1 ≤ j), before_succ f w hli,
    if_pos rfl]
  omega

theorem length_filter_slice (f : α → κ) (w : ℤ → α) (l r : ℤ) (c : κ) :
    (((slice w l r).filter fun a => f a = c).length : ℤ) = before f w l r c := by
  rw [before, List.countP_eq_length_filter]

/-! ## Placing -/

/-- Where the cell at `i` goes, when the stretch of class `c` starts at `base c`. -/
def place (f : α → κ) (w : ℤ → α) (l : ℤ) (base : κ → ℤ) (i : ℤ) : ℤ :=
  base (f (w i)) + before f w l i (f (w i))

/-- In a target where every cell is in its place, each stretch holds its class in the
original order. -/
theorem slice_of_placed {base : κ → ℤ} {target : ℤ → α} (hlr : l ≤ r)
    (h : ∀ i, l ≤ i → i < r → target (place f w l base i) = w i) (c : κ) :
    slice target (base c) (base c + before f w l r c) =
      (slice w l r).filter fun a => f a = c := by
  induction r, hlr using Int.leInduction with
  | base => rw [before_self, add_zero, slice_of_le (le_refl _), slice_of_le (le_refl _)]; rfl
  | succ r hlr ih =>
    have hrest := ih fun i hi hir => h i hi (by omega)
    have hlast := h r hlr (by omega)
    have hnonneg := before_nonneg f w l r c
    rw [before_succ f w hlr, slice_succ_right hlr, List.filter_append, ← hrest]
    by_cases hc : f (w r) = c
    · rw [if_pos hc, ← add_assoc, slice_succ_right (by omega)]
      rw [place, hc] at hlast
      simp [hlast, hc]
    · simp [hc]

/-- The stretches of the classes lie apart and inside `[0, r - l)`. -/
structure Layout (f : α → κ) (w : ℤ → α) (l r : ℤ) (base : κ → ℤ) : Prop where
  /-- no stretch starts below `0` -/
  nonneg : ∀ c, 0 ≤ base c
  /-- none ends after `r - l` -/
  fits : ∀ c, base c + before f w l r c ≤ r - l
  /-- of two stretches one ends before the other starts -/
  apart : ∀ c c', c ≠ c' →
    base c + before f w l r c ≤ base c' ∨ base c' + before f w l r c' ≤ base c

namespace Layout

variable {base : κ → ℤ}

theorem place_bounds (h : Layout f w l r base) (hi : l ≤ i) (hir : i < r) :
    0 ≤ place f w l base i ∧ place f w l base i < r - l := by
  have hnonneg := before_nonneg f w l i (f (w i))
  have hlt := before_lt f w hi hir
  have hbase := h.nonneg (f (w i))
  have hfits := h.fits (f (w i))
  rw [place]
  omega

/-- Two cells never go to one place. -/
theorem place_ne (h : Layout f w l r base) (hi : l ≤ i) (hij : i < j) (hjr : j < r) :
    place f w l base i ≠ place f w l base j := by
  have hnonneg := before_nonneg f w l i (f (w i))
  have hnonneg' := before_nonneg f w l j (f (w j))
  have hlt := before_lt f w (hi.trans hij.le) hjr
  rw [place, place]
  by_cases hc : f (w i) = f (w j)
  · have hstep := before_lt f w hi hij
    rw [← hc]
    omega
  · have hlt' := before_lt f w hi (hij.trans hjr)
    rcases h.apart _ _ hc with hapart | hapart
    · omega
    · omega

theorem place_injOn (h : Layout f w l r base) (hi : l ≤ i ∧ i < r) (hj : l ≤ j ∧ j < r)
    (heq : place f w l base i = place f w l base j) : i = j := by
  rcases lt_trichotomy i j with hlt | hij | hlt
  · exact absurd heq (h.place_ne hi.1 hlt hj.2)
  · exact hij
  · exact absurd heq.symm (h.place_ne hj.1 hlt hi.2)

/-- **Every place is used once**: listed along the range, the places are a permutation of
`0, …, r - l - 1`. -/
theorem places_perm (h : Layout f w l r base) :
    (slice (place f w l base) l r).Perm (slice id 0 (r - l)) := by
  rw [← Multiset.coe_eq_coe, coe_slice, coe_slice]
  have himage : (Finset.Ico l r).image (place f w l base) = Finset.Ico 0 (r - l) := by
    apply Finset.eq_of_subset_of_card_le
    · intro k hk
      obtain ⟨i, hi, rfl⟩ := Finset.mem_image.mp hk
      rw [Finset.mem_Ico] at hi
      exact Finset.mem_Ico.mpr (h.place_bounds hi.1 hi.2)
    · rw [Finset.card_image_of_injOn]
      · simp
      · intro i hi j hj heq
        exact h.place_injOn (Finset.mem_Ico.mp hi) (Finset.mem_Ico.mp hj) heq
  rw [← himage, Multiset.map_id, Finset.image_val_of_injOn]
  intro i hi j hj heq
  exact h.place_injOn (Finset.mem_Ico.mp hi) (Finset.mem_Ico.mp hj) heq

end Layout

/-! ## Filling the target -/

/-- The cells listed in `done` are in their places. -/
def Placed (f : α → κ) (w : ℤ → α) (l : ℤ) (base : κ → ℤ) (done : ℤ → Prop)
    (target : ℤ → α) : Prop :=
  ∀ i, done i → target (place f w l base i) = w i

theorem Placed.mono {base : κ → ℤ} {done done' : ℤ → Prop} {target : ℤ → α}
    (h : Placed f w l base done target) (hsub : ∀ i, done' i → done i) :
    Placed f w l base done' target :=
  fun i hi => h i (hsub i hi)

/-- Putting one more cell in its place disturbs none that was put before. -/
theorem Placed.put {base : κ → ℤ} {done : ℤ → Prop} {target : ℤ → α}
    (h : Placed f w l base done target) (hlay : Layout f w l r base)
    (hdone : ∀ i, done i → l ≤ i ∧ i < r) (hj : l ≤ j ∧ j < r) :
    Placed f w l base (fun i => done i ∨ i = j)
      (Function.update target (place f w l base j) (w j)) := by
  rintro i (hi | rfl)
  · rw [Function.update_apply]
    split_ifs with heq
    · rw [hlay.place_injOn (hdone i hi) hj heq]
    · exact h i hi
  · exact Function.update_self _ _ _

end EfficientDictionary
