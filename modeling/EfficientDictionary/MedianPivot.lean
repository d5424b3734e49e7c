import EfficientDictionary.LastPivot
import EfficientDictionary.Median

/-!
# The median of three as a pivot

A partition puts the first, the middle and the last of its elements in order, parks the middle
one of them next to the last, and scans those before it. The facts here are about the keys
alone.

* `parkMedian` — the keys before the scan; `keptBehind` — what comes to stand behind the pivot.
* `behindMedian` — the same for a list of keys; `keptBehind_parkMedian` says so for the keys of
  any range.
* `EndsInTop` — going on with what is behind the pivot until there are few keys, these are
  `LastTop`.
-/

namespace EfficientDictionary

universe u

variable {κ : Type u} [LinearOrder κ]

/-- The keys with the first, the middle and the last of a range in order, and the middle one
exchanged with the last but one. -/
def parkMedian (left mid right : ℤ) (w : ℤ → κ) : ℤ → κ :=
  sortThree id left mid right w ∘ Equiv.swap mid (right - 1)

/-- What comes to stand behind the last but one when it is the pivot of the keys before it; the
last one is left out of the scan. -/
def keptBehind (left right : ℤ) (w : ℤ → κ) : List κ :=
  (keepAll (w (right - 1)) (slice w left (right - 1))).rotate 1 ++ [w right]

/-- What comes to stand behind the median. -/
def behindMedian [Inhabited κ] (keys : List κ) : List κ :=
  let last : ℤ := keys.length - 1
  keptBehind 0 last (parkMedian 0 (last / 2) last fun i => keys.getD i.toNat default)

/-- What is behind the median, and behind the median of that, and so on until no more than
`threshold` keys are left, ends in a key greater than all others as `LastTop` says. -/
inductive EndsInTop [Inhabited κ] (threshold : ℤ) : List κ → Prop where
  /-- few keys are left -/
  | few {keys : List κ} (hfew : keys.length - 1 < threshold) (h : LastTop keys) :
      EndsInTop threshold keys
  /-- there are more -/
  | more {keys : List κ} (htwo : 2 ≤ keys.length) (hmore : threshold ≤ keys.length - 1)
      (h : EndsInTop threshold (behindMedian keys)) : EndsInTop threshold keys

/-! ## Shifting a range -/

section Shift

variable {w w' : ℤ → κ} {left right d i j mid : ℤ}

/-- The keys of `w` on a range are those of `w'` on the range `d` higher up. -/
def Shifted (left right d : ℤ) (w w' : ℤ → κ) : Prop :=
  ∀ i, left ≤ i → i ≤ right → w i = w' (i + d)

omit [LinearOrder κ] in
theorem Shifted.slice (h : Shifted left right d w w') {l r : ℤ} (hl : left ≤ l)
    (hr : r ≤ right + 1) :
    EfficientDictionary.slice w l r = EfficientDictionary.slice w' (l + d) (r + d) := by
  have hlen : (r + d - (l + d)).toNat = (r - l).toNat := by omega
  rw [EfficientDictionary.slice, EfficientDictionary.slice, hlen]
  refine List.map_congr_left fun k hk => ?_
  have hlt := List.mem_range.mp hk
  rw [h (l + k) (by omega) (by omega)]
  congr 1
  omega

omit [LinearOrder κ] in
theorem Shifted.swap (h : Shifted left right d w w') (hi : left ≤ i ∧ i ≤ right)
    (hj : left ≤ j ∧ j ≤ right) :
    Shifted left right d (w ∘ Equiv.swap i j) (w' ∘ Equiv.swap (i + d) (j + d)) := by
  intro k hlo hhi
  simp only [Function.comp_apply, Equiv.swap_apply_def, add_left_inj]
  split_ifs with hki hkj
  · exact h j hj.1 hj.2
  · exact h i hi.1 hi.2
  · exact h k hlo hhi

theorem Shifted.compareExchange (h : Shifted left right d w w') (hi : left ≤ i ∧ i ≤ right)
    (hj : left ≤ j ∧ j ≤ right) :
    Shifted left right d (compareExchange id i j w) (compareExchange id (i + d) (j + d) w') := by
  rw [EfficientDictionary.compareExchange, EfficientDictionary.compareExchange, h i hi.1 hi.2,
    h j hj.1 hj.2]
  split_ifs
  · exact h.swap hi hj
  · exact h

theorem Shifted.parkMedian (h : Shifted left right d w w') (hlt : left < right)
    (hmid : left ≤ mid ∧ mid ≤ right) :
    Shifted left right d (parkMedian left mid right w)
      (parkMedian (left + d) (mid + d) (right + d) w') := by
  have hleft : left ≤ left ∧ left ≤ right := ⟨le_refl left, hlt.le⟩
  have hright : left ≤ right ∧ right ≤ right := ⟨hlt.le, le_refl right⟩
  have hprev : left ≤ right - 1 ∧ right - 1 ≤ right := ⟨by omega, by omega⟩
  have hthree := ((h.compareExchange hleft hmid).compareExchange hleft hright).compareExchange
    hmid hright
  have hpark := hthree.swap hmid hprev
  rwa [sub_add_eq_add_sub] at hpark

theorem Shifted.keptBehind (h : Shifted left right d w w') (hlt : left < right) :
    keptBehind left right w = keptBehind (left + d) (right + d) w' := by
  have hscan := h.slice (le_refl left) (by omega : right - 1 ≤ right + 1)
  rw [EfficientDictionary.keptBehind, EfficientDictionary.keptBehind, hscan,
    h right hlt.le (le_refl right), h (right - 1) (by omega) (by omega), sub_add_eq_add_sub]

end Shift

/-- On any range, the list of the keys says what comes to stand behind the median. -/
theorem keptBehind_parkMedian [Inhabited κ] (w : ℤ → κ) {left right : ℤ} (h : left < right) :
    keptBehind left right (parkMedian left (left + (right - left) / 2) right w) =
      behindMedian (slice w left (right + 1)) := by
  have hlast : ((slice w left (right + 1)).length : ℤ) - 1 = right - left := by
    rw [length_slice]
    omega
  have hshift : Shifted 0 (right - left) left
      (fun i => (slice w left (right + 1)).getD i.toNat default) w := by
    intro i hlo hhi
    have hcast : left + (i.toNat : ℤ) = i + left := by omega
    dsimp only
    rw [List.getD_eq_getElem?_getD, getElem?_slice (by omega), Option.getD_some, hcast]
  have hpark := hshift.parkMedian (by omega) (by omega : 0 ≤ (right - left) / 2 ∧
    (right - left) / 2 ≤ right - left)
  rw [behindMedian, hlast, hpark.keptBehind (by omega), zero_add, Int.sub_add_cancel, add_comm]

/-! ## Deciding round by round -/

section EndsInTop

variable [Inhabited κ] {threshold : ℤ} {keys : List κ}

/-- Few keys are a matter of `LastTop`, however these are compared. -/
theorem endsInTop_of_few {dec : DecidableLT κ} (h : keys.length - 1 < threshold) :
    EndsInTop threshold keys ↔ @LastTop κ _ dec keys := by
  obtain rfl : dec = LinearOrder.toDecidableLT := Subsingleton.elim _ _
  refine ⟨fun htop => ?_, .few h⟩
  cases htop with
  | few _ htop => exact htop
  | more _ hmore _ => exact absurd h (not_lt.mpr hmore)

theorem endsInTop_of_more (htwo : 2 ≤ keys.length) (h : threshold ≤ keys.length - 1) :
    EndsInTop threshold keys ↔ EndsInTop threshold (behindMedian keys) := by
  refine ⟨fun htop => ?_, .more htwo h⟩
  cases htop with
  | few hfew _ => exact absurd hfew (not_lt.mpr h)
  | more _ _ hrest => exact hrest

theorem not_endsInTop_of_length_le (h : keys.length ≤ 1) : ¬ EndsInTop threshold keys := by
  intro htop
  cases htop with
  | few _ htop => exact not_lastTop_of_length_le h htop
  | more htwo _ _ => omega

end EndsInTop

end EfficientDictionary
