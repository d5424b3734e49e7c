import Mathlib.Data.Int.ConditionallyCompleteOrder
import Mathlib.Data.Int.Interval
import Mathlib.Data.List.Perm.Basic
import Mathlib.Data.List.Rotate
import Mathlib.Data.Multiset.Basic
import Mathlib.Data.Finset.Image
import Mathlib.Logic.Equiv.Basic
import Mathlib.Order.ConditionallyCompleteLattice.Basic

/-!
# Segments of an array: contents, rearrangements, order

General facts about an array `w : ℤ → α` on a half-open range `[l, r)`.

* `slice w l r` — the content of the range as a list.
* `Rearranges l r w w'` — `w'` holds on `[l, r)` a permutation of what `w` holds there
  and agrees with `w` everywhere else. This is permutation and frame in one, and it
  composes: it is reflexive, transitive, and grows with the range.
* `SplitAt key w l m r k` — keys below `k` on `[l, m)`, keys at least `k` on `[m, r)`:
  the invariant of a one-directional partition loop, with one lemma per branch.
* `SortedOn key w l r` — the keys of the range do not decrease.
* `Sorts key l r w w'` — rearranged and in order, with the gluing rule `Sorts.glue` that
  every quicksort ends with.
-/

namespace EfficientDictionary

universe u v

variable {α : Type u} {κ : Type v}

/-! ## Slices -/

/-- The content of `w` on `[l, r)`. -/
def slice (w : ℤ → α) (l r : ℤ) : List α :=
  (List.range (r - l).toNat).map fun k : ℕ => w (l + k)

@[simp] theorem length_slice (w : ℤ → α) (l r : ℤ) : (slice w l r).length = (r - l).toNat := by
  simp [slice]

theorem slice_of_le {w : ℤ → α} {l r : ℤ} (h : r ≤ l) : slice w l r = [] := by
  have hzero : (r - l).toNat = 0 := by omega
  rw [slice, hzero]
  rfl

theorem map_slice {β : Type v} (f : α → β) (w : ℤ → α) (l r : ℤ) :
    (slice w l r).map f = slice (f ∘ w) l r :=
  List.map_map

theorem slice_succ_right {w : ℤ → α} {l r : ℤ} (h : l ≤ r) :
    slice w l (r + 1) = slice w l r ++ [w r] := by
  have hlen : (r + 1 - l).toNat = (r - l).toNat + 1 := by omega
  have hlast : l + ((r - l).toNat : ℤ) = r := by omega
  rw [slice, hlen, List.range_succ, List.map_append, List.map_singleton, hlast]
  rfl

theorem slice_append (w : ℤ → α) {l m r : ℤ} (hlm : l ≤ m) (hmr : m ≤ r) :
    slice w l m ++ slice w m r = slice w l r := by
  induction r, hmr using Int.leInduction with
  | base => rw [slice_of_le (le_refl m), List.append_nil]
  | succ r hmr ih =>
    rw [slice_succ_right hmr, slice_succ_right (hlm.trans hmr), ← List.append_assoc, ih]

theorem slice_singleton (w : ℤ → α) (i : ℤ) : slice w i (i + 1) = [w i] := by
  rw [slice_succ_right (le_refl i), slice_of_le (le_refl i), List.nil_append]

theorem mem_slice {w : ℤ → α} {l r : ℤ} {a : α} :
    a ∈ slice w l r ↔ ∃ i, l ≤ i ∧ i < r ∧ w i = a := by
  simp only [slice, List.mem_map, List.mem_range]
  constructor
  · rintro ⟨k, hk, rfl⟩
    exact ⟨l + k, by omega, by omega, rfl⟩
  · rintro ⟨i, hl, hr, rfl⟩
    refine ⟨(i - l).toNat, by omega, ?_⟩
    have hi : l + ((i - l).toNat : ℤ) = i := by omega
    rw [hi]

theorem slice_congr {w w' : ℤ → α} {l r : ℤ} (h : ∀ i, l ≤ i → i < r → w i = w' i) :
    slice w l r = slice w' l r := by
  apply List.map_congr_left
  intro k hk
  have hk' := List.mem_range.mp hk
  exact h (l + k) (by omega) (by omega)

theorem getElem?_slice {w : ℤ → α} {l r : ℤ} {k : ℕ} (hk : l + k < r) :
    (slice w l r)[k]? = some (w (l + k)) := by
  have hk' : k < (r - l).toNat := by omega
  simp [slice, List.getElem?_map, List.getElem?_range hk']

/-- The content of a range determines its cells. -/
theorem eq_of_slice_eq {w w' : ℤ → α} {l r : ℤ} (h : slice w l r = slice w' l r) {i : ℤ}
    (hl : l ≤ i) (hr : i < r) : w i = w' i := by
  have hk : l + ((i - l).toNat : ℤ) = i := by omega
  have hget := congrArg (fun as => as[(i - l).toNat]?) h
  rw [getElem?_slice (by omega), getElem?_slice (by omega), hk] at hget
  exact Option.some.inj hget

theorem pairwise_slice {R : α → α → Prop} {w : ℤ → α} {l r : ℤ} :
    (slice w l r).Pairwise R ↔ ∀ i j, l ≤ i → i < j → j < r → R (w i) (w j) := by
  rw [slice, List.pairwise_map, List.pairwise_iff_getElem]
  simp only [List.getElem_range, List.length_range]
  constructor
  · intro h i j hi hij hj
    have hrel := h (i - l).toNat (j - l).toNat (by omega) (by omega) (by omega)
    have hi' : l + ((i - l).toNat : ℤ) = i := by omega
    have hj' : l + ((j - l).toNat : ℤ) = j := by omega
    rwa [hi', hj'] at hrel
  · intro h a b ha hb hab
    exact h (l + a) (l + b) (by omega) (by omega) (by omega)

theorem nodup_slice_id (l r : ℤ) : (slice id l r).Nodup :=
  pairwise_slice.mpr fun _ _ _ hij _ => hij.ne

theorem mem_slice_id {l r i : ℤ} : i ∈ slice id l r ↔ l ≤ i ∧ i < r := by
  rw [mem_slice]
  refine ⟨?_, fun hi => ⟨i, hi.1, hi.2, rfl⟩⟩
  rintro ⟨j, hl, hr, rfl⟩
  exact ⟨hl, hr⟩

/-- Every index of a range occurs in it once. -/
theorem count_slice_id (l r i : ℤ) : (slice id l r).count i = if l ≤ i ∧ i < r then 1 else 0 := by
  rw [(nodup_slice_id l r).count]
  exact if_congr mem_slice_id rfl rfl

/-- Writing the cell behind a slice extends it. -/
theorem slice_update_right {w : ℤ → α} {l r : ℤ} (h : l ≤ r) (a : α) :
    slice (Function.update w r a) l (r + 1) = slice w l r ++ [a] := by
  rw [slice_succ_right h, Function.update_self]
  congr 1
  exact slice_congr fun i _ hi => Function.update_of_ne hi.ne _ _

/-! ### Exchanging two cells -/

theorem comp_swap_left (w : ℤ → α) (i j : ℤ) : (w ∘ Equiv.swap i j) i = w j :=
  congrArg w (Equiv.swap_apply_left i j)

theorem comp_swap_right (w : ℤ → α) (i j : ℤ) : (w ∘ Equiv.swap i j) j = w i :=
  congrArg w (Equiv.swap_apply_right i j)

theorem comp_swap_of_ne {w : ℤ → α} {i j k : ℤ} (hi : k ≠ i) (hj : k ≠ j) :
    (w ∘ Equiv.swap i j) k = w k :=
  congrArg w (Equiv.swap_apply_of_ne_of_ne hi hj)

/-- Exchanging the first cell of a range with the one behind it leaves the rest rotated. -/
theorem slice_swap_rotate (w : ℤ → α) {l r : ℤ} (h : l ≤ r) :
    slice (w ∘ Equiv.swap l r) (l + 1) (r + 1) = (slice w l r).rotate 1 := by
  rcases eq_or_lt_of_le h with rfl | hlt
  · rw [slice_of_le (le_refl _), slice_of_le (le_refl _), List.rotate_nil]
  · have hrest : slice (w ∘ Equiv.swap l r) (l + 1) r = slice w (l + 1) r :=
      slice_congr fun i hi hir => comp_swap_of_ne (by omega) (by omega)
    rw [slice_succ_right (by omega), hrest, ← slice_append w (by omega : l ≤ l + 1) (by omega),
      slice_singleton, List.singleton_append, List.rotate_cons_succ, List.rotate_zero,
      comp_swap_right]

/-- A slice is, up to order, the image of the interval. -/
theorem coe_slice (w : ℤ → α) (l r : ℤ) :
    (slice w l r : Multiset α) = (Finset.Ico l r).val.map w := by
  rcases le_total l r with h | h
  · induction r, h using Int.leInduction with
    | base => simp [slice_of_le]
    | succ r hlr ih =>
      have hcons : Finset.Ico l (r + 1) = insert r (Finset.Ico l r) := by
        ext i
        simp only [Finset.mem_Ico, Finset.mem_insert]
        omega
      rw [slice_succ_right hlr, ← Multiset.coe_add, ih, hcons,
        Finset.insert_val_of_notMem Finset.right_notMem_Ico, Multiset.map_cons, add_comm]
      rfl
  · simp [slice_of_le h, Finset.Ico_eq_empty_of_le h]

/-- A permutation of the indices of a range permutes its content. -/
theorem slice_comp_perm {w : ℤ → α} {l r : ℤ} {σ : Equiv.Perm ℤ}
    (h : ∀ i, i < l ∨ r ≤ i → σ i = i) : (slice (w ∘ σ) l r).Perm (slice w l r) := by
  rw [← Multiset.coe_eq_coe, coe_slice, coe_slice, ← Multiset.map_map]
  congr 1
  have hmap : (Finset.Ico l r).map σ.toEmbedding = Finset.Ico l r := by
    apply Finset.map_perm
    intro k hk
    by_contra hout
    rw [Finset.coe_Ico, Set.mem_Ico, not_and_or, not_le, not_lt] at hout
    exact hk (h k hout)
  exact congrArg Finset.val hmap

/-- So does exchanging two cells. -/
theorem slice_swap_perm {w : ℤ → α} {l r i j : ℤ} (hi : l ≤ i ∧ i < r) (hj : l ≤ j ∧ j < r) :
    (slice (w ∘ Equiv.swap i j) l r).Perm (slice w l r) :=
  slice_comp_perm fun _ _ => Equiv.swap_apply_of_ne_of_ne (by omega) (by omega)

/-! ## Rearrangements -/

/-- `w'` permutes the range `[l, r)` of `w` and agrees with it outside. -/
structure Rearranges (l r : ℤ) (w w' : ℤ → α) : Prop where
  /-- the range holds what it held, in some order -/
  perm : (slice w' l r).Perm (slice w l r)
  /-- nothing else changed -/
  frame : ∀ i, i < l ∨ r ≤ i → w' i = w i

namespace Rearranges

variable {l r : ℤ} {w w' w'' : ℤ → α}

theorem refl (l r : ℤ) (w : ℤ → α) : Rearranges l r w w :=
  ⟨List.Perm.refl _, fun _ _ => rfl⟩

theorem trans (h : Rearranges l r w w') (h' : Rearranges l r w' w'') :
    Rearranges l r w w'' :=
  ⟨h'.perm.trans h.perm, fun i hi => (h'.frame i hi).trans (h.frame i hi)⟩

theorem swap {i j : ℤ} (hi : l ≤ i ∧ i < r) (hj : l ≤ j ∧ j < r) :
    Rearranges l r w (w ∘ Equiv.swap i j) := by
  refine ⟨slice_swap_perm hi hj, fun k hk => ?_⟩
  have hki : k ≠ i := by omega
  have hkj : k ≠ j := by omega
  exact comp_swap_of_ne hki hkj

/-- A rearrangement of a range is one of any larger range. -/
theorem mono {l' r' : ℤ} (h : Rearranges l r w w') (hl : l' ≤ l) (hr : r ≤ r') :
    Rearranges l' r' w w' := by
  rcases le_total l r with hlr | hlr
  · refine ⟨?_, fun i hi => h.frame i (by omega)⟩
    rw [← slice_append w' hl (hlr.trans hr), ← slice_append w' hlr hr,
      ← slice_append w hl (hlr.trans hr), ← slice_append w hlr hr,
      slice_congr fun i (_ : l' ≤ i) hi => h.frame i (Or.inl hi),
      slice_congr fun i hi (_ : i < r') => h.frame i (Or.inr hi)]
    exact (h.perm.append_right _).append_left _
  · have hsame : w' = w := funext fun i => h.frame i (by omega)
    rw [hsame]
    exact refl l' r' w

/-- What holds of every cell of the range keeps holding. -/
theorem forall_iff {P : α → Prop} (h : Rearranges l r w w') :
    (∀ i, l ≤ i → i < r → P (w' i)) ↔ ∀ i, l ≤ i → i < r → P (w i) := by
  have hmem : ∀ v : ℤ → α, (∀ i, l ≤ i → i < r → P (v i)) ↔ ∀ a ∈ slice v l r, P a := by
    intro v
    constructor
    · rintro hall a ha
      obtain ⟨i, hl, hr, rfl⟩ := mem_slice.mp ha
      exact hall i hl hr
    · intro hall i hl hr
      exact hall _ (mem_slice.mpr ⟨i, hl, hr, rfl⟩)
  rw [hmem, hmem]
  exact ⟨fun hall a ha => hall a (h.perm.mem_iff.mpr ha),
    fun hall a ha => hall a (h.perm.mem_iff.mp ha)⟩

end Rearranges

/-! ## Splitting a range -/

/-- The keys on `[l, m)` are below `k` and those on `[m, r)` are not. -/
structure SplitAt [LT κ] [LE κ] (key : α → κ) (w : ℤ → α) (l m r : ℤ) (k : κ) : Prop where
  /-- the part before `m` -/
  low : ∀ i, l ≤ i → i < m → key (w i) < k
  /-- the part from `m` on -/
  high : ∀ i, m ≤ i → i < r → k ≤ key (w i)

namespace SplitAt

variable [LinearOrder κ] {key : α → κ} {w : ℤ → α} {l m r : ℤ} {k : κ}

theorem empty (key : α → κ) (w : ℤ → α) (l : ℤ) (k : κ) : SplitAt key w l l l k :=
  ⟨fun i hi him => by omega, fun i hi hir => by omega⟩

/-- A cell that is not below `k` extends the upper part where it stands. -/
theorem push_high (h : SplitAt key w l m r k) (hr : k ≤ key (w r)) :
    SplitAt key w l m (r + 1) k := by
  refine ⟨h.low, fun i hi hir => ?_⟩
  rcases eq_or_lt_of_le (Int.lt_add_one_iff.mp hir) with rfl | hlt
  · exact hr
  · exact h.high i hi hlt

/-- A cell below `k` is exchanged with the first cell of the upper part. -/
theorem push_low (h : SplitAt key w l m r k) (hlm : l ≤ m) (hmr : m ≤ r)
    (hr : key (w r) < k) : SplitAt key (w ∘ Equiv.swap m r) l (m + 1) (r + 1) k := by
  refine ⟨fun i hi him => ?_, fun i hi hir => ?_⟩
  · rcases eq_or_lt_of_le (Int.lt_add_one_iff.mp him) with rfl | hlt
    · rwa [comp_swap_left]
    · rw [comp_swap_of_ne (by omega) (by omega)]
      exact h.low i hi hlt
  · rcases eq_or_lt_of_le (Int.lt_add_one_iff.mp hir) with rfl | hlt
    · rw [comp_swap_right]
      exact h.high m (le_refl m) (by omega)
    · rw [comp_swap_of_ne (by omega) (by omega)]
      exact h.high i (by omega) hlt

/-- Exchanging the pivot with the first cell of the upper part puts it in its place. -/
theorem place_pivot (h : SplitAt key w l m r (key (w r))) (hmr : m ≤ r) :
    SplitAt key (w ∘ Equiv.swap m r) l m (r + 1) (key ((w ∘ Equiv.swap m r) m)) := by
  rw [comp_swap_left]
  refine ⟨fun i hi him => ?_, fun i hi hir => ?_⟩
  · rw [comp_swap_of_ne (by omega) (by omega)]
    exact h.low i hi him
  · rcases eq_or_lt_of_le hi with rfl | hlt
    · rw [comp_swap_left]
    · rcases eq_or_lt_of_le (Int.lt_add_one_iff.mp hir) with rfl | hlt'
      · rw [comp_swap_right]
        exact h.high m (le_refl m) hlt
      · rw [comp_swap_of_ne (by omega) (by omega)]
        exact h.high i hi hlt'

end SplitAt

/-- **Induction on ranges**: a property holds of every range if it holds of a range as
soon as it holds of all shorter ones. -/
theorem range_induction {P : ℤ → ℤ → Prop}
    (step : ∀ l r, (∀ l' r', (r' + 1 - l').toNat < (r + 1 - l).toNat → P l' r') → P l r) :
    ∀ l r, P l r := by
  have hmain : ∀ n l r, (r + 1 - l).toNat < n → P l r := by
    intro n
    induction n with
    | zero =>
      intro l r h
      omega
    | succ n ih =>
      intro l r h
      exact step l r fun l' r' h' => ih l' r' (by omega)
  intro l r
  exact hmain _ l r (Nat.lt_succ_self _)

/-! ## Sorted ranges -/

/-- The keys of the cells in `[l, r)` do not decrease. -/
def SortedOn [LE κ] (key : α → κ) (w : ℤ → α) (l r : ℤ) : Prop :=
  ∀ i j, l ≤ i → i ≤ j → j < r → key (w i) ≤ key (w j)

/-- `w'` is `w` with the range `[l, r)` sorted. -/
structure Sorts [LE κ] (key : α → κ) (l r : ℤ) (w w' : ℤ → α) : Prop where
  /-- the range was permuted and nothing else touched -/
  rearranges : Rearranges l r w w'
  /-- its keys are in order -/
  sorted : SortedOn key w' l r

section Order

variable [LinearOrder κ] {key : α → κ} {l r : ℤ} {w w₁ w₂ w₃ : ℤ → α}

/-- A range of at most one cell is sorted. -/
theorem Sorts.of_le (h : r ≤ l + 1) : Sorts key l r w w := by
  refine ⟨Rearranges.refl l r w, fun i j hi hij hj => ?_⟩
  obtain rfl : i = j := by omega
  exact le_refl _

/-- Two sorted ranges, the first below the second, make a sorted range. -/
theorem SortedOn.append (m : ℤ) (hleft : SortedOn key w l m) (hright : SortedOn key w m r)
    (hcross : ∀ i j, l ≤ i → i < m → m ≤ j → j < r → key (w i) ≤ key (w j)) :
    SortedOn key w l r := by
  intro i j hi hij hj
  rcases lt_or_ge j m with hjm | hjm
  · exact hleft i j hi hij hjm
  · rcases lt_or_ge i m with him | him
    · exact hcross i j hi him hjm hj
    · exact hright i j him hij hj

/-- **Gluing**: if a range has been split around a block `[m₁, m₂)` of keys equal to `k`,
with keys at most `k` before it and at least `k` after it, then sorting the two outer
parts, one after the other, sorts the range. -/
theorem Sorts.glue {m₁ m₂ : ℤ} {k : κ} (hl : l ≤ m₁) (hm : m₁ ≤ m₂) (hr : m₂ ≤ r)
    (hsplit : Rearranges l r w w₁)
    (hlow : ∀ i, l ≤ i → i < m₁ → key (w₁ i) ≤ k)
    (hmid : ∀ i, m₁ ≤ i → i < m₂ → key (w₁ i) = k)
    (hhigh : ∀ i, m₂ ≤ i → i < r → k ≤ key (w₁ i))
    (hleft : Sorts key l m₁ w₁ w₂) (hright : Sorts key m₂ r w₂ w₃) :
    Sorts key l r w w₃ := by
  have hlow₂ := (hleft.rearranges.forall_iff (P := fun a => key a ≤ k)).mpr hlow
  have hlow₃ : ∀ i, l ≤ i → i < m₁ → key (w₃ i) ≤ k := by
    intro i hi him
    rw [hright.rearranges.frame i (by omega)]
    exact hlow₂ i hi him
  have hmid₃ : ∀ i, m₁ ≤ i → i < m₂ → key (w₃ i) = k := by
    intro i hi him
    rw [hright.rearranges.frame i (by omega), hleft.rearranges.frame i (by omega)]
    exact hmid i hi him
  have hhigh₂ : ∀ i, m₂ ≤ i → i < r → k ≤ key (w₂ i) := by
    intro i hi hir
    rw [hleft.rearranges.frame i (by omega)]
    exact hhigh i hi hir
  have hhigh₃ := (hright.rearranges.forall_iff (P := fun a => k ≤ key a)).mpr hhigh₂
  have hleft₃ : SortedOn key w₃ l m₁ := by
    intro i j hi hij hj
    rw [hright.rearranges.frame i (by omega), hright.rearranges.frame j (by omega)]
    exact hleft.sorted i j hi hij hj
  have hmiddle : SortedOn key w₃ m₁ m₂ := by
    intro i j hi hij hj
    rw [hmid₃ i hi (by omega), hmid₃ j (by omega) hj]
  refine ⟨hsplit.trans ((hleft.rearranges.mono (le_refl l) (hm.trans hr)).trans
    (hright.rearranges.mono (hl.trans hm) (le_refl r))), ?_⟩
  refine SortedOn.append m₁ hleft₃ (SortedOn.append m₂ hmiddle hright.sorted ?_) ?_
  · intro i j hi him hj hjr
    rw [hmid₃ i hi him]
    exact hhigh₃ j hj hjr
  · intro i j hi him hj hjr
    refine (hlow₃ i hi him).trans ?_
    rcases lt_or_ge j m₂ with hjm | hjm
    · exact (hmid₃ j hj hjm).ge
    · exact hhigh₃ j hjm hjr

/-- The keys of a sorted range, as a list, are sorted. -/
theorem SortedOn.pairwise (h : SortedOn key w l r) :
    ((slice w l r).map key).Pairwise (· ≤ ·) := by
  rw [List.pairwise_map, pairwise_slice]
  exact fun i j hi hij hj => h i j hi hij.le hj

end Order

end EfficientDictionary
