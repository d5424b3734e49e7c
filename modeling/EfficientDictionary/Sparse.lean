import EfficientDictionary.Segment

/-!
# Arrays with empty cells

General facts about an array `w : ℤ → Option α` some of whose cells are empty.

* `present w l r` — what the cells of `[l, r)` hold, in order.
* `Below key a b` — if both cells hold something, the key of the first is smaller.
* `StrictOn key w l r` — the keys that are present increase along the range.
* `Reduces key l r w w'` — `w'` lost some entries of `[l, r)` and moved others about, but
  no key was lost and nothing else touched.
* `Sifts key k l m r w w'`, `SiftedAround key p l m r w w'` — the invariant of a partition
  loop that drops the entries with the key of its pivot, and what it comes to.
* `Distills key l r w w'` — reduced to strictly increasing keys, with the gluing rule that
  a quicksort which drops duplicates ends with.
-/

namespace EfficientDictionary

universe u v

variable {α : Type u} {κ : Type v} {key : α → κ} {w w' w'' : ℤ → Option α} {l r : ℤ}

/-! ## What is present -/

/-- What the cells of `[l, r)` hold, in order. -/
def present (w : ℤ → Option α) (l r : ℤ) : List α := (slice w l r).filterMap id

theorem mem_present {a : α} : a ∈ present w l r ↔ ∃ i, l ≤ i ∧ i < r ∧ w i = some a := by
  simp only [present, List.mem_filterMap, mem_slice, id_eq]
  refine ⟨?_, ?_⟩
  · rintro ⟨_, ⟨i, hl, hr, rfl⟩, ha⟩
    exact ⟨i, hl, hr, ha⟩
  · rintro ⟨i, hl, hr, ha⟩
    exact ⟨w i, ⟨i, hl, hr, rfl⟩, ha⟩

theorem present_succ (h : l ≤ r) : present w l (r + 1) = present w l r ++ (w r).toList := by
  rw [present, slice_succ_right h, List.filterMap_append]
  cases w r <;> rfl

theorem present_append {m : ℤ} (w : ℤ → Option α) (hl : l ≤ m) (hr : m ≤ r) :
    present w l r = present w l m ++ present w m r := by
  rw [present, ← slice_append w hl hr, List.filterMap_append]
  rfl

theorem present_cell (w : ℤ → Option α) (i : ℤ) : present w i (i + 1) = (w i).toList := by
  rw [present_succ (le_refl i), present, slice_of_le (le_refl i)]
  rfl

theorem present_congr (h : ∀ i, l ≤ i → i < r → w' i = w i) : present w' l r = present w l r := by
  rw [present, slice_congr h, present]

theorem Rearranges.present (h : Rearranges l r w w') :
    (EfficientDictionary.present w' l r).Perm (EfficientDictionary.present w l r) :=
  h.perm.filterMap id

/-- An array without empty cells is present as it is. -/
theorem present_of_slice {as : List α} (h : slice w l r = as.map some) : present w l r = as := by
  rw [present, h, List.filterMap_map]
  exact List.filterMap_some

/-! ## Order -/

/-- If both cells hold something, the key of the first is smaller. -/
def Below [LinearOrder κ] (key : α → κ) (a b : Option α) : Prop :=
  ∀ x, a = some x → ∀ y, b = some y → key x < key y

theorem below_none_left [LinearOrder κ] (key : α → κ) (b : Option α) : Below key none b :=
  fun _ h => by cases h

/-- The keys that are present increase along the range. -/
def StrictOn [LinearOrder κ] (key : α → κ) (w : ℤ → Option α) (l r : ℤ) : Prop :=
  ∀ i j, l ≤ i → i < j → j < r → Below key (w i) (w j)

/-- So the list of what is present increases. -/
theorem StrictOn.pairwise [LinearOrder κ] (h : StrictOn key w l r) :
    (present w l r).Pairwise fun a b => key a < key b := by
  have hslice : (slice w l r).Pairwise (Below key) := pairwise_slice.mpr h
  exact hslice.filterMap id fun a b hab x hx y hy => hab x hx y hy

/-! ## Losing entries but no keys -/

/-- From `w` to `w'` entries of `[l, r)` were moved or dropped, but every key that was
present still is, and nothing else changed. -/
structure Reduces (key : α → κ) (l r : ℤ) (w w' : ℤ → Option α) : Prop where
  /-- nothing else changed -/
  frame : ∀ i, i < l ∨ r ≤ i → w' i = w i
  /-- every entry was there before -/
  sub : ∀ a ∈ present w' l r, a ∈ present w l r
  /-- no key was lost -/
  keeps : ∀ a ∈ present w l r, ∃ b ∈ present w' l r, key b = key a

namespace Reduces

theorem refl (key : α → κ) (l r : ℤ) (w : ℤ → Option α) : Reduces key l r w w :=
  ⟨fun _ _ => rfl, fun _ h => h, fun a h => ⟨a, h, rfl⟩⟩

theorem trans (h : Reduces key l r w w') (h' : Reduces key l r w' w'') :
    Reduces key l r w w'' := by
  refine ⟨fun i hi => (h'.frame i hi).trans (h.frame i hi), fun a ha => h.sub a (h'.sub a ha),
    fun a ha => ?_⟩
  obtain ⟨b, hb, hkey⟩ := h.keeps a ha
  obtain ⟨c, hc, hkey'⟩ := h'.keeps b hb
  exact ⟨c, hc, hkey'.trans hkey⟩

/-- A rearrangement loses nothing. -/
theorem of_rearranges (h : Rearranges l r w w') : Reduces key l r w w' := by
  have hperm := h.present
  exact ⟨h.frame, fun a ha => hperm.mem_iff.mp ha, fun a ha => ⟨a, hperm.mem_iff.mpr ha, rfl⟩⟩

/-- Reducing a range reduces any larger range. -/
theorem mono {l' r' : ℤ} (h : Reduces key l r w w') (hl : l' ≤ l) (hr : r ≤ r') :
    Reduces key l' r' w w' := by
  refine ⟨fun i hi => h.frame i (by omega), fun a ha => ?_, fun a ha => ?_⟩
  · obtain ⟨i, hil, hir, hi⟩ := mem_present.mp ha
    by_cases hin : l ≤ i ∧ i < r
    · obtain ⟨j, hjl, hjr, hj⟩ := mem_present.mp (h.sub a (mem_present.mpr ⟨i, hin.1, hin.2, hi⟩))
      exact mem_present.mpr ⟨j, by omega, by omega, hj⟩
    · rw [h.frame i (by omega)] at hi
      exact mem_present.mpr ⟨i, hil, hir, hi⟩
  · obtain ⟨i, hil, hir, hi⟩ := mem_present.mp ha
    by_cases hin : l ≤ i ∧ i < r
    · obtain ⟨b, hb, hkey⟩ := h.keeps a (mem_present.mpr ⟨i, hin.1, hin.2, hi⟩)
      obtain ⟨j, hjl, hjr, hj⟩ := mem_present.mp hb
      exact ⟨b, mem_present.mpr ⟨j, by omega, by omega, hj⟩, hkey⟩
    · refine ⟨a, mem_present.mpr ⟨i, hil, hir, ?_⟩, rfl⟩
      rw [h.frame i (by omega)]
      exact hi

/-- What holds of every entry of the range keeps holding. -/
theorem forall_present {P : α → Prop} (h : Reduces key l r w w')
    (hall : ∀ i, l ≤ i → i < r → ∀ a, w i = some a → P a) :
    ∀ i, l ≤ i → i < r → ∀ a, w' i = some a → P a := by
  intro i hl hr a ha
  obtain ⟨j, hjl, hjr, hj⟩ := mem_present.mp (h.sub a (mem_present.mpr ⟨i, hl, hr, ha⟩))
  exact hall j hjl hjr a hj

end Reduces

/-! ## Sifting a range around a key -/

/-- `w'` is `w` with the range `[l, r)` sifted around the key `k`: the entries with that key
are gone, the smaller ones stand before `m` with empty cells between them, the greater ones
from `m` on without. -/
structure Sifts [LinearOrder κ] (key : α → κ) (k : κ) (l m r : ℤ) (w w' : ℤ → Option α) :
    Prop where
  /-- `m` lies in the range -/
  lo : l ≤ m
  hi : m ≤ r
  /-- the entries left are those with another key -/
  entries : (present w' l r).Perm ((present w l r).filter fun a => key a ≠ k)
  /-- the part before `m` -/
  low : ∀ i, l ≤ i → i < m → ∀ a, w' i = some a → key a < k
  /-- the part from `m` on -/
  high : ∀ i, m ≤ i → i < r → ∃ a, w' i = some a ∧ k < key a
  /-- nothing else changed -/
  frame : ∀ i, i < l ∨ r ≤ i → w' i = w i

namespace Sifts

variable [LinearOrder κ] {k : κ} {m : ℤ}

theorem empty (key : α → κ) (k : κ) (l : ℤ) (w : ℤ → Option α) : Sifts key k l l l w w :=
  ⟨le_refl l, le_refl l, by rw [present, slice_of_le (le_refl l)]; exact List.Perm.nil,
    fun i hi him => by omega, fun i hi hir => by omega, fun _ _ => rfl⟩

/-- An entry above `k` extends the upper part where it stands. -/
theorem push_high {a : α} (h : Sifts key k l m r w w') (ha : w r = some a) (hlt : k < key a) :
    Sifts key k l m (r + 1) w w' := by
  have hlr := h.lo.trans h.hi
  have hr : w' r = some a := (h.frame r (Or.inr (le_refl r))).trans ha
  refine ⟨h.lo, h.hi.trans (Int.le_add_one (le_refl r)), ?_, h.low, fun i hi hir => ?_,
    fun i hi => h.frame i (by omega)⟩
  · rw [present_succ hlr, present_succ hlr, hr, ha, List.filter_append, Option.toList_some,
      List.filter_singleton, decide_eq_true hlt.ne']
    exact h.entries.append_right _
  · rcases eq_or_lt_of_le (Int.lt_add_one_iff.mp hir) with rfl | hlt'
    · exact ⟨a, hr, hlt⟩
    · exact h.high i hi hlt'

/-- Any other entry, or an empty cell, extends the lower part after exchanging it with the
cell at `m`; `b` is what is left of it, which is nothing when its key is `k`. -/
theorem push_low {b : Option α} (h : Sifts key k l m r w w')
    (hb : b.toList = (w r).toList.filter fun a => key a ≠ k) (hlt : ∀ a, b = some a → key a < k) :
    Sifts key k l (m + 1) (r + 1) w (Function.update w' r b ∘ Equiv.swap m r) := by
  have hlr := h.lo.trans h.hi
  have hself : Function.update w' r b r = b := Function.update_self r b w'
  have hother : ∀ i, i ≠ r → Function.update w' r b i = w' i :=
    fun i hi => Function.update_of_ne hi b w'
  refine ⟨by have := h.lo; omega, by have := h.hi; omega, ?_, fun i hi him a ha => ?_,
    fun i hi hir => ?_, fun i hi => ?_⟩
  · have hswap : Rearranges l (r + 1) (Function.update w' r b)
        (Function.update w' r b ∘ Equiv.swap m r) :=
      Rearranges.swap ⟨h.lo, by have := h.hi; omega⟩ ⟨hlr, by omega⟩
    refine hswap.present.trans ?_
    rw [present_succ hlr, present_succ hlr, hself, hb, List.filter_append,
      present_congr fun i _ hi => hother i (by omega)]
    exact h.entries.append_right _
  · rcases eq_or_lt_of_le (Int.lt_add_one_iff.mp him) with rfl | him'
    · rw [comp_swap_left, hself] at ha
      exact hlt a ha
    · have hir : i ≠ r := by have := h.hi; omega
      rw [comp_swap_of_ne him'.ne hir, hother i hir] at ha
      exact h.low i hi him' a ha
  · rcases eq_or_lt_of_le (Int.lt_add_one_iff.mp hir) with rfl | hir'
    · rw [comp_swap_right, hother m (by omega)]
      exact h.high m (le_refl m) (by omega)
    · rw [comp_swap_of_ne (by omega) hir'.ne, hother i hir'.ne]
      exact h.high i (by omega) hir'
  · have hlo := h.lo
    have hhi := h.hi
    rw [comp_swap_of_ne (by omega) (by omega), hother i (by omega)]
    exact h.frame i (by omega)

end Sifts

/-- `w'` is `w` with the inclusive range `[l, r]` sifted around the entry `p`, which stands
at `m`. -/
structure SiftedAround [LinearOrder κ] (key : α → κ) (p : α) (l m r : ℤ)
    (w w' : ℤ → Option α) : Prop where
  /-- `m` lies in the range -/
  lo : l ≤ m
  hi : m ≤ r
  /-- the entry itself -/
  middle : w' m = some p
  /-- the part before it -/
  low : ∀ i, l ≤ i → i < m → ∀ a, w' i = some a → key a < key p
  /-- the part after it -/
  high : ∀ i, m < i → i ≤ r → ∃ a, w' i = some a ∧ key p < key a
  /-- the other entries left are those with another key -/
  entries : (present w' l (r + 1)).Perm
    ((present w l (r + 1)).filter (fun a => key a ≠ key p) ++ [p])
  /-- nothing else changed -/
  frame : ∀ i, i < l ∨ r < i → w' i = w i

/-- Exchanging the last cell with the one at `m` puts it in the middle. -/
theorem Sifts.place [LinearOrder κ] {p : α} {m : ℤ} (h : Sifts key (key p) l m r w w')
    (hp : w r = some p) : SiftedAround key p l m r w (w' ∘ Equiv.swap m r) := by
  have hlo := h.lo
  have hhi := h.hi
  have hr : w' r = some p := (h.frame r (Or.inr (le_refl r))).trans hp
  refine ⟨hlo, hhi, ?_, fun i hi him a ha => ?_, fun i hi hir => ?_, ?_, fun i hi => ?_⟩
  · rw [comp_swap_left, hr]
  · rw [comp_swap_of_ne (by omega) (by omega)] at ha
    exact h.low i hi him a ha
  · rcases eq_or_lt_of_le hir with rfl | hir'
    · rw [comp_swap_right]
      exact h.high m (le_refl m) hi
    · rw [comp_swap_of_ne (by omega) hir'.ne]
      exact h.high i hi.le hir'
  · have hswap : Rearranges l (r + 1) w' (w' ∘ Equiv.swap m r) :=
      Rearranges.swap ⟨hlo, by omega⟩ ⟨by omega, by omega⟩
    have hlr : l ≤ r := hlo.trans hhi
    refine hswap.present.trans ?_
    rw [present_succ hlr, present_succ hlr, hr, hp, List.filter_append, Option.toList_some,
      List.filter_singleton]
    simpa using h.entries.append_right [p]
  · rw [comp_swap_of_ne (by omega) (by omega)]
    exact h.frame i (by omega)

/-- Sifting loses no key. -/
theorem SiftedAround.reduces [LinearOrder κ] {p : α} {m : ℤ}
    (h : SiftedAround key p l m r w w') (hp : p ∈ present w l (r + 1)) :
    Reduces key l (r + 1) w w' := by
  refine ⟨fun i hi => h.frame i (by omega), fun a ha => ?_, fun a ha => ?_⟩
  · rcases List.mem_append.mp (h.entries.mem_iff.mp ha) with ha | ha
    · exact List.mem_of_mem_filter ha
    · rwa [List.mem_singleton.mp ha]
  · by_cases heq : key a = key p
    · exact ⟨p, h.entries.mem_iff.mpr (by simp), heq.symm⟩
    · exact ⟨a, h.entries.mem_iff.mpr (by simp [ha, heq]), rfl⟩

/-- The entry in the middle is below those after it. -/
theorem SiftedAround.below_middle [LinearOrder κ] {p : α} {m : ℤ}
    (h : SiftedAround key p l m r w w') :
    ∀ j, m < j → j < r + 1 → Below key (w' m) (w' j) := by
  intro j hj hjr a ha b hb
  obtain ⟨c, hc, hlt⟩ := h.high j hj (Int.lt_add_one_iff.mp hjr)
  rw [h.middle] at ha
  rw [hc] at hb
  obtain rfl := Option.some.inj ha
  obtain rfl := Option.some.inj hb
  exact hlt

/-- The entries before the middle are below the others. -/
theorem SiftedAround.below [LinearOrder κ] {p : α} {m : ℤ} (h : SiftedAround key p l m r w w') :
    ∀ i j, l ≤ i → i < m → m ≤ j → j < r + 1 → Below key (w' i) (w' j) := by
  intro i j hi him hj hjr a ha b hb
  have hlow := h.low i hi him a ha
  rcases eq_or_lt_of_le hj with rfl | hj
  · rw [h.middle] at hb
    obtain rfl := Option.some.inj hb
    exact hlow
  · exact hlow.trans (h.below_middle j hj hjr p h.middle b hb)

/-- What is present around the middle. -/
theorem SiftedAround.present_eq [LinearOrder κ] {p : α} {m : ℤ}
    (h : SiftedAround key p l m r w w') :
    present w' l (r + 1) = present w' l m ++ p :: present w' (m + 1) (r + 1) := by
  have hlo := h.lo
  have hhi := h.hi
  rw [present_append w' hlo (by omega), present_append w' (by omega : m ≤ m + 1) (by omega),
    present_cell, h.middle]
  rfl

/-- The entry in the middle is on neither side. -/
theorem SiftedAround.length_present_le [LinearOrder κ] {p : α} {m : ℤ}
    (h : SiftedAround key p l m r w w') (hp : p ∈ present w l (r + 1)) :
    (present w' l m).length + (present w' (m + 1) (r + 1)).length + 1 ≤
      (present w l (r + 1)).length := by
  have hlength := h.entries.length_eq
  have hdropped : ((present w l (r + 1)).filter fun a => key a ≠ key p).length <
      (present w l (r + 1)).length :=
    List.length_filter_lt_length_iff_exists.mpr ⟨p, hp, by simp⟩
  rw [h.present_eq, List.length_append, List.length_cons, List.length_append,
    List.length_singleton] at hlength
  omega

/-! ## Distilling -/

/-- `w'` is `w` with the range reduced to strictly increasing keys. -/
structure Distills [LinearOrder κ] (key : α → κ) (l r : ℤ) (w w' : ℤ → Option α) : Prop where
  /-- no key was lost and nothing else changed -/
  reduces : Reduces key l r w w'
  /-- what is left increases -/
  strict : StrictOn key w' l r

theorem Distills.of_le [LinearOrder κ] (h : r ≤ l + 1) : Distills key l r w w :=
  ⟨Reduces.refl key l r w, fun i j hi hij hj => by omega⟩

/-- **Gluing**: if no entry before `m` has a key above one from `m` on, and the entry at
`m` is below those after it, then distilling the two parts around `m`, one after the other,
distills the range. -/
theorem Distills.glue [LinearOrder κ] {w₁ w₂ w₃ : ℤ → Option α} {m : ℤ} (hl : l ≤ m) (hr : m < r)
    (hsplit : Reduces key l r w w₁)
    (hlow : ∀ i j, l ≤ i → i < m → m ≤ j → j < r → Below key (w₁ i) (w₁ j))
    (hhigh : ∀ j, m < j → j < r → Below key (w₁ m) (w₁ j))
    (hleft : Distills key l m w₁ w₂) (hright : Distills key (m + 1) r w₂ w₃) :
    Distills key l r w w₃ := by
  -- the part before `m` is final after the first step, the part after `m` starts with `w₁`
  have hbefore : ∀ i, i < m → w₃ i = w₂ i := fun i hi => hright.reduces.frame i (by omega)
  have hmiddle : w₃ m = w₁ m :=
    (hright.reduces.frame m (by omega)).trans (hleft.reduces.frame m (by omega))
  have hafter : ∀ j, m < j → w₂ j = w₁ j := fun j hj => hleft.reduces.frame j (by omega)
  have hlow' : ∀ i, l ≤ i → i < m → ∀ a, w₂ i = some a →
      ∀ j, m ≤ j → j < r → ∀ b, w₁ j = some b → key a < key b := by
    intro i hi him a ha j hj hjr b hb
    exact hleft.reduces.forall_present (P := fun a => key a < key b)
      (fun i hi him a ha => hlow i j hi him hj hjr a ha b hb) i hi him a ha
  have hhigh' : ∀ (P : α → Prop), (∀ j, m < j → j < r → ∀ b, w₁ j = some b → P b) →
      ∀ j, m < j → j < r → ∀ b, w₃ j = some b → P b := by
    intro P hall j hj hjr b hb
    refine hright.reduces.forall_present (fun j hj hjr b hb => ?_) j (by omega) hjr b hb
    rw [hafter j (by omega)] at hb
    exact hall j (by omega) hjr b hb
  refine ⟨hsplit.trans ((hleft.reduces.mono (le_refl l) hr.le).trans
    (hright.reduces.mono (by omega) (le_refl r))), fun i j hi hij hjr a ha b hb => ?_⟩
  rcases lt_trichotomy i m with him | rfl | him
  · rw [hbefore i him] at ha
    rcases lt_trichotomy j m with hjm | rfl | hjm
    · rw [hbefore j hjm] at hb
      exact hleft.strict i j hi hij hjm a ha b hb
    · rw [hmiddle] at hb
      exact hlow' i hi him a ha j (le_refl j) hjr b hb
    · exact hhigh' (fun b => key a < key b)
        (fun j hj hjr b hb => hlow' i hi him a ha j hj.le hjr b hb) j hjm hjr b hb
  · rw [hmiddle] at ha
    exact hhigh' (fun b => key a < key b) (fun j hj hjr b hb => hhigh j hj hjr a ha b hb)
      j hij hjr b hb
  · exact hright.strict i j (by omega) hij hjr a ha b hb

end EfficientDictionary
