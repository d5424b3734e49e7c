import EfficientDictionary.QuickSort
import EfficientDictionary.Sparse

/-!
# The sort of the baseline

`swap`, `partition`, `quicksort_recursive` and `SequentialSortUniqueWords` of the baseline,
over an array of pointers that may be `NULL`. The partition drops every copy of its pivot by
setting it to `NULL`, so that what is left of the array after the sort is already without
duplicates, with `NULL` cells in between; the last loop moves the words to the front.

* `partition_of_some`, `partition_of_none` — what the partition does, for either kind of
  pivot.
* `quicksortRecursive_distills` — the sort leaves strictly increasing strings.
* `compactWords_inv` — the last loop keeps what is present, in order.
* `sequentialSortUniqueWords_keeps` — which `int`s are computed.
-/

namespace EfficientDictionary

namespace Baseline

/-! ## Definitions -/

/-- `swap(&words[a], &words[b])` -/
def swap (a b : ℤ) : CProg (Option Ptr) PUnit := swapWords a b

/-- One turn of the loop of `partition`; it returns the new `idx`. -/
def partitionTurn (mem : Mem) (pivot : Ptr) (i idx : ℤ) : CProg (Option Ptr) ℤ := do
  int i
  let word ← load i
  match word with
  | none => do
    swap idx i
    int (idx + 1)
    pure (idx + 1)
  | some word => do
    let ret ← strcmp mem word pivot
    if ret < 0 then do
      swap idx i
      int (idx + 1)
      pure (idx + 1)
    else if ret = 0 then do
      -- a copy of the pivot becomes `NULL`
      store i none
      swap idx i
      int (idx + 1)
      pure (idx + 1)
    else
      pure idx

/-- `partition` -/
def partition (mem : Mem) (left right : ℤ) : CProg (Option Ptr) ℤ := do
  let pivot ← load right
  match pivot with
  | none => do
    swap left right
    pure left
  | some pivot => do
    let idx ← forRange left right left (partitionTurn mem pivot)
    swap idx right
    pure idx

@[simp] theorem swap_cells (a b : ℤ) (s : Machine Call (Option Ptr)) :
    ((swap a b).exec s).cells = s.cells ∘ Equiv.swap a b :=
  swapWords_cells a b s

/-! ## partition -/

section Partition

variable {mem : Mem} {pivot : Ptr} {left right i idx : ℤ} {s : Machine Call (Option Ptr)}

theorem partitionTurn_of_none (mem : Mem) (pivot : Ptr) (idx : ℤ) (h : s.cells i = none) :
    (partitionTurn mem pivot i idx).val s = idx + 1 ∧
      ((partitionTurn mem pivot i idx).exec s).cells = s.cells ∘ Equiv.swap idx i := by
  simp [partitionTurn, h]

theorem partitionTurn_of_lt {word : Ptr} (idx : ℤ) (h : s.cells i = some word)
    (hlt : strcmpAt mem word pivot < 0) :
    (partitionTurn mem pivot i idx).val s = idx + 1 ∧
      ((partitionTurn mem pivot i idx).exec s).cells = s.cells ∘ Equiv.swap idx i := by
  simp [partitionTurn, h, hlt]

theorem partitionTurn_of_eq {word : Ptr} (idx : ℤ) (h : s.cells i = some word)
    (heq : strcmpAt mem word pivot = 0) :
    (partitionTurn mem pivot i idx).val s = idx + 1 ∧
      ((partitionTurn mem pivot i idx).exec s).cells =
        Function.update s.cells i none ∘ Equiv.swap idx i := by
  simp [partitionTurn, h, heq]

theorem partitionTurn_of_gt {word : Ptr} (idx : ℤ) (h : s.cells i = some word)
    (hgt : 0 < strcmpAt mem word pivot) :
    (partitionTurn mem pivot i idx).val s = idx ∧
      ((partitionTurn mem pivot i idx).exec s).cells = s.cells := by
  simp [partitionTurn, h, hgt.not_gt, hgt.ne']

/-- A turn keeps `idx` or moves it up by one. -/
theorem partitionTurn_val (mem : Mem) (pivot : Ptr) (i idx : ℤ) (s : Machine Call (Option Ptr)) :
    (partitionTurn mem pivot i idx).val s = idx ∨
      (partitionTurn mem pivot i idx).val s = idx + 1 := by
  cases h : s.cells i with
  | none => exact Or.inr (partitionTurn_of_none mem pivot idx h).1
  | some word =>
    rcases lt_trichotomy (strcmpAt mem word pivot) 0 with hlt | heq | hgt
    · exact Or.inr (partitionTurn_of_lt idx h hlt).1
    · exact Or.inr (partitionTurn_of_eq idx h heq).1
    · exact Or.inl (partitionTurn_of_gt idx h hgt).1

/-- One turn of the loop sifts one more cell. -/
theorem partitionTurn_sifts {w : ℤ → Option Ptr}
    (h : Sifts (cstr mem) (cstr mem pivot) left idx i w s.cells) :
    Sifts (cstr mem) (cstr mem pivot) left ((partitionTurn mem pivot i idx).val s) (i + 1) w
      ((partitionTurn mem pivot i idx).exec s).cells := by
  have hcell : s.cells i = w i := h.frame i (Or.inr (le_refl i))
  cases hw : w i with
  | none =>
    rw [hw] at hcell
    obtain ⟨hval, hcells⟩ := partitionTurn_of_none mem pivot idx hcell
    have hpush := h.push_low (b := none) (by rw [hw]; rfl) (fun a ha => by cases ha)
    rw [hval, hcells]
    rwa [← hcell, Function.update_eq_self] at hpush
  | some word =>
    rw [hw] at hcell
    rcases lt_trichotomy (strcmpAt mem word pivot) 0 with hlt | heq | hgt
    · obtain ⟨hval, hcells⟩ := partitionTurn_of_lt idx hcell hlt
      rw [strcmpAt_neg_iff] at hlt
      have hpush := h.push_low (b := some word) (by rw [hw]; simp [hlt.ne])
        (fun a ha => by obtain rfl := Option.some.inj ha; exact hlt)
      rw [hval, hcells]
      rwa [← hcell, Function.update_eq_self] at hpush
    · obtain ⟨hval, hcells⟩ := partitionTurn_of_eq idx hcell heq
      rw [strcmpAt_eq_zero_iff] at heq
      rw [hval, hcells]
      exact h.push_low (by rw [hw]; simp [heq]) (fun a ha => by cases ha)
    · obtain ⟨hval, hcells⟩ := partitionTurn_of_gt idx hcell hgt
      rw [hval, hcells]
      exact h.push_high hw (strcmpAt_pos_iff.mp hgt)

/-- What the loop does. -/
theorem partitionLoop_sifts (mem : Mem) (pivot : Ptr) (h : left ≤ right)
    (s : Machine Call (Option Ptr)) :
    Sifts (cstr mem) (cstr mem pivot) left
      ((forRange left right left (partitionTurn mem pivot)).val s) right s.cells
      ((forRange left right left (partitionTurn mem pivot)).exec s).cells :=
  forRange_inv (I := fun i idx s' => Sifts (cstr mem) (cstr mem pivot) left idx i s.cells s'.cells)
    h (Sifts.empty _ _ _ _) fun _ _ _ _ _ hinv => partitionTurn_sifts hinv

/-- Around a word the range is sifted. -/
theorem partition_of_some (mem : Mem) (h : left ≤ right) (hp : s.cells right = some pivot) :
    SiftedAround (cstr mem) pivot left ((partition mem left right).val s) right s.cells
      ((partition mem left right).exec s).cells := by
  have hrun := partitionLoop_sifts mem pivot h ((load right : CProg _ _).exec s)
  simp only [partition, Prog.bind_val, Prog.bind_exec, load_val, hp, Prog.pure_val,
    Prog.pure_exec, swap_cells]
  exact hrun.place hp

/-- A `NULL` pivot is exchanged with the first cell. -/
theorem partition_of_none (mem : Mem) (left : ℤ) (hp : s.cells right = none) :
    (partition mem left right).val s = left ∧
      ((partition mem left right).exec s).cells = s.cells ∘ Equiv.swap left right := by
  simp [partition, hp]

theorem partition_bounds (mem : Mem) (h : left ≤ right) (s : Machine Call (Option Ptr)) :
    left ≤ (partition mem left right).val s ∧ (partition mem left right).val s ≤ right := by
  cases hp : s.cells right with
  | none =>
    rw [(partition_of_none mem left hp).1]
    exact ⟨le_refl left, h⟩
  | some pivot =>
    have hsift := partition_of_some mem h hp
    exact ⟨hsift.lo, hsift.hi⟩

/-- Around a word the range keeps one copy of it, at the index returned, with `NULL` and the
smaller words before and the greater words after; a `NULL` moves to the front. -/
theorem partition_around (mem : Mem) (h : left < right) (s : Machine Call (Option Ptr)) :
    ∃ (idx : ℤ) (w' : ℤ → Option Ptr), (partition mem left right).val s = idx ∧
      ((partition mem left right).exec s).cells = w' ∧ (left ≤ idx ∧ idx ≤ right) ∧
      (∀ i, i < left ∨ right < i → w' i = s.cells i) ∧
      (∀ pivot, s.cells right = some pivot →
        w' idx = some pivot ∧
        (∀ i, left ≤ i → i < idx → ∀ word, w' i = some word → strcmpAt mem word pivot < 0) ∧
        (∀ i, idx < i → i ≤ right → ∃ word, w' i = some word ∧ 0 < strcmpAt mem word pivot) ∧
        (present w' left (right + 1)).Perm
          ((present s.cells left (right + 1)).filter
            (fun word => strcmpAt mem word pivot ≠ 0) ++ [pivot])) ∧
      (s.cells right = none →
        idx = left ∧ w' left = none ∧
          (slice w' left (right + 1)).Perm (slice s.cells left (right + 1))) := by
  refine ⟨_, _, rfl, rfl, partition_bounds mem h.le s, ?_⟩
  cases hp : s.cells right with
  | none =>
    obtain ⟨hval, hcells⟩ := partition_of_none mem left hp
    have hswap : Rearranges left (right + 1) s.cells (s.cells ∘ Equiv.swap left right) :=
      Rearranges.swap (by omega) (by omega)
    rw [hval, hcells]
    refine ⟨fun i hi => hswap.frame i (by omega),
      fun _ heq => absurd heq.symm (Option.some_ne_none _), fun _ => ⟨rfl, ?_, hswap.perm⟩⟩
    rw [comp_swap_left, hp]
  | some pivot =>
    have hsift := partition_of_some mem h.le hp
    refine ⟨hsift.frame, fun _ heq => ?_, fun heq => absurd heq (Option.some_ne_none _)⟩
    obtain rfl := Option.some.inj heq
    refine ⟨hsift.middle, fun i hi hidx word hword => ?_, fun i hidx hi => ?_, ?_⟩
    · exact strcmpAt_neg_iff.mpr (hsift.low i hi hidx word hword)
    · obtain ⟨word, hword, hlt⟩ := hsift.high i hidx hi
      exact ⟨word, hword, strcmpAt_pos_iff.mpr hlt⟩
    · have hentries := hsift.entries
      simp only [ne_eq, ← strcmpAt_eq_zero_iff] at hentries
      exact hentries

/-- The words `c`, `b`, `a` and `b` with a `NULL` after the first: one `b` is lost. -/
theorem partition_around_five :
    ∃ (idx : ℤ) (w' : ℤ → Option Ptr),
      (partition [97, 0, 98, 0, 99, 0] 0 4).val
        ⟨fun i => ([some 4, none, some 2, some 0, some 2][i.toNat]?).join, []⟩ = idx ∧
      ((partition [97, 0, 98, 0, 99, 0] 0 4).exec
        ⟨fun i => ([some 4, none, some 2, some 0, some 2][i.toNat]?).join, []⟩).cells = w' ∧
      w' idx = some 2 ∧ (present w' 0 5).Perm [4, 0, 2] := by
  obtain ⟨idx, w', hval, hcells, _, _, hsome, _⟩ :=
    partition_around [97, 0, 98, 0, 99, 0] (by decide : (0 : ℤ) < 4)
      ⟨fun i => ([some 4, none, some 2, some 0, some 2][i.toNat]?).join, []⟩
  obtain ⟨hmiddle, _, _, hentries⟩ := hsome 2 rfl
  exact ⟨idx, w', hval, hcells, hmiddle, hentries⟩

theorem swap_local {R : Set ℤ} {a b : ℤ} (ha : a ∈ R) (hb : b ∈ R) : Local R (swap a b) :=
  swapWords_local ha hb

theorem partitionTurn_local {R : Set ℤ} (hi : i ∈ R) (hidx : idx ∈ R) :
    Local R (partitionTurn mem pivot i idx) := by
  refine (int_local R i).bind fun _ => (Local.load hi).bind fun s => ?_
  have hswap : Local R (do swap idx i; int (idx + 1); pure (idx + 1)) :=
    (swap_local hidx hi).bind fun _ => (int_local R _).bind fun _ => Local.pure R _
  cases (load i : CProg _ _).val s with
  | none => exact hswap
  | some word =>
    refine (strcmp_local R _ _ _).bind fun _ => Local.ite (fun _ => hswap) fun _ => ?_
    exact Local.ite (fun _ => (Local.store hi none).bind fun _ => hswap) fun _ => Local.pure R _

theorem partitionLoop_local (mem : Mem) (pivot : Ptr) (h : left ≤ right) :
    Local (Set.Icc left right) (forRange left right left (partitionTurn mem pivot)) := by
  refine (Local.forRange (I := fun i idx => left ≤ idx ∧ idx ≤ i) h
    ⟨le_refl _, le_refl _⟩ ?_).1
  intro i idx hl hr hidx
  refine ⟨partitionTurn_local ⟨hl, hr.le⟩ ⟨hidx.1, by omega⟩, fun s => ?_⟩
  rcases partitionTurn_val mem pivot i idx s with hv | hv
  · omega
  · omega

theorem partition_local (mem : Mem) (h : left ≤ right) :
    Local (Set.Icc left right) (partition mem left right) := by
  have hleft : left ∈ Set.Icc left right := ⟨le_refl left, h⟩
  have hright : right ∈ Set.Icc left right := ⟨h, le_refl right⟩
  refine (Local.load hright).bind fun s => ?_
  cases (load right : CProg _ _).val s with
  | none => exact (swap_local hleft hright).bind fun _ => Local.pure _ _
  | some pivot =>
    refine (partitionLoop_local mem pivot h).bind fun s' => ?_
    have hsift := partitionLoop_sifts mem pivot h s'
    have hidx : (forRange left right left (partitionTurn mem pivot)).val s' ∈
        Set.Icc left right := ⟨hsift.lo, hsift.hi⟩
    exact (swap_local hidx hright).bind fun _ => Local.pure _ _

section Notes

variable {R : Set ℤ} {Q : Call → Prop} {lo up : ℤ}

theorem swap_keeps (a b : ℤ) : Keeps R (fun _ => True) Q (swap a b) :=
  (Keeps.load a).bind fun _ _ => (Keeps.load b).bind fun _ _ =>
    (Keeps.store fun _ => trivial).bind fun _ _ => Keeps.store fun _ => trivial

theorem partitionTurn_keeps (hQ : SortNotes (fun _ => True) Q lo up) (hlo : lo ≤ idx)
    (hle : idx ≤ i) (hup : i < up) :
    Keeps R (fun _ => True) Q (partitionTurn mem pivot i idx) := by
  have hswap : Keeps R (fun _ => True) Q (do swap idx i; int (idx + 1); pure (idx + 1)) :=
    (swap_keeps idx i).bind fun _ _ =>
      (Keeps.note (hQ.int _ (by omega) (by omega))).bind fun _ _ => Keeps.pure _
  refine (Keeps.note (hQ.int i (by omega) hup.le)).bind fun _ _ => (Keeps.load i).bind fun s _ => ?_
  cases (load i : CProg _ _).val s with
  | none => exact hswap
  | some word =>
    refine (strcmp_keeps (hQ.strcmp _ _ trivial trivial) mem).bind fun _ _ => ?_
    refine Keeps.ite (fun _ => hswap) fun _ => Keeps.ite (fun _ => ?_) fun _ => Keeps.pure _
    exact (Keeps.store fun _ => trivial).bind fun _ _ => hswap

theorem partition_keeps (hQ : SortNotes (fun _ => True) Q lo up) (h : left ≤ right)
    (hlo : lo ≤ left) (hup : right ≤ up) :
    Keeps R (fun _ => True) Q (partition mem left right) := by
  refine (Keeps.load right).bind fun s _ => ?_
  cases (load right : CProg _ _).val s with
  | none => exact (swap_keeps left right).bind fun _ _ => Keeps.pure _
  | some pivot =>
    refine Keeps.bind ?_ fun _ _ => (swap_keeps _ right).bind fun _ _ => Keeps.pure _
    refine Keeps.forRange (I := fun i idx => left ≤ idx ∧ idx ≤ i) h ⟨le_refl _, le_refl _⟩ ?_
    intro i idx hl hr hidx
    refine ⟨partitionTurn_keeps hQ (by omega) hidx.2 (by omega), fun s => ?_⟩
    rcases partitionTurn_val mem pivot i idx s with hv | hv
    · omega
    · omega

end Notes

end Partition

/-! ## quicksort_recursive -/

/-- `quicksort_recursive` -/
def quicksortRecursive (mem : Mem) (left right : ℤ) : CProg (Option Ptr) PUnit :=
  if h : left < right then do
    let partitionIndex ← (partition mem left right).attach
    int (partitionIndex.1 - 1)
    quicksortRecursive mem left (partitionIndex.1 - 1)
    int (partitionIndex.1 + 1)
    quicksortRecursive mem (partitionIndex.1 + 1) right
  else
    pure ⟨⟩
termination_by (right + 1 - left).toNat
decreasing_by
  all_goals
    obtain ⟨s, hs⟩ := partitionIndex.2
    have hbounds := partition_bounds mem h.le s
    omega

theorem quicksortRecursive_of_lt (mem : Mem) {left right : ℤ} (h : left < right) :
    quicksortRecursive mem left right = (do
      let partitionIndex ← partition mem left right
      int (partitionIndex - 1)
      quicksortRecursive mem left (partitionIndex - 1)
      int (partitionIndex + 1)
      quicksortRecursive mem (partitionIndex + 1) right) := by
  rw [quicksortRecursive, dif_pos h]
  rfl

theorem quicksortRecursive_of_le (mem : Mem) {left right : ℤ} (h : right ≤ left) :
    quicksortRecursive mem left right = pure ⟨⟩ := by
  rw [quicksortRecursive, dif_neg (not_lt.mpr h)]

/-- What the recursion needs of the partition: it loses no string, and separates the range
at the index it returns, where it leaves a word or `NULL`. -/
theorem partition_splits (mem : Mem) {left right : ℤ} (h : left ≤ right)
    (s : Machine Call (Option Ptr)) :
    let idx := (partition mem left right).val s
    let cells := ((partition mem left right).exec s).cells
    Reduces (cstr mem) left (right + 1) s.cells cells ∧
      (∀ i j, left ≤ i → i < idx → idx ≤ j → j < right + 1 →
        Below (cstr mem) (cells i) (cells j)) ∧
      ∀ j, idx < j → j < right + 1 → Below (cstr mem) (cells idx) (cells j) := by
  cases hp : s.cells right with
  | none =>
    obtain ⟨hval, hcells⟩ := partition_of_none mem left hp
    dsimp only
    rw [hval, hcells]
    refine ⟨Reduces.of_rearranges (Rearranges.swap ⟨le_refl left, by omega⟩ ⟨h, by omega⟩),
      fun i j hi hij => by omega, fun j _ _ => ?_⟩
    rw [comp_swap_left, hp]
    exact below_none_left _ _
  | some pivot =>
    have hsift := partition_of_some mem h hp
    have hpivot := mem_present.mpr ⟨right, h, Int.lt_succ right, hp⟩
    exact ⟨hsift.reduces hpivot, hsift.below, hsift.below_middle⟩

/-- **The sort leaves strictly increasing strings**, with `NULL` cells in between, and loses
none. -/
theorem quicksortRecursive_distills (mem : Mem) (left right : ℤ)
    (s : Machine Call (Option Ptr)) :
    Distills (cstr mem) left (right + 1) s.cells
      ((quicksortRecursive mem left right).exec s).cells := by
  revert s
  induction left, right using range_induction with
  | step left right ih =>
    intro s
    rcases lt_or_ge left right with h | h
    · obtain ⟨hlo, hhi⟩ := partition_bounds mem h.le s
      obtain ⟨hreduces, hlow, hhigh⟩ := partition_splits mem h.le s
      rw [quicksortRecursive_of_lt mem h]
      simp only [Prog.bind_exec]
      generalize (partition mem left right).val s = idx at *
      generalize (partition mem left right).exec s = s₁ at *
      have hleft := ih left (idx - 1) (by omega) ((int (idx - 1)).exec s₁)
      have hright := ih (idx + 1) right (by omega) ((int (idx + 1)).exec
        ((quicksortRecursive mem left (idx - 1)).exec ((int (idx - 1)).exec s₁)))
      rw [Int.sub_add_cancel, int_cells] at hleft
      rw [int_cells] at hright
      exact Distills.glue hlo (Int.lt_add_one_iff.mpr hhi) hreduces hlow hhigh hleft hright
    · rw [quicksortRecursive_of_le mem h]
      exact Distills.of_le (by omega)

theorem quicksortRecursive_local (mem : Mem) (left right : ℤ) :
    Local (Set.Icc left right) (quicksortRecursive mem left right) := by
  induction left, right using range_induction with
  | step left right ih =>
    rcases lt_or_ge left right with h | h
    · rw [quicksortRecursive_of_lt mem h]
      refine (partition_local mem h.le).bind fun s => ?_
      obtain ⟨hlo, hhi⟩ := partition_bounds mem h.le s
      refine (int_local _ _).bind fun _ => ?_
      refine ((ih left _ (by omega)).mono (Set.Icc_subset_Icc_right (by omega))).bind fun _ => ?_
      refine (int_local _ _).bind fun _ => ?_
      exact (ih _ right (by omega)).mono (Set.Icc_subset_Icc_left (by omega))
    · rw [quicksortRecursive_of_le mem h]
      exact Local.pure _ _

/-- The recursion reports the numbers next to a pivot, which may lie outside the range. -/
theorem quicksortRecursive_keeps {R : Set ℤ} {Q : Call → Prop} {lo up : ℤ}
    (hQ : SortNotes (fun _ => True) Q lo up) (mem : Mem) (left right : ℤ) (hlo : lo < left)
    (hup : right < up) : Keeps R (fun _ => True) Q (quicksortRecursive mem left right) := by
  induction left, right using range_induction with
  | step left right ih =>
    rcases lt_or_ge left right with h | h
    · rw [quicksortRecursive_of_lt mem h]
      refine (partition_keeps hQ h.le hlo.le hup.le).bind fun s _ => ?_
      obtain ⟨hl, hr⟩ := partition_bounds mem h.le s
      refine (Keeps.note (hQ.int _ (by omega) (by omega))).bind fun _ _ => ?_
      refine (ih left _ (by omega) hlo (by omega)).bind fun _ _ => ?_
      refine (Keeps.note (hQ.int _ (by omega) (by omega))).bind fun _ _ => ?_
      exact ih _ right (by omega) (by omega) hup
    · rw [quicksortRecursive_of_le mem h]
      exact Keeps.pure _

/-! ## SequentialSortUniqueWords -/

/-- One turn of the loop that moves the words to the front; it returns the new `j`. -/
def compactTurn (i j : ℕ) : CProg (Option Ptr) ℕ := do
  let word ← load i
  if word ≠ none then do
    let word ← load i
    store j word
    int (j + 1)
    int (i + 1)
    pure (j + 1)
  else do
    int (i + 1)
    pure j

/-- The loop that moves the words to the front; it returns `j`. -/
def compactWords (count : ℕ) : CProg (Option Ptr) ℕ :=
  forEach (List.range count) 0 compactTurn

/-- `SequentialSortUniqueWords`; it returns the new `*count`. -/
def sequentialSortUniqueWords (mem : Mem) (count : ℕ) : CProg (Option Ptr) ℕ :=
  if count ≤ 1 then pure count
  else do
    quicksortRecursive mem 0 (toInt (count - 1))
    compactWords count

section Compact

/-- The state of the loop when `i` cells have been looked at; `w` is the array it started
from. -/
structure CompactInv (w : ℤ → Option Ptr) (i j : ℕ) (s : Machine Call (Option Ptr)) : Prop where
  /-- `j` counts the words found -/
  count : j = (present w 0 i).length
  /-- they stand at the front -/
  front : slice s.cells 0 j = (present w 0 i).map some
  /-- it never overtakes the loop -/
  behind : j ≤ i
  /-- the rest of the array is as it was -/
  rest : ∀ k : ℤ, i ≤ k → s.cells k = w k

theorem compactTurn_inv {w : ℤ → Option Ptr} {i j : ℕ} {s : Machine Call (Option Ptr)}
    (h : CompactInv w i j s) :
    CompactInv w (i + 1) ((compactTurn i j).val s) ((compactTurn i j).exec s) := by
  have hcell : s.cells i = w i := h.rest i (le_refl _)
  have hsucc := present_succ (w := w) (Int.natCast_nonneg i)
  cases hw : w i with
  | none =>
    rw [hw] at hcell hsucc
    have hval : (compactTurn i j).val s = j := by simp [compactTurn, hcell]
    have hcells : ((compactTurn i j).exec s).cells = s.cells := by simp [compactTurn, hcell]
    rw [Option.toList_none, List.append_nil] at hsucc
    rw [hval]
    refine ⟨?_, ?_, h.behind.trans (Nat.le_succ i), fun k hk => ?_⟩
    · rw [Nat.cast_succ, hsucc]
      exact h.count
    · rw [Nat.cast_succ, hsucc, hcells]
      exact h.front
    · rw [hcells]
      exact h.rest k (by omega)
  | some word =>
    rw [hw] at hcell hsucc
    have hval : (compactTurn i j).val s = j + 1 := by simp [compactTurn, hcell]
    have hcells : ((compactTurn i j).exec s).cells = Function.update s.cells j (some word) := by
      simp [compactTurn, hcell]
    rw [Option.toList_some] at hsucc
    rw [hval]
    refine ⟨?_, ?_, Nat.succ_le_succ h.behind, fun k hk => ?_⟩
    · rw [Nat.cast_succ, hsucc, List.length_append, ← h.count, List.length_singleton]
    · rw [Nat.cast_succ, Nat.cast_succ, hsucc, List.map_append, ← h.front, hcells,
        slice_update_right (Int.natCast_nonneg j)]
      rfl
    · have hbehind := h.behind
      rw [hcells, Function.update_of_ne (by omega)]
      exact h.rest k (by omega)

/-- **The last loop keeps what is present**, though it writes to the array it reads. -/
theorem compactWords_inv (n : ℕ) (s : Machine Call (Option Ptr)) :
    CompactInv s.cells n ((compactWords n).val s) ((compactWords n).exec s) :=
  forEach_range_inv (I := fun i j s' => CompactInv s.cells i j s')
    ⟨rfl, rfl, le_refl 0, fun _ _ => rfl⟩ fun _ _ _ _ h => compactTurn_inv h

theorem compactTurn_val_le {i j : ℕ} (h : j ≤ i) (s : Machine Call (Option Ptr)) :
    (compactTurn i j).val s ≤ i + 1 := by
  rw [compactTurn, Prog.bind_val, Prog.ite_val]
  split
  · exact Nat.succ_le_succ h
  · exact h.trans (Nat.le_succ i)

theorem compactWords_local (n : ℕ) : Local (Set.Ico 0 (n : ℤ)) (compactWords n) := by
  refine (Local.forEach_range (I := fun i j => j ≤ i) (le_refl 0) fun i j hi hj => ?_).1
  have hcell : (i : ℤ) ∈ Set.Ico 0 (n : ℤ) := ⟨by omega, by omega⟩
  have hfront : (j : ℤ) ∈ Set.Ico 0 (n : ℤ) := ⟨by omega, by omega⟩
  refine ⟨?_, fun s => ?_⟩
  · refine (Local.load hcell).bind fun _ => Local.ite (fun _ => ?_) fun _ =>
      (int_local _ _).bind fun _ => Local.pure _ _
    refine (Local.load hcell).bind fun _ => (Local.store hfront _).bind fun _ => ?_
    exact (int_local _ _).bind fun _ => (int_local _ _).bind fun _ => Local.pure _ _
  · exact compactTurn_val_le hj s

theorem compactWords_keeps {R : Set ℤ} {Q : Call → Prop} {lo : ℤ} {n : ℕ}
    (hQ : SortNotes (fun _ => True) Q lo n) (hlo : lo ≤ 0) :
    Keeps R (fun _ => True) Q (compactWords n) := by
  refine Keeps.forEach_range (I := fun i j => j ≤ i) (le_refl 0) fun i j hi hj => ⟨?_, fun s => ?_⟩
  · have hnext : Keeps R (fun _ => True) Q (int (i + 1) : CProg (Option Ptr) PUnit) :=
      Keeps.note (hQ.int _ (by omega) (by omega))
    refine (Keeps.load _).bind fun _ _ => Keeps.ite (fun _ => ?_) fun _ =>
      hnext.bind fun _ _ => Keeps.pure _
    refine (Keeps.load _).bind fun _ _ => (Keeps.store fun _ => trivial).bind fun _ _ => ?_
    refine (Keeps.note (hQ.int _ (by omega) (by omega))).bind fun _ _ => ?_
    exact hnext.bind fun _ _ => Keeps.pure _
  · exact compactTurn_val_le hj s

end Compact

section SequentialSortUniqueWords

variable {mem : Mem} {ws : List Ptr} {s : Machine Call (Option Ptr)}

/-- Sorting and compacting the words `ws`. -/
theorem sequentialSortUniqueWords_spec (mem : Mem) (hcount : ws.length < 2 ^ 31)
    (hwords : slice s.cells 0 ws.length = ws.map some) :
    ∃ ps : List Ptr,
      (sequentialSortUniqueWords mem ws.length).val s = ps.length ∧
      slice ((sequentialSortUniqueWords mem ws.length).exec s).cells 0 ps.length = ps.map some ∧
      (ps.map (cstr mem)).Pairwise (· < ·) ∧
      (∀ t, t ∈ ps.map (cstr mem) ↔ t ∈ ws.map (cstr mem)) ∧ ∀ p ∈ ps, p ∈ ws := by
  have hpresent := present_of_slice hwords
  rcases le_or_gt ws.length 1 with hle | hlt
  · -- at most one word: nothing is done
    rw [sequentialSortUniqueWords, if_pos hle]
    refine ⟨ws, rfl, hwords, ?_, fun _ => Iff.rfl, fun _ h => h⟩
    rcases Nat.le_one_iff_eq_zero_or_eq_one.mp hle with h | h
    · rw [List.length_eq_zero_iff.mp h]
      exact List.Pairwise.nil
    · obtain ⟨p, rfl⟩ := List.length_eq_one_iff.mp h
      exact List.pairwise_singleton _ _
  · have hint : toInt (ws.length - 1) + 1 = ws.length := by
      rw [toInt_of_lt (by omega)]
      omega
    have hsort := quicksortRecursive_distills mem 0 (toInt (ws.length - 1)) s
    rw [hint] at hsort
    rw [sequentialSortUniqueWords, if_neg (not_le.mpr hlt), Prog.bind_val, Prog.bind_exec]
    generalize (quicksortRecursive mem 0 (toInt (ws.length - 1))).exec s = s₁ at *
    have hcompact := compactWords_inv ws.length s₁
    refine ⟨present s₁.cells 0 ws.length, hcompact.count, ?_, ?_, fun t => ?_, fun p hp => ?_⟩
    · rw [← hcompact.count]
      exact hcompact.front
    · rw [List.pairwise_map]
      exact hsort.strict.pairwise
    · rw [List.mem_map, List.mem_map]
      refine ⟨?_, ?_⟩
      · rintro ⟨p, hp, rfl⟩
        rw [← hpresent]
        exact ⟨p, hsort.reduces.sub p hp, rfl⟩
      · rintro ⟨p, hp, rfl⟩
        rw [← hpresent] at hp
        exact hsort.reduces.keeps p hp
    · rw [← hpresent]
      exact hsort.reduces.sub p hp

/-- Sorting and compacting touch the words only. -/
theorem sequentialSortUniqueWords_local (mem : Mem) (count : ℕ) :
    Local (Set.Ico 0 (count : ℤ)) (sequentialSortUniqueWords mem count) := by
  refine Local.ite (fun _ => Local.pure _ _) fun hlt => ?_
  refine ((quicksortRecursive_local mem 0 _).mono fun i hi => ?_).bind fun _ =>
    compactWords_local count
  obtain ⟨hlo, hhi⟩ := hi
  have hint := toInt_le (count - 1)
  exact ⟨hlo, by omega⟩

/-- What is reported lies within one of the indices of the words. -/
theorem sequentialSortUniqueWords_keeps {R : Set ℤ} {Q : Call → Prop} {count : ℕ}
    (hQ : SortNotes (fun _ => True) Q (-1) count) (mem : Mem) :
    Keeps R (fun _ => True) Q (sequentialSortUniqueWords mem count) := by
  refine Keeps.ite (fun _ => Keeps.pure _) fun hlt => ?_
  have hint := toInt_le (count - 1)
  refine (quicksortRecursive_keeps hQ mem 0 _ (by omega) (by omega)).bind fun _ _ => ?_
  exact compactWords_keeps hQ (by omega)

/-- **The baseline sort is correct**: of the words `ws` it leaves one pointer for each
distinct string, in `strcmp` order. -/
theorem sequentialSortUniqueWords_correct (mem : Mem) (hcount : ws.length < 2 ^ 31)
    (hwords : slice s.cells 0 ws.length = ws.map some) :
    (sequentialSortUniqueWords mem ws.length).val s = (ws.map (cstr mem)).toFinset.card ∧
      ∃ ps : List Ptr,
        slice ((sequentialSortUniqueWords mem ws.length).exec s).cells 0
          ((sequentialSortUniqueWords mem ws.length).val s) = ps.map some ∧
        ps.Pairwise (fun a b => strcmpAt mem a b < 0) ∧
        (∀ t, t ∈ ps.map (cstr mem) ↔ t ∈ ws.map (cstr mem)) ∧ ∀ p ∈ ps, p ∈ ws := by
  obtain ⟨ps, hval, hfront, hlt, hmem, hsub⟩ := sequentialSortUniqueWords_spec mem hcount hwords
  refine ⟨?_, ps, ?_, ?_, hmem, hsub⟩
  · have hset : (ps.map (cstr mem)).toFinset = (ws.map (cstr mem)).toFinset := by
      ext t
      rw [List.mem_toFinset, List.mem_toFinset, hmem]
    have hnodup : (ps.map (cstr mem)).Nodup := hlt.imp fun h => h.ne
    rw [hval, ← hset, List.toFinset_card_of_nodup hnodup, List.length_map]
  · rw [hval]
    exact hfront
  · rw [List.pairwise_map] at hlt
    exact hlt.imp fun h => strcmpAt_neg_iff.mpr h

/-- The words `b`, `a`, `b`: two are left. -/
theorem sequentialSortUniqueWords_correct_three :
    (sequentialSortUniqueWords [98, 0, 97, 0, 98, 0] [0, 2, 4].length).val
      ⟨fun i => some (2 * i).toNat, []⟩ = 2 :=
  (sequentialSortUniqueWords_correct [98, 0, 97, 0, 98, 0] (by decide) rfl).1.trans (by decide)

end SequentialSortUniqueWords

end Baseline

end EfficientDictionary
