import EfficientDictionary.Guard
import EfficientDictionary.Segment

/-!
# Writing and reading stretches of an array

`storeAll` writes a stretch of cells, as `memcpy` does to its target, and `loadAll` reads
one. The lemmas say what the array holds afterwards, in terms of its slices, and what the
trace shows.
-/

namespace EfficientDictionary

universe u v

variable {ε : Type u} {α : Type v}

/-- Write `f 0, …, f (n - 1)` to the cells from `dst` on. -/
def storeAll (dst : ℤ) (n : ℕ) (f : ℕ → α) : Prog ε α PUnit :=
  forEach (List.range n) ⟨⟩ fun k _ => store (dst + k) (f k)

/-- Read `n` cells from `src` on. -/
def loadAll (src : ℤ) (n : ℕ) : Prog ε α (List α) :=
  forEach (List.range n) [] fun k as => do
    let a ← load (src + k)
    pure (as ++ [a])

theorem storeAll_cells (dst : ℤ) (n : ℕ) (f : ℕ → α) (s : Machine ε α) (i : ℤ) :
    ((storeAll dst n f).exec s).cells i =
      if dst ≤ i ∧ i < dst + n then f (i - dst).toNat else s.cells i := by
  refine forEach_range_inv (I := fun k _ s' => s'.cells i =
    if dst ≤ i ∧ i < dst + k then f (i - dst).toNat else s.cells i) ?_ ?_
  · rw [if_neg (by omega)]
  · rintro k _ s' _ h
    rw [store_exec]
    dsimp only
    rw [Function.update_apply, h]
    split_ifs with heq hin hin hin
    · rw [heq, add_sub_cancel_left, Int.toNat_natCast]
    · omega
    · rfl
    · omega
    · omega
    · rfl

/-- The stretch written holds what was written. -/
theorem slice_storeAll (dst : ℤ) (n : ℕ) (f : ℕ → α) (s : Machine ε α) :
    slice ((storeAll dst n f).exec s).cells dst (dst + n) = (List.range n).map f := by
  rw [slice, add_sub_cancel_left, Int.toNat_natCast]
  refine List.map_congr_left fun k hk => ?_
  have hk' := List.mem_range.mp hk
  rw [storeAll_cells, if_pos (by omega), add_sub_cancel_left, Int.toNat_natCast]

/-- A stretch apart from the one written keeps its content. -/
theorem slice_storeAll_of_disjoint {dst l r : ℤ} {n : ℕ} (h : r ≤ dst ∨ dst + n ≤ l)
    (f : ℕ → α) (s : Machine ε α) :
    slice ((storeAll dst n f).exec s).cells l r = slice s.cells l r :=
  slice_congr fun i hl hr => by rw [storeAll_cells, if_neg (by omega)]

theorem storeAll_notes (dst : ℤ) (n : ℕ) (f : ℕ → α) (s : Machine ε α) :
    notes ((storeAll dst n f).exec s).trace = notes s.trace := by
  have hnotes := notes_forEach_range (f := fun k _ => store (dst + k) (f k)) (g := fun _ => [])
    (fun _ _ _ => rfl) n ⟨⟩ s
  rwa [List.flatMap_eq_nil_iff.mpr fun _ _ => rfl] at hnotes

/-- Each cell of the stretch is written once. -/
theorem stores_storeAll (dst : ℤ) (n : ℕ) (f : ℕ → α) (s : Machine ε α) :
    stores ((storeAll dst n f).exec s).trace =
      (slice id dst (dst + n)).reverse ++ stores s.trace := by
  refine forEach_range_inv (I := fun k _ s' =>
    stores s'.trace = (slice id dst (dst + k)).reverse ++ stores s.trace) ?_ ?_
  · rw [Nat.cast_zero, add_zero, slice_of_le (le_refl dst)]
    rfl
  · rintro k _ s' _ h
    rw [stores_store, h, Nat.cast_succ, ← add_assoc, slice_succ_right (by omega),
      List.reverse_append]
    rfl

theorem count_storeAll (dst : ℤ) (n : ℕ) (f : ℕ → α) (s : Machine ε α) (i : ℤ) :
    (stores ((storeAll dst n f).exec s).trace).count i =
      (if dst ≤ i ∧ i < dst + n then 1 else 0) + (stores s.trace).count i := by
  rw [stores_storeAll, List.count_append, List.count_reverse, count_slice_id]

/-- The stores to the stretch, each of them. -/
theorem mem_storeAll {dst i : ℤ} {n : ℕ} {f : ℕ → α} {s : Machine ε α} :
    .store i ∈ ((storeAll dst n f).exec s).trace ↔
      (dst ≤ i ∧ i < dst + n) ∨ .store i ∈ s.trace := by
  rw [← mem_stores, stores_storeAll, List.mem_append, List.mem_reverse, mem_slice_id, mem_stores]

theorem loadAll_notes (src : ℤ) (n : ℕ) (s : Machine ε α) :
    notes ((loadAll src n : Prog ε α (List α)).exec s).trace = notes s.trace := by
  have hnotes := notes_forEach_range (g := fun _ => [])
    (f := fun k as => do let a ← load (src + k); pure (as ++ [a]))
    (fun _ _ _ => rfl) n ([] : List α) s
  rwa [List.flatMap_eq_nil_iff.mpr fun _ _ => rfl] at hnotes

theorem loadAll_spec (src : ℤ) (n : ℕ) (s : Machine ε α) :
    (loadAll src n).val s = slice s.cells src (src + n) ∧
      ((loadAll src n : Prog ε α (List α)).exec s).cells = s.cells ∧
      ∀ i, .store i ∈ ((loadAll src n : Prog ε α (List α)).exec s).trace ↔ .store i ∈ s.trace := by
  refine forEach_range_inv (I := fun k as s' => as = slice s.cells src (src + k) ∧
    s'.cells = s.cells ∧ ∀ i, .store i ∈ s'.trace ↔ .store i ∈ s.trace) ?_ ?_
  · refine ⟨?_, rfl, fun _ => Iff.rfl⟩
    rw [Nat.cast_zero, add_zero, slice_of_le (le_refl src)]
  · rintro k as s' _ ⟨rfl, hcells, hstores⟩
    refine ⟨?_, hcells, fun i => ?_⟩
    · rw [Nat.cast_succ, ← add_assoc, slice_succ_right (by omega), ← hcells]
      rfl
    · rw [← hstores i]
      simp

end EfficientDictionary
