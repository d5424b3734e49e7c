import EfficientDictionary.SortTasks

/-!
# The parallel partition, one memory access at a time

`par_sort_partition` with both of its parallel loops cut into single accesses: the turns of
the counting loop write `nL`, `nE` and `nG` while they read the words, the prefix sums are
taken in place, and the turns of the copying loop write `temp` at places that depend on what
was counted. Then `quicksort_parallel`, whose sibling tasks run such partitions at the same
time.

What keeps the turns apart are the rights each of them needs. In the counting loop they are
read off the text. In the copying loop they depend on the words: a turn writes the places of
the words of its chunk, and no place is used twice.
-/

namespace EfficientDictionary

/-! ## Rights -/

section PartRights

variable (mem : Mem) (π : List Bool) (left right ws : ℤ)

/-- What a turn of the counting loop needs: its own counts, and to read the words. -/
def countRights (id : ℕ) : Rights Loc where
  writes := Set.range fun c => Loc.count π c id
  reads := Loc.word '' Set.Ico left right

/-- What a turn of the copying loop needs: the places of its words, and to read the words and
its own prefix sums. -/
def scatterRights (place : ℤ → ℤ) (id : ℕ) : Rights Loc where
  writes := (fun j => Loc.temp π (place j)) ''
    Set.Ico (cut left right ws id) (cut left right ws (id + 1))
  reads := Loc.word '' Set.Ico left right ∪ Set.range fun c => Loc.sum π c id

/-- The array location `x` belongs to a call at `π` or below. -/
def Loc.Below (π : List Bool) : Loc → Prop
  | .word _ => False
  | .count π' _ _ => π <+: π'
  | .sum π' _ _ => π <+: π'
  | .temp π' _ => π <+: π'

/-- What a call of `quicksort_parallel_recursive` needs: the words of its range, and the
arrays of the partitions that it and the calls below it make. -/
def taskRights : Rights Loc := Rights.all (Loc.word '' Set.Ico left right ∪ {x | x.Below π})

variable {π left right ws}

theorem word_mem_taskRights {i : ℤ} (h : left ≤ i ∧ i < right) :
    Loc.word i ∈ (taskRights π left right).writes :=
  Or.inl (Set.mem_image_of_mem Loc.word h)

theorem word_notMem_taskRights {i : ℤ} (h : ¬ (left ≤ i ∧ i < right)) :
    Loc.word i ∉ (taskRights π left right).writes := by
  rintro (⟨j, hj, heq⟩ | hbelow)
  · rw [Loc.word.inj heq] at hj
    exact h hj
  · exact hbelow

/-- Turns of the counting loop leave each other alone. -/
theorem countRights_apart {id id' : ℕ} (h : id ≠ id') :
    (countRights π left right id).Apart (countRights π left right id') where
  writes := by
    rw [Set.disjoint_left]
    rintro x ⟨c, rfl⟩ ⟨c', heq⟩
    have hid : (id' : ℤ) = id := (Loc.count.inj heq).2.2
    exact h (by omega)
  first := by
    rw [Set.disjoint_left]
    rintro x ⟨c, rfl⟩ ⟨i, _, heq⟩
    exact Loc.noConfusion heq
  second := by
    rw [Set.disjoint_left]
    rintro x ⟨i, _, rfl⟩ ⟨c, heq⟩
    exact Loc.noConfusion heq

/-- Turns of the copying loop leave each other alone, because no place is used twice. -/
theorem scatterRights_apart {place : ℤ → ℤ} (hle : left ≤ right) (hws : 0 ≤ ws)
    (hplace : ∀ i j, left ≤ i ∧ i < right → left ≤ j ∧ j < right → place i = place j → i = j)
    {id id' : ℕ} (h : id < id') :
    (scatterRights π left right ws place id).Apart (scatterRights π left right ws place id') where
  writes := by
    rw [Set.disjoint_left]
    rintro x ⟨i, hi, rfl⟩ ⟨j, hj, heq⟩
    have hlo := left_le_cut hle hws id
    have hhi := cut_le_right left right ws (id' + 1)
    have hcut : cut left right ws (id + 1) ≤ cut left right ws id' :=
      cut_mono left right hws (Nat.succ_le_of_lt h)
    have hi₁ := hi.1
    have hi₂ := hi.2
    have hj₁ := hj.1
    have hj₂ := hj.2
    have hij := hplace j i ⟨by omega, by omega⟩ ⟨by omega, by omega⟩ (Loc.temp.inj heq).2
    omega
  first := by
    rw [Set.disjoint_left]
    rintro x ⟨i, _, rfl⟩ (⟨j, _, heq⟩ | ⟨c, heq⟩)
    · exact Loc.noConfusion heq
    · exact Loc.noConfusion heq
  second := by
    rw [Set.disjoint_left]
    rintro x (⟨j, _, rfl⟩ | ⟨c, rfl⟩) ⟨i, _, heq⟩
    · exact Loc.noConfusion heq
    · exact Loc.noConfusion heq

theorem countRights_within (id : ℕ) :
    (countRights π left right id).Within (taskRights π left right) where
  writes := by
    rintro x ⟨c, rfl⟩
    exact Or.inr (List.prefix_refl π)
  reads := Set.subset_union_left

theorem scatterRights_within (place : ℤ → ℤ) (id : ℕ) :
    (scatterRights π left right ws place id).Within (taskRights π left right) where
  writes := by
    rintro x ⟨i, _, rfl⟩
    exact Or.inr (List.prefix_refl π)
  reads := by
    rintro x (hx | ⟨c, rfl⟩)
    · exact Or.inl hx
    · exact Or.inr (List.prefix_refl π)

theorem wordRights_within_taskRights :
    (wordRights (Set.Ico left right)).Within (taskRights π left right) :=
  Rights.Within.all Set.subset_union_left

/-- The rights of a sibling task are among those of its parent. -/
theorem taskRights_within {l r : ℤ} (b : Bool) (hl : left ≤ l) (hr : r ≤ right) :
    (taskRights (π ++ [b]) l r).Within (taskRights π left right) := by
  refine Rights.Within.all (Set.union_subset_union (Set.image_mono (Set.Ico_subset_Ico hl hr)) ?_)
  intro x hx
  have hπ := List.prefix_append π [b]
  cases x with
  | word i => exact hx
  | count π' c id => exact hπ.trans hx
  | sum π' c id => exact hπ.trans hx
  | temp π' k => exact hπ.trans hx

/-- Siblings leave each other alone: their ranges are disjoint, and their partitions allocate
arrays of their own. -/
theorem taskRights_apart {l r l' r' : ℤ} (h : r ≤ l') :
    (taskRights (π ++ [true]) l r).Apart (taskRights (π ++ [false]) l' r') := by
  have hpath : ∀ π', π ++ [true] <+: π' → ¬ π ++ [false] <+: π' := by
    rintro π' ⟨t, rfl⟩ ⟨t', heq⟩
    rw [List.append_assoc, List.append_assoc] at heq
    exact Bool.false_ne_true (List.cons.inj (List.append_cancel_left heq)).1
  refine Rights.Apart.all (Set.disjoint_left.mpr ?_)
  rintro x (⟨i, hi, rfl⟩ | hx) (⟨j, hj, heq⟩ | hx')
  · have hij := Loc.word.inj heq
    have hi₂ := hi.2
    have hj₁ := hj.1
    omega
  · exact hx'
  · rw [← heq] at hx
    exact hx
  · cases x with
    | word i => exact hx
    | count π' c id => exact hpath π' hx hx'
    | sum π' c id => exact hpath π' hx hx'
    | temp π' k => exact hpath π' hx hx'

end PartRights

/-! ## The parts of par_sort_partition -/

section Parts

variable {mem : Mem} {D : Bodies Loc Loc.Content SortCall} {ρ : Rights Loc} {π : List Bool}
  {pivot : Ptr} {left right ws lo hi : ℤ}

theorem int_effect {v : ℤ} (hv : IsInt v) (w : SortMemory) : Effect D ρ (Tasks.int v) w ⟨⟩ w := by
  rw [Tasks.int, if_pos hv]
  exact Effect.pure _ _ w

theorem loadWord_effect {i : ℤ} (h : Loc.word i ∈ ρ.reads) (w : SortMemory) :
    Effect D ρ (Tasks.loadWord i) w (words w i) w := Effect.load h w

theorem storeCount_effect {c : Side} {id : ℤ} (h : Loc.count π c id ∈ ρ.writes) (n : ℤ)
    (w : SortMemory) :
    Effect D ρ (Tasks.storeCount π c id n) w ⟨⟩ (Function.update w (Loc.count π c id) n) :=
  Effect.store h n w

theorem loadCount_effect {c : Side} {id : ℤ} (h : Loc.count π c id ∈ ρ.reads)
    (w : SortMemory) : Effect D ρ (Tasks.loadCount π c id) w (w (Loc.count π c id)) w :=
  Effect.load h w

theorem storeSum_effect {c : Side} {id : ℤ} (h : Loc.sum π c id ∈ ρ.writes) (n : ℤ)
    (w : SortMemory) :
    Effect D ρ (Tasks.storeSum π c id n) w ⟨⟩ (Function.update w (Loc.sum π c id) n) :=
  Effect.store h n w

theorem loadSum_effect {c : Side} {id : ℤ} (h : Loc.sum π c id ∈ ρ.reads) (w : SortMemory) :
    Effect D ρ (Tasks.loadSum π c id) w (w (Loc.sum π c id)) w :=
  Effect.load h w

theorem storeTemp_effect {k : ℤ} (h : Loc.temp π k ∈ ρ.writes) (a : Ptr) (w : SortMemory) :
    Effect D ρ (Tasks.storeTemp π k a) w ⟨⟩ (Function.update w (Loc.temp π k) a) :=
  Effect.store h a w

theorem loadTemp_effect {k : ℤ} (h : Loc.temp π k ∈ ρ.reads) (w : SortMemory) :
    Effect D ρ (Tasks.loadTemp π k) w (w (Loc.temp π k)) w := Effect.load h w

theorem storeWord_effect {i : ℤ} (h : Loc.word i ∈ ρ.writes) (a : Ptr) (w : SortMemory) :
    Effect D ρ (Tasks.storeWord i a) w ⟨⟩ (setWords w (Function.update (words w) i a)) := by
  rw [← update_word]
  exact Effect.store h a w

theorem between_eq (mem : Mem) (a b c : Ptr) (s : Machine Call Ptr) :
    (between mem a b c).val s = Tasks.between mem a b c := by
  rw [Bool.eq_iff_iff, between_val, Tasks.between, Bool.or_eq_true, Bool.and_eq_true,
    Bool.and_eq_true, decide_eq_true_iff, decide_eq_true_iff, decide_eq_true_iff,
    decide_eq_true_iff, strcmpAt_nonpos_iff, strcmpAt_nonpos_iff, strcmpAt_nonpos_iff,
    strcmpAt_nonpos_iff]
  rfl

theorem Follows.between {β : Type} {threads : Choices Threads} {A : Set ℤ} {a b c : Ptr}
    {d : SortCode β} {f : Bool → CProg Ptr β}
    (h : Follows mem threads A d (f (Tasks.between mem a b c))) :
    Follows mem threads A d (EfficientDictionary.between mem a b c >>= f) := by
  intro w s hw
  rw [Prog.bind_val, Prog.bind_exec, between_eq]
  exact h w _ (hw.trans ((between_silent mem a b c).cells s).symm)

theorem parPivotSelect_follows {threads : Choices Threads} (hrange : Set.Ico left right ⊆ indices)
    (h : left < right) :
    Follows mem threads (Set.Ico left right) (Tasks.parPivotSelect mem left right)
      (parPivotSelect mem left right) := by
  have hleft : left ∈ Set.Ico left right := ⟨le_refl left, h⟩
  have hright : right - 1 ∈ Set.Ico left right := ⟨by omega, by omega⟩
  have hmid : parMid left right ∈ Set.Ico left right := parMid_bounds h
  refine (Follows.int (isInt_of_mem (hrange hmid)).1).bind fun _ =>
    (Follows.loadWord hleft).bind fun _ => (Follows.loadWord hmid).bind fun _ =>
    (Follows.loadWord hright).bind fun _ => Follows.between ?_
  refine Follows.ite (fun _ => Follows.pure _ _) fun _ => Follows.between ?_
  exact Follows.ite (fun _ => Follows.pure _ _) fun _ => Follows.pure _ _

/-- The inner loops run over the clipped chunk. -/
theorem codeForRange_chunk {β : Type} (hws : 0 ≤ ws) (id : ℕ) (b : β)
    (body : ℤ → β → SortCode β) :
    Code.forRange (chunkStart left ws id) (chunkEnd left right ws id) b body =
      Code.forRange (cut left right ws id) (cut left right ws (id + 1)) b body := by
  rw [chunkEnd_eq]
  rcases lt_or_ge (chunkStart left ws id) right with h | h
  · rw [chunkStart_of_lt h]
  · obtain ⟨hstart, hend⟩ := cut_of_chunkStart hws h
    rw [hstart, hend, Code.forRange_of_le h, Code.forRange_of_le (le_refl right)]

/-- The bounds of a chunk are `int`s. -/
theorem noteChunk_effect {p : ℤ} (h : ChunksUpTo left right ws p (2 ^ 31 - 1)) {id : ℕ}
    (hid : (id : ℤ) < p) (w : SortMemory) : Effect D ρ (Tasks.noteChunk left ws id) w ⟨⟩ w := by
  obtain ⟨hstart, hend, hlast⟩ := h.bounds hid
  have h0 := h.left_nonneg
  have hint : ∀ v : ℤ, 0 ≤ v → v ≤ 2 ^ 31 - 1 → IsInt v := fun v hlo hup => ⟨by omega, hup⟩
  exact (int_effect (hint _ hstart (by omega)) w).bind
    ((int_effect (hint _ (by omega) (by omega)) w).bind
      ((int_effect (hint _ (by omega) (by omega)) w).bind
        (int_effect (hint _ (by omega) hlast) w)))

/-- So are the indices in it. -/
theorem chunk_isInt {p : ℤ} (h : ChunksUpTo left right ws p (2 ^ 31 - 1)) (id : ℕ) (i : ℤ)
    (hlo : cut left right ws id ≤ i) (hhi : i < cut left right ws (id + 1)) : IsInt i := by
  have hstart := left_le_cut h.left_le h.ws_nonneg id
  have hend := cut_le_right left right ws (id + 1)
  have h0 := h.left_nonneg
  have hright := h.right_le
  exact ⟨by omega, by omega⟩

variable (mem π pivot)

/-- The inner counting loop counts the words of its range. -/
theorem countRange_effect (hle : lo ≤ hi) (hint : ∀ i, lo ≤ i → i < hi → IsInt i)
    (hρ : ∀ i, lo ≤ i → i < hi → Loc.word i ∈ ρ.reads) (w : SortMemory) :
    Effect D ρ (Code.forRange lo hi (fun _ => 0) (Tasks.countWord mem pivot)) w
      (before (sideOf mem pivot) (words w) lo hi) w := by
  have hloop : ∃ b w', Effect D ρ (Code.forRange lo hi (fun _ => 0) (Tasks.countWord mem pivot))
      w b w' ∧ w' = w ∧ b = before (sideOf mem pivot) (words w) lo hi := by
    refine Effect.forRange (I := fun i b w' => w' = w ∧
      b = before (sideOf mem pivot) (words w) lo i) hle
      ⟨rfl, funext fun c => (before_self _ _ _ c).symm⟩ ?_
    rintro i b w' hi hih ⟨rfl, rfl⟩
    refine ⟨_, w', ?_, rfl, update_before (sideOf mem pivot) (words w') hi⟩
    exact (int_effect (hint i hi hih) w').bind
      ((Effect.load (hρ i hi hih) w').bind (Effect.pure ρ _ w'))
  obtain ⟨b, w', hrun, rfl, rfl⟩ := hloop
  exact hrun

/-- Three stores to the counts of a turn. -/
theorem setCounts_effect (id : ℤ) (count : Side → ℤ) (h : ∀ c, Loc.count π c id ∈ ρ.writes)
    (w : SortMemory) :
    ∃ w', Effect D ρ (Tasks.setCounts π id count) w ⟨⟩ w' ∧
      ∀ c, w' (Loc.count π c id) = count c := by
  refine ⟨_, (storeCount_effect (h .less) (count .less) w).bind
    ((storeCount_effect (h .equal) (count .equal) _).bind
      (storeCount_effect (h .greater) (count .greater) _)), fun c => ?_⟩
  cases c <;> simp [Function.update]

/-- A turn of the counting loop counts its chunk. -/
theorem countChunk_effect {p : ℤ} (hchunks : ChunksUpTo left right ws p (2 ^ 31 - 1)) (id : ℕ)
    (hid : (id : ℤ) < p) (w : SortMemory) :
    ∃ w', Effect D (countRights π left right id)
        (Tasks.countChunk mem π pivot left right ws id) w ⟨⟩ w' ∧
      ∀ c, w' (Loc.count π c id) = before (sideOf mem pivot) (words w) (cut left right ws id)
        (cut left right ws (id + 1)) c := by
  have hmem : ∀ c, Loc.count π c id ∈ (countRights π left right id).writes :=
    fun c => Set.mem_range_self c
  have hle := hchunks.left_le
  have hws := hchunks.ws_nonneg
  have hnote := noteChunk_effect (D := D) (ρ := countRights π left right id) hchunks hid w
  rw [Tasks.countChunk]
  split_ifs with h
  · obtain ⟨hstart, hend⟩ := cut_of_chunkStart hws h
    rw [hstart, hend]
    refine ⟨_, hnote.bind ((storeCount_effect (hmem .greater) 0 w).bind
      ((storeCount_effect (hmem .equal) 0 _).bind (storeCount_effect (hmem .less) 0 _))),
      fun c => ?_⟩
    rw [before_self]
    cases c <;> simp [Function.update]
  · rw [codeForRange_chunk hws]
    have hcount := countRange_effect mem pivot (D := D) (ρ := countRights π left right id)
      (cut_mono left right hws (Nat.le_succ id)) (chunk_isInt hchunks id)
      (fun i hlo hhi => Set.mem_image_of_mem Loc.word ⟨(left_le_cut hle hws id).trans hlo,
        hhi.trans_le (cut_le_right left right ws (id + 1))⟩) w
    obtain ⟨w', hset, hcounts⟩ := setCounts_effect π (D := D) (id : ℤ)
      (before (sideOf mem pivot) (words w) (cut left right ws id) (cut left right ws (id + 1)))
      hmem w
    exact ⟨w', hnote.bind (hcount.bind hset), hcounts⟩

/-- The loop over the counts leaves the partial sums and returns the total: they are a
function `g` that starts at `0` and grows by the counts. -/
theorem prefixSums_effect {p : ℕ} {c : Side} (g : ℕ → ℤ) (w : SortMemory)
    (hwrite : ∀ id, Loc.sum π c id ∈ ρ.writes) (hread : ∀ id, Loc.count π c id ∈ ρ.reads)
    (h0 : g 0 = 0) (hstep : ∀ id < p, g (id + 1) = g id + w (Loc.count π c (id : ℕ))) :
    ∃ w', Effect D ρ (Tasks.prefixSums π p c) w (g p) w' ∧
      (∀ id < p, w' (Loc.sum π c (id : ℕ)) = g id) ∧
      ∀ x, (∀ id, x ≠ Loc.sum π c id) → w' x = w x := by
  have hloop : ∃ tot w', Effect D ρ (Tasks.prefixSums π p c) w tot w' ∧ tot = g p ∧
      (∀ id < p, w' (Loc.sum π c (id : ℕ)) = g id) ∧
      ∀ x, (∀ id, x ≠ Loc.sum π c id) → w' x = w x := by
    refine Effect.forEach_range (I := fun k tot w' => tot = g k ∧
      (∀ id < k, w' (Loc.sum π c (id : ℕ)) = g id) ∧
      ∀ x, (∀ id, x ≠ Loc.sum π c id) → w' x = w x) ?_ ?_
    · exact ⟨h0.symm, fun id hid => absurd hid (Nat.not_lt_zero id), fun _ _ => rfl⟩
    · rintro k tot w' hk ⟨rfl, hsums, hrest⟩
      have hcount : w' (Loc.count π c (k : ℕ)) = w (Loc.count π c (k : ℕ)) :=
        hrest _ fun id h => Loc.noConfusion h
      simp only [zero_add]
      refine ⟨_, _, (storeSum_effect (hwrite (k : ℤ)) (g k) w').bind
        ((loadCount_effect (hread (k : ℤ)) _).bind (Effect.pure ρ _ _)), ?_, ?_, ?_⟩
      · rw [Function.update_of_ne fun h => Loc.noConfusion h, hcount, hstep k hk]
      · intro id hid
        rcases Nat.lt_succ_iff_lt_or_eq.mp hid with hlt | rfl
        · have hne : Loc.sum π c (id : ℤ) ≠ Loc.sum π c (k : ℤ) := fun h => by
            have hid' := (Loc.sum.inj h).2.2
            omega
          rw [Function.update_of_ne hne, hsums id hlt]
        · rw [Function.update_self]
      · intro x hx
        rw [Function.update_of_ne (hx k), hrest x hx]
  obtain ⟨tot, w', hrun, rfl, hsums, hrest⟩ := hloop
  exact ⟨w', hrun, hsums, hrest⟩

theorem calloc_effect {p : ℤ} (hp : 0 ≤ p) (c : Side) (w : SortMemory)
    (h : ∀ id, Loc.count π c id ∈ ρ.writes) :
    ∃ w', Effect D ρ (Tasks.calloc π p c) w ⟨⟩ w' ∧
      ∀ x, (∀ id, x ≠ Loc.count π c id) → w' x = w x := by
  obtain ⟨⟨⟩, w', hrun, hrest⟩ : ∃ b w', Effect D ρ (Tasks.calloc π p c) w b w' ∧
      ∀ x, (∀ id, x ≠ Loc.count π c id) → w' x = w x := by
    refine Effect.forRange (I := fun _ _ w' => ∀ x, (∀ id, x ≠ Loc.count π c id) → w' x = w x)
      hp (fun _ _ => rfl) fun id _ w' _ _ hrest => ?_
    refine ⟨_, _, storeCount_effect (h id) 0 w', fun x hx => ?_⟩
    rw [Function.update_of_ne (hx id), hrest x hx]
  exact ⟨w', hrun, hrest⟩

/-- The copy of `temp` in the memory. -/
def temps (π : List Bool) (w : SortMemory) (k : ℤ) : Ptr := w (Loc.temp π k)

theorem temps_update (π : List Bool) (w : SortMemory) (k : ℤ) (a : Ptr) :
    temps π (Function.update w (Loc.temp π k) a) = Function.update (temps π w) k a := by
  funext j
  by_cases hj : j = k
  · rw [hj, Function.update_self]
    exact Function.update_self (Loc.temp π k) a w
  · rw [Function.update_of_ne hj]
    exact Function.update_of_ne (fun h => hj (Loc.temp.inj h).2) a w

/-- The inner copying loop, started with the right cursors, puts the words of its range in
their places. -/
theorem scatterRange_effect {base : Side → ℤ} (w : SortMemory)
    (hlay : Layout (sideOf mem pivot) (words w) left right base) (hle : lo ≤ hi)
    (hlo : left ≤ lo) (hhi : hi ≤ right) (hint : ∀ i, lo ≤ i → i < hi → IsInt i)
    (hread : ∀ i, lo ≤ i → i < hi → Loc.word i ∈ ρ.reads)
    (hwrite : ∀ i, lo ≤ i → i < hi →
      Loc.temp π (place (sideOf mem pivot) (words w) left base i) ∈ ρ.writes) :
    ∃ cursor w', Effect D ρ (Code.forRange lo hi (before (sideOf mem pivot) (words w) left lo)
        (Tasks.scatterWord mem π pivot base)) w cursor w' ∧
      Placed (sideOf mem pivot) (words w) left base (fun j => lo ≤ j ∧ j < hi) (temps π w') := by
  have hloop : ∃ cursor w', Effect D ρ
      (Code.forRange lo hi (before (sideOf mem pivot) (words w) left lo)
        (Tasks.scatterWord mem π pivot base)) w cursor w' ∧
      cursor = before (sideOf mem pivot) (words w) left hi ∧ words w' = words w ∧
      Placed (sideOf mem pivot) (words w) left base (fun j => lo ≤ j ∧ j < hi)
        (temps π w') := by
    refine Effect.forRange (I := fun i cursor w' =>
      cursor = before (sideOf mem pivot) (words w) left i ∧ words w' = words w ∧
      Placed (sideOf mem pivot) (words w) left base (fun j => lo ≤ j ∧ j < i) (temps π w'))
      hle ⟨rfl, rfl, ?_⟩ ?_
    · intro j hj
      omega
    · rintro i cursor w' hi hih ⟨rfl, hwords, hplaced⟩
      have hload := loadWord_effect (D := D) (hread i hi hih) w'
      rw [hwords] at hload
      refine ⟨_, _, (int_effect (hint i hi hih) w').bind (hload.bind (hload.bind
        ((storeTemp_effect (hwrite i hi hih) _ w').bind (Effect.pure ρ _ _)))),
        update_before (sideOf mem pivot) (words w) (by omega), ?_, ?_⟩
      · funext j
        rw [← hwords]
        exact Function.update_of_ne (fun h => Loc.noConfusion h) _ w'
      · rw [temps_update]
        refine (hplaced.put hlay (fun j hj => ⟨by omega, by omega⟩)
          ⟨by omega, by omega⟩).mono fun j hj => ?_
        omega
  obtain ⟨cursor, w', hrun, -, -, hplaced⟩ := hloop
  exact ⟨cursor, w', hrun, hplaced⟩

/-- A turn of the copying loop puts the words of its chunk in their places. -/
theorem scatterChunk_effect {base : Side → ℤ} (w : SortMemory)
    (hlay : Layout (sideOf mem pivot) (words w) left right base) {p : ℤ}
    (hchunks : ChunksUpTo left right ws p (2 ^ 31 - 1)) (id : ℕ) (hid : (id : ℤ) < p)
    (hsums : ∀ c, w (Loc.sum π c (id : ℤ)) =
      before (sideOf mem pivot) (words w) left (cut left right ws id) c) :
    ∃ w', Effect D (scatterRights π left right ws
        (place (sideOf mem pivot) (words w) left base) id)
        (Tasks.scatterChunk mem π pivot base left right ws id) w ⟨⟩ w' ∧
      Placed (sideOf mem pivot) (words w) left base
        (fun j => cut left right ws id ≤ j ∧ j < cut left right ws (id + 1)) (temps π w') := by
  have hle := hchunks.left_le
  have hws := hchunks.ws_nonneg
  have hread : ∀ c, Loc.sum π c (id : ℤ) ∈ (scatterRights π left right ws
      (place (sideOf mem pivot) (words w) left base) id).reads :=
    fun c => Or.inr (Set.mem_range_self c)
  have hcursor : Tasks.bySide (w (Loc.sum π .less (id : ℤ))) (w (Loc.sum π .equal (id : ℤ)))
      (w (Loc.sum π .greater (id : ℤ))) =
        before (sideOf mem pivot) (words w) left (cut left right ws id) := by
    funext c
    rw [← hsums c]
    cases c <;> rfl
  obtain ⟨cursor, w', hrun, hplaced⟩ := scatterRange_effect mem π pivot (D := D)
    (ρ := scatterRights π left right ws (place (sideOf mem pivot) (words w) left base) id) w hlay
    (cut_mono left right hws (Nat.le_succ id)) (left_le_cut hle hws id)
    (cut_le_right left right ws (id + 1)) (chunk_isInt hchunks id)
    (fun i hlo hhi => Or.inl (Set.mem_image_of_mem Loc.word
      ⟨(left_le_cut hle hws id).trans hlo, hhi.trans_le (cut_le_right left right ws (id + 1))⟩))
    fun i hlo hhi => Set.mem_image_of_mem _ ⟨hlo, hhi⟩
  rw [← hcursor, ← codeForRange_chunk hws] at hrun
  exact ⟨w', (noteChunk_effect hchunks hid w).bind ((loadSum_effect (hread .less) w).bind
    ((loadSum_effect (hread .equal) w).bind ((loadSum_effect (hread .greater) w).bind
      (hrun.bind (Effect.pure _ PUnit.unit w'))))), hplaced⟩

/-- The words after `k` turns of the loop that copies `temp` back. -/
def copied (π : List Bool) (left k : ℤ) (w : SortMemory) (i : ℤ) : Ptr :=
  if left ≤ i ∧ i < left + k then temps π w (i - left) else words w i

theorem copied_succ (π : List Bool) (left : ℤ) {k : ℤ} (hk : 0 ≤ k) (w : SortMemory) :
    Function.update (copied π left k w) (left + k) (temps π w k) = copied π left (k + 1) w := by
  funext i
  rw [Function.update_apply, copied, copied]
  split_ifs with heq hin hin hin
  · rw [heq, add_sub_cancel_left]
  · omega
  · rfl
  · omega
  · omega
  · rfl

theorem copyBack_effect {n : ℤ} (hn : 0 ≤ n) (w : SortMemory)
    (hwrite : ∀ i, left ≤ i → i < left + n → Loc.word i ∈ ρ.writes)
    (hread : ∀ k, Loc.temp π k ∈ ρ.reads) :
    Effect D ρ (Tasks.copyBack π left n) w ⟨⟩ (setWords w (copied π left n w)) := by
  obtain ⟨⟨⟩, w', hrun, rfl⟩ : ∃ b w', Effect D ρ (Tasks.copyBack π left n) w b w' ∧
      w' = setWords w (copied π left n w) := by
    refine Effect.forRange (I := fun k _ w' => w' = setWords w (copied π left k w)) hn ?_ ?_
    · have hstart : copied π left 0 w = words w := funext fun i => if_neg (by omega)
      rw [hstart, setWords_words]
    · rintro k ⟨⟩ w' hk hkn rfl
      refine ⟨_, _, (loadTemp_effect (hread k) _).bind
        (storeWord_effect (hwrite (left + k) (by omega) (by omega)) _ _), ?_⟩
      rw [setWords_setWords, words_setWords]
      exact congrArg (setWords w) (copied_succ π left hk w)
  exact hrun

/-- **The counting loop**, all of its turns at the same time. -/
theorem countLoop_effect {p : ℕ} (hchunks : ChunksUpTo left right ws p (2 ^ 31 - 1))
    (w : SortMemory) :
    ∃ w', Effect D (taskRights π left right)
        (Code.parallelFor p (Tasks.countChunk mem π pivot left right ws)) w ⟨⟩ w' ∧
      words w' = words w ∧ ∀ id < p, ∀ c, w' (Loc.count π c (id : ℕ)) =
        before (sideOf mem pivot) (words w) (cut left right ws id) (cut left right ws (id + 1))
          c := by
  have : Nonempty SortMemory := ⟨w⟩
  choose! res hres hcounts using fun (id : ℕ) (hid : id < p) =>
    countChunk_effect mem π pivot (D := D) hchunks id (Int.ofNat_lt.mpr hid) w
  obtain ⟨v, hv, hown, hframe⟩ := Effect.forkAll (fun id _ => countRights_within id)
    (List.nodup_range.imp fun h => countRights_apart h)
    fun id (h : id ∈ List.range p) => hres id (List.mem_range.mp h)
  refine ⟨v, hv, funext fun i => ?_, fun id hid c => ?_⟩
  · refine hframe _ ?_
    rintro id _ ⟨c, heq⟩
    exact Loc.noConfusion heq
  · rw [← hcounts id hid c]
    exact hown id (List.mem_range.mpr hid) _ (Set.mem_range_self c)

/-- The three loops that take the prefix sums. -/
theorem sumLoops_effect (left right : ℤ) {p : ℕ} (g : Side → ℕ → ℤ) (w : SortMemory)
    (h0 : ∀ c, g c 0 = 0)
    (hstep : ∀ id < p, ∀ c, g c (id + 1) = g c id + w (Loc.count π c (id : ℕ))) :
    ∃ w₁ w₂ w₃, Effect D (taskRights π left right) (Tasks.prefixSums π p .less) w (g .less p) w₁ ∧
      Effect D (taskRights π left right) (Tasks.prefixSums π p .equal) w₁ (g .equal p) w₂ ∧
      Effect D (taskRights π left right) (Tasks.prefixSums π p .greater) w₂ (g .greater p) w₃ ∧
      words w₃ = words w ∧ ∀ id < p, ∀ c, w₃ (Loc.sum π c (id : ℕ)) = g c id := by
  have hwrite : ∀ c id, Loc.sum π c id ∈ (taskRights π left right).writes :=
    fun _ _ => Or.inr (List.prefix_refl π)
  have hread : ∀ c id, Loc.count π c id ∈ (taskRights π left right).reads :=
    fun _ _ => Or.inr (List.prefix_refl π)
  obtain ⟨w₁, hrun₁, hsums₁, hrest₁⟩ := prefixSums_effect π (D := D) (g .less) w (hwrite .less)
    (hread .less) (h0 .less) fun id hid => hstep id hid .less
  obtain ⟨w₂, hrun₂, hsums₂, hrest₂⟩ := prefixSums_effect π (D := D) (g .equal) w₁ (hwrite .equal)
    (hread .equal) (h0 .equal) fun id hid => by
      rw [hrest₁ _ fun _ h => Loc.noConfusion h]
      exact hstep id hid .equal
  obtain ⟨w₃, hrun₃, hsums₃, hrest₃⟩ := prefixSums_effect π (D := D) (g .greater) w₂
    (hwrite .greater) (hread .greater) (h0 .greater) fun id hid => by
      rw [hrest₂ _ fun _ h => Loc.noConfusion h, hrest₁ _ fun _ h => Loc.noConfusion h]
      exact hstep id hid .greater
  refine ⟨w₁, w₂, w₃, hrun₁, hrun₂, hrun₃, funext fun i => ?_, fun id hid c => ?_⟩
  · have hword : ∀ c id, Loc.word i ≠ Loc.sum π c id := fun _ _ h => Loc.noConfusion h
    exact ((hrest₃ _ (hword .greater)).trans (hrest₂ _ (hword .equal))).trans
      (hrest₁ _ (hword .less))
  · have hside : ∀ c' id', c ≠ c' → Loc.sum π c id ≠ Loc.sum π c' id' :=
      fun _ _ hne h => hne (Loc.sum.inj h).2.1
    cases c with
    | less =>
      rw [hrest₃ _ fun id' => hside .greater id' nofun, hrest₂ _ fun id' => hside .equal id' nofun,
        hsums₁ id hid]
    | equal => rw [hrest₃ _ fun id' => hside .greater id' nofun, hsums₂ id hid]
    | greater => exact hsums₃ id hid

/-- **The copying loop**, all of its turns at the same time. -/
theorem scatterLoop_effect {base : Side → ℤ} (w : SortMemory)
    (hlay : Layout (sideOf mem pivot) (words w) left right base) {p : ℕ}
    (hchunks : ChunksUpTo left right ws p (2 ^ 31 - 1)) (hcover : right ≤ left + p * ws)
    (hsums : ∀ id < p, ∀ c, w (Loc.sum π c (id : ℕ)) =
      before (sideOf mem pivot) (words w) left (cut left right ws id) c) :
    ∃ w', Effect D (taskRights π left right)
        (Code.parallelFor p (Tasks.scatterChunk mem π pivot base left right ws)) w ⟨⟩ w' ∧
      words w' = words w ∧ ∀ i, left ≤ i → i < right →
        temps π w' (place (sideOf mem pivot) (words w) left base i) = words w i := by
  have hle := hchunks.left_le
  have hws := hchunks.ws_nonneg
  have : Nonempty SortMemory := ⟨w⟩
  choose! res hres hplaced using fun (id : ℕ) (hid : id < p) =>
    scatterChunk_effect mem π pivot (D := D) w hlay hchunks id (Int.ofNat_lt.mpr hid)
      (hsums id hid)
  obtain ⟨v, hv, hown, hframe⟩ := Effect.forkAll
    (fun id _ => scatterRights_within (place (sideOf mem pivot) (words w) left base) id)
    (List.pairwise_lt_range.imp fun h => scatterRights_apart hle hws
      (fun i j hi hj => hlay.place_injOn hi hj) h)
    fun id (h : id ∈ List.range p) => hres id (List.mem_range.mp h)
  refine ⟨v, hv, funext fun i => ?_, fun i hi hir => ?_⟩
  · refine hframe _ ?_
    rintro id _ ⟨j, _, heq⟩
    exact Loc.noConfusion heq
  · obtain ⟨id, hid, hchunk⟩ := inChunks_of_mem hle hws hcover (List.Perm.refl _) ⟨hi, hir⟩
    rw [← hplaced id (List.mem_range.mp hid) i hchunk]
    exact hown id hid _ (Set.mem_image_of_mem _ hchunk)

/-- What `par_sort_partition` does once the pivot is chosen. -/
def Tasks.distribute (mem : Mem) (π : List Bool) (pivot : Ptr) (p left right ws : ℤ) :
    SortCode (ℤ × ℤ) := do
  Tasks.calloc π p .less
  Tasks.calloc π p .equal
  Tasks.calloc π p .greater
  Code.parallelFor p.toNat (Tasks.countChunk mem π pivot left right ws)
  let totL ← Tasks.prefixSums π p .less
  let totE ← Tasks.prefixSums π p .equal
  let totG ← Tasks.prefixSums π p .greater
  Code.parallelFor p.toNat
    (Tasks.scatterChunk mem π pivot (bases (Tasks.bySide totL totE totG)) left right ws)
  Tasks.copyBack π left (right - left)
  pure (left + totL, left + totL + totE)

theorem Tasks.parSortPartition_of_lt (mem : Mem) (threads : ℤ) (π : List Bool)
    (h : 1 < right - left) :
    Tasks.parSortPartition mem threads π left right = (do
      let pivot ← Tasks.parPivotSelect mem left right
      let p := if right - left < threads then right - left else threads
      Tasks.int (right - left + p)
      Tasks.int (right - left + p - 1)
      Tasks.distribute mem π pivot p left right ((right - left + p - 1).tdiv p)) := by
  rw [Tasks.parSortPartition, if_neg (not_le.mpr h)]
  rfl

/-- **The parallel loops compute the stable partition**, however their turns interleave and
whatever the fresh arrays contain. -/
theorem distribute_effect {p : ℕ} (hchunks : ChunksUpTo left right ws p (2 ^ 31 - 1))
    (hcover : right ≤ left + p * ws) (w : SortMemory) :
    ∃ m w', Effect D (taskRights π left right) (Tasks.distribute mem π pivot p left right ws) w m
        w' ∧ Partitions (sideOf mem pivot) left right (words w) (words w') m := by
  have hle := hchunks.left_le
  have hws := hchunks.ws_nonneg
  have hcount : ∀ c id, Loc.count π c id ∈ (taskRights π left right).writes :=
    fun _ _ => Or.inr (List.prefix_refl π)
  have hword : ∀ i c id, Loc.word i ≠ Loc.count π c id := fun _ _ _ h => Loc.noConfusion h
  obtain ⟨w₁, hrun₁, hrest₁⟩ := calloc_effect π (D := D) (Int.natCast_nonneg p) .less w
    (hcount .less)
  obtain ⟨w₂, hrun₂, hrest₂⟩ := calloc_effect π (D := D) (Int.natCast_nonneg p) .equal w₁
    (hcount .equal)
  obtain ⟨w₃, hrun₃, hrest₃⟩ := calloc_effect π (D := D) (Int.natCast_nonneg p) .greater w₂
    (hcount .greater)
  have hwords₃ : words w₃ = words w := funext fun i => ((hrest₃ _ (hword i .greater)).trans
    (hrest₂ _ (hword i .equal))).trans (hrest₁ _ (hword i .less))
  -- counting
  obtain ⟨w₄, hrun₄, hwords₄, hcounts⟩ := countLoop_effect mem π pivot (D := D) hchunks w₃
  rw [hwords₃] at hwords₄ hcounts
  -- the prefix sums count the words before each chunk
  obtain ⟨w₅, w₆, w₇, hrun₅, hrun₆, hrun₇, hwords₇, hsums⟩ := sumLoops_effect π left right (D := D)
    (fun c id => before (sideOf mem pivot) (words w) left (cut left right ws id) c) w₄
    (fun c => by rw [cut_zero hle, before_self]) fun id hid c => by
      rw [hcounts id hid c]
      exact before_add _ _ (left_le_cut hle hws id) (cut_mono left right hws (Nat.le_succ id)) c
  rw [hwords₄] at hwords₇
  have htot : Tasks.bySide (before (sideOf mem pivot) (words w) left right .less)
      (before (sideOf mem pivot) (words w) left right .equal)
      (before (sideOf mem pivot) (words w) left right .greater) =
        before (sideOf mem pivot) (words w) left right := by
    funext c
    cases c <;> rfl
  rw [cut_of_le hcover] at hrun₅ hrun₆ hrun₇
  -- copying to `temp` and back
  have hlay := layout_bases (sideOf mem pivot) (words w) hle
  rw [← hwords₇] at hlay hsums
  obtain ⟨w₈, hrun₈, hwords₈, hplaced⟩ :=
    scatterLoop_effect mem π pivot (D := D) w₇ hlay hchunks hcover hsums
  rw [hwords₇] at hwords₈ hplaced hrun₈
  rw [← htot] at hrun₈
  have hrun₉ := copyBack_effect π (D := D) (ρ := taskRights π left right)
    (by omega : 0 ≤ right - left) w₈ (fun i hi hin => word_mem_taskRights ⟨hi, by omega⟩)
    fun k => Or.inr (List.prefix_refl π)
  refine ⟨_, _, hrun₁.bind (hrun₂.bind (hrun₃.bind (hrun₄.bind (hrun₅.bind (hrun₆.bind
    (hrun₇.bind (hrun₈.bind (hrun₉.bind (Effect.pure _ _ _))))))))), ?_⟩
  refine partitions_of_placed hle hplaced fun i => ?_
  rw [words_setWords, copied, hwords₈]

end Parts

/-! ## par_sort_partition and quicksort_parallel -/

section QuicksortTasks

variable (mem : Mem) (threads : Choices Threads) (threshold : ℤ) (π : List Bool) {left right : ℤ}

/-- The turns of both loops, interleaved, do to the words what any team does that serves them
one after the other. -/
theorem parSortPartition_effect (h : 1 < right - left)
    (hfits : PartitionFits left right (threads π).1) (team : Team) (w : SortMemory)
    {s : Machine Call Ptr} (hw : words w = s.cells) :
    ∃ w', Effect (Tasks.bodies mem threads) (taskRights π left right)
        (Tasks.parSortPartition mem (threads π).1 π left right) w
        ((parSortPartition mem team left right).val s) w' ∧
      words w' = ((parSortPartition mem team left right).exec s).cells := by
  have hrange : Set.Ico left right ⊆ indices := fun i hi =>
    ⟨hfits.left_nonneg.trans hi.1, hi.2.trans_le hfits.right_le⟩
  have hpivot : Effect (Tasks.bodies mem threads) (taskRights π left right)
      (Tasks.parPivotSelect mem left right) w ((parPivotSelect mem left right).val s)
      (setWords w ((parPivotSelect mem left right).exec s).cells) :=
    (parPivotSelect_follows hrange (by omega) w s hw).mono wordRights_within_taskRights
  rw [(parPivotSelect_silent mem left right).cells s, ← hw, setWords_words] at hpivot
  have hpos := (threads π).2
  have hmin : (if right - left < (threads π).1 then right - left else (threads π).1) =
      min (right - left) (threads π).1 := by
    rw [Int.min_def]
    split_ifs <;> omega
  have hsum := hfits.sum_le
  have hchunks := hfits.chunksUpTo h hpos
  have hp : 1 ≤ min (right - left) (threads π).1 := by omega
  have hcover := (chunkSize_spec (by omega : 0 ≤ right - left) hp).2
  rw [Tasks.parSortPartition_of_lt mem _ π h]
  dsimp only
  rw [hmin]
  generalize min (right - left) (threads π).1 = q at *
  obtain ⟨p, rfl⟩ := Int.eq_ofNat_of_zero_le (by omega : 0 ≤ q)
  obtain ⟨m, w', hrun, hpart⟩ := distribute_effect mem π ((parPivotSelect mem left right).val s)
    (D := Tasks.bodies mem threads) hchunks (Int.le_add_of_sub_left_le hcover) w
  have hspec := (parSortPartition_spec mem team h s).1
  rw [hw] at hpart
  obtain ⟨rfl, hcells⟩ := hpart.unique hspec
  have hint : ∀ v : ℤ, 0 ≤ v → v ≤ 2 ^ 31 - 1 → IsInt v := fun v hlo hup => ⟨by omega, hup⟩
  refine ⟨w', hpivot.bind ?_, hcells⟩
  exact (int_effect (hint _ (by omega) hsum) w).bind
    ((int_effect (hint _ (by omega) (by omega)) w).bind hrun)

/-- The tasks do to the words what the sequential program does, in whatever order that runs
them and with whatever numbers of threads. -/
theorem quicksortParallelRecursive_effect (left right : ℤ) (h0 : 0 ≤ left)
    (hthreads : ∀ π, right + (threads π).1 ≤ 2 ^ 31 - 1) (w : SortMemory) :
    ∃ w', Effect (Tasks.bodies mem threads) (taskRights π left right)
        (Tasks.quicksortParallelRecursive mem threads π left right threshold) w ⟨⟩ w' ∧
      ∀ σ s, words w = s.cells →
        words w' = ((quicksortParallelRecursive mem threshold σ left right).exec s).cells := by
  revert π w
  induction left, right using range_induction with
  | step left right ih =>
    intro π w
    have hpos := (threads π).2
    have hπ := hthreads π
    rw [Tasks.quicksortParallelRecursive]
    split_ifs with h hsmall
    · refine ⟨w, Effect.pure _ _ w, fun σ s hw => ?_⟩
      rw [quicksortParallelRecursive_of_le mem threshold σ h]
      exact hw
    · have hwithin : (wordRights (Set.Icc left (right - 1))).Within (taskRights π left right) :=
        Rights.Within.all ((Set.image_mono (Set.Icc_subset_Ico_right (by omega))).trans
          Set.subset_union_left)
      have hindices : Set.Icc left (right - 1) ⊆ indices :=
        fun i hi => ⟨h0.trans hi.1, hi.2.trans_lt (by omega)⟩
      have hrun : Effect (Tasks.bodies mem threads) (taskRights π left right)
          (Tasks.quickSortRecursive mem left (right - 1)) w ⟨⟩ (setWords w
            ((quickSortRecursive mem left (right - 1)).exec ⟨words w, []⟩).cells) :=
        (quickSortRecursive_follows left (right - 1) hindices w ⟨words w, []⟩ rfl).mono hwithin
      have hlast : IsInt (right - 1) := ⟨by omega, by omega⟩
      refine ⟨_, (int_effect hlast w).bind (hrun.call fun _ => rfl), fun σ s hw => ?_⟩
      rw [quicksortParallelRecursive_of_le_threshold mem threshold σ (by omega) hsmall]
      exact ((quickSortRecursive_local mem left (right - 1)).cells_congr hw).2
    · have hlt : 1 < right - left := by omega
      have hfits := PartitionFits.of_threads h0 hpos hπ (le_refl left) (le_refl right) hlt
      obtain ⟨w₁, hpart, hwords⟩ := parSortPartition_effect mem threads π hlt hfits .solo w
        (s := ⟨words w, []⟩) rfl
      have hm := parSortPartition_bounds mem .solo hlt ⟨words w, []⟩
      have hsame : ∀ team s, words w = s.cells →
          (parSortPartition mem .solo left right).val ⟨words w, []⟩ =
              (parSortPartition mem team left right).val s ∧
            words w₁ = ((parSortPartition mem team left right).exec s).cells := by
        intro team s hw
        have hteam := parSortPartition_sameCells mem .solo team hlt ⟨words w, []⟩
        have hcells : (parSortPartition mem team left right).val ⟨words w, []⟩ =
              (parSortPartition mem team left right).val s ∧
            ((parSortPartition mem team left right).exec ⟨words w, []⟩).cells =
              ((parSortPartition mem team left right).exec s).cells :=
          (parSortPartition_local mem team left right).cells_congr hw
        exact ⟨hteam.1.trans hcells.1, (hwords.trans hteam.2).trans hcells.2⟩
      generalize (parSortPartition mem .solo left right).val ⟨words w, []⟩ = m at *
      have hthreads' : ∀ π, m.1 + (threads π).1 ≤ 2 ^ 31 - 1 := fun π =>
        (by omega : m.1 + (threads π).1 ≤ right + (threads π).1).trans (hthreads π)
      obtain ⟨w₂, hleft, hfirst⟩ := ih left m.1 (by omega) h0 hthreads' (π ++ [true]) w₁
      obtain ⟨w₃, hright, hsecond⟩ := ih m.2 right (by omega) (by omega) hthreads (π ++ [false]) w₁
      have hapart : (taskRights (π ++ [true]) left m.1).Apart
          (taskRights (π ++ [false]) m.2 right) := taskRights_apart hm.2.1.le
      obtain ⟨w', hjoin⟩ := exists_joins hapart.writes w₁ w₂ w₃
      refine ⟨w', hpart.bind (Effect.fork (taskRights_within true (le_refl left) (by omega))
        (taskRights_within false (by omega) (le_refl right)) hapart (hleft.call fun _ => rfl)
        (hright.call fun _ => rfl) hjoin), fun σ s hw => ?_⟩
      obtain ⟨hval, hcells⟩ := hsame σ.here.team s hw
      rw [quicksortParallelRecursive_of_tasks mem threshold σ hlt hsmall, Prog.bind_exec, ← hval]
      generalize (parSortPartition mem σ.here.team left right).exec s = s₁ at *
      obtain ⟨hpar, hpar', hrest⟩ := par_cells
        (quicksortParallelRecursive_local mem threshold σ.first left m.1)
        (quicksortParallelRecursive_local mem threshold σ.second m.2 right)
        (ranges_disjoint left right hm.2.1) σ.here.firstFirst s₁
      rw [quicksortParallelTasks]
      funext i
      by_cases hi : i ∈ Set.Ico left m.1
      · rw [hpar i hi, ← hfirst σ.first s₁ hcells]
        exact hjoin.first _ (word_mem_taskRights hi)
      · by_cases hi' : i ∈ Set.Ico m.2 right
        · rw [hpar' i hi', ← hsecond σ.second s₁ hcells]
          exact hjoin.second _ (word_mem_taskRights hi')
        · rw [hrest i hi hi', ← hcells]
          exact hjoin.rest _ (word_notMem_taskRights hi) (word_notMem_taskRights hi')

theorem quicksortParallelWith_effect (n : ℤ) (hthreads : ∀ π, n + (threads π).1 ≤ 2 ^ 31 - 1)
    (w : SortMemory) :
    ∃ w', Effect (Tasks.bodies mem threads) (taskRights [] 0 n)
        (Tasks.quicksortParallelWith threshold n) w ⟨⟩ w' ∧
      ∀ σ s, words w = s.cells →
        words w' = ((quicksortParallelWith threshold σ mem n).exec s).cells := by
  rw [Tasks.quicksortParallelWith]
  split_ifs with h
  · refine ⟨w, Effect.pure _ _ w, fun σ s hw => ?_⟩
    rw [quicksortParallelWith, if_pos h]
    exact hw
  · obtain ⟨w', hrun, hcells⟩ :=
      quicksortParallelRecursive_effect mem threads threshold [] 0 n (le_refl 0) hthreads w
    refine ⟨w', hrun.call fun _ => rfl, fun σ s hw => ?_⟩
    rw [quicksortParallelWith, if_neg h]
    exact hcells σ s hw

/-- **Every interleaving of the turns of `par_sort_partition` partitions.** For every range,
number of threads and memory that the `int`s of the call allow: the turns of each parallel loop
may make their accesses in any order; the call stops after the same number of steps, so that no
computation of an `int` overflows, never meets a data race, and returns the boundaries of the
stable partition it leaves, which is the one that any team of threads computes that serves the
turns one after the other. Of the other locations it needs only the arrays it allocates. -/
theorem parSortPartition_everySchedule (left right : ℤ)
    (hfits : 1 < right - left → PartitionFits left right (threads π).1) (w : SortMemory) :
    ∃ m w', Effect (Tasks.bodies mem threads) (taskRights π left right)
        (Tasks.parSortPartition mem (threads π).1 π left right) w m w' ∧
      Settles (Tasks.bodies mem threads)
        (Tasks.parSortPartition mem (threads π).1 π left right).process w w' ∧
      (∀ team t, (parSortPartition mem team left right).val ⟨words w, t⟩ = m ∧
        ((parSortPartition mem team left right).exec ⟨words w, t⟩).cells = words w') ∧
      (1 < right - left → ∃ pivot,
        IsMedian (cstr mem) (words w left) (words w (parMid left right)) (words w (right - 1))
          pivot ∧
        Partitions (sideOf mem pivot) left right (words w) (words w') m) := by
  rcases le_or_gt (right - left) 1 with h | h
  · have hrun : Effect (Tasks.bodies mem threads) (taskRights π left right)
        (Tasks.parSortPartition mem (threads π).1 π left right) w (left, right) w := by
      rw [Tasks.parSortPartition, if_pos h]
      exact Effect.pure _ _ w
    refine ⟨_, w, hrun, hrun.settles, fun team t => ?_, fun hlt => absurd h (not_le.mpr hlt)⟩
    rw [parSortPartition_of_le mem team h]
    exact ⟨rfl, rfl⟩
  · obtain ⟨w', hrun, hcells⟩ := parSortPartition_effect mem threads π h (hfits h) .solo w
      (s := ⟨words w, []⟩) rfl
    refine ⟨_, w', hrun, hrun.settles, fun team t => ?_, fun _ =>
      ⟨_, parPivotSelect_isMedian mem left right ⟨words w, []⟩, ?_⟩⟩
    · have hteam := parSortPartition_sameCells mem team .solo h ⟨words w, t⟩
      have htrace : (parSortPartition mem .solo left right).val ⟨words w, t⟩ =
            (parSortPartition mem .solo left right).val ⟨words w, []⟩ ∧
          ((parSortPartition mem .solo left right).exec ⟨words w, t⟩).cells =
            ((parSortPartition mem .solo left right).exec ⟨words w, []⟩).cells :=
        (parSortPartition_local mem .solo left right).cells_congr rfl
      exact ⟨hteam.1.trans htrace.1, (hteam.2.trans htrace.2).trans hcells.symm⟩
    · rw [hcells]
      exact (parSortPartition_spec mem .solo h ⟨words w, []⟩).1

/-- The words `b` and `a`, and two threads. -/
theorem parSortPartition_everySchedule_two :
    ∃ m w', Settles (Tasks.bodies [98, 0, 97, 0] fun _ => ⟨2, by decide⟩)
        (Tasks.parSortPartition [98, 0, 97, 0] 2 [] 0 2).process (wordMemory fun i => 2 * i.toNat)
        w' ∧
      (parSortPartition [98, 0, 97, 0] Team.solo 0 2).val ⟨fun i => 2 * i.toNat, []⟩ = m := by
  obtain ⟨m, w', _, hsettles, hteam, _⟩ := parSortPartition_everySchedule [98, 0, 97, 0]
    (fun _ => ⟨2, by decide⟩) [] 0 2
    (fun _ => ⟨by decide, by decide, by decide, by decide⟩) (wordMemory fun i => 2 * i.toNat)
  exact ⟨m, w', hsettles, (hteam Team.solo []).1⟩

/-- **Every interleaving of the tasks of `quicksort_parallel` sorts.** From any memory, for every
threshold, every number of threads at each node of the tree of tasks and every range, as long as
the end of the range and any of these numbers together are an `int`: sibling tasks interleave
with each other and with the turns of the parallel loops inside them; the call stops after the
same number of steps, so that no computation of an `int` overflows, never meets a data race, and
leaves the words sorted by `strcmp`, exactly as the sequential orders of tasks and turns leave
them. -/
theorem quicksortParallel_everySchedule (w : SortMemory) :
    (∀ threshold left right, 0 ≤ left → (∀ π, right + (threads π).1 ≤ 2 ^ 31 - 1) →
      ∃ w', Settles (Tasks.bodies mem threads)
        (Tasks.quicksortParallelRecursive mem threads π left right threshold).process w w' ∧
      StrcmpSorted mem left right (words w) (words w') ∧
      ∀ σ t, words w' =
        ((quicksortParallelRecursive mem threshold σ left right).exec ⟨words w, t⟩).cells) ∧
    ∀ threshold n, (∀ π, n + (threads π).1 ≤ 2 ^ 31 - 1) →
      ∃ w', Settles (Tasks.bodies mem threads)
        (Tasks.quicksortParallelWith threshold n).process w w' ∧
      StrcmpSorted mem 0 n (words w) (words w') := by
  obtain ⟨σ⟩ : Nonempty (Choices TaskChoice) := ⟨fun _ => ⟨true, .solo⟩⟩
  refine ⟨fun threshold left right h0 hthreads => ?_, fun threshold n hthreads => ?_⟩
  · obtain ⟨w', hrun, hcells⟩ :=
      quicksortParallelRecursive_effect mem threads threshold π left right h0 hthreads w
    have hsorts := quicksortParallelRecursive_sorts mem threshold σ left right ⟨words w, []⟩
    rw [← hcells σ _ rfl] at hsorts
    exact ⟨w', hrun.settles, hsorts.strcmpSorted, fun σ t => hcells σ ⟨words w, t⟩ rfl⟩
  · obtain ⟨w', hrun, hcells⟩ := quicksortParallelWith_effect mem threads threshold n hthreads w
    have hsorts := quicksortParallelWith_sorts mem threshold σ n ⟨words w, []⟩
    rw [← hcells σ _ rfl] at hsorts
    exact ⟨w', hrun.settles, hsorts.strcmpSorted⟩

end QuicksortTasks

end EfficientDictionary
