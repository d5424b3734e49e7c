import EfficientDictionary.Buckets
import EfficientDictionary.CString
import EfficientDictionary.Median

/-!
# The three-way parallel partition

`par_pivot_select` and `par_sort_partition`: the words of a range are counted chunk by
chunk, three prefix sums turn the counts into places, and a second pass over the chunks
copies every word to its place in `temp`.

The three branches of the comparison (`nL`, `nE`, `nG` and so on) differ in nothing but
the array they name. They are indexed by a `Side` here. A `Team` holds what the run-time
system decides: the number of threads, the order in which each of the two parallel loops
serves its chunks, and what the fresh arrays happen to contain.
-/

namespace EfficientDictionary

/-! ## Definitions -/

/-- The outcome of comparing a word with the pivot. -/
inductive Side : Type where
  /-- smaller than the pivot -/
  | less
  /-- equal to it -/
  | equal
  /-- greater -/
  | greater
  deriving DecidableEq, Repr

/-- The branch taken on the result of `strcmp`. -/
def side (cmp : ℤ) : Side :=
  if cmp < 0 then .less else if cmp = 0 then .equal else .greater

/-- The side on which `word` falls. -/
def sideOf (mem : Mem) (pivot word : Ptr) : Side := side (strcmpAt mem word pivot)

/-- An order in which a parallel loop may serve its `p` chunks. -/
structure ChunkOrder where
  /-- the chunks in the order of service -/
  order : ℕ → List ℕ
  /-- each is served exactly once -/
  perm : ∀ p, (order p).Perm (List.range p)

theorem ChunkOrder.mem_order (served : ChunkOrder) {p id : ℕ} : id ∈ served.order p ↔ id < p :=
  (served.perm p).mem_iff.trans List.mem_range

/-- The chunks in increasing order. -/
def ChunkOrder.forward : ChunkOrder := ⟨List.range, fun _ => List.Perm.refl _⟩

/-- What the run-time system decides for one call of `par_sort_partition`. -/
structure Team where
  /-- `omp_get_max_threads()` -/
  threads : ℤ
  /-- there is a thread -/
  pos : 1 ≤ threads
  /-- the order of service of the counting loop -/
  countOrder : ChunkOrder
  /-- the order of service of the copying loop -/
  scatterOrder : ChunkOrder
  /-- what `malloc` left in `psL`, `psE` and `psG` -/
  sums : Side → ℤ → ℤ
  /-- what `malloc` left in `temp` -/
  temp : ℤ → Ptr

/-- A single thread, on zeroed memory. -/
def Team.solo : Team where
  threads := 1
  pos := le_refl 1
  countOrder := .forward
  scatterOrder := .forward
  sums := fun _ _ => 0
  temp := fun _ => 0

/-- The middle index of `par_pivot_select`. -/
def parMid (left right : ℤ) : ℤ := left + (right - left) >>> (1 : ℕ)

/-- `strcmp(a, b) <= 0 && strcmp(b, c) <= 0` -/
def ascending (mem : Mem) (a b c : Ptr) : CProg Ptr Bool := do
  let ret ← strcmp mem a b
  if ret ≤ 0 then do
    let ret ← strcmp mem b c
    pure (decide (ret ≤ 0))
  else
    pure false

/-- `b` lies between `a` and `c`: `ascending` one way or the other. -/
def between (mem : Mem) (a b c : Ptr) : CProg Ptr Bool := do
  let up ← ascending mem a b c
  if up then pure true else ascending mem c b a

/-- `par_pivot_select` -/
def parPivotSelect (mem : Mem) (left right : ℤ) : CProg Ptr Ptr := do
  int (parMid left right)
  let leftVal ← load left
  let midVal ← load (parMid left right)
  let rightVal ← load (right - 1)
  let isMid ← between mem leftVal midVal rightVal
  if isMid then
    pure midVal
  else do
    let isRight ← between mem midVal rightVal leftVal
    if isRight then pure rightVal else pure leftVal

/-- The comparison in the body of both inner loops. -/
def compareWord (mem : Mem) (pivot : Ptr) (i : ℤ) : CProg Ptr Side := do
  int i
  let word ← load i
  let cmp ← strcmp mem word pivot
  pure (side cmp)

/-- The start of chunk `id`. -/
def chunkStart (left ws : ℤ) (id : ℕ) : ℤ := left + id * ws

/-- The end of chunk `id`, clipped to the range. -/
def chunkEnd (left right ws : ℤ) (id : ℕ) : ℤ :=
  if right < left + (id + 1) * ws then right else left + (id + 1) * ws

/-- The `int` computations of the bounds of chunk `id`. -/
def noteChunk (left ws : ℤ) (id : ℕ) : CProg Ptr PUnit := do
  int (id * ws)
  int (left + id * ws)
  int ((id + 1) * ws)
  int (left + (id + 1) * ws)

/-- One turn of the inner counting loop. -/
def countWord (mem : Mem) (pivot : Ptr) (i : ℤ) (count : Side → ℤ) : CProg Ptr (Side → ℤ) := do
  let c ← compareWord mem pivot i
  pure (Function.update count c (count c + 1))

/-- One turn of the counting loop: `nL[id]`, `nE[id]` and `nG[id]` are set. -/
def countChunk (mem : Mem) (pivot : Ptr) (left right ws : ℤ) (id : ℕ) (n : Side → ℤ → ℤ) :
    CProg Ptr (Side → ℤ → ℤ) := do
  noteChunk left ws id
  if right ≤ chunkStart left ws id then
    pure fun c => Function.update (n c) id 0
  else do
    let count ← forRange (chunkStart left ws id) (chunkEnd left right ws id) (fun _ => 0)
      (countWord mem pivot)
    pure fun c => Function.update (n c) id (count c)

/-- The loop `for (int i = 0; i < p; ++i)` that stores the partial sums of `n` in an array
and returns it with the total. -/
def prefixSums (p : ℕ) (sums n : ℤ → ℤ) : (ℤ → ℤ) × ℤ :=
  (List.range p).foldl (fun acc (i : ℕ) => (Function.update acc.1 i acc.2, acc.2 + n i)) (sums, 0)

/-- `baseL`, `baseE` and `baseG` -/
def bases (tot : Side → ℤ) : Side → ℤ
  | .less => 0
  | .equal => tot .less
  | .greater => tot .less + tot .equal

/-- The local variables of the copying loop: `wL`, `wE`, `wG` and the array `temp`. -/
structure Scatter where
  /-- how many words of each side have been placed -/
  cursor : Side → ℤ
  /-- the target -/
  temp : ℤ → Ptr

/-- One turn of the inner copying loop. -/
def scatterWord (mem : Mem) (pivot : Ptr) (base : Side → ℤ) (i : ℤ) (st : Scatter) :
    CProg Ptr Scatter := do
  let c ← compareWord mem pivot i
  let word ← load i
  note (.temp (base c + st.cursor c))
  pure { cursor := Function.update st.cursor c (st.cursor c + 1)
         temp := Function.update st.temp (base c + st.cursor c) word }

/-- One turn of the copying loop, with the cursors started from the prefix sums. -/
def scatterChunk (mem : Mem) (pivot : Ptr) (left right ws : ℤ) (base : Side → ℤ)
    (sums : Side → ℤ → ℤ) (id : ℕ) (temp : ℤ → Ptr) : CProg Ptr (ℤ → Ptr) := do
  noteChunk left ws id
  let st ← forRange (chunkStart left ws id) (chunkEnd left right ws id)
    ⟨fun c => sums c id, temp⟩ (scatterWord mem pivot base)
  pure st.temp

/-- The loop that copies `temp` back. -/
def copyBack (left n : ℤ) (temp : ℤ → Ptr) : CProg Ptr PUnit :=
  forRange 0 n ⟨⟩ fun k _ => store (left + k) (temp k)

/-- `par_sort_partition`; the result is `*m1` and `*m2`. -/
def parSortPartition (mem : Mem) (team : Team) (left right : ℤ) : CProg Ptr (ℤ × ℤ) := do
  let n := right - left
  if n ≤ 1 then
    pure (left, right)
  else do
    let pivot ← parPivotSelect mem left right
    let p := if n < team.threads then n else team.threads
    int (n + p)
    int (n + p - 1)
    let ws := (n + p - 1).tdiv p
    let counts ← forEach (team.countOrder.order p.toNat) (fun _ _ => 0)
      (countChunk mem pivot left right ws)
    let sums := fun c => (prefixSums p.toNat (team.sums c) (counts c)).1
    let tot := fun c => (prefixSums p.toNat (team.sums c) (counts c)).2
    let temp ← forEach (team.scatterOrder.order p.toNat) team.temp
      (scatterChunk mem pivot left right ws (bases tot) sums)
    copyBack left n temp
    pure (left + tot .less, left + tot .less + tot .equal)

/-! ## Reading without writing -/

/-- The slots of `temp` that a trace says were written, latest first. -/
def tempWrites (t : List (Event Call)) : List ℤ :=
  t.filterMap fun
    | .note (.temp k) => some k
    | _ => none

/-- The program reads and reports, but writes neither the array nor `temp`. -/
structure Silent {β : Type} (m : CProg Ptr β) : Prop where
  /-- the array stays as it was -/
  cells : ∀ s, (m.exec s).cells = s.cells
  /-- no slot of `temp` is written -/
  temps : ∀ s, tempWrites (m.exec s).trace = tempWrites s.trace

namespace Silent

variable {β γ : Type}

theorem pure (b : β) : Silent (pure b : CProg Ptr β) := ⟨fun _ => rfl, fun _ => rfl⟩

theorem load (i : ℤ) : Silent (load i : CProg Ptr Ptr) := ⟨fun _ => rfl, fun _ => rfl⟩

theorem int (v : ℤ) : Silent (int v : CProg Ptr PUnit) := ⟨fun _ => rfl, fun _ => rfl⟩

theorem strcmp (mem : Mem) (a b : Ptr) : Silent (strcmp mem a b : CProg Ptr ℤ) :=
  ⟨fun _ => rfl, fun _ => rfl⟩

theorem bind {m : CProg Ptr β} {f : β → CProg Ptr γ} (hm : Silent m)
    (hf : ∀ b, Silent (f b)) : Silent (m >>= f) :=
  ⟨fun s => ((hf _).cells _).trans (hm.cells s), fun s => ((hf _).temps _).trans (hm.temps s)⟩

theorem ite {c : Prop} [Decidable c] {m m' : CProg Ptr β} (hm : Silent m) (hm' : Silent m') :
    Silent (if c then m else m') := by
  split
  · exact hm
  · exact hm'

theorem forEach {ι : Type} {body : ι → β → CProg Ptr β} (h : ∀ i b, Silent (body i b))
    (is : List ι) (b : β) : Silent (forEach is b body) := by
  induction is generalizing b with
  | nil => exact Silent.pure b
  | cons i is ih => exact Silent.bind (h i b) ih

end Silent

/-! ## par_pivot_select -/

section ParPivotSelect

variable (mem : Mem) {left right : ℤ}

theorem parMid_bounds (h : left < right) :
    left ≤ parMid left right ∧ parMid left right < right := by
  have hhalf : (right - left) >>> (1 : ℕ) = (right - left) / 2 := Int.shiftRight_eq_div_pow _ 1
  rw [parMid, hhalf]
  omega

theorem ascending_silent (a b c : Ptr) : Silent (ascending mem a b c) :=
  (Silent.strcmp mem a b).bind fun _ =>
    Silent.ite ((Silent.strcmp mem b c).bind fun _ => Silent.pure _) (Silent.pure _)

theorem between_silent (a b c : Ptr) : Silent (between mem a b c) :=
  (ascending_silent mem a b c).bind fun _ => Silent.ite (Silent.pure _) (ascending_silent mem c b a)

theorem parPivotSelect_silent (left right : ℤ) : Silent (parPivotSelect mem left right) :=
  (Silent.int _).bind fun _ => (Silent.load _).bind fun _ => (Silent.load _).bind fun _ =>
    (Silent.load _).bind fun _ => (between_silent mem _ _ _).bind fun _ =>
      Silent.ite (Silent.pure _) ((between_silent mem _ _ _).bind fun _ =>
        Silent.ite (Silent.pure _) (Silent.pure _))

theorem ascending_val {a b c : Ptr} {s : Machine Call Ptr} :
    (ascending mem a b c).val s = true ↔ cstr mem a ≤ cstr mem b ∧ cstr mem b ≤ cstr mem c := by
  rw [← strcmpAt_nonpos_iff, ← strcmpAt_nonpos_iff]
  rw [ascending, Prog.bind_val, Prog.ite_val, strcmp_val]
  split_ifs with h
  · rw [Prog.bind_val, Prog.pure_val, strcmp_val, decide_eq_true_iff, and_iff_right h]
  · exact iff_of_false Bool.false_ne_true fun hasc => h hasc.1

theorem between_val {a b c : Ptr} {s : Machine Call Ptr} :
    (between mem a b c).val s = true ↔ Between (cstr mem) a b c := by
  rw [between, Prog.bind_val, Prog.ite_val]
  split_ifs with h
  · exact iff_of_true rfl (Or.inl ((ascending_val mem).mp h))
  · rw [ascending_val]
    exact (or_iff_right (mt (ascending_val mem).mpr h)).symm

/-- The pivot is a median of the three words looked at: when neither of the two tests
succeeds it is the third word that lies between the others. -/
theorem parPivotSelect_isMedian (left right : ℤ) (s : Machine Call Ptr) :
    IsMedian (cstr mem) (s.cells left) (s.cells (parMid left right)) (s.cells (right - 1))
      ((parPivotSelect mem left right).val s) := by
  simp only [parPivotSelect, Prog.bind_val, load_val, load_cells, int_cells,
    Prog.ite_val, Prog.pure_val]
  split_ifs with hmid hright
  · exact ((between_val mem).mp hmid).isMedian
  · exact ((between_val mem).mp hright).isMedian.rotate
  · rw [between_val] at hmid hright
    exact (between_of_not hmid hright).isMedian.rotate.rotate

theorem parPivotSelect_mem (h : left < right) (s : Machine Call Ptr) :
    ∃ i, left ≤ i ∧ i < right ∧ (parPivotSelect mem left right).val s = s.cells i := by
  obtain ⟨hlo, hhi⟩ := parMid_bounds h
  rcases (parPivotSelect_isMedian mem left right s).mem with hv | hv | hv
  · exact ⟨left, le_refl left, h, hv⟩
  · exact ⟨_, hlo, hhi, hv⟩
  · exact ⟨right - 1, by omega, by omega, hv⟩

theorem between_local (R : Set ℤ) (a b c : Ptr) : Local R (between mem a b c) := by
  have hasc : ∀ a b c, Local R (ascending mem a b c) := fun a b c =>
    (strcmp_local R mem a b).bind fun _ => Local.ite
      (fun _ => (strcmp_local R mem b c).bind fun _ => Local.pure R _) fun _ => Local.pure R _
  exact (hasc a b c).bind fun _ => Local.ite (fun _ => Local.pure R _) fun _ => hasc c b a

theorem parPivotSelect_local (h : left < right) :
    Local (Set.Ico left right) (parPivotSelect mem left right) := by
  have hleft : left ∈ Set.Ico left right := ⟨le_refl left, h⟩
  have hright : right - 1 ∈ Set.Ico left right := ⟨by omega, by omega⟩
  have hmid : parMid left right ∈ Set.Ico left right := parMid_bounds h
  refine (int_local _ _).bind fun _ => (Local.load hleft).bind fun _ =>
    (Local.load hmid).bind fun _ => (Local.load hright).bind fun _ => ?_
  refine (between_local mem _ _ _ _).bind fun _ => Local.ite (fun _ => Local.pure _ _) fun _ => ?_
  exact (between_local mem _ _ _ _).bind fun _ =>
    Local.ite (fun _ => Local.pure _ _) fun _ => Local.pure _ _

end ParPivotSelect

/-! ## Chunks -/

section Chunks

variable {left right ws : ℤ}

/-- Where chunk `id` starts once it is clipped to the range; chunk `id` ends where chunk
`id + 1` starts. -/
def cut (left right ws : ℤ) (id : ℕ) : ℤ := min (left + id * ws) right

theorem cut_zero (h : left ≤ right) : cut left right ws 0 = left := by
  rw [cut, Nat.cast_zero, zero_mul, add_zero, min_eq_left h]

theorem cut_of_le {p : ℕ} (h : right ≤ left + p * ws) : cut left right ws p = right :=
  min_eq_right h

theorem cut_le_right (left right ws : ℤ) (id : ℕ) : cut left right ws id ≤ right :=
  min_le_right _ _

theorem cut_mono (left right : ℤ) (hws : 0 ≤ ws) {id id' : ℕ} (h : id ≤ id') :
    cut left right ws id ≤ cut left right ws id' := by
  refine min_le_min_right right ?_
  have hmul : (id : ℤ) * ws ≤ id' * ws :=
    Int.mul_le_mul_of_nonneg_right (by omega) hws
  omega

theorem left_le_cut (h : left ≤ right) (hws : 0 ≤ ws) (id : ℕ) :
    left ≤ cut left right ws id := by
  have hmono := cut_mono left right hws (Nat.zero_le id)
  rwa [cut_zero h] at hmono

theorem chunkEnd_eq (left right ws : ℤ) (id : ℕ) :
    chunkEnd left right ws id = cut left right ws (id + 1) := by
  rw [chunkEnd, cut, Nat.cast_succ]
  split_ifs with h
  · exact (min_eq_right h.le).symm
  · exact (min_eq_left (not_lt.mp h)).symm

theorem chunkStart_of_lt {id : ℕ} (h : chunkStart left ws id < right) :
    chunkStart left ws id = cut left right ws id :=
  (min_eq_left h.le).symm

/-- A chunk that starts past the end is empty. -/
theorem cut_of_chunkStart {id : ℕ} (hws : 0 ≤ ws) (h : right ≤ chunkStart left ws id) :
    cut left right ws id = right ∧ cut left right ws (id + 1) = right := by
  have hid : cut left right ws id = right := min_eq_right h
  refine ⟨hid, le_antisymm (cut_le_right _ _ _ _) ?_⟩
  have hmono := cut_mono left right hws (Nat.le_succ id)
  rwa [hid] at hmono

/-- The inner loops run over the clipped chunk. -/
theorem forRange_chunk {β : Type} (hws : 0 ≤ ws) (id : ℕ) (b : β) (body : ℤ → β → CProg Ptr β) :
    forRange (chunkStart left ws id) (chunkEnd left right ws id) b body =
      forRange (cut left right ws id) (cut left right ws (id + 1)) b body := by
  rw [chunkEnd_eq]
  rcases lt_or_ge (chunkStart left ws id) right with h | h
  · rw [chunkStart_of_lt h]
  · obtain ⟨hstart, hend⟩ := cut_of_chunkStart hws h
    rw [hstart, hend, forRange_of_le h, forRange_of_le (le_refl right)]

/-- Rounding up to a multiple. -/
theorem mul_tdiv_round_up {n p : ℤ} (hn : 0 ≤ n) (hp : 1 ≤ p) :
    p * (n + p - 1).tdiv p = n + (-n) % p := by
  rw [Int.tdiv_eq_ediv_of_nonneg (by omega)]
  have hdiv := Int.mul_ediv_add_emod (n + p - 1) p
  have hlt := Int.emod_lt_of_pos (n + p - 1) (by omega : 0 < p)
  have hnonneg := Int.emod_nonneg (n + p - 1) (by omega : p ≠ 0)
  have hneg : -n = (p - 1 - (n + p - 1) % p) + p * -((n + p - 1) / p) := by
    rw [Int.mul_neg]
    omega
  have hmod : (-n) % p = p - 1 - (n + p - 1) % p := by
    rw [hneg, Int.add_mul_emod_self_left, Int.emod_eq_of_lt (by omega) (by omega)]
  omega

/-- `ws` is the smallest chunk size with which `p` chunks cover the range. -/
theorem chunkSize_spec {n p : ℤ} (hn : 0 ≤ n) (hp : 1 ≤ p) :
    0 ≤ (n + p - 1).tdiv p ∧ n ≤ p * (n + p - 1).tdiv p := by
  have hrest := Int.emod_nonneg (-n) (by omega : p ≠ 0)
  refine ⟨Int.tdiv_nonneg (by omega) (by omega), ?_⟩
  rw [mul_tdiv_round_up hn hp]
  omega

/-- What is listed chunk by chunk, in any order of service, is a permutation of what is
listed along the range. -/
theorem flatMap_chunks_perm {α : Type} (g : ℤ → α) (hle : left ≤ right) (hws : 0 ≤ ws) {p : ℕ}
    (hcover : right ≤ left + p * ws) {order : List ℕ} (horder : order.Perm (List.range p)) :
    (order.flatMap fun id => slice g (cut left right ws id) (cut left right ws (id + 1))).Perm
      (slice g left right) := by
  refine (horder.flatMap_right _).trans (List.Perm.of_eq ?_)
  have hupto : ∀ q, (List.range q).flatMap (fun id =>
      slice g (cut left right ws id) (cut left right ws (id + 1))) =
        slice g left (cut left right ws q) := by
    intro q
    induction q with
    | zero => rw [cut_zero hle, slice_of_le (le_refl left)]; rfl
    | succ q ih =>
      rw [List.range_succ, List.flatMap_append, ih, List.flatMap_singleton]
      exact slice_append g (left_le_cut hle hws q) (cut_mono left right hws (Nat.le_succ q))
  rw [hupto, cut_of_le hcover]

end Chunks

/-! ## Counting -/

section Counting

variable (mem : Mem) (pivot : Ptr) {left right ws : ℤ}

theorem compareWord_silent (i : ℤ) : Silent (compareWord mem pivot i) :=
  (Silent.int i).bind fun _ => (Silent.load i).bind fun _ =>
    (Silent.strcmp mem _ pivot).bind fun _ => Silent.pure _

theorem countWord_silent (i : ℤ) (count : Side → ℤ) : Silent (countWord mem pivot i count) :=
  (compareWord_silent mem pivot i).bind fun _ => Silent.pure _

theorem noteChunk_silent (left ws : ℤ) (id : ℕ) : Silent (noteChunk left ws id) :=
  (Silent.int _).bind fun _ => (Silent.int _).bind fun _ => (Silent.int _).bind fun _ =>
    Silent.int _

theorem countChunk_silent (left right ws : ℤ) (id : ℕ) (n : Side → ℤ → ℤ) :
    Silent (countChunk mem pivot left right ws id n) :=
  (noteChunk_silent left ws id).bind fun _ => Silent.ite (Silent.pure _)
    ((Silent.forEach (fun _ => countWord_silent mem pivot _) _ _).bind fun _ => Silent.pure _)

/-- The inner counting loop counts the words of its range. -/
theorem countRange_val {lo hi : ℤ} (h : lo ≤ hi) (s : Machine Call Ptr) :
    (forRange lo hi (fun _ => 0) (countWord mem pivot)).val s =
      before (sideOf mem pivot) s.cells lo hi := by
  have hrun := forRange_inv (f := countWord mem pivot) (b := fun _ => 0) (s := s)
    (I := fun i c s' => s'.cells = s.cells ∧ c = before (sideOf mem pivot) s.cells lo i) h
    ⟨rfl, funext fun c => (before_self _ _ _ c).symm⟩ ?_
  · exact hrun.2
  · rintro i count s' hi _ ⟨hcells, rfl⟩
    refine ⟨((countWord_silent mem pivot i _).cells s').trans hcells, ?_⟩
    rw [← update_before _ _ hi, ← hcells]
    rfl

/-- A turn of the counting loop counts its chunk. -/
theorem countChunk_val (hws : 0 ≤ ws) (id : ℕ) (n : Side → ℤ → ℤ) (s : Machine Call Ptr) :
    (countChunk mem pivot left right ws id n).val s = fun c =>
      Function.update (n c) id (before (sideOf mem pivot) s.cells (cut left right ws id)
        (cut left right ws (id + 1)) c) := by
  have hcells := (noteChunk_silent left ws id).cells s
  rcases lt_or_ge (chunkStart left ws id) right with h | h
  · have hcount := countRange_val mem pivot (cut_mono left right hws
      (Nat.le_succ id)) ((noteChunk left ws id).exec s)
    rw [countChunk, if_neg (not_le.mpr h)]
    simp only [Prog.bind_val, Prog.pure_val]
    rw [forRange_chunk hws, hcount, hcells]
  · obtain ⟨hstart, hend⟩ := cut_of_chunkStart hws h
    rw [countChunk, if_pos h, hstart, hend]
    simp only [Prog.bind_val, Prog.pure_val, before_self]

/-- After the counting loop the counts of every chunk served are right, whatever the order
of service. -/
theorem countLoop_val (left right : ℤ) (hws : 0 ≤ ws) (order : List ℕ) (n : Side → ℤ → ℤ)
    (s : Machine Call Ptr) :
    ∀ id ∈ order, ∀ c,
      (forEach order n (countChunk mem pivot left right ws)).val s c id =
        before (sideOf mem pivot) s.cells (cut left right ws id) (cut left right ws (id + 1))
          c := by
  have hrun := forEach_inv (f := countChunk mem pivot left right ws)
    (I := fun done _ n s' => s'.cells = s.cells ∧ ∀ id ∈ done, ∀ c, n c id =
      before (sideOf mem pivot) s.cells (cut left right ws id) (cut left right ws (id + 1)) c)
    ?_ order [] n s ⟨rfl, fun _ h => absurd h List.not_mem_nil⟩
  · exact hrun.2
  · rintro done id rest n s' ⟨hcells, hdone⟩
    refine ⟨((countChunk_silent mem pivot _ _ _ id n).cells s').trans hcells, ?_⟩
    intro id' hid' c
    rw [countChunk_val mem pivot hws, hcells]
    dsimp only
    rw [Function.update_apply]
    split_ifs with heq
    · rw [Int.ofNat_inj.mp heq]
    · rcases List.mem_append.mp hid' with h | h
      · exact hdone id' h c
      · rw [List.mem_singleton.mp h] at heq
        exact absurd rfl heq

theorem countLoop_silent (left right ws : ℤ) (order : List ℕ) (n : Side → ℤ → ℤ) :
    Silent (forEach order n (countChunk mem pivot left right ws)) :=
  Silent.forEach (fun id n => countChunk_silent mem pivot left right ws id n) order n

end Counting

/-- The partial sums of `n` are a function `g` that starts at `0` and grows by `n`. -/
theorem prefixSums_spec {p : ℕ} (sums n : ℤ → ℤ) (g : ℕ → ℤ) (h0 : g 0 = 0)
    (hstep : ∀ i < p, g (i + 1) = g i + n i) :
    (prefixSums p sums n).2 = g p ∧ ∀ i < p, (prefixSums p sums n).1 i = g i := by
  induction p with
  | zero => exact ⟨h0.symm, fun i hi => absurd hi (Nat.not_lt_zero i)⟩
  | succ p ih =>
    obtain ⟨htot, hsums⟩ := ih fun i hi => hstep i (by omega)
    have hsplit : prefixSums (p + 1) sums n =
        (Function.update (prefixSums p sums n).1 p (prefixSums p sums n).2,
          (prefixSums p sums n).2 + n p) := by
      rw [prefixSums, List.range_succ, List.foldl_append]
      rfl
    rw [hsplit, htot]
    refine ⟨(hstep p (Nat.lt_succ_self p)).symm, fun i hi => ?_⟩
    dsimp only
    rw [Function.update_apply]
    split_ifs with heq
    · rw [Int.ofNat_inj.mp heq]
    · exact hsums i (by omega)

/-! ## Copying to `temp` -/

section Scattering

variable {mem : Mem} {pivot : Ptr} {base : Side → ℤ} {left right ws : ℤ} {w : ℤ → Ptr}

theorem scatterWord_temps (i : ℤ) (st : Scatter) (s : Machine Call Ptr) :
    tempWrites ((scatterWord mem pivot base i st).exec s).trace =
      (base (sideOf mem pivot (s.cells i)) + st.cursor (sideOf mem pivot (s.cells i))) ::
        tempWrites s.trace := rfl

theorem scatterWord_val (i : ℤ) (st : Scatter) (s : Machine Call Ptr) :
    (scatterWord mem pivot base i st).val s =
      { cursor := Function.update st.cursor (sideOf mem pivot (s.cells i))
          (st.cursor (sideOf mem pivot (s.cells i)) + 1)
        temp := Function.update st.temp (base (sideOf mem pivot (s.cells i)) +
          st.cursor (sideOf mem pivot (s.cells i))) (s.cells i) } := rfl

/-- The state of the copying loops: `done` are the indices whose words have been copied,
`places` the slots written so far. -/
structure ScatterInv (mem : Mem) (pivot : Ptr) (base : Side → ℤ) (left : ℤ) (w : ℤ → Ptr)
    (done : ℤ → Prop) (places : List ℤ) (temp : ℤ → Ptr) (s : Machine Call Ptr) : Prop where
  /-- the array is only read -/
  cells : s.cells = w
  /-- the words copied are in their places -/
  placed : Placed (sideOf mem pivot) w left base done temp
  /-- the slots written -/
  temps : (tempWrites s.trace).Perm places

/-- One turn of the inner loop, started with the right cursor. -/
theorem scatterWord_inv (hlay : Layout (sideOf mem pivot) w left right base)
    {done : ℤ → Prop} {places : List ℤ} {st : Scatter} {s : Machine Call Ptr} {i : ℤ}
    (hi : left ≤ i ∧ i < right) (hdone : ∀ j, done j → left ≤ j ∧ j < right)
    (hcursor : st.cursor = before (sideOf mem pivot) w left i)
    (h : ScatterInv mem pivot base left w done places st.temp s) :
    ((scatterWord mem pivot base i st).val s).cursor = before (sideOf mem pivot) w left (i + 1) ∧
      ScatterInv mem pivot base left w (fun j => done j ∨ j = i)
        (place (sideOf mem pivot) w left base i :: places)
        ((scatterWord mem pivot base i st).val s).temp
        ((scatterWord mem pivot base i st).exec s) := by
  rw [scatterWord_val, h.cells, hcursor]
  refine ⟨update_before _ _ hi.1, h.cells, ?_, ?_⟩
  · exact h.placed.put hlay hdone hi
  · rw [scatterWord_temps, h.cells, hcursor]
    exact h.temps.cons _

/-- The inner loop over `[lo, hi)`. -/
theorem scatterRange_inv (hlay : Layout (sideOf mem pivot) w left right base)
    (done : ℤ → Prop) {places : List ℤ} (st : Scatter) {s : Machine Call Ptr} {lo hi : ℤ}
    (hle : lo ≤ hi) (hlo : left ≤ lo) (hhi : hi ≤ right)
    (hdone : ∀ j, done j → left ≤ j ∧ j < right)
    (hcursor : st.cursor = before (sideOf mem pivot) w left lo)
    (h : ScatterInv mem pivot base left w done places st.temp s) :
    ScatterInv mem pivot base left w (fun j => done j ∨ lo ≤ j ∧ j < hi)
      (slice (place (sideOf mem pivot) w left base) lo hi ++ places)
      ((forRange lo hi st (scatterWord mem pivot base)).val s).temp
      ((forRange lo hi st (scatterWord mem pivot base)).exec s) := by
  refine (forRange_inv (f := scatterWord mem pivot base) (b := st) (s := s)
    (I := fun i st s' => st.cursor = before (sideOf mem pivot) w left i ∧
      ScatterInv mem pivot base left w (fun j => done j ∨ lo ≤ j ∧ j < i)
        (slice (place (sideOf mem pivot) w left base) lo i ++ places) st.temp s')
    hle ⟨hcursor, h.cells, h.placed.mono ?_, ?_⟩ ?_).2
  · rintro j (hj | hj)
    · exact hj
    · omega
  · rw [slice_of_le (le_refl lo)]
    exact h.temps
  · rintro i st s' hli hih ⟨hcur, hinv⟩
    have hdone' : ∀ j, (done j ∨ lo ≤ j ∧ j < i) → left ≤ j ∧ j < right := by
      rintro j (hj | hj)
      · exact hdone j hj
      · omega
    obtain ⟨hcur', hinv'⟩ := scatterWord_inv hlay ⟨by omega, by omega⟩ hdone' hcur hinv
    refine ⟨hcur', hinv'.cells, hinv'.placed.mono ?_, hinv'.temps.trans ?_⟩
    · rintro j (hj | hj)
      · exact Or.inl (Or.inl hj)
      · rcases eq_or_ne j i with rfl | hne
        · exact Or.inr rfl
        · exact Or.inl (Or.inr ⟨hj.1, by omega⟩)
    · rw [slice_succ_right hli, List.append_assoc]
      exact List.perm_middle.symm

/-- The indices of the chunks listed. -/
def InChunks (left right ws : ℤ) (ids : List ℕ) (j : ℤ) : Prop :=
  ∃ id ∈ ids, cut left right ws id ≤ j ∧ j < cut left right ws (id + 1)

/-- The places of the words of the chunks listed. -/
def chunkPlaces (mem : Mem) (pivot : Ptr) (base : Side → ℤ) (left right ws : ℤ) (w : ℤ → Ptr)
    (ids : List ℕ) : List ℤ :=
  ids.flatMap fun id => slice (place (sideOf mem pivot) w left base) (cut left right ws id)
    (cut left right ws (id + 1))

theorem chunkPlaces_concat (ids : List ℕ) (id : ℕ) :
    chunkPlaces mem pivot base left right ws w (ids ++ [id]) =
      chunkPlaces mem pivot base left right ws w ids ++
        slice (place (sideOf mem pivot) w left base) (cut left right ws id)
          (cut left right ws (id + 1)) := by
  rw [chunkPlaces, List.flatMap_append, List.flatMap_singleton]
  rfl

/-- The copying loop, in any order of service. -/
theorem scatterLoop_inv (hlay : Layout (sideOf mem pivot) w left right base)
    (hle : left ≤ right) (hws : 0 ≤ ws) (sums : Side → ℤ → ℤ) (order : List ℕ)
    (hsums : ∀ id ∈ order, ∀ c,
      sums c id = before (sideOf mem pivot) w left (cut left right ws id) c)
    (temp : ℤ → Ptr) {s : Machine Call Ptr} (hcells : s.cells = w) :
    ScatterInv mem pivot base left w (InChunks left right ws order)
      (chunkPlaces mem pivot base left right ws w order ++ tempWrites s.trace)
      ((forEach order temp (scatterChunk mem pivot left right ws base sums)).val s)
      ((forEach order temp (scatterChunk mem pivot left right ws base sums)).exec s) := by
  refine (forEach_inv (f := scatterChunk mem pivot left right ws base sums)
    (I := fun (done rest : List ℕ) temp s' => (∀ id ∈ rest, ∀ c,
        sums c id = before (sideOf mem pivot) w left (cut left right ws id) c) ∧
      ScatterInv mem pivot base left w (InChunks left right ws done)
        (chunkPlaces mem pivot base left right ws w done ++ tempWrites s.trace) temp s')
    ?_ order [] temp s ⟨hsums, hcells, ?_, List.Perm.refl _⟩).2
  · rintro done id rest temp s' ⟨hrest, hinv⟩
    refine ⟨fun id' hid' => hrest id' (List.mem_cons_of_mem id hid'), ?_⟩
    have hnote := noteChunk_silent left ws id
    have hnoted : ScatterInv mem pivot base left w (InChunks left right ws done)
        (chunkPlaces mem pivot base left right ws w done ++ tempWrites s.trace) temp
        ((noteChunk left ws id).exec s') := by
      refine ⟨(hnote.cells s').trans hinv.cells, hinv.placed, ?_⟩
      rw [hnote.temps s']
      exact hinv.temps
    have hdone : ∀ j, InChunks left right ws done j → left ≤ j ∧ j < right := by
      rintro j ⟨id', _, hj, hj'⟩
      have hlo := left_le_cut hle hws id'
      have hhi := cut_le_right left right ws (id' + 1)
      omega
    have hrun := scatterRange_inv hlay (InChunks left right ws done) ⟨fun c => sums c id, temp⟩
      (cut_mono left right hws (Nat.le_succ id)) (left_le_cut hle hws id)
      (cut_le_right left right ws (id + 1)) hdone
      (funext fun c => hrest id List.mem_cons_self c) hnoted
    rw [← forRange_chunk hws] at hrun
    refine ⟨hrun.cells, hrun.placed.mono ?_, hrun.temps.trans ?_⟩
    · rintro j ⟨id', hid', hj⟩
      rcases List.mem_append.mp hid' with h | h
      · exact Or.inl ⟨id', h, hj⟩
      · rw [List.mem_singleton.mp h] at hj
        exact Or.inr hj
    · rw [chunkPlaces_concat, ← List.append_assoc]
      exact List.perm_append_comm.append_right _
  · rintro j ⟨_, h, _⟩
    exact absurd h List.not_mem_nil

/-- Every index of the range is in some chunk. -/
theorem inChunks_of_mem (hle : left ≤ right) (hws : 0 ≤ ws) {p : ℕ}
    (hcover : right ≤ left + p * ws) {order : List ℕ} (horder : order.Perm (List.range p))
    {j : ℤ} (hj : left ≤ j ∧ j < right) : InChunks left right ws order j := by
  have hperm := flatMap_chunks_perm id hle hws hcover horder
  have hmem := hperm.mem_iff.mpr (mem_slice.mpr ⟨j, hj.1, hj.2, rfl⟩)
  obtain ⟨k, hk, hslice⟩ := List.mem_flatMap.mp hmem
  obtain ⟨i, hlo, hhi, heq⟩ := mem_slice.mp hslice
  obtain rfl : i = j := heq
  exact ⟨k, hk, hlo, hhi⟩

end Scattering

/-! ## The partition -/

/-- `w'` is `w` with the range `[l, r)` stably partitioned by `f`, the two boundaries
being `m`. -/
structure Partitions (f : Ptr → Side) (l r : ℤ) (w w' : ℤ → Ptr) (m : ℤ × ℤ) : Prop where
  /-- the boundaries are in order and inside the range -/
  bounds : l ≤ m.1 ∧ m.1 ≤ m.2 ∧ m.2 ≤ r
  /-- first the smaller words, in their original order -/
  less : slice w' l m.1 = (slice w l r).filter fun a => f a = .less
  /-- then the equal ones -/
  equal : slice w' m.1 m.2 = (slice w l r).filter fun a => f a = .equal
  /-- then the greater ones -/
  greater : slice w' m.2 r = (slice w l r).filter fun a => f a = .greater
  /-- nothing else changed -/
  frame : ∀ i, i < l ∨ r ≤ i → w' i = w i

section Totals

variable (f : Ptr → Side) (w : ℤ → Ptr) {l r : ℤ}

/-- Every word is on one of the three sides. -/
theorem before_total (h : l ≤ r) :
    before f w l r .less + before f w l r .equal + before f w l r .greater = r - l := by
  induction r, h using Int.leInduction with
  | base => simp only [before_self]; omega
  | succ r h ih =>
    rw [before_succ f w h, before_succ f w h, before_succ f w h]
    cases f (w r) <;> simp <;> omega

/-- The three stretches of `temp` follow each other and fill it. -/
theorem layout_bases (h : l ≤ r) : Layout f w l r (bases (before f w l r)) := by
  have htotal := before_total f w h
  have hless := before_nonneg f w l r .less
  have hequal := before_nonneg f w l r .equal
  have hgreater := before_nonneg f w l r .greater
  refine ⟨fun c => ?_, fun c => ?_, fun c c' hne => ?_⟩
  · cases c <;> simp only [bases] <;> omega
  · cases c <;> simp only [bases] <;> omega
  · cases c <;> cases c' <;> simp only [bases] <;> first | omega | exact absurd rfl hne

end Totals

theorem copyBack_spec (left : ℤ) {n : ℤ} (hn : 0 ≤ n) (temp : ℤ → Ptr) (s : Machine Call Ptr) :
    (∀ i, ((copyBack left n temp).exec s).cells i =
      if left ≤ i ∧ i < left + n then temp (i - left) else s.cells i) ∧
    tempWrites ((copyBack left n temp).exec s).trace = tempWrites s.trace := by
  refine forRange_inv (I := fun k _ s' => (∀ i, s'.cells i =
    if left ≤ i ∧ i < left + k then temp (i - left) else s.cells i) ∧
      tempWrites s'.trace = tempWrites s.trace) hn ⟨fun i => ?_, rfl⟩ ?_
  · rw [if_neg (by omega)]
  · rintro k _ s' hk _ ⟨hcells, htemps⟩
    refine ⟨fun i => ?_, htemps⟩
    rw [store_exec]
    dsimp only
    rw [Function.update_apply, hcells]
    split_ifs with heq hin hin hin
    · rw [heq, add_sub_cancel_left]
    · omega
    · rfl
    · omega
    · omega
    · rfl

/-- Copying a filled `temp` back partitions the range. -/
theorem partitions_of_placed {f : Ptr → Side} {left right : ℤ} {w w' temp : ℤ → Ptr}
    (h : left ≤ right)
    (hput : ∀ i, left ≤ i → i < right →
      temp (place f w left (bases (before f w left right)) i) = w i)
    (hcopy : ∀ i, w' i = if left ≤ i ∧ i < left + (right - left) then temp (i - left) else w i) :
    Partitions f left right w w' (left + before f w left right .less,
      left + before f w left right .less + before f w left right .equal) := by
  have htotal := before_total f w h
  have hless := before_nonneg f w left right .less
  have hequal := before_nonneg f w left right .equal
  have hgreater := before_nonneg f w left right .greater
  have hshift : ∀ a b, 0 ≤ a → b ≤ right - left →
      slice w' (left + a) (left + b) = slice temp a b := by
    intro a b ha hb
    rw [slice, slice, add_sub_add_left_eq_sub]
    refine List.map_congr_left fun k hk => ?_
    have hk' := List.mem_range.mp hk
    rw [hcopy, if_pos (by omega), add_assoc, add_sub_cancel_left]
  have hstretch := slice_of_placed h hput
  have hl := hstretch .less
  have he := hstretch .equal
  have hg := hstretch .greater
  rw [← hshift _ _ (by simp only [bases]; omega) (by simp only [bases]; omega)] at hl he hg
  simp only [bases, add_zero, zero_add, ← add_assoc] at hl he hg
  refine ⟨⟨by dsimp only; omega, by dsimp only; omega, by dsimp only; omega⟩, hl, he, ?_,
    fun i hi => ?_⟩
  · have hend : left + before f w left right .less + before f w left right .equal +
        before f w left right .greater = right := by omega
    rwa [hend] at hg
  · rw [hcopy, if_neg (by omega)]

/-- The prefix sums of the counts are the numbers of words before each chunk, and the
totals those of the range. -/
theorem sums_spec {f : Ptr → Side} {w : ℤ → Ptr} {left right ws : ℤ} (hle : left ≤ right)
    (hws : 0 ≤ ws) {p : ℕ} (hcover : right ≤ left + p * ws) (sums n : ℤ → ℤ) {c : Side}
    (hn : ∀ id < p, n (id : ℕ) =
      before f w (cut left right ws id) (cut left right ws (id + 1)) c) :
    (prefixSums p sums n).2 = before f w left right c ∧
      ∀ id < p, (prefixSums p sums n).1 (id : ℕ) = before f w left (cut left right ws id) c := by
  have hsums := prefixSums_spec sums n (fun id => before f w left (cut left right ws id) c)
    (p := p) ?_ ?_
  · rwa [cut_of_le hcover] at hsums
  · rw [cut_zero hle, before_self]
  · intro id hid
    rw [hn id hid]
    exact before_add f w (left_le_cut hle hws id) (cut_mono left right hws (Nat.le_succ id)) c

/-- The number of chunks. -/
def chunks (team : Team) (n : ℤ) : ℤ := if n < team.threads then n else team.threads

theorem chunks_pos (team : Team) {n : ℤ} (h : 1 < n) : 1 ≤ chunks team n := by
  have hpos := team.pos
  rw [chunks]
  split_ifs <;> omega

/-- What `par_sort_partition` does once the pivot is chosen. -/
def distribute (mem : Mem) (team : Team) (left right ws : ℤ) (pivot : Ptr) :
    CProg Ptr (ℤ × ℤ) := do
  let counts ← forEach (team.countOrder.order (chunks team (right - left)).toNat) (fun _ _ => 0)
    (countChunk mem pivot left right ws)
  let sums := fun c =>
    (prefixSums (chunks team (right - left)).toNat (team.sums c) (counts c)).1
  let tot := fun c =>
    (prefixSums (chunks team (right - left)).toNat (team.sums c) (counts c)).2
  let temp ← forEach (team.scatterOrder.order (chunks team (right - left)).toNat) team.temp
    (scatterChunk mem pivot left right ws (bases tot) sums)
  copyBack left (right - left) temp
  pure (left + tot .less, left + tot .less + tot .equal)

/-- The chunk size. -/
def chunkSize (team : Team) (n : ℤ) : ℤ := (n + chunks team n - 1).tdiv (chunks team n)

theorem chunkSize_nonneg (team : Team) {n : ℤ} (h : 1 < n) : 0 ≤ chunkSize team n :=
  (chunkSize_spec (by omega) (chunks_pos team h)).1

/-- The chunks cover the range. -/
theorem le_chunks_mul_chunkSize (team : Team) {n : ℤ} (h : 1 < n) :
    n ≤ ((chunks team n).toNat : ℤ) * chunkSize team n := by
  have hp := chunks_pos team h
  rw [Int.toNat_of_nonneg (by omega), chunkSize]
  exact (chunkSize_spec (by omega) hp).2

theorem parSortPartition_of_lt (mem : Mem) (team : Team) {left right : ℤ}
    (h : 1 < right - left) :
    parSortPartition mem team left right = (do
      let pivot ← parPivotSelect mem left right
      int (right - left + chunks team (right - left))
      int (right - left + chunks team (right - left) - 1)
      distribute mem team left right (chunkSize team (right - left)) pivot) := by
  rw [parSortPartition, if_neg (not_le.mpr h)]
  rfl

section Partition

variable (mem : Mem) (team : Team) {left right : ℤ}

/-- The counting loop and the prefix sums: the words of each side, in all and before every
chunk. -/
theorem countLoop_sums (pivot : Ptr) {ws : ℤ} (hle : left ≤ right) (hws : 0 ≤ ws) {p : ℕ}
    (hcover : right ≤ left + p * ws) (order : ChunkOrder) (sums : ℤ → ℤ) (s : Machine Call Ptr)
    (c : Side) :
    (prefixSums p sums ((forEach (order.order p) (fun _ _ => 0)
        (countChunk mem pivot left right ws)).val s c)).2 =
      before (sideOf mem pivot) s.cells left right c ∧
    ∀ id < p, (prefixSums p sums ((forEach (order.order p) (fun _ _ => 0)
        (countChunk mem pivot left right ws)).val s c)).1 (id : ℕ) =
      before (sideOf mem pivot) s.cells left (cut left right ws id) c :=
  sums_spec hle hws hcover sums _ fun id hid =>
    countLoop_val mem pivot left right hws _ _ s id (order.mem_order.mpr hid) c

/-- **The parallel loops compute the stable partition**, for every number of threads, both
orders of service and whatever the fresh arrays contain, and each slot of `temp` is written
once. -/
theorem distribute_spec (h : 1 < right - left) (pivot : Ptr) (s : Machine Call Ptr) :
    Partitions (sideOf mem pivot) left right s.cells
        ((distribute mem team left right (chunkSize team (right - left)) pivot).exec s).cells
        ((distribute mem team left right (chunkSize team (right - left)) pivot).val s) ∧
      (tempWrites
        ((distribute mem team left right (chunkSize team (right - left)) pivot).exec s).trace).Perm
        (slice id 0 (right - left) ++ tempWrites s.trace) := by
  have hle : left ≤ right := by omega
  have hws := chunkSize_nonneg team h
  have hcover : right ≤ left + ((chunks team (right - left)).toNat : ℤ) *
      chunkSize team (right - left) :=
    Int.le_add_of_sub_left_le (le_chunks_mul_chunkSize team h)
  generalize chunkSize team (right - left) = ws at *
  -- counting, and the prefix sums of the counts
  have hsums := fun c => countLoop_sums mem pivot hle hws hcover team.countOrder (team.sums c) s c
  obtain ⟨hcells, htemps⟩ := countLoop_silent mem pivot left right ws
    (team.countOrder.order (chunks team (right - left)).toNat) fun _ _ => 0
  specialize hcells s
  specialize htemps s
  simp only [distribute, Prog.bind_val, Prog.bind_exec, Prog.pure_val, Prog.pure_exec]
  generalize (forEach (team.countOrder.order (chunks team (right - left)).toNat) (fun _ _ => 0)
    (countChunk mem pivot left right ws)).val s = counts at *
  generalize (forEach (team.countOrder.order (chunks team (right - left)).toNat) (fun _ _ => 0)
    (countChunk mem pivot left right ws)).exec s = s₁ at *
  generalize (chunks team (right - left)).toNat = p at *
  have htot : (fun c => (prefixSums p (team.sums c) (counts c)).2) =
      before (sideOf mem pivot) s.cells left right := funext fun c => (hsums c).1
  rw [htot, (hsums .less).1, (hsums .equal).1]
  -- the copying loop
  have hscatter := scatterLoop_inv (layout_bases (sideOf mem pivot) s.cells hle) hle hws
    (fun c => (prefixSums p (team.sums c) (counts c)).1) (team.scatterOrder.order p)
    (fun id hid c => (hsums c).2 id (team.scatterOrder.mem_order.mp hid)) team.temp hcells
  generalize (forEach (team.scatterOrder.order p) team.temp (scatterChunk mem pivot left right ws
    (bases (before (sideOf mem pivot) s.cells left right))
    fun c => (prefixSums p (team.sums c) (counts c)).1)).val s₁ = temp at *
  generalize (forEach (team.scatterOrder.order p) team.temp (scatterChunk mem pivot left right ws
    (bases (before (sideOf mem pivot) s.cells left right))
    fun c => (prefixSums p (team.sums c) (counts c)).1)).exec s₁ = s₂ at *
  -- the copy back
  obtain ⟨hcopy, hcopyTemps⟩ := copyBack_spec left (by omega : 0 ≤ right - left) temp s₂
  rw [hscatter.cells] at hcopy
  refine ⟨partitions_of_placed hle (fun i hi hir => hscatter.placed i
    (inChunks_of_mem hle hws hcover (team.scatterOrder.perm p) ⟨hi, hir⟩)) hcopy, ?_⟩
  rw [hcopyTemps]
  refine hscatter.temps.trans ?_
  rw [htemps]
  refine List.Perm.append_right _ ((flatMap_chunks_perm _ hle hws hcover
    (team.scatterOrder.perm p)).trans ?_)
  exact (layout_bases (sideOf mem pivot) s.cells hle).places_perm

theorem parSortPartition_spec (h : 1 < right - left) (s : Machine Call Ptr) :
    Partitions (sideOf mem ((parPivotSelect mem left right).val s)) left right s.cells
        ((parSortPartition mem team left right).exec s).cells
        ((parSortPartition mem team left right).val s) ∧
      (tempWrites ((parSortPartition mem team left right).exec s).trace).Perm
        (slice id 0 (right - left) ++ tempWrites s.trace) := by
  have hsilent := (parPivotSelect_silent mem left right).bind fun _ =>
    (Silent.int (right - left + chunks team (right - left))).bind fun _ =>
      Silent.int (right - left + chunks team (right - left) - 1)
  have hrun := distribute_spec mem team h ((parPivotSelect mem left right).val s)
    ((int (right - left + chunks team (right - left) - 1)).exec
      ((int (right - left + chunks team (right - left))).exec
        ((parPivotSelect mem left right).exec s)))
  have hcells := hsilent.cells s
  have htemps := hsilent.temps s
  rw [Prog.bind_exec, Prog.bind_exec] at hcells htemps
  rw [hcells, htemps] at hrun
  rw [parSortPartition_of_lt mem team h]
  simp only [Prog.bind_exec, Prog.bind_val]
  exact hrun

theorem parSortPartition_of_le (h : right - left ≤ 1) :
    parSortPartition mem team left right = pure (left, right) :=
  if_pos h

theorem compareWord_local {R : Set ℤ} (pivot : Ptr) {i : ℤ} (hi : i ∈ R) :
    Local R (compareWord mem pivot i) :=
  (int_local R i).bind fun _ => (Local.load hi).bind fun _ =>
    (strcmp_local R mem _ pivot).bind fun _ => Local.pure R _

theorem noteChunk_local (R : Set ℤ) (left ws : ℤ) (id : ℕ) : Local R (noteChunk left ws id) :=
  (int_local R _).bind fun _ => (int_local R _).bind fun _ => (int_local R _).bind fun _ =>
    int_local R _

/-- The inner loops stay inside their chunk, hence inside the range. -/
theorem chunkLoop_local {β : Type} {ws : ℤ} (hle : left ≤ right) (hws : 0 ≤ ws) (id : ℕ) (b : β)
    {body : ℤ → β → CProg Ptr β}
    (hbody : ∀ i ∈ Set.Ico left right, ∀ b, Local (Set.Ico left right) (body i b)) :
    Local (Set.Ico left right)
      (forRange (chunkStart left ws id) (chunkEnd left right ws id) b body) := by
  rw [forRange_chunk hws]
  refine Local.forRange_all (fun i hlo hhi b => hbody i ⟨?_, ?_⟩ b) b
  · exact (left_le_cut hle hws id).trans hlo
  · exact hhi.trans_le (cut_le_right left right ws (id + 1))

/-- The part of a turn of the counting loop after its bounds have been computed. -/
def tallyChunk (mem : Mem) (pivot : Ptr) (left right ws : ℤ) (id : ℕ) (n : Side → ℤ → ℤ) :
    CProg Ptr (Side → ℤ → ℤ) :=
  if right ≤ chunkStart left ws id then
    pure fun c => Function.update (n c) id 0
  else do
    let count ← forRange (chunkStart left ws id) (chunkEnd left right ws id) (fun _ => 0)
      (countWord mem pivot)
    pure fun c => Function.update (n c) id (count c)

theorem countChunk_eq (mem : Mem) (pivot : Ptr) (left right ws : ℤ) (id : ℕ)
    (n : Side → ℤ → ℤ) :
    countChunk mem pivot left right ws id n =
      (noteChunk left ws id >>= fun _ => tallyChunk mem pivot left right ws id n) := rfl

theorem tallyChunk_local (hle : left ≤ right) (pivot : Ptr) {ws : ℤ} (hws : 0 ≤ ws) (id : ℕ)
    (n : Side → ℤ → ℤ) :
    Local (Set.Ico left right) (tallyChunk mem pivot left right ws id n) := by
  refine Local.ite (fun _ => Local.pure _ _) fun _ => ?_
  refine (chunkLoop_local hle hws id _ fun i hi _ => ?_).bind fun _ => Local.pure _ _
  exact (compareWord_local mem pivot hi).bind fun _ => Local.pure _ _

theorem countChunk_local (hle : left ≤ right) (pivot : Ptr) {ws : ℤ} (hws : 0 ≤ ws) (id : ℕ)
    (n : Side → ℤ → ℤ) :
    Local (Set.Ico left right) (countChunk mem pivot left right ws id n) :=
  (noteChunk_local _ left ws id).bind fun _ => tallyChunk_local mem hle pivot hws id n

theorem scatterChunk_local (hle : left ≤ right) (pivot : Ptr) {ws : ℤ} (hws : 0 ≤ ws)
    (base : Side → ℤ) (sums : Side → ℤ → ℤ) (id : ℕ) (temp : ℤ → Ptr) :
    Local (Set.Ico left right) (scatterChunk mem pivot left right ws base sums id temp) := by
  refine (noteChunk_local _ left ws id).bind fun _ => ?_
  refine (chunkLoop_local hle hws id _ fun i hi _ => ?_).bind fun _ => Local.pure _ _
  exact (compareWord_local mem pivot hi).bind fun _ => (Local.load hi).bind fun _ =>
    (Local.note _ _).bind fun _ => Local.pure _ _

theorem copyBack_local (left right : ℤ) (temp : ℤ → Ptr) :
    Local (Set.Ico left right) (copyBack left (right - left) temp) := by
  refine Local.forRange_all (fun k hk hkn _ => Local.store ?_ _) _
  exact ⟨by omega, by omega⟩

theorem distribute_local (hle : left ≤ right) (pivot : Ptr) {ws : ℤ} (hws : 0 ≤ ws) :
    Local (Set.Ico left right) (distribute mem team left right ws pivot) := by
  refine (Local.forEach (fun id _ n => countChunk_local mem hle _ hws id n) _).bind fun _ => ?_
  refine (Local.forEach (fun id _ temp =>
    scatterChunk_local mem hle _ hws _ _ id temp) _).bind fun _ => ?_
  exact (copyBack_local left right _).bind fun _ => Local.pure _ _

theorem parSortPartition_local (left right : ℤ) :
    Local (Set.Ico left right) (parSortPartition mem team left right) := by
  rcases le_or_gt (right - left) 1 with h | h
  · rw [parSortPartition_of_le mem team h]
    exact Local.pure _ _
  · rw [parSortPartition_of_lt mem team h]
    refine (parPivotSelect_local mem (by omega)).bind fun _ => (int_local _ _).bind fun _ =>
      (int_local _ _).bind fun _ => ?_
    exact distribute_local mem team (by omega) _ (chunkSize_nonneg team h)

end Partition

/-! ## What follows from the partition -/

section Partitioned

variable {mem : Mem} {pivot : Ptr} {f : Ptr → Side} {left right : ℤ} {w w' w'' : ℤ → Ptr}
  {m m' : ℤ × ℤ}

theorem sideOf_less {word : Ptr} :
    sideOf mem pivot word = .less ↔ strcmpAt mem word pivot < 0 := by
  rw [sideOf, side]
  split_ifs <;> simp <;> omega

theorem sideOf_equal {word : Ptr} :
    sideOf mem pivot word = .equal ↔ strcmpAt mem word pivot = 0 := by
  rw [sideOf, side]
  split_ifs <;> simp <;> omega

theorem sideOf_greater {word : Ptr} :
    sideOf mem pivot word = .greater ↔ 0 < strcmpAt mem word pivot := by
  rw [sideOf, side]
  split_ifs <;> simp <;> omega

/-- The three sides together are the whole. -/
theorem filter_sides_perm (f : Ptr → Side) (l : List Ptr) :
    (l.filter (fun a => f a = .less) ++ (l.filter (fun a => f a = .equal) ++
      l.filter fun a => f a = .greater)).Perm l := by
  induction l with
  | nil => exact List.Perm.refl _
  | cons a l ih =>
    cases h : f a with
    | less => simpa [h] using ih
    | equal =>
      simp only [h, List.filter_cons, reduceCtorEq, decide_true, decide_false, if_true,
        Bool.false_eq_true, if_false]
      exact List.perm_middle.trans (ih.cons a)
    | greater =>
      simp only [h, List.filter_cons, reduceCtorEq, decide_true, decide_false, if_true,
        Bool.false_eq_true, if_false]
      rw [← List.append_assoc]
      refine List.perm_middle.trans ?_
      rw [List.append_assoc]
      exact ih.cons a

namespace Partitions

/-- The length of the stretch a class got. -/
theorem length_eq {a b : ℤ} {c : Side} (hab : a ≤ b)
    (h : slice w' a b = (slice w left right).filter fun a => f a = c) :
    b - a = before f w left right c := by
  rw [← length_filter_slice, ← h, length_slice]
  omega

/-- The boundaries are determined. -/
theorem boundaries (h : Partitions f left right w w' m) :
    m = (left + before f w left right .less,
      left + before f w left right .less + before f w left right .equal) := by
  have hless := length_eq h.bounds.1 h.less
  have hequal := length_eq h.bounds.2.1 h.equal
  apply Prod.ext
  · dsimp only
    omega
  · dsimp only
    omega

/-- The content of the range is determined. -/
theorem slice_eq (h : Partitions f left right w w' m) :
    slice w' left right = (slice w left right).filter (fun a => f a = .less) ++
      ((slice w left right).filter (fun a => f a = .equal) ++
        (slice w left right).filter fun a => f a = .greater) := by
  obtain ⟨hlo, hmid, hhi⟩ := h.bounds
  rw [← h.less, ← h.equal, ← h.greater, slice_append w' hmid hhi,
    slice_append w' hlo (hmid.trans hhi)]

/-- The partition leaves nothing to chance: it determines the array and the boundaries. -/
theorem unique (h : Partitions f left right w w' m) (h' : Partitions f left right w w'' m') :
    m = m' ∧ w' = w'' := by
  refine ⟨h.boundaries.trans h'.boundaries.symm, funext fun i => ?_⟩
  have hslice := h.slice_eq.trans h'.slice_eq.symm
  by_cases hi : left ≤ i ∧ i < right
  · exact eq_of_slice_eq hslice hi.1 hi.2
  · rw [h.frame i (by omega), h'.frame i (by omega)]

theorem rearranges (h : Partitions f left right w w' m) : Rearranges left right w w' := by
  refine ⟨?_, h.frame⟩
  rw [h.slice_eq]
  exact filter_sides_perm f _

/-- Every cell of a stretch is on its side. -/
theorem side_of_slice {a b i : ℤ} {c : Side}
    (h : slice w' a b = (slice w left right).filter fun a => f a = c) (ha : a ≤ i) (hb : i < b) :
    f (w' i) = c := by
  have hmem : w' i ∈ slice w' a b := mem_slice.mpr ⟨i, ha, hb, rfl⟩
  rw [h] at hmem
  exact of_decide_eq_true (List.mem_filter.mp hmem).2

/-- When a word of the range is equal to the pivot, the middle stretch is not empty. -/
theorem middle_nonempty (h : Partitions f left right w w' m) {i : ℤ} (hi : left ≤ i)
    (hir : i < right) (heq : f (w i) = .equal) : m.1 < m.2 := by
  have hlen := length_eq h.bounds.2.1 h.equal
  have hpos := before_lt f w hi hir
  have hnonneg := before_nonneg f w left i (f (w i))
  rw [heq] at hpos hnonneg
  omega

end Partitions

end Partitioned

/-! ## Every slot of `temp`, once -/

theorem tempWrites_append (t t' : List (Event Call)) :
    tempWrites (t ++ t') = tempWrites t ++ tempWrites t' :=
  List.filterMap_append

/-- What a call adds to the trace writes each slot of `temp` exactly once, and no other. -/
theorem parSortPartition_temps (mem : Mem) (team : Team) {left right : ℤ}
    (h : 1 < right - left) (s : Machine Call Ptr) :
    ∃ t, ((parSortPartition mem team left right).exec s).trace = t ++ s.trace ∧
      ∀ k, (tempWrites t).count k = if 0 ≤ k ∧ k < right - left then 1 else 0 := by
  obtain ⟨t, ht, _⟩ := (parSortPartition_local mem team left right).traced s
  have hperm := (parSortPartition_spec mem team h s).2
  rw [ht, tempWrites_append, List.perm_append_right_iff] at hperm
  refine ⟨t, ht, fun k => ?_⟩
  rw [hperm.count_eq, count_slice_id]

/-- **The three-way partition is stable and leaves nothing to chance.** With `m` the two
boundaries, the range holds the words smaller than the pivot, then the equal ones, then the
greater ones, each in their original order; nothing outside changes; each slot of `temp` is
written once; and another team would have left the same array and the same boundaries. -/
theorem parSortPartition_stable (mem : Mem) (team : Team) {left right : ℤ}
    (h : 2 ≤ right - left) (s : Machine Call Ptr) :
    ∃ (m : ℤ × ℤ) (w' : ℤ → Ptr) (t : List (Event Call)),
      (parSortPartition mem team left right).val s = m ∧
      (parSortPartition mem team left right).exec s = ⟨w', t ++ s.trace⟩ ∧
      (left ≤ m.1 ∧ m.1 ≤ m.2 ∧ m.2 ≤ right) ∧
      slice w' left m.1 = (slice s.cells left right).filter
        (fun word => strcmpAt mem word ((parPivotSelect mem left right).val s) < 0) ∧
      slice w' m.1 m.2 = (slice s.cells left right).filter
        (fun word => strcmpAt mem word ((parPivotSelect mem left right).val s) = 0) ∧
      slice w' m.2 right = (slice s.cells left right).filter
        (fun word => 0 < strcmpAt mem word ((parPivotSelect mem left right).val s)) ∧
      (∀ i, i < left ∨ right ≤ i → w' i = s.cells i) ∧
      (∀ k, (tempWrites t).count k = if 0 ≤ k ∧ k < right - left then 1 else 0) ∧
      ∀ team' : Team, (parSortPartition mem team' left right).val s = m ∧
        ((parSortPartition mem team' left right).exec s).cells = w' := by
  have hpart := (parSortPartition_spec mem team h s).1
  obtain ⟨t, htrace, htemps⟩ := parSortPartition_temps mem team h s
  refine ⟨_, _, t, rfl, ?_, hpart.bounds, ?_, ?_, ?_, hpart.frame, htemps, fun team' => ?_⟩
  · rw [← htrace]
  · rw [hpart.less]
    simp only [sideOf_less]
  · rw [hpart.equal]
    simp only [sideOf_equal]
  · rw [hpart.greater]
    simp only [sideOf_greater]
  · exact (parSortPartition_spec mem team' h s).1.unique hpart

/-- The words `b` and `a`: the pivot `a` is alone in the middle. -/
theorem parSortPartition_stable_two :
    slice ((parSortPartition [98, 0, 97, 0] Team.solo 0 2).exec ⟨fun i => 2 * i.toNat, []⟩).cells
      ((parSortPartition [98, 0, 97, 0] Team.solo 0 2).val ⟨fun i => 2 * i.toNat, []⟩).1
      ((parSortPartition [98, 0, 97, 0] Team.solo 0 2).val ⟨fun i => 2 * i.toNat, []⟩).2 = [2] := by
  obtain ⟨m, w', t, hval, hexec, _, _, hequal, _⟩ :=
    parSortPartition_stable [98, 0, 97, 0] Team.solo (by decide : (2 : ℤ) ≤ 2 - 0)
      ⟨fun i => 2 * i.toNat, []⟩
  rw [hval, hexec, hequal]
  decide

end EfficientDictionary
