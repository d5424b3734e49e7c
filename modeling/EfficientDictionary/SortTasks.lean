import EfficientDictionary.Concurrent
import EfficientDictionary.IntRange

/-!
# The parallel sorts, one memory access at a time

`TaskSort` and `ParallelSort` run sibling tasks one after the other, in an order a schedule
chooses. Here the same functions are texts for tasks that share a memory, so that two tasks
interleave between any two accesses: the array of words, and the arrays that each call of
`par_sort_partition` allocates, are all read and written in place. Both parallel loops fork
a task for every turn.

The bytes of the strings are not written while the words are sorted, so `strcmp` is no
access. A result of an `int` computation that is no `int` is the call of a procedure that never
returns: a text that stops under every schedule never forms one.

The second half relates the texts that touch nothing but words to the programs of
`QuickSort` and `TaskSort`: `Follows A c m` says that `c`, with rights to the words at `A`
only, does to the words what `m` does. For `quick_sort_parallel` this settles the matter:
every schedule ends in the array that the sequential order of the tasks leaves.
-/

namespace EfficientDictionary

variable {β γ : Type}

/-! ## The memory -/

/-- The locations the sorts share. The arrays of a call of `par_sort_partition` are addressed
by the path `π` of that call in the tree of tasks. -/
inductive Loc : Type where
  /-- `words[i]` -/
  | word (i : ℤ)
  /-- `nL[id]`, `nE[id]` and `nG[id]` -/
  | count (π : List Bool) (c : Side) (id : ℤ)
  /-- `psL[id]`, `psE[id]` and `psG[id]` -/
  | sum (π : List Bool) (c : Side) (id : ℤ)
  /-- `temp[k]` -/
  | temp (π : List Bool) (k : ℤ)
  deriving DecidableEq

/-- What a location holds. -/
@[reducible] def Loc.Content : Loc → Type
  | .word _ => Ptr
  | .count _ _ _ => ℤ
  | .sum _ _ _ => ℤ
  | .temp _ _ => Ptr

/-- The procedures that call themselves. -/
inductive SortCall : Type where
  /-- `quick_sort_recursive` -/
  | quickSortRecursive (left right : ℤ)
  /-- `quick_sort_parallel` -/
  | quickSortParallel (left right threshold : ℤ)
  /-- `quicksort_parallel_recursive`, at the path `π` in the tree of tasks -/
  | quicksortParallelRecursive (π : List Bool) (left right threshold : ℤ)
  /-- what has no meaning -/
  | undefined

/-- The memory while the words are sorted. -/
abbrev SortMemory : Type := Contents Loc.Content

/-- Texts over that memory. -/
abbrev SortCode (β : Type) : Type := Code Loc Loc.Content SortCall β

/-- A result of `omp_get_max_threads()`. -/
abbrev Threads : Type := {t : ℤ // 1 ≤ t}

/-! ## Definitions -/

namespace Tasks

/-- `words[i]` -/
def loadWord (i : ℤ) : SortCode Ptr := Code.load (Loc.word i)

/-- `words[i] = a` -/
def storeWord (i : ℤ) (a : Ptr) : SortCode PUnit := Code.store (Loc.word i) a

/-- `nL[id]`, `nE[id]` or `nG[id]` -/
def loadCount (π : List Bool) (c : Side) (id : ℤ) : SortCode ℤ := Code.load (Loc.count π c id)

/-- `nL[id] = n` and the like -/
def storeCount (π : List Bool) (c : Side) (id n : ℤ) : SortCode PUnit :=
  Code.store (Loc.count π c id) n

/-- `psL[id]`, `psE[id]` or `psG[id]` -/
def loadSum (π : List Bool) (c : Side) (id : ℤ) : SortCode ℤ := Code.load (Loc.sum π c id)

/-- `psL[id] = n` and the like -/
def storeSum (π : List Bool) (c : Side) (id n : ℤ) : SortCode PUnit :=
  Code.store (Loc.sum π c id) n

/-- `temp[k]` -/
def loadTemp (π : List Bool) (k : ℤ) : SortCode Ptr := Code.load (Loc.temp π k)

/-- `temp[k] = a` -/
def storeTemp (π : List Bool) (k : ℤ) (a : Ptr) : SortCode PUnit := Code.store (Loc.temp π k) a

/-- The result `v` of an `int` computation -/
def int (v : ℤ) : SortCode PUnit := if IsInt v then pure ⟨⟩ else Code.call .undefined

/-- `swap_words(&words[a], &words[b])` -/
def swapWords (a b : ℤ) : SortCode PUnit := do
  let temp ← loadWord a
  let other ← loadWord b
  storeWord a other
  storeWord b temp

/-- One turn of the partition loop. -/
def moveSmallerTurn (mem : Mem) (pivot : Ptr) (i idx : ℤ) : SortCode ℤ := do
  int i
  let word ← loadWord i
  if strcmpAt mem word pivot < 0 then do
    swapWords idx i
    int (idx + 1)
    pure (idx + 1)
  else
    pure idx

/-- The loop that moves the words smaller than the pivot to the front. -/
def moveSmaller (mem : Mem) (pivot : Ptr) (left hi : ℤ) : SortCode ℤ :=
  Code.forRange left hi left (moveSmallerTurn mem pivot)

/-- `partition_words` -/
def partitionWords (mem : Mem) (left right : ℤ) : SortCode ℤ := do
  let pivot ← loadWord right
  let idx ← moveSmaller mem pivot left right
  swapWords idx right
  pure idx

/-- `quick_sort_recursive` -/
def quickSortRecursive (mem : Mem) (left right : ℤ) : SortCode PUnit :=
  if left < right then do
    let idx ← partitionWords mem left right
    int (idx - 1)
    Code.call (.quickSortRecursive left (idx - 1))
    int (idx + 1)
    Code.call (.quickSortRecursive (idx + 1) right)
  else
    pure ⟨⟩

/-- `if (strcmp(words[a], words[b]) > 0) swap_words(&words[a], &words[b])` -/
def orderWords (mem : Mem) (a b : ℤ) : SortCode PUnit := do
  let word ← loadWord a
  let other ← loadWord b
  if 0 < strcmpAt mem word other then
    swapWords a b
  else
    pure ⟨⟩

/-- `seq_pivot_select` -/
def seqPivotSelect (mem : Mem) (left right : ℤ) : SortCode ℤ := do
  let mid := seqMid left right
  int mid
  orderWords mem left mid
  orderWords mem left right
  orderWords mem mid right
  swapWords mid (right - 1)
  let pivot ← loadWord (right - 1)
  let idx ← moveSmaller mem pivot left (right - 1)
  swapWords idx (right - 1)
  pure idx

/-- `quick_sort_parallel` -/
def quickSortParallel (mem : Mem) (left right threshold : ℤ) : SortCode PUnit :=
  if left < right then
    if right - left < threshold then
      Code.call (.quickSortRecursive left right)
    else do
      let idx ← seqPivotSelect mem left right
      int (idx - 1)
      int (idx + 1)
      Code.fork (Code.call (.quickSortParallel left (idx - 1) threshold))
        (Code.call (.quickSortParallel (idx + 1) right threshold))
  else
    pure ⟨⟩

/-- `strcmp(a, b) <= 0 && strcmp(b, c) <= 0`, or the same the other way round -/
def between (mem : Mem) (a b c : Ptr) : Bool :=
  (decide (strcmpAt mem a b ≤ 0) && decide (strcmpAt mem b c ≤ 0)) ||
    (decide (strcmpAt mem c b ≤ 0) && decide (strcmpAt mem b a ≤ 0))

/-- `par_pivot_select` -/
def parPivotSelect (mem : Mem) (left right : ℤ) : SortCode Ptr := do
  int (parMid left right)
  let leftVal ← loadWord left
  let midVal ← loadWord (parMid left right)
  let rightVal ← loadWord (right - 1)
  if between mem leftVal midVal rightVal then
    pure midVal
  else if between mem midVal rightVal leftVal then
    pure rightVal
  else
    pure leftVal

/-- `calloc` for one of the arrays of counts. -/
def calloc (π : List Bool) (p : ℤ) (c : Side) : SortCode PUnit :=
  Code.forRange 0 p ⟨⟩ fun id _ => storeCount π c id 0

/-- `nL[id] = …; nE[id] = …; nG[id] = …` -/
def setCounts (π : List Bool) (id : ℤ) (count : Side → ℤ) : SortCode PUnit := do
  storeCount π .less id (count .less)
  storeCount π .equal id (count .equal)
  storeCount π .greater id (count .greater)

/-- The `int` computations of the bounds of chunk `id`. -/
def noteChunk (left ws : ℤ) (id : ℕ) : SortCode PUnit := do
  int (id * ws)
  int (left + id * ws)
  int ((id + 1) * ws)
  int (left + (id + 1) * ws)

/-- One turn of the inner counting loop. -/
def countWord (mem : Mem) (pivot : Ptr) (i : ℤ) (count : Side → ℤ) : SortCode (Side → ℤ) := do
  int i
  let word ← loadWord i
  let c := side (strcmpAt mem word pivot)
  pure (Function.update count c (count c + 1))

/-- One turn of the counting loop. -/
def countChunk (mem : Mem) (π : List Bool) (pivot : Ptr) (left right ws : ℤ) (id : ℕ) :
    SortCode PUnit := do
  noteChunk left ws id
  if right ≤ chunkStart left ws id then do
    -- the assignments are made from right to left
    storeCount π .greater id 0
    storeCount π .equal id 0
    storeCount π .less id 0
  else do
    let count ← Code.forRange (chunkStart left ws id) (chunkEnd left right ws id) (fun _ => 0)
      (countWord mem pivot)
    setCounts π id count

/-- The loop that fills `psL`, `psE` or `psG`; it returns the total. -/
def prefixSums (π : List Bool) (p : ℤ) (c : Side) : SortCode ℤ :=
  Code.forRange 0 p 0 fun i tot => do
    storeSum π c i tot
    let n ← loadCount π c i
    pure (tot + n)

/-- Three values, one for each side. -/
def bySide (l e g : ℤ) : Side → ℤ
  | .less => l
  | .equal => e
  | .greater => g

/-- One turn of the inner copying loop, with the local variables `wL`, `wE` and `wG`. -/
def scatterWord (mem : Mem) (π : List Bool) (pivot : Ptr) (base : Side → ℤ) (i : ℤ)
    (cursor : Side → ℤ) : SortCode (Side → ℤ) := do
  int i
  let word ← loadWord i
  let c := side (strcmpAt mem word pivot)
  let word ← loadWord i
  storeTemp π (base c + cursor c) word
  pure (Function.update cursor c (cursor c + 1))

/-- One turn of the copying loop. -/
def scatterChunk (mem : Mem) (π : List Bool) (pivot : Ptr) (base : Side → ℤ)
    (left right ws : ℤ) (id : ℕ) : SortCode PUnit := do
  noteChunk left ws id
  let wL ← loadSum π .less id
  let wE ← loadSum π .equal id
  let wG ← loadSum π .greater id
  let _ ← Code.forRange (chunkStart left ws id) (chunkEnd left right ws id) (bySide wL wE wG)
    (scatterWord mem π pivot base)
  pure ⟨⟩

/-- The loop that copies `temp` back. -/
def copyBack (π : List Bool) (left n : ℤ) : SortCode PUnit :=
  Code.forRange 0 n ⟨⟩ fun k _ => do
    let word ← loadTemp π k
    storeWord (left + k) word

/-- `par_sort_partition`; the result is `*m1` and `*m2`. -/
def parSortPartition (mem : Mem) (threads : ℤ) (π : List Bool) (left right : ℤ) :
    SortCode (ℤ × ℤ) := do
  let n := right - left
  if n ≤ 1 then
    pure (left, right)
  else do
    let pivot ← parPivotSelect mem left right
    let p := if n < threads then n else threads
    int (n + p)
    int (n + p - 1)
    let ws := (n + p - 1).tdiv p
    calloc π p .less
    calloc π p .equal
    calloc π p .greater
    Code.parallelFor p.toNat (countChunk mem π pivot left right ws)
    let totL ← prefixSums π p .less
    let totE ← prefixSums π p .equal
    let totG ← prefixSums π p .greater
    Code.parallelFor p.toNat
      (scatterChunk mem π pivot (bases (bySide totL totE totG)) left right ws)
    copyBack π left n
    pure (left + totL, left + totL + totE)

/-- `quicksort_parallel_recursive` -/
def quicksortParallelRecursive (mem : Mem) (threads : Choices Threads) (π : List Bool)
    (left right threshold : ℤ) : SortCode PUnit :=
  if right - left ≤ 1 then
    pure ⟨⟩
  else if right - left ≤ threshold then do
    int (right - 1)
    Code.call (.quickSortRecursive left (right - 1))
  else do
    let m ← parSortPartition mem (threads π).1 π left right
    Code.fork (Code.call (.quicksortParallelRecursive (π ++ [true]) left m.1 threshold))
      (Code.call (.quicksortParallelRecursive (π ++ [false]) m.2 right threshold))

/-- The bodies of the procedures. What has no meaning never ends. -/
def bodies (mem : Mem) (threads : Choices Threads) : Bodies Loc Loc.Content SortCall
  | .quickSortRecursive left right, k => quickSortRecursive mem left right fun _ => k
  | .quickSortParallel left right threshold, k =>
    quickSortParallel mem left right threshold fun _ => k
  | .quicksortParallelRecursive π left right threshold, k =>
    quicksortParallelRecursive mem threads π left right threshold fun _ => k
  | .undefined, k => .call .undefined k

/-- `quick_sort_words_parallel` with any threshold: one thread of the team makes the first
call, the others wait for tasks. -/
def quickSortWordsParallelWith (threshold : ℤ) (count : ℕ) : SortCode PUnit :=
  if count ≤ 1 then pure ⟨⟩ else
    Code.call (.quickSortParallel 0 (toInt (count - 1)) threshold)

/-- `quick_sort_words_parallel` -/
def quickSortWordsParallel (count : ℕ) : SortCode PUnit := quickSortWordsParallelWith 5000 count

/-- `quicksort_parallel` with any threshold -/
def quicksortParallelWith (threshold n : ℤ) : SortCode PUnit :=
  if n ≤ 1 then pure ⟨⟩ else Code.call (.quicksortParallelRecursive [] 0 n threshold)

/-- `quicksort_parallel` -/
def quicksortParallel (n : ℤ) : SortCode PUnit := quicksortParallelWith 3000 n

end Tasks

/-! ## The words among the locations -/

/-- The words of the memory. -/
def words (w : SortMemory) (i : ℤ) : Ptr := w (Loc.word i)

/-- The memory with other words. -/
def setWords (w : SortMemory) (f : ℤ → Ptr) : SortMemory
  | .word i => f i
  | .count π c id => w (Loc.count π c id)
  | .sum π c id => w (Loc.sum π c id)
  | .temp π k => w (Loc.temp π k)

/-- A memory with the words `f` and zeros everywhere else. -/
def wordMemory (f : ℤ → Ptr) : SortMemory
  | .word i => f i
  | .count _ _ _ => (0 : ℤ)
  | .sum _ _ _ => (0 : ℤ)
  | .temp _ _ => (0 : ℕ)

@[simp] theorem words_setWords (w : SortMemory) (f : ℤ → Ptr) : words (setWords w f) = f := rfl

@[simp] theorem setWords_setWords (w : SortMemory) (f g : ℤ → Ptr) :
    setWords (setWords w f) g = setWords w g := by
  funext x
  cases x <;> rfl

theorem setWords_words (w : SortMemory) : setWords w (words w) = w := by
  funext x
  cases x <;> rfl

theorem update_word (w : SortMemory) (i : ℤ) (a : Ptr) :
    Function.update w (Loc.word i) a = setWords w (Function.update (words w) i a) := by
  funext x
  by_cases hx : x = Loc.word i
  · subst hx
    rw [Function.update_self]
    exact (Function.update_self i a (words w)).symm
  · rw [Function.update_of_ne hx]
    cases x with
    | word j =>
      have hji : j ≠ i := fun hji => hx (congrArg Loc.word hji)
      exact (Function.update_of_ne hji a (words w)).symm
    | count π c id => rfl
    | sum π c id => rfl
    | temp π k => rfl

/-- The rights to read and write the words at the indices `A`. -/
def wordRights (A : Set ℤ) : Rights Loc := Rights.all (Loc.word '' A)

theorem word_mem_writes {A : Set ℤ} {i : ℤ} (h : i ∈ A) : Loc.word i ∈ (wordRights A).writes :=
  Set.mem_image_of_mem Loc.word h

theorem word_mem_reads {A : Set ℤ} {i : ℤ} (h : i ∈ A) : Loc.word i ∈ (wordRights A).reads :=
  Set.mem_image_of_mem Loc.word h

theorem wordRights_within {A B : Set ℤ} (h : A ⊆ B) : (wordRights A).Within (wordRights B) :=
  Rights.Within.all (Set.image_mono h)

theorem wordRights_apart {A B : Set ℤ} (h : Disjoint A B) :
    (wordRights A).Apart (wordRights B) :=
  Rights.Apart.all (Set.disjoint_image_of_injective (fun _ _ => Loc.word.inj) h)

/-! ## Following a sequential program -/

section Follows

variable (mem : Mem) (threads : Choices Threads)

/-- With rights to the words at `A` only, the text `c` does to the words what the program `m`
does, and returns the same value. -/
def Follows (A : Set ℤ) (c : SortCode β) (m : CProg Ptr β) : Prop :=
  ∀ (w : SortMemory) (s : Machine Call Ptr), words w = s.cells →
    Effect (Tasks.bodies mem threads) (wordRights A) c w (m.val s) (setWords w (m.exec s).cells)

namespace Follows

variable {mem threads} {A B : Set ℤ} {c : SortCode β} {m : CProg Ptr β}

theorem mono (h : Follows mem threads A c m) (hA : A ⊆ B) : Follows mem threads B c m :=
  fun w s hw => (h w s hw).mono (wordRights_within hA)

theorem pure (A : Set ℤ) (b : β) : Follows mem threads A (pure b) (pure b) := by
  intro w s hw
  rw [Prog.pure_exec, ← hw, setWords_words]
  exact Effect.pure _ b w

theorem bind {f : β → SortCode γ} {g : β → CProg Ptr γ} (h : Follows mem threads A c m)
    (hf : ∀ s, Follows mem threads A (f (m.val s)) (g (m.val s))) :
    Follows mem threads A (c >>= f) (m >>= g) := by
  intro w s hw
  have hrest := hf s (setWords w (m.exec s).cells) (m.exec s) (words_setWords w _)
  rw [setWords_setWords] at hrest
  exact (h w s hw).bind hrest

/-- A number that a program reports must be an `int`. -/
theorem int {v : ℤ} (hv : IsInt v) : Follows mem threads A (Tasks.int v)
    (EfficientDictionary.int v) := by
  intro w s hw
  rw [Tasks.int, if_pos hv, int_cells, ← hw, setWords_words]
  exact Effect.pure _ _ w

/-- A call of `strcmp` that it reports is no access. -/
theorem strcmp {a b : Ptr} {f : ℤ → CProg Ptr β}
    (h : Follows mem threads A c (f (strcmpAt mem a b))) :
    Follows mem threads A c (EfficientDictionary.strcmp mem a b >>= f) :=
  fun w s hw => h w ((EfficientDictionary.note (.strcmp a b) : CProg Ptr PUnit).exec s) hw

theorem loadWord {i : ℤ} (hi : i ∈ A) : Follows mem threads A (Tasks.loadWord i) (load i) := by
  intro w s hw
  rw [load_val, load_cells, ← hw, setWords_words]
  exact Effect.load (word_mem_reads hi) w

theorem storeWord {i : ℤ} (hi : i ∈ A) (a : Ptr) :
    Follows mem threads A (Tasks.storeWord i a) (store i a) := by
  intro w s hw
  rw [store_exec, ← hw, ← update_word]
  exact Effect.store (word_mem_writes hi) a w

theorem ite {p : Prop} [Decidable p] {c' : SortCode β} {m' : CProg Ptr β}
    (h : p → Follows mem threads A c m) (h' : ¬ p → Follows mem threads A c' m') :
    Follows mem threads A (if p then c else c') (if p then m else m') := by
  split
  · exact h ‹_›
  · exact h' ‹_›

/-- A counted loop, given what is known of the local variables at each turn. -/
theorem forEach_range {I : ℕ → β → Prop} {f : ℕ → β → SortCode β} {g : ℕ → β → CProg Ptr β}
    {n : ℕ} {b : β} (h0 : I 0 b)
    (hstep : ∀ i b, i < n → I i b →
      Follows mem threads A (f i b) (g i b) ∧ ∀ s, I (i + 1) ((g i b).val s)) :
    Follows mem threads A (Code.forEach (List.range n) b f) (forEach (List.range n) b g) ∧
      ∀ s, I n ((forEach (List.range n) b g).val s) := by
  induction n with
  | zero => exact ⟨Follows.pure A b, fun _ => h0⟩
  | succ n ih =>
    obtain ⟨hloop, hI⟩ := ih fun i b hi => hstep i b (by omega)
    rw [Code.forEach_range_succ, forEach_range_succ]
    exact ⟨hloop.bind fun s => (hstep n _ (by omega) (hI s)).1,
      fun s => (hstep n _ (by omega) (hI s)).2 _⟩

theorem forRange {I : ℤ → β → Prop} {f : ℤ → β → SortCode β} {g : ℤ → β → CProg Ptr β}
    {lo hi : ℤ} {b : β} (h0 : I lo b)
    (hstep : ∀ i b, lo ≤ i → i < hi → I i b →
      Follows mem threads A (f i b) (g i b) ∧ ∀ s, I (i + 1) ((g i b).val s)) :
    Follows mem threads A (Code.forRange lo hi b f) (EfficientDictionary.forRange lo hi b g) := by
  refine (forEach_range (I := fun k b => I (lo + (k : ℤ)) b) (by simpa using h0)
    fun k b hk h => ?_).1
  have hsucc : lo + ((k + 1 : ℕ) : ℤ) = lo + (k : ℤ) + 1 := by omega
  rw [hsucc]
  exact hstep (lo + k) b (by omega) (by omega) h

/-- Every schedule of the text leaves the words as the program does, whatever that has
reported before. -/
theorem settles {c : SortCode PUnit} {m : CProg Ptr PUnit} (h : Follows mem threads A c m)
    (w : SortMemory) (t : List (Event Call)) :
    Settles (Tasks.bodies mem threads) c.process w (setWords w (m.exec ⟨words w, t⟩).cells) :=
  (h w ⟨words w, t⟩ rfl).settles

/-- A call follows what the body of the procedure follows. -/
theorem call {f : SortCall} {c : SortCode PUnit} {m : CProg Ptr PUnit}
    (hbody : ∀ k, Tasks.bodies mem threads f (k ⟨⟩) = c k) (h : Follows mem threads A c m) :
    Follows mem threads A (Code.call f) m :=
  fun w s hw => (h w s hw).call hbody

/-- **Sibling tasks** with words of their own follow the siblings run one after the other,
whichever comes first. -/
theorem fork {R : Set ℤ} {c c' : SortCode PUnit} {m m' : CProg Ptr PUnit} (hA : A ⊆ R)
    (hB : B ⊆ R) (hd : Disjoint A B) (hc : Follows mem threads A c m)
    (hc' : Follows mem threads B c' m') (hm : Local A m) (hm' : Local B m') (b : Bool) :
    Follows mem threads R (Code.fork c c') (par b m m') := by
  intro w s hw
  obtain ⟨hfirst, hsecond, hrest⟩ := par_cells hm hm' hd b s
  refine Effect.fork (wordRights_within hA) (wordRights_within hB) (wordRights_apart hd)
    (hc w s hw) (hc' w s hw) ⟨?_, ?_, ?_⟩
  · rintro x ⟨i, hi, rfl⟩
    exact hfirst i hi
  · rintro x ⟨i, hi, rfl⟩
    exact hsecond i hi
  · intro x hx hx'
    cases x with
    | word i =>
      exact (hrest i (fun hi => hx (Set.mem_image_of_mem Loc.word hi))
        fun hi => hx' (Set.mem_image_of_mem Loc.word hi)).trans (congrFun hw i).symm
    | count π c id => rfl
    | sum π c id => rfl
    | temp π k => rfl

end Follows

/-! ## quick_sort_recursive -/

section SequentialParts

variable {mem threads} {A : Set ℤ} {a b left right hi i idx : ℤ} {pivot : Ptr}

/-- The indices whose neighbours are `int`s too. -/
def indices : Set ℤ := Set.Ico 0 (2 ^ 31 - 1)

theorem isInt_of_mem (h : i ∈ indices) : IsInt i ∧ IsInt (i - 1) ∧ IsInt (i + 1) := by
  obtain ⟨hlo, hhi⟩ := h
  rw [IsInt, IsInt, IsInt]
  omega

theorem swapWords_follows (ha : a ∈ A) (hb : b ∈ A) :
    Follows mem threads A (Tasks.swapWords a b) (swapWords a b) :=
  (Follows.loadWord ha).bind fun _ => (Follows.loadWord hb).bind fun _ =>
    (Follows.storeWord ha _).bind fun _ => Follows.storeWord hb _

theorem moveSmallerTurn_follows (hA : A ⊆ indices) (hi : i ∈ A) (hidx : idx ∈ A) :
    Follows mem threads A (Tasks.moveSmallerTurn mem pivot i idx)
      (moveSmallerTurn mem pivot i idx) := by
  refine (Follows.int (isInt_of_mem (hA hi)).1).bind fun _ =>
    (Follows.loadWord hi).bind fun s => Follows.strcmp ?_
  refine Follows.ite (fun _ => ?_) fun _ => Follows.pure A idx
  exact (swapWords_follows hidx hi).bind fun _ =>
    (Follows.int (isInt_of_mem (hA hidx)).2.2).bind fun _ => Follows.pure A (idx + 1)

theorem moveSmaller_follows (hA : A ⊆ indices) (h : Set.Ico left hi ⊆ A) :
    Follows mem threads A (Tasks.moveSmaller mem pivot left hi)
      (moveSmaller mem pivot left hi) := by
  refine Follows.forRange (I := fun i idx => left ≤ idx ∧ idx ≤ i) ⟨le_refl _, le_refl _⟩ ?_
  intro i idx hl hr hidx
  refine ⟨moveSmallerTurn_follows hA (h ⟨hl, hr⟩) (h ⟨hidx.1, by omega⟩), fun s => ?_⟩
  rcases moveSmallerTurn_val mem pivot i idx s with hv | hv
  · omega
  · omega

theorem partitionWords_follows (hrange : Set.Icc left right ⊆ indices) (h : left ≤ right) :
    Follows mem threads (Set.Icc left right) (Tasks.partitionWords mem left right)
      (partitionWords mem left right) := by
  have hright : right ∈ Set.Icc left right := ⟨h, le_refl right⟩
  refine (Follows.loadWord hright).bind fun s => ?_
  refine (moveSmaller_follows hrange Set.Ico_subset_Icc_self).bind fun s' => ?_
  exact (swapWords_follows (moveSmaller_bounds _ _ h s') hright).bind fun _ =>
    Follows.pure _ _

theorem quickSortRecursive_follows (left right : ℤ) (hrange : Set.Icc left right ⊆ indices) :
    Follows mem threads (Set.Icc left right) (Tasks.quickSortRecursive mem left right)
      (quickSortRecursive mem left right) := by
  induction left, right using range_induction with
  | step left right ih =>
    rw [Tasks.quickSortRecursive]
    split_ifs with h
    · rw [quickSortRecursive_of_lt mem h]
      refine (partitionWords_follows hrange h.le).bind fun s => ?_
      obtain ⟨hlo, hhi⟩ := partitionWords_bounds mem h.le s
      obtain ⟨-, hprev, hnext⟩ := isInt_of_mem (hrange ⟨hlo, hhi⟩)
      have hin : Set.Icc left ((partitionWords mem left right).val s - 1) ⊆ Set.Icc left right :=
        Set.Icc_subset_Icc_right (by omega)
      have hin' : Set.Icc ((partitionWords mem left right).val s + 1) right ⊆ Set.Icc left right :=
        Set.Icc_subset_Icc_left (by omega)
      have hcall : Follows mem threads (Set.Icc left right)
          (Code.call (.quickSortRecursive left ((partitionWords mem left right).val s - 1))) _ :=
        Follows.call (fun _ => rfl) ((ih _ _ (by omega) (hin.trans hrange)).mono hin)
      have hcall' : Follows mem threads (Set.Icc left right)
          (Code.call (.quickSortRecursive ((partitionWords mem left right).val s + 1) right)) _ :=
        Follows.call (fun _ => rfl) ((ih _ _ (by omega) (hin'.trans hrange)).mono hin')
      exact (Follows.int hprev).bind fun _ => hcall.bind fun _ =>
        (Follows.int hnext).bind fun _ => hcall'
    · rw [quickSortRecursive_of_le mem (not_lt.mp h)]
      exact Follows.pure _ _

/-! ## quick_sort_parallel -/

theorem orderWords_follows (ha : a ∈ A) (hb : b ∈ A) :
    Follows mem threads A (Tasks.orderWords mem a b) (orderWords mem a b) := by
  refine (Follows.loadWord ha).bind fun s => (Follows.loadWord hb).bind fun s' => ?_
  exact (Follows.ite (fun _ => swapWords_follows ha hb) fun _ => Follows.pure A _).strcmp

theorem seqPivotSelect_follows (hrange : Set.Icc left right ⊆ indices) (h : left < right) :
    Follows mem threads (Set.Icc left right) (Tasks.seqPivotSelect mem left right)
      (seqPivotSelect mem left right) := by
  obtain ⟨hlo, hhi⟩ := seqMid_bounds h
  have hmid : seqMid left right ∈ Set.Icc left right := ⟨hlo, by omega⟩
  have hleft : left ∈ Set.Icc left right := ⟨le_refl left, h.le⟩
  have hright : right ∈ Set.Icc left right := ⟨h.le, le_refl right⟩
  have hprev : right - 1 ∈ Set.Icc left right := ⟨by omega, by omega⟩
  refine (Follows.int (isInt_of_mem (hrange hmid)).1).bind fun _ =>
    (orderWords_follows hleft hmid).bind fun _ =>
    (orderWords_follows hleft hright).bind fun _ =>
    (orderWords_follows hmid hright).bind fun _ =>
    (swapWords_follows hmid hprev).bind fun _ => (Follows.loadWord hprev).bind fun s => ?_
  have hscan : Set.Ico left (right - 1) ⊆ Set.Icc left right :=
    fun i hi => ⟨hi.1, hi.2.le.trans (by omega)⟩
  refine (moveSmaller_follows hrange hscan).bind fun s' => ?_
  obtain ⟨hidx, hidx'⟩ := moveSmaller_bounds mem ((load (right - 1) : CProg Ptr Ptr).val s)
    (by omega : left ≤ right - 1) s'
  have hmem : (moveSmaller mem ((load (right - 1) : CProg Ptr Ptr).val s) left
      (right - 1)).val s' ∈ Set.Icc left right := ⟨hidx, by omega⟩
  exact (swapWords_follows hmem hprev).bind fun _ => Follows.pure _ _

/-- The tasks follow the sequential program, in whatever order that runs them. -/
theorem quickSortParallel_follows (threshold : ℤ) (σ : Choices Bool) (left right : ℤ)
    (hrange : Set.Icc left right ⊆ indices) :
    Follows mem threads (Set.Icc left right) (Tasks.quickSortParallel mem left right threshold)
      (quickSortParallel mem threshold σ left right) := by
  revert σ
  induction left, right using range_induction with
  | step left right ih =>
    intro σ
    rw [Tasks.quickSortParallel]
    split_ifs with h hsmall
    · rw [quickSortParallel_of_lt_threshold mem threshold σ h hsmall]
      exact (quickSortRecursive_follows left right hrange).call fun _ => rfl
    · rw [quickSortParallel_of_tasks mem threshold σ h hsmall]
      refine (seqPivotSelect_follows hrange h).bind fun s => ?_
      obtain ⟨hlo, hhi⟩ := seqPivotSelect_bounds mem h s
      generalize (seqPivotSelect mem left right).val s = idx at *
      obtain ⟨-, hprev, hnext⟩ := isInt_of_mem (hrange ⟨hlo, by omega⟩)
      have hin : Set.Icc left (idx - 1) ⊆ Set.Icc left right := Set.Icc_subset_Icc_right (by omega)
      have hin' : Set.Icc (idx + 1) right ⊆ Set.Icc left right := Set.Icc_subset_Icc_left (by omega)
      have hleft := ih left (idx - 1) (by omega) (hin.trans hrange) σ.first
      have hright := ih (idx + 1) right (by omega) (hin'.trans hrange) σ.second
      refine (Follows.int hprev).bind fun _ => (Follows.int hnext).bind fun _ => ?_
      exact Follows.fork hin hin'
        (tasks_disjoint left right idx) (hleft.call fun _ => rfl) (hright.call fun _ => rfl)
        (quickSortParallel_local mem threshold σ.first left (idx - 1))
        (quickSortParallel_local mem threshold σ.second (idx + 1) right) σ.here
    · rw [quickSortParallel_of_le mem threshold σ (not_lt.mp h)]
      exact Follows.pure _ _

end SequentialParts

theorem quickSortWordsParallelWith_follows (threshold : ℤ) (σ : Choices Bool) {count : ℕ}
    (hcount : count < 2 ^ 31) :
    Follows mem threads (Set.Icc 0 (toInt (count - 1)))
      (Tasks.quickSortWordsParallelWith threshold count)
      (quickSortWordsParallelWith threshold σ mem count) := by
  have hint := toInt_le (count - 1)
  have hlast : toInt (count - 1) < 2 ^ 31 - 1 := by omega
  have hcall : ∀ right < 2 ^ 31 - 1, Follows mem threads (Set.Icc 0 right)
      (Code.call (.quickSortParallel 0 right threshold))
      (quickSortParallel mem threshold σ 0 right) :=
    fun right hright => (quickSortParallel_follows threshold σ 0 right
      fun i hi => ⟨hi.1, lt_of_le_of_lt hi.2 hright⟩).call fun _ => rfl
  rw [Tasks.quickSortWordsParallelWith, quickSortWordsParallelWith]
  split_ifs
  · exact Follows.pure _ _
  · exact hcall _ hlast

end Follows

end EfficientDictionary
