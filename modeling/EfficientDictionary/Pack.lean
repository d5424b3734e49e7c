import EfficientDictionary.CString
import EfficientDictionary.Stretch

/-!
# The packing step of WordList

The unique words are copied into one block of memory: a table of pointers, then the
strings one after another. The block is modelled byte by byte. A byte of a pointer is a
`Cell` of its own kind, since all that is known of a pointer is where it points.

* `packSize`, `packWords` — the two loops of the source, over the array of words;
  `packBlock` runs both.
* `packStrings strs` — the block that holds the strings `strs`, as a list of cells.
* `wordAt block i` — what a caller reads at `words[i]`: the pointer, then the bytes up to
  the first `0`.
* `packBlock_cells`, `wordAt_packStrings` — packing makes `packStrings` of the words, and
  reading it gives the words back.
-/

namespace EfficientDictionary

/-! ## Definitions -/

/-- One byte of the block. -/
inductive Cell : Type where
  /-- not written yet -/
  | undef
  /-- a byte of a string -/
  | byte (b : UInt8)
  /-- byte `k` of a pointer to offset `off` of the block -/
  | ptr (off k : ℕ)
  deriving DecidableEq, Repr

/-- `sizeof(char*)` -/
def ptrBytes : ℕ := 8

/-- `memcpy(dst, src, n)` from the document into the block -/
def memcpy (mem : Mem) (dst : ℕ) (src : Ptr) (n : ℕ) : CProg Cell PUnit := do
  note (.memcpy src n)
  storeAll dst n fun k => .byte (byteAt mem (src + k))

/-- `out[i] = pool` -/
def storePtr (i pool : ℕ) : CProg Cell PUnit :=
  storeAll (ptrBytes * i : ℕ) ptrBytes (.ptr pool)

/-- The loop that sums `str_size`. -/
def packSize (mem : Mem) (words : ℤ → Ptr) (uniqueCount : ℕ) : CProg Cell ℕ :=
  forEach (List.range uniqueCount) 0 fun i strSize => do
    let len ← strlen mem (words i)
    pure (strSize + (len + 1))

/-- One turn of the copying loop; it returns the new `pool`. -/
def packStep (mem : Mem) (words : ℤ → Ptr) (i pool : ℕ) : CProg Cell ℕ := do
  let len ← strlen mem (words i)
  memcpy mem pool (words i) (len + 1)
  storePtr i pool
  pure (pool + (len + 1))

/-- The copying loop, with `pool` started behind the table. -/
def packWords (mem : Mem) (words : ℤ → Ptr) (uniqueCount : ℕ) : CProg Cell ℕ :=
  forEach (List.range uniqueCount) (uniqueCount * ptrBytes) (packStep mem words)

/-- The two loops, the second on a block fresh from `malloc`: the block they leave and the
string calls they make. -/
def packBlock (mem : Mem) (words : ℤ → Ptr) (uniqueCount : ℕ) : List Cell × List Call :=
  let sized := (packSize mem words uniqueCount).exec ⟨fun _ => .undef, []⟩
  let strSize := (packSize mem words uniqueCount).val ⟨fun _ => .undef, []⟩
  let packed := (packWords mem words uniqueCount).exec sized
  (slice packed.cells 0 (uniqueCount * ptrBytes + strSize : ℕ), notes packed.trace)

/-! ## The block of a list of strings -/

/-- A string with its `0`. -/
def stringCells (t : List UInt8) : List Cell := (t ++ [0]).map .byte

/-- The bytes of a pointer. -/
def pointerCells (off : ℕ) : List Cell := (List.range ptrBytes).map (.ptr off)

/-- The strings one after another. -/
def poolCells (strs : List (List UInt8)) : List Cell := strs.flatMap stringCells

/-- The offset of string `i` in a block whose pool starts at `base`. -/
def stringOffset (base : ℕ) (strs : List (List UInt8)) (i : ℕ) : ℕ :=
  base + (poolCells (strs.take i)).length

/-- The table of pointers. -/
def tableCells (base : ℕ) (strs : List (List UInt8)) : List Cell :=
  (List.range strs.length).flatMap fun i => pointerCells (stringOffset base strs i)

/-- The block that holds the strings. -/
def packStrings (strs : List (List UInt8)) : List Cell :=
  tableCells (strs.length * ptrBytes) strs ++ poolCells strs

/-- The pointer in slot `i` of the table, if its bytes make one. -/
def pointerAt (block : List Cell) (i : ℕ) : Option ℕ :=
  match block[ptrBytes * i]? with
  | some (.ptr off _) =>
    if (block.drop (ptrBytes * i)).take ptrBytes = pointerCells off then some off else none
  | _ => none

/-- The string the cells start with, if they are bytes up to a `0`. -/
def cellString : List Cell → Option (List UInt8)
  | .byte b :: cells => if b = 0 then some [] else (cellString cells).map (b :: ·)
  | _ => none

/-- What a caller reads at `words[i]`. -/
def wordAt (block : List Cell) (i : ℕ) : Option (List UInt8) :=
  (pointerAt block i).bind fun off => cellString (block.drop off)

/-! ## Reading the block back -/

theorem cellString_stringCells {t : List UInt8} (h : (0 : UInt8) ∉ t) (rest : List Cell) :
    cellString (stringCells t ++ rest) = some t := by
  induction t with
  | nil => rfl
  | cons b t ih =>
    obtain ⟨hb, ht⟩ : b ≠ 0 ∧ (0 : UInt8) ∉ t := by
      rw [List.mem_cons, not_or] at h
      exact ⟨Ne.symm h.1, h.2⟩
    have hcons : stringCells (b :: t) ++ rest = .byte b :: (stringCells t ++ rest) := rfl
    rw [hcons, cellString, if_neg hb, ih ht]
    rfl

@[simp] theorem length_pointerCells (off : ℕ) : (pointerCells off).length = ptrBytes := by
  rw [pointerCells, List.length_map, List.length_range]

theorem length_tableCells (base : ℕ) (strs : List (List UInt8)) :
    (tableCells base strs).length = strs.length * ptrBytes := by
  simp [tableCells, List.length_flatMap]

/-- The table from slot `i` on starts with the pointer to string `i`. -/
theorem drop_tableCells (base : ℕ) {strs : List (List UInt8)} {i : ℕ} (hi : i < strs.length) :
    ∃ rest, (tableCells base strs).drop (ptrBytes * i) =
      pointerCells (stringOffset base strs i) ++ rest := by
  have hsplit : List.range strs.length =
      List.range i ++ i :: (List.range (strs.length - i - 1)).map (i + 1 + ·) := by
    have hlen : strs.length = i + 1 + (strs.length - i - 1) := by omega
    conv_lhs => rw [hlen]
    rw [List.range_add, List.range_succ, List.append_assoc]
    rfl
  rw [tableCells, hsplit, List.flatMap_append, List.flatMap_cons]
  refine ⟨_, List.drop_left' ?_⟩
  simp [List.length_flatMap, Nat.mul_comm]

/-- The pool from string `i` on starts with that string. -/
theorem drop_poolCells {strs : List (List UInt8)} {i : ℕ} (hi : i < strs.length) :
    (poolCells strs).drop (poolCells (strs.take i)).length =
      stringCells strs[i] ++ poolCells (strs.drop (i + 1)) := by
  have hsplit : poolCells strs = poolCells (strs.take i) ++ poolCells (strs.drop i) := by
    rw [poolCells, poolCells, poolCells, ← List.flatMap_append, List.take_append_drop]
  rw [hsplit, List.drop_left, List.drop_eq_getElem_cons hi]
  rfl

/-- The pointer in slot `i` leads to string `i`. -/
theorem pointerAt_packStrings {strs : List (List UInt8)} {i : ℕ} (hi : i < strs.length) :
    pointerAt (packStrings strs) i = some (stringOffset (strs.length * ptrBytes) strs i) := by
  have htable := length_tableCells (strs.length * ptrBytes) strs
  obtain ⟨rest, hrest⟩ := drop_tableCells (strs.length * ptrBytes) hi
  have hslot : ptrBytes * i < strs.length * ptrBytes := by
    rw [Nat.mul_comm]
    exact Nat.mul_lt_mul_of_pos_right hi (by decide)
  have hdrop : (packStrings strs).drop (ptrBytes * i) =
      pointerCells (stringOffset (strs.length * ptrBytes) strs i) ++ (rest ++ poolCells strs) := by
    rw [packStrings, List.drop_append_of_le_length (by omega), hrest, List.append_assoc]
  have hfirst : (packStrings strs)[ptrBytes * i]? =
      some (.ptr (stringOffset (strs.length * ptrBytes) strs i) 0) := by
    have hget := congrArg (fun l => l[0]?) hdrop
    rw [List.getElem?_drop] at hget
    exact hget
  rw [pointerAt, hfirst]
  dsimp only
  rw [hdrop, List.take_left' (length_pointerCells _), if_pos rfl]

/-- There the block continues with that string. -/
theorem drop_packStrings {strs : List (List UInt8)} {i : ℕ} (hi : i < strs.length) :
    (packStrings strs).drop (stringOffset (strs.length * ptrBytes) strs i) =
      stringCells strs[i] ++ poolCells (strs.drop (i + 1)) := by
  have htable := length_tableCells (strs.length * ptrBytes) strs
  rw [packStrings, stringOffset, List.drop_append, List.drop_eq_nil_of_le (by omega), htable,
    Nat.add_sub_cancel_left, List.nil_append, drop_poolCells hi]

/-- **Reading the packed block gives the strings back.** -/
theorem wordAt_packStrings {strs : List (List UInt8)} (hzero : ∀ t ∈ strs, (0 : UInt8) ∉ t)
    {i : ℕ} (hi : i < strs.length) : wordAt (packStrings strs) i = some strs[i] := by
  rw [wordAt, pointerAt_packStrings hi, Option.bind_some, drop_packStrings hi]
  exact cellString_stringCells (hzero _ (List.getElem_mem hi)) _

/-! ## Writing to the block -/

theorem memcpy_slice (mem : Mem) (dst : ℕ) (src : Ptr) (n : ℕ) (s : Machine Call Cell) :
    slice ((memcpy mem dst src n).exec s).cells dst (dst + n) =
      (List.range n).map fun k => .byte (byteAt mem (src + k)) :=
  slice_storeAll _ _ _ _

/-- `memcpy` leaves what lies before its target alone. -/
theorem memcpy_slice_of_le (mem : Mem) {dst : ℕ} (src : Ptr) (n : ℕ) {l r : ℤ} (h : r ≤ dst)
    (s : Machine Call Cell) :
    slice ((memcpy mem dst src n).exec s).cells l r = slice s.cells l r :=
  slice_storeAll_of_disjoint (Or.inl h) _ _

/-! ## The loops -/

section Packing

variable (mem : Mem) (words : ℤ → Ptr)

/-- The strings of the first `i` words. -/
def stringsTo (mem : Mem) (words : ℤ → Ptr) (i : ℕ) : List (List UInt8) :=
  (slice words 0 i).map (cstr mem)

theorem stringsTo_succ (i : ℕ) :
    stringsTo mem words (i + 1) = stringsTo mem words i ++ [cstr mem (words i)] := by
  rw [stringsTo, Nat.cast_succ, slice_succ_right (Int.natCast_nonneg i), List.map_append]
  rfl

theorem length_stringsTo (i : ℕ) : (stringsTo mem words i).length = i := by
  rw [stringsTo, List.length_map, length_slice]
  omega

theorem take_stringsTo {i n : ℕ} (h : i ≤ n) :
    (stringsTo mem words n).take i = stringsTo mem words i := by
  have hsplit := slice_append words (Int.natCast_nonneg i) (Int.ofNat_le.mpr h)
  rw [stringsTo, ← hsplit, List.map_append]
  exact List.take_left' (length_stringsTo mem words i)

theorem poolCells_succ (i : ℕ) :
    poolCells (stringsTo mem words (i + 1)) =
      poolCells (stringsTo mem words i) ++ stringCells (cstr mem (words i)) := by
  rw [stringsTo_succ, poolCells, List.flatMap_append, List.flatMap_singleton]
  rfl

theorem tableCells_succ (base i : ℕ) :
    tableCells base (stringsTo mem words (i + 1)) = tableCells base (stringsTo mem words i) ++
      pointerCells (base + (poolCells (stringsTo mem words i)).length) := by
  rw [tableCells, tableCells, length_stringsTo, length_stringsTo, List.range_succ,
    List.flatMap_append, List.flatMap_singleton, stringOffset,
    take_stringsTo mem words (Nat.le_succ i)]
  congr 1
  refine List.flatMap_congr fun k hk => ?_
  have hk' := List.mem_range.mp hk
  rw [stringOffset, stringOffset, take_stringsTo mem words (by omega),
    take_stringsTo mem words (by omega)]

theorem length_stringCells (t : List UInt8) : (stringCells t).length = t.length + 1 := by
  rw [stringCells, List.length_map, List.length_append, List.length_singleton]

/-- What `memcpy` copies is the string with its `0`. -/
theorem stringCells_cstr (p : Ptr) :
    stringCells (cstr mem p) =
      (List.range (strlenAt mem p + 1)).map fun k => .byte (byteAt mem (p + k)) := by
  rw [stringCells, List.range_succ, List.map_append, List.map_append, cstr_eq_bytes,
    List.map_map, List.map_singleton, List.map_singleton, byteAt_strlenAt]
  rfl

/-- The first loop computes the size of the pool. -/
theorem packSize_val (n : ℕ) (s : Machine Call Cell) :
    (packSize mem words n).val s = (poolCells (stringsTo mem words n)).length := by
  refine forEach_range_inv
    (I := fun i strSize _ => strSize = (poolCells (stringsTo mem words i)).length) rfl ?_
  rintro i strSize s' _ rfl
  rw [poolCells_succ, List.length_append, length_stringCells]
  rfl

/-- The state of the copying loop after `i` of `n` words. -/
structure PackInv (mem : Mem) (words : ℤ → Ptr) (n i pool : ℕ) (s : Machine Call Cell) :
    Prop where
  /-- `pool` points behind what has been copied -/
  pool_eq : pool = n * ptrBytes + (poolCells (stringsTo mem words i)).length
  /-- the first `i` slots of the table are filled -/
  table : slice s.cells 0 (ptrBytes * i : ℕ) =
    tableCells (n * ptrBytes) (stringsTo mem words i)
  /-- the first `i` strings are in place -/
  strings : slice s.cells (n * ptrBytes : ℕ) pool = poolCells (stringsTo mem words i)

theorem packStep_inv {n i pool : ℕ} {s : Machine Call Cell} (hi : i < n)
    (h : PackInv mem words n i pool s) :
    PackInv mem words n (i + 1) ((packStep mem words i pool).val s)
      ((packStep mem words i pool).exec s) := by
  have hbase : ptrBytes * i + ptrBytes ≤ n * ptrBytes := by
    rw [Nat.mul_comm n, ← Nat.mul_succ]
    exact Nat.mul_le_mul_left ptrBytes hi
  have hpool : n * ptrBytes ≤ pool := by
    rw [h.pool_eq]
    exact Nat.le_add_right _ _
  have hlen : (stringCells (cstr mem (words i))).length = strlenAt mem (words i) + 1 :=
    length_stringCells _
  have hval : (packStep mem words i pool).val s = pool + (strlenAt mem (words i) + 1) := rfl
  -- the string is copied behind `pool`, then the pointer is written to slot `i`
  have hexec : (packStep mem words i pool).exec s =
      (storePtr i pool).exec ((memcpy mem pool (words i) (strlenAt mem (words i) + 1)).exec
        ((strlen mem (words i)).exec s)) := rfl
  rw [hval, hexec]
  refine ⟨?_, ?_, ?_⟩
  · rw [poolCells_succ, List.length_append, hlen, h.pool_eq, Nat.add_assoc]
  · have hslot : ((ptrBytes * (i + 1) : ℕ) : ℤ) = (ptrBytes * i : ℕ) + (ptrBytes : ℕ) := by
      rw [Nat.mul_succ, Nat.cast_add]
    rw [tableCells_succ, ← h.pool_eq, hslot,
      ← slice_append _ (Int.natCast_nonneg _) (Int.le_add_of_nonneg_right (Int.natCast_nonneg _)),
      storePtr, slice_storeAll, slice_storeAll_of_disjoint (Or.inl (le_refl _)), memcpy_slice_of_le
      _ _ _ (by omega), ← h.table]
    rfl
  · rw [poolCells_succ, Nat.cast_add, ← slice_append _ (Int.ofNat_le.mpr hpool)
        (Int.le_add_of_nonneg_right (Int.natCast_nonneg _)),
      storePtr, slice_storeAll_of_disjoint (Or.inr (by omega)),
      slice_storeAll_of_disjoint (Or.inr (by omega)), memcpy_slice, memcpy_slice_of_le
      _ _ _ (le_refl _), ← h.strings, stringCells_cstr]
    rfl

/-- **The copying loop makes the block of the strings.** -/
theorem packWords_inv (n : ℕ) (s : Machine Call Cell) :
    PackInv mem words n n ((packWords mem words n).val s) ((packWords mem words n).exec s) :=
  forEach_range_inv (I := fun i pool s' => PackInv mem words n i pool s')
    ⟨rfl, rfl, slice_of_le (le_refl _)⟩ fun _ _ _ hi h => packStep_inv mem words hi h

theorem packBlock_cells (n : ℕ) :
    (packBlock mem words n).1 = packStrings (stringsTo mem words n) := by
  have hinv := packWords_inv mem words n ((packSize mem words n).exec ⟨fun _ => .undef, []⟩)
  have hend := hinv.pool_eq
  rw [← packSize_val mem words n ⟨fun _ => .undef, []⟩] at hend
  rw [packBlock, ← hend, packStrings, length_stringsTo, ← hinv.strings, ← hinv.table,
    Nat.mul_comm ptrBytes n]
  refine (slice_append _ (Int.natCast_nonneg _) (Int.ofNat_le.mpr ?_)).symm
  rw [hend]
  exact Nat.le_add_right _ _

/-! ### Every byte, once -/

/-- The sizes the first loop sums. -/
theorem length_poolCells (i : ℕ) :
    (poolCells (stringsTo mem words i)).length =
      ((List.range i).map fun k : ℕ => strlenAt mem (words k) + 1).sum := by
  induction i with
  | zero => rfl
  | succ i ih =>
    rw [poolCells_succ, List.length_append, length_stringCells, ih, List.range_succ,
      List.map_append, List.sum_append, List.map_singleton, List.sum_singleton]
    rfl

/-- A turn writes a string behind `pool` and a slot of the table. -/
theorem packStep_count (i pool : ℕ) (s : Machine Call Cell) (k : ℤ) :
    (stores ((packStep mem words i pool).exec s).trace).count k =
      (if (ptrBytes * i : ℕ) ≤ k ∧ k < (ptrBytes * i : ℕ) + (ptrBytes : ℕ) then 1 else 0) +
        ((if (pool : ℤ) ≤ k ∧ k < pool + (strlenAt mem (words i) + 1 : ℕ) then 1 else 0) +
          (stores s.trace).count k) := by
  have hexec : (packStep mem words i pool).exec s =
      (storePtr i pool).exec ((memcpy mem pool (words i) (strlenAt mem (words i) + 1)).exec
        ((strlen mem (words i)).exec s)) := rfl
  rw [hexec, storePtr, count_storeAll, memcpy, Prog.bind_exec, count_storeAll]
  rfl

/-- The copying loop writes every byte up to the final `pool` once. -/
theorem packWords_count (n : ℕ) (s : Machine Call Cell) (k : ℤ) :
    (stores ((packWords mem words n).exec s).trace).count k =
      (if 0 ≤ k ∧ k < (packWords mem words n).val s then 1 else 0) + (stores s.trace).count k := by
  have hrun := forEach_range_inv (f := packStep mem words) (n := n) (b := n * ptrBytes) (s := s)
    (I := fun i pool s' => n * ptrBytes ≤ pool ∧ (stores s'.trace).count k =
      (if (0 ≤ k ∧ k < (ptrBytes * i : ℕ)) ∨ ((n * ptrBytes : ℕ) ≤ k ∧ k < pool) then 1 else 0) +
        (stores s.trace).count k) ⟨le_refl _, ?_⟩ ?_
  · obtain ⟨hpool, hcount⟩ := hrun
    rw [packWords, hcount, Nat.mul_comm ptrBytes n]
    congr 1
    exact if_congr (by omega) rfl rfl
  · rw [if_neg (by omega), Nat.zero_add]
  · rintro i pool s' hi ⟨hpool, hcount⟩
    have hslot : ptrBytes * i + ptrBytes ≤ n * ptrBytes := by
      rw [Nat.mul_comm n, ← Nat.mul_succ]
      exact Nat.mul_le_mul_left ptrBytes hi
    have hval : (packStep mem words i pool).val s' = pool + (strlenAt mem (words i) + 1) := rfl
    rw [packStep_count, hval, hcount, Nat.mul_succ]
    refine ⟨by omega, ?_⟩
    split_ifs <;> omega

/-- The first loop writes nothing. -/
theorem packSize_stores (n : ℕ) (s : Machine Call Cell) :
    stores ((packSize mem words n).exec s).trace = stores s.trace := by
  refine forEach_range_inv (I := fun _ _ s' => stores s'.trace = stores s.trace) rfl ?_
  exact fun _ _ _ _ h => h

/-- `str_size` -/
def poolSize (n : ℕ) : ℕ := (packSize mem words n).val ⟨fun _ => .undef, []⟩

/-- The second loop on its fresh block; with the final `pool`. -/
def fillBlock (n : ℕ) : ℕ × Machine Call Cell :=
  (packWords mem words n).run ((packSize mem words n).exec ⟨fun _ => .undef, []⟩)

/-- Where word `i` is to be laid: behind the table and the strings before it. -/
def wordOffset (n i : ℕ) : ℕ :=
  n * ptrBytes + ((List.range i).map fun k : ℕ => strlenAt mem (words k) + 1).sum

theorem wordOffset_eq (n i : ℕ) :
    wordOffset mem words n i = n * ptrBytes + (poolCells (stringsTo mem words i)).length := by
  rw [wordOffset, length_poolCells]

theorem stringOffset_stringsTo {n i : ℕ} (hi : i ≤ n) :
    stringOffset ((stringsTo mem words n).length * ptrBytes) (stringsTo mem words n) i =
      wordOffset mem words n i := by
  rw [stringOffset, length_stringsTo, take_stringsTo mem words hi, wordOffset_eq]

/-- The block ends where a further word would be laid. -/
theorem length_packBlock (n : ℕ) :
    (packBlock mem words n).1.length = n * ptrBytes + poolSize mem words n ∧
      wordOffset mem words n n = (packBlock mem words n).1.length := by
  have hsize : poolSize mem words n = (poolCells (stringsTo mem words n)).length :=
    packSize_val mem words n _
  have hlength : (packBlock mem words n).1.length = n * ptrBytes + poolSize mem words n := by
    have hblock : (packBlock mem words n).1 =
        slice (fillBlock mem words n).2.cells 0 (n * ptrBytes + poolSize mem words n : ℕ) := rfl
    rw [hblock, length_slice]
    omega
  refine ⟨hlength, ?_⟩
  rw [hlength, wordOffset_eq, hsize]

/-- Word `i` in the block: its slot of the table, its place between its neighbours, the bytes
laid there and what a caller reads. -/
theorem packBlock_word {n i : ℕ} (hi : i < n) :
    pointerAt (packBlock mem words n).1 i = some (wordOffset mem words n i) ∧
      wordOffset mem words n i + (strlenAt mem (words i) + 1) = wordOffset mem words n (i + 1) ∧
      wordOffset mem words n (i + 1) ≤ (packBlock mem words n).1.length ∧
      ((packBlock mem words n).1.drop (wordOffset mem words n i)).take
          (strlenAt mem (words i) + 1) = stringCells (cstr mem (words i)) ∧
      wordAt (packBlock mem words n).1 i = some (cstr mem (words i)) := by
  have hi' : i < (stringsTo mem words n).length := by rwa [length_stringsTo]
  have hstring : (stringsTo mem words n)[i] = cstr mem (words i) := by
    simp [stringsTo, slice]
  have hzero : ∀ t ∈ stringsTo mem words n, (0 : UInt8) ∉ t := by
    intro t ht
    obtain ⟨p, _, rfl⟩ := List.mem_map.mp ht
    exact zero_notMem_cstr mem p
  have hnext : wordOffset mem words n i + (strlenAt mem (words i) + 1) =
      wordOffset mem words n (i + 1) := by
    rw [wordOffset_eq, wordOffset_eq, poolCells_succ, List.length_append, length_stringCells,
      Nat.add_assoc]
    rfl
  have hpointer := pointerAt_packStrings hi'
  have hdrop := drop_packStrings hi'
  have hword := wordAt_packStrings hzero hi'
  rw [← packBlock_cells, stringOffset_stringsTo mem words hi.le] at hpointer hdrop
  rw [hstring] at hdrop
  rw [← packBlock_cells, hstring] at hword
  refine ⟨hpointer, hnext, ?_, ?_, hword⟩
  · have hrest : (packBlock mem words n).1.length - wordOffset mem words n i =
        strlenAt mem (words i) + 1 +
          (poolCells ((stringsTo mem words n).drop (i + 1))).length := by
      rw [← List.length_drop, hdrop, List.length_append, length_stringCells]
      rfl
    omega
  · rw [hdrop]
    exact List.take_left' (length_stringCells _)

/-- **The block is filled exactly.** Its size is what the first loop sums and the table
takes; the copying loop ends with `pool` at the end of the block and has written every byte
of it once and no other. Slot `i` of the table points to where the strings before string
`i` end; string `i` is laid there with its `0`, and is what a caller reads at `out[i]`. -/
theorem packBlock_fills (n : ℕ) :
    ∃ block, (packBlock mem words n).1 = block ∧
      block = slice (fillBlock mem words n).2.cells 0 block.length ∧
      block.length = n * ptrBytes + poolSize mem words n ∧
      (fillBlock mem words n).1 = block.length ∧ wordOffset mem words n n = block.length ∧
      (∀ k : ℤ, (stores (fillBlock mem words n).2.trace).count k =
        if 0 ≤ k ∧ k < block.length then 1 else 0) ∧
      ∀ i < n, pointerAt block i = some (wordOffset mem words n i) ∧
        wordOffset mem words n i + (strlenAt mem (words i) + 1) = wordOffset mem words n (i + 1) ∧
        wordOffset mem words n (i + 1) ≤ block.length ∧
        (block.drop (wordOffset mem words n i)).take (strlenAt mem (words i) + 1) =
          stringCells (cstr mem (words i)) ∧
        wordAt block i = some (cstr mem (words i)) := by
  obtain ⟨hlength, hlast⟩ := length_packBlock mem words n
  have hend : (fillBlock mem words n).1 = (packBlock mem words n).1.length := by
    rw [← hlast, wordOffset_eq]
    exact (packWords_inv mem words n _).pool_eq
  refine ⟨_, rfl, ?_, hlength, hend, hlast, fun k => ?_, fun i hi => packBlock_word mem words hi⟩
  · rw [hlength]
    rfl
  · rw [← hend]
    refine (packWords_count mem words n _ k).trans ?_
    rw [packSize_stores]
    rfl

/-! ### The calls -/

theorem packStep_notes (i pool : ℕ) (s : Machine Call Cell) :
    notes ((packStep mem words i pool).exec s).trace =
      [.memcpy (words i) (strlenAt mem (words i) + 1), .strlen (words i)] ++ notes s.trace := by
  have hexec : (packStep mem words i pool).exec s =
      (storePtr i pool).exec ((memcpy mem pool (words i) (strlenAt mem (words i) + 1)).exec
        ((strlen mem (words i)).exec s)) := rfl
  rw [hexec, storePtr, storeAll_notes, memcpy, Prog.bind_exec, storeAll_notes]
  rfl

/-- Packing measures and copies every word. -/
theorem packBlock_calls {n : ℕ} {c : Call} :
    c ∈ (packBlock mem words n).2 ↔ ∃ i < n,
      c = .memcpy (words i) (strlenAt mem (words i) + 1) ∨ c = .strlen (words i) := by
  have hsize := notes_forEach_range (g := fun i : ℕ => [Call.strlen (words i)])
    (f := fun i strSize => do let len ← strlen mem (words i); pure (strSize + (len + 1)))
    (fun _ _ _ => rfl) n 0 (⟨fun _ => .undef, []⟩ : Machine Call Cell)
  have hwords := notes_forEach_range (packStep_notes mem words) n (n * ptrBytes)
    ((packSize mem words n).exec ⟨fun _ => .undef, []⟩)
  have hcalls : (packBlock mem words n).2 =
      notes ((packWords mem words n).exec ((packSize mem words n).exec
        ⟨fun _ => .undef, []⟩)).trace := rfl
  rw [hcalls, packWords, hwords, packSize, hsize]
  simp only [List.mem_append, List.mem_flatMap, List.mem_reverse, List.mem_range, List.mem_cons,
    List.not_mem_nil, or_false]
  refine ⟨?_, Or.inl⟩
  rintro (h | ⟨i, hi, h⟩ | h)
  · exact h
  · exact ⟨i, hi, Or.inr h⟩
  · exact absurd h List.not_mem_nil

end Packing

end EfficientDictionary
