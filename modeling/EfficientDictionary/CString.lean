import EfficientDictionary.Footprint
import EfficientDictionary.Guard
import Mathlib.Data.List.Lex
import Mathlib.Data.List.TakeWhile
import Mathlib.Order.Basic

/-!
# C strings in memory, and the library functions the program calls

Memory is a finite list of bytes starting at the document; a `Ptr` is an offset into it.
Whatever lies after the list reads as `0`.

* `cstr mem p` — the string at `p`: the bytes from `p` up to the first `0`.
* `strcmp` is modelled on bytes (`strcmpBytes`), as the difference of the first two
  unsigned bytes that differ. `strcmp_neg_iff` and its companions say that it decides
  the lexicographic order of `cstr`, which is how every proof uses it.
* `isalnum` is the one of the C locale: it is true on ASCII letters and digits only and
  takes an `int`, so both readings of a `char` (`uchar`, `schar`) are explicit.
* `Call` — what programs report to the trace, and `Call.reads`, the bytes of memory a
  string function looks at.
-/

namespace EfficientDictionary

/-- The bytes of a block of memory and whatever is known to follow it. -/
abbrev Mem : Type := List UInt8

/-- A pointer into memory, as an offset. -/
abbrev Ptr : Type := ℕ

/-- The byte at offset `p`. -/
def byteAt (mem : Mem) (p : Ptr) : UInt8 := mem[p]?.getD 0

/-- A byte read as an `unsigned char`. -/
def uchar (b : UInt8) : ℤ := b.toNat

/-- A byte read as a plain `char`, which is signed on the builds of the project. -/
def schar (b : UInt8) : ℤ := if b.toNat < 128 then b.toNat else b.toNat - 256

/-- The conversion of an unsigned number to a 32-bit `int`. -/
def toInt (n : ℕ) : ℤ := Int.bmod n (2 ^ 32)

/-- `isalnum` of the C locale. -/
def isalnum (c : ℤ) : Bool :=
  decide ((48 ≤ c ∧ c ≤ 57) ∨ (65 ≤ c ∧ c ≤ 90) ∨ (97 ≤ c ∧ c ≤ 122))

theorem toInt_of_lt {n : ℕ} (h : n < 2 ^ 31) : toInt n = n := by
  unfold toInt
  apply Int.bmod_eq_of_le_mul_two <;> omega

theorem bmod_le_self (n m : ℕ) : Int.bmod n m ≤ n := by
  have hmod : (n : ℤ) % m ≤ n := by
    rw [← Int.natCast_mod]
    exact Int.ofNat_le.mpr (Nat.mod_le n m)
  rw [Int.bmod]
  split_ifs
  · exact hmod
  · omega

/-- The conversion never goes up. -/
theorem toInt_le (n : ℕ) : toInt n ≤ n := bmod_le_self n _

theorem schar_eq_uchar {b : UInt8} (h : b.toNat < 128) : schar b = uchar b := by
  rw [schar, if_pos h, uchar]

/-- The sign of a `char` does not matter to `isalnum`. -/
theorem isalnum_schar (b : UInt8) : isalnum (schar b) = isalnum (uchar b) := by
  by_cases h : b.toNat < 128
  · rw [schar_eq_uchar h]
  · have hlt := b.toNat_lt
    have hsigned : isalnum (schar b) = false := by
      rw [schar, if_neg h, isalnum, decide_eq_false_iff_not]
      omega
    have hunsigned : isalnum (uchar b) = false := by
      rw [uchar, isalnum, decide_eq_false_iff_not]
      omega
    rw [hsigned, hunsigned]

instance linearOrderUInt8 : LinearOrder UInt8 where
  le_refl := UInt8.le_refl
  le_trans _ _ _ := UInt8.le_trans
  le_antisymm _ _ := UInt8.le_antisymm
  le_total := UInt8.le_total
  lt_iff_le_not_ge a b := by
    simp only [UInt8.lt_iff_toNat_lt, UInt8.le_iff_toNat_le]
    omega
  toDecidableLE := inferInstance

theorem uchar_sub_neg {a b : UInt8} : uchar a - uchar b < 0 ↔ a < b := by
  rw [UInt8.lt_iff_toNat_lt, uchar, uchar]
  omega

theorem uchar_sub_eq_zero {a b : UInt8} : uchar a - uchar b = 0 ↔ a = b := by
  rw [← UInt8.toNat_inj, uchar, uchar]
  omega

theorem uchar_inj {a b : UInt8} : uchar a = uchar b ↔ a = b := by
  rw [← sub_eq_zero, uchar_sub_eq_zero]

/-! ## Strings -/

/-- The C string a run of bytes starts with. -/
def toCString (bytes : List UInt8) : List UInt8 := bytes.takeWhile (· ≠ 0)

/-- The C string at `p`. -/
def cstr (mem : Mem) (p : Ptr) : List UInt8 := toCString (mem.drop p)

/-- `strlen` -/
def strlenAt (mem : Mem) (p : Ptr) : ℕ := (cstr mem p).length

@[simp] theorem toCString_nil : toCString [] = [] := rfl

theorem toCString_cons_zero (bytes : List UInt8) : toCString (0 :: bytes) = [] := rfl

theorem toCString_cons {a : UInt8} (h : a ≠ 0) (bytes : List UInt8) :
    toCString (a :: bytes) = a :: toCString bytes := by
  simp [toCString, h]

theorem getElem?_drop_byteAt (mem : Mem) (p k : ℕ) :
    (mem.drop p)[k]?.getD 0 = byteAt mem (p + k) := by
  rw [List.getElem?_drop, byteAt]

/-! ### The leading bytes that satisfy a test -/

section Leading

variable {test : UInt8 → Bool}

/-- When `n` bytes pass the test and the next one does not, those `n` are the leading ones. -/
theorem takeWhile_eq_map (hzero : test 0 = false) {n : ℕ} : ∀ {bytes : List UInt8},
    (∀ k < n, test (bytes[k]?.getD 0) = true) → test (bytes[n]?.getD 0) = false →
    bytes.takeWhile test = (List.range n).map fun k => bytes[k]?.getD 0 := by
  induction n with
  | zero =>
    intro bytes _ hstop
    cases bytes with
    | nil => rfl
    | cons a rest =>
      have ha : test a = false := by simpa using hstop
      simp [ha]
  | succ n ih =>
    intro bytes hpass hstop
    cases bytes with
    | nil => exact absurd (hpass 0 (by omega)) (by simp [hzero])
    | cons a rest =>
      have ha : test a = true := by simpa using hpass 0 (by omega)
      have hrest : rest.takeWhile test = (List.range n).map fun k => rest[k]?.getD 0 :=
        ih (fun k hk => by simpa using hpass (k + 1) (by omega)) (by simpa using hstop)
      rw [List.takeWhile_cons_of_pos ha, hrest, List.range_succ_eq_map, List.map_cons,
        List.map_map]
      simp [Function.comp_def]

theorem getD_of_lt_length_takeWhile : ∀ {bytes : List UInt8} {k : ℕ},
    k < (bytes.takeWhile test).length → test (bytes[k]?.getD 0) = true := by
  intro bytes
  induction bytes with
  | nil =>
    intro k hk
    simp at hk
  | cons a rest ih =>
    intro k hk
    by_cases ha : test a = true
    · rw [List.takeWhile_cons_of_pos ha] at hk
      cases k with
      | zero => simpa using ha
      | succ k =>
        rw [List.length_cons] at hk
        simpa using ih (k := k) (by omega)
    · rw [List.takeWhile_cons_of_neg ha] at hk
      simp at hk

theorem getD_length_takeWhile (hzero : test 0 = false) (bytes : List UInt8) :
    test (bytes[(bytes.takeWhile test).length]?.getD 0) = false := by
  induction bytes with
  | nil => simpa using hzero
  | cons a rest ih =>
    by_cases ha : test a = true
    · rw [List.takeWhile_cons_of_pos ha]
      simpa using ih
    · rw [List.takeWhile_cons_of_neg ha]
      simpa using ha

variable {mem : Mem} {p n k : ℕ}

/-- The same for the bytes of memory from `p` on. -/
theorem takeWhile_drop_eq_map (hzero : test 0 = false)
    (hpass : ∀ k < n, test (byteAt mem (p + k)) = true)
    (hstop : test (byteAt mem (p + n)) = false) :
    (mem.drop p).takeWhile test = (List.range n).map fun k => byteAt mem (p + k) := by
  simp only [← getElem?_drop_byteAt] at hpass hstop ⊢
  exact takeWhile_eq_map hzero hpass hstop

theorem test_of_lt_length (hk : k < ((mem.drop p).takeWhile test).length) :
    test (byteAt mem (p + k)) = true := by
  rw [← getElem?_drop_byteAt]
  exact getD_of_lt_length_takeWhile hk

theorem test_length (test : UInt8 → Bool) (hzero : test 0 = false) (mem : Mem) (p : ℕ) :
    test (byteAt mem (p + ((mem.drop p).takeWhile test).length)) = false := by
  rw [← getElem?_drop_byteAt]
  exact getD_length_takeWhile hzero _

end Leading

/-! ### The string at a pointer -/

/-- The string at `p` when `n` bytes other than `0` are followed by a `0`. -/
theorem cstr_eq_map {mem : Mem} {p n : ℕ} (hne : ∀ k < n, byteAt mem (p + k) ≠ 0)
    (hzero : byteAt mem (p + n) = 0) :
    cstr mem p = (List.range n).map fun k => byteAt mem (p + k) := by
  refine takeWhile_drop_eq_map (by decide) (fun k hk => ?_) ?_
  · exact decide_eq_true (hne k hk)
  · exact decide_eq_false (not_not_intro hzero)

theorem byteAt_ne_zero_of_lt {mem : Mem} {p k : ℕ} (hk : k < strlenAt mem p) :
    byteAt mem (p + k) ≠ 0 :=
  of_decide_eq_true (test_of_lt_length hk)

theorem byteAt_strlenAt (mem : Mem) (p : Ptr) : byteAt mem (p + strlenAt mem p) = 0 :=
  not_not.mp (of_decide_eq_false (test_length (fun a => decide (a ≠ 0)) (by decide) mem p))

/-- Any `0` at or after `p` bounds the string at `p`. -/
theorem add_strlenAt_le {mem : Mem} {p k : ℕ} (hp : p ≤ k) (hzero : byteAt mem k = 0) :
    p + strlenAt mem p ≤ k := by
  by_contra hlt
  have hk : k - p < strlenAt mem p := by omega
  have hne := byteAt_ne_zero_of_lt hk
  rw [Nat.add_sub_cancel' hp] at hne
  exact hne hzero

/-- The bytes of the string at `p` are the bytes of memory from `p` on. -/
theorem cstr_eq_bytes (mem : Mem) (p : Ptr) :
    cstr mem p = (List.range (strlenAt mem p)).map fun k => byteAt mem (p + k) :=
  cstr_eq_map (fun _ hk => byteAt_ne_zero_of_lt hk) (byteAt_strlenAt mem p)

theorem zero_notMem_cstr (mem : Mem) (p : Ptr) : (0 : UInt8) ∉ cstr mem p := by
  rw [cstr_eq_bytes]
  simp only [List.mem_map, List.mem_range, not_exists, not_and]
  exact fun k hk => byteAt_ne_zero_of_lt hk

/-! ## strcmp -/

/-- `strcmp` on the bytes at its two arguments: the difference of the first two unsigned
bytes that differ, or `0` when a common `0` comes first. -/
def strcmpBytes : List UInt8 → List UInt8 → ℤ
  | [], [] => 0
  | [], b :: _ => uchar 0 - uchar b
  | a :: _, [] => uchar a - uchar 0
  | a :: as, b :: bs => if a = b ∧ a ≠ 0 then strcmpBytes as bs else uchar a - uchar b

/-- How many positions `strcmp` looks at: up to the first difference or common `0`. -/
def strcmpSpan : List UInt8 → List UInt8 → ℕ
  | a :: as, b :: bs => if a = b ∧ a ≠ 0 then strcmpSpan as bs + 1 else 1
  | _, _ => 1

/-- `strcmp` -/
def strcmpAt (mem : Mem) (a b : Ptr) : ℤ := strcmpBytes (mem.drop a) (mem.drop b)

theorem toCString_cons_lt {a b : UInt8} (h : a < b) (as bs : List UInt8) :
    toCString (a :: as) < toCString (b :: bs) := by
  have hb : b ≠ 0 := by
    rintro rfl
    exact absurd h (by rw [UInt8.lt_iff_toNat_lt]; simp)
  rw [toCString_cons hb]
  by_cases ha : a = 0
  · rw [ha, toCString_cons_zero]
    exact List.nil_lt_cons b _
  · rw [toCString_cons ha]
    exact List.cons_lt_cons_iff.mpr (Or.inl h)

/-- The first bytes decide, when they differ. -/
theorem cstr_lt_of_byteAt_lt {mem : Mem} {p q : Ptr} (hp : p < mem.length) (hq : q < mem.length)
    (h : byteAt mem p < byteAt mem q) : cstr mem p < cstr mem q := by
  rw [byteAt, byteAt, List.getElem?_eq_getElem hp, List.getElem?_eq_getElem hq] at h
  rw [cstr, cstr, List.drop_eq_getElem_cons hp, List.drop_eq_getElem_cons hq]
  exact toCString_cons_lt h _ _

/-- Different first bytes decide, one way or the other. -/
theorem uchar_sub_cases {a b : UInt8} (h : a ≠ b) (as bs : List UInt8) :
    (uchar a - uchar b < 0 ∧ toCString (a :: as) < toCString (b :: bs)) ∨
    (0 < uchar a - uchar b ∧ toCString (b :: bs) < toCString (a :: as)) := by
  rcases lt_or_gt_of_ne h with hlt | hgt
  · exact Or.inl ⟨uchar_sub_neg.mpr hlt, toCString_cons_lt hlt as bs⟩
  · have hneg := uchar_sub_neg.mpr hgt
    exact Or.inr ⟨by omega, toCString_cons_lt hgt bs as⟩

/-- The three outcomes of a comparison, each with what it says about the strings. -/
theorem strcmpBytes_trichotomy (s t : List UInt8) :
    (strcmpBytes s t < 0 ∧ toCString s < toCString t) ∨
    (strcmpBytes s t = 0 ∧ toCString s = toCString t) ∨
    (0 < strcmpBytes s t ∧ toCString t < toCString s) := by
  induction s generalizing t with
  | nil =>
    cases t with
    | nil => exact Or.inr (Or.inl ⟨rfl, rfl⟩)
    | cons b bs =>
      by_cases hb : 0 = b
      · subst hb
        exact Or.inr (Or.inl ⟨rfl, rfl⟩)
      · rcases uchar_sub_cases hb [] bs with h | h
        · exact Or.inl h
        · exact Or.inr (Or.inr h)
  | cons a as ih =>
    cases t with
    | nil =>
      by_cases ha : a = 0
      · subst ha
        exact Or.inr (Or.inl ⟨rfl, rfl⟩)
      · rcases uchar_sub_cases ha as [] with h | h
        · exact Or.inl h
        · exact Or.inr (Or.inr h)
    | cons b bs =>
      by_cases hab : a = b
      · subst hab
        by_cases ha : a = 0
        · subst ha
          exact Or.inr (Or.inl ⟨by simp [strcmpBytes], rfl⟩)
        · have hstep : strcmpBytes (a :: as) (a :: bs) = strcmpBytes as bs := by
            simp [strcmpBytes, ha]
          rw [hstep, toCString_cons ha, toCString_cons ha, List.cons_lt_cons_iff,
            List.cons_lt_cons_iff]
          rcases ih bs with h | h | h
          · exact Or.inl ⟨h.1, Or.inr ⟨rfl, h.2⟩⟩
          · exact Or.inr (Or.inl ⟨h.1, congrArg (a :: ·) h.2⟩)
          · exact Or.inr (Or.inr ⟨h.1, Or.inr ⟨rfl, h.2⟩⟩)
      · have hstep : strcmpBytes (a :: as) (b :: bs) = uchar a - uchar b := by
          simp [strcmpBytes, hab]
        rw [hstep]
        rcases uchar_sub_cases hab as bs with h | h
        · exact Or.inl h
        · exact Or.inr (Or.inr h)

theorem strcmpBytes_neg_iff {s t : List UInt8} :
    strcmpBytes s t < 0 ↔ toCString s < toCString t := by
  rcases strcmpBytes_trichotomy s t with ⟨hc, ho⟩ | ⟨hc, ho⟩ | ⟨hc, ho⟩
  · exact iff_of_true hc ho
  · exact iff_of_false (by omega) (by rw [ho]; exact lt_irrefl _)
  · exact iff_of_false (by omega) (lt_asymm ho)

theorem strcmpBytes_eq_zero_iff {s t : List UInt8} :
    strcmpBytes s t = 0 ↔ toCString s = toCString t := by
  rcases strcmpBytes_trichotomy s t with ⟨hc, ho⟩ | ⟨hc, ho⟩ | ⟨hc, ho⟩
  · exact iff_of_false (by omega) ho.ne
  · exact iff_of_true hc ho
  · exact iff_of_false (by omega) ho.ne'

theorem strcmpAt_neg_iff {mem : Mem} {a b : Ptr} :
    strcmpAt mem a b < 0 ↔ cstr mem a < cstr mem b := strcmpBytes_neg_iff

theorem strcmpAt_eq_zero_iff {mem : Mem} {a b : Ptr} :
    strcmpAt mem a b = 0 ↔ cstr mem a = cstr mem b := strcmpBytes_eq_zero_iff

theorem strcmpAt_pos_iff {mem : Mem} {a b : Ptr} :
    0 < strcmpAt mem a b ↔ cstr mem b < cstr mem a := by
  rw [← not_le, ← not_le, not_iff_not, le_iff_lt_or_eq, le_iff_lt_or_eq, strcmpAt_neg_iff,
    strcmpAt_eq_zero_iff]

theorem strcmpAt_nonpos_iff {mem : Mem} {a b : Ptr} :
    strcmpAt mem a b ≤ 0 ↔ cstr mem a ≤ cstr mem b := by
  rw [← not_lt, ← not_lt, strcmpAt_pos_iff]

/-- `w'` is the word array `w` with the range `[l, r)` sorted by `strcmp`. -/
structure StrcmpSorted (mem : Mem) (l r : ℤ) (w w' : ℤ → Ptr) : Prop where
  /-- the range holds the pointers it held, in some order -/
  perm : (slice w' l r).Perm (slice w l r)
  /-- its strings do not decrease -/
  ordered : ∀ i j, l ≤ i → i ≤ j → j < r → strcmpAt mem (w' i) (w' j) ≤ 0
  /-- nothing else changed -/
  frame : ∀ i, i < l ∨ r ≤ i → w' i = w i

/-- Sorting by `cstr` is sorting by `strcmp`. -/
theorem Sorts.strcmpSorted {mem : Mem} {l r : ℤ} {w w' : ℤ → Ptr}
    (h : Sorts (cstr mem) l r w w') : StrcmpSorted mem l r w w' :=
  ⟨h.rearranges.perm, fun i j hi hij hj => strcmpAt_nonpos_iff.mpr (h.sorted i j hi hij hj),
    h.rearranges.frame⟩

/-- `strcmp` looks no further than the `0` of either string. -/
theorem strcmpSpan_le (s t : List UInt8) :
    strcmpSpan s t ≤ (toCString s).length + 1 ∧ strcmpSpan s t ≤ (toCString t).length + 1 := by
  induction s generalizing t with
  | nil =>
    cases t <;> simp [strcmpSpan]
  | cons a as ih =>
    cases t with
    | nil => simp [strcmpSpan]
    | cons b bs =>
      by_cases h : a = b ∧ a ≠ 0
      · obtain ⟨rfl, ha⟩ := h
        obtain ⟨hs, ht⟩ := ih bs
        simp only [strcmpSpan, ne_eq, true_and, ha, not_false_eq_true, if_true,
          toCString_cons ha, List.length_cons]
        omega
      · rw [strcmpSpan, if_neg h]
        omega

/-- On equal strings `strcmp` reads through to the `0`. -/
theorem strcmpSpan_of_eq_zero {s t : List UInt8} (h : strcmpBytes s t = 0) :
    strcmpSpan s t = (toCString s).length + 1 := by
  induction s generalizing t with
  | nil =>
    cases t <;> rfl
  | cons a as ih =>
    cases t with
    | nil =>
      obtain rfl : a = 0 := uchar_sub_eq_zero.mp h
      rfl
    | cons b bs =>
      by_cases hab : a = b ∧ a ≠ 0
      · rw [strcmpBytes, if_pos hab] at h
        rw [strcmpSpan, if_pos hab, ih h, toCString_cons hab.2, List.length_cons]
      · rw [strcmpBytes, if_neg hab] at h
        obtain rfl : a = b := uchar_sub_eq_zero.mp h
        obtain rfl : a = 0 := by
          by_contra ha
          exact hab ⟨rfl, ha⟩
        rw [strcmpSpan, if_neg hab, toCString_cons_zero]
        rfl

/-- A string without `0` is its own C string. -/
theorem toCString_of_notMem {t : List UInt8} (h : (0 : UInt8) ∉ t) : toCString t = t := by
  refine List.takeWhile_eq_self_iff.mpr fun a ha => decide_eq_true ?_
  rintro rfl
  exact h ha

/-! ## What programs report -/

/-- The calls and results a program reports. -/
inductive Call : Type where
  /-- `strcmp(a, b)` was called -/
  | strcmp (a b : Ptr)
  /-- `strlen(a)` was called -/
  | strlen (a : Ptr)
  /-- `memcpy` read `n` bytes from `src` -/
  | memcpy (src : Ptr) (n : ℕ)
  /-- slot `k` of a temporary array was written -/
  | temp (k : ℤ)
  /-- an `int` computation gave `v` -/
  | int (v : ℤ)
  deriving DecidableEq, Repr

/-- The bytes of memory a call looks at. -/
def Call.reads (mem : Mem) : Call → List ℕ
  | .strcmp a b =>
    (List.range (strcmpSpan (mem.drop a) (mem.drop b))).flatMap fun k => [a + k, b + k]
  | .strlen a => (List.range (strlenAt mem a + 1)).map (a + ·)
  | .memcpy src n => (List.range n).map (src + ·)
  | .temp _ => []
  | .int _ => []

/-- Programs over an array with cells in `α` that report calls. -/
abbrev CProg (α : Type) : Type → Type := Prog Call α

section Calls

variable {α : Type}

/-- `strcmp(a, b)` -/
def strcmp (mem : Mem) (a b : Ptr) : CProg α ℤ := do
  note (.strcmp a b)
  pure (strcmpAt mem a b)

/-- `strlen(a)` -/
def strlen (mem : Mem) (a : Ptr) : CProg α ℕ := do
  note (.strlen a)
  pure (strlenAt mem a)

/-- Report that an `int` computation gave `v`. -/
def int (v : ℤ) : CProg α PUnit := note (.int v)

@[simp] theorem strcmp_val (mem : Mem) (a b : Ptr) (s : Machine Call α) :
    (strcmp mem a b).val s = strcmpAt mem a b := rfl

@[simp] theorem strcmp_exec (mem : Mem) (a b : Ptr) (s : Machine Call α) :
    (strcmp mem a b).exec s = { s with trace := .note (.strcmp a b) :: s.trace } := rfl

@[simp] theorem strlen_val (mem : Mem) (a : Ptr) (s : Machine Call α) :
    (strlen mem a).val s = strlenAt mem a := rfl

@[simp] theorem strlen_exec (mem : Mem) (a : Ptr) (s : Machine Call α) :
    (strlen mem a).exec s = { s with trace := .note (.strlen a) :: s.trace } := rfl

@[simp] theorem int_exec (v : ℤ) (s : Machine Call α) :
    (int v).exec s = { s with trace := .note (.int v) :: s.trace } := rfl

theorem int_cells (v : ℤ) (s : Machine Call α) : ((int v).exec s).cells = s.cells := rfl

theorem strcmp_local (R : Set ℤ) (mem : Mem) (a b : Ptr) :
    Local R (strcmp mem a b : CProg α ℤ) :=
  (Local.note R _).bind fun _ => Local.pure R _

theorem strcmp_keeps {R : Set ℤ} {P : α → Prop} {Q : Call → Prop} {a b : Ptr}
    (h : Q (.strcmp a b)) (mem : Mem) : Keeps R P Q (strcmp mem a b : CProg α ℤ) :=
  (Keeps.note h).bind fun _ _ => Keeps.pure _

theorem int_local (R : Set ℤ) (v : ℤ) : Local R (int v : CProg α PUnit) :=
  Local.note R _

end Calls

end EfficientDictionary
