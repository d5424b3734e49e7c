import EfficientDictionary.CString
import EfficientDictionary.Stretch
import Mathlib.Data.List.Chain

/-!
# SaveWords

The words are written to a file through a buffer of `max_len` bytes: each word and a
newline are appended to the buffer, which is first written out when the word does not fit.
The test whether it fits forgets the newline.

The array of the machine is the buffer `temp`, and a note is what one call of `fwrite`
writes.

* `saveStep_spec` — where one turn of the loop writes, and how far it fills the buffer.
* `Stays`, `FitsInGroups` — the lengths of the words never fill the buffer too far; said of
  the fill after each word, and of the groups of words between two calls of `fwrite`.
-/

namespace EfficientDictionary

/-! ## Definitions -/

/-- `ERR_SAVE_FILE_OPEN` -/
def errSaveFileOpen : ℕ := 151

/-- `ERR_MALLOC` -/
def errMalloc : ℕ := 103

/-- `FNV_OFFSET_BASIS` -/
def fnvOffsetBasis : UInt64 := 2166136261

/-- `FNV_PRIME` -/
def fnvPrime : UInt64 := 16777619

/-- One turn of the loop of `Hash`; the letter is a signed `char`. -/
def hashLetter (prevHash : UInt64) (letter : UInt8) : UInt64 :=
  (prevHash ^^^ ⟨BitVec.ofInt 64 (schar letter)⟩) * fnvPrime

/-- `Hash` of the string `letters` -/
def hash (prevHash : UInt64) (letters : List UInt8) : UInt64 :=
  letters.foldl hashLetter prevHash % (0xFFFFFFFFFFFFFFFF / 2)

/-- The loop that counts the letters of a word, from the bytes at its start. -/
def countLetters : List UInt8 → ℕ
  | [] => 0
  | b :: bytes => if b ≠ 0 then countLetters bytes + 1 else 0

/-- The variables of the loop over the words. -/
structure SaveState where
  /-- `curr_len` -/
  currLen : ℕ
  /-- `*hash` -/
  hash : UInt64

/-- `fwrite(temp, 1, len, file)` -/
def fwrite (len : ℕ) : Prog (List UInt8) UInt8 PUnit := do
  let bytes ← loadAll 0 len
  note bytes

/-- One turn of the loop over the words. -/
def saveStep (maxLen : ℕ) (mem : Mem) (word : Ptr) (st : SaveState) :
    Prog (List UInt8) UInt8 SaveState := do
  let j := countLetters (mem.drop word)
  let currLen ←
    if st.currLen + j > maxLen then do
      fwrite st.currLen
      pure 0
    else
      pure st.currLen
  storeAll currLen j fun k => byteAt mem (word + k)
  store (currLen + j) 10
  pure ⟨currLen + (j + 1), hash st.hash (cstr mem word)⟩

/-- The loop over the words. -/
def saveLoop (maxLen : ℕ) (mem : Mem) (words : List Ptr) (st : SaveState) :
    Prog (List UInt8) UInt8 SaveState :=
  forEach words st (saveStep maxLen mem)

/-- What the caller finds, and what was done to the buffer. -/
structure Saved where
  /-- the return value -/
  code : ℕ
  /-- `*hash` -/
  hash : UInt64
  /-- the accesses to the buffer and the calls of `fwrite`, latest first -/
  trace : List (Event (List UInt8))

/-- `SaveWords` with a buffer of `maxLen` bytes: `opens` says whether the file can be opened,
`temp` is the buffer with its initial content, or `NULL`. -/
def saveWordsWith (maxLen : ℕ) (opens : Bool) (temp : Option (ℤ → UInt8)) (mem : Mem)
    (words : List Ptr) (hash : UInt64) : Except ℕ Saved :=
  if words.length = 0 then
    .ok ⟨0, hash, []⟩
  else if !opens then
    .ok ⟨errSaveFileOpen, hash, []⟩
  else
    match temp with
    | none => .error errMalloc
    | some temp =>
      let r := (saveLoop maxLen mem words ⟨0, fnvOffsetBasis⟩).run ⟨temp, []⟩
      .ok ⟨0, r.1.hash, ((fwrite r.1.currLen).exec r.2).trace⟩

/-- `SaveWords` -/
def saveWords : Bool → Option (ℤ → UInt8) → Mem → List Ptr → UInt64 → Except ℕ Saved :=
  saveWordsWith (1024 * 1024)

theorem countLetters_eq (bytes : List UInt8) : countLetters bytes = (toCString bytes).length := by
  induction bytes with
  | nil => rfl
  | cons b bytes ih =>
    by_cases hb : b = 0
    · rw [hb, toCString_cons_zero]
      rfl
    · rw [countLetters, if_pos hb, ih, toCString_cons hb, List.length_cons]

/-! ## One turn -/

/-- Where a word of length `l` is copied to when the buffer is filled up to `c`. -/
def startAt (maxLen c l : ℕ) : ℕ := if maxLen < c + l then 0 else c

section Turn

variable {maxLen : ℕ} {mem : Mem} {word : Ptr} {st : SaveState}
  {s : Machine (List UInt8) UInt8}

theorem mem_fwrite {len : ℕ} {i : ℤ} :
    .store i ∈ ((fwrite len).exec s).trace ↔ .store i ∈ s.trace := by
  rw [fwrite, Prog.bind_exec, note_exec, List.mem_cons, (loadAll_spec 0 len s).2.2 i]
  exact or_iff_right fun h => by cases h

/-- A turn writes the word and the newline, and fills the buffer up to behind it. -/
theorem saveStep_spec (maxLen : ℕ) (mem : Mem) (word : Ptr) (st : SaveState)
    (s : Machine (List UInt8) UInt8) :
    ((saveStep maxLen mem word st).val s).currLen =
        startAt maxLen st.currLen (strlenAt mem word) + (strlenAt mem word + 1) ∧
      ∀ i : ℤ, .store i ∈ ((saveStep maxLen mem word st).exec s).trace ↔
        (startAt maxLen st.currLen (strlenAt mem word) ≤ i ∧
          i < startAt maxLen st.currLen (strlenAt mem word) + (strlenAt mem word + 1)) ∨
        .store i ∈ s.trace := by
  have hlen : countLetters (mem.drop word) = strlenAt mem word := countLetters_eq _
  have hwrite : ∀ (c : ℕ) (s' : Machine (List UInt8) UInt8) (i : ℤ),
      .store i ∈ ((store (c + strlenAt mem word) 10 : Prog (List UInt8) UInt8 PUnit.{1}).exec
        ((storeAll c (strlenAt mem word) fun k => byteAt mem (word + k)).exec s')).trace ↔
      ((c : ℤ) ≤ i ∧ i < c + (strlenAt mem word + 1)) ∨ .store i ∈ s'.trace := by
    intro c s' i
    rw [store_exec, List.mem_cons, Event.store.injEq, mem_storeAll, ← or_assoc]
    refine or_congr_left ?_
    omega
  rw [saveStep, hlen, startAt]
  by_cases hfull : maxLen < st.currLen + strlenAt mem word
  · rw [if_pos hfull, if_pos hfull]
    refine ⟨rfl, fun i => (hwrite 0 _ i).trans (or_congr_right ?_)⟩
    exact mem_fwrite
  · rw [if_neg hfull, if_neg hfull]
    exact ⟨rfl, fun i => hwrite st.currLen s i⟩

end Turn

/-! ## The run -/

/-- Appending words of these lengths to a buffer filled up to `c` never fills it beyond its
end. -/
def Stays (maxLen : ℕ) : ℕ → List ℕ → Prop
  | _, [] => True
  | c, l :: lengths =>
    startAt maxLen c l + (l + 1) ≤ maxLen ∧ Stays maxLen (startAt maxLen c l + (l + 1)) lengths

section Run

variable {maxLen : ℕ} {mem : Mem} {words : List Ptr}

/-- The fill after any number of words, in terms of their lengths. -/
theorem saveLoop_stays_iff (mem : Mem) (words : List Ptr) {st : SaveState}
    (hst : st.currLen ≤ maxLen) (s : Machine (List UInt8) UInt8) :
    (∀ n, ((saveLoop maxLen mem (words.take n) st).val s).currLen ≤ maxLen) ↔
      Stays maxLen st.currLen (words.map (strlenAt mem)) := by
  induction words generalizing st s with
  | nil => exact iff_of_true (fun n => by rw [List.take_nil]; exact hst) trivial
  | cons word words ih =>
    obtain ⟨hval, -⟩ := saveStep_spec maxLen mem word st s
    rw [List.map_cons, Stays, ← hval]
    refine ⟨fun h => ?_, ?_⟩
    · have hfirst : ((saveStep maxLen mem word st).val s).currLen ≤ maxLen := h 1
      exact ⟨hfirst, (ih hfirst _).mp fun n => h (n + 1)⟩
    · rintro ⟨hfirst, hrest⟩ n
      cases n with
      | zero => exact hst
      | succ n => exact (ih hfirst _).mpr hrest n

/-- As long as the fill stays below the end, so do the stores. -/
theorem saveLoop_stores {st : SaveState} {s : Machine (List UInt8) UInt8}
    (h : Stays maxLen st.currLen (words.map (strlenAt mem)))
    (hs : ∀ i : ℤ, .store i ∈ s.trace → 0 ≤ i ∧ i < maxLen) :
    ∀ i : ℤ, .store i ∈ ((saveLoop maxLen mem words st).exec s).trace → 0 ≤ i ∧ i < maxLen := by
  induction words generalizing st s with
  | nil => exact hs
  | cons word words ih =>
    obtain ⟨hval, hstores⟩ := saveStep_spec maxLen mem word st s
    rw [List.map_cons, Stays, ← hval] at h
    obtain ⟨hfirst, hrest⟩ := h
    refine ih hrest fun i hi => ?_
    rcases (hstores i).mp hi with hin | hi
    · rw [hval] at hfirst
      omega
    · exact hs i hi

end Run

/-! ## Groups of words -/

/-- The bytes of words of these lengths, each with its newline. -/
def lineBytes (lengths : List ℕ) : ℕ := (lengths.map (· + 1)).sum

/-- After a group of words with the given lengths, the first word of the next one does not
fit. -/
def Fills (maxLen : ℕ) (group next : List ℕ) : Prop :=
  ∃ l ∈ next.head?, maxLen < lineBytes group + l

/-- The words can be cut into consecutive groups such that the lines of each group fit the
buffer, and the first word of each group but the first does not fit behind the lines of the
group before it, even without its newline. -/
def FitsInGroups (maxLen : ℕ) (lengths : List ℕ) : Prop :=
  ∃ groups : List (List ℕ), groups.flatten = lengths ∧ (∀ g ∈ groups, lineBytes g ≤ maxLen) ∧
    groups.IsChain (Fills maxLen)

theorem lineBytes_cons (l : ℕ) (lengths : List ℕ) :
    lineBytes (l :: lengths) = l + 1 + lineBytes lengths := by
  rw [lineBytes, List.map_cons, List.sum_cons, lineBytes]

section Groups

variable {maxLen c : ℕ} {lengths : List ℕ}

/-- A buffer that stays below its end is written out between groups: the words that still
join the `c` bytes in it, and the groups after them. -/
theorem Stays.exists_groups (hc : c ≤ maxLen) (h : Stays maxLen c lengths) :
    ∃ (group : List ℕ) (groups : List (List ℕ)),
      group ++ groups.flatten = lengths ∧ c + lineBytes group ≤ maxLen ∧
      (∀ g ∈ groups, lineBytes g ≤ maxLen) ∧ groups.IsChain (Fills maxLen) ∧
      ∀ g ∈ groups.head?, ∃ l ∈ g.head?, maxLen < c + lineBytes group + l := by
  induction lengths generalizing c with
  | nil =>
    exact ⟨[], [], rfl, hc, fun _ hg => absurd hg List.not_mem_nil, List.isChain_nil,
      fun _ hg => by cases hg⟩
  | cons l lengths ih =>
    obtain ⟨hfirst, hrest⟩ := h
    obtain ⟨group, groups, hflat, hfits, hall, hchain, hnext⟩ := ih hfirst hrest
    rw [startAt] at hfits hnext
    by_cases hfull : maxLen < c + l
    · -- the word starts a new group
      rw [if_pos hfull, zero_add, ← lineBytes_cons] at hfits hnext
      refine ⟨[], (l :: group) :: groups, ?_, hc, ?_, hchain.cons hnext, ?_⟩
      · rw [List.nil_append, List.flatten_cons, List.cons_append, hflat]
      · exact List.forall_mem_cons.mpr ⟨hfits, hall⟩
      · rintro g hg
        obtain rfl := Option.some.inj hg
        exact ⟨l, rfl, hfull⟩
    · -- the word joins the group
      rw [if_neg hfull, Nat.add_assoc, ← lineBytes_cons] at hfits hnext
      refine ⟨l :: group, groups, ?_, hfits, hall, hchain, hnext⟩
      rw [List.cons_append, hflat]

/-- Conversely, with such groups the buffer stays below its end. -/
theorem stays_of_groups {group : List ℕ} {groups : List (List ℕ)}
    (hflat : group ++ groups.flatten = lengths) (hfits : c + lineBytes group ≤ maxLen)
    (hall : ∀ g ∈ groups, lineBytes g ≤ maxLen) (hchain : groups.IsChain (Fills maxLen))
    (hnext : ∀ g ∈ groups.head?, ∃ l ∈ g.head?, maxLen < c + lineBytes group + l) :
    Stays maxLen c lengths := by
  induction lengths generalizing c group groups with
  | nil => exact trivial
  | cons l lengths ih =>
    cases group with
    | cons l' group =>
      -- the word fits behind the bytes in the buffer
      have hrest : group ++ groups.flatten = lengths := (List.cons.inj hflat).2
      obtain rfl : l' = l := (List.cons.inj hflat).1
      rw [lineBytes_cons] at hfits hnext
      have hstart : startAt maxLen c l' = c := if_neg (by omega)
      rw [Stays, hstart]
      refine ⟨by omega, ih hrest (by omega) hall hchain fun g hg => ?_⟩
      obtain ⟨l, hl, hlt⟩ := hnext g hg
      exact ⟨l, hl, by omega⟩
    | nil =>
      -- the group is complete, the word is the first of the next one
      cases groups with
      | nil => cases hflat
      | cons g groups =>
        obtain ⟨l', hl', hlt⟩ := hnext g rfl
        cases g with
        | nil => cases hl'
        | cons l'' g =>
          obtain rfl := Option.some.inj hl'
          have hrest : g ++ groups.flatten = lengths := (List.cons.inj hflat).2
          obtain rfl : l'' = l := (List.cons.inj hflat).1
          obtain ⟨hg, hall⟩ := List.forall_mem_cons.mp hall
          obtain ⟨hnext, hchain⟩ := List.isChain_cons.mp hchain
          have hstart : startAt maxLen c l'' = 0 := if_pos hlt
          rw [Stays, hstart, zero_add]
          rw [lineBytes_cons] at hg
          refine ⟨by omega, ih hrest hg hall hchain fun g' hg' => ?_⟩
          obtain ⟨l, hl, hlt⟩ := hnext g' hg'
          rw [lineBytes_cons] at hlt
          exact ⟨l, hl, hlt⟩

theorem stays_iff_fitsInGroups : Stays maxLen 0 lengths ↔ FitsInGroups maxLen lengths := by
  refine ⟨fun h => ?_, ?_⟩
  · obtain ⟨group, groups, hflat, hfits, hall, hchain, hnext⟩ := h.exists_groups (Nat.zero_le _)
    rw [zero_add] at hfits hnext
    exact ⟨group :: groups, hflat, List.forall_mem_cons.mpr ⟨hfits, hall⟩, hchain.cons hnext⟩
  · rintro ⟨groups, hflat, hall, hchain⟩
    cases groups with
    | nil =>
      obtain rfl := hflat
      exact trivial
    | cons group groups =>
      obtain ⟨hfits, hall⟩ := List.forall_mem_cons.mp hall
      obtain ⟨hnext, hchain⟩ := List.isChain_cons.mp hchain
      exact stays_of_groups hflat (by rwa [zero_add]) hall hchain (by rwa [zero_add])

end Groups

/-! ## The buffer -/

section SaveWords

variable {maxLen : ℕ} {mem : Mem}

/-- The fill after every word, and the stores, when the file and the buffer are there. -/
theorem saveWords_stays_iff (maxLen : ℕ) (mem : Mem) (words : List Ptr) (temp : ℤ → UInt8)
    (hash : UInt64) :
    ∃ saved, saveWordsWith maxLen true (some temp) mem words hash = .ok saved ∧
      (((∀ n, ((saveLoop maxLen mem (words.take n) ⟨0, fnvOffsetBasis⟩).val
            ⟨temp, []⟩).currLen ≤ maxLen) ∧
          ∀ i : ℤ, .store i ∈ saved.trace → 0 ≤ i ∧ i < maxLen) ↔
        Stays maxLen 0 (words.map (strlenAt mem))) := by
  have hstart : (⟨0, fnvOffsetBasis⟩ : SaveState).currLen ≤ maxLen := Nat.zero_le maxLen
  have hfill := saveLoop_stays_iff mem words hstart ⟨temp, []⟩
  have hnone : ∀ i : ℤ, (.store i : Event (List UInt8)) ∈ [] → 0 ≤ i ∧ i < maxLen :=
    fun i hi => absurd hi List.not_mem_nil
  rw [saveWordsWith]
  by_cases hlen : words.length = 0
  · rw [if_pos hlen]
    exact ⟨_, rfl, fun h => hfill.mp h.1, fun h => ⟨hfill.mpr h, hnone⟩⟩
  · rw [if_neg hlen]
    refine ⟨_, rfl, fun h => hfill.mp h.1, fun h => ⟨hfill.mpr h, fun i hi => ?_⟩⟩
    exact saveLoop_stores h hnone i (mem_fwrite.mp hi)

/-- **The buffer is never overrun** exactly when the words fall into groups that fit. -/
theorem saveWords_fits_iff (maxLen : ℕ) (mem : Mem) (words : List Ptr) (temp : ℤ → UInt8)
    (hash : UInt64) :
    ∃ saved, saveWordsWith maxLen true (some temp) mem words hash = .ok saved ∧
      (((∀ n, ((saveLoop maxLen mem (words.take n) ⟨0, fnvOffsetBasis⟩).val
            ⟨temp, []⟩).currLen ≤ maxLen) ∧
          ∀ i : ℤ, .store i ∈ saved.trace → 0 ≤ i ∧ i < maxLen) ↔
        FitsInGroups maxLen (words.map (strlenAt mem))) := by
  obtain ⟨saved, hrun, hiff⟩ := saveWords_stays_iff maxLen mem words temp hash
  exact ⟨saved, hrun, hiff.trans stays_iff_fitsInGroups⟩

/-- A first word of `max_len` letters has its newline written behind the buffer. -/
theorem saveWordsWith_overrun {word : Ptr} (hlen : strlenAt mem word = maxLen)
    (temp : ℤ → UInt8) (hash : UInt64) :
    ∃ saved, saveWordsWith maxLen true (some temp) mem [word] hash = .ok saved ∧
      .store (maxLen : ℤ) ∈ saved.trace := by
  obtain ⟨-, hstores⟩ := saveStep_spec maxLen mem word ⟨0, fnvOffsetBasis⟩ ⟨temp, []⟩
  rw [hlen] at hstores
  refine ⟨_, rfl, mem_fwrite.mpr ((hstores maxLen).mpr (Or.inl ?_))⟩
  have hstart : startAt maxLen 0 maxLen = 0 := if_neg (by omega)
  rw [hstart]
  omega

/-- One word of `2 ^ 20` letters. -/
theorem saveWords_fits_long :
    ¬ ∀ saved, saveWords true (some fun _ => 0) (List.replicate (1024 * 1024) 97) [0] 0 =
      .ok saved → ∀ i : ℤ, .store i ∈ saved.trace → i < (1024 * 1024 : ℕ) := by
  have hlen : strlenAt (List.replicate (1024 * 1024) 97) 0 = 1024 * 1024 := by
    rw [strlenAt, cstr, List.drop_zero, toCString_of_notMem, List.length_replicate]
    exact fun hmem => absurd (List.eq_of_mem_replicate hmem) (by decide)
  obtain ⟨saved, hrun, hstore⟩ := saveWordsWith_overrun hlen (fun _ => 0) 0
  exact fun h => absurd (h saved hrun _ hstore) (lt_irrefl _)

end SaveWords

end EfficientDictionary
