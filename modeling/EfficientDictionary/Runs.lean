import EfficientDictionary.CString
import Mathlib.Data.Finset.Sort
import Mathlib.Data.List.Basic

/-!
# The words of a document

What the component is for, in its own terms: the words of a document are its maximal runs
of letters and digits (`IsRun`), and the result of a run of the program is to be the list of
distinct words in `strcmp` order (`distinctWords`). Nothing here is translated from the
source.

* `alnumAt`, `inWord` — the byte at `i` is a letter or digit; the byte before it is.
* `startsRun`, `endsRun` — a run starts at `i`; `i` is the first byte after a run.
* `runStarts`, `runText` — the starts of all runs in order, the text of the run at `s`.
* `zeroAt e n mem` — memory with a `0` wherever `e` says so below `n`; the terminated
  document is `zeroAt (endsRun doc) doc.length doc`.
-/

namespace EfficientDictionary

variable {doc beyond : Mem} {s n i : ℕ}

/-! ## Runs -/

/-- Letters and digits. -/
def isLetter (b : UInt8) : Bool := isalnum (uchar b)

/-- The byte at `i` is a letter or a digit; no byte outside the document is. -/
def alnumAt (doc : Mem) (i : ℕ) : Bool := isLetter (byteAt doc i)

/-- The byte before `i` is a letter or a digit. -/
def inWord (doc : Mem) : ℕ → Bool
  | 0 => false
  | i + 1 => alnumAt doc i

/-- A run starts at `i`. -/
def startsRun (doc : Mem) (i : ℕ) : Bool := alnumAt doc i && !inWord doc i

/-- `i` is the first position after a run. -/
def endsRun (doc : Mem) (i : ℕ) : Bool := !alnumAt doc i && inWord doc i

/-- The `n` bytes from `s` on are a maximal run of letters and digits. -/
structure IsRun (doc : Mem) (s n : ℕ) : Prop where
  /-- it is not empty -/
  pos : 0 < n
  /-- all its bytes are letters or digits -/
  inside : ∀ k < n, alnumAt doc (s + k) = true
  /-- the byte after it is not -/
  ends : alnumAt doc (s + n) = false
  /-- nor is the byte before it -/
  starts : inWord doc s = false

/-- The starts of all runs, in order. -/
def runStarts (doc : Mem) : List ℕ := (List.range doc.length).filter (startsRun doc)

/-- The text of the run at `s`. -/
def runText (doc : Mem) (s : ℕ) : List UInt8 :=
  (doc.drop s).takeWhile isLetter

/-- The distinct strings of a list, in `strcmp` order. -/
def sortedDistinct (words : List (List UInt8)) : List (List UInt8) :=
  words.toFinset.sort (· ≤ ·)

/-- The distinct words of the document, in `strcmp` order. -/
def distinctWords (doc : Mem) : List (List UInt8) :=
  sortedDistinct ((runStarts doc).map (runText doc))

theorem sortedDistinct_pairwise (words : List (List UInt8)) :
    (sortedDistinct words).Pairwise (· < ·) :=
  (Finset.sortedLT_sort _).pairwise

theorem mem_sortedDistinct {words : List (List UInt8)} {t : List UInt8} :
    t ∈ sortedDistinct words ↔ t ∈ words := by
  rw [sortedDistinct, Finset.mem_sort, List.mem_toFinset]

/-- There is only one increasing list of the distinct strings. -/
theorem eq_sortedDistinct {words strs : List (List UInt8)} (hlt : strs.Pairwise (· < ·))
    (hmem : ∀ t, t ∈ strs ↔ t ∈ words) : strs = sortedDistinct words :=
  hlt.eq_of_mem_iff (sortedDistinct_pairwise words)
    fun t => (hmem t).trans mem_sortedDistinct.symm

theorem byteAt_of_length_le {mem : Mem} (h : mem.length ≤ i) : byteAt mem i = 0 := by
  rw [byteAt, List.getElem?_eq_none h]
  rfl

theorem alnumAt_of_length_le (h : doc.length ≤ i) : alnumAt doc i = false := by
  rw [alnumAt, byteAt_of_length_le h]
  decide

theorem lt_length_of_alnumAt (h : alnumAt doc i = true) : i < doc.length := by
  by_contra hlt
  rw [alnumAt_of_length_le (not_lt.mp hlt)] at h
  exact Bool.false_ne_true h

theorem byteAt_ne_zero_of_alnumAt (h : alnumAt doc i = true) : byteAt doc i ≠ 0 := by
  intro hzero
  rw [alnumAt, hzero] at h
  exact absurd h (by decide)

theorem byteAt_append_left {mem : Mem} (h : i < mem.length) :
    byteAt (mem ++ beyond) i = byteAt mem i := by
  rw [byteAt, byteAt, List.getElem?_append_left h]

theorem startsRun_iff :
    (alnumAt doc i = true ∧ inWord doc i = false) ↔ startsRun doc i = true := by
  rw [startsRun, Bool.and_eq_true_iff, Bool.not_eq_true']

theorem endsRun_iff :
    (alnumAt doc i = false ∧ inWord doc i = true) ↔ endsRun doc i = true := by
  rw [endsRun, Bool.and_eq_true_iff, Bool.not_eq_true']

theorem startsRun_lt_length (h : startsRun doc i = true) : i < doc.length :=
  lt_length_of_alnumAt (Bool.and_eq_true_iff.mp h).1

theorem mem_runStarts : s ∈ runStarts doc ↔ startsRun doc s = true := by
  rw [runStarts, List.mem_filter, List.mem_range]
  exact ⟨fun h => h.2, fun h => ⟨startsRun_lt_length h, h⟩⟩

/-- The starts increase. -/
theorem runStarts_pairwise (doc : Mem) : (runStarts doc).Pairwise (· < ·) :=
  List.pairwise_lt_range.filter _

namespace IsRun

theorem startsRun (h : IsRun doc s n) : startsRun doc s = true := by
  have halnum := h.inside 0 h.pos
  rw [add_zero] at halnum
  rw [EfficientDictionary.startsRun, halnum, h.starts]
  rfl

theorem endsRun (h : IsRun doc s n) : endsRun doc (s + n) = true := by
  obtain ⟨m, rfl⟩ : ∃ m, n = m + 1 := ⟨n - 1, by have := h.pos; omega⟩
  have hlast := h.inside m (Nat.lt_succ_self m)
  have hends := h.ends
  rw [← Nat.add_assoc] at hends
  rw [EfficientDictionary.endsRun, ← Nat.add_assoc, hends, inWord, hlast]
  rfl

theorem le_length (h : IsRun doc s n) : s + n ≤ doc.length := by
  have hlast := lt_length_of_alnumAt (h.inside (n - 1) (by have := h.pos; omega))
  have hpos := h.pos
  omega

/-- The next run starts after it. -/
theorem le_of_startsRun {p : ℕ} (h : IsRun doc s n)
    (hp : EfficientDictionary.startsRun doc p = true) (hlt : s < p) : s + n ≤ p := by
  by_contra hin
  obtain ⟨k, rfl⟩ : ∃ k, p = s + k + 1 := ⟨p - s - 1, by omega⟩
  have hprev : inWord doc (s + k + 1) = true := h.inside k (by omega)
  rw [(startsRun_iff.mpr hp).2] at hprev
  exact Bool.false_ne_true hprev

/-- The text of a run is its bytes. -/
theorem text_eq (h : IsRun doc s n) :
    runText doc s = (List.range n).map fun k => byteAt doc (s + k) :=
  takeWhile_drop_eq_map (by decide) h.inside h.ends

theorem text_eq_take (h : IsRun doc s n) : runText doc s = (doc.drop s).take n := by
  have hle := h.le_length
  rw [h.text_eq]
  refine List.ext_getElem ?_ fun k hk hk' => ?_
  · rw [List.length_map, List.length_range, List.length_take, List.length_drop]
    omega
  · rw [List.getElem_map, List.getElem_range, List.getElem_take, List.getElem_drop, byteAt]
    rw [List.length_map, List.length_range] at hk
    rw [List.getElem?_eq_getElem (by omega)]
    rfl

end IsRun

/-- Where a run starts, its text is a run. -/
theorem isRun_of_startsRun (h : startsRun doc s = true) :
    IsRun doc s (runText doc s).length := by
  obtain ⟨halnum, hprev⟩ := Bool.and_eq_true_iff.mp h
  have hends : alnumAt doc (s + (runText doc s).length) = false :=
    test_length isLetter (by decide) doc s
  refine ⟨?_, fun k hk => test_of_lt_length hk, hends, by simpa using hprev⟩
  by_contra hzero
  have hlen : (runText doc s).length = 0 := by omega
  rw [hlen, add_zero, halnum] at hends
  exact Bool.false_ne_true hends.symm

/-- The words of the document are the texts of its runs. -/
theorem mem_map_runText {t : List UInt8} :
    t ∈ (runStarts doc).map (runText doc) ↔ ∃ s n, IsRun doc s n ∧ t = (doc.drop s).take n := by
  rw [List.mem_map]
  refine ⟨?_, ?_⟩
  · rintro ⟨s, hs, rfl⟩
    have hrun := isRun_of_startsRun (mem_runStarts.mp hs)
    exact ⟨s, _, hrun, hrun.text_eq_take⟩
  · rintro ⟨s, n, hrun, rfl⟩
    exact ⟨s, mem_runStarts.mpr hrun.startsRun, hrun.text_eq_take⟩

/-- Before a position that follows a letter or digit there is the start of its run. -/
theorem exists_start_of_inWord : ∀ {i : ℕ}, inWord doc i = true →
    ∃ s < i, startsRun doc s = true ∧ ∀ k, s ≤ k → k < i → alnumAt doc k = true := by
  intro i
  induction i with
  | zero =>
    intro h
    exact absurd h Bool.false_ne_true
  | succ i ih =>
    intro h
    by_cases hprev : inWord doc i = true
    · obtain ⟨s, hs, hstart, hall⟩ := ih hprev
      refine ⟨s, by omega, hstart, fun k hk hki => ?_⟩
      rcases eq_or_lt_of_le (Nat.lt_succ_iff.mp hki) with rfl | hlt
      · exact h
      · exact hall k hk hlt
    · have halnum : alnumAt doc i = true := h
      refine ⟨i, Nat.lt_succ_self i, ?_, fun k hk hki => ?_⟩
      · rw [startsRun, halnum, Bool.eq_false_iff.mpr hprev]
        rfl
      · obtain rfl : k = i := by omega
        exact h

/-- The position after a run is the end of one. -/
theorem exists_isRun_of_inWord (hprev : inWord doc i = true) (hend : alnumAt doc i = false) :
    ∃ s n, IsRun doc s n ∧ s + n = i := by
  obtain ⟨s, hs, hstart, hall⟩ := exists_start_of_inWord hprev
  have hsum : s + (i - s) = i := by omega
  refine ⟨s, i - s, ⟨by omega, fun k hk => hall (s + k) (by omega) (by omega), ?_, ?_⟩, hsum⟩
  · rwa [hsum]
  · simpa using (Bool.and_eq_true_iff.mp hstart).2

/-! ## The terminated document -/

/-- Memory with a `0` wherever `e` says so below `n`. -/
def zeroAt (e : ℕ → Bool) (n : ℕ) (mem : Mem) : Mem :=
  mem.mapIdx fun i b => if i < n ∧ e i = true then 0 else b

@[simp] theorem length_zeroAt (e : ℕ → Bool) (n : ℕ) (mem : Mem) :
    (zeroAt e n mem).length = mem.length :=
  List.length_mapIdx

theorem byteAt_zeroAt (e : ℕ → Bool) (n : ℕ) (mem : Mem) (i : ℕ) :
    byteAt (zeroAt e n mem) i = if i < n ∧ e i = true then 0 else byteAt mem i := by
  rw [byteAt, zeroAt, List.getElem?_mapIdx, byteAt]
  cases mem[i]? <;> simp

theorem zeroAt_zero (e : ℕ → Bool) (mem : Mem) : zeroAt e 0 mem = mem := by
  refine List.ext_getElem? fun i => ?_
  rw [zeroAt, List.getElem?_mapIdx]
  cases mem[i]? <;> simp

theorem zeroAt_succ_of_true {e : ℕ → Bool} (h : e n = true) (mem : Mem) :
    zeroAt e (n + 1) mem = (zeroAt e n mem).set n 0 := by
  refine List.ext_getElem? fun i => ?_
  rw [List.getElem?_set, length_zeroAt, zeroAt, zeroAt, List.getElem?_mapIdx,
    List.getElem?_mapIdx]
  rcases eq_or_ne n i with rfl | hne
  · by_cases hlt : n < mem.length
    · simp [h, hlt]
    · simp [hlt]
  · rw [if_neg hne]
    congr 1
    funext b
    exact if_congr (and_congr_left fun _ => by omega) rfl rfl

theorem zeroAt_succ_of_false {e : ℕ → Bool} (h : e n = false) (mem : Mem) :
    zeroAt e (n + 1) mem = zeroAt e n mem := by
  refine List.ext_getElem? fun i => ?_
  rw [zeroAt, zeroAt, List.getElem?_mapIdx, List.getElem?_mapIdx]
  congr 1
  funext b
  refine if_congr ?_ rfl rfl
  rcases eq_or_ne i n with rfl | hne
  · simp [h]
  · exact and_congr_left fun _ => by omega

/-- One more byte of a scan that terminates the runs. -/
theorem zeroAt_endsRun_succ (doc mem : Mem) (n : ℕ) :
    zeroAt (endsRun doc) (n + 1) mem =
      if alnumAt doc n = false ∧ inWord doc n = true then (zeroAt (endsRun doc) n mem).set n 0
      else zeroAt (endsRun doc) n mem := by
  by_cases h : endsRun doc n = true
  · rw [if_pos (endsRun_iff.mpr h), zeroAt_succ_of_true h]
  · rw [if_neg (mt endsRun_iff.mp h), zeroAt_succ_of_false (Bool.eq_false_iff.mpr h)]

theorem zeroAt_append (e : ℕ → Bool) (mem beyond : Mem) :
    zeroAt e mem.length (mem ++ beyond) = zeroAt e mem.length mem ++ beyond := by
  refine List.ext_getElem? fun i => ?_
  rw [zeroAt, List.getElem?_mapIdx]
  by_cases h : i < mem.length
  · rw [List.getElem?_append_left h, List.getElem?_append_left (by rwa [length_zeroAt]), zeroAt,
      List.getElem?_mapIdx]
  · rw [List.getElem?_append_right (by omega),
      List.getElem?_append_right (by rw [length_zeroAt]; omega), length_zeroAt]
    simp [h]

/-- The document with the first byte after each run set to `0`. -/
def terminated (doc : Mem) : Mem := zeroAt (endsRun doc) doc.length doc

theorem length_terminated (doc : Mem) : (terminated doc).length = doc.length :=
  length_zeroAt _ _ _

theorem byteAt_terminated (h : i < doc.length) :
    byteAt (terminated doc ++ beyond) i = if endsRun doc i = true then 0 else byteAt doc i := by
  rw [byteAt_append_left (by rwa [length_terminated]), terminated, byteAt_zeroAt]
  simp [h]

/-- The byte after the document is the first one beyond it. -/
theorem byteAt_length_terminated (doc beyond : Mem) :
    byteAt (terminated doc ++ beyond) doc.length = byteAt beyond 0 := by
  rw [byteAt, List.getElem?_append_right (by rw [length_terminated]), length_terminated,
    Nat.sub_self]
  rfl

/-- Terminating the words does not change which bytes are letters or digits. -/
theorem isLetter_terminated (h : i < doc.length) :
    isLetter (byteAt (terminated doc ++ beyond) i) = alnumAt doc i := by
  rw [byteAt_terminated h]
  split_ifs with hend
  · have hout : alnumAt doc i = false := by simpa using (Bool.and_eq_true_iff.mp hend).1
    rw [hout]
    decide
  · rfl

/-- The letters and digits themselves stay. -/
theorem byteAt_terminated_of_alnumAt (beyond : Mem) (h : alnumAt doc i = true) :
    byteAt (terminated doc ++ beyond) i = byteAt doc i := by
  rw [byteAt_terminated (lt_length_of_alnumAt h), if_neg]
  rw [endsRun, h]
  exact Bool.false_ne_true

/-- Nor does terminating those before `n` change the byte at `n`. -/
theorem isLetter_zeroAt (h : n < doc.length) :
    isLetter (byteAt (zeroAt (endsRun doc) n (doc ++ beyond)) n) = alnumAt doc n := by
  rw [byteAt_zeroAt, if_neg (by simp), byteAt_append_left h]
  rfl

/-- In the terminated document the string at the start of a run is the run, unless it ends with
the document and the byte after that is not `0`. -/
theorem cstr_terminated_of_end
    (hend : s + (runText doc s).length = doc.length → byteAt beyond 0 = 0)
    (hs : startsRun doc s = true) : cstr (terminated doc ++ beyond) s = runText doc s := by
  have hrun := isRun_of_startsRun hs
  have hbytes : ∀ k < (runText doc s).length,
      byteAt (terminated doc ++ beyond) (s + k) = byteAt doc (s + k) :=
    fun k hk => byteAt_terminated_of_alnumAt beyond (hrun.inside k hk)
  rw [hrun.text_eq]
  refine (cstr_eq_map (fun k hk => ?_) ?_).trans
    (List.map_congr_left fun k hk => hbytes k (List.mem_range.mp hk))
  · rw [hbytes k hk]
    exact byteAt_ne_zero_of_alnumAt (hrun.inside k hk)
  · rcases eq_or_lt_of_le hrun.le_length with heq | hlt
    · rw [heq, byteAt_length_terminated, hend heq]
    · rw [byteAt_terminated hlt, if_pos hrun.endsRun]

/-- That is so when the last byte of the document is no letter or digit, or a `0` follows. -/
theorem cstr_terminated_of_last
    (hlast : alnumAt doc (doc.length - 1) = true → byteAt beyond 0 = 0)
    (hs : startsRun doc s = true) : cstr (terminated doc ++ beyond) s = runText doc s := by
  have hrun := isRun_of_startsRun hs
  have hpos := hrun.pos
  refine cstr_terminated_of_end (fun hend => hlast ?_) hs
  have hletter := hrun.inside ((runText doc s).length - 1) (by omega)
  rwa [← Nat.add_sub_assoc (by omega), hend] at hletter

theorem cstr_terminated (hzero : byteAt beyond 0 = 0) (hs : startsRun doc s = true) :
    cstr (terminated doc ++ beyond) s = runText doc s :=
  cstr_terminated_of_end (fun _ => hzero) hs

/-- Hence the strings at the starts of the runs are the words of the document. -/
theorem map_cstr_runStarts (hzero : byteAt beyond 0 = 0) (doc : Mem) :
    (runStarts doc).map (cstr (terminated doc ++ beyond)) = (runStarts doc).map (runText doc) :=
  List.map_congr_left fun _ hs => cstr_terminated hzero (mem_runStarts.mp hs)

/-- Whatever follows the document, the string begins with the run. -/
theorem runText_le_cstr (beyond : Mem) (hs : startsRun doc s = true) :
    runText doc s ≤ cstr (terminated doc ++ beyond) s := by
  have hrun := isRun_of_startsRun hs
  have hbytes : ∀ k < (runText doc s).length,
      byteAt (terminated doc ++ beyond) (s + k) = byteAt doc (s + k) :=
    fun k hk => byteAt_terminated_of_alnumAt beyond (hrun.inside k hk)
  have hle : (runText doc s).length ≤ strlenAt (terminated doc ++ beyond) s := by
    by_contra hlt
    have hne := byteAt_ne_zero_of_alnumAt (hrun.inside _ (not_le.mp hlt))
    rw [← hbytes _ (not_le.mp hlt)] at hne
    exact hne (byteAt_strlenAt _ s)
  have htake : (cstr (terminated doc ++ beyond) s).take (runText doc s).length =
      runText doc s := by
    rw [cstr_eq_bytes, ← List.map_take, List.take_range, Nat.min_eq_left hle]
    refine (List.map_congr_left fun k hk => ?_).trans hrun.text_eq.symm
    exact hbytes k (List.mem_range.mp hk)
  have hprefix := List.take_prefix (runText doc s).length (cstr (terminated doc ++ beyond) s)
  rw [htake] at hprefix
  exact not_lt.mp (List.not_lt.mpr hprefix.le)

/-- Words that increase still do so when the last one is longer than it should be. -/
theorem map_cstr_increasing (beyond : Mem)
    (h : ((runStarts doc).map (runText doc)).Pairwise (· < ·)) :
    ((runStarts doc).map (cstr (terminated doc ++ beyond))).Pairwise (· < ·) := by
  rw [List.pairwise_map] at h ⊢
  refine ((runStarts_pairwise doc).and h).imp_of_mem fun hs hs' hlt => ?_
  have hs := mem_runStarts.mp hs
  have hs' := mem_runStarts.mp hs'
  -- the first of two runs ends before the document does
  have hle := (isRun_of_startsRun hs).le_of_startsRun hs' hlt.1
  have hin := startsRun_lt_length hs'
  rw [cstr_terminated_of_end (fun hend => by omega) hs]
  exact hlt.2.trans_le (runText_le_cstr beyond hs')

/-! ### The runs of the terminated document -/

@[simp] theorem alnumAt_terminated (doc : Mem) (i : ℕ) :
    alnumAt (terminated doc) i = alnumAt doc i := by
  rcases lt_or_ge i doc.length with h | h
  · have hletter := @isLetter_terminated doc [] i h
    rwa [List.append_nil] at hletter
  · rw [alnumAt_of_length_le h, alnumAt_of_length_le (by rwa [length_terminated])]

@[simp] theorem inWord_terminated (doc : Mem) (i : ℕ) :
    inWord (terminated doc) i = inWord doc i := by
  cases i with
  | zero => rfl
  | succ i => exact alnumAt_terminated doc i

@[simp] theorem startsRun_terminated (doc : Mem) : startsRun (terminated doc) = startsRun doc := by
  funext i
  rw [startsRun, startsRun, alnumAt_terminated, inWord_terminated]

@[simp] theorem endsRun_terminated (doc : Mem) : endsRun (terminated doc) = endsRun doc := by
  funext i
  rw [endsRun, endsRun, alnumAt_terminated, inWord_terminated]

/-- It has the same runs, -/
@[simp] theorem runStarts_terminated (doc : Mem) : runStarts (terminated doc) = runStarts doc := by
  rw [runStarts, runStarts, length_terminated, startsRun_terminated]

/-- with the same texts, -/
theorem runText_terminated (h : startsRun doc s = true) :
    runText (terminated doc) s = runText doc s := by
  have hrun := isRun_of_startsRun h
  have hrun' : IsRun (terminated doc) s (runText doc s).length := by
    refine ⟨hrun.pos, fun k hk => ?_, ?_, ?_⟩
    · rw [alnumAt_terminated]
      exact hrun.inside k hk
    · rw [alnumAt_terminated]
      exact hrun.ends
    · rw [inWord_terminated]
      exact hrun.starts
  rw [hrun.text_eq, hrun'.text_eq]
  refine List.map_congr_left fun k hk => ?_
  have hbyte := byteAt_terminated_of_alnumAt [] (hrun.inside k (List.mem_range.mp hk))
  rwa [List.append_nil] at hbyte

/-- so the same words, -/
@[simp] theorem distinctWords_terminated (doc : Mem) :
    distinctWords (terminated doc) = distinctWords doc := by
  rw [distinctWords, distinctWords, runStarts_terminated]
  exact congrArg sortedDistinct
    (List.map_congr_left fun _ hs => runText_terminated (mem_runStarts.mp hs))

/-- and nothing is left to terminate. -/
@[simp] theorem terminated_terminated (doc : Mem) :
    terminated (terminated doc) = terminated doc := by
  refine List.ext_getElem? fun i => ?_
  rw [terminated, endsRun_terminated, length_terminated, terminated, zeroAt, zeroAt,
    List.getElem?_mapIdx, List.getElem?_mapIdx]
  cases doc[i]? with
  | none => rfl
  | some b =>
    simp only [Option.map_some, Option.some.injEq]
    split_ifs
    · rfl
    · rfl

end EfficientDictionary
