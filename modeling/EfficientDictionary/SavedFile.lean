import EfficientDictionary.SaveWords

/-!
# The file SaveWords writes

The calls of `fwrite` come at places that depend on the lengths of all words before, and the
file does not show where they were: it holds each word with a newline behind it.

* `SaveInv` — what has been written to the file, followed by what is in the buffer, is the
  lines of the words so far.
* `splitOn_fileLines` — splitting the lines at the newlines gives the words back.
-/

namespace EfficientDictionary

/-- The bytes that the calls of `fwrite` in a trace have written, in order. -/
def written (t : List (Event (List UInt8))) : List UInt8 := (notes t).reverse.flatten

/-- Each string with a newline behind it. -/
def fileLines (strs : List (List UInt8)) : List UInt8 := strs.flatMap fun t => t ++ [10]

theorem fileLines_append (strs strs' : List (List UInt8)) :
    fileLines (strs ++ strs') = fileLines strs ++ fileLines strs' :=
  List.flatMap_append

theorem fileLines_singleton (t : List UInt8) : fileLines [t] = t ++ [10] :=
  List.flatMap_singleton _ _

/-- Behind the last newline there is nothing more. -/
theorem splitOn_fileLines {strs : List (List UInt8)} (h : ∀ t ∈ strs, (10 : UInt8) ∉ t) :
    (fileLines strs).splitOn 10 = strs ++ [[]] := by
  induction strs with
  | nil => exact List.splitOn_nil 10
  | cons t strs ih =>
    obtain ⟨ht, hstrs⟩ := List.forall_mem_cons.mp h
    have hcons : fileLines (t :: strs) = t ++ 10 :: fileLines strs := by
      rw [fileLines, List.flatMap_cons, List.append_assoc]
      rfl
    rw [hcons, List.splitOn_append_cons_self_of_not_mem ht, ih hstrs]
    rfl

/-! ## One turn -/

section Turn

variable {maxLen : ℕ} {mem : Mem} {words : List Ptr} {s : Machine (List UInt8) UInt8}

theorem written_cons_note (bytes : List UInt8) (t : List (Event (List UInt8))) :
    written (.note bytes :: t) = written t ++ bytes := by
  have hnotes : notes (.note bytes :: t) = bytes :: notes t := rfl
  rw [written, hnotes, List.reverse_cons, List.flatten_append, List.flatten_singleton]
  rfl

/-- `fwrite` appends the first `len` bytes of the buffer to the file. -/
theorem fwrite_spec (len : ℕ) (s : Machine (List UInt8) UInt8) :
    written ((fwrite len).exec s).trace = written s.trace ++ slice s.cells 0 len ∧
      ((fwrite len).exec s).cells = s.cells := by
  obtain ⟨hval, hcells, -⟩ := loadAll_spec 0 len s
  rw [zero_add] at hval
  rw [fwrite, Prog.bind_exec, note_exec]
  refine ⟨?_, hcells⟩
  rw [written_cons_note, hval, written, written, loadAll_notes]

/-- The state of the loop after the words with the strings `strs`. -/
def SaveInv (strs : List (List UInt8)) (currLen : ℕ) (s : Machine (List UInt8) UInt8) : Prop :=
  written s.trace ++ slice s.cells 0 currLen = fileLines strs

/-- The part of a turn that copies the word. -/
def storeLine (mem : Mem) (word : Ptr) (currLen : ℕ) (hash : UInt64) :
    Prog (List UInt8) UInt8 SaveState := do
  storeAll currLen (strlenAt mem word) fun k => byteAt mem (word + k)
  store (currLen + strlenAt mem word) 10
  pure ⟨currLen + (strlenAt mem word + 1), hash⟩

theorem saveStep_eq (maxLen : ℕ) (mem : Mem) (word : Ptr) (st : SaveState) :
    saveStep maxLen mem word st =
      if maxLen < st.currLen + strlenAt mem word then do
        fwrite st.currLen
        storeLine mem word 0 (hash st.hash (cstr mem word))
      else
        storeLine mem word st.currLen (hash st.hash (cstr mem word)) := by
  have hlen : countLetters (mem.drop word) = strlenAt mem word := countLetters_eq _
  rw [saveStep, hlen]
  split_ifs
  · rfl
  · rfl

/-- The word and its newline extend the first `currLen` bytes of the buffer by a line. -/
theorem storeLine_inv {strs : List (List UInt8)} {currLen : ℕ} (mem : Mem) (word : Ptr)
    (hash : UInt64) (h : SaveInv strs currLen s) :
    SaveInv (strs ++ [cstr mem word]) ((storeLine mem word currLen hash).val s).currLen
      ((storeLine mem word currLen hash).exec s) := by
  have hwritten : written ((storeLine mem word currLen hash).exec s).trace = written s.trace :=
    congrArg (List.flatten ∘ List.reverse) (storeAll_notes _ _ _ s)
  have hval : ((storeLine mem word currLen hash).val s).currLen =
      currLen + (strlenAt mem word + 1) := rfl
  have hend : ((currLen + (strlenAt mem word + 1) : ℕ) : ℤ) =
      (currLen : ℤ) + strlenAt mem word + 1 := by omega
  rw [SaveInv, hwritten, hval, hend, fileLines_append, ← h, List.append_assoc]
  congr 1
  simp only [storeLine, Prog.bind_exec, Prog.pure_exec, store_exec]
  rw [slice_update_right (by omega), ← slice_append _ (Int.natCast_nonneg currLen) (by omega),
    slice_storeAll_of_disjoint (Or.inl (le_refl _)), slice_storeAll, ← cstr_eq_bytes,
    fileLines_singleton, List.append_assoc]

/-- One turn of the loop, whether it writes the buffer out or not. -/
theorem saveStep_inv {strs : List (List UInt8)} {st : SaveState} (maxLen : ℕ) (mem : Mem)
    (word : Ptr) (h : SaveInv strs st.currLen s) :
    SaveInv (strs ++ [cstr mem word]) ((saveStep maxLen mem word st).val s).currLen
      ((saveStep maxLen mem word st).exec s) := by
  rw [saveStep_eq]
  split_ifs
  · obtain ⟨hwritten, -⟩ := fwrite_spec st.currLen s
    -- the buffer moves to the file
    have hempty : SaveInv strs 0 ((fwrite st.currLen).exec s) := by
      rw [SaveInv, hwritten, Nat.cast_zero, slice_of_le (le_refl 0), List.append_nil]
      exact h
    exact storeLine_inv mem word _ hempty
  · exact storeLine_inv mem word _ h

end Turn

/-! ## The run -/

theorem saveLoop_inv {strs : List (List UInt8)} {st : SaveState} {s : Machine (List UInt8) UInt8}
    (maxLen : ℕ) (mem : Mem) (words : List Ptr) (h : SaveInv strs st.currLen s) :
    SaveInv (strs ++ words.map (cstr mem)) ((saveLoop maxLen mem words st).val s).currLen
      ((saveLoop maxLen mem words st).exec s) := by
  induction words generalizing strs st s with
  | nil => rwa [List.map_nil, List.append_nil]
  | cons word words ih =>
    have hrest := ih (saveStep_inv maxLen mem word h)
    rw [List.append_assoc, List.singleton_append] at hrest
    exact hrest

/-- **The file holds each word with a newline behind it**, in the order of the list, whatever
the capacity of the buffer. When no word contains a newline, splitting the file at the
newlines gives the list back, and nothing behind the last of them. -/
theorem saveWords_lines (maxLen : ℕ) (mem : Mem) (words : List Ptr) (temp : ℤ → UInt8)
    (hash : UInt64) :
    ∃ saved, saveWordsWith maxLen true (some temp) mem words hash = .ok saved ∧
      saved.code = 0 ∧
      written saved.trace = words.flatMap (fun word => cstr mem word ++ [10]) ∧
      ((∀ word ∈ words, (10 : UInt8) ∉ cstr mem word) →
        (written saved.trace).splitOn 10 = words.map (cstr mem) ++ [[]]) := by
  have hlines : words.flatMap (fun word => cstr mem word ++ [10]) =
      fileLines (words.map (cstr mem)) := by
    rw [fileLines, List.flatMap_map]
  have hsplit : (∀ word ∈ words, (10 : UInt8) ∉ cstr mem word) →
      (fileLines (words.map (cstr mem))).splitOn 10 = words.map (cstr mem) ++ [[]] :=
    fun h => splitOn_fileLines (List.forall_mem_map.mpr h)
  rw [saveWordsWith, hlines]
  by_cases hlen : words.length = 0
  · obtain rfl := List.length_eq_zero_iff.mp hlen
    exact ⟨_, rfl, rfl, rfl, hsplit⟩
  · have hstart : SaveInv [] (⟨0, fnvOffsetBasis⟩ : SaveState).currLen ⟨temp, []⟩ := rfl
    have hinv := saveLoop_inv maxLen mem words hstart
    have hfile := (fwrite_spec ((saveLoop maxLen mem words ⟨0, fnvOffsetBasis⟩).val
      ⟨temp, []⟩).currLen ((saveLoop maxLen mem words ⟨0, fnvOffsetBasis⟩).exec ⟨temp, []⟩)).1
    rw [hinv, List.nil_append] at hfile
    rw [if_neg hlen]
    refine ⟨_, rfl, rfl, hfile, fun h => ?_⟩
    exact (congrArg (List.splitOn 10) hfile).trans (hsplit h)

/-- The words `b` and `a` and a buffer of one byte, which is written out between them. -/
theorem saveWords_lines_two :
    ∃ saved, saveWordsWith 1 true (some fun _ => 0) [98, 0, 97, 0] [0, 2] 0 = .ok saved ∧
      (written saved.trace).splitOn 10 = [[98], [97], []] := by
  obtain ⟨saved, hrun, _, _, hsplit⟩ :=
    saveWords_lines 1 [98, 0, 97, 0] [0, 2] (fun _ => 0) 0
  exact ⟨saved, hrun, hsplit (by decide)⟩

end EfficientDictionary
