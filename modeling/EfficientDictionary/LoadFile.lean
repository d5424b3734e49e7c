import EfficientDictionary.SaveWords

/-!
# LoadFile

The file is read into a block of its size, the length goes through a `uint32_t`, and a
leading UTF-8 byte order mark is to be skipped. The check for the mark compares `char`s with
the numbers `0xEF`, `0xBB` and `0xBF`. How a `char` becomes an `int` is a parameter of the
definitions, since it decides whether the check can succeed.

* `loadFileWith_of_success` — what is left to the check, once the file has been read.
* `hasBom_schar`, `hasBom_uchar` — the check never succeeds when `char` is signed, and is the
  right one when it is not.
* `withoutBom` — what the caller is to find, in terms of the content of the file.
-/

namespace EfficientDictionary

/-! ## Definitions -/

/-- `SUCCESS_CODE` -/
def successCode : ℕ := 0

/-- `MAX_FILENAME_LEN` -/
def maxFilenameLen : ℕ := 200

/-- `ERR_FILENAME_LEN_EXCEED` -/
def errFilenameLenExceed : ℕ := 101

/-- `ERR_OPEN_FILE` -/
def errOpenFile : ℕ := 102

/-- `ERR_READ_FILE` -/
def errReadFile : ℕ := 104

/-- What the library calls return. -/
structure Environment where
  /-- the content of the file of a given name, if `fopen` can open it -/
  file : List UInt8 → Option (List UInt8)
  /-- whether `malloc` has a block of a given size -/
  malloc : ℕ → Bool
  /-- how many bytes `fread` delivers at most -/
  delivers : ℕ

/-- What `*doc` points to. -/
inductive DocPtr : Type where
  /-- `NULL` -/
  | null
  /-- a block that has been freed -/
  | dangling
  /-- the byte at `offset` of a block -/
  | into (block : Mem) (offset : ℕ)
  deriving DecidableEq, Repr

/-- What the caller finds. -/
structure Loaded where
  /-- the return value -/
  code : ℕ
  /-- `*doc` -/
  doc : DocPtr
  /-- `*doc_len` -/
  docLen : UInt32
  deriving DecidableEq

/-- The `*doc_len` bytes at `*doc`. -/
def Loaded.bytes (loaded : Loaded) : Option (List UInt8) :=
  match loaded.doc with
  | .into block offset => some ((block.drop offset).take loaded.docLen.toNat)
  | _ => none

/-- The check for the UTF-8 BOM, with `char` for the promotion of a `char` to `int`. -/
def hasBom (char : UInt8 → ℤ) (block : Mem) (docLen : UInt32) : Bool :=
  decide (3 ≤ docLen ∧ char (byteAt block 0) = 0xEF ∧ char (byteAt block 1) = 0xBB ∧
    char (byteAt block 2) = 0xBF)

/-- `LoadFile`, for any promotion of `char`; `doc` and `docLen` are what the caller passes. -/
def loadFileWith (char : UInt8 → ℤ) (env : Environment) (mem : Mem) (filename : Ptr)
    (doc : DocPtr) (docLen : UInt32) : Loaded :=
  if strlenAt mem filename > maxFilenameLen then
    ⟨errFilenameLenExceed, doc, docLen⟩
  else
    match env.file (cstr mem filename) with
    | none => ⟨errOpenFile, doc, docLen⟩
    | some content =>
      let fileSize := content.length
      if !env.malloc fileSize then
        ⟨errMalloc, .null, docLen⟩
      else
        let block := content.take env.delivers
        let bytesRead := block.length
        if bytesRead ≠ fileSize then
          ⟨errReadFile, .dangling, docLen⟩
        else
          let docLen := UInt32.ofNat bytesRead
          if hasBom char block docLen then
            ⟨successCode, .into block 3, docLen - 3⟩
          else
            ⟨successCode, .into block 0, docLen⟩

/-- `LoadFile`, where `char` is signed -/
def loadFile : Environment → Mem → Ptr → DocPtr → UInt32 → Loaded := loadFileWith schar

/-- The UTF-8 byte order mark. -/
def bom : List UInt8 := [0xEF, 0xBB, 0xBF]

/-- What the caller is to find. -/
def withoutBom (content : List UInt8) : List UInt8 :=
  if bom <+: content then content.drop 3 else content

/-! ## The check -/

section Check

variable {block : Mem} {docLen : UInt32}

/-- A signed `char` is never as large as `0xEF`. -/
theorem hasBom_schar (block : Mem) (docLen : UInt32) : hasBom schar block docLen = false := by
  refine decide_eq_false ?_
  rintro ⟨_, hfirst, _, _⟩
  have hlt := (byteAt block 0).toNat_lt
  rw [schar] at hfirst
  split_ifs at hfirst <;> omega

theorem bom_prefix_iff :
    bom <+: block ↔ 3 ≤ block.length ∧ byteAt block 0 = 0xEF ∧ byteAt block 1 = 0xBB ∧
      byteAt block 2 = 0xBF := by
  match block with
  | [] => simp [bom]
  | [_] => simp [bom]
  | [_, _] => simp [bom]
  | a :: b :: c :: rest =>
    simp [bom, byteAt, List.cons_prefix_cons, eq_comm]

/-- Unsigned ones are compared as they should be. -/
theorem hasBom_uchar (hlen : docLen.toNat = block.length) :
    hasBom uchar block docLen = true ↔ bom <+: block := by
  have hlt : 3 ≤ docLen ↔ 3 ≤ block.length := by
    rw [UInt32.le_iff_toNat_le, hlen]
    rfl
  have hfirst : (0xEF : ℤ) = uchar 0xEF := rfl
  have hsecond : (0xBB : ℤ) = uchar 0xBB := rfl
  have hthird : (0xBF : ℤ) = uchar 0xBF := rfl
  rw [hasBom, decide_eq_true_iff, bom_prefix_iff, hlt, hfirst, hsecond, hthird, uchar_inj,
    uchar_inj, uchar_inj]

end Check

/-! ## The result -/

section LoadFile

variable {char : UInt8 → ℤ} {env : Environment} {mem : Mem} {filename : Ptr} {doc : DocPtr}
  {docLen : UInt32} {content : List UInt8}

/-- A run that does not succeed leaves the length as it was. -/
theorem loadFileWith_docLen_of_failure
    (h : (loadFileWith char env mem filename doc docLen).code ≠ successCode) :
    (loadFileWith char env mem filename doc docLen).docLen = docLen := by
  unfold loadFileWith at h ⊢
  by_cases hname : strlenAt mem filename > maxFilenameLen
  · rw [if_pos hname]
  · rw [if_neg hname] at h ⊢
    cases hfile : env.file (cstr mem filename) with
    | none => rfl
    | some content =>
      simp only [hfile] at h ⊢
      split_ifs at h ⊢
      · rfl
      · rfl
      · exact absurd rfl h
      · exact absurd rfl h

/-- When all of the file has been read the rest is up to the check. -/
theorem loadFileWith_of_success (hfile : env.file (cstr mem filename) = some content)
    (hfull : content.length ≤ env.delivers)
    (h : (loadFileWith char env mem filename doc docLen).code = successCode) :
    loadFileWith char env mem filename doc docLen =
      if hasBom char content (UInt32.ofNat content.length) then
        ⟨successCode, .into content 3, UInt32.ofNat content.length - 3⟩
      else
        ⟨successCode, .into content 0, UInt32.ofNat content.length⟩ := by
  unfold loadFileWith at h ⊢
  simp only [hfile, List.take_of_length_le hfull, ne_eq, not_true_eq_false, if_false] at h ⊢
  by_cases hname : strlenAt mem filename > maxFilenameLen
  · rw [if_pos hname] at h
    exact absurd h (by decide : errFilenameLenExceed ≠ successCode)
  · rw [if_neg hname] at h ⊢
    by_cases hmalloc : (!env.malloc content.length) = true
    · rw [if_pos hmalloc] at h
      exact absurd h (by decide : errMalloc ≠ successCode)
    · rw [if_neg hmalloc]

theorem length_withoutBom (content : List UInt8) :
    (withoutBom content).length =
      if bom <+: content then content.length - 3 else content.length := by
  rw [withoutBom]
  split_ifs
  · rw [List.length_drop]
  · rfl

/-- Where `char` is unsigned the mark is removed, and only the length matters. -/
theorem loadFileWith_uchar (hfile : env.file (cstr mem filename) = some content)
    (hfull : content.length ≤ env.delivers)
    (h : (loadFileWith uchar env mem filename doc docLen).code = successCode) :
    ((loadFileWith uchar env mem filename doc docLen).bytes = some (withoutBom content) ∧
        (loadFileWith uchar env mem filename doc docLen).docLen.toNat =
          (withoutBom content).length) ↔ content.length < 2 ^ 32 := by
  have hlen : (UInt32.ofNat content.length).toNat = content.length % 2 ^ 32 :=
    UInt32.toNat_ofNat'
  have hthree : 3 ≤ UInt32.ofNat content.length →
      3 ≤ content.length % 2 ^ 32 ∧
        (UInt32.ofNat content.length - 3).toNat = content.length % 2 ^ 32 - 3 := by
    intro hle
    rw [UInt32.toNat_sub_of_le _ _ hle, hlen]
    rw [UInt32.le_iff_toNat_le, hlen] at hle
    exact ⟨hle, rfl⟩
  rw [loadFileWith_of_success hfile hfull h, length_withoutBom]
  refine ⟨fun hcount => ?_, fun hlt => ?_⟩
  · obtain ⟨-, hcount⟩ := hcount
    by_cases hcheck : hasBom uchar content (UInt32.ofNat content.length) = true
    · obtain ⟨hle, hsub⟩ := hthree (of_decide_eq_true hcheck).1
      rw [if_pos hcheck, hsub] at hcount
      split_ifs at hcount <;> omega
    · rw [if_neg hcheck, hlen] at hcount
      split_ifs at hcount with hbom
      · have hlong := (bom_prefix_iff.mp hbom).1
        omega
      · omega
  · rw [Nat.mod_eq_of_lt hlt] at hlen
    by_cases hbom : bom <+: content
    · have hcheck := (hasBom_uchar hlen).mpr hbom
      obtain ⟨-, hsub⟩ := hthree (of_decide_eq_true hcheck).1
      rw [Nat.mod_eq_of_lt hlt] at hsub
      rw [if_pos hcheck, if_pos hbom, Loaded.bytes, withoutBom, if_pos hbom]
      dsimp only
      rw [hsub, List.take_of_length_le (List.length_drop).le]
      exact ⟨rfl, rfl⟩
    · rw [if_neg (mt (hasBom_uchar hlen).mp hbom), if_neg hbom, Loaded.bytes, withoutBom,
        if_neg hbom]
      dsimp only
      rw [hlen, List.drop_zero, List.take_length]
      exact ⟨rfl, rfl⟩

/-- **What is loaded is what is wanted** exactly when the length of the file fits a
`uint32_t` and the file does not begin with the mark, which is never removed. -/
theorem loadFile_exact (env : Environment) (mem : Mem) (filename : Ptr) (doc : DocPtr)
    (docLen : UInt32) {content : List UInt8} (hfile : env.file (cstr mem filename) = some content)
    (hfull : content.length ≤ env.delivers)
    (h : (loadFile env mem filename doc docLen).code = successCode) :
    ((loadFile env mem filename doc docLen).bytes = some (withoutBom content) ∧
        (loadFile env mem filename doc docLen).docLen.toNat = (withoutBom content).length) ↔
      content.length < 2 ^ 32 ∧ ¬ bom <+: content := by
  have hrun := loadFileWith_of_success hfile hfull h
  rw [hasBom_schar, if_neg Bool.false_ne_true] at hrun
  have hloaded : loadFile env mem filename doc docLen = _ := hrun
  have hlen : (UInt32.ofNat content.length).toNat = content.length % 2 ^ 32 :=
    UInt32.toNat_ofNat'
  rw [hloaded, Loaded.bytes, length_withoutBom]
  dsimp only
  rw [hlen, List.drop_zero]
  refine ⟨?_, ?_⟩
  · rintro ⟨-, hcount⟩
    split_ifs at hcount with hbom
    · have hlong := (bom_prefix_iff.mp hbom).1
      omega
    · exact ⟨by omega, hbom⟩
  · rintro ⟨hlt, hbom⟩
    rw [withoutBom, if_neg hbom, if_neg hbom, Nat.mod_eq_of_lt hlt, List.take_length]
    exact ⟨rfl, rfl⟩

/-- A file with the one letter `a`. -/
theorem loadFile_exact_letter :
    (loadFile ⟨fun _ => some [97], fun _ => true, 1⟩ [102] 0 .null 0).bytes = some [97] :=
  ((loadFile_exact ⟨fun _ => some [97], fun _ => true, 1⟩ [102] 0 .null 0 rfl (by decide)
    (by decide)).mpr (by decide)).1

/-- A file that holds nothing but the mark is loaded with it. -/
theorem loadFile_exact_bom :
    ¬ ∀ (env : Environment) (mem : Mem) (filename : Ptr) (doc : DocPtr) (docLen : UInt32)
      (content : List UInt8), env.file (cstr mem filename) = some content →
      content.length ≤ env.delivers →
      (loadFile env mem filename doc docLen).code = successCode →
      (loadFile env mem filename doc docLen).bytes = some (withoutBom content) ∧
        (loadFile env mem filename doc docLen).docLen.toNat = (withoutBom content).length := by
  intro h
  have hbom := h ⟨fun _ => some [0xEF, 0xBB, 0xBF], fun _ => true, 3⟩ [102] 0 .null 0
    [0xEF, 0xBB, 0xBF] rfl (by decide) (by decide)
  exact absurd hbom.2 (by decide)

end LoadFile

end EfficientDictionary
