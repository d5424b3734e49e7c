import Mathlib.Data.Int.Interval
import Mathlib.Data.List.Basic
import Mathlib.Logic.Function.Basic

/-!
# Array programs that record what they do

A small library for C code that works on one array of cells in place. Nothing here
names the program under study.

* `Machine ε α` — the array, a total function from indices to cells, together with
  the **trace** of everything done so far: every load, every store, and the *notes*
  (of a type `ε` the client chooses) by which a program reports the calls and the
  integer results somebody may want to bound later.
* `Prog ε α` — the state monad over machines. There is no failure: an index out of
  range shows up in the trace, not in the result.
* `forEach` / `forRange` — counted loops that carry the loop's local variables, with
  the invariant rules that all loop proofs use.
* `Prog.attach` — a program whose result remembers that it came from a run. This is
  how a recursion that branches on a computed index shows that it terminates.
-/

namespace EfficientDictionary

universe u v w

/-- One entry of a trace. -/
inductive Event (ε : Type u) : Type u where
  /-- the cell at `i` was read -/
  | load (i : ℤ)
  /-- the cell at `i` was written -/
  | store (i : ℤ)
  /-- the program reported `e` -/
  | note (e : ε)
  deriving DecidableEq, Repr

/-- The notes of a trace. -/
def notes {ε : Type u} (t : List (Event ε)) : List ε :=
  t.filterMap fun
    | .note e => some e
    | _ => none

/-- The indices written in a trace, latest first. -/
def stores {ε : Type u} (t : List (Event ε)) : List ℤ :=
  t.filterMap fun
    | .store i => some i
    | _ => none

/-- An array of cells and the trace of what was done to it, newest event first. -/
structure Machine (ε : Type u) (α : Type v) : Type (max u v) where
  /-- the content of the array -/
  cells : ℤ → α
  /-- what happened so far -/
  trace : List (Event ε)

/-- Programs over an array with cells in `α`, reporting notes in `ε`. -/
structure Prog (ε : Type u) (α : Type v) (β : Type w) : Type (max u v w) where
  /-- from a machine, the value returned and the machine left behind -/
  run : Machine ε α → β × Machine ε α

namespace Prog

variable {ε : Type u} {α : Type v} {β γ : Type w}

/-- The value `m` returns when started on `s`. -/
def val (m : Prog ε α β) (s : Machine ε α) : β := (m.run s).1

/-- The machine `m` leaves behind when started on `s`. -/
def exec (m : Prog ε α β) (s : Machine ε α) : Machine ε α := (m.run s).2

/-- Return a value and leave the machine alone. -/
protected def pure (b : β) : Prog ε α β := ⟨fun s => (b, s)⟩

/-- Run `m`, then `f` on its value. -/
protected def bind (m : Prog ε α β) (f : β → Prog ε α γ) : Prog ε α γ :=
  ⟨fun s => let r := m.run s; (f r.1).run r.2⟩

instance : Monad (Prog ε α) where
  pure := Prog.pure
  bind := Prog.bind

@[simp] theorem pure_val (b : β) (s : Machine ε α) : (pure b : Prog ε α β).val s = b := rfl

@[simp] theorem pure_exec (b : β) (s : Machine ε α) : (pure b : Prog ε α β).exec s = s := rfl

@[simp] theorem bind_val (m : Prog ε α β) (f : β → Prog ε α γ) (s : Machine ε α) :
    (m >>= f).val s = (f (m.val s)).val (m.exec s) := rfl

@[simp] theorem bind_exec (m : Prog ε α β) (f : β → Prog ε α γ) (s : Machine ε α) :
    (m >>= f).exec s = (f (m.val s)).exec (m.exec s) := rfl

@[simp] theorem map_val (f : β → γ) (m : Prog ε α β) (s : Machine ε α) :
    (f <$> m).val s = f (m.val s) := rfl

@[simp] theorem map_exec (f : β → γ) (m : Prog ε α β) (s : Machine ε α) :
    (f <$> m).exec s = m.exec s := rfl

@[simp] theorem ite_val {c : Prop} [Decidable c] (m m' : Prog ε α β) (s : Machine ε α) :
    (if c then m else m').val s = if c then m.val s else m'.val s := by
  split <;> rfl

@[simp] theorem ite_exec {c : Prop} [Decidable c] (m m' : Prog ε α β) (s : Machine ε α) :
    (if c then m else m').exec s = if c then m.exec s else m'.exec s := by
  split <;> rfl

instance : LawfulMonad (Prog ε α) :=
  LawfulMonad.mk' _ (fun _ => rfl) (fun _ _ => rfl) (fun _ _ _ => rfl)

/-- Run `m` and hand on its value together with the fact that a run produced it. -/
def attach (m : Prog ε α β) : Prog ε α {b : β // ∃ s, m.val s = b} :=
  ⟨fun s => (⟨m.val s, s, rfl⟩, m.exec s)⟩

@[simp] theorem attach_val (m : Prog ε α β) (s : Machine ε α) :
    m.attach.val s = ⟨m.val s, s, rfl⟩ := rfl

@[simp] theorem attach_exec (m : Prog ε α β) (s : Machine ε α) :
    m.attach.exec s = m.exec s := rfl

end Prog

section Primitives

variable {ε : Type u} {α : Type v}

/-- Read the cell at `i`. -/
def load (i : ℤ) : Prog ε α α :=
  ⟨fun s => (s.cells i, { s with trace := .load i :: s.trace })⟩

/-- Write `a` to the cell at `i`. -/
def store (i : ℤ) (a : α) : Prog ε α PUnit :=
  ⟨fun s => (⟨⟩, { cells := Function.update s.cells i a, trace := .store i :: s.trace })⟩

/-- Report `e`. -/
def note (e : ε) : Prog ε α PUnit :=
  ⟨fun s => (⟨⟩, { s with trace := .note e :: s.trace })⟩

@[simp] theorem load_val (i : ℤ) (s : Machine ε α) : (load i).val s = s.cells i := rfl

@[simp] theorem load_exec (i : ℤ) (s : Machine ε α) :
    (load i : Prog ε α α).exec s = { s with trace := .load i :: s.trace } := rfl

theorem load_cells (i : ℤ) (s : Machine ε α) :
    ((load i : Prog ε α α).exec s).cells = s.cells := rfl

@[simp] theorem store_exec (i : ℤ) (a : α) (s : Machine ε α) :
    (store i a : Prog ε α PUnit).exec s =
      { cells := Function.update s.cells i a, trace := .store i :: s.trace } := rfl

theorem stores_store (i : ℤ) (a : α) (s : Machine ε α) :
    stores ((store i a : Prog ε α PUnit).exec s).trace = i :: stores s.trace := rfl

@[simp] theorem note_exec (e : ε) (s : Machine ε α) :
    (note e : Prog ε α PUnit).exec s = { s with trace := .note e :: s.trace } := rfl

end Primitives

/-! ## Loops -/

section Loops

variable {ε : Type u} {α : Type v} {β : Type w} {ι : Type}

/-- Run `body` for each index of the list in turn, carrying the local variables `b`. -/
def forEach : List ι → β → (ι → β → Prog ε α β) → Prog ε α β
  | [], b, _ => pure b
  | i :: is, b, body => do
    let b ← body i b
    forEach is b body

/-- `for (int i = lo; i < hi; i++)`, carrying the local variables `b`. -/
def forRange (lo hi : ℤ) (b : β) (body : ℤ → β → Prog ε α β) : Prog ε α β :=
  forEach (List.range (hi - lo).toNat) b fun k b => body (lo + k) b

@[simp] theorem forEach_nil (b : β) (body : ι → β → Prog ε α β) :
    forEach [] b body = pure b := rfl

@[simp] theorem forEach_cons (i : ι) (is : List ι) (b : β) (body : ι → β → Prog ε α β) :
    forEach (i :: is) b body = (do let b ← body i b; forEach is b body) := rfl

theorem forEach_append (is js : List ι) (b : β) (body : ι → β → Prog ε α β) :
    forEach (is ++ js) b body = (do let b ← forEach is b body; forEach js b body) := by
  induction is generalizing b with
  | nil => rfl
  | cons i is ih =>
    simp only [List.cons_append, forEach_cons, bind_assoc]
    exact congrArg _ (funext fun b => ih b)

/-- A loop over `0, …, n` is the loop over `0, …, n - 1` followed by one more turn. -/
theorem forEach_range_succ (n : ℕ) (b : β) (body : ℕ → β → Prog ε α β) :
    forEach (List.range (n + 1)) b body =
      (do let b ← forEach (List.range n) b body; body n b) := by
  rw [List.range_succ, forEach_append]
  rfl

/-- **Invariant rule** for a loop over any list: the invariant speaks about the indices
already served and those still to come. -/
theorem forEach_inv {I : List ι → List ι → β → Machine ε α → Prop}
    {f : ι → β → Prog ε α β}
    (hstep : ∀ done i rest b s, I done (i :: rest) b s →
      I (done ++ [i]) rest ((f i b).val s) ((f i b).exec s)) :
    ∀ (is done : List ι) (b : β) (s : Machine ε α), I done is b s →
      I (done ++ is) [] ((forEach is b f).val s) ((forEach is b f).exec s) := by
  intro is
  induction is with
  | nil =>
    intro done b s h
    simpa using h
  | cons i is ih =>
    intro done b s h
    have hnext := ih (done ++ [i]) _ _ (hstep done i is b s h)
    simpa [List.append_assoc] using hnext

/-- **Invariant rule** for a loop over `0, …, n - 1`. -/
theorem forEach_range_inv {I : ℕ → β → Machine ε α → Prop} {f : ℕ → β → Prog ε α β}
    {n : ℕ} {b : β} {s : Machine ε α} (h0 : I 0 b s)
    (hstep : ∀ i b s, i < n → I i b s →
      I (i + 1) ((f i b).val s) ((f i b).exec s)) :
    I n ((forEach (List.range n) b f).val s)
      ((forEach (List.range n) b f).exec s) := by
  induction n with
  | zero => simpa using h0
  | succ n ih =>
    rw [forEach_range_succ]
    exact hstep n _ _ (by omega) (ih fun i b s hi => hstep i b s (by omega))

/-- **Invariant rule** for `for (int i = lo; i < hi; i++)`. -/
theorem forRange_inv {I : ℤ → β → Machine ε α → Prop} {f : ℤ → β → Prog ε α β}
    {lo hi : ℤ} {b : β} {s : Machine ε α} (hle : lo ≤ hi) (h0 : I lo b s)
    (hstep : ∀ i b s, lo ≤ i → i < hi → I i b s →
      I (i + 1) ((f i b).val s) ((f i b).exec s)) :
    I hi ((forRange lo hi b f).val s) ((forRange lo hi b f).exec s) := by
  have hrun := forEach_range_inv (I := fun k => I (lo + (k : ℤ))) (n := (hi - lo).toNat)
    (b := b) (s := s) (f := fun k b => f (lo + k) b) (by simpa using h0)
    (fun k b s hk h => by
      have hnext := hstep (lo + k) b s (by omega) (by omega) h
      have hsucc : lo + ((k + 1 : ℕ) : ℤ) = lo + (k : ℤ) + 1 := by omega
      rwa [hsucc])
  have hend : lo + ((hi - lo).toNat : ℤ) = hi := by omega
  rw [hend] at hrun
  exact hrun

/-- A loop whose range is empty does nothing. -/
theorem forRange_of_le {lo hi : ℤ} (h : hi ≤ lo) (b : β) (body : ℤ → β → Prog ε α β) :
    forRange lo hi b body = pure b := by
  have hzero : (hi - lo).toNat = 0 := by omega
  rw [forRange, hzero]
  rfl

end Loops

end EfficientDictionary
