import EfficientDictionary.Machine
import EfficientDictionary.Segment
import Mathlib.Data.Set.Basic
import Mathlib.Order.CompletePartialOrder
import Mathlib.Order.Disjoint

/-!
# Footprints and independent tasks

A program is **local** to a set `R` of indices when it reads and writes no other cell.
`Local R m` says so three times, because three different things follow from it: every
event it adds to the trace lies in `R`, cells outside `R` keep their content, and both
its value and what it leaves in `R` are determined by what it found in `R`.

Locality is closed under everything programs are built from, so the footprint of a
function is read off its text. What it buys is `par_sameCells`: two tasks with disjoint
footprints may run in either order. A `Choices` tree supplies that order, freely, at
every node of a recursion.
-/

namespace EfficientDictionary

universe u v w

variable {ε : Type u} {α : Type v} {β γ : Type w}

/-- The event touches no cell outside `R`. -/
def Event.Within (R : Set ℤ) : Event ε → Prop
  | .load i => i ∈ R
  | .store i => i ∈ R
  | .note _ => True

theorem Event.Within.mono {R R' : Set ℤ} (h : R ⊆ R') {e : Event ε} (he : e.Within R) :
    e.Within R' := by
  cases e with
  | load i => exact h he
  | store i => exact h he
  | note _ => trivial

/-- `m` reads and writes only cells with an index in `R`. -/
structure Local (R : Set ℤ) (m : Prog ε α β) : Prop where
  /-- what it adds to the trace lies in `R` -/
  traced : ∀ s, ∃ t, (m.exec s).trace = t ++ s.trace ∧ ∀ e ∈ t, e.Within R
  /-- the other cells keep their content -/
  frame : ∀ s, ∀ i ∉ R, (m.exec s).cells i = s.cells i
  /-- the cells in `R` determine the outcome -/
  depends : ∀ s s', (∀ i ∈ R, s.cells i = s'.cells i) →
    m.val s = m.val s' ∧ ∀ i ∈ R, (m.exec s).cells i = (m.exec s').cells i

namespace Local

variable {R R' : Set ℤ}

theorem pure (R : Set ℤ) (b : β) : Local R (pure b : Prog ε α β) where
  traced _ := ⟨[], rfl, fun _ h => absurd h List.not_mem_nil⟩
  frame _ _ _ := rfl
  depends _ _ h := ⟨rfl, h⟩

theorem load {i : ℤ} (hi : i ∈ R) : Local R (load i : Prog ε α α) where
  traced _ := ⟨[.load i], rfl, fun e he => by
    obtain rfl := List.mem_singleton.mp he
    exact hi⟩
  frame _ _ _ := rfl
  depends _ _ h := ⟨h i hi, h⟩

theorem store {i : ℤ} (hi : i ∈ R) (a : α) : Local R (store i a : Prog ε α PUnit) where
  traced _ := ⟨[.store i], rfl, fun e he => by
    obtain rfl := List.mem_singleton.mp he
    exact hi⟩
  frame s j hj := by
    have hne : j ≠ i := by
      rintro rfl
      exact hj hi
    exact Function.update_of_ne hne a s.cells
  depends s s' h := by
    refine ⟨rfl, fun j hj => ?_⟩
    simp only [store_exec, Function.update_apply]
    split
    · rfl
    · exact h j hj

theorem note (R : Set ℤ) (e : ε) : Local R (note e : Prog ε α PUnit) where
  traced _ := ⟨[.note e], rfl, fun e' he => by
    obtain rfl := List.mem_singleton.mp he
    trivial⟩
  frame _ _ _ := rfl
  depends _ _ h := ⟨rfl, h⟩

/-- Sequencing. The continuation is only ever run on values of `m`. -/
theorem bind {m : Prog ε α β} {f : β → Prog ε α γ} (hm : Local R m)
    (hf : ∀ s, Local R (f (m.val s))) : Local R (m >>= f) where
  traced s := by
    obtain ⟨t, ht, hR⟩ := hm.traced s
    obtain ⟨t', ht', hR'⟩ := (hf s).traced (m.exec s)
    refine ⟨t' ++ t, ?_, fun e he => ?_⟩
    · rw [Prog.bind_exec, ht', ht, List.append_assoc]
    · rcases List.mem_append.mp he with he | he
      · exact hR' e he
      · exact hR e he
  frame s i hi := ((hf s).frame (m.exec s) i hi).trans (hm.frame s i hi)
  depends s s' h := by
    obtain ⟨hval, hcells⟩ := hm.depends s s' h
    rw [Prog.bind_val, Prog.bind_val, Prog.bind_exec, Prog.bind_exec, ← hval]
    exact (hf s).depends _ _ hcells

theorem ite {c : Prop} [Decidable c] {m m' : Prog ε α β} (hm : c → Local R m)
    (hm' : ¬ c → Local R m') : Local R (if c then m else m') := by
  split
  · exact hm ‹_›
  · exact hm' ‹_›

theorem attach {m : Prog ε α β} (hm : Local R m) : Local R m.attach where
  traced := hm.traced
  frame := hm.frame
  depends s s' h := ⟨Subtype.ext (hm.depends s s' h).1, (hm.depends s s' h).2⟩

/-- A larger footprint is a weaker promise. -/
theorem mono {m : Prog ε α β} (hm : Local R m) (h : R ⊆ R') : Local R' m where
  traced s := by
    obtain ⟨t, ht, hR⟩ := hm.traced s
    exact ⟨t, ht, fun e he => (hR e he).mono h⟩
  frame s i hi := hm.frame s i fun hR => hi (h hR)
  depends s s' hs := by
    obtain ⟨hval, hcells⟩ := hm.depends s s' fun i hi => hs i (h hi)
    refine ⟨hval, fun i hi => ?_⟩
    by_cases hR : i ∈ R
    · exact hcells i hR
    · rw [hm.frame s i hR, hm.frame s' i hR]
      exact hs i hi

/-- A loop over a list is local when its body is, whatever the local variables hold. -/
theorem forEach {ι : Type} {is : List ι} {body : ι → β → Prog ε α β}
    (h : ∀ i ∈ is, ∀ b, Local R (body i b)) (b : β) : Local R (forEach is b body) := by
  induction is generalizing b with
  | nil => exact Local.pure R b
  | cons i is ih =>
    refine Local.bind (h i List.mem_cons_self b) fun s => ?_
    exact ih (fun j hj => h j (List.mem_cons_of_mem i hj)) _

/-- A counted loop is local when its body is, given what is known of the local variables
at each turn. -/
theorem forEach_range {I : ℕ → β → Prop} {f : ℕ → β → Prog ε α β} {n : ℕ} {b : β}
    (h0 : I 0 b)
    (hstep : ∀ i b, i < n → I i b →
      Local R (f i b) ∧ ∀ s, I (i + 1) ((f i b).val s)) :
    Local R (EfficientDictionary.forEach (List.range n) b f) ∧
      ∀ s, I n ((EfficientDictionary.forEach (List.range n) b f).val s) := by
  induction n with
  | zero => exact ⟨Local.pure R b, fun _ => h0⟩
  | succ n ih =>
    obtain ⟨hloop, hI⟩ := ih fun i b hi => hstep i b (by omega)
    rw [forEach_range_succ]
    exact ⟨Local.bind hloop fun s => (hstep n _ (by omega) (hI s)).1,
      fun s => (hstep n _ (by omega) (hI s)).2 _⟩

theorem forRange {I : ℤ → β → Prop} {f : ℤ → β → Prog ε α β} {lo hi : ℤ} {b : β}
    (hle : lo ≤ hi) (h0 : I lo b)
    (hstep : ∀ i b, lo ≤ i → i < hi → I i b →
      Local R (f i b) ∧ ∀ s, I (i + 1) ((f i b).val s)) :
    Local R (forRange lo hi b f) ∧ ∀ s, I hi ((forRange lo hi b f).val s) := by
  have hrun := forEach_range (R := R) (I := fun k => I (lo + (k : ℤ)))
    (f := fun k b => f (lo + k) b) (n := (hi - lo).toNat) (b := b) (by simpa using h0)
    (fun k b hk h => by
      have hsucc : lo + ((k + 1 : ℕ) : ℤ) = lo + (k : ℤ) + 1 := by omega
      rw [hsucc]
      exact hstep (lo + k) b (by omega) (by omega) h)
  have hend : lo + ((hi - lo).toNat : ℤ) = hi := by omega
  rw [hend] at hrun
  exact hrun

/-- A counted loop whose body is local whatever the local variables hold. -/
theorem forRange_all {f : ℤ → β → Prog ε α β} {lo hi : ℤ}
    (h : ∀ i, lo ≤ i → i < hi → ∀ b, Local R (f i b)) (b : β) :
    Local R (EfficientDictionary.forRange lo hi b f) :=
  Local.forEach (fun k hk b => by
    have hk' := List.mem_range.mp hk
    exact h (lo + k) (by omega) (by omega) b) b

/-- The trace only grows. -/
theorem mem_trace {m : Prog ε α β} (hm : Local R m) {s : Machine ε α} {e : Event ε}
    (he : e ∈ s.trace) : e ∈ (m.exec s).trace := by
  obtain ⟨t, ht, -⟩ := hm.traced s
  rw [ht]
  exact List.mem_append_right t he

/-- What one turn of a loop adds to the trace is there when the loop is over. -/
theorem mem_trace_forEach {ι : Type} {is : List ι} {body : ι → β → Prog ε α β} {e : Event ε}
    (h : ∀ i ∈ is, ∀ b, Local R (body i b)) {i : ι} (hi : i ∈ is)
    (he : ∀ b s, e ∈ ((body i b).exec s).trace) (b : β) (s : Machine ε α) :
    e ∈ ((EfficientDictionary.forEach is b body).exec s).trace := by
  induction is generalizing b s with
  | nil => exact absurd hi List.not_mem_nil
  | cons j is ih =>
    have hrest := fun k hk => h k (List.mem_cons_of_mem j hk)
    rw [forEach_cons, Prog.bind_exec]
    rcases List.mem_cons.mp hi with rfl | hmem
    · exact (Local.forEach hrest _).mem_trace (he b s)
    · exact ih hrest hmem _ _

/-- The trace left behind does not matter: equal arrays lead to equal arrays. -/
theorem cells_congr {m : Prog ε α β} (hm : Local R m) {s s' : Machine ε α}
    (h : s.cells = s'.cells) :
    m.val s = m.val s' ∧ (m.exec s).cells = (m.exec s').cells := by
  obtain ⟨hval, hcells⟩ := hm.depends s s' fun i _ => congrFun h i
  refine ⟨hval, funext fun i => ?_⟩
  by_cases hi : i ∈ R
  · exact hcells i hi
  · rw [hm.frame s i hi, hm.frame s' i hi, h]

/-- Programs with disjoint footprints commute. -/
theorem comm {m : Prog ε α β} {m' : Prog ε α γ} (hm : Local R m) (hm' : Local R' m')
    (hd : Disjoint R R') (s : Machine ε α) :
    (m'.exec (m.exec s)).cells = (m.exec (m'.exec s)).cells := by
  funext i
  have hm'₀ := hm'.depends (m.exec s) s fun j hj => hm.frame s j (hd.notMem_of_mem_right hj)
  have hm₀ := hm.depends (m'.exec s) s fun j hj => hm'.frame s j (hd.notMem_of_mem_left hj)
  by_cases hi : i ∈ R
  · rw [hm'.frame _ i (hd.notMem_of_mem_left hi), hm₀.2 i hi]
  · rw [hm.frame _ i hi]
    by_cases hi' : i ∈ R'
    · exact hm'₀.2 i hi'
    · rw [hm'.frame _ i hi', hm'.frame _ i hi', hm.frame _ i hi]

end Local

/-! ## Sibling tasks -/

/-- Two sibling tasks and the wait for both: one of them runs first. -/
def par (firstFirst : Bool) (m m' : Prog ε α PUnit) : Prog ε α PUnit :=
  if firstFirst then do
    m
    m'
  else do
    m'
    m

/-- The two programs return the same value and leave the same array. -/
def SameCells (m m' : Prog ε α β) : Prop :=
  ∀ s, m.val s = m'.val s ∧ (m.exec s).cells = (m'.exec s).cells

theorem SameCells.refl (m : Prog ε α β) : SameCells m m := fun _ => ⟨rfl, rfl⟩

theorem SameCells.trans {m m' m'' : Prog ε α β} (h : SameCells m m') (h' : SameCells m' m'') :
    SameCells m m'' :=
  fun s => ⟨(h s).1.trans (h' s).1, (h s).2.trans (h' s).2⟩

theorem SameCells.symm {m m' : Prog ε α β} (h : SameCells m m') : SameCells m' m :=
  fun s => ⟨(h s).1.symm, (h s).2.symm⟩

/-- Sequencing respects equality of outcomes, provided the second program is local. -/
theorem SameCells.bind {R : Set ℤ} {m m' : Prog ε α β} {f f' : β → Prog ε α γ}
    (hm : SameCells m m') (hf : ∀ s, SameCells (f (m.val s)) (f' (m.val s)))
    (hloc : ∀ s, Local R (f' (m.val s))) : SameCells (m >>= f) (m' >>= f') := by
  intro s
  rw [Prog.bind_val, Prog.bind_val, Prog.bind_exec, Prog.bind_exec, ← (hm s).1]
  obtain ⟨hval, hcells⟩ := (hloc s).cells_congr (hm s).2
  exact ⟨((hf s _).1).trans hval, ((hf s _).2).trans hcells⟩

theorem Local.par {R : Set ℤ} {b : Bool} {m m' : Prog ε α PUnit} (hm : Local R m)
    (hm' : Local R m') : Local R (par b m m') :=
  Local.ite (fun _ => hm.bind fun _ => hm') (fun _ => hm'.bind fun _ => hm)

/-- **Independent siblings**: tasks with disjoint footprints leave the same array
whichever of them runs first, also when each is replaced by a task with its outcome. -/
theorem par_sameCells {R R' : Set ℤ} {m₁ m₂ m₁' m₂' : Prog ε α PUnit}
    (h₂ : Local R m₂) (h₂' : Local R' m₂')
    (hd : Disjoint R R') (hm : SameCells m₁ m₂) (hm' : SameCells m₁' m₂') (b b' : Bool) :
    SameCells (par b m₁ m₁') (par b' m₂ m₂') := by
  have hforward : SameCells (m₁ >>= fun _ => m₁') (m₂ >>= fun _ => m₂') :=
    hm.bind (fun _ => hm') fun _ => h₂'
  have hbackward : SameCells (m₁' >>= fun _ => m₁) (m₂' >>= fun _ => m₂) :=
    hm'.bind (fun _ => hm) fun _ => h₂
  have hcross : SameCells (m₂ >>= fun _ => m₂') (m₂' >>= fun _ => m₂) :=
    fun s => ⟨rfl, h₂.comm h₂' hd s⟩
  cases b <;> cases b'
  · exact hbackward
  · exact hbackward.trans hcross.symm
  · exact hforward.trans hcross
  · exact hforward

/-- What each of two independent siblings leaves in its own footprint is there in the end,
and nothing else has changed. -/
theorem par_cells {R R' : Set ℤ} {m m' : Prog ε α PUnit} (hm : Local R m) (hm' : Local R' m')
    (hd : Disjoint R R') (b : Bool) (s : Machine ε α) :
    (∀ i ∈ R, ((par b m m').exec s).cells i = (m.exec s).cells i) ∧
      (∀ i ∈ R', ((par b m m').exec s).cells i = (m'.exec s).cells i) ∧
      ∀ i, i ∉ R → i ∉ R' → ((par b m m').exec s).cells i = s.cells i := by
  have hsame := par_sameCells hm hm' hd (SameCells.refl m) (SameCells.refl m') b true s
  rw [hsame.2]
  have hsecond := hm'.depends (m.exec s) s fun j hj => hm.frame s j (hd.notMem_of_mem_right hj)
  refine ⟨fun i hi => ?_, fun i hi => hsecond.2 i hi, fun i hi hi' => ?_⟩
  · exact hm'.frame (m.exec s) i (hd.notMem_of_mem_left hi)
  · exact (hm'.frame (m.exec s) i hi').trans (hm.frame s i hi)

/-- Siblings that leave the array as it is leave it so together. -/
theorem par_cells_eq {R R' : Set ℤ} {m m' : Prog ε α PUnit} (hm : Local R m) (hm' : Local R' m')
    (hd : Disjoint R R') {s : Machine ε α} (h : (m.exec s).cells = s.cells)
    (h' : (m'.exec s).cells = s.cells) (b : Bool) : ((par b m m').exec s).cells = s.cells := by
  obtain ⟨hfirst, hsecond, hother⟩ := par_cells hm hm' hd b s
  funext i
  by_cases hi : i ∈ R
  · rw [hfirst i hi, h]
  · by_cases hi' : i ∈ R'
    · rw [hsecond i hi', h']
    · exact hother i hi hi'

/-- **Gluing with tasks**: the two outer parts of a split range may be sorted by sibling
tasks, whichever runs first. -/
theorem Sorts.glue_par {κ : Type w} [LinearOrder κ] {key : α → κ} {l r m₁ m₂ : ℤ} {k : κ}
    {cells : ℤ → α} {s : Machine ε α} {m m' : Prog ε α PUnit} {R R' : Set ℤ}
    (hl : l ≤ m₁) (hm : m₁ ≤ m₂) (hr : m₂ ≤ r) (hsplit : Rearranges l r cells s.cells)
    (hlow : ∀ i, l ≤ i → i < m₁ → key (s.cells i) ≤ k)
    (hmid : ∀ i, m₁ ≤ i → i < m₂ → key (s.cells i) = k)
    (hhigh : ∀ i, m₂ ≤ i → i < r → k ≤ key (s.cells i))
    (hloc : Local R m) (hloc' : Local R' m') (hd : Disjoint R R')
    (hleft : ∀ s, Sorts key l m₁ s.cells (m.exec s).cells)
    (hright : ∀ s, Sorts key m₂ r s.cells (m'.exec s).cells) (b : Bool) :
    Sorts key l r cells ((par b m m').exec s).cells := by
  have hsame := par_sameCells hloc hloc' hd (SameCells.refl m) (SameCells.refl m') b true s
  rw [hsame.2]
  exact Sorts.glue hl hm hr hsplit hlow hmid hhigh (hleft s) (hright _)

/-- A free choice at every node of a binary recursion, a node being addressed by the
path that leads to it. -/
def Choices (χ : Type u) : Type u := List Bool → χ

namespace Choices

variable {χ : Type u}

/-- The choice at the root. -/
def here (σ : Choices χ) : χ := σ []

/-- The choices below the first child. -/
def first (σ : Choices χ) : Choices χ := fun path => σ (true :: path)

/-- The choices below the second child. -/
def second (σ : Choices χ) : Choices χ := fun path => σ (false :: path)

end Choices

end EfficientDictionary
