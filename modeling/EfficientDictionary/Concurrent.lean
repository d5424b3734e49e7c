import EfficientDictionary.Interleaving
import Mathlib.Data.Int.Interval
import Mathlib.Data.List.Pairwise

/-!
# Program texts for tasks, and the rights they need

The second half of the library of shared-memory tasks; nothing here names the program
under study.

* `Code ι V F β` — program texts that return a `β`: a process that still waits to be told
  what follows. It is a monad, so a text reads like the source.
* `Effect D ρ c w b w'` — with the rights `ρ` and from the memory `w`, the text `c` returns
  `b` and leaves `w'`, whatever follows. One rule for each way of building a text.
* `Effect.fork` and `Effect.forkAll` — the two rules with an argument in them: tasks that
  leave each other's locations alone all start from the same memory, and what each of them
  leaves in its own locations is there in the end.
-/

namespace EfficientDictionary

variable {ι : Type} {V : ι → Type} {F : Type} {α β γ : Type}

/-! ## Texts -/

/-- A program text: given what follows, a process. -/
def Code (ι : Type) (V : ι → Type) (F : Type) (β : Type) : Type :=
  (β → Process ι V F) → Process ι V F

namespace Code

instance : Monad (Code ι V F) where
  pure b := fun k => k b
  bind c f := fun k => c fun b => f b k

instance : LawfulMonad (Code ι V F) :=
  LawfulMonad.mk' _ (fun _ => rfl) (fun _ _ => rfl) (fun _ _ _ => rfl)

/-- Read a location. -/
def load (i : ι) : Code ι V F (V i) := fun k => .load i k

/-- Write a location. -/
def store (i : ι) (a : V i) : Code ι V F PUnit := fun k => .store i a (k ⟨⟩)

/-- Call a procedure. -/
def call (f : F) : Code ι V F PUnit := fun k => .call f (k ⟨⟩)

/-- The text on its own, with nothing to follow. -/
def process (c : Code ι V F β) : Process ι V F := c fun _ => .done

/-- Two tasks and the wait for both. -/
def fork (c c' : Code ι V F PUnit) : Code ι V F PUnit :=
  fun k => .fork c.process c'.process (k ⟨⟩)

/-- One task for each entry of the list, and the wait for all of them. -/
def forkAll (body : α → Code ι V F PUnit) : List α → Code ι V F PUnit
  | [] => pure ⟨⟩
  | a :: as => fork (body a) (forkAll body as)

/-- A parallel loop: the turns `0, …, p - 1` are tasks of their own. -/
def parallelFor (p : ℕ) (body : ℕ → Code ι V F PUnit) : Code ι V F PUnit :=
  forkAll body (List.range p)

/-- A sequential loop over a list, carrying the local variables `b`. -/
def forEach : List α → β → (α → β → Code ι V F β) → Code ι V F β
  | [], b, _ => pure b
  | a :: as, b, body => do
    let b ← body a b
    forEach as b body

/-- `for (int i = lo; i < hi; i++)`, carrying the local variables `b`. -/
def forRange (lo hi : ℤ) (b : β) (body : ℤ → β → Code ι V F β) : Code ι V F β :=
  forEach (List.range (hi - lo).toNat) b fun k b => body (lo + k) b

@[simp] theorem forEach_nil (b : β) (body : α → β → Code ι V F β) :
    forEach [] b body = pure b := rfl

@[simp] theorem forEach_cons (a : α) (as : List α) (b : β) (body : α → β → Code ι V F β) :
    forEach (a :: as) b body = (do let b ← body a b; forEach as b body) := rfl

theorem forEach_append (as bs : List α) (b : β) (body : α → β → Code ι V F β) :
    forEach (as ++ bs) b body = (do let b ← forEach as b body; forEach bs b body) := by
  induction as generalizing b with
  | nil => rfl
  | cons a as ih =>
    simp only [List.cons_append, forEach_cons, bind_assoc]
    exact congrArg _ (funext fun b => ih b)

theorem forEach_range_succ (n : ℕ) (b : β) (body : ℕ → β → Code ι V F β) :
    forEach (List.range (n + 1)) b body =
      (do let b ← forEach (List.range n) b body; body n b) := by
  rw [List.range_succ, forEach_append]
  rfl

/-- A loop whose range is empty does nothing. -/
theorem forRange_of_le {lo hi : ℤ} (h : hi ≤ lo) (b : β) (body : ℤ → β → Code ι V F β) :
    forRange lo hi b body = pure b := by
  have hzero : (hi - lo).toNat = 0 := by omega
  rw [forRange, hzero]
  rfl

end Code

/-! ## Rights -/

/-- What a text may do to the memory. -/
structure Rights (ι : Type) where
  /-- the locations it may write -/
  writes : Set ι
  /-- the locations it may read -/
  reads : Set ι

namespace Rights

/-- The rights to both read and write `A`. -/
def all (A : Set ι) : Rights ι := ⟨A, A⟩

/-- The rights `ρ` are among the rights `ρ'`. -/
structure Within (ρ ρ' : Rights ι) : Prop where
  /-- what may be written -/
  writes : ρ.writes ⊆ ρ'.writes
  /-- what may be read -/
  reads : ρ.reads ⊆ ρ'.reads

theorem Within.refl (ρ : Rights ι) : ρ.Within ρ := ⟨subset_rfl, subset_rfl⟩

theorem Within.all {A B : Set ι} (h : A ⊆ B) : (all A).Within (all B) := ⟨h, h⟩

/-- Tasks with the rights `ρ` and `ρ'` leave each other alone: neither may write what the
other may read or write. -/
structure Apart (ρ ρ' : Rights ι) : Prop where
  /-- neither writes what the other writes -/
  writes : Disjoint ρ.writes ρ'.writes
  /-- the second does not read what the first writes -/
  first : Disjoint ρ.writes ρ'.reads
  /-- the first does not read what the second writes -/
  second : Disjoint ρ.reads ρ'.writes

theorem Apart.all {A B : Set ι} (h : Disjoint A B) : (all A).Apart (all B) := ⟨h, h, h⟩

/-- All the rights of the list together. -/
def union (ρ : α → Rights ι) (as : List α) : Rights ι where
  writes := {i | ∃ a ∈ as, i ∈ (ρ a).writes}
  reads := {i | ∃ a ∈ as, i ∈ (ρ a).reads}

theorem within_union {ρ : α → Rights ι} {as : List α} {a : α} (h : a ∈ as) :
    (ρ a).Within (union ρ as) :=
  ⟨fun _ hi => ⟨a, h, hi⟩, fun _ hi => ⟨a, h, hi⟩⟩

theorem union_within {ρ : α → Rights ι} {as : List α} {ρ' : Rights ι}
    (h : ∀ a ∈ as, (ρ a).Within ρ') : (union ρ as).Within ρ' where
  writes := by
    rintro i ⟨a, ha, hi⟩
    exact (h a ha).writes hi
  reads := by
    rintro i ⟨a, ha, hi⟩
    exact (h a ha).reads hi

theorem apart_union {ρ : α → Rights ι} {as : List α} {ρ' : Rights ι}
    (h : ∀ a ∈ as, ρ'.Apart (ρ a)) : ρ'.Apart (union ρ as) where
  writes := Set.disjoint_left.mpr fun _ hi ⟨a, ha, hi'⟩ =>
    (h a ha).writes.notMem_of_mem_left hi hi'
  first := Set.disjoint_left.mpr fun _ hi ⟨a, ha, hi'⟩ =>
    (h a ha).first.notMem_of_mem_left hi hi'
  second := Set.disjoint_left.mpr fun _ hi ⟨a, ha, hi'⟩ =>
    (h a ha).second.notMem_of_mem_left hi hi'

end Rights

/-! ## The rules -/

section Effect

variable [DecidableEq ι] (D : Bodies ι V F)

/-- With the rights `ρ` and from the memory `w`, the text `c` returns `b` and leaves `w'`,
whatever follows and with whatever further rights. -/
def Effect (ρ : Rights ι) (c : Code ι V F β) (w : Contents V) (b : β) (w' : Contents V) : Prop :=
  ∀ own rd, ρ.writes ⊆ own → ρ.reads ⊆ rd → ∀ k n w'', Runs D own rd n (k b) w' w'' →
    ∃ n', Runs D own rd n' (c k) w w''

namespace Effect

variable {D} {ρ ρ' : Rights ι} {c : Code ι V F β} {w w' w'' : Contents V} {b : β}

/-- The text on its own, from start to end. -/
theorem runs (h : Effect D ρ c w b w') : ∃ n, Runs D ρ.writes ρ.reads n c.process w w' :=
  h ρ.writes ρ.reads subset_rfl subset_rfl (fun _ => .done) 0 w' (.done _ _ w')

/-- Every schedule of the text on its own ends in `w'`, without a race. -/
theorem settles (h : Effect D ρ c w b w') : Settles D c.process w w' := by
  obtain ⟨n, hrun⟩ := h.runs
  exact hrun.settles

theorem frame (h : Effect D ρ c w b w') : ∀ i ∉ ρ.writes, w' i = w i := by
  obtain ⟨n, hrun⟩ := h.runs
  exact hrun.frame

/-- More rights do no harm. -/
theorem mono (h : Effect D ρ c w b w') (hρ : ρ.Within ρ') : Effect D ρ' c w b w' :=
  fun own rd hown hrd => h own rd (hρ.writes.trans hown) (hρ.reads.trans hrd)

theorem pure (ρ : Rights ι) (b : β) (w : Contents V) : Effect D ρ (pure b) w b w :=
  fun _ _ _ _ _ n _ hrun => ⟨n, hrun⟩

theorem bind {f : β → Code ι V F γ} {b' : γ} (h : Effect D ρ c w b w')
    (hf : Effect D ρ (f b) w' b' w'') : Effect D ρ (c >>= f) w b' w'' := by
  intro own rd hown hrd k n u hrun
  obtain ⟨n', hrun'⟩ := hf own rd hown hrd k n u hrun
  exact h own rd hown hrd (fun b => f b k) n' u hrun'

theorem load {i : ι} (hi : i ∈ ρ.reads) (w : Contents V) :
    Effect D ρ (Code.load i) w (w i) w :=
  fun _ _ _ hrd _ n _ hrun => ⟨n + 1, .load (hrd hi) hrun⟩

theorem store {i : ι} (hi : i ∈ ρ.writes) (a : V i) (w : Contents V) :
    Effect D ρ (Code.store i a) w ⟨⟩ (Function.update w i a) :=
  fun _ _ hown _ _ n _ hrun => ⟨n + 1, .store (hown hi) hrun⟩

/-- A call is as good as the body it unfolds to. -/
theorem call {f : F} {c : Code ι V F PUnit} (hbody : ∀ k, D f (k ⟨⟩) = c k)
    (h : Effect D ρ c w ⟨⟩ w') : Effect D ρ (Code.call f) w ⟨⟩ w' := by
  intro own rd hown hrd k n u hrun
  obtain ⟨n', hrun'⟩ := h own rd hown hrd k n u hrun
  rw [← hbody] at hrun'
  exact ⟨n' + 1, .call hrun'⟩

/-- **Two tasks that leave each other alone** are as good as each of them on its own. -/
theorem fork {c c' : Code ι V F PUnit} {ρ₁ ρ₂ : Rights ι} {w₁ w₂ v : Contents V}
    (h₁ : ρ₁.Within ρ) (h₂ : ρ₂.Within ρ) (hapart : ρ₁.Apart ρ₂)
    (hc : Effect D ρ₁ c w ⟨⟩ w₁) (hc' : Effect D ρ₂ c' w ⟨⟩ w₂)
    (hv : Joins ρ₁.writes ρ₂.writes w w₁ w₂ v) : Effect D ρ (Code.fork c c') w ⟨⟩ v := by
  intro own rd hown hrd k n u hrun
  obtain ⟨n₁, hrun₁⟩ := hc ρ₁.writes (rd \ ρ₂.writes) subset_rfl
    (fun i hi => ⟨hrd (h₁.reads hi), hapart.second.notMem_of_mem_left hi⟩)
    (fun _ => .done) 0 w₁ (.done _ _ w₁)
  obtain ⟨n₂, hrun₂⟩ := hc' ρ₂.writes (rd \ ρ₁.writes) subset_rfl
    (fun i hi => ⟨hrd (h₂.reads hi), hapart.first.notMem_of_mem_right hi⟩)
    (fun _ => .done) 0 w₂ (.done _ _ w₂)
  exact ⟨_, .fork (h₁.writes.trans hown) (h₂.writes.trans hown) hapart.writes hrun₁ hrun₂ hv
    hrun⟩

/-- **Many tasks that leave each other alone**, pair by pair. -/
theorem forkAll {body : α → Code ι V F PUnit} {right : α → Rights ι} {res : α → Contents V} :
    ∀ {as : List α} {ρ : Rights ι}, (∀ a ∈ as, (right a).Within ρ) →
      as.Pairwise (fun a a' => (right a).Apart (right a')) →
      (∀ a ∈ as, Effect D (right a) (body a) w ⟨⟩ (res a)) →
      ∃ v, Effect D ρ (Code.forkAll body as) w ⟨⟩ v ∧
        (∀ a ∈ as, ∀ i ∈ (right a).writes, v i = res a i) ∧
        ∀ i, (∀ a ∈ as, i ∉ (right a).writes) → v i = w i := by
  intro as
  induction as with
  | nil =>
    intro ρ _ _ _
    exact ⟨w, Effect.pure ρ PUnit.unit w, fun _ h => absurd h List.not_mem_nil, fun _ _ => rfl⟩
  | cons a as ih =>
    intro ρ hρ hpair heff
    obtain ⟨hhead, htail⟩ := List.pairwise_cons.mp hpair
    have hrest : ∀ a' ∈ as, (right a').Within ρ := fun a' h => hρ a' (List.mem_cons_of_mem a h)
    obtain ⟨u, hu, hown, hframe⟩ := ih (ρ := Rights.union right as)
      (fun a' h => Rights.within_union h) htail
      fun a' h => heff a' (List.mem_cons_of_mem a h)
    have hapart := Rights.apart_union hhead
    obtain ⟨v, hv⟩ := exists_joins hapart.writes w (res a) u
    refine ⟨v, Effect.fork (hρ a List.mem_cons_self) (Rights.union_within hrest) hapart
      (heff a List.mem_cons_self) hu hv, fun a' ha' i hi => ?_, fun i hi => ?_⟩
    · rcases List.mem_cons.mp ha' with rfl | hmem
      · exact hv.first i hi
      · rw [hv.second i ⟨a', hmem, hi⟩, hown a' hmem i hi]
    · refine hv.rest i (hi a List.mem_cons_self) ?_
      rintro ⟨a', hmem, hi'⟩
      exact hi a' (List.mem_cons_of_mem a hmem) hi'

/-- **Invariant rule** for a sequential loop over `0, …, n - 1`. -/
theorem forEach_range {I : ℕ → β → Contents V → Prop} {body : ℕ → β → Code ι V F β} {n : ℕ}
    (h0 : I 0 b w)
    (hstep : ∀ i b w, i < n → I i b w →
      ∃ b' w', Effect D ρ (body i b) w b' w' ∧ I (i + 1) b' w') :
    ∃ b' w', Effect D ρ (Code.forEach (List.range n) b body) w b' w' ∧ I n b' w' := by
  induction n with
  | zero => exact ⟨b, w, Effect.pure ρ b w, h0⟩
  | succ n ih =>
    obtain ⟨b', w', hloop, hI⟩ := ih fun i b w hi => hstep i b w (by omega)
    obtain ⟨b'', w'', hlast, hI'⟩ := hstep n b' w' (by omega) hI
    rw [Code.forEach_range_succ]
    exact ⟨b'', w'', hloop.bind hlast, hI'⟩

/-- **Invariant rule** for `for (int i = lo; i < hi; i++)`. -/
theorem forRange {I : ℤ → β → Contents V → Prop} {body : ℤ → β → Code ι V F β} {lo hi : ℤ}
    (hle : lo ≤ hi) (h0 : I lo b w)
    (hstep : ∀ i b w, lo ≤ i → i < hi → I i b w →
      ∃ b' w', Effect D ρ (body i b) w b' w' ∧ I (i + 1) b' w') :
    ∃ b' w', Effect D ρ (Code.forRange lo hi b body) w b' w' ∧ I hi b' w' := by
  have hrun : ∃ b' w', Effect D ρ (Code.forRange lo hi b body) w b' w' ∧
      I (lo + ((hi - lo).toNat : ℤ)) b' w' :=
    forEach_range (I := fun k => I (lo + (k : ℤ))) (by simpa using h0) fun k b w hk h => by
      have hsucc : lo + ((k + 1 : ℕ) : ℤ) = lo + (k : ℤ) + 1 := by omega
      rw [hsucc]
      exact hstep (lo + k) b w (by omega) (by omega) h
  have hend : lo + ((hi - lo).toNat : ℤ) = hi := by omega
  rw [hend] at hrun
  exact hrun

end Effect

end Effect

end EfficientDictionary
