import EfficientDictionary.Footprint

/-!
# What a program keeps and what it reports

A machine is **guarded** when the cells with an index in `R` satisfy `P` and every note of
its trace satisfies `Q`. A program **keeps** the guard when it leaves a guarded machine
guarded. A program that only moves cells about and reports calls on what it has read keeps
any such guard, and the rules below read that off its text, as those of `Local` do for its
footprint.
-/

namespace EfficientDictionary

universe u v w

variable {ε : Type u} {α : Type v} {β γ : Type w} {R : Set ℤ} {P : α → Prop} {Q : ε → Prop}

/-- The cells in `R` satisfy `P`, and what has been reported satisfies `Q`. -/
structure Guarded (R : Set ℤ) (P : α → Prop) (Q : ε → Prop) (s : Machine ε α) : Prop where
  /-- the cells -/
  cells : ∀ i ∈ R, P (s.cells i)
  /-- the notes -/
  reported : ∀ e, .note e ∈ s.trace → Q e

/-- `m` leaves a guarded machine guarded. -/
def Keeps (R : Set ℤ) (P : α → Prop) (Q : ε → Prop) (m : Prog ε α β) : Prop :=
  ∀ s, Guarded R P Q s → Guarded R P Q (m.exec s)

theorem mem_notes {e : ε} {t : List (Event ε)} : e ∈ notes t ↔ .note e ∈ t := by
  rw [notes, List.mem_filterMap]
  refine ⟨?_, fun h => ⟨_, h, rfl⟩⟩
  rintro ⟨event, hmem, he⟩
  cases event with
  | load i => cases he
  | store i => cases he
  | note e' =>
    obtain rfl := Option.some.inj he
    exact hmem

theorem mem_stores {i : ℤ} {t : List (Event ε)} : i ∈ stores t ↔ .store i ∈ t := by
  rw [stores, List.mem_filterMap]
  refine ⟨?_, fun h => ⟨_, h, rfl⟩⟩
  rintro ⟨event, hmem, hi⟩
  cases event with
  | load j => cases hi
  | note e => cases hi
  | store j =>
    obtain rfl := Option.some.inj hi
    exact hmem

theorem Guarded.notes {s : Machine ε α} (h : Guarded R P Q s) : ∀ e ∈ notes s.trace, Q e :=
  fun e he => h.reported e (mem_notes.mp he)

/-- The notes of a loop are those of its turns. -/
theorem notes_forEach_range {f : ℕ → β → Prog ε α β} {g : ℕ → List ε}
    (hstep : ∀ i b s, notes ((f i b).exec s).trace = g i ++ notes s.trace) (n : ℕ) (b : β)
    (s : Machine ε α) :
    notes ((forEach (List.range n) b f).exec s).trace =
      (List.range n).reverse.flatMap g ++ notes s.trace := by
  induction n with
  | zero => rfl
  | succ n ih =>
    rw [forEach_range_succ, Prog.bind_exec, hstep, ih, List.range_succ, List.reverse_append,
      ← List.append_assoc]
    rfl

namespace Keeps

theorem pure (b : β) : Keeps R P Q (pure b : Prog ε α β) := fun _ h => h

theorem load (i : ℤ) : Keeps R P Q (load i : Prog ε α α) := by
  intro s h
  refine ⟨h.cells, fun e he => h.reported e ?_⟩
  simpa using he

theorem store {i : ℤ} {a : α} (ha : i ∈ R → P a) : Keeps R P Q (store i a : Prog ε α PUnit) := by
  intro s h
  refine ⟨fun j hj => ?_, fun e he => h.reported e ?_⟩
  · rw [store_exec]
    dsimp only
    rcases eq_or_ne j i with rfl | hne
    · rw [Function.update_self]
      exact ha hj
    · rw [Function.update_of_ne hne]
      exact h.cells j hj
  · simpa using he

theorem note {e : ε} (he : Q e) : Keeps R P Q (note e : Prog ε α PUnit) := by
  intro s h
  refine ⟨h.cells, fun e' he' => ?_⟩
  rw [note_exec, List.mem_cons, Event.note.injEq] at he'
  rcases he' with rfl | he'
  · exact he
  · exact h.reported e' he'

/-- Sequencing. The continuation is only ever run on values of `m` on a guarded machine. -/
theorem bind {m : Prog ε α β} {f : β → Prog ε α γ} (hm : Keeps R P Q m)
    (hf : ∀ s, Guarded R P Q s → Keeps R P Q (f (m.val s))) : Keeps R P Q (m >>= f) :=
  fun s h => hf s h (m.exec s) (hm s h)

theorem ite {c : Prop} [Decidable c] {m m' : Prog ε α β} (hm : c → Keeps R P Q m)
    (hm' : ¬ c → Keeps R P Q m') : Keeps R P Q (if c then m else m') := by
  split
  · exact hm ‹_›
  · exact hm' ‹_›

/-- What is only reported does not depend on the cells. -/
theorem of_reports {R' : Set ℤ} {m : Prog ε α β} (hm : Keeps R (fun _ => True) Q m) :
    Keeps R' (fun _ => True) Q m :=
  fun s h => ⟨fun _ _ => trivial, (hm s ⟨fun _ _ => trivial, h.reported⟩).reported⟩

theorem par {b : Bool} {m m' : Prog ε α PUnit} (hm : Keeps R P Q m) (hm' : Keeps R P Q m') :
    Keeps R P Q (par b m m') :=
  Keeps.ite (fun _ => hm.bind fun _ _ => hm') fun _ => hm'.bind fun _ _ => hm

/-- A loop over a list keeps the guard when its body does, whatever the local variables
hold. -/
theorem forEach {ι : Type} {is : List ι} {body : ι → β → Prog ε α β}
    (h : ∀ i ∈ is, ∀ b, Keeps R P Q (body i b)) (b : β) :
    Keeps R P Q (EfficientDictionary.forEach is b body) := by
  induction is generalizing b with
  | nil => exact Keeps.pure b
  | cons i is ih =>
    refine Keeps.bind (h i List.mem_cons_self b) fun _ _ => ?_
    exact ih (fun j hj => h j (List.mem_cons_of_mem i hj)) _

/-- A counted loop whose body keeps the guard whatever the local variables hold. -/
theorem forRange_all {f : ℤ → β → Prog ε α β} {lo hi : ℤ}
    (h : ∀ i, lo ≤ i → i < hi → ∀ b, Keeps R P Q (f i b)) (b : β) :
    Keeps R P Q (EfficientDictionary.forRange lo hi b f) :=
  Keeps.forEach (fun k hk b => by
    have hk' := List.mem_range.mp hk
    exact h (lo + k) (by omega) (by omega) b) b

/-- A counted loop keeps the guard when its body does, given what is known of the local
variables at each turn. -/
theorem forEach_range {I : ℕ → β → Prop} {f : ℕ → β → Prog ε α β} {n : ℕ} {b : β} (h0 : I 0 b)
    (hstep : ∀ i b, i < n → I i b → Keeps R P Q (f i b) ∧ ∀ s, I (i + 1) ((f i b).val s)) :
    Keeps R P Q (EfficientDictionary.forEach (List.range n) b f) := by
  intro s h
  refine (forEach_range_inv (I := fun i b s => I i b ∧ Guarded R P Q s) ⟨h0, h⟩ ?_).2
  rintro i b s hi ⟨hb, hs⟩
  obtain ⟨hkeeps, hnext⟩ := hstep i b hi hb
  exact ⟨hnext s, hkeeps s hs⟩

theorem forRange {I : ℤ → β → Prop} {f : ℤ → β → Prog ε α β} {lo hi : ℤ} {b : β} (hle : lo ≤ hi)
    (h0 : I lo b)
    (hstep : ∀ i b, lo ≤ i → i < hi → I i b →
      Keeps R P Q (f i b) ∧ ∀ s, I (i + 1) ((f i b).val s)) :
    Keeps R P Q (forRange lo hi b f) := by
  intro s h
  refine (forRange_inv (I := fun i b s => I i b ∧ Guarded R P Q s) hle ⟨h0, h⟩ ?_).2
  rintro i b s hlo hhi ⟨hb, hs⟩
  obtain ⟨hkeeps, hnext⟩ := hstep i b hlo hhi hb
  exact ⟨hnext s, hkeeps s hs⟩

end Keeps

end EfficientDictionary
