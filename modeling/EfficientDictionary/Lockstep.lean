import EfficientDictionary.Footprint

/-!
# Two programs in lockstep

A program that looks at its cells through their keys alone does the same wherever it finds the
same keys, also when the keys of another run belong to other cells. `SameKeys` says that two
arrays have the same keys, each by a key function of its own, and `Tracks` that two programs
return the same and leave the same keys.
-/

namespace EfficientDictionary

universe u v w x

variable {ε : Type u} {α : Type v} {β γ : Type w} {κ : Type x} {key key' : α → κ}
  {w w' : ℤ → α} {R R' R'' : Set ℤ}

/-- The keys of `w` in `R` are those of `w'`. -/
def SameKeys (key key' : α → κ) (R : Set ℤ) (w w' : ℤ → α) : Prop :=
  ∀ i ∈ R, key (w i) = key' (w' i)

namespace SameKeys

theorem of_cells (h : ∀ i ∈ R, w i = w' i) : SameKeys key key R w w' :=
  fun i hi => congrArg key (h i hi)

theorem symm (h : SameKeys key key' R w w') : SameKeys key' key R w' w :=
  fun i hi => (h i hi).symm

theorem mono (h : SameKeys key key' R w w') (hR : R' ⊆ R) : SameKeys key key' R' w w' :=
  fun i hi => h i (hR hi)

theorem swap {i j : ℤ} (h : SameKeys key key' R w w') (hi : i ∈ R) (hj : j ∈ R) :
    SameKeys key key' R (w ∘ Equiv.swap i j) (w' ∘ Equiv.swap i j) := by
  intro k hk
  simp only [Function.comp_apply, Equiv.swap_apply_def]
  split_ifs
  · exact h j hj
  · exact h i hi
  · exact h k hk

/-- The keys of a range, as a list. -/
theorem iff_map_slice {l r : ℤ} :
    SameKeys key key' (Set.Ico l r) w w' ↔ (slice w l r).map key = (slice w' l r).map key' := by
  rw [map_slice, map_slice]
  refine ⟨fun h => slice_congr fun i hl hr => h i ⟨hl, hr⟩, fun h i hi => ?_⟩
  exact eq_of_slice_eq h hi.1 hi.2

end SameKeys

/-- Tests that look at the keys alone let pass what has the same keys. -/
theorem map_filter_congr {p p' : α → Bool} (hp : ∀ a b, key a = key' b → p a = p' b)
    {as bs : List α} (h : as.map key = bs.map key') :
    (as.filter p).map key = (bs.filter p').map key' := by
  induction as generalizing bs with
  | nil =>
    obtain rfl := List.map_eq_nil_iff.mp h.symm
    rfl
  | cons a as ih =>
    obtain ⟨b, bs, rfl, hb, hrest⟩ := List.map_eq_cons_iff.mp h.symm
    rw [List.filter_cons, List.filter_cons, hp a b hb.symm]
    split_ifs
    · rw [List.map_cons, List.map_cons, hb, ih hrest.symm]
    · exact ih hrest.symm

/-- From machines with the same keys in `R` the two programs return the same value and leave the
same keys in `R'`. -/
def Tracks (key key' : α → κ) (R R' : Set ℤ) (m m' : Prog ε α β) : Prop :=
  ∀ s s', SameKeys key key' R s.cells s'.cells →
    m.val s = m'.val s' ∧ SameKeys key key' R' (m.exec s).cells (m'.exec s').cells

namespace Tracks

theorem pure (b : β) : Tracks key key' R R (pure b : Prog ε α β) (pure b) := fun _ _ h => ⟨rfl, h⟩

theorem note (e : ε) : Tracks key key' R R (note e : Prog ε α PUnit) (note e) :=
  fun _ _ h => ⟨rfl, h⟩

/-- It does no harm to know more keys in the beginning. -/
theorem weaken {m m' : Prog ε α β} (h : Tracks key key' R R' m m') (hR : R ⊆ R'') :
    Tracks key key' R'' R' m m' :=
  fun s s' hkeys => h s s' (hkeys.mono hR)

/-- Sequencing. The continuations are only ever run on values of the first programs. -/
theorem bind {m m' : Prog ε α β} {f f' : β → Prog ε α γ} (hm : Tracks key key' R R' m m')
    (hf : ∀ s, Tracks key key' R' R'' (f (m.val s)) (f' (m.val s))) :
    Tracks key key' R R'' (m >>= f) (m' >>= f') := by
  intro s s' hkeys
  obtain ⟨hval, hafter⟩ := hm s s' hkeys
  rw [Prog.bind_val, Prog.bind_val, Prog.bind_exec, Prog.bind_exec, ← hval]
  exact hf s _ _ hafter

/-- Outside its footprint a program leaves the keys alone. -/
theorem of_local {m m' : Prog ε α PUnit} (hm : Local R m) (hm' : Local R m')
    (hd : Disjoint R R') : Tracks key key' R' R' m m' := by
  refine fun s s' hkeys => ⟨rfl, fun i hi => ?_⟩
  have hnot := hd.notMem_of_mem_right hi
  rw [hm.frame s i hnot, hm'.frame s' i hnot]
  exact hkeys i hi

/-- Two loops whose turns track each other, given what is known of the local variables. -/
theorem forEach_range {I : ℕ → β → Prop} {f f' : ℕ → β → Prog ε α β} {n : ℕ} {b : β} (h0 : I 0 b)
    (hstep : ∀ i b, i < n → I i b →
      Tracks key key' R R (f i b) (f' i b) ∧ ∀ s, I (i + 1) ((f i b).val s)) :
    Tracks key key' R R (EfficientDictionary.forEach (List.range n) b f)
        (EfficientDictionary.forEach (List.range n) b f') ∧
      ∀ s, I n ((EfficientDictionary.forEach (List.range n) b f).val s) := by
  induction n with
  | zero => exact ⟨Tracks.pure b, fun _ => h0⟩
  | succ n ih =>
    obtain ⟨hloop, hI⟩ := ih fun i b hi => hstep i b (by omega)
    rw [forEach_range_succ, forEach_range_succ]
    exact ⟨hloop.bind fun s => (hstep n _ (by omega) (hI s)).1,
      fun s => (hstep n _ (by omega) (hI s)).2 _⟩

theorem forRange {I : ℤ → β → Prop} {f f' : ℤ → β → Prog ε α β} {lo hi : ℤ} {b : β} (hle : lo ≤ hi)
    (h0 : I lo b)
    (hstep : ∀ i b, lo ≤ i → i < hi → I i b →
      Tracks key key' R R (f i b) (f' i b) ∧ ∀ s, I (i + 1) ((f i b).val s)) :
    Tracks key key' R R (forRange lo hi b f) (forRange lo hi b f') := by
  refine (Tracks.forEach_range (I := fun k => I (lo + (k : ℤ))) (by simpa using h0) ?_).1
  intro k b hk h
  have hsucc : lo + ((k + 1 : ℕ) : ℤ) = lo + (k : ℤ) + 1 := by omega
  rw [hsucc]
  exact hstep (lo + k) b (by omega) (by omega) h

end Tracks

end EfficientDictionary
