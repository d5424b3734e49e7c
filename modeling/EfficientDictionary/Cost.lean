import EfficientDictionary.Guard
import EfficientDictionary.Lockstep
import Mathlib.Algebra.BigOperators.Group.Finset.Basic
import Mathlib.Data.Nat.Choose.Basic
import Mathlib.Data.Nat.Log
import Mathlib.Tactic.Ring

/-!
# What a program takes

A program that reports the operations somebody may want to count leaves their number in its
trace. The rules below read that number off the text of the program: sequencing adds, a loop
adds up its turns, and everything that is not reported is free.

The number depends on where the program starts, so `Takes` speaks of one start. `SameCost`
compares two programs that start with the same keys: tasks and parallel loops may be served in
any order without changing what they take.
-/

namespace EfficientDictionary

universe u v w x

variable {ε : Type u} {α : Type v} {β γ : Type w} {q : ε → Bool} {s : Machine ε α} {n n' : ℕ}

/-- How many notes of a trace satisfy `q`. -/
def tally (q : ε → Bool) (t : List (Event ε)) : ℕ := (notes t).countP q

/-- From `s` on, `m` reports `n` notes that satisfy `q`. -/
def Takes (q : ε → Bool) (n : ℕ) (m : Prog ε α β) (s : Machine ε α) : Prop :=
  tally q (m.exec s).trace = n + tally q s.trace

theorem Takes.tally_eq {m : Prog ε α β} {cells : ℤ → α} (h : Takes q n m ⟨cells, []⟩) :
    tally q (m.exec ⟨cells, []⟩).trace = n := h

namespace Takes

theorem pure (b : β) (s : Machine ε α) : Takes q 0 (pure b : Prog ε α β) s :=
  (Nat.zero_add _).symm

theorem load (i : ℤ) (s : Machine ε α) : Takes q 0 (load i : Prog ε α α) s :=
  (Nat.zero_add _).symm

theorem store (i : ℤ) (a : α) (s : Machine ε α) : Takes q 0 (store i a : Prog ε α PUnit) s :=
  (Nat.zero_add _).symm

theorem note (e : ε) (s : Machine ε α) :
    Takes q (if q e then 1 else 0) (note e : Prog ε α PUnit) s := by
  have hnotes : notes ((EfficientDictionary.note e : Prog ε α PUnit).exec s).trace =
      e :: notes s.trace := rfl
  rw [Takes, tally, tally, hnotes, List.countP_cons, Nat.add_comm]

theorem bind {m : Prog ε α β} {f : β → Prog ε α γ} (hm : Takes q n m s)
    (hf : Takes q n' (f (m.val s)) (m.exec s)) : Takes q (n + n') (m >>= f) s := by
  rw [Takes, Prog.bind_exec, hf, hm]
  omega

theorem ite {c : Prop} [Decidable c] {m m' : Prog ε α β} (hm : c → Takes q n m s)
    (hm' : ¬ c → Takes q n m' s) : Takes q n (if c then m else m') s := by
  split
  · exact hm ‹_›
  · exact hm' ‹_›

/-- What comes for free in front. -/
theorem bind_free {m : Prog ε α β} {f : β → Prog ε α γ} (hm : Takes q 0 m s)
    (hf : Takes q n (f (m.val s)) (m.exec s)) : Takes q n (m >>= f) s := by
  have hsum := hm.bind hf
  rwa [Nat.zero_add] at hsum

/-- What comes for free behind. -/
theorem then_free {m : Prog ε α β} {f : β → Prog ε α γ} (hm : Takes q n m s)
    (hf : Takes q 0 (f (m.val s)) (m.exec s)) : Takes q n (m >>= f) s :=
  hm.bind hf

/-- A loop whose turns all take the same. -/
theorem forEach {ι : Type} {is : List ι} {body : ι → β → Prog ε α β}
    (h : ∀ i ∈ is, ∀ b s, Takes q n (body i b) s) (b : β) (s : Machine ε α) :
    Takes q (is.length * n) (EfficientDictionary.forEach is b body) s := by
  induction is generalizing b s with
  | nil => exact (Takes.pure b s).trans (by rw [List.length_nil, Nat.zero_mul])
  | cons i is ih =>
    have hrest := ih fun j hj => h j (List.mem_cons_of_mem i hj)
    rw [List.length_cons, Nat.add_one_mul, Nat.add_comm]
    exact (h i List.mem_cons_self b s).bind (hrest _ _)

/-- `for (int i = lo; i < hi; i++)` whose turns all take the same. -/
theorem forRange {body : ℤ → β → Prog ε α β} (h : ∀ i b s, Takes q n (body i b) s) (lo hi : ℤ)
    (b : β) (s : Machine ε α) :
    Takes q ((hi - lo).toNat * n) (EfficientDictionary.forRange lo hi b body) s := by
  have hturn : ∀ k ∈ List.range (hi - lo).toNat, ∀ b s, Takes q n (body (lo + (k : ℤ)) b) s :=
    fun k _ => h _
  have hrun := Takes.forEach hturn b s
  rwa [List.length_range] at hrun

/-- A loop over `0, …, n - 1` whose turns take different numbers, under an invariant. -/
theorem forEach_range {I : ℕ → β → Machine ε α → Prop} {f : ℕ → β → Prog ε α β} {c : ℕ → ℕ}
    {b : β} (h0 : I 0 b s)
    (hstep : ∀ i b s, i < n → I i b s →
      I (i + 1) ((f i b).val s) ((f i b).exec s) ∧ Takes q (c i) (f i b) s) :
    Takes q (∑ i ∈ Finset.range n, c i) (EfficientDictionary.forEach (List.range n) b f) s := by
  induction n with
  | zero => exact Takes.pure b s
  | succ n ih =>
    have hbelow : ∀ i b s, i < n → I i b s →
        I (i + 1) ((f i b).val s) ((f i b).exec s) ∧ Takes q (c i) (f i b) s :=
      fun i b s hi => hstep i b s (by omega)
    have hinv := forEach_range_inv h0 fun i b s hi h => (hbelow i b s hi h).1
    rw [forEach_range_succ, Finset.sum_range_succ]
    exact (ih hbelow).bind (hstep n _ _ (Nat.lt_succ_self n) hinv).2

/-- A loop over a list whose turns take what the index says. -/
theorem forEach_sum {ι : Type} {is : List ι} {c : ι → ℕ} {body : ι → β → Prog ε α β}
    (h : ∀ i ∈ is, ∀ b s, Takes q (c i) (body i b) s) (b : β) (s : Machine ε α) :
    Takes q (is.map c).sum (EfficientDictionary.forEach is b body) s := by
  induction is generalizing b s with
  | nil => exact Takes.pure b s
  | cons i is ih =>
    have hrest := ih fun j hj => h j (List.mem_cons_of_mem i hj)
    rw [List.map_cons, List.sum_cons]
    exact (h i List.mem_cons_self b s).bind (hrest _ _)

/-- There is only one such number. -/
theorem unique {m : Prog ε α β} (h : Takes q n m s) (h' : Takes q n' m s) : n = n' :=
  Nat.add_right_cancel (h.symm.trans h')

end Takes

/-! ## Programs that take the same -/

section SameCost

variable {κ : Type x} {key key' : α → κ} {R R' : Set ℤ}

/-- From machines with the same keys in `R` the two programs take the same. -/
def SameCost (q : ε → Bool) (key key' : α → κ) (R : Set ℤ) (m : Prog ε α β)
    (m' : Prog ε α γ) : Prop :=
  ∀ s s', SameKeys key key' R s.cells s'.cells → ∃ n, Takes q n m s ∧ Takes q n m' s'

namespace SameCost

theorem of_takes {m : Prog ε α β} {m' : Prog ε α γ} (h : ∀ s, Takes q n m s)
    (h' : ∀ s, Takes q n m' s) : SameCost q key key' R m m' :=
  fun s s' _ => ⟨n, h s, h' s'⟩

theorem symm {m : Prog ε α β} {m' : Prog ε α γ} (h : SameCost q key key' R m m') :
    SameCost q key' key R m' m := by
  intro s s' hkeys
  obtain ⟨n, hn, hn'⟩ := h s' s hkeys.symm
  exact ⟨n, hn', hn⟩

theorem mono {m : Prog ε α β} {m' : Prog ε α γ} (h : SameCost q key key' R m m') (hR : R ⊆ R') :
    SameCost q key key' R' m m' :=
  fun s s' hkeys => h s s' (hkeys.mono hR)

/-- Sequencing, when the first programs agree in more than what they take. -/
theorem bind {m m' : Prog ε α β} {f f' : β → Prog ε α γ} (hm : SameCost q key key' R m m')
    (htracks : Tracks key key' R R' m m')
    (hf : ∀ s, SameCost q key key' R' (f (m.val s)) (f' (m.val s))) :
    SameCost q key key' R (m >>= f) (m' >>= f') := by
  intro s s' hkeys
  obtain ⟨n, hn, hn'⟩ := hm s s' hkeys
  obtain ⟨hval, hafter⟩ := htracks s s' hkeys
  obtain ⟨k, hk, hk'⟩ := hf s _ _ hafter
  refine ⟨n + k, hn.bind hk, hn'.bind ?_⟩
  rwa [← hval]

/-- Sequencing after programs that always take the same. -/
theorem bind_takes {m m' : Prog ε α β} {f f' : β → Prog ε α γ} (hm : ∀ s, Takes q n m s)
    (hm' : ∀ s, Takes q n m' s) (htracks : Tracks key key' R R' m m')
    (hf : ∀ s, SameCost q key key' R' (f (m.val s)) (f' (m.val s))) :
    SameCost q key key' R (m >>= f) (m' >>= f') :=
  (of_takes hm hm').bind htracks hf

/-- What a program takes is settled by one that takes the same. -/
theorem takes {m : Prog ε α β} {m' : Prog ε α γ} (h : SameCost q key key' R m m')
    {s s' : Machine ε α} (hkeys : SameKeys key key' R s.cells s'.cells) (hs : Takes q n m' s') :
    Takes q n m s := by
  obtain ⟨k, hk, hk'⟩ := h s s' hkeys
  rwa [hs.unique hk']

end SameCost

end SameCost

/-- Independent siblings take what they take one by one, in either order. -/
theorem Takes.par {R R' : Set ℤ} {m m' : Prog ε α PUnit} (hlocal : Local R m)
    (hlocal' : Local R' m') (hd : Disjoint R R')
    (h : ∀ s₁ : Machine ε α, (∀ i ∈ R, s₁.cells i = s.cells i) → Takes q n m s₁)
    (h' : ∀ s₁ : Machine ε α, (∀ i ∈ R', s₁.cells i = s.cells i) → Takes q n' m' s₁)
    (b : Bool) : Takes q (n + n') (par b m m') s := by
  cases b with
  | false =>
    rw [Nat.add_comm]
    exact (h' s fun _ _ => rfl).bind <|
      h _ fun i hi => hlocal'.frame s i (hd.notMem_of_mem_left hi)
  | true =>
    exact (h s fun _ _ => rfl).bind <|
      h' _ fun i hi => hlocal.frame s i (hd.notMem_of_mem_right hi)

/-- So do siblings that take the same, whichever runs first. -/
theorem SameCost.par {κ : Type x} {key key' : α → κ} {R R₁ R₂ : Set ℤ}
    {m₁ m₂ m₁' m₂' : Prog ε α PUnit} (h₁ : SameCost q key key' R₁ m₁ m₁')
    (h₂ : SameCost q key key' R₂ m₂ m₂') (hlocal₁ : Local R₁ m₁) (hlocal₂ : Local R₂ m₂)
    (hlocal₁' : Local R₁ m₁') (hlocal₂' : Local R₂ m₂') (hd : Disjoint R₁ R₂) (hsub₁ : R₁ ⊆ R)
    (hsub₂ : R₂ ⊆ R) (b b' : Bool) :
    SameCost q key key' R (EfficientDictionary.par b m₁ m₂)
      (EfficientDictionary.par b' m₁' m₂') := by
  intro s s' hkeys
  have hkeys₁ := hkeys.mono hsub₁
  have hkeys₂ := hkeys.mono hsub₂
  obtain ⟨n, hn, hn'⟩ := h₁ s s' hkeys₁
  obtain ⟨k, hk, hk'⟩ := h₂ s s' hkeys₂
  refine ⟨n + k, Takes.par hlocal₁ hlocal₂ hd (fun s₁ hs₁ => ?_) (fun s₁ hs₁ => ?_) b,
    Takes.par hlocal₁' hlocal₂' hd (fun s₁ hs₁ => ?_) (fun s₁ hs₁ => ?_) b'⟩
  · exact h₁.takes (fun i hi => (congrArg key (hs₁ i hi)).trans (hkeys₁ i hi)) hn'
  · exact h₂.takes (fun i hi => (congrArg key (hs₁ i hi)).trans (hkeys₂ i hi)) hk'
  · exact h₁.symm.takes (fun i hi => (congrArg key' (hs₁ i hi)).trans (hkeys₁ i hi).symm) hn
  · exact h₂.symm.takes (fun i hi => (congrArg key' (hs₁ i hi)).trans (hkeys₂ i hi).symm) hk

/-! ## Two parts of a whole -/

theorem choose_two_succ (n : ℕ) : (n + 1).choose 2 = n + n.choose 2 := by
  rw [Nat.choose_succ_succ', Nat.choose_one_right]

/-- The pairs of `a + b` things: those of either part, and those across. -/
theorem choose_two_add (a b : ℕ) :
    (a + b).choose 2 = a.choose 2 + b.choose 2 + a * b := by
  induction b with
  | zero => rfl
  | succ b ih =>
    rw [← Nat.add_assoc, choose_two_succ, choose_two_succ, ih, Nat.mul_succ]
    omega

/-- Splitting `a + b + 1` things at one of them costs at most all pairs, and all pairs only if
there is nothing on one side. -/
theorem split_le_choose_two {a b k k' : ℕ} (hk : k ≤ a.choose 2) (hk' : k' ≤ b.choose 2) :
    a + b + (k + k') ≤ (a + b + 1).choose 2 ∧
      (a + b + (k + k') = (a + b + 1).choose 2 ↔
        (b = 0 ∧ k = a.choose 2) ∨ (a = 0 ∧ k' = b.choose 2)) := by
  have hall : (a + b + 1).choose 2 = a + b + (a.choose 2 + b.choose 2 + a * b) := by
    rw [choose_two_succ, choose_two_add]
  rw [hall]
  refine ⟨by omega, fun h => ?_, ?_⟩
  · have hside : b * a = 0 := by rw [Nat.mul_comm]; omega
    rcases Nat.mul_eq_zero.mp hside with rfl | rfl
    · exact Or.inl ⟨rfl, by omega⟩
    · exact Or.inr ⟨rfl, by omega⟩
  · rintro (⟨rfl, rfl⟩ | ⟨rfl, rfl⟩)
    · rw [Nat.choose_zero_succ] at *
      omega
    · rw [Nat.choose_zero_succ] at *
      omega

/-- Splitting `a + b + 1` things at one of them and going on with both sides takes one round more
than the longer side, so as many rounds as there are others only if there is nothing on one
side. -/
theorem split_le_rounds {a b d d' : ℕ} (hpos : 0 < a + b) (hd : d ≤ a - 1) (hd' : d' ≤ b - 1) :
    max d d' + 1 ≤ a + b ∧
      (max d d' + 1 = a + b ↔ (b = 0 ∧ d = a - 1) ∨ (a = 0 ∧ d' = b - 1)) := by
  omega

/-- With one thing at most there is nothing to compare. -/
theorem choose_two_le_mul {a m : ℕ} (ha : a ≤ m) (hm : m ≤ 1) :
    0 + (a + 1).choose 2 ≤ a * m := by
  rcases Nat.le_one_iff_eq_zero_or_eq_one.mp (ha.trans hm) with rfl | rfl
  · exact Nat.zero_le _
  · exact (Nat.one_mul m).symm ▸ ha

/-- Splitting `m` things, of `a + b + 1` kinds, at one of them and dropping those of its kind:
`m` for each kind, less the pairs of kinds, is enough when it is enough on both sides. -/
theorem split_le_mul {a b c c' k k' m : ℕ} (hb : b ≤ c') (hm : c + c' + 1 ≤ m)
    (hk : k + (a + 1).choose 2 ≤ a * c) (hk' : k' + (b + 1).choose 2 ≤ b * c') :
    m - 1 + (k + k') + (a + (b + 1) + 1).choose 2 ≤ (a + (b + 1)) * m := by
  have hpairs : (a + (b + 1) + 1).choose 2 =
      (a + b + 1) + (a * b + ((a + 1).choose 2 + (b + 1).choose 2)) := by
    rw [choose_two_succ, choose_two_add, choose_two_succ a, choose_two_succ b, Nat.mul_add_one]
    omega
  have hacross : a * b ≤ a * c' := Nat.mul_le_mul_left a hb
  calc m - 1 + (k + k') + (a + (b + 1) + 1).choose 2
      ≤ m + (a * (c + c' + 1) + b * (c + c' + 1)) := by
        rw [hpairs]
        simp only [Nat.mul_add, Nat.mul_one]
        omega
    _ ≤ m + (a * m + b * m) :=
        Nat.add_le_add_left (Nat.add_le_add (Nat.mul_le_mul_left a hm) (Nat.mul_le_mul_left b hm)) m
    _ = (a + (b + 1)) * m := by
        rw [Nat.add_mul, Nat.add_one_mul]
        omega

/-- Splitting `n` things, of `p + p' + 1` kinds at least, at one of them and dropping those of its
kind: `c + 2 n` for each kind, and for the parts that are not split any more `t` for each two
things. -/
theorem split_le_kinds {a b c d k k' n p p' t : ℕ} (hn : a + b ≤ n) (hd : p + p' + 1 ≤ d)
    (hk : 2 * k ≤ p * (2 * (c + 2 * a)) + a * t)
    (hk' : 2 * k' ≤ p' * (2 * (c + 2 * b)) + b * t) :
    2 * (c + 2 * n + (k + k')) ≤ d * (2 * (c + 2 * n)) + n * t := by
  have ha : p * (2 * (c + 2 * a)) ≤ p * (2 * (c + 2 * n)) := Nat.mul_le_mul_left p (by omega)
  have hb : p' * (2 * (c + 2 * b)) ≤ p' * (2 * (c + 2 * n)) := Nat.mul_le_mul_left p' (by omega)
  have hparts : a * t + b * t ≤ n * t := by
    rw [← Nat.add_mul]
    exact Nat.mul_le_mul_right t hn
  calc 2 * (c + 2 * n + (k + k'))
      ≤ (p + p' + 1) * (2 * (c + 2 * n)) + n * t := by
        rw [Nat.add_one_mul (p + p'), Nat.add_mul p p']
        omega
    _ ≤ d * (2 * (c + 2 * n)) + n * t := Nat.add_le_add_right (Nat.mul_le_mul_right _ hd) _

/-- Kinds before a thing, its own, and kinds after it. -/
theorem card_split_le {κ : Type} [LinearOrder κ] {below above all : Finset κ} {x : κ}
    (hbelow : ∀ y ∈ below, y ∈ all ∧ y < x) (habove : ∀ y ∈ above, y ∈ all ∧ x < y)
    (hx : x ∈ all) : below.card + above.card + 1 ≤ all.card := by
  have hd : Disjoint below above := by
    rw [Finset.disjoint_left]
    intro y hy hy'
    exact lt_asymm (hbelow y hy).2 (habove y hy').2
  have hnot : x ∉ below ∪ above := by
    rw [Finset.mem_union]
    rintro (h | h)
    · exact lt_irrefl x (hbelow x h).2
    · exact lt_irrefl x (habove x h).2
  rw [← Finset.card_union_of_disjoint hd, ← Finset.card_insert_of_notMem hnot]
  refine Finset.card_le_card (Finset.insert_subset hx (Finset.union_subset ?_ ?_))
  · exact fun y hy => (hbelow y hy).1
  · exact fun y hy => (habove y hy).1

/-- One round more than the longer half. -/
theorem clog_halves {a b : ℕ} (hab : a ≤ b) (hba : b ≤ a + 1) :
    Nat.clog 2 (a + b + 1 + 1) = Nat.clog 2 (b + 1) + 1 := by
  have hhalf : (a + b + 1 + 1 + 2 - 1) / 2 = b + 1 := by omega
  rw [Nat.clog_of_two_le (by omega) (by omega), hhalf]

/-- Splitting `a + b + 1` things in the middle: `n + 1` for each round of halving, and for the
parts that are not split any more `t` for each two things. -/
theorem split_le_clog {a b k k' t : ℕ} (hab : a ≤ b) (hba : b ≤ a + 1)
    (hk : 2 * k ≤ 2 * ((a + 1) * Nat.clog 2 (a + 1)) + a * t)
    (hk' : 2 * k' ≤ 2 * ((b + 1) * Nat.clog 2 (b + 1)) + b * t) :
    2 * (a + b + 2 + (k + k')) ≤
      2 * ((a + b + 1 + 1) * Nat.clog 2 (a + b + 1 + 1)) + (a + b + 1) * t := by
  have hmono : (a + 1) * Nat.clog 2 (a + 1) ≤ (a + 1) * Nat.clog 2 (b + 1) :=
    Nat.mul_le_mul_left _ (Nat.clog_mono_right 2 (by omega))
  rw [clog_halves hab hba]
  generalize Nat.clog 2 (b + 1) = rounds at *
  have hsum : (a + b + 1 + 1) * (rounds + 1) =
      (a + 1) * rounds + (b + 1) * rounds + (a + b + 2) := by ring
  have hrest : (a + b + 1) * t = a * t + b * t + t := by ring
  rw [hsum, hrest]
  omega

/-- When both sides go on at the same time, halving takes two for each thing, and one more for
each round. -/
theorem split_le_chain {a b d d' t : ℕ} (hab : a ≤ b) (hba : b ≤ a + 1)
    (hd : d ≤ 2 * a + Nat.clog 2 (a + 1) + t) (hd' : d' ≤ 2 * b + Nat.clog 2 (b + 1) + t) :
    a + b + 2 + max d d' ≤ 2 * (a + b + 1) + Nat.clog 2 (a + b + 1 + 1) + t := by
  have hmono : Nat.clog 2 (a + 1) ≤ Nat.clog 2 (b + 1) := Nat.clog_mono_right 2 (by omega)
  rw [clog_halves hab hba]
  omega

end EfficientDictionary
