import Mathlib.Data.Int.ConditionallyCompleteOrder
import Mathlib.Data.Set.Basic
import Mathlib.Logic.Function.Basic
import Mathlib.Order.CompletePartialOrder
import Mathlib.Order.ConditionallyCompleteLattice.Basic
import Mathlib.Order.Disjoint

/-!
# Tasks that share a memory, one access at a time

A small library for programs whose tasks run at the same time. Nothing here names the
program under study. Three layers:

* `Process ι V F`: the syntax of a running program, a free monad over the accesses to a
  memory with locations `ι` and contents `V`, with calls of the procedures `F` and with
  `fork`, which starts two tasks and waits for both. What is absent is just as important:
  there is no lock and no atomic update, so a program can only be right because its tasks
  leave each other alone.
* `Step`: the scheduler. It picks any task and lets it make **one** access, so tasks
  interleave between any two accesses. Calls unfold without fuel: that a program stops is
  something to prove.
* `Runs own rd n p w w'`: the sequential meaning, which also says who may do what. It is a
  derivation that `p`, allowed to write `own` and to read `rd`, takes `n` steps from `w` to
  `w'`, and that at every fork the rights were shared out without conflict.

What a derivation buys is `Runs.settles`: **every** schedule takes exactly `n` steps,
ends in `w'`, and meets no data race on the way.
-/

namespace EfficientDictionary

variable {ι : Type} {V : ι → Type} {F : Type}

/-! ## Syntax and scheduler -/

/-- A program that is running, seen from one of its states.

* `done`: nothing is left to do.
* `load i k`: read location `i` and go on as `k` says.
* `store i a k`: write `a` to location `i`, then `k`.
* `call f k`: run the body of `f`, then `k`.
* `fork p q k`: the tasks `p` and `q` are both running; when both are done, `k`. -/
inductive Process (ι : Type) (V : ι → Type) (F : Type) : Type where
  /-- nothing is left to do -/
  | done
  /-- read a location -/
  | load (i : ι) (k : V i → Process ι V F)
  /-- write a location -/
  | store (i : ι) (a : V i) (k : Process ι V F)
  /-- call a procedure -/
  | call (f : F) (k : Process ι V F)
  /-- two tasks and the wait for both -/
  | fork (p q k : Process ι V F)

/-- The contents of a memory. -/
abbrev Contents (V : ι → Type) : Type := (i : ι) → V i

/-- The bodies of the procedures, each given what is to be done after it returns. -/
abbrev Bodies (ι : Type) (V : ι → Type) (F : Type) : Type := F → Process ι V F → Process ι V F

section Scheduler

variable [DecidableEq ι] (D : Bodies ι V F)

/-- One step: the scheduler picks a task, which makes one access, unfolds one call, or goes
on after a wait. -/
inductive Step : Process ι V F → Contents V → Process ι V F → Contents V → Prop where
  /-- a read -/
  | load (i k w) : Step (.load i k) w (k (w i)) w
  /-- a write -/
  | store (i a k w) : Step (.store i a k) w k (Function.update w i a)
  /-- a call -/
  | call (f k w) : Step (.call f k) w (D f k) w
  /-- the first task moves -/
  | first {p p' w w'} (q k) : Step p w p' w' → Step (.fork p q k) w (.fork p' q k) w'
  /-- the second task moves -/
  | second {q q' w w'} (p k) : Step q w q' w' → Step (.fork p q k) w (.fork p q' k) w'
  /-- both tasks are done: the wait is over -/
  | join (k w) : Step (.fork .done .done k) w k w

/-- A schedule of `n` steps. -/
inductive Steps : ℕ → Process ι V F → Contents V → Process ι V F → Contents V → Prop where
  /-- nothing happens -/
  | refl (p w) : Steps 0 p w p w
  /-- a step and the rest -/
  | head {n p w p' w' p'' w''} :
      Step D p w p' w' → Steps n p' w' p'' w'' → Steps (n + 1) p w p'' w''

/-- There is no deadlock: a program that is not done can move. -/
theorem Process.progress (p : Process ι V F) (w : Contents V) :
    p = .done ∨ ∃ p' w', Step D p w p' w' := by
  induction p with
  | done => exact Or.inl rfl
  | load i k => exact Or.inr ⟨_, _, .load i k w⟩
  | store i a k => exact Or.inr ⟨_, _, .store i a k w⟩
  | call f k => exact Or.inr ⟨_, _, .call f k w⟩
  | fork p q k ihp ihq =>
    rcases ihp with rfl | ⟨p', w', hp⟩
    · rcases ihq with rfl | ⟨q', w', hq⟩
      · exact Or.inr ⟨_, _, .join k w⟩
      · exact Or.inr ⟨_, _, .second .done k hq⟩
    · exact Or.inr ⟨_, _, .first q k hp⟩

end Scheduler

/-! ## Data races -/

/-- What a task is about to do to a location. -/
inductive Access : Type where
  /-- read it -/
  | read
  /-- write it -/
  | write
  deriving DecidableEq, Repr

/-- One of the tasks of `p` is about to access the location `i`. -/
def Pending : Process ι V F → ι → Access → Prop
  | .load i _, j, a => j = i ∧ a = .read
  | .store i _ _, j, a => j = i ∧ a = .write
  | .fork p q _, j, a => Pending p j a ∨ Pending q j a
  | .done, _, _ => False
  | .call _ _, _, _ => False

/-- Two tasks of `p` that run at the same time are about to access the same location, and
one of them is about to write it. -/
def Race : Process ι V F → Prop
  | .fork p q _ => Race p ∨ Race q ∨
      ∃ i a b, Pending p i a ∧ Pending q i b ∧ (a = .write ∨ b = .write)
  | .done => False
  | .load _ _ => False
  | .store _ _ _ => False
  | .call _ _ => False

/-! ## The sequential meaning, with rights -/

/-- The memory `v` holds what each of two tasks left in its own locations, and everywhere
else what the memory `w` held that both started from. -/
structure Joins (own₁ own₂ : Set ι) (w w₁ w₂ v : Contents V) : Prop where
  /-- the locations of the first task -/
  first : ∀ i ∈ own₁, v i = w₁ i
  /-- the locations of the second task -/
  second : ∀ i ∈ own₂, v i = w₂ i
  /-- the others -/
  rest : ∀ i, i ∉ own₁ → i ∉ own₂ → v i = w i

/-- Any two results can be joined. -/
theorem exists_joins {own₁ own₂ : Set ι} (h : Disjoint own₁ own₂) (w w₁ w₂ : Contents V) :
    ∃ v, Joins own₁ own₂ w w₁ w₂ v := by
  classical
  refine ⟨fun i => if i ∈ own₁ then w₁ i else if i ∈ own₂ then w₂ i else w i, ?_, ?_, ?_⟩
  · exact fun i hi => if_pos hi
  · exact fun i hi => (if_neg (h.notMem_of_mem_right hi)).trans (if_pos hi)
  · exact fun i hi hi' => (if_neg hi).trans (if_neg hi')

section Runs

variable [DecidableEq ι] (D : Bodies ι V F)

/-- `p`, with the right to write `own` and to read `rd`, takes `n` steps from `w` to `w'`.

At a fork each task gets locations of its own to write, and neither may read those of the
other. Both start from the same memory, and what they leave is joined. -/
inductive Runs : Set ι → Set ι → ℕ → Process ι V F → Contents V → Contents V → Prop where
  /-- nothing happens -/
  | done (own rd w) : Runs own rd 0 .done w w
  /-- a read -/
  | load {own rd n i k w w'} : i ∈ rd → Runs own rd n (k (w i)) w w' →
      Runs own rd (n + 1) (.load i k) w w'
  /-- a write -/
  | store {own rd n i a k w w'} : i ∈ own → Runs own rd n k (Function.update w i a) w' →
      Runs own rd (n + 1) (.store i a k) w w'
  /-- a call -/
  | call {own rd n f k w w'} : Runs own rd n (D f k) w w' →
      Runs own rd (n + 1) (.call f k) w w'
  /-- two tasks and what follows -/
  | fork {own rd own₁ own₂ n₁ n₂ n p q k w w₁ w₂ v w'} :
      own₁ ⊆ own → own₂ ⊆ own → Disjoint own₁ own₂ →
      Runs own₁ (rd \ own₂) n₁ p w w₁ → Runs own₂ (rd \ own₁) n₂ q w w₂ →
      Joins own₁ own₂ w w₁ w₂ v → Runs own rd n k v w' →
      Runs own rd (n₁ + n₂ + n + 1) (.fork p q k) w w'

namespace Runs

variable {D} {own rd : Set ι} {n : ℕ} {p : Process ι V F} {w w' v : Contents V}

/-- The other locations keep their content. -/
theorem frame (h : Runs D own rd n p w w') : ∀ i ∉ own, w' i = w i := by
  induction h with
  | done => exact fun _ _ => rfl
  | load _ _ ih => exact ih
  | store hi _ ih =>
    intro j hj
    rw [ih j hj]
    exact Function.update_of_ne (ne_of_mem_of_not_mem hi hj).symm _ _
  | call _ ih => exact ih
  | fork h₁ h₂ _ _ _ hv _ _ _ ih =>
    intro j hj
    rw [ih j hj, hv.rest j (fun hj₁ => hj (h₁ hj₁)) fun hj₂ => hj (h₂ hj₂)]

/-- **Locality**: a memory that agrees on what may be read admits the same run, and what
was equal before it is equal after it. -/
theorem agree (h : Runs D own rd n p w w') (hv : ∀ i ∈ rd, w i = v i) :
    ∃ v', Runs D own rd n p v v' ∧ ∀ i, w i = v i → w' i = v' i := by
  induction h generalizing v with
  | done own rd w => exact ⟨v, .done own rd v, fun _ h => h⟩
  | load hi _ ih =>
    obtain ⟨v', hrun, hsame⟩ := ih hv
    rw [hv _ hi] at hrun
    exact ⟨v', .load hi hrun, hsame⟩
  | @store own rd n i a k w w' hi _ ih =>
    have hupdate : ∀ j, w j = v j → Function.update w i a j = Function.update v i a j := by
      intro j hj
      by_cases hji : j = i
      · subst hji
        rw [Function.update_self, Function.update_self]
      · rw [Function.update_of_ne hji, Function.update_of_ne hji, hj]
    obtain ⟨v', hrun, hsame⟩ := ih fun j hj => hupdate j (hv j hj)
    exact ⟨v', .store hi hrun, fun j hj => hsame j (hupdate j hj)⟩
  | call _ ih =>
    obtain ⟨v', hrun, hsame⟩ := ih hv
    exact ⟨v', .call hrun, hsame⟩
  | @fork own rd own₁ own₂ n₁ n₂ n p q k w w₁ w₂ u w' h₁ h₂ hd _ _ hu _ ihp ihq ihk =>
    obtain ⟨v₁, hrun₁, hsame₁⟩ := ihp fun i hi => hv i hi.1
    obtain ⟨v₂, hrun₂, hsame₂⟩ := ihq fun i hi => hv i hi.1
    obtain ⟨u', hu'⟩ := exists_joins hd v v₁ v₂
    -- the joins agree wherever the memories did
    have hjoin : ∀ i, w i = v i → u i = u' i := by
      intro i hi
      by_cases hi₁ : i ∈ own₁
      · rw [hu.first i hi₁, hu'.first i hi₁, hsame₁ i hi]
      · by_cases hi₂ : i ∈ own₂
        · rw [hu.second i hi₂, hu'.second i hi₂, hsame₂ i hi]
        · rw [hu.rest i hi₁ hi₂, hu'.rest i hi₁ hi₂, hi]
    obtain ⟨v', hrun, hsame⟩ := ihk fun i hi => hjoin i (hv i hi)
    exact ⟨v', .fork h₁ h₂ hd hrun₁ hrun₂ hu' hrun, fun i hi => hsame i (hjoin i hi)⟩

/-- **Preservation**: a step of any task leaves a program with one step fewer to do, with
the same rights and the same result. -/
theorem step (h : Runs D own rd n p w w') {p₁ : Process ι V F} {w₁ : Contents V}
    (hstep : Step D p w p₁ w₁) :
    (∀ i ∉ own, w₁ i = w i) ∧ ∃ m, n = m + 1 ∧ Runs D own rd m p₁ w₁ w' := by
  induction hstep generalizing own rd n w' with
  | load i k w =>
    cases h with
    | load _ hrun => exact ⟨fun _ _ => rfl, _, rfl, hrun⟩
  | store i a k w =>
    cases h with
    | store hi hrun =>
      exact ⟨fun j hj => Function.update_of_ne (ne_of_mem_of_not_mem hi hj).symm _ _, _, rfl,
        hrun⟩
  | call f k w =>
    cases h with
    | call hrun => exact ⟨fun _ _ => rfl, _, rfl, hrun⟩
  | first q k _ ih =>
    cases h with
    | fork h₁ h₂ hd hp hq hv hk =>
      obtain ⟨hframe, m, rfl, hp'⟩ := ih hp
      obtain ⟨w₂', hq', hsame⟩ := hq.agree fun i hi => (hframe i hi.2).symm
      refine ⟨fun i hi => hframe i fun hi₁ => hi (h₁ hi₁), _, ?_,
        .fork h₁ h₂ hd hp' hq' ⟨hv.first, fun i hi => ?_, fun i hi hi' => ?_⟩ hk⟩
      · omega
      · rw [hv.second i hi, hsame i (hframe i (hd.notMem_of_mem_right hi)).symm]
      · rw [hv.rest i hi hi', hframe i hi]
  | second p k _ ih =>
    cases h with
    | fork h₁ h₂ hd hp hq hv hk =>
      obtain ⟨hframe, m, rfl, hq'⟩ := ih hq
      obtain ⟨w₁', hp', hsame⟩ := hp.agree fun i hi => (hframe i hi.2).symm
      refine ⟨fun i hi => hframe i fun hi₂ => hi (h₂ hi₂), _, ?_,
        .fork h₁ h₂ hd hp' hq' ⟨fun i hi => ?_, hv.second, fun i hi hi' => ?_⟩ hk⟩
      · omega
      · rw [hv.first i hi, hsame i (hframe i (hd.notMem_of_mem_left hi)).symm]
      · rw [hv.rest i hi hi', hframe i hi']
  | join k w =>
    cases h with
    | @fork own rd own₁ own₂ n₁ n₂ n p q k w w₁ w₂ v w' h₁ h₂ hd hp hq hv hk =>
      cases hp
      cases hq
      have hsame : v = w := by
        funext i
        by_cases hi₁ : i ∈ own₁
        · exact hv.first i hi₁
        · by_cases hi₂ : i ∈ own₂
          · exact hv.second i hi₂
          · exact hv.rest i hi₁ hi₂
      subst hsame
      exact ⟨fun _ _ => rfl, n, by omega, hk⟩

/-- Preservation over a whole schedule. -/
theorem steps {m : ℕ} {p₁ : Process ι V F} {w₁ : Contents V} (hsteps : Steps D m p w p₁ w₁)
    (h : Runs D own rd n p w w') : ∃ r, n = m + r ∧ Runs D own rd r p₁ w₁ w' := by
  induction hsteps generalizing n with
  | refl p w => exact ⟨n, by omega, h⟩
  | head hstep _ ih =>
    obtain ⟨-, m', rfl, h'⟩ := h.step hstep
    obtain ⟨r, rfl, hrun⟩ := ih h'
    exact ⟨r, by omega, hrun⟩

/-- Every access that is about to happen is within the rights. -/
theorem pending (h : Runs D own rd n p w w') {i : ι} {a : Access} (hi : Pending p i a) :
    (a = .write → i ∈ own) ∧ (a = .read → i ∈ rd) := by
  induction h with
  | done => exact hi.elim
  | load hrd _ _ =>
    obtain ⟨rfl, rfl⟩ := hi
    exact ⟨fun h => Access.noConfusion h, fun _ => hrd⟩
  | store hown _ _ =>
    obtain ⟨rfl, rfl⟩ := hi
    exact ⟨fun _ => hown, fun h => Access.noConfusion h⟩
  | call => exact hi.elim
  | fork h₁ h₂ _ _ _ _ _ ihp ihq _ =>
    rcases hi with hi | hi
    · exact ⟨fun h => h₁ ((ihp hi).1 h), fun h => ((ihp hi).2 h).1⟩
    · exact ⟨fun h => h₂ ((ihq hi).1 h), fun h => ((ihq hi).2 h).1⟩

/-- **Race freedom**: rights that are shared out without conflict exclude races. -/
theorem not_race (h : Runs D own rd n p w w') : ¬ Race p := by
  induction h with
  | done => exact id
  | load => exact id
  | store => exact id
  | call => exact id
  | fork _ _ hd hp hq _ _ ihp ihq _ =>
    rintro (hr | hr | ⟨i, a, b, ha, hb, hw⟩)
    · exact ihp hr
    · exact ihq hr
    · cases a with
      | write =>
        have hi := (hp.pending ha).1 rfl
        cases b with
        | write => exact hd.notMem_of_mem_left hi ((hq.pending hb).1 rfl)
        | read => exact ((hq.pending hb).2 rfl).2 hi
      | read =>
        have hwrite : b = .write := hw.resolve_left fun h => Access.noConfusion h
        exact ((hp.pending ha).2 rfl).2 ((hq.pending hb).1 hwrite)

/-- A program with nothing left to do is done, and conversely. -/
theorem eq_zero_iff (h : Runs D own rd n p w w') : n = 0 ↔ p = .done := by
  cases h <;> simp

end Runs

/-- Whatever the scheduler does from `p` and `w`, it stops after the same number of steps,
it leaves the memory `w'`, and it never meets a race or a dead end. -/
def Settles (p : Process ι V F) (w w' : Contents V) : Prop :=
  ∃ n, ∀ m p₁ w₁, Steps D m p w p₁ w₁ →
    ¬ Race p₁ ∧ m ≤ n ∧ (p₁ = .done ↔ m = n) ∧ (p₁ = .done → w₁ = w') ∧
      (p₁ ≠ .done → ∃ p₂ w₂, Step D p₁ w₁ p₂ w₂)

section Schedules

variable {D} {n : ℕ} {p p₁ p₂ : Process ι V F} {w w₁ w₂ w' : Contents V}

/-- A schedule can be continued by one more step. -/
theorem Steps.snoc (h : Steps D n p w p₁ w₁) (hstep : Step D p₁ w₁ p₂ w₂) :
    Steps D (n + 1) p w p₂ w₂ := by
  induction h with
  | refl p w => exact .head hstep (.refl _ _)
  | head h _ ih => exact .head h (ih hstep)

/-- Some schedule runs to the end. -/
theorem Settles.exists_steps (h : Settles D p w w') : ∃ n, Steps D n p w .done w' := by
  obtain ⟨n, hall⟩ := h
  have hreach : ∀ m ≤ n, ∃ p₁ w₁, Steps D m p w p₁ w₁ := by
    intro m
    induction m with
    | zero => exact fun _ => ⟨p, w, .refl p w⟩
    | succ m ih =>
      intro hm
      obtain ⟨p₁, w₁, hsteps⟩ := ih (by omega)
      obtain ⟨-, -, hdone, -, hnext⟩ := hall m p₁ w₁ hsteps
      obtain ⟨p₂, w₂, hstep⟩ := hnext fun hp => absurd (hdone.mp hp) (by omega)
      exact ⟨p₂, w₂, hsteps.snoc hstep⟩
  obtain ⟨p₁, w₁, hsteps⟩ := hreach n (le_refl n)
  obtain ⟨-, -, hdone, hresult, -⟩ := hall n p₁ w₁ hsteps
  obtain rfl := hdone.mpr rfl
  obtain rfl := hresult rfl
  exact ⟨n, hsteps⟩

/-- A schedule that runs to the end ends in the one result. -/
theorem Settles.eq_of_steps (h : Settles D p w w') (hsteps : Steps D n p w .done w₁) :
    w₁ = w' := by
  obtain ⟨_, hall⟩ := h
  exact (hall n .done w₁ hsteps).2.2.2.1 rfl

end Schedules

/-- **Every schedule is like the sequential one.** -/
theorem Runs.settles {own rd : Set ι} {n : ℕ} {p : Process ι V F} {w w' : Contents V}
    (h : Runs D own rd n p w w') : Settles D p w w' := by
  refine ⟨n, fun m p₁ w₁ hsteps => ?_⟩
  obtain ⟨r, rfl, hrun⟩ := h.steps hsteps
  have hdone := hrun.eq_zero_iff
  refine ⟨hrun.not_race, by omega, by rw [← hdone]; omega, ?_, ?_⟩
  · rintro rfl
    cases hrun
    rfl
  · exact fun hp => (p₁.progress D w₁).resolve_left hp

end Runs

end EfficientDictionary
