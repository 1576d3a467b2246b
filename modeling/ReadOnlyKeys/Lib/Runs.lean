import Mathlib.Data.List.Infix

/-!
# Runs of a deterministic system

A system takes one operation at a time from state to state. What every step
preserves is preserved by every run, and what relates two systems step by step
relates their runs.
-/
namespace Runs

variable {σ τ α : Type}

/-- The state after a sequence of operations. -/
def run (step : σ → α → σ) (s : σ) (ops : List α) : σ := ops.foldl step s

@[simp] theorem run_nil (step : σ → α → σ) (s : σ) : run step s [] = s := rfl

@[simp] theorem run_cons (step : σ → α → σ) (s : σ) (a : α) (ops : List α) :
    run step s (a :: ops) = run step (step s a) ops := rfl

theorem run_append (step : σ → α → σ) (s : σ) (ops ops' : List α) :
    run step s (ops ++ ops') = run step (run step s ops) ops' := List.foldl_append

theorem run_concat (step : σ → α → σ) (s : σ) (ops : List α) (a : α) :
    run step s (ops ++ [a]) = step (run step s ops) a := by
  rw [run_append]
  rfl

/-- The simulation rule: a relation kept by every pair of steps is kept by the runs. -/
theorem run_simulation {step : σ → α → σ} {step' : τ → α → τ} (R : σ → τ → Prop)
    (ops : List α) (hstep : ∀ a ∈ ops, ∀ s t, R s t → R (step s a) (step' t a)) {s : σ} {t : τ}
    (h : R s t) : R (run step s ops) (run step' t ops) := by
  induction ops generalizing s t with
  | nil => exact h
  | cons a ops ih =>
    apply ih
    · intro b hb
      exact hstep b (List.mem_cons_of_mem _ hb)
    · exact hstep a List.mem_cons_self s t h

/-- The invariant rule. -/
theorem run_invariant {step : σ → α → σ} (I : σ → Prop) (ops : List α)
    (hstep : ∀ a ∈ ops, ∀ s, I s → I (step s a)) {s : σ} (h : I s) : I (run step s ops) := by
  -- A run is simulated by the machine of one state whenever its invariant is kept.
  let idle : Unit → α → Unit := fun u _ => u
  have hsim : ∀ a ∈ ops, ∀ s (u : Unit), I s → I (step s a) := by
    intro a ha s _ hs
    exact hstep a ha s hs
  exact @run_simulation _ _ _ step idle (fun s _ => I s) ops hsim s () h

/-- The history rule: what every step keeps between the state and the operations taken
so far holds after every run. -/
theorem run_history {step : σ → α → σ} (R : σ → List α → Prop)
    (hstep : ∀ s before a, R s before → R (step s a) (before ++ [a])) {s : σ} (h : R s [])
    (ops : List α) : R (run step s ops) ops := by
  induction ops using List.reverseRecOn with
  | nil => exact h
  | append_singleton before a ih =>
    rw [run_concat]
    exact hstep _ _ _ ih

/-- The latest operation of a kind. -/
def latest (p : α → Bool) (ops : List α) : Option α := (ops.filter p).getLast?

@[simp] theorem latest_nil (p : α → Bool) : latest p [] = none := rfl

theorem latest_concat (p : α → Bool) (ops : List α) (a : α) :
    latest p (ops ++ [a]) = if p a then some a else latest p ops := by
  unfold latest
  rw [List.filter_append]
  cases h : p a with
  | true => simp [h]
  | false => simp [h]

theorem mem_of_latest {p : α → Bool} {ops : List α} {a : α} (h : latest p ops = some a) :
    a ∈ ops ∧ p a = true :=
  List.mem_filter.mp (List.mem_of_getLast? h)

/-- There is a latest operation of a kind as soon as there is one. -/
theorem exists_latest {p : α → Bool} {ops : List α} {a : α} (ha : a ∈ ops) (hp : p a = true) :
    ∃ b, latest p ops = some b :=
  ⟨_, List.getLast?_eq_some_getLast (List.ne_nil_of_mem (List.mem_filter.mpr ⟨ha, hp⟩))⟩

/-- The states a run passes through, its first and its last among them. -/
def Reached (step : σ → α → σ) (s : σ) (ops : List α) (s' : σ) : Prop :=
  ∃ before, before <+: ops ∧ run step s before = s'

theorem reached_run (step : σ → α → σ) (s : σ) (ops : List α) :
    Reached step s ops (run step s ops) :=
  ⟨ops, List.prefix_rfl, rfl⟩

theorem Reached.invariant {step : σ → α → σ} {I : σ → Prop} {s s' : σ} {ops : List α}
    (h : Reached step s ops s') (hstep : ∀ a ∈ ops, ∀ s, I s → I (step s a)) (hs : I s) :
    I s' := by
  obtain ⟨before, hb, rfl⟩ := h
  exact run_invariant I before (fun a ha => hstep a (hb.subset ha)) hs

/-- Every operation of the run is taken in a state that allows it. -/
def Meets (step : σ → α → σ) (P : σ → α → Prop) : σ → List α → Prop
  | _, [] => True
  | s, a :: ops => P s a ∧ Meets step P (step s a) ops

instance {step : σ → α → σ} {P : σ → α → Prop} [∀ s a, Decidable (P s a)] :
    (s : σ) → (ops : List α) → Decidable (Meets step P s ops)
  | _, [] => .isTrue trivial
  | s, a :: ops =>
      have : Decidable (Meets step P (step s a) ops) := instDecidableMeets (step s a) ops
      inferInstanceAs (Decidable (_ ∧ _))

theorem Meets.of_prefix {step : σ → α → σ} {P : σ → α → Prop} {s : σ} {before ops : List α}
    (h : Meets step P s ops) (hb : before <+: ops) : Meets step P s before := by
  induction before generalizing s ops with
  | nil => trivial
  | cons a before ih =>
    obtain ⟨rest, rfl⟩ := hb
    exact ⟨h.1, ih h.2 (List.prefix_append before rest)⟩

/-- The invariant rule where each operation may rely on what allowed it. -/
theorem Reached.invariant_of_meets {step : σ → α → σ} {P : σ → α → Prop} {I : σ → Prop}
    {s s' : σ} {ops : List α} (h : Reached step s ops s') (hm : Meets step P s ops)
    (hstep : ∀ s a, P s a → I s → I (step s a)) (hs : I s) : I s' := by
  obtain ⟨before, hb, rfl⟩ := h
  have hmb := hm.of_prefix hb
  clear hm hb
  induction before generalizing s with
  | nil => exact hs
  | cons a before ih => exact ih (hstep s a hmb.1 hs) hmb.2

/-- Every operation of a run is taken in one of the states reached. -/
theorem exists_reached_of_mem (step : σ → α → σ) (s : σ) {ops : List α} {a : α} (h : a ∈ ops) :
    ∃ s', Reached step s ops s' ∧ Reached step s ops (step s' a) := by
  obtain ⟨before, after, rfl⟩ := List.append_of_mem h
  have hp : before ++ [a] <+: before ++ a :: after := ⟨after, by simp⟩
  exact ⟨run step s before, ⟨before, List.prefix_append _ _, rfl⟩, before ++ [a], hp,
    run_concat step s before a⟩

end Runs
