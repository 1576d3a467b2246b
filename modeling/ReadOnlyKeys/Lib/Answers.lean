import ReadOnlyKeys.Lib.Runs

/-!
# Machines that answer

A machine answers one call after another. A specification says which answers a
state allows and which state comes next. A machine that answers each call as the
specification allows does so in whole runs.
-/
namespace Answers

variable {σ τ Op : Type} {V : Op → Type}

/-- The calls of a run with their answers. -/
def history (exec : σ → (a : Op) → V a × σ) : σ → List Op → List (Σ a, V a)
  | _, [] => []
  | s, a :: ops => ⟨a, (exec s a).1⟩ :: history exec (exec s a).2 ops

/-- The specification allows these answers from one state to another. -/
def Allows (Spec : τ → (a : Op) → V a → τ → Prop) : τ → List (Σ a, V a) → τ → Prop
  | t, [], t' => t' = t
  | t, ⟨a, v⟩ :: rest, t' => ∃ u, Spec t a v u ∧ Allows Spec u rest t'

/-- The simulation rule for answers, where each call may rely on what allowed it. -/
theorem exists_allows {exec : σ → (a : Op) → V a × σ} {Spec : τ → (a : Op) → V a → τ → Prop}
    {P : σ → Op → Prop} (R : σ → τ → Prop)
    (hstep : ∀ s t a, P s a → R s t → ∃ t', Spec t a (exec s a).1 t' ∧ R (exec s a).2 t')
    {s : σ} {t : τ} (h : R s t) {ops : List Op}
    (hops : Runs.Meets (fun s a => (exec s a).2) P s ops) :
    ∃ t', Allows Spec t (history exec s ops) t' ∧
      R (Runs.run (fun s a => (exec s a).2) s ops) t' := by
  induction ops generalizing s t with
  | nil => exact ⟨t, rfl, h⟩
  | cons a ops ih =>
    obtain ⟨u, hspec, hu⟩ := hstep s t a hops.1 h
    obtain ⟨t', hallows, ht'⟩ := ih hu hops.2
    exact ⟨t', ⟨u, hspec, hallows⟩, ht'⟩

/-- What the specification says of every answer by itself. -/
theorem Allows.forall_mem {Spec : τ → (a : Op) → V a → τ → Prop} {Q : (a : Op) → V a → Prop}
    (hQ : ∀ t a v t', Spec t a v t' → Q a v) {t t' : τ} {answers : List (Σ a, V a)}
    (h : Allows Spec t answers t') : ∀ x ∈ answers, Q x.1 x.2 := by
  induction answers generalizing t with
  | nil => exact nofun
  | cons y answers ih =>
    obtain ⟨u, hspec, hrest⟩ := h
    intro x hx
    rcases List.mem_cons.mp hx with rfl | hx
    · exact hQ _ _ _ _ hspec
    · exact ih hrest x hx

end Answers
