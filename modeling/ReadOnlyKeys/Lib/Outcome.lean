import Mathlib.Data.List.Forall2
import Mathlib.Data.List.Induction
import Mathlib.Control.Monad.Basic
import Mathlib.Order.Defs.Unbundled

/-!
# Calls that return, fail or panic

A call ends with a value, with an error it reports, or with a panic. The last
two are kept apart because a safety statement forbids panics and allows errors.
Inversion of a bind is stated once here, for plain calls and for calls that
thread a state.
-/
namespace Outcome

/-- How a call ends without a value. -/
inductive Fault (ε : Type) where
  | err (e : ε)
  | panic
  deriving DecidableEq, Repr

variable {ε α β σ : Type}

/-- Continue only if `p` holds, and report `e` otherwise. -/
def require (p : Prop) [Decidable p] (e : ε) : Except (Fault ε) Unit :=
  if p then .ok () else .error (.err e)

@[simp] theorem require_eq_ok_iff (p : Prop) [Decidable p] (e : ε) (u : Unit) :
    require p e = .ok u ↔ p := by
  by_cases h : p <;> simp [require, h]

@[simp] theorem require_ne_panic (p : Prop) [Decidable p] (e : ε) :
    require p e ≠ .error .panic := by
  by_cases h : p <;> simp [require, h]

@[simp] theorem require_of (p : Prop) [Decidable p] (e : ε) (h : p) : require p e = .ok () :=
  if_pos h

theorem require_eq_fail {p : Prop} [Decidable p] {e : ε} (h : ¬ p) :
    require p e = .error (.err e) := if_neg h

/-- `Option::ok_or`. -/
def okOr (x : Option α) (e : ε) : Except (Fault ε) α := x.elim (.error (.err e)) .ok

/-- `Option::unwrap`, and copies between slices whose lengths must agree. -/
def unwrap (x : Option α) : Except (Fault ε) α := x.elim (.error .panic) .ok

/-- `Result::map_err`. -/
def mapErr {δ : Type} (x : Except δ α) (f : δ → ε) : Except (Fault ε) α :=
  x.mapError (.err ∘ f)

@[simp] theorem okOr_some (a : α) (e : ε) : okOr (some a) e = .ok a := rfl

@[simp] theorem okOr_none (e : ε) : (okOr none e : Except (Fault ε) α) = .error (.err e) := rfl

@[simp] theorem unwrap_some (a : α) : (unwrap (some a) : Except (Fault ε) α) = .ok a := rfl

@[simp] theorem mapErr_ok {δ : Type} (a : α) (f : δ → ε) : mapErr (.ok a) f = .ok a := rfl

@[simp] theorem okOr_eq_ok_iff (x : Option α) (e : ε) (a : α) :
    okOr x e = .ok a ↔ x = some a := by
  cases x <;> simp [okOr]

theorem okOr_ne_panic (x : Option α) (e : ε) : okOr x e ≠ .error .panic := by
  cases x <;> simp

@[simp] theorem unwrap_eq_ok_iff (x : Option α) (a : α) :
    (unwrap x : Except (Fault ε) α) = .ok a ↔ x = some a := by
  cases x <;> simp [unwrap]

@[simp] theorem unwrap_eq_panic_iff (x : Option α) :
    (unwrap x : Except (Fault ε) α) = .error .panic ↔ x = none := by
  cases x <;> simp [unwrap]

theorem mapErr_ne_panic {δ : Type} (x : Except δ α) (f : δ → ε) :
    mapErr x f ≠ .error .panic := by
  cases x <;> simp [mapErr, Except.mapError]

@[simp] theorem mapErr_eq_ok_iff {δ : Type} (x : Except δ α) (f : δ → ε) (a : α) :
    mapErr x f = .ok a ↔ x = .ok a := by
  cases x <;> simp [mapErr, Except.mapError]

theorem bind_eq_ok_iff (x : Except ε α) (f : α → Except ε β) (b : β) :
    x >>= f = .ok b ↔ ∃ a, x = .ok a ∧ f a = .ok b := by
  cases x with
  | error e => simp [bind, Except.bind]
  | ok a => simp [bind, Except.bind]

theorem map_eq_ok_iff (x : Except ε α) (f : α → β) (b : β) :
    f <$> x = .ok b ↔ ∃ a, x = .ok a ∧ f a = b := by
  cases x with
  | error e => simp [Functor.map, Except.map]
  | ok a => simp [Functor.map, Except.map]

@[simp] theorem ok_bind (a : α) (f : α → Except ε β) : (.ok a : Except ε α) >>= f = f a := rfl

@[simp] theorem error_bind (e : ε) (f : α → Except ε β) :
    (.error e : Except ε α) >>= f = .error e := rfl

/-- A call whose value is used without another call fails as it does. -/
theorem bind_pure_eq_error_iff (x : Except ε α) (g : α → β) (e : ε) :
    (x >>= fun a => pure (g a)) = .error e ↔ x = .error e := by
  cases x with
  | error e' => simp
  | ok a => simp [pure, Except.pure]

/-- The only way a sequence of two calls panics. -/
theorem bind_eq_panic_iff (x : Except (Fault ε) α) (f : α → Except (Fault ε) β) :
    x >>= f = .error .panic ↔ x = .error .panic ∨ ∃ a, x = .ok a ∧ f a = .error .panic := by
  cases x with
  | error e => simp [bind, Except.bind]
  | ok a => simp [bind, Except.bind]

theorem run_bind_eq_ok_iff (p : StateT σ (Except ε) α) (q : α → StateT σ (Except ε) β)
    (s : σ) (b : β × σ) :
    (p >>= q).run s = .ok b ↔ ∃ a s', p.run s = .ok (a, s') ∧ (q a).run s' = .ok b := by
  rw [StateT.run_bind, bind_eq_ok_iff]
  simp only [Prod.exists]

theorem run_pure_eq_ok_iff (a b : α) (s s' : σ) :
    (pure a : StateT σ (Except ε) α).run s = .ok (b, s') ↔ a = b ∧ s = s' := by
  rw [StateT.run_pure]
  simp [pure, Except.pure]

/-- A call inside a stateful program that leaves the state alone. -/
def call (x : Except ε α) : StateT σ (Except ε) α := fun s => x.map (·, s)

@[simp] theorem call_run_ok (a : α) (s : σ) :
    (call (.ok a) : StateT σ (Except ε) α).run s = .ok (a, s) := rfl

@[simp] theorem call_run_error (e : ε) (s : σ) :
    (call (.error e) : StateT σ (Except ε) α).run s = .error e := rfl

theorem call_run_eq_ok_iff (x : Except ε α) (a : α) (s s' : σ) :
    (call x).run s = .ok (a, s') ↔ x = .ok a ∧ s = s' := by
  cases x with
  | error e => simp
  | ok v => simp

theorem run_bind_eq_panic_iff (p : StateT σ (Except (Fault ε)) α)
    (q : α → StateT σ (Except (Fault ε)) β) (s : σ) :
    (p >>= q).run s = .error .panic ↔
      p.run s = .error .panic ∨ ∃ a s', p.run s = .ok (a, s') ∧ (q a).run s' = .error .panic := by
  rw [StateT.run_bind, bind_eq_panic_iff]
  simp only [Prod.exists]

theorem run_pure_ne_panic (a : α) (s : σ) :
    (pure a : StateT σ (Except (Fault ε)) α).run s ≠ .error .panic := by
  rw [StateT.run_pure]
  simp [pure, Except.pure]

theorem call_run_eq_panic_iff (x : Except (Fault ε) α) (s : σ) :
    (call x).run s = .error .panic ↔ x = .error .panic := by
  cases x with
  | error e => simp
  | ok v => simp

/-- Running one call for every element relates the elements to the results, position by
position. -/
theorem run_mapM_forall₂ (f : α → StateT σ (Except ε) β) (R : α → β → Prop)
    (hf : ∀ a s b s', (f a).run s = .ok (b, s') → R a b) (as : List α) (s s' : σ) (bs : List β)
    (h : (as.mapM f).run s = .ok (bs, s')) : List.Forall₂ R as bs := by
  induction as generalizing s bs with
  | nil =>
    rw [List.mapM_nil, run_pure_eq_ok_iff] at h
    rw [← h.1]
    exact .nil
  | cons a as ih =>
    rw [List.mapM_cons, run_bind_eq_ok_iff] at h
    obtain ⟨b, s₁, hb, h⟩ := h
    rw [run_bind_eq_ok_iff] at h
    obtain ⟨tail, s₂, htail, h⟩ := h
    rw [run_pure_eq_ok_iff] at h
    rw [← h.1]
    exact .cons (hf a s b s₁ hb) (ih s₁ tail (by rw [htail, h.2]))

/-- A loop of calls that succeed in every state succeeds. -/
theorem run_mapM_exists {f : α → StateT σ (Except ε) β} {as : List α}
    (hf : ∀ a ∈ as, ∀ s, ∃ b s', (f a).run s = .ok (b, s')) (s : σ) :
    ∃ bs s', (as.mapM f).run s = .ok (bs, s') := by
  induction as generalizing s with
  | nil => exact ⟨[], s, rfl⟩
  | cons a as ih =>
    obtain ⟨b, s₁, hb⟩ := hf a List.mem_cons_self s
    obtain ⟨bs, s₂, hbs⟩ := ih (fun x hx => hf x (List.mem_cons_of_mem _ hx)) s₁
    refine ⟨b :: bs, s₂, ?_⟩
    rw [List.mapM_cons, StateT.run_bind, hb, ok_bind, StateT.run_bind, hbs]
    rfl

/-- A loop of calls that never panic does not panic. -/
theorem run_mapM_ne_panic {f : α → StateT σ (Except (Fault ε)) β} {as : List α}
    (hf : ∀ a ∈ as, ∀ s, (f a).run s ≠ .error .panic) (s : σ) :
    (as.mapM f).run s ≠ .error .panic := by
  induction as generalizing s with
  | nil =>
    intro h
    cases h
  | cons a as ih =>
    intro h
    rw [List.mapM_cons, StateT.run_bind, bind_eq_panic_iff] at h
    rcases h with h | ⟨⟨b, s₁⟩, _, h⟩
    · exact hf a List.mem_cons_self s h
    · rw [StateT.run_bind, bind_eq_panic_iff] at h
      rcases h with h | ⟨_, _, h⟩
      · exact ih (fun x hx => hf x (List.mem_cons_of_mem _ hx)) s₁ h
      · cases h

/-- Calls that all succeed give the list of their values. -/
theorem mapM_eq_ok {f : α → Except ε β} {g : α → β} {as : List α} (h : ∀ a ∈ as, f a = .ok (g a)) :
    as.mapM f = .ok (as.map g) := by
  induction as with
  | nil => rfl
  | cons a as ih =>
    rw [List.mapM_cons, h a List.mem_cons_self, ok_bind,
      ih fun x hx => h x (List.mem_cons_of_mem _ hx)]
    rfl

/-- A loop of calls that each undo a conversion undoes the conversion of a list. -/
theorem mapM_map_eq_ok {f : β → Except ε α} {g : α → β} {as : List α}
    (h : ∀ a ∈ as, f (g a) = .ok a) : (as.map g).mapM f = .ok as := by
  induction as with
  | nil => rfl
  | cons a as ih =>
    rw [List.map_cons, List.mapM_cons, h a List.mem_cons_self, ok_bind,
      ih fun x hx => h x (List.mem_cons_of_mem _ hx)]
    rfl

/-- A loop of calls that report no errors panics exactly when one of them does. -/
theorem mapM_eq_panic_iff {f : α → Except (Fault ε) β} {as : List α}
    (h : ∀ a ∈ as, ∀ e, f a ≠ .error (.err e)) :
    as.mapM f = .error .panic ↔ ∃ a ∈ as, f a = .error .panic := by
  induction as with
  | nil => simp [pure, Except.pure]
  | cons a as ih =>
    rw [List.mapM_cons, bind_eq_panic_iff]
    simp only [bind_eq_panic_iff, ih fun x hx => h x (List.mem_cons_of_mem _ hx),
      List.mem_cons, exists_eq_or_imp]
    constructor
    · intro hp
      rcases hp with hp | ⟨b, _, hp | ⟨bs, _, hp⟩⟩
      · exact .inl hp
      · exact .inr hp
      · cases hp
    · intro hp
      rcases hp with hp | hp
      · exact .inl hp
      · -- Where the first call does not panic it returns, and the loop goes on.
        cases hf : f a with
        | ok b => exact .inr ⟨b, rfl, .inl hp⟩
        | error fault =>
          cases fault with
          | err e => exact absurd hf (h a List.mem_cons_self e)
          | panic => exact .inl rfl

/-- A loop that succeeds has succeeded for every element. -/
theorem forall_of_mapM_eq_ok {f : α → Except ε β} {as : List α} {bs : List β}
    (h : as.mapM f = .ok bs) {a : α} (ha : a ∈ as) : ∃ b, f a = .ok b := by
  induction as generalizing bs with
  | nil => cases ha
  | cons x as ih =>
    rw [List.mapM_cons, bind_eq_ok_iff] at h
    obtain ⟨c, hc, h⟩ := h
    rw [bind_eq_ok_iff] at h
    obtain ⟨tail, htail, _⟩ := h
    rcases List.mem_cons.mp ha with rfl | ha
    · exact ⟨c, hc⟩
    · exact ih htail ha

/-- Each of the results is the result of one of the calls. -/
theorem exists_of_mapM_eq_ok {f : α → Except ε β} {as : List α} {bs : List β}
    (h : as.mapM f = .ok bs) {b : β} (hb : b ∈ bs) : ∃ a ∈ as, f a = .ok b := by
  induction as generalizing bs with
  | nil =>
    obtain rfl := Except.ok.inj h
    cases hb
  | cons a as ih =>
    rw [List.mapM_cons, bind_eq_ok_iff] at h
    obtain ⟨c, hc, h⟩ := h
    rw [bind_eq_ok_iff] at h
    obtain ⟨tail, htail, h⟩ := h
    obtain rfl := Except.ok.inj h
    rcases List.mem_cons.mp hb with rfl | hb
    · exact ⟨a, List.mem_cons_self, hc⟩
    · obtain ⟨x, hx, hfx⟩ := ih htail hb
      exact ⟨x, List.mem_cons_of_mem _ hx, hfx⟩

/-- The results are those of the calls, in order. -/
theorem forall₂_of_mapM_eq_ok {f : α → Except ε β} {as : List α} {bs : List β}
    (h : as.mapM f = .ok bs) : List.Forall₂ (fun a b => f a = .ok b) as bs := by
  induction as generalizing bs with
  | nil =>
    obtain rfl := Except.ok.inj h
    exact .nil
  | cons a as ih =>
    rw [List.mapM_cons, bind_eq_ok_iff] at h
    obtain ⟨b, hb, h⟩ := h
    rw [bind_eq_ok_iff] at h
    obtain ⟨rest, hrest, h⟩ := h
    obtain rfl := Except.ok.inj h
    exact .cons hb (ih hrest)

theorem exists_mem_of_forall₂ {R : α → β → Prop} {as : List α} {bs : List β}
    (h : List.Forall₂ R as bs) {b : β} (hb : b ∈ bs) : ∃ a ∈ as, R a b := by
  induction h with
  | nil => cases hb
  | cons hR _ ih =>
    rcases List.mem_cons.mp hb with rfl | hb
    · exact ⟨_, List.mem_cons_self, hR⟩
    · obtain ⟨a, ha, hab⟩ := ih hb
      exact ⟨a, List.mem_cons_of_mem _ ha, hab⟩

/-- `Result::map_err` on a call that may also panic. -/
def mapFault {δ : Type} (x : Except (Fault ε) α) (f : ε → δ) : Except (Fault δ) α :=
  x.mapError fun
    | .err e => .err (f e)
    | .panic => .panic

@[simp] theorem mapFault_ok {δ : Type} (a : α) (f : ε → δ) :
    mapFault (.ok a : Except (Fault ε) α) f = .ok a := rfl

@[simp] theorem mapFault_eq_ok_iff {δ : Type} (x : Except (Fault ε) α) (f : ε → δ) (a : α) :
    mapFault x f = .ok a ↔ x = .ok a := by
  cases x <;> simp [mapFault, Except.mapError]

@[simp] theorem mapFault_eq_panic_iff {δ : Type} (x : Except (Fault ε) α) (f : ε → δ) :
    mapFault x f = .error .panic ↔ x = .error .panic := by
  cases x with
  | ok a => simp
  | error fault => cases fault <;> simp [mapFault, Except.mapError]

/-- The call reports an error. -/
def IsErr (x : Except (Fault ε) α) : Prop := ∃ e, x = .error (.err e)

@[simp] theorem not_isErr_ok (a : α) : ¬ IsErr (.ok a : Except (Fault ε) α) := by simp [IsErr]

@[simp] theorem isErr_err (e : ε) : IsErr (.error (.err e) : Except (Fault ε) α) := ⟨e, rfl⟩

@[simp] theorem not_isErr_panic : ¬ IsErr (.error .panic : Except (Fault ε) α) := by simp [IsErr]

/-- Without a panic, what does not return a value reports an error. -/
theorem isErr_iff_of_ne_panic {x : Except (Fault ε) α} (h : x ≠ .error .panic) :
    IsErr x ↔ ∀ a, x ≠ .ok a := by
  cases x with
  | ok a => simp
  | error fault =>
    cases fault with
    | err e => simp
    | panic => exact absurd rfl h

@[simp] theorem isErr_mapFault_iff {δ : Type} (x : Except (Fault ε) α) (f : ε → δ) :
    IsErr (mapFault x f) ↔ IsErr x := by
  cases x with
  | ok a => simp
  | error fault => cases fault <;> simp [mapFault, Except.mapError]

/-- `Result::ok`. A panic goes on. -/
def ok? : Except (Fault ε) α → Except (Fault ε) (Option α)
  | .ok a => .ok (some a)
  | .error (.err _) => .ok none
  | .error .panic => .error .panic

/-- The outcome of a call as a value, for a caller that goes on after an error. A panic goes on. -/
def result {δ : Type} : Except (Fault ε) α → Except (Fault δ) (Except ε α)
  | .ok a => .ok (.ok a)
  | .error (.err e) => .ok (.error e)
  | .error .panic => .error .panic

/-- Without a panic there is a value, with the same success in it. -/
theorem exists_result {δ : Type} {x : Except (Fault ε) α} (h : x ≠ .error .panic) :
    ∃ y, (result x : Except (Fault δ) (Except ε α)) = .ok y ∧ y.toOption = x.toOption := by
  cases x with
  | ok a => exact ⟨.ok a, rfl, rfl⟩
  | error fault =>
    cases fault with
    | err e => exact ⟨.error e, rfl, rfl⟩
    | panic => exact absurd rfl h

/-- A program with effects that outlive its failure: a state is returned with every outcome. -/
abbrev Program (ε σ : Type) := ExceptT (Fault ε) (StateM σ)

namespace Program

/-- The outcome and the state after it. -/
def exec (p : Program ε σ α) (s : σ) : Except (Fault ε) α × σ := StateT.run (ExceptT.run p) s

/-- One effect on the state. -/
def effect (f : σ → Except (Fault ε) α × σ) : Program ε σ α := ExceptT.mk fun s => f s

/-- A call that does not touch the state. -/
def attempt (x : Except (Fault ε) α) : Program ε σ α := effect fun s => (x, s)

@[simp] theorem exec_effect (f : σ → Except (Fault ε) α × σ) (s : σ) : (effect f).exec s = f s := rfl

@[simp] theorem exec_attempt (x : Except (Fault ε) α) (s : σ) :
    (attempt x : Program ε σ α).exec s = (x, s) := rfl

@[simp] theorem exec_pure (a : α) (s : σ) : (pure a : Program ε σ α).exec s = (.ok a, s) := rfl

/-- A sequence goes on where its first part succeeded. -/
theorem exec_bind (p : Program ε σ α) (f : α → Program ε σ β) (s : σ) :
    (p >>= f).exec s = match p.exec s with
      | (.ok a, s') => (f a).exec s'
      | (.error e, s') => (.error e, s') := by
  cases h : p.exec s with
  | mk r s' =>
    have hr : p s = (r, s') := h
    simp only [exec, bind, ExceptT.bind, ExceptT.bindCont, ExceptT.mk, ExceptT.run, StateT.run,
      StateT.bind, hr]
    cases r <;> rfl

/-- A sequence ends with its second part where the first succeeds, or fails with the first. -/
theorem exec_bind_cases {p : Program ε σ α} {f : α → Program ε σ β} {s s' : σ}
    {r : Except (Fault ε) β} (h : (p >>= f).exec s = (r, s')) :
    (∃ a, (p.exec s).1 = .ok a ∧ (f a).exec (p.exec s).2 = (r, s')) ∨
      ∃ e, (p.exec s).1 = .error e ∧ .error e = r ∧ (p.exec s).2 = s' := by
  rw [exec_bind] at h
  cases hp : p.exec s with
  | mk x s₁ =>
    rw [hp] at h
    cases x with
    | ok a => exact .inl ⟨a, rfl, h⟩
    | error e =>
      obtain ⟨hr, hs⟩ := Prod.mk.inj h
      exact .inr ⟨e, rfl, hr, hs⟩

/-- A sequence that succeeds has succeeded twice. -/
theorem exec_bind_eq_ok_iff (p : Program ε σ α) (f : α → Program ε σ β) (s s' : σ) (b : β) :
    (p >>= f).exec s = (.ok b, s') ↔
      ∃ a s₁, p.exec s = (.ok a, s₁) ∧ (f a).exec s₁ = (.ok b, s') := by
  rw [exec_bind]
  cases p.exec s with
  | mk r s₁ => cases r <;> simp

theorem exec_attempt_eq_ok_iff (x : Except (Fault ε) α) (s s' : σ) (a : α) :
    (attempt x : Program ε σ α).exec s = (.ok a, s') ↔ x = .ok a ∧ s = s' := by
  rw [exec_attempt, Prod.mk.injEq]

/-- A sequence reports the error of its first part, or of its second where the first succeeds. -/
theorem isErr_exec_bind_iff (p : Program ε σ α) (f : α → Program ε σ β) (s : σ) :
    IsErr ((p >>= f).exec s).1 ↔
      IsErr (p.exec s).1 ∨ ∃ a s', p.exec s = (.ok a, s') ∧ IsErr ((f a).exec s').1 := by
  rw [exec_bind]
  cases p.exec s with
  | mk r s' =>
    cases r with
    | ok a => simp
    | error fault => cases fault <;> simp

/-- A program on the first part of a state. -/
def onFst {τ : Type} (p : Program ε σ α) : Program ε (σ × τ) α :=
  effect fun s => ((p.exec s.1).1, ((p.exec s.1).2, s.2))

@[simp] theorem exec_onFst {τ : Type} (p : Program ε σ α) (s : σ × τ) :
    (onFst p).exec s = ((p.exec s.1).1, ((p.exec s.1).2, s.2)) := rfl

/-- A program on a part of a state. -/
def within {τ : Type} (get : τ → σ) (put : σ → τ → τ) (p : Program ε σ α) : Program ε τ α :=
  effect fun t => ((p.exec (get t)).1, put (p.exec (get t)).2 t)

@[simp] theorem exec_within {τ : Type} (get : τ → σ) (put : σ → τ → τ) (p : Program ε σ α)
    (t : τ) : (within get put p).exec t = ((p.exec (get t)).1, put (p.exec (get t)).2 t) := rfl

/-- A program whose errors are reported as `f` of them. -/
def mapError {δ : Type} (p : Program ε σ α) (f : ε → δ) : Program δ σ α :=
  effect fun s => (mapFault (p.exec s).1 f, (p.exec s).2)

@[simp] theorem exec_mapError {δ : Type} (p : Program ε σ α) (f : ε → δ) (s : σ) :
    (p.mapError f).exec s = (mapFault (p.exec s).1 f, (p.exec s).2) := rfl

/-- A program with its error as a value. -/
def result {δ : Type} (p : Program ε σ α) : Program δ σ (Except ε α) :=
  effect fun s => (Outcome.result (p.exec s).1, (p.exec s).2)

@[simp] theorem exec_result {δ : Type} (p : Program ε σ α) (s : σ) :
    (p.result : Program δ σ (Except ε α)).exec s =
      (Outcome.result (p.exec s).1, (p.exec s).2) := rfl

theorem exec_attempt_bind (x : Except (Fault ε) α) (f : α → Program ε σ β) (s : σ) :
    (attempt x >>= f).exec s = match x with
      | .ok a => (f a).exec s
      | .error e => (.error e, s) := by
  rw [exec_bind, exec_attempt]
  cases x <;> rfl

@[simp] theorem exec_get (s : σ) : (get : Program ε σ σ).exec s = (.ok s, s) := rfl

@[simp] theorem exec_set (s s' : σ) : (set s' : Program ε σ PUnit).exec s = (.ok ⟨⟩, s') := rfl

@[simp] theorem exec_map (f : α → β) (p : Program ε σ α) (s : σ) :
    (f <$> p).exec s = ((p.exec s).1.map f, (p.exec s).2) := by
  rw [← bind_pure_comp, exec_bind]
  cases p.exec s with
  | mk r s' => cases r <;> rfl

/-- Calls that all succeed give one result each. -/
theorem length_of_exec_mapM {f : α → Program ε σ β} {as : List α} {bs : List β} {s s' : σ}
    (h : (as.mapM f).exec s = (.ok bs, s')) : bs.length = as.length := by
  induction as generalizing bs s s' with
  | nil =>
    obtain ⟨hbs, -⟩ := Prod.mk.inj h
    obtain rfl := Except.ok.inj hbs
    rfl
  | cons a as ih =>
    simp only [List.mapM_cons, exec_bind_eq_ok_iff, exec_pure, Prod.mk.injEq,
      Except.ok.injEq] at h
    obtain ⟨b, _, -, rest, _, hrest, rfl, -⟩ := h
    rw [List.length_cons, List.length_cons, ih hrest]

section Moves

/-- Whatever its outcome, the program leads from a state to one that `R` relates to it. -/
def Moves (R : σ → σ → Prop) (p : Program ε σ α) : Prop := ∀ s, R s (p.exec s).2

/-- What `f` sees of the states is the same. -/
def Same {τ : Type} (f : σ → τ) (s s' : σ) : Prop := f s' = f s

instance {τ : Type} (f : σ → τ) : IsPreorder σ (Same f) where
  refl _ := rfl
  trans _ _ _ h h' := Eq.trans h' h

variable {R : σ → σ → Prop} [IsPreorder σ R]

theorem moves_pure (a : α) : (pure a : Program ε σ α).Moves R := refl_of R

theorem moves_attempt (x : Except (Fault ε) α) : (attempt x : Program ε σ α).Moves R := refl_of R

theorem moves_get : (get : Program ε σ σ).Moves R := refl_of R

theorem Moves.bind {p : Program ε σ α} {g : α → Program ε σ β} (hp : p.Moves R)
    (hg : ∀ a, (g a).Moves R) : (p >>= g).Moves R := by
  intro s
  have hs := hp s
  rw [exec_bind]
  cases hexec : p.exec s with
  | mk r s' =>
    rw [hexec] at hs
    cases r with
    | ok a => exact trans_of R hs (hg a s')
    | error e => exact hs

theorem Moves.attempt_bind {x : Except (Fault ε) α} {g : α → Program ε σ β}
    (hg : ∀ a, x = .ok a → (g a).Moves R) : (attempt x >>= g).Moves R := by
  intro s
  rw [exec_attempt_bind]
  cases x with
  | ok a => exact hg a rfl s
  | error e => exact refl_of R s

theorem Moves.foldlM {g : β → α → Program ε σ β} {as : List α}
    (h : ∀ b, ∀ a ∈ as, (g b a).Moves R) (b : β) : (as.foldlM g b).Moves R := by
  induction as generalizing b with
  | nil => exact moves_pure b
  | cons a as ih =>
    rw [List.foldlM_cons]
    have hrest := ih fun b x hx => h b x (List.mem_cons_of_mem _ hx)
    exact (h b a List.mem_cons_self).bind hrest

omit [IsPreorder σ R]

theorem Moves.mono {R' : σ → σ → Prop} {p : Program ε σ α} (hp : p.Moves R)
    (h : ∀ s s', R s s' → R' s s') : p.Moves R' := fun s => h _ _ (hp s)

theorem Moves.map {p : Program ε σ α} (hp : p.Moves R) (g : α → β) : (g <$> p).Moves R := by
  intro s
  rw [exec_map]
  exact hp s

theorem Moves.mapError {δ : Type} {p : Program ε σ α} (hp : p.Moves R) (g : ε → δ) :
    (p.mapError g).Moves R := hp

theorem Moves.result {δ : Type} {p : Program ε σ α} (hp : p.Moves R) :
    (p.result : Program δ σ (Except ε α)).Moves R := hp

end Moves

/-- The second part of a loop runs where the first part succeeded. -/
theorem exec_forM_append (f : α → Program ε σ PUnit) (as bs : List α) (s : σ) :
    (forM (as ++ bs) f).exec s = match (forM as f).exec s with
      | (.ok _, s') => (forM bs f).exec s'
      | (.error e, s') => (.error e, s') := by
  rw [List.forM_append, exec_bind]
  cases (forM as f).exec s with
  | mk r s' => cases r <;> rfl

theorem exec_forM_cons (f : α → Program ε σ PUnit) (a : α) (as : List α) (s : σ) :
    (forM (a :: as) f).exec s = match (f a).exec s with
      | (.ok _, s') => (forM as f).exec s'
      | (.error e, s') => (.error e, s') := by
  rw [List.forM_cons, exec_bind]
  cases (f a).exec s with
  | mk r s' => cases r <;> rfl

/-- The loop rule: where every round succeeds and keeps the invariant of the elements done so
far, the loop succeeds and ends with the invariant of all of them. -/
theorem exec_forM_ok {f : α → Program ε σ PUnit} {as : List α} (I : List α → σ → Prop)
    (hstep : ∀ done a rest s, as = done ++ a :: rest → I done s →
      ∃ s', (f a).exec s = (.ok ⟨⟩, s') ∧ I (done ++ [a]) s') {s : σ} (h : I [] s) :
    ∃ s', (forM as f).exec s = (.ok ⟨⟩, s') ∧ I as s' := by
  induction as using List.reverseRecOn with
  | nil => exact ⟨s, rfl, h⟩
  | append_singleton as a ih =>
    obtain ⟨s₁, hs₁, hI⟩ := ih fun done b rest s hsplit => hstep done b (rest ++ [a]) s (by
      rw [hsplit, List.append_assoc, List.cons_append])
    obtain ⟨s₂, hs₂, hI₂⟩ := hstep as a [] s₁ rfl hI
    refine ⟨s₂, ?_, hI₂⟩
    simp only [exec_forM_append, hs₁, exec_forM_cons, hs₂]
    rfl

/-- The loop rule for a loop that carries a value. -/
theorem exec_foldlM_ok {f : β → α → Program ε σ β} {as : List α} (I : List α → β → σ → Prop)
    (hstep : ∀ done a b s, a ∈ as → I done b s →
      ∃ b' s', (f b a).exec s = (.ok b', s') ∧ I (done ++ [a]) b' s') {b : β} {s : σ}
    (h : I [] b s) : ∃ b' s', (as.foldlM f b).exec s = (.ok b', s') ∧ I as b' s' := by
  induction as using List.reverseRecOn with
  | nil => exact ⟨b, s, rfl, h⟩
  | append_singleton as a ih =>
    obtain ⟨b₁, s₁, hs₁, hI⟩ := ih fun done x b s hx =>
      hstep done x b s (List.mem_append_left _ hx)
    obtain ⟨b₂, s₂, hs₂, hI₂⟩ := hstep as a b₁ s₁ (by simp) hI
    refine ⟨b₂, s₂, ?_, hI₂⟩
    rw [List.foldlM_append, exec_bind, hs₁]
    simp only [List.foldlM_cons, List.foldlM_nil, bind_pure, hs₂]

end Program

end Outcome
