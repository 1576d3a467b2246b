import ReadOnlyKeys.Lib.Runs
import Mathlib.Data.List.Basic

/-!
# Clients that share a server

A call asks the server one request after another and goes on from each reply.
The calls of all clients take turns request by request, and the environment
decides what becomes of each request. An invariant has a part for every call:
serving one call must establish its own part and keep those of the others.
-/
namespace Requests

/-- What is left of a call: its value, or its next request and how it goes on. -/
inductive Dialog {Q : Type} (R : Q → Type) (α : Type) where
  | done (a : α)
  | ask (q : Q) (next : R q → Dialog R α)

variable {Q : Type} {R : Q → Type} {α β Φ σ Op : Type}

namespace Dialog

def bind : Dialog R α → (α → Dialog R β) → Dialog R β
  | done a, f => f a
  | ask q next, f => ask q fun r => (next r).bind f

instance : Monad (Dialog R) where
  pure := done
  bind := bind

theorem bind_done (d : Dialog R α) : d.bind done = d := by
  induction d with
  | done a => rfl
  | ask q next ih => simp only [bind, ih]

theorem bind_assoc {γ : Type} (d : Dialog R α) (f : α → Dialog R β) (g : β → Dialog R γ) :
    (d.bind f).bind g = d.bind fun a => (f a).bind g := by
  induction d with
  | done a => rfl
  | ask q next ih => simp only [bind, ih]

instance : LawfulMonad (Dialog R) :=
  LawfulMonad.mk' _ bind_done (fun _ _ => rfl) bind_assoc

/-- One request, for its reply. -/
def request (q : Q) : Dialog R (R q) := ask q done

def value? : Dialog R α → Option α
  | done a => some a
  | ask _ _ => none

def request? : Dialog R α → Option Q
  | done _ => none
  | ask q _ => some q

/-- The value of the call when the requests have these replies. -/
def answeredBy (replies : (q : Q) → R q) : Dialog R α → α
  | done a => a
  | ask q next => (next (replies q)).answeredBy replies

/-- The call with the server to itself. The environment decides on one request after
another. -/
def alone (serve : Φ → (q : Q) → σ → R q × σ) : Dialog R α → (ℕ → Φ) → σ → α × σ
  | done a, _, s => (a, s)
  | ask q next, env, s =>
      (next (serve (env 0) q s).1).alone serve (fun n => env (n + 1)) (serve (env 0) q s).2

end Dialog

/-- A call that has begun. -/
structure Call {Q : Type} (R : Q → Type) (Op α : Type) where
  op : Op
  rest : Dialog R α

/-- The server, and the calls in the order they began. -/
structure System {Q : Type} (R : Q → Type) (Op α σ : Type) where
  server : σ
  calls : List (Call R Op α)

/-- A client begins a call, or the next request of a call reaches the server. -/
inductive Event (Op Φ : Type) where
  | start (op : Op)
  | serve (i : ℕ) (env : Φ)

namespace System

/-- The operations that have begun, in their order. -/
def ops (s : System R Op α σ) : List Op := s.calls.map Call.op

/-- The operation of a call and the request it waits for. -/
def pending (s : System R Op α σ) (i : ℕ) : Option (Op × Q) :=
  s.calls[i]?.bind fun c => c.rest.request?.map fun q => (c.op, q)

variable (program : Op → Dialog R α) (serve : Φ → (q : Q) → σ → R q × σ)

def step (s : System R Op α σ) : Event Op Φ → System R Op α σ
  | .start op => { s with calls := s.calls ++ [⟨op, program op⟩] }
  | .serve i env =>
    match s.calls[i]? with
    | some ⟨op, .ask q next⟩ =>
      { server := (serve env q s.server).2
        calls := s.calls.set i ⟨op, next (serve env q s.server).1⟩ }
    | _ => s

/-- What a step can do: a call is added, one request of a call is served, or nothing. -/
theorem step_cases (s : System R Op α σ) (e : Event Op Φ) :
    (∃ op, e = .start op ∧
      s.step program serve e = { s with calls := s.calls ++ [⟨op, program op⟩] }) ∨
    (∃ i env op q next, e = .serve i env ∧ s.calls[i]? = some ⟨op, .ask q next⟩ ∧
      s.step program serve e =
        { server := (serve env q s.server).2
          calls := s.calls.set i ⟨op, next (serve env q s.server).1⟩ }) ∨
    s.step program serve e = s := by
  cases e with
  | start op => exact .inl ⟨op, rfl, rfl⟩
  | serve i env =>
    right
    cases hc : s.calls[i]? with
    | none =>
      right
      simp only [step, hc]
    | some c =>
      obtain ⟨op, rest⟩ := c
      cases rest with
      | done a =>
        right
        simp only [step, hc]
      | ask q next =>
        left
        refine ⟨i, env, op, q, next, rfl, hc, ?_⟩
        simp only [step, hc]

theorem ops_set {s : System R Op α σ} {i : ℕ} {op : Op} {d : Dialog R α}
    (hi : s.calls[i]? = some ⟨op, d⟩) (d' : Dialog R α) (t : σ) :
    ops ⟨t, s.calls.set i ⟨op, d'⟩⟩ = s.ops := by
  obtain ⟨hlt, hget⟩ := List.getElem?_eq_some_iff.mp hi
  have hlt' : i < (s.calls.map Call.op).length := by rwa [List.length_map]
  have hold : (s.calls.map Call.op)[i] = op := by rw [List.getElem_map, hget]
  show (s.calls.set i ⟨op, d'⟩).map Call.op = s.calls.map Call.op
  rw [List.map_set]
  show (s.calls.map Call.op).set i op = _
  rw [← hold, List.set_getElem_self]

/-- The operations only grow, by those that start. -/
theorem ops_step (s : System R Op α σ) (e : Event Op Φ) :
    (∃ op, e = .start op ∧ (s.step program serve e).ops = s.ops ++ [op]) ∨
      (s.step program serve e).ops = s.ops := by
  rcases s.step_cases program serve e with ⟨op, rfl, hs⟩ | ⟨i, env, op, q, next, rfl, hi, hs⟩ | hs
  · exact .inl ⟨op, rfl, by rw [hs, ops, List.map_append]; rfl⟩
  · rw [hs]
    exact .inr (ops_set hi _ _)
  · rw [hs]
    exact .inr rfl

/-- The calls after a position. -/
lemma mem_drop_of_getElem? {l : List α} {i j : ℕ} {a : α} (h : l[j]? = some a) (hij : i < j) :
    a ∈ l.drop (i + 1) := by
  have hget : (l.drop (i + 1))[j - (i + 1)]? = some a := by
    rw [List.getElem?_drop, ← h]
    congr 1
    omega
  exact List.mem_of_getElem? hget

lemma mem_ops_drop {s : System R Op α σ} {i j : ℕ} {c : Call R Op α} (h : s.calls[j]? = some c)
    (hij : i < j) : c.op ∈ s.ops.drop (i + 1) := by
  refine mem_drop_of_getElem? ?_ hij
  rw [ops, List.getElem?_map, h]
  rfl

/-- After a call was added, a call is an old one or the one added. -/
lemma getElem?_concat_cases {l : List α} {a b : α} {j : ℕ} (h : (l ++ [a])[j]? = some b) :
    l[j]? = some b ∨ j = l.length ∧ b = a := by
  rcases Nat.lt_trichotomy j l.length with hj | rfl | hj
  · rw [List.getElem?_append_left hj] at h
    exact .inl h
  · rw [List.getElem?_concat_length] at h
    exact .inr ⟨rfl, (Option.some.inj h).symm⟩
  · rw [List.getElem?_eq_none (by simp; omega)] at h
    cases h

/-- What holds of every call. -/
def ForallCalls (J : System R Op α σ → ℕ → Call R Op α → Prop) (s : System R Op α σ) : Prop :=
  ∀ i c, s.calls[i]? = some c → J s i c

/-- The rule of non-interference: a step keeps what holds of every call if it holds of the call
that the step is about and no other call loses it. -/
theorem ForallCalls.step {J : System R Op α σ → ℕ → Call R Op α → Prop}
    {program : Op → Dialog R α} {serve : Φ → (q : Q) → σ → R q × σ} {s : System R Op α σ}
    {e : Event Op Φ} (h : ForallCalls J s)
    (hstart : ∀ op, e = .start op →
      let s' : System R Op α σ := { s with calls := s.calls ++ [⟨op, program op⟩] }
      J s' s.calls.length ⟨op, program op⟩ ∧ ∀ k c, s.calls[k]? = some c → J s k c → J s' k c)
    (hserve : ∀ i env op q next, e = .serve i env → s.calls[i]? = some ⟨op, .ask q next⟩ →
      let c' : Call R Op α := ⟨op, next (serve env q s.server).1⟩
      let s' : System R Op α σ := ⟨(serve env q s.server).2, s.calls.set i c'⟩
      J s' i c' ∧ ∀ k c, k ≠ i → s.calls[k]? = some c → J s k c → J s' k c) :
    ForallCalls J (s.step program serve e) := by
  rcases s.step_cases program serve e with ⟨op, rfl, hs⟩ | ⟨i, env, op, q, next, rfl, hi, hs⟩ | hs
  · obtain ⟨hnew, hold⟩ := hstart op rfl
    rw [hs]
    intro k c hc
    rcases getElem?_concat_cases hc with hc | ⟨rfl, rfl⟩
    · exact hold k c hc (h k c hc)
    · exact hnew
  · obtain ⟨hown, hothers⟩ := hserve i env op q next rfl hi
    rw [hs]
    intro k c hc
    by_cases hk : k = i
    · subst hk
      rw [List.getElem?_set_self (List.getElem?_eq_some_iff.mp hi).1] at hc
      rw [← Option.some.inj hc]
      exact hown
    · rw [List.getElem?_set_ne (Ne.symm hk)] at hc
      exact hothers k c hk hc (h k c hc)
  · rw [hs]
    exact h

end System
end Requests
