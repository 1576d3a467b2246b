import Mathlib.Data.List.Basic
import Mathlib.Logic.Function.Basic

/-!
# Keys derived along a path

Every node of a tree of paths is given a key by applying a derivation function
level by level, labelled with the full path of the level. The key of a node
does not depend on how the walk to it is cut into pieces, and with an injective
derivation function only the genuine key of an ancestor leads to it.
-/
namespace KeyTree

variable {σ κ : Type}

/-- Walk from the node `base`, whose key is `k`, down the given segments. -/
def walk (kdf : List σ → κ → κ) (base : List σ) : List σ → κ → κ
  | [], k => k
  | g :: gs, k => walk kdf (base ++ [g]) gs (kdf (base ++ [g]) k)

theorem walk_append (kdf : List σ → κ → κ) (base gs hs : List σ) (k : κ) :
    walk kdf base (gs ++ hs) k = walk kdf (base ++ gs) hs (walk kdf base gs k) := by
  induction gs generalizing base k with
  | nil => simp [walk]
  | cons g gs ih => simp [walk, ih]

/-- A walk through an intermediate node is the walk to the end. -/
theorem walk_drop (kdf : List σ → κ → κ) {ps ms ts : List σ} (h : ps <+: ms) (h' : ms <+: ts)
    (k : κ) : walk kdf ms (ts.drop ms.length) (walk kdf ps (ms.drop ps.length) k) =
      walk kdf ps (ts.drop ps.length) k := by
  obtain ⟨gs, rfl⟩ := h
  obtain ⟨hs, rfl⟩ := h'
  rw [List.drop_left, List.drop_left, List.append_assoc, List.drop_left, walk_append]

/-- The loop that indexes the target path by depth is the walk. -/
theorem foldl_take_eq_walk (kdf : List σ → κ → κ) (base gs : List σ) (k : κ) :
    (List.range' base.length gs.length).foldl
      (fun key i => kdf ((base ++ gs).take (i + 1)) key) k = walk kdf base gs k := by
  induction gs generalizing base k with
  | nil => rfl
  | cons g gs ih =>
    have ht : (base ++ g :: gs).take (base.length + 1) = base ++ [g] := by
      simp [List.take_append, List.take_of_length_le (Nat.le_succ base.length)]
    have hs := ih (base ++ [g]) (kdf (base ++ [g]) k)
    rw [List.length_append, List.length_singleton, List.append_assoc, List.singleton_append] at hs
    rw [List.length_cons, List.range'_succ, List.foldl_cons, ht, hs]
    rfl

/-- Two keys that lead to the same key along the same walk are equal. -/
theorem walk_injective (kdf : List σ → κ → κ) (hk : ∀ p, Function.Injective (kdf p))
    (base gs : List σ) : Function.Injective (walk kdf base gs) := by
  induction gs generalizing base with
  | nil => exact Function.injective_id
  | cons g gs ih => exact (ih (base ++ [g])).comp (hk (base ++ [g]))

end KeyTree
