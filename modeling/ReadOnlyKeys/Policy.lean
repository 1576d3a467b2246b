import ReadOnlyKeys.Keys
import ReadOnlyKeys.ScopeTree
import ReadOnlyKeys.Transparent
import ReadOnlyKeys.Lib.Radix
import ReadOnlyKeys.Lib.Runs
import Mathlib.Data.List.Destutter
import Mathlib.Data.List.Sort
import Mathlib.Data.String.Basic

/-!
# Access policies

A policy maps scopes to the keys that are granted access there and below. All
keys granted at one scope share a rule, and the rule has one time of expiry,
which is set when the rule is made.
-/
namespace ReadOnlyKeys
open Outcome Wire

variable {A : ℕ → Type} [ByteArrays A]

/-- A single access rule. -/
structure AccessRule where
  scope : List Char
  recipientKeyIds : List String
  expiresAt : Option ℕ
  deriving DecidableEq

structure AccessPolicy where
  rules : List AccessRule

namespace AccessRule

/-- `now > expires`. -/
def expired (self : AccessRule) (now : ℕ) : Bool := self.expiresAt.any (· < now)

def addKey (key : String) (self : AccessRule) : AccessRule :=
  if key ∈ self.recipientKeyIds then self
  else { self with recipientKeyIds := self.recipientKeyIds ++ [key] }

def removeKey (key : String) (self : AccessRule) : AccessRule :=
  { self with recipientKeyIds := self.recipientKeyIds.filter (· ≠ key) }

theorem expired_eq_false_iff (self : AccessRule) (now : ℕ) :
    self.expired now = false ↔ ∀ t ∈ self.expiresAt, now ≤ t := by
  cases he : self.expiresAt with
  | none => simp [expired, he]
  | some t => simp [expired, he]

@[simp] theorem addKey_scope (key : String) (r : AccessRule) : (r.addKey key).scope = r.scope := by
  unfold addKey
  split <;> rfl

@[simp] theorem addKey_expiresAt (key : String) (r : AccessRule) :
    (r.addKey key).expiresAt = r.expiresAt := by
  unfold addKey
  split <;> rfl

theorem mem_addKey (key s : String) (r : AccessRule) :
    s ∈ (r.addKey key).recipientKeyIds ↔ s = key ∨ s ∈ r.recipientKeyIds := by
  unfold addKey
  split_ifs with h
  · constructor
    · exact .inr
    · intro hs
      rcases hs with rfl | hs
      · exact h
      · exact hs
  · rw [List.mem_append, List.mem_singleton, or_comm]

@[simp] theorem removeKey_scope (key : String) (r : AccessRule) :
    (r.removeKey key).scope = r.scope := rfl

theorem mem_removeKey (key s : String) (r : AccessRule) :
    s ∈ (r.removeKey key).recipientKeyIds ↔ s ∈ r.recipientKeyIds ∧ s ≠ key := by
  simp [removeKey]

end AccessRule

namespace AccessPolicy

def new : AccessPolicy := ⟨[]⟩

/-- Change the first rule at a scope, if there is one. -/
def modifyRule (scope : List Char) (f : AccessRule → AccessRule) :
    List AccessRule → Option (List AccessRule)
  | [] => none
  | r :: rules =>
    if r.scope = scope then some (f r :: rules) else (modifyRule scope f rules).map (r :: ·)

section Operations

variable (C : Crypto A)

/-- Grant access at a scope to a recipient key. -/
def grant (self : AccessPolicy) (scope : Scope) (keyId : KeyId A) (expiresAt : Option ℕ) :
    AccessPolicy :=
  let keyStr := keyId.toBase58 C
  match modifyRule scope.path (AccessRule.addKey keyStr) self.rules with
  | some rules => ⟨rules⟩
  | none => ⟨self.rules ++
      [{ scope := scope.path, recipientKeyIds := [keyStr], expiresAt := expiresAt }]⟩

/-- Revoke a key's access at a scope. -/
def revoke (self : AccessPolicy) (scope : Scope) (keyId : KeyId A) : AccessPolicy :=
  let keyStr := keyId.toBase58 C
  ⟨(modifyRule scope.path (AccessRule.removeKey keyStr) self.rules).getD self.rules⟩

end Operations

/-- All recipient key identifiers for a scope, from its rule and those of its
ancestors, at the time `now`. -/
def keyIdsForScope (self : AccessPolicy) (now : ℕ) (scope : Scope) : List String :=
  let result := self.rules.flatMap fun rule =>
    match Scope.new rule.scope with
    | .ok ruleScope =>
      if (ruleScope.isAncestorOf scope || rule.scope = scope.path) && !rule.expired now then
        rule.recipientKeyIds
      else []
    | .error _ => []
  -- `sort` and then `dedup`, which drops repetitions of the element before
  (result.mergeSort (· ≤ ·)).destutter (· ≠ ·)

/-- A sorted list without neighbours that are equal is sorted strictly. -/
lemma sort_dedup (l : List String) :
    ((l.mergeSort (· ≤ ·)).destutter (· ≠ ·)).Pairwise (· < ·) ∧
      ∀ s, s ∈ (l.mergeSort (· ≤ ·)).destutter (· ≠ ·) ↔ s ∈ l := by
  have hle : (l.mergeSort (· ≤ ·)).Pairwise (· ≤ ·) := List.pairwise_mergeSort' (· ≤ ·) l
  rw [hle.destutter_eq_dedup]
  constructor
  · have hsub := hle.sublist (List.dedup_sublist _)
    exact (hsub.and (List.nodup_dedup _)).imp fun h => lt_of_le_of_ne h.1 h.2
  · intro s
    rw [List.mem_dedup, List.mem_mergeSort]

theorem keyIdsForScope_sorted (self : AccessPolicy) (now : ℕ) (scope : Scope) :
    (self.keyIdsForScope now scope).Pairwise (· < ·) := (sort_dedup _).1

/-- What is reported stands in a rule that has not expired, at a valid scope that is the asked one or
an ancestor. -/
theorem mem_keyIdsForScope (self : AccessPolicy) (now : ℕ) (T : Scope) (s : String) :
    s ∈ self.keyIdsForScope now T ↔ ∃ rule ∈ self.rules, Scope.Valid ⟨rule.scope⟩ ∧
      Scope.isAncestorOf ⟨rule.scope⟩ T = true ∧ rule.expired now = false ∧
      s ∈ rule.recipientKeyIds := by
  rw [keyIdsForScope, (sort_dedup _).2, List.mem_flatMap]
  apply exists_congr
  intro rule
  apply and_congr_right
  intro _
  constructor
  · intro h
    cases hn : Scope.new rule.scope with
    | error e =>
      rw [hn] at h
      cases h
    | ok v =>
      obtain ⟨rfl, hv⟩ := (Scope.new_eq_ok_iff _ _).mp hn
      rw [hn] at h
      simp only [Bool.and_eq_true, Bool.or_eq_true, decide_eq_true_eq,
        Bool.not_eq_true'] at h
      split_ifs at h with hc
      · refine ⟨hv, ?_, hc.2, h⟩
        rcases hc.1 with ha | ha
        · exact ha
        · rw [show (⟨rule.scope⟩ : Scope) = T from Scope.ext ha]
          exact T.isAncestorOf_self
      · cases h
  · intro h
    obtain ⟨hv, ha, he, hs⟩ := h
    have hn : Scope.new rule.scope = .ok ⟨rule.scope⟩ := (Scope.new_eq_ok_iff _ _).mpr ⟨rfl, hv⟩
    rw [hn]
    simp only [ha, he, Bool.true_or, Bool.not_false, Bool.and_true, if_true]
    exact hs

/-- The rule that a change at a scope would find. -/
def ruleAt (self : AccessPolicy) (scope : List Char) : Option AccessRule :=
  self.rules.find? (·.scope = scope)

lemma modifyRule_eq_none {scope : List Char} {f : AccessRule → AccessRule}
    {rules : List AccessRule} (h : modifyRule scope f rules = none) :
    ∀ r ∈ rules, r.scope ≠ scope := by
  induction rules with
  | nil => simp
  | cons r rules ih =>
    unfold modifyRule at h
    split_ifs at h with hr
    rw [Option.map_eq_none_iff] at h
    intro x hx
    rcases List.mem_cons.mp hx with rfl | hx
    · exact hr
    · exact ih h x hx

/-- A change of the rule at one scope is seen there only. -/
lemma modifyRule_eq_some {scope : List Char} {f : AccessRule → AccessRule}
    (hf : ∀ r, (f r).scope = r.scope) {rules rules' : List AccessRule}
    (h : modifyRule scope f rules = some rules') :
    rules'.map (·.scope) = rules.map (·.scope) ∧
      (∃ r, rules.find? (·.scope = scope) = some r ∧ rules'.find? (·.scope = scope) = some (f r)) ∧
      ∀ t, t ≠ scope → rules'.find? (·.scope = t) = rules.find? (·.scope = t) := by
  induction rules generalizing rules' with
  | nil => cases h
  | cons r rules ih =>
    unfold modifyRule at h
    split_ifs at h with hr
    · obtain rfl := Option.some.inj h
      refine ⟨by simp [hf], ⟨r, by simp [hr], by simp [hf, hr]⟩, fun t ht => ?_⟩
      have hne : r.scope ≠ t := fun he => ht (he.symm.trans hr)
      simp [hf, hne]
    · obtain ⟨tail, ht, rfl⟩ := Option.map_eq_some_iff.mp h
      obtain ⟨hmap, ⟨x, hx, hx'⟩, hother⟩ := ih ht
      refine ⟨by simp [hmap], ⟨x, by simp [hr, hx], by simp [hr, hx']⟩, fun t ht => ?_⟩
      by_cases hrt : r.scope = t
      · simp [hrt]
      · simp [hrt, hother t ht]

/-- Rules have different scopes. -/
structure WellFormed (policy : AccessPolicy) : Prop where
  nodup : (policy.rules.map (·.scope)).Nodup

theorem WellFormed.ruleAt_eq_some_iff {self : AccessPolicy} (h : self.WellFormed)
    (scope : List Char) (r : AccessRule) :
    self.ruleAt scope = some r ↔ r ∈ self.rules ∧ r.scope = scope := by
  unfold ruleAt
  constructor
  · intro hr
    exact ⟨List.mem_of_find?_eq_some hr, by simpa using List.find?_some hr⟩
  · intro hr
    obtain ⟨hm, rfl⟩ := hr
    cases hf : self.rules.find? (·.scope = r.scope) with
    | none =>
      have hn := List.find?_eq_none.mp hf r hm
      simp at hn
    | some x =>
      have hx : x.scope = r.scope := by simpa using List.find?_some hf
      rw [List.inj_on_of_nodup_map h.nodup (List.mem_of_find?_eq_some hf) hm hx]

section Operations

variable (C : Crypto A)

lemma grant_of_some {self : AccessPolicy} {scope : Scope} {k : KeyId A} {rules : List AccessRule}
    (e : Option ℕ)
    (h : modifyRule scope.path (AccessRule.addKey (k.toBase58 C)) self.rules = some rules) :
    self.grant C scope k e = ⟨rules⟩ := by
  simp only [grant, h]

lemma grant_of_none {self : AccessPolicy} {scope : Scope} {k : KeyId A} (e : Option ℕ)
    (h : modifyRule scope.path (AccessRule.addKey (k.toBase58 C)) self.rules = none) :
    self.grant C scope k e = ⟨self.rules ++ [⟨scope.path, [k.toBase58 C], e⟩]⟩ := by
  simp only [grant, h]

lemma revoke_of_some {self : AccessPolicy} {scope : Scope} {k : KeyId A} {rules : List AccessRule}
    (h : modifyRule scope.path (AccessRule.removeKey (k.toBase58 C)) self.rules = some rules) :
    self.revoke C scope k = ⟨rules⟩ := by
  simp only [revoke, h, Option.getD_some]

lemma revoke_of_none {self : AccessPolicy} {scope : Scope} {k : KeyId A}
    (h : modifyRule scope.path (AccessRule.removeKey (k.toBase58 C)) self.rules = none) :
    self.revoke C scope k = self := by
  simp only [revoke, h, Option.getD_none]

lemma ruleAt_eq_none {self : AccessPolicy} {scope : List Char} {f : AccessRule → AccessRule}
    (h : modifyRule scope f self.rules = none) : self.ruleAt scope = none := by
  rw [ruleAt, List.find?_eq_none]
  intro r hr
  simpa using modifyRule_eq_none h r hr

lemma path_ne {u v : Scope} (h : u ≠ v) : v.path ≠ u.path :=
  fun hp => h (Scope.ext hp.symm)

/-- What a grant does to the rules: it adds to the rule at its scope, or makes one. -/
theorem ruleAt_grant (self : AccessPolicy) (u v : Scope) (k : KeyId A) (e : Option ℕ) :
    (self.grant C u k e).ruleAt v.path =
      if u = v then
        some ((self.ruleAt u.path).elim ⟨u.path, [k.toBase58 C], e⟩
          (AccessRule.addKey (k.toBase58 C)))
      else self.ruleAt v.path := by
  cases hm : modifyRule u.path (AccessRule.addKey (k.toBase58 C)) self.rules with
  | none =>
    have hnone := ruleAt_eq_none hm
    rw [grant_of_none C e hm]
    by_cases huv : u = v
    · subst huv
      rw [if_pos rfl, hnone]
      unfold ruleAt at hnone ⊢
      rw [List.find?_append, hnone]
      simp
    · rw [if_neg huv]
      unfold ruleAt
      rw [List.find?_append]
      simp [Ne.symm (path_ne huv)]
  | some rules =>
    obtain ⟨_, ⟨r, hr, hr'⟩, hother⟩ := modifyRule_eq_some (AccessRule.addKey_scope _) hm
    rw [grant_of_some C e hm]
    by_cases huv : u = v
    · subst huv
      rw [if_pos rfl, show self.ruleAt u.path = some r from hr]
      exact hr'
    · rw [if_neg huv]
      exact hother _ (path_ne huv)

/-- What a revocation does to the rules. -/
theorem ruleAt_revoke (self : AccessPolicy) (u v : Scope) (k : KeyId A) :
    (self.revoke C u k).ruleAt v.path =
      if u = v then (self.ruleAt u.path).map (AccessRule.removeKey (k.toBase58 C))
      else self.ruleAt v.path := by
  cases hm : modifyRule u.path (AccessRule.removeKey (k.toBase58 C)) self.rules with
  | none =>
    have hnone := ruleAt_eq_none hm
    rw [revoke_of_none C hm]
    by_cases huv : u = v
    · subst huv
      rw [if_pos rfl, hnone]
      rfl
    · rw [if_neg huv]
  | some rules =>
    obtain ⟨_, ⟨r, hr, hr'⟩, hother⟩ := modifyRule_eq_some (AccessRule.removeKey_scope _) hm
    rw [revoke_of_some C hm]
    by_cases huv : u = v
    · subst huv
      rw [if_pos rfl, show self.ruleAt u.path = some r from hr]
      exact hr'
    · rw [if_neg huv]
      exact hother _ (path_ne huv)

theorem WellFormed.grant {self : AccessPolicy} (h : self.WellFormed) (u : Scope)
    (k : KeyId A) (e : Option ℕ) : (self.grant C u k e).WellFormed := by
  cases hm : modifyRule u.path (AccessRule.addKey (k.toBase58 C)) self.rules with
  | none =>
    have hnew : u.path ∉ self.rules.map (·.scope) := by
      intro hu
      obtain ⟨r, hr, hs⟩ := List.mem_map.mp hu
      exact modifyRule_eq_none hm r hr hs
    rw [grant_of_none C e hm]
    constructor
    rw [List.map_append, List.map_singleton, List.nodup_append_comm, List.singleton_append,
      List.nodup_cons]
    exact ⟨hnew, h.nodup⟩
  | some rules =>
    have hmap := (modifyRule_eq_some (AccessRule.addKey_scope _) hm).1
    rw [grant_of_some C e hm]
    exact ⟨hmap ▸ h.nodup⟩

theorem WellFormed.revoke {self : AccessPolicy} (h : self.WellFormed) (u : Scope)
    (k : KeyId A) : (self.revoke C u k).WellFormed := by
  cases hm : modifyRule u.path (AccessRule.removeKey (k.toBase58 C)) self.rules with
  | none =>
    rw [revoke_of_none C hm]
    exact h
  | some rules =>
    have hmap := (modifyRule_eq_some (AccessRule.removeKey_scope _) hm).1
    rw [revoke_of_some C hm]
    exact ⟨hmap ▸ h.nodup⟩

end Operations

/-- A call that changes the policy. -/
inductive Op (A : ℕ → Type) where
  | grant (scope : Scope) (keyId : KeyId A) (expiresAt : Option ℕ)
  | revoke (scope : Scope) (keyId : KeyId A)

/-- The policy after a call. -/
def step (C : Crypto A) (self : AccessPolicy) : Op A → AccessPolicy
  | .grant scope keyId expiresAt => self.grant C scope keyId expiresAt
  | .revoke scope keyId => self.revoke C scope keyId

namespace Op

/-- The call is about a key at a scope. -/
def about (u : Scope) (k : KeyId A) : Op A → Bool
  | .grant v l _ => v = u ∧ l = k
  | .revoke v l => v = u ∧ l = k

/-- The expiry of a grant at a scope. -/
def expiryAt (u : Scope) : Op A → Option (Option ℕ)
  | .grant v _ e => if v = u then some e else none
  | .revoke _ _ => none

end Op

/-- The latest call about a key at a scope. -/
def lastCall (ops : List (Op A)) (u : Scope) (k : KeyId A) : Option (Op A) :=
  (ops.filter (·.about u k)).getLast?

/-- The expiry of the first grant at a scope. -/
def firstExpiry (ops : List (Op A)) (u : Scope) : Option (Option ℕ) :=
  ops.findSome? (·.expiryAt u)

/-- The latest call about a key at a scope grants it access until `e`. -/
def Granted (ops : List (Op A)) (u : Scope) (k : KeyId A) (e : Option ℕ) : Prop :=
  lastCall ops u k = some (.grant u k e)

/-- The expiry has not passed. -/
def Live (now : ℕ) (e : Option ℕ) : Prop := ∀ t ∈ e, now ≤ t

/-- What a policy should report after the calls `ops`: at every scope and every time that the clock
can show, sorted and without repetition, the keys with a grant there or above that has not
expired. -/
def Honours (C : Crypto A) (policy : AccessPolicy) (ops : List (Op A)) : Prop :=
  ∀ (T : Scope) (now : ℕ), now < 2 ^ 64 → (policy.keyIdsForScope now T).Pairwise (· < ·) ∧
    ∀ s, s ∈ policy.keyIdsForScope now T ↔ ∃ u k e, u.isAncestorOf T = true ∧
      Granted ops u k e ∧ Live now e ∧ s = k.toBase58 C

lemma lastCall_concat (ops : List (Op A)) (op : Op A) (u : Scope) (k : KeyId A) :
    lastCall (ops ++ [op]) u k = if op.about u k then some op else lastCall ops u k :=
  Runs.latest_concat _ ops op

lemma granted_concat_grant (ops : List (Op A)) (u v : Scope) (k l : KeyId A)
    (e : Option ℕ) : (∃ e', Granted (ops ++ [.grant u k e]) v l e') ↔
      (u = v ∧ k = l) ∨ ∃ e', Granted ops v l e' := by
  unfold Granted
  rw [lastCall_concat]
  by_cases h : u = v ∧ k = l
  · obtain ⟨rfl, rfl⟩ := h
    simp [Op.about]
  · have ha : (Op.grant u k e).about v l = false := by simpa [Op.about] using h
    simp [ha, h]

lemma granted_concat_self (ops : List (Op A)) (u : Scope) (k : KeyId A) (e : Option ℕ) :
    Granted (ops ++ [.grant u k e]) u k e := by
  rw [Granted, lastCall_concat, if_pos (by simp [Op.about])]

/-- Among a scope and its ancestors, only the scope itself matters to a key that has no grant
above. -/
lemma Granted.eq_of_not_above {ops : List (Op A)} {u v : Scope} {k : KeyId A}
    {e e' : Option ℕ} (hg : Granted (ops ++ [.grant u k e]) v k e')
    (habove : ∀ v e'', v.isAncestorOf u = true → v ≠ u → ¬ Granted ops v k e'')
    (ha : v.isAncestorOf u = true) : v = u ∧ e' = e := by
  by_cases hv : v = u
  · subst hv
    have hop : Op.grant v k e = Op.grant v k e' :=
      Option.some.inj ((granted_concat_self ops v k e).symm.trans hg)
    cases hop
    exact ⟨rfl, rfl⟩
  · rw [Granted, lastCall_concat, if_neg (by simp [Op.about, Ne.symm hv])] at hg
    exact absurd hg (habove v e' ha hv)

lemma granted_concat_revoke (ops : List (Op A)) (u v : Scope) (k l : KeyId A) :
    (∃ e', Granted (ops ++ [.revoke u k]) v l e') ↔
      ¬ (u = v ∧ k = l) ∧ ∃ e', Granted ops v l e' := by
  unfold Granted
  rw [lastCall_concat]
  by_cases h : u = v ∧ k = l
  · obtain ⟨rfl, rfl⟩ := h
    simp [Op.about]
  · have ha : (Op.revoke u k).about v l = false := by simpa [Op.about] using h
    simp [ha, h]

omit [ByteArrays A] in
lemma firstExpiry_concat (ops : List (Op A)) (op : Op A) (u : Scope) :
    firstExpiry (ops ++ [op]) u = (firstExpiry ops u).or (op.expiryAt u) := by
  simp only [firstExpiry, List.findSome?_append, List.findSome?_singleton]

/-- Where the latest call is a grant, that grant was made. -/
lemma Granted.mem {ops : List (Op A)} {u : Scope} {k : KeyId A} {e : Option ℕ}
    (h : Granted ops u k e) : .grant u k e ∈ ops :=
  (List.mem_filter.mp (List.mem_of_getLast? h)).1

omit [ByteArrays A] in
lemma exists_mem_of_firstExpiry {ops : List (Op A)} {u : Scope} {e : Option ℕ}
    (h : firstExpiry ops u = some e) : ∃ k, .grant u k e ∈ ops := by
  obtain ⟨op, hop, he⟩ := List.exists_of_findSome?_eq_some h
  cases op with
  | revoke v l => cases he
  | grant v l e' =>
    simp only [Op.expiryAt] at he
    split_ifs at he with hv
    rw [← hv, ← Option.some.inj he]
    exact ⟨l, hop⟩

/-- The rule at a scope after the calls `ops`: it stands once a grant was made, expires
with the first of them, and names the keys whose latest call is a grant. -/
def RuleTracks (C : Crypto A) (ops : List (Op A)) (u : Scope) : Option AccessRule → Prop
  | none => firstExpiry ops u = none ∧ ∀ k, ¬ ∃ e, Granted ops u k e
  | some rule => firstExpiry ops u = some rule.expiresAt ∧
      ∀ s, s ∈ rule.recipientKeyIds ↔ ∃ k, s = k.toBase58 C ∧ ∃ e, Granted ops u k e

/-- What the rules of a policy record of its history. -/
structure Tracks (C : Crypto A) (policy : AccessPolicy) (ops : List (Op A)) : Prop where
  wellFormed : policy.WellFormed
  rule : ∀ u, RuleTracks C ops u (policy.ruleAt u.path)

section History

variable {C : Crypto A} (hb : Function.Injective C.base58)

include hb in
lemma toBase58_inj {k l : KeyId A} : k.toBase58 C = l.toBase58 C ↔ k = l := by
  constructor
  · intro h
    exact KeyId.ext (asBytes_injective 8 (hb h))
  · intro h
    rw [h]

/-- Calls about another scope do not matter to a rule. -/
lemma RuleTracks.of_ne {ops : List (Op A)} {op : Op A} {u : Scope} {r : Option AccessRule}
    (h : RuleTracks C ops u r) (hexpiry : op.expiryAt u = none)
    (habout : ∀ k, op.about u k = false) : RuleTracks C (ops ++ [op]) u r := by
  have hg : ∀ k e, Granted (ops ++ [op]) u k e ↔ Granted ops u k e := by
    intro k e
    unfold Granted
    rw [lastCall_concat, habout k]
    rfl
  have hf : firstExpiry (ops ++ [op]) u = firstExpiry ops u := by
    rw [firstExpiry_concat, hexpiry, Option.or_none]
  cases r with
  | none => simpa only [RuleTracks, hg, hf] using h
  | some rule => simpa only [RuleTracks, hg, hf] using h

lemma RuleTracks.grant {ops : List (Op A)} {u : Scope} {r : Option AccessRule}
    (h : RuleTracks C ops u r) (k : KeyId A) (e : Option ℕ) :
    RuleTracks C (ops ++ [.grant u k e]) u
      (some (r.elim ⟨u.path, [k.toBase58 C], e⟩ (AccessRule.addKey (k.toBase58 C)))) := by
  have hexpiry : (Op.grant u k e).expiryAt u = some e := if_pos rfl
  cases r with
  | none =>
    obtain ⟨hf, hg⟩ := h
    refine ⟨by rw [firstExpiry_concat, hf, hexpiry]; rfl, fun s => ?_⟩
    simp only [Option.elim_none, List.mem_singleton, granted_concat_grant, hg, or_false,
      true_and]
    constructor
    · intro hs
      exact ⟨k, hs, rfl⟩
    · intro hs
      obtain ⟨l, hs, rfl⟩ := hs
      exact hs
  | some rule =>
    obtain ⟨hf, hg⟩ := h
    refine ⟨by rw [firstExpiry_concat, hf, Option.elim_some, AccessRule.addKey_expiresAt]; rfl,
      fun s => ?_⟩
    simp only [Option.elim_some, AccessRule.mem_addKey, granted_concat_grant, hg, true_and]
    constructor
    · intro hs
      rcases hs with hs | ⟨l, hs, hl⟩
      · exact ⟨k, hs, .inl rfl⟩
      · exact ⟨l, hs, .inr hl⟩
    · intro hs
      obtain ⟨l, hs, rfl | hl⟩ := hs
      · exact .inl hs
      · exact .inr ⟨l, hs, hl⟩

include hb in
lemma RuleTracks.revoke {ops : List (Op A)} {u : Scope} {r : Option AccessRule}
    (h : RuleTracks C ops u r) (k : KeyId A) :
    RuleTracks C (ops ++ [.revoke u k]) u (r.map (AccessRule.removeKey (k.toBase58 C))) := by
  have hf : firstExpiry (ops ++ [.revoke u k]) u = firstExpiry ops u := by
    rw [firstExpiry_concat]
    exact Option.or_none
  cases r with
  | none =>
    refine ⟨by rw [hf]; exact h.1, fun l hl => ?_⟩
    exact h.2 l ((granted_concat_revoke ops u u k l).mp hl).2
  | some rule =>
    refine ⟨by rw [hf]; exact h.1, fun s => ?_⟩
    simp only [AccessRule.mem_removeKey, granted_concat_revoke, h.2, true_and]
    constructor
    · intro hs
      obtain ⟨⟨l, rfl, hl⟩, hne⟩ := hs
      exact ⟨l, rfl, fun hk => hne (by rw [hk]), hl⟩
    · intro hs
      obtain ⟨l, rfl, hne, hl⟩ := hs
      exact ⟨⟨l, rfl, hl⟩, fun hk => hne ((toBase58_inj hb).mp hk).symm⟩

include hb in
theorem Tracks.step {policy : AccessPolicy} {ops : List (Op A)} (h : Tracks C policy ops)
    (op : Op A) : Tracks C (policy.step C op) (ops ++ [op]) := by
  cases op with
  | grant u k e =>
    refine ⟨h.wellFormed.grant C u k e, fun v => ?_⟩
    rw [AccessPolicy.step, ruleAt_grant]
    by_cases huv : u = v
    · subst huv
      rw [if_pos rfl]
      exact (h.rule u).grant k e
    · rw [if_neg huv]
      apply (h.rule v).of_ne
      · exact if_neg huv
      · intro l
        simp [Op.about, huv]
  | revoke u k =>
    refine ⟨h.wellFormed.revoke C u k, fun v => ?_⟩
    rw [AccessPolicy.step, ruleAt_revoke]
    by_cases huv : u = v
    · subst huv
      rw [if_pos rfl]
      exact (h.rule u).revoke hb k
    · rw [if_neg huv]
      apply (h.rule v).of_ne
      · rfl
      · intro l
        simp [Op.about, huv]

include hb in
/-- After every run of calls, the policy has recorded its history. -/
theorem tracks_run (ops : List (Op A)) : Tracks C (Runs.run (step C) new ops) ops := by
  apply Runs.run_history (Tracks C)
  · intro policy before op h
    exact h.step hb op
  · exact ⟨⟨List.nodup_nil⟩, fun u => ⟨rfl, by simp [Granted, lastCall]⟩⟩

include hb in
/-- What the code reports after every run: a key counts at the valid scopes, as long as the first
grant at its scope does. -/
theorem mem_keyIdsForScope_run (ops : List (Op A)) (T : Scope) (now : ℕ) (s : String) :
    s ∈ (Runs.run (step C) new ops).keyIdsForScope now T ↔
      ∃ u k e e', u.Valid ∧ u.isAncestorOf T = true ∧ Granted ops u k e ∧
        firstExpiry ops u = some e' ∧ Live now e' ∧ s = k.toBase58 C := by
  have h := tracks_run hb ops
  rw [mem_keyIdsForScope]
  constructor
  · intro hs
    obtain ⟨rule, hr, hv, ha, hx, hs⟩ := hs
    have ht := h.rule ⟨rule.scope⟩
    rw [(h.wellFormed.ruleAt_eq_some_iff _ rule).mpr ⟨hr, rfl⟩] at ht
    obtain ⟨k, hk, e, hg⟩ := (ht.2 s).mp hs
    exact ⟨_, k, e, _, hv, ha, hg, ht.1, (rule.expired_eq_false_iff now).mp hx, hk⟩
  · intro hs
    obtain ⟨u, k, e, e', hv, ha, hg, hf, hx, rfl⟩ := hs
    have ht := h.rule u
    cases hr : (Runs.run (step C) new ops).ruleAt u.path with
    | none =>
      rw [hr] at ht
      exact absurd ⟨e, hg⟩ (ht.2 k)
    | some rule =>
      rw [hr] at ht
      obtain ⟨hm, hu⟩ := (h.wellFormed.ruleAt_eq_some_iff _ rule).mp hr
      have hscope : (⟨rule.scope⟩ : Scope) = u := Scope.ext hu
      have he : rule.expiresAt = e' := Option.some.inj (ht.1.symm.trans hf)
      refine ⟨rule, hm, hscope ▸ hv, hscope ▸ ha, ?_, (ht.2 _).mpr ⟨k, rfl, e, hg⟩⟩
      rw [AccessRule.expired_eq_false_iff, he]
      exact hx

end History

/-- The latest time that the clock can show. -/
def endOfTime : ℕ := 2 ^ 64 - 1

/-- The last time on the clock at which the expiry has not passed. -/
def lastTime (e : Option ℕ) : ℕ := min (e.getD endOfTime) endOfTime

theorem live_iff_le_lastTime {now : ℕ} (hnow : now < 2 ^ 64) (e : Option ℕ) :
    Live now e ↔ now ≤ lastTime e := by
  have hend : now ≤ endOfTime := Nat.le_sub_one_of_lt hnow
  unfold Live lastTime
  cases e with
  | none => simp [hend]
  | some t => simp [hend]

/-- Two expiries that end at different times are told apart at some time. -/
lemma exists_live_not_iff {e e' : Option ℕ} (h : lastTime e ≠ lastTime e') :
    ∃ now < 2 ^ 64, ¬ (Live now e ↔ Live now e') := by
  have hle : lastTime e ≤ endOfTime := min_le_right _ _
  have hle' : lastTime e' ≤ endOfTime := min_le_right _ _
  have hend : endOfTime < 2 ^ 64 := by decide
  have hnow : max (lastTime e) (lastTime e') < 2 ^ 64 := by omega
  refine ⟨_, hnow, ?_⟩
  rw [live_iff_le_lastTime hnow, live_iff_le_lastTime hnow]
  omega

section Honoured

variable {C : Crypto A} (hb : Function.Injective C.base58)

include hb in
/-- Where all grants are at valid scopes, and those at one scope end at one time, the reported keys
are the right ones. -/
theorem honours_of_uniform {ops : List (Op A)} (hvalid : ∀ u k e, .grant u k e ∈ ops → u.Valid)
    (huniform : ∀ u k k' e e', .grant u k e ∈ ops → .grant u k' e' ∈ ops →
      lastTime e = lastTime e') :
    Honours C (Runs.run (step C) new ops) ops := by
  intro T now hnow
  refine ⟨keyIdsForScope_sorted _ _ _, fun s => ?_⟩
  have hsame : ∀ u k e e', Granted ops u k e → firstExpiry ops u = some e' →
      (Live now e' ↔ Live now e) := by
    intro u k e e' hg hf
    obtain ⟨k', hk'⟩ := exists_mem_of_firstExpiry hf
    rw [live_iff_le_lastTime hnow, live_iff_le_lastTime hnow, huniform u k' k e' e hk' hg.mem]
  rw [mem_keyIdsForScope_run hb]
  constructor
  · intro hs
    obtain ⟨u, k, e, e', _, ha, hg, hf, hx, hs⟩ := hs
    exact ⟨u, k, e, ha, hg, (hsame u k e e' hg hf).mp hx, hs⟩
  · intro hs
    obtain ⟨u, k, e, ha, hg, hx, hs⟩ := hs
    cases hf : firstExpiry ops u with
    | none =>
      have hn := List.findSome?_eq_none_iff.mp hf _ hg.mem
      simp [Op.expiryAt] at hn
    | some e' =>
      exact ⟨u, k, e, e', hvalid u k e hg.mem, ha, hg, hf, (hsame u k e e' hg hf).mpr hx, hs⟩

include hb in
/-- A grant to a key that has none above is reported wrongly at once, if its scope is not valid or
the rule at its scope ends at another time. -/
theorem uniform_of_honours {before : List (Op A)} {u : Scope} {k : KeyId A} {e : Option ℕ}
    (habove : ∀ v e'', v.isAncestorOf u = true → v ≠ u → ¬ Granted before v k e'')
    (h : Honours C (Runs.run (step C) new (before ++ [.grant u k e])) (before ++ [.grant u k e])) :
    u.Valid ∧ ∀ e', firstExpiry before u = some e' → lastTime e' = lastTime e := by
  have hgrant := granted_concat_self before u k e
  have honly : ∀ v l e₁, v.isAncestorOf u = true →
      Granted (before ++ [.grant u k e]) v l e₁ → k.toBase58 C = l.toBase58 C → v = u ∧ e₁ = e := by
    intro v l e₁ ha hg hk
    obtain rfl := (toBase58_inj hb).mp hk
    exact hg.eq_of_not_above habove ha
  have hcode (now : ℕ) (hnow : now < 2 ^ 64) :=
    (mem_keyIdsForScope_run hb (before ++ [.grant u k e]) u now (k.toBase58 C)).symm.trans
      ((h u now hnow).2 _)
  have hu : u.Valid := by
    -- At time 0 nothing has expired, so the key has to be reported, and only its own rule lists it.
    have hlive : Live 0 e := fun t _ => Nat.zero_le t
    obtain ⟨v, l, e₁, _, hv, ha, hg, _, _, hk⟩ :=
      (hcode 0 (by decide)).mpr ⟨u, k, e, u.isAncestorOf_self, hgrant, hlive, rfl⟩
    exact (honly v l e₁ ha hg hk).1 ▸ hv
  refine ⟨hu, fun e' hf => ?_⟩
  have hfirst : firstExpiry (before ++ [.grant u k e]) u = some e' := by
    rw [firstExpiry_concat, hf]
    rfl
  by_contra hne
  obtain ⟨now, hnow, hlive⟩ := exists_live_not_iff hne
  apply hlive
  constructor
  · intro hl
    obtain ⟨v, l, e₁, ha, hg, hx, hk⟩ :=
      (hcode now hnow).mp ⟨u, k, e, e', hu, u.isAncestorOf_self, hgrant, hfirst, hl, rfl⟩
    rw [← (honly v l e₁ ha hg hk).2]
    exact hx
  · intro hl
    obtain ⟨v, l, e₁, e₂, _, ha, hg, hf₂, hx, hk⟩ :=
      (hcode now hnow).mpr ⟨u, k, e, u.isAncestorOf_self, hgrant, hl, rfl⟩
    rw [(honly v l e₁ ha hg hk).1, hfirst] at hf₂
    rw [Option.some.inj hf₂]
    exact hx

end Honoured

/-- In a run that grants at valid scopes only, and at any one scope with expiries that end at one
time, every state reports exactly the keys whose own grants are in force. Conversely, where every
state does, each grant to a key that has none above is at a valid scope and ends when the rule at
its scope does. -/
theorem expiry_honoured_of_uniform (C : Crypto A) (hb : Function.Injective C.base58)
    (ops : List (Op A)) :
    ((∀ u k e, .grant u k e ∈ ops → u.Valid) →
      (∀ u k k' e e', .grant u k e ∈ ops → .grant u k' e' ∈ ops → lastTime e = lastTime e') →
      ∀ before, before <+: ops → Honours C (Runs.run (step C) new before) before) ∧
    ((∀ before, before <+: ops → Honours C (Runs.run (step C) new before) before) →
      ∀ before u k e, before ++ [.grant u k e] <+: ops →
        (∀ v e'', v.isAncestorOf u = true → v ≠ u → ¬ Granted before v k e'') →
        u.Valid ∧ ∀ e', firstExpiry before u = some e' → lastTime e' = lastTime e) := by
  constructor
  · intro hvalid huniform before hbefore
    apply honours_of_uniform hb
    · intro u k e hg
      exact hvalid u k e (hbefore.subset hg)
    · intro u k k' e e' hg hg'
      exact huniform u k k' e e' (hbefore.subset hg) (hbefore.subset hg')
  · intro h before u k e hbefore habove
    exact uniform_of_honours hb habove (h _ hbefore)

end AccessPolicy

def zeroKeyId : KeyId (Vector UInt8) := ⟨zeros 8⟩

def oneKeyId : KeyId (Vector UInt8) := ⟨packArray 8 [1]⟩

def aScope : Scope := ⟨['/', 'a']⟩

/-- A permanent grant at the root, revoked again, and one at `/a` that expires. -/
def twoScopeGrants : List (AccessPolicy.Op (Vector UInt8)) :=
  [.grant .root zeroKeyId none, .grant aScope zeroKeyId (some 5), .revoke .root zeroKeyId]

theorem expiry_honoured_two_scopes :
    AccessPolicy.Honours base58Arrays
      (Runs.run (AccessPolicy.step base58Arrays) AccessPolicy.new twoScopeGrants)
        twoScopeGrants := by
  have hgrant : ∀ u k e, .grant u k e ∈ twoScopeGrants →
      (u = Scope.root ∧ e = none) ∨ (u = aScope ∧ e = some 5) := by
    intro u k e h
    simp only [twoScopeGrants, List.mem_cons, AccessPolicy.Op.grant.injEq, List.not_mem_nil,
      or_false, reduceCtorEq] at h
    exact h.imp (fun h => ⟨h.1, h.2.2⟩) fun h => ⟨h.1, h.2.2⟩
  refine (AccessPolicy.expiry_honoured_of_uniform base58Arrays base58Arrays_injective
    twoScopeGrants).1 ?_ ?_ twoScopeGrants List.prefix_rfl
  · intro u k e h
    rcases hgrant u k e h with ⟨rfl, _⟩ | ⟨rfl, _⟩ <;> decide
  · intro u k k' e e' h h'
    rcases hgrant u k e h with ⟨rfl, rfl⟩ | ⟨rfl, rfl⟩
    · rcases hgrant _ k' e' h' with ⟨_, rfl⟩ | ⟨hu, _⟩
      · rfl
      · exact absurd hu (by decide)
    · rcases hgrant _ k' e' h' with ⟨hu, _⟩ | ⟨_, rfl⟩
      · exact absurd hu (by decide)
      · rfl

/-- After a grant that expires, a permanent one at the same scope expires with it; and
after a permanent grant, one that should expire does not. -/
theorem second_grant_takes_first_expiry :
    (AccessPolicy.Granted [.grant .root zeroKeyId (some 5), .grant .root oneKeyId none]
        Scope.root oneKeyId none ∧
      oneKeyId.toBase58 base58Arrays ∉ (Runs.run (AccessPolicy.step base58Arrays) AccessPolicy.new
        [.grant .root zeroKeyId (some 5), .grant .root oneKeyId none]).keyIdsForScope 6 .root) ∧
    (AccessPolicy.Granted [.grant .root zeroKeyId none, .grant .root oneKeyId (some 5)]
        Scope.root oneKeyId (some 5) ∧
      oneKeyId.toBase58 base58Arrays ∈ (Runs.run (AccessPolicy.step base58Arrays) AccessPolicy.new
        [.grant .root zeroKeyId none, .grant .root oneKeyId (some 5)]).keyIdsForScope 6 .root) := by
  refine ⟨⟨rfl, fun h => ?_⟩, rfl, ?_⟩
  · obtain ⟨u, k, e, e', _, _, hg, hf, hx, _⟩ :=
      (AccessPolicy.mem_keyIdsForScope_run base58Arrays_injective _ .root 6 _).mp h
    have hu : u = Scope.root := by
      have hmem := hg.mem
      simp only [List.mem_cons, AccessPolicy.Op.grant.injEq, List.not_mem_nil, or_false] at hmem
      rcases hmem with h | h <;> exact h.1
    rw [hu] at hf
    have he : some 5 = e' := Option.some.inj hf
    exact absurd (hx 5 he.symm) (by decide)
  · exact (AccessPolicy.mem_keyIdsForScope_run base58Arrays_injective _ .root 6 _).mpr
      ⟨.root, oneKeyId, some 5, none, Scope.root_valid, Scope.root.isAncestorOf_self, rfl, rfl,
        fun _ h => (nomatch h), rfl⟩

end ReadOnlyKeys
