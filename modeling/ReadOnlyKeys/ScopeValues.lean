import ReadOnlyKeys.Hierarchy
import ReadOnlyKeys.ScopeGrammar
import ReadOnlyKeys.ScopeTree

/-!
# Where scopes come from

A scope is validated by `Scope::new` and by `child`, and `root` and `parent`
write the private string themselves. The derived `Deserialize` writes any string
there. The functions that split the string rely on the grammar.
-/
namespace ReadOnlyKeys
open Outcome Wire SeparatedPath

namespace Scope

/-- The derived `Deserialize` of a newtype over a string. -/
def deserialize (value : List Char) : Scope := ⟨value⟩

/-- The scopes that a program can make if `raw` tells which strings it deserialises. -/
inductive Made (raw : List Char → Prop) : Scope → Prop where
  | root : Made raw root
  | new {path : List Char} {s : Scope} (h : new path = .ok s) : Made raw s
  | child {s t : Scope} {segment : List Char} (hs : Made raw s) (h : s.child segment = .ok t) :
      Made raw t
  | parent {s p : Scope} (hs : Made raw s) (h : s.parent = .ok (some p)) : Made raw p
  | deserialize {value : List Char} (h : raw value) : Made raw (deserialize value)

/-- The scope is in the grammar, and is split into the segments that spell it. -/
structure SplitsRight (s : Scope) : Prop where
  grammar : Grammar.Path s.path
  components : ∃ gs, s.components = .ok gs ∧ (∀ g ∈ gs, IsSegment g) ∧ s.path = render '/' gs
  depth : ∀ gs, s.components = .ok gs → s.depth = .ok gs.length

/-- From `s` to `t` the derivation returns, with the secret of all the levels in between where `t`
lies strictly below. -/
structure DerivesRight {A : ℕ → Type} [ByteArrays A] (C : Crypto A) (s t : Scope) : Prop where
  returns : ∀ secret, deriveChildReadSecret C secret s t ≠ .error .panic
  derived : ∀ secret r, deriveChildReadSecret C secret s t = .ok r ↔
    s.segments <+: t.segments ∧ s ≠ t ∧
      r = KeyTree.walk (levelSecret C) s.segments (t.segments.drop s.segments.length) secret

/-- The parent of a valid scope is one, too. -/
theorem Valid.parent {s p : Scope} (hv : s.Valid) (h : s.parent = .ok (some p)) : p.Valid := by
  have hne : s ≠ Scope.root := by
    intro hr
    rw [hr, parent_root] at h
    cases Except.ok.inj h
  obtain ⟨q, hq, _⟩ := (ValidScope.ofValid s hv).parent_segments hne
  obtain rfl := Option.some.inj (Except.ok.inj (h.symm.trans hq))
  exact q.valid

/-- A child of a valid scope is one, too. -/
theorem Valid.child {s t : Scope} {segment : List Char} (hv : s.Valid)
    (h : s.child segment = .ok t) : t.Valid := by
  obtain ⟨c, rfl, _⟩ := ValidScope.child_segments (s := ValidScope.ofValid s hv) h
  exact c.valid

/-- Every way of making a scope keeps to the grammar if the deserialised strings do. -/
theorem Made.valid {raw : List Char → Prop} (hraw : ∀ value, raw value → Grammar.Path value)
    {s : Scope} (h : Made raw s) : s.Valid := by
  induction h with
  | root => exact root_valid
  | new h => exact ((new_eq_ok_iff _ _).mp h).2
  | child _ h ih => exact ih.child h
  | parent _ h ih => exact ih.parent h
  | deserialize h => exact (Grammar.path_iff _).mp (hraw _ h)

theorem Valid.splitsRight {s : Scope} (h : s.Valid) : SplitsRight s where
  grammar := (Grammar.path_iff s.path).mpr h
  components := ⟨s.segments, h.components, h.isSegment, congrArg Scope.path h.eq_ofSegments⟩
  depth gs hgs := by
    rw [h.components] at hgs
    rw [h.depth, Except.ok.inj hgs]

theorem Valid.derivesRight {A : ℕ → Type} [ByteArrays A] (C : Crypto A) {s t : Scope}
    (hs : s.Valid) (ht : t.Valid) : DerivesRight C s t where
  returns secret h := by
    simp only [deriveChildReadSecret, bind_eq_panic_iff, require_ne_panic, false_or, hs.components,
      ht.components, Except.ok.injEq, reduceCtorEq] at h
    obtain ⟨_, _, _, _, _, _, _, _, h⟩ := h
    cases h
  derived secret r := by
    rw [deriveChildReadSecret_eq_ok_iff]
    constructor
    · intro h
      obtain ⟨hst, hr⟩ := h
      exact ⟨hst.prefix_segments, hst.ne, hr⟩
    · intro h
      obtain ⟨hp, hne, hr⟩ := h
      exact ⟨.of_valid hs ht ((isAncestorOf_iff hs ht).mpr hp) hne, hr⟩

/-- Every scope that a program makes is in the grammar, and is split and derived to as it is
spelled, exactly when every string that the program deserialises is in the grammar. -/
theorem made_right_iff {A : ℕ → Type} [ByteArrays A] (C : Crypto A) (raw : List Char → Prop) :
    ((∀ s, Made raw s → SplitsRight s) ∧
      ∀ s t, Made raw s → Made raw t → DerivesRight C s t) ↔
    ∀ value, raw value → Grammar.Path value := by
  constructor
  · intro h value hvalue
    exact (h.1 _ (.deserialize hvalue)).grammar
  · intro hraw
    exact ⟨fun s hs => (hs.valid hraw).splitsRight,
      fun s t hs ht => (hs.valid hraw).derivesRight C (ht.valid hraw)⟩

/-- The empty string is deserialised, and then neither split nor derived from. The string `xa` is
taken for `/a`. -/
theorem deserialized_unchecked :
    Made (fun _ => True) (deserialize []) ∧ ¬ Grammar.Path (deserialize []).path ∧
      (deserialize []).components = .error .panic ∧ (deserialize []).depth = .error .panic ∧
      deriveChildReadSecret Transparent.arrays (zeros 32) (deserialize []) ⟨['/', 'a']⟩ =
        .error .panic ∧
      Made (fun _ => True) (deserialize ['x', 'a']) ∧
      ¬ Grammar.Path (deserialize ['x', 'a']).path ∧
      deriveChildReadSecret Transparent.arrays (zeros 32) root (deserialize ['x', 'a']) =
        deriveChildReadSecret Transparent.arrays (zeros 32) root ⟨['/', 'a']⟩ := by
  refine ⟨.deserialize trivial, ?_, rfl, rfl, rfl, .deserialize trivial, ?_, rfl⟩
  · rw [Grammar.path_iff]
    decide
  · rw [Grammar.path_iff]
    decide

end Scope

end ReadOnlyKeys
