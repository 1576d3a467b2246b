import ReadOnlyKeys.Scope
import Mathlib.Order.BoundedOrder.Basic
import Mathlib.Data.Set.Operations

/-!
# The tree of scopes

The scopes that `Scope::new` accepts, ordered by `is_ancestor_of`, are the
finite words over the legal segments, ordered by prefix. Each operation on the
string is the operation on words that its name announces.
-/
namespace ReadOnlyKeys
open Outcome Wire SeparatedPath

namespace Scope

theorem Valid.depth {s : Scope} (h : s.Valid) : s.depth = .ok s.segments.length := by
  have hc := h.components
  unfold Scope.components at hc
  unfold Scope.depth
  by_cases hr : s.path = ['/']
  · rw [if_pos hr] at hc ⊢
    rw [← Except.ok.inj hc]
    rfl
  · rw [if_neg hr] at hc ⊢
    rw [bind_eq_ok_iff] at hc
    obtain ⟨tail, ht, hc⟩ := hc
    rw [ht, ok_bind, ← Except.ok.inj hc]
    rfl

lemma parent_root : root.parent = .ok none := rfl

/-- Below the root, `parent` forgets the last segment. -/
theorem parent_ofSegments_concat {gs : List (List Char)} {g : List Char}
    (h : ∀ x ∈ gs ++ [g], IsSegment x) :
    (ofSegments (gs ++ [g])).parent = .ok (some (ofSegments gs)) := by
  have hne : (ofSegments (gs ++ [g])).path ≠ ['/'] := by
    intro hp
    exact absurd ((ofSegments_path_eq_root_iff h).mp hp) (by simp)
  have hg : '/' ∉ g := fun hm => segmentChar_ne_slash ((h g (by simp)).2 _ hm) rfl
  unfold parent
  rw [if_neg hne]
  simp only [ofSegments, render_concat, rfind_append_cons '/' _ g hg]
  by_cases hr : gs = []
  · subst hr
    rfl
  · rw [if_neg hr]
    obtain ⟨r, hs⟩ := render_eq_cons '/' gs
    have hpos : ∃ n, (toUtf8 (render '/' gs)).length = n + 1 := by
      rw [hs, toUtf8_cons]
      refine ⟨(toUtf8 r).length, ?_⟩
      rw [List.length_append, String.length_utf8EncodeChar]
      exact Nat.add_comm 1 _
    obtain ⟨n, hn⟩ := hpos
    have ht := sliceTo_append (ε := RokError) (render '/' gs) ('/' :: g)
    rw [hn] at ht ⊢
    simp only [ht, ok_bind]
    rfl

end Scope

/-- A scope that `Scope::new` returned for some string. -/
structure ValidScope where
  scope : Scope
  accepted : ∃ path, Scope.new path = .ok scope

namespace ValidScope
open Scope

theorem valid (s : ValidScope) : s.scope.Valid := by
  obtain ⟨p, hp⟩ := s.accepted
  exact ((new_eq_ok_iff p s.scope).mp hp).2

@[ext] theorem ext {s t : ValidScope} (h : s.scope = t.scope) : s = t := by
  cases s
  cases t
  simp only at h
  subst h
  rfl

instance : DecidableEq ValidScope := fun _ _ => decidable_of_iff _ ValidScope.ext_iff.symm

def ofValid (s : Scope) (h : s.Valid) : ValidScope :=
  ⟨s, s.path, (new_eq_ok_iff s.path s).mpr ⟨rfl, h⟩⟩

/-- The word of a scope. -/
def segments (s : ValidScope) : List (List Char) := s.scope.segments

theorem components_eq (s : ValidScope) : s.scope.components = .ok s.segments :=
  s.valid.components

theorem segments_injective : Function.Injective segments := by
  intro s t h
  exact ext (s.valid.ext t.valid h)

theorem range_segments : Set.range segments = {gs | ∀ g ∈ gs, IsSegment g} := by
  ext gs
  constructor
  · intro h
    obtain ⟨s, hs⟩ := h
    rw [← hs]
    exact s.valid.isSegment
  · intro h
    exact ⟨ofValid (ofSegments gs) ⟨gs, h, rfl⟩, segments_ofSegments h⟩

/-- Joining the segments with slashes spells the scope. -/
theorem new_intercalate (s : ValidScope) :
    Scope.new ('/' :: ['/'].intercalate s.segments) = .ok s.scope := by
  have hv := s.valid
  have hp : '/' :: ['/'].intercalate s.segments = (ofSegments s.scope.segments).path := by
    unfold ofSegments segments
    cases s.scope.segments <;> rfl
  rw [hp, ← hv.eq_ofSegments, new_eq_ok_iff]
  exact ⟨rfl, hv⟩

theorem child_isOk_iff (s : ValidScope) (g : List Char) :
    (∃ t, s.scope.child g = .ok t) ↔ IsSegment g := by
  constructor
  · intro h
    obtain ⟨t, ht⟩ := h
    exact ((s.valid.child_eq_ok_iff t g).mp ht).1
  · intro h
    exact ⟨_, (s.valid.child_eq_ok_iff _ g).mpr ⟨h, rfl⟩⟩

theorem child_segments {s : ValidScope} {g : List Char} {t : Scope}
    (h : s.scope.child g = .ok t) :
    ∃ c : ValidScope, c.scope = t ∧ c.segments = s.segments ++ [g] := by
  obtain ⟨hg, rfl⟩ := (s.valid.child_eq_ok_iff t g).mp h
  have hall : ∀ x ∈ s.scope.segments ++ [g], IsSegment x := by
    intro x hx
    rcases List.mem_append.mp hx with hx | hx
    · exact s.valid.isSegment x hx
    · rwa [List.mem_singleton.mp hx]
  exact ⟨ofValid _ ⟨_, hall, rfl⟩, rfl, segments_ofSegments hall⟩

/-- Only the root has no parent; elsewhere the last segment is dropped. -/
theorem parent_segments (s : ValidScope) (h : s.scope ≠ root) :
    ∃ p : ValidScope, s.scope.parent = .ok (some p.scope) ∧
      p.segments = s.segments.dropLast := by
  have hv := s.valid
  have hne : s.scope.segments ≠ [] := by
    intro hs
    exact h (hv.ext root_valid hs)
  have hall := hv.isSegment
  have hsplit := List.dropLast_concat_getLast hne
  rw [← hsplit] at hall
  have hinit : ∀ g ∈ s.scope.segments.dropLast, IsSegment g :=
    fun g hg => hall g (List.mem_append_left _ hg)
  refine ⟨ofValid (ofSegments s.scope.segments.dropLast) ⟨_, hinit, rfl⟩, ?_,
    segments_ofSegments hinit⟩
  have hp := parent_ofSegments_concat hall
  rw [hsplit, ← hv.eq_ofSegments] at hp
  exact hp

theorem parent_eq_none_iff (s : ValidScope) : s.scope.parent = .ok none ↔ s.scope = root := by
  constructor
  · intro h
    by_contra hr
    obtain ⟨p, hp, _⟩ := s.parent_segments hr
    rw [hp] at h
    cases h
  · intro h
    rw [h]
    exact parent_root

theorem isAncestorOf_iff_segments (s t : ValidScope) :
    s.scope.isAncestorOf t.scope = true ↔ s.segments <+: t.segments :=
  isAncestorOf_iff s.valid t.valid

instance : LE ValidScope := ⟨fun s t => s.scope.isAncestorOf t.scope = true⟩

/-- Ancestry orders the scopes, because the prefix order orders their words. -/
instance : PartialOrder ValidScope where
  le_refl s := (isAncestorOf_iff_segments s s).mpr List.prefix_rfl
  le_trans s t u hst htu :=
    (isAncestorOf_iff_segments s u).mpr
      (((isAncestorOf_iff_segments s t).mp hst).trans ((isAncestorOf_iff_segments t u).mp htu))
  le_antisymm s t hst hts := by
    have h := (isAncestorOf_iff_segments s t).mp hst
    have h' := (isAncestorOf_iff_segments t s).mp hts
    exact segments_injective (h.eq_of_length (Nat.le_antisymm h.length_le h'.length_le))

instance : OrderBot ValidScope where
  bot := ofValid root root_valid
  bot_le _ := rfl

end ValidScope

/-- Scopes are the finite words over the legal segments, and every operation on
the path string is the operation on words. -/
theorem scopes_form_tree :
    (∀ s : ValidScope, s.scope.components = .ok s.segments) ∧
    Function.Injective ValidScope.segments ∧
    Set.range ValidScope.segments = {gs | ∀ g ∈ gs, Scope.IsSegment g} ∧
    (∀ s : ValidScope, Scope.new ('/' :: ['/'].intercalate s.segments) = .ok s.scope) ∧
    (∀ (s : ValidScope) (g : List Char),
      (∃ t, s.scope.child g = .ok t) ↔ Scope.IsSegment g) ∧
    (∀ (s : ValidScope) (g : List Char) (t : Scope), s.scope.child g = .ok t →
      ∃ c : ValidScope, c.scope = t ∧ c.segments = s.segments ++ [g]) ∧
    (∀ s : ValidScope, s.scope.parent = .ok none ↔ s.scope = Scope.root) ∧
    (∀ s : ValidScope, s.scope ≠ Scope.root → ∃ p : ValidScope,
      s.scope.parent = .ok (some p.scope) ∧ p.segments = s.segments.dropLast) ∧
    (∀ s : ValidScope, s.scope.depth = .ok s.segments.length) ∧
    (∀ s t : ValidScope, s.scope.isAncestorOf t.scope = true ↔ s.segments <+: t.segments) ∧
    (∀ s : ValidScope, s.scope.isAncestorOf s.scope = true) ∧
    (∀ s t : ValidScope, s.scope.isAncestorOf t.scope = true →
      t.scope.isAncestorOf s.scope = true → s = t) ∧
    (∀ s t u : ValidScope, s.scope.isAncestorOf t.scope = true →
      t.scope.isAncestorOf u.scope = true → s.scope.isAncestorOf u.scope = true) ∧
    (∀ s : ValidScope, Scope.root.isAncestorOf s.scope = true) := by
  refine ⟨ValidScope.components_eq, ValidScope.segments_injective, ValidScope.range_segments,
    ValidScope.new_intercalate, ValidScope.child_isOk_iff, ?_, ValidScope.parent_eq_none_iff,
    ValidScope.parent_segments, fun s => s.valid.depth, ValidScope.isAncestorOf_iff_segments,
    ?_, ?_, ?_, ?_⟩
  · intro s g t h
    exact ValidScope.child_segments h
  · intro s
    exact le_refl s
  · intro s t hst hts
    exact le_antisymm (a := s) hst hts
  · intro s t u hst htu
    exact le_trans (a := s) (b := t) (c := u) hst htu
  · intro s
    exact bot_le (a := s)

end ReadOnlyKeys
