import ReadOnlyKeys.Scope

/-!
# The grammar of scopes

The strings that `Scope::new` accepts, given by the rules of a grammar. The six
checks of the code overlap, and together they are these rules.
-/
namespace ReadOnlyKeys
open Outcome SeparatedPath

namespace Scope

/-- `Scope::as_str`. -/
def asStr (self : Scope) : List Char := self.path

namespace Grammar

/-- An ASCII letter or digit, a hyphen or an underscore. -/
inductive Letter : Char → Prop where
  | upper {c : Char} : 'A' ≤ c → c ≤ 'Z' → Letter c
  | lower {c : Char} : 'a' ≤ c → c ≤ 'z' → Letter c
  | digit {c : Char} : '0' ≤ c → c ≤ '9' → Letter c
  | hyphen : Letter '-'
  | underscore : Letter '_'

/-- One letter or more. -/
inductive Segment : List Char → Prop where
  | one {c : Char} : Letter c → Segment [c]
  | cons {c : Char} {g : List Char} : Letter c → Segment g → Segment (c :: g)

/-- One segment or more, each after a slash. -/
inductive Segments : List Char → Prop where
  | one {g : List Char} : Segment g → Segments ('/' :: g)
  | cons {g p : List Char} : Segment g → Segments p → Segments ('/' :: (g ++ p))

/-- The root, or segments. -/
inductive Path : List Char → Prop where
  | root : Path ['/']
  | segments {p : List Char} : Segments p → Path p

theorem letter_iff (c : Char) : Letter c ↔ segmentChar c = true := by
  have hclasses : segmentChar c = ((decide ('A'.val ≤ c.val ∧ c.val ≤ 'Z'.val) ||
      decide ('a'.val ≤ c.val) && decide (c.val ≤ 'z'.val) ||
      decide ('0'.val ≤ c.val) && decide (c.val ≤ '9'.val)) || c = '-' || c = '_') := rfl
  simp only [hclasses, Bool.or_eq_true, Bool.and_eq_true, decide_eq_true_eq]
  constructor
  · intro h
    cases h with
    | upper hlo hhi => exact .inl (.inl (.inl (.inl ⟨hlo, hhi⟩)))
    | lower hlo hhi => exact .inl (.inl (.inl (.inr ⟨hlo, hhi⟩)))
    | digit hlo hhi => exact .inl (.inl (.inr ⟨hlo, hhi⟩))
    | hyphen => exact .inl (.inr rfl)
    | underscore => exact .inr rfl
  · intro h
    rcases h with ((((⟨hlo, hhi⟩ | ⟨hlo, hhi⟩) | ⟨hlo, hhi⟩) | rfl) | rfl)
    · exact .upper hlo hhi
    · exact .lower hlo hhi
    · exact .digit hlo hhi
    · exact .hyphen
    · exact .underscore

theorem segment_iff (g : List Char) : Segment g ↔ IsSegment g := by
  constructor
  · intro h
    induction h with
    | one hc =>
      refine ⟨by simp, fun x hx => ?_⟩
      rw [List.mem_singleton.mp hx]
      exact (letter_iff _).mp hc
    | cons hc _ ih =>
      refine ⟨by simp, fun x hx => ?_⟩
      rcases List.mem_cons.mp hx with rfl | hx
      · exact (letter_iff _).mp hc
      · exact ih.2 x hx
  · intro h
    obtain ⟨hne, hall⟩ := h
    induction g with
    | nil => exact absurd rfl hne
    | cons c g ih =>
      have hc : Letter c := (letter_iff c).mpr (hall c List.mem_cons_self)
      by_cases hg : g = []
      · rw [hg]
        exact .one hc
      · exact .cons hc (ih hg fun x hx => hall x (List.mem_cons_of_mem _ hx))

/-- A derivation lists the segments, and a list of them gives a derivation. -/
theorem segments_iff (p : List Char) :
    Segments p ↔ ∃ gs, gs ≠ [] ∧ (∀ g ∈ gs, IsSegment g) ∧ p = gs.flatMap ('/' :: ·) := by
  constructor
  · intro h
    induction h with
    | @one g hg =>
      refine ⟨[g], by simp, fun x hx => ?_, by simp⟩
      rw [List.mem_singleton.mp hx]
      exact (segment_iff g).mp hg
    | @cons g p hg _ ih =>
      obtain ⟨gs, _, hgs, rfl⟩ := ih
      refine ⟨g :: gs, by simp, fun x hx => ?_, by simp⟩
      rcases List.mem_cons.mp hx with rfl | hx
      · exact (segment_iff x).mp hg
      · exact hgs x hx
  · intro h
    obtain ⟨gs, hne, hgs, rfl⟩ := h
    induction gs with
    | nil => exact absurd rfl hne
    | cons g gs ih =>
      have hg : Segment g := (segment_iff g).mpr (hgs g List.mem_cons_self)
      by_cases hrest : gs = []
      · rw [hrest, List.flatMap_singleton]
        exact .one hg
      · exact .cons hg (ih hrest fun x hx => hgs x (List.mem_cons_of_mem _ hx))

theorem path_iff (p : List Char) : Path p ↔ Valid ⟨p⟩ := by
  constructor
  · intro h
    cases h with
    | root => exact root_valid
    | segments h =>
      obtain ⟨gs, hne, hgs, rfl⟩ := (segments_iff p).mp h
      exact ⟨gs, hgs, Scope.ext (render_eq_flatMap '/' gs hne).symm⟩
  · intro h
    obtain ⟨gs, hgs, hp⟩ := h
    obtain rfl : p = render '/' gs := congrArg Scope.path hp
    by_cases hne : gs = []
    · rw [hne]
      exact .root
    · exact .segments ((segments_iff _).mpr ⟨gs, hne, hgs, render_eq_flatMap '/' gs hne⟩)

end Grammar

/-- `Scope::new` accepts exactly the strings of the grammar, and keeps them. -/
theorem new_accepts_grammar (p : List Char) :
    ((∃ s, new p = .ok s) ↔ Grammar.Path p) ∧ ∀ s, new p = .ok s → s.asStr = p := by
  constructor
  · rw [Grammar.path_iff]
    constructor
    · intro h
      obtain ⟨s, hs⟩ := h
      obtain ⟨rfl, hv⟩ := (new_eq_ok_iff p s).mp hs
      exact hv
    · intro hv
      exact ⟨⟨p⟩, (new_eq_ok_iff p ⟨p⟩).mpr ⟨rfl, hv⟩⟩
  · intro s hs
    rw [((new_eq_ok_iff p s).mp hs).1]
    rfl

end Scope

end ReadOnlyKeys
