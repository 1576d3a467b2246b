import Mathlib.Data.List.Basic

/-!
# Separated paths as lists of segments

A path is a separator followed by its segments joined with the separator, and
the bare separator is the root. Segment lists ordered by prefix form a tree.
Every string operation on paths is justified by its meaning on that tree.
-/
namespace SeparatedPath

variable {σ : Type} [DecidableEq σ]

/-- The string of a list of segments. -/
def render (sep : σ) : List (List σ) → List σ
  | [] => [sep]
  | gs => sep :: [sep].intercalate gs

/-- The segments of a path string, read without checking that it is a path. -/
def segments (sep : σ) (p : List σ) : List (List σ) :=
  if p = [sep] then [] else (p.drop 1).splitOn sep

/-- Segments that a path string can carry. -/
def Separable (sep : σ) (gs : List (List σ)) : Prop := ∀ g ∈ gs, g ≠ [] ∧ sep ∉ g

/-- The string test for "equal to or an ancestor of". -/
def IsAncestor (sep : σ) (p q : List σ) : Prop :=
  p = [sep] ∨ p = q ∨ ∃ r, q = p ++ sep :: r

omit [DecidableEq σ] in
lemma cons_intercalate (sep : σ) (g : List σ) (gs : List (List σ)) :
    sep :: [sep].intercalate (g :: gs) = (g :: gs).flatMap (sep :: ·) := by
  induction gs generalizing g with
  | nil => simp [List.intercalate]
  | cons h gs ih =>
    have hs : [sep].intercalate (g :: h :: gs) = g ++ sep :: [sep].intercalate (h :: gs) := by
      simp [List.intercalate]
    rw [hs, ih, show (g :: h :: gs).flatMap (sep :: ·) = (sep :: g) ++ (h :: gs).flatMap (sep :: ·) from
      List.flatMap_cons, List.cons_append]

omit [DecidableEq σ] in
theorem render_eq_flatMap (sep : σ) (gs : List (List σ)) (h : gs ≠ []) :
    render sep gs = gs.flatMap (sep :: ·) := by
  cases gs with
  | nil => exact absurd rfl h
  | cons g gs => exact cons_intercalate sep g gs

omit [DecidableEq σ] in
theorem render_append (sep : σ) (gs hs : List (List σ)) (hg : gs ≠ []) (hh : hs ≠ []) :
    render sep (gs ++ hs) = render sep gs ++ render sep hs := by
  rw [render_eq_flatMap sep gs hg, render_eq_flatMap sep hs hh,
    render_eq_flatMap sep (gs ++ hs) (by simp [hg]), List.flatMap_append]

omit [DecidableEq σ] in
/-- The string of a non-empty list ends in its last segment. -/
theorem render_concat (sep : σ) (gs : List (List σ)) (g : List σ) :
    render sep (gs ++ [g]) = (if gs = [] then [] else render sep gs) ++ sep :: g := by
  by_cases hg : gs = []
  · simp [hg, render, List.intercalate]
  · rw [if_neg hg, render_append sep gs [g] hg (by simp)]
    simp [render, List.intercalate]

omit [DecidableEq σ] in
lemma render_eq_cons (sep : σ) (gs : List (List σ)) : ∃ r, render sep gs = sep :: r := by
  cases gs with
  | nil => exact ⟨[], rfl⟩
  | cons g gs => exact ⟨_, rfl⟩

theorem segments_render (sep : σ) (gs : List (List σ)) (h : Separable sep gs) :
    segments sep (render sep gs) = gs := by
  cases gs with
  | nil => simp [segments, render]
  | cons g gs =>
    have hg := h g List.mem_cons_self
    have hne : render sep (g :: gs) ≠ [sep] := by
      rw [render_eq_flatMap sep _ (by simp), List.flatMap_cons]
      simp [hg.1]
    rw [segments, if_neg hne]
    exact List.splitOn_intercalate sep (fun l hl => (h l hl).2) (by simp)

/-- The pieces of a split hold characters of the whole and no separator. -/
theorem mem_splitOn (sep : σ) (r : List σ) : ∀ g ∈ r.splitOn sep, ∀ c ∈ g, c ∈ r ∧ c ≠ sep := by
  induction r with
  | nil => simp
  | cons x r ih =>
    intro g hg c hc
    rw [List.splitOn_cons_eq_if_modifyHead] at hg
    by_cases hx : x = sep
    · rw [if_pos (by simpa using hx)] at hg
      rcases List.mem_cons.mp hg with rfl | hg
      · simp at hc
      · exact ⟨List.mem_cons_of_mem _ (ih g hg c hc).1, (ih g hg c hc).2⟩
    · rw [if_neg (by simpa using hx)] at hg
      obtain ⟨h, t, he⟩ := List.exists_cons_of_ne_nil (List.splitOn_ne_nil sep r)
      rw [he] at ih
      rw [he, List.modifyHead_cons] at hg
      rcases List.mem_cons.mp hg with rfl | hg
      · rcases List.mem_cons.mp hc with rfl | hc
        · exact ⟨List.mem_cons_self, hx⟩
        · have hh := ih h List.mem_cons_self c hc
          exact ⟨List.mem_cons_of_mem _ hh.1, hh.2⟩
      · have hh := ih g (List.mem_cons_of_mem _ hg) c hc
        exact ⟨List.mem_cons_of_mem _ hh.1, hh.2⟩

lemma splitOn_cons_sep (sep : σ) (t : List σ) :
    (sep :: t).splitOn sep = [] :: t.splitOn sep := by
  rw [List.splitOn_cons_eq_if_modifyHead, if_pos (by simp)]

/-- Two separators in a row, or one at the end, leave an empty piece. -/
theorem nil_mem_splitOn {sep : σ} {r : List σ} (h : [sep, sep] <:+: sep :: r ∨ [sep] <:+ r) :
    [] ∈ r.splitOn sep := by
  rcases h with ⟨a, b, hab⟩ | ⟨xs, hxs⟩
  · cases a with
    | nil =>
      have hr : sep :: b = r := (List.cons.inj hab).2
      rw [← hr, splitOn_cons_sep]
      exact List.mem_cons_self
    | cons c a =>
      have hr : a ++ sep :: (sep :: b) = r := by
        rw [← (List.cons.inj hab).2]
        simp
      rw [← hr, List.splitOn_append_cons_self, splitOn_cons_sep]
      simp
  · rw [← hxs, List.splitOn_append_cons_self]
    simp

/-- Reading the segments loses nothing but the leading separator. -/
theorem render_segments (sep : σ) (r : List σ) :
    render sep (segments sep (sep :: r)) = sep :: r := by
  by_cases hr : r = []
  · subst hr
    simp [segments, render]
  · have hne : sep :: r ≠ [sep] := by simp [hr]
    have hs : segments sep (sep :: r) = r.splitOn sep := if_neg hne
    rw [hs]
    cases he : r.splitOn sep with
    | nil => exact absurd he (List.splitOn_ne_nil sep r)
    | cons g gs =>
      change sep :: [sep].intercalate (g :: gs) = sep :: r
      rw [← he, List.intercalate_splitOn]

theorem render_injective (sep : σ) {gs hs : List (List σ)} (hg : Separable sep gs)
    (hh : Separable sep hs) (h : render sep gs = render sep hs) : gs = hs := by
  rw [← segments_render sep gs hg, h, segments_render sep hs hh]

/-- The string test can only hold along a prefix of segments, for arbitrary
strings that start with the separator. -/
theorem IsAncestor.prefix_segments {sep : σ} {p q : List σ} (h : IsAncestor sep p q)
    (hp : p ≠ []) : segments sep p <+: segments sep q := by
  rcases h with rfl | rfl | ⟨r, rfl⟩
  · simp [segments]
  · exact List.prefix_rfl
  · by_cases hr : p = [sep]
    · simp [segments, hr]
    · obtain ⟨c, p, rfl⟩ := List.exists_cons_of_ne_nil hp
      have hq : c :: p ++ sep :: r ≠ [sep] := by simp
      rw [segments, segments, if_neg hr, if_neg hq, List.cons_append, List.drop_one, List.drop_one,
        List.tail_cons, List.tail_cons, List.splitOn_append_cons_self]
      exact List.prefix_append _ _

/-- A strict ancestor has strictly fewer segments. -/
theorem IsAncestor.length_lt {sep : σ} {p q : List σ} (h : IsAncestor sep p q) (hp : p ≠ [])
    (hne : p ≠ q) : (segments sep p).length < (segments sep q).length := by
  have hq : q ≠ [sep] → 0 < (segments sep q).length := by
    intro hq
    rw [segments, if_neg hq]
    exact List.length_pos_iff.mpr (List.splitOn_ne_nil _ _)
  rcases h with rfl | rfl | ⟨r, rfl⟩
  · simpa [segments] using hq (Ne.symm hne)
  · exact absurd rfl hne
  · by_cases hr : p = [sep]
    · subst hr
      simpa [segments] using hq (by simp)
    · obtain ⟨c, p, rfl⟩ := List.exists_cons_of_ne_nil hp
      have hq' : c :: p ++ sep :: r ≠ [sep] := by simp
      rw [segments, segments, if_neg hr, if_neg hq', List.cons_append, List.drop_one, List.drop_one,
        List.tail_cons, List.tail_cons, List.splitOn_append_cons_self, List.length_append]
      have hl := List.length_pos_iff.mpr (List.splitOn_ne_nil sep r)
      omega

omit [DecidableEq σ] in
theorem IsAncestor.trans {sep : σ} {p q r : List σ} (hpq : IsAncestor sep p q)
    (hqr : IsAncestor sep q r) (hp : p ≠ []) : IsAncestor sep p r := by
  rcases hpq with hpr | rfl | ⟨x, hx⟩
  · exact .inl hpr
  · exact hqr
  · rcases hqr with hq | rfl | ⟨y, hy⟩
    · rw [hx] at hq
      exact absurd hq (by simp [List.append_eq_cons_iff, hp])
    · exact .inr (.inr ⟨x, hx⟩)
    · exact .inr (.inr ⟨x ++ sep :: y, by rw [hy, hx]; simp⟩)

/-- On rendered paths the string test is exactly the prefix order. -/
theorem isAncestor_render_iff (sep : σ) {gs hs : List (List σ)} (hg : Separable sep gs)
    (hh : Separable sep hs) :
    IsAncestor sep (render sep gs) (render sep hs) ↔ gs <+: hs := by
  constructor
  · intro h
    obtain ⟨r, hr⟩ := render_eq_cons sep gs
    have hp := h.prefix_segments (by rw [hr]; simp)
    rwa [segments_render sep gs hg, segments_render sep hs hh] at hp
  · intro h
    obtain ⟨ts, rfl⟩ := h
    by_cases hgs : gs = []
    · exact .inl (by rw [hgs]; rfl)
    · by_cases hts : ts = []
      · exact .inr (.inl (by rw [hts, List.append_nil]))
      · obtain ⟨r, hr⟩ := render_eq_cons sep ts
        exact .inr (.inr ⟨r, by rw [render_append sep gs ts hgs hts, hr]⟩)

end SeparatedPath
