import Mathlib.Data.List.Induction

/-!
# Lexical resolution of paths

What a path says by its text alone about where it leads. A path starts at the
root or at a place that is not known. Its components lead down by a name, up by
`..`, or nowhere by `.` or by nothing. From an unknown place, steps up are kept.
-/
namespace LexicalPath

/-- Some steps up from the start, and then some names down. The root has nothing above. -/
structure Place where
  absolute : Bool
  ups : ℕ
  names : List (List Char)
  deriving DecidableEq, Repr

namespace Place

/-- The place where a relative path starts. -/
def here : Place := ⟨false, 0, []⟩

/-- One component of a path further. -/
def step (self : Place) (component : List Char) : Place :=
  if component = [] ∨ component = ['.'] then self
  else if component = ['.', '.'] then
    if self.names = [] then
      if self.absolute then self else { self with ups := self.ups + 1 }
    else { self with names := self.names.dropLast }
  else { self with names := self.names ++ [component] }

/-- Where a path leads from a place. -/
def follow (self : Place) (path : List Char) : Place := (path.splitOn '/').foldl step self

/-- The second place lies strictly below the first. -/
def Inside (outer inner : Place) : Prop :=
  inner.absolute = outer.absolute ∧ inner.ups = outer.ups ∧
    ∃ rest, rest ≠ [] ∧ inner.names = outer.names ++ rest

/-- The names of the second place, below the first. -/
def below (outer inner : Place) : Place := ⟨outer.absolute, outer.ups, outer.names ++ inner.names⟩

theorem step_absolute (p : Place) (component : List Char) :
    (p.step component).absolute = p.absolute := by
  unfold step
  split_ifs <;> rfl

theorem foldl_step_absolute (p : Place) (components : List (List Char)) :
    (components.foldl step p).absolute = p.absolute := by
  induction components generalizing p with
  | nil => rfl
  | cons component components ih => rw [List.foldl_cons, ih, step_absolute]

lemma ups_le_step (p : Place) (component : List Char) : p.ups ≤ (p.step component).ups := by
  unfold step
  split_ifs <;> simp

/-- A step that does not go above the start is the same step below any other place. -/
lemma step_below (outer : Place) {p : Place} {component : List Char} (hp : p.absolute = false)
    (h : (p.step component).ups = 0) :
    (outer.below p).step component = outer.below (p.step component) := by
  by_cases hstay : component = [] ∨ component = ['.']
  · simp only [step, if_pos hstay]
  · by_cases hup : component = ['.', '.']
    · by_cases hnames : p.names = []
      · -- a step up from the start itself
        simp [step, hup, hnames, hp] at h
      · have hbelow : (outer.below p).names ≠ [] := by
          simp [below, hnames]
        simp only [step, if_neg hstay, if_pos hup, if_neg hnames, if_neg hbelow]
        simp only [below, List.dropLast_append_of_ne_nil hnames]
    · simp only [step, if_neg hstay, if_neg hup, below, List.append_assoc]

/-- Components that do not go above the start lead to the same names from everywhere. -/
theorem foldl_step_below (outer : Place) (components : List (List Char))
    (h : (components.foldl step here).ups = 0) :
    components.foldl step outer = outer.below (components.foldl step here) := by
  induction components using List.reverseRecOn with
  | nil => simp [below, here]
  | append_singleton components component ih =>
    rw [List.foldl_append, List.foldl_cons, List.foldl_nil] at h ⊢
    have hups : (components.foldl step here).ups = 0 :=
      Nat.le_zero.mp (h ▸ ups_le_step _ component)
    rw [ih hups, List.foldl_append, List.foldl_cons, List.foldl_nil]
    exact step_below outer (foldl_step_absolute here components) h

theorem follow_below (outer : Place) {path : List Char} (h : (here.follow path).ups = 0) :
    outer.follow path = outer.below (here.follow path) := foldl_step_below outer _ h

lemma follow_nil (p : Place) : p.follow [] = p := by
  simp [follow, step]

/-- A path of two parts is followed part by part. -/
theorem follow_append (p : Place) (first second : List Char) :
    p.follow (first ++ '/' :: second) = (p.follow first).follow second := by
  rw [follow, List.splitOn_append_cons_self, List.foldl_append]
  rfl

lemma inside_below (outer : Place) {inner : Place} (h : inner.names ≠ []) :
    outer.Inside (outer.below inner) := ⟨rfl, rfl, inner.names, h, rfl⟩

lemma below_inj {outer p q : Place} (h : outer.below p = outer.below q) : p.names = q.names :=
  List.append_cancel_left (congrArg names h)

end Place

/-- Where a path leads. -/
def resolve (path : List Char) : Place :=
  Place.follow ⟨path.head? = some '/', 0, []⟩ path

theorem resolve_absolute (path : List Char) :
    (resolve path).absolute = decide (path.head? = some '/') :=
  Place.foldl_step_absolute _ _

/-- A relative path leads where it leads from the start. -/
theorem resolve_of_relative {path : List Char} (h : path.head? ≠ some '/') :
    resolve path = Place.here.follow path := by
  rw [resolve, decide_eq_false h]
  rfl

/-- A relative path that stays below its start and leads to some name there. -/
structure StaysBelow (path : List Char) : Prop where
  relative : path.head? ≠ some '/'
  ups : (resolve path).ups = 0
  names : (resolve path).names ≠ []

/-- Such a path leads to the place that its names say. -/
theorem StaysBelow.resolve_eq {path : List Char} (h : StaysBelow path) :
    resolve path = ⟨false, 0, (resolve path).names⟩ := by
  have habs : (resolve path).absolute = false := by
    rw [resolve_absolute]
    exact decide_eq_false h.relative
  rw [← habs, ← h.ups]

end LexicalPath
