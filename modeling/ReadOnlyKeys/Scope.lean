import ReadOnlyKeys.Error
import ReadOnlyKeys.Lib.Bytes
import ReadOnlyKeys.Lib.Paths
import Mathlib.Data.List.Infix

/-!
# Scopes

A scope is a slash-separated path in a newtype over a string. The operations
work on the raw string. A valid scope is the string of a list of segments, and
on valid scopes each operation is its counterpart on segment lists.
-/
namespace ReadOnlyKeys
open Outcome Wire SeparatedPath

@[ext] structure Scope where
  path : List Char
  deriving DecidableEq, Repr

namespace Scope

def root : Scope := ⟨['/']⟩

/-- The characters a segment may hold. -/
def segmentChar (c : Char) : Bool := c.isAlphanum || c = '-' || c = '_'

/-- Create a scope from a path string, validating it. -/
def new (path : List Char) : Result Scope := do
  require (path ≠ []) (.invalidScope "scope cannot be empty")
  require (path.head? = some '/') (.invalidScope "scope must start with '/'")
  require (¬ (1 < (toUtf8 path).length ∧ path.getLast? = some '/'))
    (.invalidScope "scope must not end with '/' (except root)")
  require (¬ ['/', '/'] <:+: path) (.invalidScope "scope must not contain double slashes")
  -- the scan skips the leading slash by its index
  match path.zipIdx.find? fun ci => ci.2 ≠ 0 && !(segmentChar ci.1 || ci.1 = '/') with
  | some (ch, i) => fail (.invalidScope s!"invalid character '{ch}' at position {i}")
  | none =>
    if path ≠ ['/'] then do
      let tail ← sliceFrom path 1
      require (∀ segment ∈ tail.splitOn '/', segment ≠ [])
        (.invalidScope "scope contains empty segment")
      return ⟨path⟩
    else return ⟨path⟩

/-- Is `self` equal to or an ancestor of `descendant`? -/
def isAncestorOf (self descendant : Scope) : Bool :=
  if self.path = ['/'] then true
  else if self.path = descendant.path then true
  else self.path.isPrefixOf descendant.path &&
    (toUtf8 descendant.path)[(toUtf8 self.path).length]? = some 0x2f

/-- The number of path segments. -/
def depth (self : Scope) : Result ℕ :=
  if self.path = ['/'] then return 0
  else do
    let tail ← sliceFrom self.path 1
    return (tail.splitOn '/').length

/-- The path components, excluding the leading slash. -/
def components (self : Scope) : Result (List (List Char)) :=
  if self.path = ['/'] then return []
  else do
    let tail ← sliceFrom self.path 1
    return tail.splitOn '/'

/-- The parent scope, or `None` for the root. -/
def parent (self : Scope) : Result (Option Scope) :=
  if self.path = ['/'] then return none
  else
    match rfind '/' self.path with
    | some 0 => return some root
    | some pos => do
      let path ← sliceTo self.path pos
      return some ⟨path⟩
    | none => return none

/-- Append one segment. -/
def child (self : Scope) (segment : List Char) : Result Scope := do
  require (segment ≠ []) (.invalidScope "segment cannot be empty")
  require ('/' ∉ segment) (.invalidScope "segment must not contain '/'")
  match segment.find? fun ch => !segmentChar ch with
  | some ch => fail (.invalidScope s!"invalid character '{ch}' in segment")
  | none =>
    return ⟨if self.path = ['/'] then '/' :: segment else self.path ++ '/' :: segment⟩

/-- `Display`. -/
def display (self : Scope) : String := String.ofList self.path

/-- A segment of a valid scope. -/
def IsSegment (g : List Char) : Prop := g ≠ [] ∧ ∀ c ∈ g, segmentChar c = true

/-- The segments of a scope, as a list. -/
def segments (s : Scope) : List (List Char) := SeparatedPath.segments '/' s.path

/-- The scope at a list of segments. -/
def ofSegments (gs : List (List Char)) : Scope := ⟨render '/' gs⟩

/-- The grammar `new` enforces. -/
def Valid (s : Scope) : Prop := ∃ gs, (∀ g ∈ gs, IsSegment g) ∧ s = ofSegments gs

lemma segmentChar_ne_slash {c : Char} (h : segmentChar c = true) : c ≠ '/' := by
  intro hc
  subst hc
  revert h
  decide

lemma separable_of_isSegment {gs : List (List Char)} (h : ∀ g ∈ gs, IsSegment g) :
    Separable '/' gs :=
  fun g hg => ⟨(h g hg).1, fun hc => segmentChar_ne_slash ((h g hg).2 _ hc) rfl⟩

theorem segments_ofSegments {gs : List (List Char)} (h : ∀ g ∈ gs, IsSegment g) :
    (ofSegments gs).segments = gs :=
  segments_render '/' gs (separable_of_isSegment h)

lemma ofSegments_path_eq_root_iff {gs : List (List Char)} (h : ∀ g ∈ gs, IsSegment g) :
    (ofSegments gs).path = ['/'] ↔ gs = [] := by
  constructor
  · intro hp
    have hnil : Separable '/' ([] : List (List Char)) := by simp [Separable]
    exact render_injective '/' (separable_of_isSegment h) hnil hp
  · intro hg
    rw [hg]
    rfl

@[simp] theorem segments_root : root.segments = [] := rfl

theorem root_valid : root.Valid := ⟨[], by simp, rfl⟩

theorem Valid.isSegment {s : Scope} (h : s.Valid) : ∀ g ∈ s.segments, IsSegment g := by
  obtain ⟨gs, hgs, rfl⟩ := h
  rwa [segments_ofSegments hgs]

theorem Valid.eq_ofSegments {s : Scope} (h : s.Valid) : s = ofSegments s.segments := by
  obtain ⟨gs, hgs, rfl⟩ := h
  rw [segments_ofSegments hgs]

theorem Valid.ext {s t : Scope} (hs : s.Valid) (ht : t.Valid) (h : s.segments = t.segments) :
    s = t := by
  rw [hs.eq_ofSegments, h, ← ht.eq_ofSegments]

theorem Valid.exists_cons {s : Scope} (h : s.Valid) : ∃ r, s.path = '/' :: r := by
  obtain ⟨gs, _, rfl⟩ := h
  exact render_eq_cons '/' gs

/-- A string is valid when it starts with a slash and its segments are legal. -/
theorem valid_iff (s : Scope) :
    s.Valid ↔ (∃ r, s.path = '/' :: r) ∧ ∀ g ∈ s.segments, IsSegment g := by
  constructor
  · intro h
    exact ⟨h.exists_cons, h.isSegment⟩
  · intro h
    obtain ⟨⟨r, hr⟩, hg⟩ := h
    refine ⟨s.segments, hg, ?_⟩
    have hs := render_segments '/' r
    rw [← hr] at hs
    rw [ofSegments, segments, hs]

-- through `List.all`: characters are a finite type and must not be enumerated
instance (g : List Char) : Decidable (IsSegment g) :=
  decidable_of_iff (g ≠ [] ∧ g.all segmentChar = true) (by rw [List.all_eq_true]; rfl)

instance (s : Scope) : Decidable s.Valid :=
  decidable_of_iff (s.path.head? = some '/' ∧ ∀ g ∈ s.segments, IsSegment g)
    (by rw [valid_iff, List.head?_eq_some_iff])

lemma sliceFrom_one (r : List Char) : (sliceFrom ('/' :: r) 1 : Result (List Char)) = .ok r := by
  cases r <;> rfl

/-- Whenever the slice at byte 1 succeeds, the components are the segments. -/
theorem components_eq_ok {s : Scope} {cs : List (List Char)} (h : s.components = .ok cs) :
    cs = s.segments ∧ s.path ≠ [] := by
  by_cases hr : s.path = ['/']
  · rw [components, if_pos hr] at h
    rw [segments, SeparatedPath.segments, if_pos hr]
    exact ⟨(Except.ok.inj h).symm, by simp [hr]⟩
  · rw [components, if_neg hr, bind_eq_ok_iff] at h
    obtain ⟨tail, ht, h⟩ := h
    rw [segments, SeparatedPath.segments, if_neg hr, ← Except.ok.inj h]
    cases hp : s.path with
    | nil => rw [hp] at ht; cases ht
    | cons c r =>
      have hc := c.utf8Size_pos
      rw [hp, sliceFrom] at ht
      split_ifs at ht with hle
      have hz : 0 + 1 - c.utf8Size = 0 := by omega
      rw [hz] at ht
      cases r <;> simp only [sliceFrom, Except.ok.injEq] at ht <;> simp [← ht]

theorem Valid.components {s : Scope} (h : s.Valid) : s.components = .ok s.segments := by
  obtain ⟨r, hr⟩ := h.exists_cons
  rw [Scope.components, segments, SeparatedPath.segments, hr]
  by_cases he : '/' :: r = ['/']
  · rw [if_pos he, if_pos he]
    rfl
  · rw [if_neg he, if_neg he, sliceFrom_one, ok_bind, List.drop_one, List.tail_cons]
    rfl

/-- The components can be read: the string is not empty and has a boundary at byte 1. -/
def Sliceable (s : Scope) : Prop := ∃ cs, s.components = .ok cs

theorem Sliceable.components {s : Scope} (h : s.Sliceable) : s.components = .ok s.segments := by
  obtain ⟨cs, hcs⟩ := h
  rw [hcs, (components_eq_ok hcs).1]

theorem Sliceable.path_ne_nil {s : Scope} (h : s.Sliceable) : s.path ≠ [] := by
  obtain ⟨cs, hcs⟩ := h
  exact (components_eq_ok hcs).2

theorem Valid.sliceable {s : Scope} (h : s.Valid) : s.Sliceable := ⟨_, h.components⟩

/-- The byte after a proper string prefix is a slash exactly when the next
character is. -/
lemma getElem?_slash_iff (p q : List Char) :
    (toUtf8 (p ++ q))[(toUtf8 p).length]? = some 0x2f ↔ ∃ r, q = '/' :: r := by
  rw [toUtf8_append, List.getElem?_append_right (le_refl _), Nat.sub_self]
  cases q with
  | nil => simp
  | cons c q =>
    rw [toUtf8_cons, List.getElem?_append_left (List.length_pos_iff.mpr
      String.utf8EncodeChar_ne_nil), ← List.head?_eq_getElem?]
    constructor
    · intro h
      have hc := utf8EncodeChar_head c 0x2f (by decide) h
      have he : c = '/' := Char.toNat_inj.mp hc
      exact ⟨q, by rw [he]⟩
    · intro h
      obtain ⟨r, hr⟩ := h
      rw [(List.cons.inj hr).1]
      decide

/-- The byte-offset test is the string relation of separated paths. -/
theorem isAncestorOf_iff_isAncestor (s t : Scope) :
    s.isAncestorOf t = true ↔ IsAncestor '/' s.path t.path := by
  unfold isAncestorOf IsAncestor
  by_cases hr : s.path = ['/']
  · simp [hr]
  by_cases he : s.path = t.path
  · simp [he]
  rw [if_neg hr, if_neg he, Bool.and_eq_true, List.isPrefixOf_iff_prefix, decide_eq_true_eq]
  constructor
  · intro h
    obtain ⟨⟨q, hq⟩, hb⟩ := h
    rw [← hq, getElem?_slash_iff] at hb
    obtain ⟨r, rfl⟩ := hb
    exact .inr (.inr ⟨r, hq.symm⟩)
  · intro h
    rcases h with h | h | ⟨r, h⟩
    · exact absurd h hr
    · exact absurd h he
    · refine ⟨⟨'/' :: r, h.symm⟩, ?_⟩
      rw [h, getElem?_slash_iff]
      exact ⟨r, rfl⟩

/-- On valid scopes, ancestry is the prefix order of segments. -/
theorem isAncestorOf_iff {s t : Scope} (hs : s.Valid) (ht : t.Valid) :
    s.isAncestorOf t = true ↔ s.segments <+: t.segments := by
  rw [isAncestorOf_iff_isAncestor]
  obtain ⟨gs, hg, rfl⟩ := hs
  obtain ⟨hs, hh, rfl⟩ := ht
  rw [segments_ofSegments hg, segments_ofSegments hh]
  exact isAncestor_render_iff '/' (separable_of_isSegment hg) (separable_of_isSegment hh)

/-- For arbitrary strings the test still forces a prefix of segments, unless the
string is empty. -/
theorem prefix_segments_of_isAncestorOf {s t : Scope} (h : s.isAncestorOf t = true)
    (hs : s.path ≠ []) : s.segments <+: t.segments :=
  ((isAncestorOf_iff_isAncestor s t).mp h).prefix_segments hs

/-- A strict ancestor is at a strictly smaller depth. -/
theorem length_segments_lt {s t : Scope} (h : s.isAncestorOf t = true) (hs : s.path ≠ [])
    (hne : s ≠ t) : s.segments.length < t.segments.length :=
  ((isAncestorOf_iff_isAncestor s t).mp h).length_lt hs fun hp => hne (Scope.ext hp)

@[simp] theorem isAncestorOf_self (s : Scope) : s.isAncestorOf s = true := by simp [isAncestorOf]

theorem isAncestorOf_trans {s t u : Scope} (hst : s.isAncestorOf t = true)
    (htu : t.isAncestorOf u = true) (hs : s.path ≠ []) : s.isAncestorOf u = true := by
  rw [isAncestorOf_iff_isAncestor] at hst htu ⊢
  exact hst.trans htu hs

lemma find?_scan_eq_none_iff (r : List Char) :
    (('/' :: r).zipIdx.find? fun ci => ci.2 ≠ 0 && !(segmentChar ci.1 || ci.1 = '/')) = none ↔
      ∀ c ∈ r, segmentChar c = true ∨ c = '/' := by
  rw [List.find?_eq_none]
  constructor
  · intro h c hc
    obtain ⟨i, hi, rfl⟩ := List.getElem_of_mem hc
    have hm : (r[i], i + 1) ∈ ('/' :: r).zipIdx := by
      rw [List.mk_mem_zipIdx_iff_getElem?, List.getElem?_cons_succ]
      exact List.getElem?_eq_getElem hi
    have hs := h _ hm
    by_cases hc : segmentChar r[i] = true
    · exact .inl hc
    · exact .inr (by simpa [hc] using hs)
  · intro h ci hci
    obtain ⟨c, i⟩ := ci
    rw [List.mk_mem_zipIdx_iff_getElem?] at hci
    cases i with
    | zero => simp
    | succ i =>
      rw [List.getElem?_cons_succ] at hci
      rcases h c (List.mem_of_getElem? hci) with hc | hc <;> simp [hc]

lemma segments_cons {r : List Char} (hr : r ≠ []) :
    (⟨'/' :: r⟩ : Scope).segments = r.splitOn '/' := if_neg (by simpa using hr)

/-- A valid string has no empty piece after its leading slash. -/
lemma Valid.nil_notMem {r : List Char} (h : (⟨'/' :: r⟩ : Scope).Valid) (hr : r ≠ []) :
    [] ∉ r.splitOn '/' := by
  intro hm
  rw [← segments_cons hr] at hm
  exact (h.isSegment [] hm).1 rfl

lemma Valid.chars {r : List Char} (h : (⟨'/' :: r⟩ : Scope).Valid) :
    ∀ c ∈ r, segmentChar c = true ∨ c = '/' := by
  intro c hc
  have hne : (⟨'/' :: r⟩ : Scope).segments ≠ [] := by
    rw [segments_cons (List.ne_nil_of_mem hc)]
    exact List.splitOn_ne_nil _ _
  have he := congrArg Scope.path h.eq_ofSegments
  rw [ofSegments, render_eq_flatMap _ _ hne] at he
  have hm : c ∈ (⟨'/' :: r⟩ : Scope).segments.flatMap ('/' :: ·) := by
    simp only at he
    rw [← he]
    exact List.mem_cons_of_mem _ hc
  obtain ⟨g, hg, hcg⟩ := List.mem_flatMap.mp hm
  rcases List.mem_cons.mp hcg with hcs | hcg
  · exact .inr hcs
  · exact .inl ((h.isSegment g hg).2 c hcg)

lemma segmentChar_range {c : Char} (h : segmentChar c = true ∨ c = '/') :
    0x2d ≤ c.toNat ∧ c.toNat < 128 := by
  rcases h with h | h
  · have hc : ((decide (65 ≤ c.val ∧ c.val ≤ 90) || (97 ≤ c.val && c.val ≤ 122)) ||
        (48 ≤ c.val && c.val ≤ 57) || decide (c = '-') || decide (c = '_')) = true := h
    simp only [Bool.or_eq_true, Bool.and_eq_true, decide_eq_true_eq, UInt32.le_iff_toNat_le] at hc
    rcases hc with (hc | hc) | hc
    · show 45 ≤ c.val.toNat ∧ c.val.toNat < 128
      simp only [UInt32.reduceToNat] at hc
      omega
    · subst hc
      decide
    · subst hc
      decide
  · subst h
    decide

/-- The characters of a valid path are ASCII, from the hyphen upwards. -/
theorem Valid.char_range {s : Scope} (h : s.Valid) :
    ∀ c ∈ s.path, 0x2d ≤ c.toNat ∧ c.toNat < 128 := by
  obtain ⟨p⟩ := s
  obtain ⟨r, rfl⟩ := h.exists_cons
  intro c hc
  rcases List.mem_cons.mp hc with hc | hc
  · exact segmentChar_range (.inr hc)
  · exact segmentChar_range (h.chars c hc)

lemma Valid.no_double_slash {r : List Char} (h : (⟨'/' :: r⟩ : Scope).Valid) :
    ¬ ['/', '/'] <:+: '/' :: r := by
  intro hd
  by_cases hr : r = []
  · subst hr
    exact absurd hd.length_le (by decide)
  · exact h.nil_notMem hr (nil_mem_splitOn (.inl hd))

lemma Valid.no_trailing_slash {r : List Char} (h : (⟨'/' :: r⟩ : Scope).Valid) :
    ¬ (1 < (toUtf8 ('/' :: r)).length ∧ ('/' :: r).getLast? = some '/') := by
  intro ht
  obtain ⟨hlen, hlast⟩ := ht
  obtain ⟨q, hq⟩ := List.getLast?_eq_some_iff.mp hlast
  cases q with
  | nil =>
    rw [hq] at hlen
    exact absurd hlen (by decide)
  | cons c q =>
    have hr : r = q ++ ['/'] := (List.cons.inj hq).2
    exact h.nil_notMem (by simp [hr]) (nil_mem_splitOn (.inr ⟨q, hr.symm⟩))

/-- `new` accepts exactly the grammar and keeps the string. -/
theorem new_eq_ok_iff (p : List Char) (s : Scope) : new p = .ok s ↔ s = ⟨p⟩ ∧ s.Valid := by
  constructor
  · intro h
    simp only [new, bind_eq_ok_iff, require_eq_ok_iff] at h
    obtain ⟨_, hne, _, hhead, _, _, _, _, h⟩ := h
    obtain ⟨c, r, rfl⟩ := List.exists_cons_of_ne_nil hne
    obtain rfl : c = '/' := by simpa using hhead
    cases hf : (('/' :: r).zipIdx.find? fun ci => ci.2 ≠ 0 && !(segmentChar ci.1 || ci.1 = '/')) with
    | some ci =>
      rw [hf] at h
      cases h
    | none =>
      rw [hf] at h
      have hscan := (find?_scan_eq_none_iff r).mp hf
      by_cases hr : r = []
      · subst hr
        obtain rfl := Except.ok.inj h
        exact ⟨rfl, root_valid⟩
      · simp only at h
        rw [if_pos (by simpa using hr), sliceFrom_one, ok_bind, bind_eq_ok_iff] at h
        obtain ⟨_, hseg, h⟩ := h
        obtain rfl := Except.ok.inj h
        rw [require_eq_ok_iff] at hseg
        refine ⟨rfl, (valid_iff _).mpr ⟨⟨r, rfl⟩, ?_⟩⟩
        intro g hg
        rw [segments_cons hr] at hg
        refine ⟨hseg g hg, fun c hc => ?_⟩
        have hm := mem_splitOn '/' r g hg c hc
        exact (hscan c hm.1).resolve_right hm.2
  · intro h
    obtain ⟨rfl, hv⟩ := h
    obtain ⟨r, hr⟩ := hv.exists_cons
    simp only at hr
    subst hr
    have hscan := (find?_scan_eq_none_iff r).mpr hv.chars
    rw [new, require_of _ _ (by simp), ok_bind, require_of _ _ (by simp), ok_bind,
      require_of _ _ hv.no_trailing_slash, ok_bind, require_of _ _ hv.no_double_slash, ok_bind,
      hscan]
    by_cases hr : r = []
    · subst hr
      rfl
    · have hseg : ∀ segment ∈ r.splitOn '/', segment ≠ [] :=
        fun g hg he => hv.nil_notMem hr (he ▸ hg)
      simp only
      rw [if_pos (by simpa using hr), sliceFrom_one, ok_bind, require_of _ _ hseg]
      rfl

/-- A call of `new` never panics. -/
theorem new_ne_panic (p : List Char) : new p ≠ .error .panic := by
  intro h
  simp only [new, bind_eq_panic_iff, require_eq_ok_iff, require_ne_panic, false_or] at h
  obtain ⟨_, hne, _, hhead, _, _, _, _, h⟩ := h
  obtain ⟨c, r, rfl⟩ := List.exists_cons_of_ne_nil hne
  obtain rfl : c = '/' := by simpa using hhead
  split at h
  · cases h
  · rw [sliceFrom_one, ok_bind] at h
    split_ifs at h
    · rw [bind_eq_panic_iff] at h
      simp only [require_ne_panic, false_or] at h
      obtain ⟨_, _, h⟩ := h
      cases h
    · cases h

/-- `child` appends one legal segment, on any scope string. -/
theorem child_eq_ok_iff (s t : Scope) (g : List Char) :
    s.child g = .ok t ↔ IsSegment g ∧
      t = ⟨if s.path = ['/'] then '/' :: g else s.path ++ '/' :: g⟩ := by
  simp only [child, bind_eq_ok_iff, require_eq_ok_iff, IsSegment]
  constructor
  · intro h
    obtain ⟨_, hne, _, _, h⟩ := h
    cases hf : g.find? fun ch => !segmentChar ch with
    | some ch =>
      rw [hf] at h
      cases h
    | none =>
      rw [hf] at h
      rw [List.find?_eq_none] at hf
      exact ⟨⟨hne, fun c hc => by simpa using hf c hc⟩, (Except.ok.inj h).symm⟩
  · intro h
    obtain ⟨⟨hne, hc⟩, rfl⟩ := h
    have hf : g.find? (fun ch => !segmentChar ch) = none :=
      List.find?_eq_none.mpr fun c hm => by simp [hc c hm]
    refine ⟨(), hne, (), fun hs => segmentChar_ne_slash (hc _ hs) rfl, ?_⟩
    rw [hf]
    rfl

/-- On a valid scope, `child` extends the list of segments. -/
theorem Valid.child_eq_ok_iff {s : Scope} (h : s.Valid) (t : Scope) (g : List Char) :
    s.child g = .ok t ↔ IsSegment g ∧ t = ofSegments (s.segments ++ [g]) := by
  rw [Scope.child_eq_ok_iff]
  have hp : (⟨if s.path = ['/'] then '/' :: g else s.path ++ '/' :: g⟩ : Scope) =
      ofSegments (s.segments ++ [g]) := by
    obtain ⟨gs, hgs, rfl⟩ := h
    rw [segments_ofSegments hgs]
    have hroot := ofSegments_path_eq_root_iff hgs
    by_cases hr : gs = []
    · rw [if_pos (hroot.mpr hr), ofSegments, render_concat, if_pos hr, List.nil_append]
    · rw [if_neg fun hp => hr (hroot.mp hp), ofSegments, ofSegments, render_concat, if_neg hr]
  rw [hp]

end Scope

end ReadOnlyKeys
