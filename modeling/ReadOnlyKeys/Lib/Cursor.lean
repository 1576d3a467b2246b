import ReadOnlyKeys.Lib.Outcome
import ReadOnlyKeys.Lib.Bytes
import Mathlib.Tactic.Ring

/-!
# Cursors over a byte slice

A parser that keeps a `usize` position into a slice and advances it read by
read. `Reads` says exactly which bytes a program consumes and what it returns,
and is composed along binds; `Safe` says that it cannot panic. Positions are
machine words, so the one primitive read can overflow.
-/
namespace Wire
open Outcome

/-- `isize::MAX` on a 64-bit target. -/
def isizeMax : ℕ := 2 ^ 63 - 1

/-- A borrowed byte slice. No allocation is larger than `isize::MAX` bytes. -/
structure Slice where
  bytes : Bytes
  length_le : bytes.length ≤ isizeMax

namespace Slice

def length (data : Slice) : ℕ := data.bytes.length

lemma length_lt (data : Slice) : data.bytes.length < 2 ^ 63 := by
  have h := data.length_le
  unfold isizeMax at h
  omega

/-- A part of a slice, taken as a slice again. -/
def ofBytes {ε : Type} (bs : Bytes) : Except (Fault ε) Slice :=
  if h : bs.length ≤ isizeMax then .ok ⟨bs, h⟩ else .error .panic

theorem ofBytes_eq_ok_iff {ε : Type} (bs : Bytes) (data : Slice) (h : bs.length < 2 ^ 63) :
    (ofBytes bs : Except (Fault ε) Slice) = .ok data ↔ bs = data.bytes := by
  have hle : bs.length ≤ isizeMax := by
    unfold isizeMax
    omega
  rw [ofBytes, dif_pos hle]
  obtain ⟨cs, hcs⟩ := data
  simp

end Slice

/-- What the target does when an addition leaves the word: wrap around, as
release builds do, or trap, as debug builds do. -/
inductive Overflow where
  | wrapping
  | trapping
  deriving DecidableEq, Repr

abbrev Cursor (ε : Type) := StateT ℕ (Except (Fault ε))

variable {ε α β : Type}

/-- `a + b` on `usize`. -/
def usizeAdd (m : Overflow) (a b : ℕ) : Except (Fault ε) ℕ :=
  if a + b < 2 ^ 64 then .ok (a + b)
  else match m with
    | .wrapping => .ok ((a + b) % 2 ^ 64)
    | .trapping => .error .panic

/-- `&data[start..stop]`. -/
def sliceRange (data : Bytes) (start stop : ℕ) : Except (Fault ε) Bytes :=
  if start ≤ stop ∧ stop ≤ data.length then .ok ((data.drop start).take (stop - start))
  else .error .panic

/-- The `read_bytes` closure: the sum is formed for the check, for the slice
and for the new position. -/
def readBytes (m : Overflow) (data : Slice) (eof : ε) (n : ℕ) : Cursor ε Bytes := do
  let pos ← get
  let stop ← call (usizeAdd m pos n)
  call (require (stop ≤ data.length) eof)
  let slice ← call (sliceRange data.bytes pos stop)
  set stop
  return slice

/-- Repeat a read a given number of times. -/
def readMany (p : Cursor ε α) : ℕ → Cursor ε (List α)
  | 0 => pure []
  | n + 1 => do
    let a ← p
    let as ← readMany p n
    return a :: as

lemma readBytes_run_eq (m : Overflow) (data : Slice) (eof : ε) (n pos : ℕ) :
    (readBytes m data eof n).run pos =
      usizeAdd m pos n >>= fun stop => require (stop ≤ data.length) eof >>= fun _ =>
        sliceRange data.bytes pos stop >>= fun slice => .ok (slice, stop) := by
  simp only [readBytes, StateT.run_bind, StateT.run_get, pure_bind]
  cases (usizeAdd m pos n : Except (Fault ε) ℕ) with
  | error e => rfl
  | ok stop =>
    simp only [call_run_ok, ok_bind]
    cases require (stop ≤ data.length) eof with
    | error e => rfl
    | ok u =>
      simp only [call_run_ok, ok_bind]
      cases (sliceRange data.bytes pos stop : Except (Fault ε) Bytes) <;> rfl

/-- The three outcomes of one read, by where its end falls. -/
theorem readBytes_run (m : Overflow) (data : Slice) (eof : ε) (n pos : ℕ)
    (hpos : pos ≤ data.bytes.length) (hn : n < 2 ^ 64) :
    (readBytes m data eof n).run pos =
      if 2 ^ 64 ≤ pos + n then .error .panic
      else if data.bytes.length < pos + n then .error (.err eof)
      else .ok ((data.bytes.drop pos).take n, pos + n) := by
  have hlen := data.length_lt
  rw [readBytes_run_eq]
  by_cases ho : 2 ^ 64 ≤ pos + n
  · have hw : (pos + n) % 2 ^ 64 = pos + n - 2 ^ 64 := by
      rw [Nat.mod_eq_sub_mod ho, Nat.mod_eq_of_lt (by omega)]
    rw [if_pos ho]
    unfold usizeAdd
    rw [if_neg (by omega)]
    cases m with
    | trapping => rfl
    | wrapping =>
      -- the wrapped end lies before the start: the check passes and the slice panics
      have hle : (pos + n) % 2 ^ 64 ≤ data.length := by rw [hw, Slice.length]; omega
      simp only [ok_bind, require_of _ _ hle]
      rw [sliceRange, if_neg (by omega), error_bind]
  · rw [if_neg ho]
    unfold usizeAdd
    rw [if_pos (by omega), ok_bind]
    by_cases hl : data.bytes.length < pos + n
    · rw [if_pos hl, require, if_neg (by rw [Slice.length]; omega), error_bind]
    · rw [if_neg hl, require_of _ _ (by rw [Slice.length]; omega), ok_bind, sliceRange,
        if_pos (by omega), ok_bind, Nat.add_sub_cancel_left]

/-- `p` returns `a` exactly on the encodings `F a`, and consumes that encoding. -/
def Reads (data : Slice) (p : Cursor ε α) (F : α → Bytes → Prop) : Prop :=
  ∀ pos, pos ≤ data.bytes.length → ∀ a pos', p.run pos = .ok (a, pos') ↔
    ∃ bs, F a bs ∧ bs <+: data.bytes.drop pos ∧ pos' = pos + bs.length

namespace Reads

variable {data : Slice} {p : Cursor ε α} {q : α → Cursor ε β}
  {F : α → Bytes → Prop} {G : α → β → Bytes → Prop}

lemma prefix_length {bs : Bytes} {pos : ℕ} (hpos : pos ≤ data.bytes.length)
    (h : bs <+: data.bytes.drop pos) : pos + bs.length ≤ data.bytes.length := by
  have hl := h.length_le
  rw [List.length_drop] at hl
  omega

lemma append_prefix_drop {xs ys : Bytes} {pos : ℕ} :
    xs ++ ys <+: data.bytes.drop pos ↔
      xs <+: data.bytes.drop pos ∧ ys <+: data.bytes.drop (pos + xs.length) := by
  constructor
  · rintro ⟨t, ht⟩
    rw [List.append_assoc] at ht
    refine ⟨⟨ys ++ t, ht⟩, t, ?_⟩
    rw [← List.drop_drop, ← ht, List.drop_left]
  · rintro ⟨⟨s, hs⟩, t, ht⟩
    rw [← List.drop_drop, ← hs, List.drop_left] at ht
    exact ⟨t, by rw [← hs, ← ht, List.append_assoc]⟩

/-- The position a successful read leaves is inside the slice. -/
theorem position_le (hp : Reads data p F) {pos pos' : ℕ} {a : α}
    (hpos : pos ≤ data.bytes.length) (h : p.run pos = .ok (a, pos')) :
    pos' ≤ data.bytes.length := by
  obtain ⟨bs, _, hbs, rfl⟩ := (hp pos hpos a pos').mp h
  exact prefix_length hpos hbs

theorem congr (hp : Reads data p F) {F' : α → Bytes → Prop} (h : ∀ a bs, F a bs ↔ F' a bs) :
    Reads data p F' := by
  have he : F = F' := funext fun a => funext fun bs => propext (h a bs)
  exact he ▸ hp

theorem pure (a : α) : Reads data (pure a : Cursor ε α) (fun b bs => b = a ∧ bs = []) := by
  intro pos _ b pos'
  rw [run_pure_eq_ok_iff]
  constructor
  · rintro ⟨rfl, rfl⟩
    exact ⟨[], ⟨rfl, rfl⟩, List.nil_prefix, rfl⟩
  · rintro ⟨bs, ⟨rfl, rfl⟩, _, rfl⟩
    exact ⟨rfl, rfl⟩

/-- A call that does not touch the position consumes nothing. -/
theorem call (x : Except (Fault ε) α) :
    Reads data (Outcome.call x) (fun a bs => x = .ok a ∧ bs = []) := by
  intro pos _ a pos'
  rw [call_run_eq_ok_iff]
  constructor
  · rintro ⟨rfl, rfl⟩
    exact ⟨[], ⟨rfl, rfl⟩, List.nil_prefix, rfl⟩
  · rintro ⟨bs, ⟨rfl, rfl⟩, _, rfl⟩
    exact ⟨rfl, rfl⟩

/-- Consecutive reads consume consecutive encodings. The second may assume what
the first returned. -/
theorem bind (hp : Reads data p F) (hq : ∀ a xs, F a xs → Reads data (q a) (G a)) :
    Reads data (p >>= q) (fun b bs => ∃ a xs ys, F a xs ∧ G a b ys ∧ bs = xs ++ ys) := by
  intro pos hpos b pos'
  rw [run_bind_eq_ok_iff]
  constructor
  · rintro ⟨a, mid, ha, hb⟩
    have hmid := hp.position_le hpos ha
    obtain ⟨xs, hF, hxs, rfl⟩ := (hp pos hpos a mid).mp ha
    obtain ⟨ys, hG, hys, rfl⟩ := (hq a xs hF _ hmid b pos').mp hb
    refine ⟨xs ++ ys, ⟨a, xs, ys, hF, hG, rfl⟩, append_prefix_drop.mpr ⟨hxs, hys⟩, ?_⟩
    rw [List.length_append, Nat.add_assoc]
  · rintro ⟨bs, ⟨a, xs, ys, hF, hG, rfl⟩, hbs, rfl⟩
    obtain ⟨hxs, hys⟩ := append_prefix_drop.mp hbs
    refine ⟨a, pos + xs.length, (hp pos hpos a _).mpr ⟨xs, hF, hxs, rfl⟩, ?_⟩
    refine (hq a xs hF _ (prefix_length hpos hxs) b _).mpr ⟨ys, hG, hys, ?_⟩
    rw [List.length_append, Nat.add_assoc]

/-- A call in front of a program only restricts when the program runs. -/
theorem call_bind (x : Except (Fault ε) α) (hq : ∀ a, Reads data (q a) (G a)) :
    Reads data (Outcome.call x >>= q) (fun b bs => ∃ a, x = .ok a ∧ G a b bs) := by
  apply (Reads.bind (Reads.call x) fun a _ _ => hq a).congr
  intro b bs
  constructor
  · rintro ⟨a, xs, ys, ⟨hx, rfl⟩, hG, rfl⟩
    exact ⟨a, hx, hG⟩
  · rintro ⟨a, hx, hG⟩
    exact ⟨a, [], bs, ⟨hx, rfl⟩, hG, rfl⟩

/-- A call on what was read adds its own condition and consumes nothing. -/
theorem bind_call (hp : Reads data p F) (x : α → Except (Fault ε) β) :
    Reads data (p >>= fun a => Outcome.call (x a)) (fun b bs => ∃ a, F a bs ∧ x a = .ok b) := by
  apply (Reads.bind hp fun a _ _ => Reads.call (x a)).congr
  intro b bs
  constructor
  · intro h
    obtain ⟨a, xs, _, hF, ⟨hx, rfl⟩, rfl⟩ := h
    rw [List.append_nil]
    exact ⟨a, hF, hx⟩
  · intro h
    obtain ⟨a, hF, hx⟩ := h
    exact ⟨a, bs, [], hF, ⟨hx, rfl⟩, (List.append_nil bs).symm⟩

theorem bind_pure (hp : Reads data p F) (f : α → β) :
    Reads data (p >>= fun a => Pure.pure (f a)) (fun b bs => ∃ a, F a bs ∧ f a = b) := by
  apply (hp.bind_call fun a => .ok (f a)).congr
  intro b bs
  simp only [Except.ok.injEq]

/-- Reading one field of a record. `K` says what is known of the record from the
fields before it, and the bytes `f` of the field may depend on those. -/
theorem field {K P R : β → Prop} {f g : β → Bytes} (hp : Reads data p F) (proj : β → α)
    (hF : ∀ r bs, K r → (F (proj r) bs ↔ P r ∧ bs = f r))
    (hq : ∀ a xs, F a xs →
      Reads data (q a) (fun r bs => (proj r = a ∧ K r) ∧ R r ∧ bs = g r)) :
    Reads data (p >>= q) (fun r bs => K r ∧ (P r ∧ R r) ∧ bs = f r ++ g r) := by
  apply (Reads.bind hp hq).congr
  intro r bs
  constructor
  · intro h
    obtain ⟨a, xs, ys, hxs, ⟨⟨rfl, hK⟩, hR, rfl⟩, rfl⟩ := h
    obtain ⟨hP, rfl⟩ := (hF r xs hK).mp hxs
    exact ⟨hK, ⟨hP, hR⟩, rfl⟩
  · intro h
    obtain ⟨hK, ⟨hP, hR⟩, rfl⟩ := h
    exact ⟨proj r, f r, g r, (hF r _ hK).mpr ⟨hP, rfl⟩, ⟨⟨rfl, hK⟩, hR, rfl⟩, rfl⟩

/-- Reading one field that is constrained by nothing but its encoding. -/
theorem exactField {K R : β → Prop} {e : α → Bytes} {g : β → Bytes}
    (hp : Reads data p (fun a bs => bs = e a)) (proj : β → α)
    (hq : ∀ a, Reads data (q a) (fun r bs => (proj r = a ∧ K r) ∧ R r ∧ bs = g r)) :
    Reads data (p >>= q) (fun r bs => K r ∧ R r ∧ bs = e (proj r) ++ g r) := by
  apply (hp.field (P := fun _ => True) proj (fun _ _ _ => (iff_of_eq (true_and _)).symm)
    fun a _ _ => hq a).congr
  intro r bs
  rw [true_and]

/-- The last step of a record: every field is known and nothing is left to read. -/
theorem record {K : α → Prop} (a : α) (hK : ∀ r, K r ↔ r = a) :
    Reads data (Pure.pure a : Cursor ε α) (fun r bs => K r ∧ True ∧ bs = []) := by
  apply (Reads.pure a).congr
  intro r bs
  rw [hK]
  simp

theorem readBytes (m : Overflow) (eof : ε) (n : ℕ) (hn : n < 2 ^ 64) :
    Reads data (readBytes m data eof n) (fun a bs => bs = a ∧ a.length = n) := by
  intro pos hpos a pos'
  have hlen := data.length_lt
  rw [readBytes_run m data eof n pos hpos hn]
  split_ifs with ho hl
  · simp only [false_iff, not_exists, not_and]
    rintro bs ⟨rfl, rfl⟩ hbs
    have := prefix_length hpos hbs
    omega
  · simp only [false_iff, not_exists, not_and]
    rintro bs ⟨rfl, rfl⟩ hbs
    have := prefix_length hpos hbs
    omega
  · have htake : ((data.bytes.drop pos).take n).length = n := by
      rw [List.length_take, List.length_drop]
      omega
    constructor
    · intro h
      obtain ⟨rfl, rfl⟩ := Prod.mk.inj (Except.ok.inj h)
      exact ⟨_, ⟨rfl, htake⟩, List.take_prefix _ _, by rw [htake]⟩
    · rintro ⟨bs, ⟨rfl, rfl⟩, hbs, rfl⟩
      rw [← List.prefix_iff_eq_take.mp hbs]

/-- A loop of reads consumes the concatenation of what each round consumes. -/
theorem readMany (hp : Reads data p F) (n : ℕ) :
    Reads data (readMany p n) (fun as bs => as.length = n ∧
      ∃ parts, List.Forall₂ F as parts ∧ bs = parts.flatten) := by
  induction n with
  | zero =>
    apply (Reads.pure []).congr
    intro as bs
    constructor
    · rintro ⟨rfl, rfl⟩
      exact ⟨rfl, [], .nil, rfl⟩
    · rintro ⟨has, parts, hparts, rfl⟩
      obtain rfl := List.length_eq_zero_iff.mp has
      cases hparts
      exact ⟨rfl, rfl⟩
  | succ n ih =>
    apply (Reads.bind hp fun a _ _ => Reads.bind ih fun as _ _ => Reads.pure (a :: as)).congr
    intro as bs
    constructor
    · rintro ⟨a, xs, ys, hF, ⟨tail, ps, qs, ⟨rfl, parts, hparts, rfl⟩, ⟨rfl, rfl⟩, rfl⟩, rfl⟩
      exact ⟨rfl, xs :: parts, .cons hF hparts, by simp⟩
    · rintro ⟨has, parts, hparts, rfl⟩
      cases hparts with
      | nil => simp at has
      | @cons a xs as parts hF hparts =>
        have htail : as.length = n := by simpa using has
        exact ⟨a, xs, parts.flatten, hF, ⟨as, parts.flatten, [], ⟨htail, parts, hparts, rfl⟩,
          ⟨rfl, rfl⟩, by simp⟩, rfl⟩

/-- The loop over records whose encoding is a function of the record. -/
theorem readMany_flatMap {P : α → Prop} {f : α → Bytes}
    (hp : Reads data p (fun a bs => P a ∧ bs = f a)) (n : ℕ) :
    Reads data (Wire.readMany p n)
      (fun as bs => as.length = n ∧ (∀ a ∈ as, P a) ∧ bs = as.flatMap f) := by
  apply (hp.readMany n).congr
  intro as bs
  have hmap : ∀ parts, List.Forall₂ (fun a bs => P a ∧ bs = f a) as parts ↔
      (∀ a ∈ as, P a) ∧ parts = as.map f := by
    intro parts
    rw [List.forall₂_and_left]
    refine and_congr_right fun _ => ?_
    calc List.Forall₂ (fun a bs => bs = f a) as parts
        ↔ List.Forall₂ (fun a bs => f a = bs) as parts := by
          simp only [eq_comm]
      _ ↔ List.Forall₂ Eq (as.map f) parts := List.forall₂_map_left_iff.symm
      _ ↔ as.map f = parts := by rw [List.forall₂_eq_eq_eq]
      _ ↔ parts = as.map f := eq_comm
  simp only [hmap, List.flatMap_def]
  constructor
  · intro h
    obtain ⟨hlen, _, ⟨hP, rfl⟩, rfl⟩ := h
    exact ⟨hlen, hP, rfl⟩
  · intro h
    obtain ⟨hlen, hP, rfl⟩ := h
    exact ⟨hlen, _, ⟨hP, rfl⟩, rfl⟩

/-- A whole parse from position zero succeeds exactly on slices that start
with an encoding. -/
theorem run_zero (hp : Reads data p F) (a : α) :
    p.run' 0 = .ok a ↔ ∃ bs, F a bs ∧ bs <+: data.bytes := by
  have h := hp 0 (Nat.zero_le _) a
  simp only [List.drop_zero, Nat.zero_add] at h
  rw [StateT.run'_eq, map_eq_ok_iff]
  constructor
  · rintro ⟨⟨b, pos'⟩, hb, rfl⟩
    obtain ⟨bs, hF, hbs, _⟩ := (h pos').mp hb
    exact ⟨bs, hF, hbs⟩
  · rintro ⟨bs, hF, hbs⟩
    exact ⟨(a, bs.length), (h _).mpr ⟨bs, hF, hbs, rfl⟩, rfl⟩

end Reads

/-- From a position inside the slice, `p` does not panic. -/
def Safe (data : Slice) (p : Cursor ε α) : Prop :=
  ∀ pos, pos ≤ data.bytes.length → p.run pos ≠ .error .panic

namespace Safe

variable {data : Slice}

theorem pure (a : α) : Safe data (pure a : Cursor ε α) := by
  intro pos _ h
  cases h

theorem call {x : Except (Fault ε) α} (hx : x ≠ .error .panic) : Safe data (Outcome.call x) := by
  intro pos _ h
  cases x with
  | error e =>
    rw [call_run_error] at h
    exact hx (by rw [Except.error.inj h])
  | ok a => cases h

end Safe

/-- `p` cannot panic, and returns `a` exactly on the encodings `F a`. -/
structure Parses (data : Slice) (p : Cursor ε α) (F : α → Bytes → Prop) : Prop where
  safe : Safe data p
  reads : Reads data p F

namespace Parses

variable {data : Slice} {p : Cursor ε α} {q : α → Cursor ε β} {F : α → Bytes → Prop}

/-- The sequel may assume what the first read returned. -/
theorem bind_safe (hp : Parses data p F) (hq : ∀ a bs, F a bs → Safe data (q a)) :
    Safe data (p >>= q) := by
  intro pos hpos h
  rw [StateT.run_bind, bind_eq_panic_iff] at h
  rcases h with h | ⟨⟨a, pos'⟩, ha, h⟩
  · exact hp.safe pos hpos h
  · obtain ⟨bs, hF, _, _⟩ := (hp.reads pos hpos a pos').mp ha
    exact hq a bs hF pos' (hp.reads.position_le hpos ha) h

/-- A length below `2 ^ 63` cannot take a position out of the word. -/
theorem readBytes (m : Overflow) (eof : ε) (n : ℕ) (hn : n < 2 ^ 63) :
    Parses data (readBytes m data eof n) (fun a bs => bs = a ∧ a.length = n) where
  safe := by
    intro pos hpos h
    have hlen := data.length_lt
    rw [readBytes_run m data eof n pos hpos (by omega), if_neg (by omega)] at h
    split_ifs at h
    cases h
  reads := Reads.readBytes m eof n (by omega)

theorem readMany_safe (hp : Parses data p F) (n : ℕ) : Safe data (readMany p n) := by
  induction n with
  | zero => exact Safe.pure []
  | succ n ih =>
    have htail : Parses data (readMany p n) _ := ⟨ih, hp.reads.readMany n⟩
    exact hp.bind_safe fun a _ _ => htail.bind_safe fun as _ _ => Safe.pure (a :: as)

end Parses

/-- After a safe and exactly characterised program, a panic comes from the
sequel, at the position where the consumed encoding ends. -/
theorem Parses.run_bind_eq_panic_iff {data : Slice} {p : Cursor ε α} {q : α → Cursor ε β}
    {F : α → Bytes → Prop} (hp : Parses data p F) {pos : ℕ} (hpos : pos ≤ data.bytes.length) :
    (p >>= q).run pos = .error .panic ↔ ∃ a bs, F a bs ∧ bs <+: data.bytes.drop pos ∧
      (q a).run (pos + bs.length) = .error .panic := by
  rw [StateT.run_bind, bind_eq_panic_iff]
  constructor
  · intro h
    rcases h with h | ⟨⟨a, pos'⟩, ha, h⟩
    · exact absurd h (hp.safe pos hpos)
    · obtain ⟨bs, hF, hbs, rfl⟩ := (hp.reads pos hpos a pos').mp ha
      exact ⟨a, bs, hF, hbs, h⟩
  · intro h
    obtain ⟨a, bs, hF, hbs, h⟩ := h
    exact .inr ⟨(a, pos + bs.length), (hp.reads pos hpos a _).mpr ⟨bs, hF, hbs, rfl⟩, h⟩

lemma run'_eq_panic_iff (p : Cursor ε α) (pos : ℕ) :
    p.run' pos = .error .panic ↔ p.run pos = .error .panic := by
  rw [StateT.run'_eq]
  cases p.run pos <;> simp

/-- A read panics exactly when its end leaves the word. -/
theorem readBytes_bind_eq_panic_iff {data : Slice} {m : Overflow} {eof : ε} {n : ℕ}
    (hn : n < 2 ^ 64) {q : Bytes → Cursor ε β} (hq : ∀ bs, Safe data (q bs)) {pos : ℕ}
    (hpos : pos ≤ data.bytes.length) :
    (readBytes m data eof n >>= q).run pos = .error .panic ↔ 2 ^ 64 ≤ pos + n := by
  have hrun : (readBytes m data eof n).run pos = .error .panic ↔ 2 ^ 64 ≤ pos + n := by
    rw [readBytes_run m data eof n pos hpos hn]
    split_ifs with ho hl
    · exact iff_of_true rfl ho
    · exact iff_of_false (by simp) ho
    · exact iff_of_false (by simp) ho
  rw [StateT.run_bind, bind_eq_panic_iff, hrun]
  constructor
  · intro h
    rcases h with h | ⟨⟨bs, pos'⟩, hbs, h⟩
    · exact h
    · exact absurd h (hq bs pos' ((Reads.readBytes m eof n hn).position_le hpos hbs))
  · exact .inl

/-- A loop panics in the round that panics, after rounds that all succeed. -/
theorem readMany_eq_panic_iff {data : Slice} {p : Cursor ε α} {F : α → Bytes → Prop}
    (hr : Reads data p F) (n : ℕ) {pos : ℕ} (hpos : pos ≤ data.bytes.length) :
    (readMany p n).run pos = .error .panic ↔ ∃ as parts, as.length < n ∧
      List.Forall₂ F as parts ∧ parts.flatten <+: data.bytes.drop pos ∧
      p.run (pos + parts.flatten.length) = .error .panic := by
  induction n generalizing pos with
  | zero =>
    refine iff_of_false (fun h => by cases h) fun h => ?_
    obtain ⟨_, _, hlen, _⟩ := h
    exact absurd hlen (Nat.not_lt_zero _)
  | succ n ih =>
    rw [readMany, StateT.run_bind, bind_eq_panic_iff]
    constructor
    · intro h
      rcases h with h | ⟨⟨a, pos'⟩, ha, h⟩
      · exact ⟨[], [], by simp, .nil, List.nil_prefix, h⟩
      · have hpos' := hr.position_le hpos ha
        obtain ⟨bs, hF, hbs, rfl⟩ := (hr pos hpos a pos').mp ha
        rw [StateT.run_bind, bind_eq_panic_iff] at h
        rcases h with h | ⟨_, _, h⟩
        · obtain ⟨as, parts, hlen, hall, hpre, h⟩ := (ih hpos').mp h
          refine ⟨a :: as, bs :: parts, by simpa using hlen, .cons hF hall, ?_, ?_⟩
          · exact Reads.append_prefix_drop.mpr ⟨hbs, hpre⟩
          · rwa [List.flatten_cons, List.length_append, ← Nat.add_assoc]
        · cases h
    · intro h
      obtain ⟨as, parts, hlen, hall, hpre, h⟩ := h
      cases hall with
      | nil => exact .inl h
      | @cons a bs as parts hF hall =>
        rw [List.flatten_cons] at hpre h
        obtain ⟨hbs, hpre⟩ := Reads.append_prefix_drop.mp hpre
        rw [List.length_append, ← Nat.add_assoc] at h
        refine .inr ⟨(a, pos + bs.length), (hr pos hpos a _).mpr ⟨bs, hF, hbs, rfl⟩, ?_⟩
        rw [StateT.run_bind, bind_eq_panic_iff]
        exact .inl ((ih (Reads.prefix_length hpos hbs)).mpr
          ⟨as, parts, by simpa using hlen, hall, hpre, h⟩)

end Wire
