import ReadOnlyKeys.Lib.Bytes

/-!
# Text from any bytes

The decoder that puts U+FFFD in the place of what is not UTF-8, one for each
longest run of bytes that could have started a character. Text that was encoded
comes back as it was. A slice of a text at a byte offset fails where a character
lies across the offset.
-/
namespace Wire
open Outcome

namespace Lossy

/-- Where a continuation byte lies. -/
def cont : ℕ × ℕ := (0x80, 0xbf)

/-- Where the bytes after a first byte lie, for each of them. Some bytes are no first byte. -/
def tails (first : ℕ) : Option (List (ℕ × ℕ)) :=
  if first < 0x80 then some []
  else if first < 0xc2 then none
  else if first < 0xe0 then some [cont]
  else if first = 0xe0 then some [(0xa0, 0xbf), cont]
  else if first = 0xed then some [(0x80, 0x9f), cont]
  else if first < 0xf0 then some [cont, cont]
  else if first = 0xf0 then some [(0x90, 0xbf), cont, cont]
  else if first < 0xf4 then some [cont, cont, cont]
  else if first = 0xf4 then some [(0x80, 0x8f), cont, cont]
  else none

/-- Take bytes as long as each lies in its range. Returns them if all do, and what is left. -/
def takeTails : List (ℕ × ℕ) → Bytes → Option Bytes × Bytes
  | [], bs => (some [], bs)
  | _ :: _, [] => (none, [])
  | (low, high) :: ranges, b :: bs =>
      if low ≤ b.toNat ∧ b.toNat ≤ high then
        let (taken, rest) := takeTails ranges bs
        (taken.map (b :: ·), rest)
      else (none, b :: bs)

/-- The bits of a first byte that are not its mark. -/
def lead (first : ℕ) : ℕ :=
  if first < 0x80 then first
  else if first < 0xe0 then first - 0xc0
  else if first < 0xf0 then first - 0xe0
  else first - 0xf0

/-- The scalar value of a character, from its first byte and the others. -/
def scalar (first : UInt8) (taken : Bytes) : ℕ :=
  taken.foldl (fun n b => 64 * n + (b.toNat - 0x80)) (lead first.toNat)

def replacement : Char := '\uFFFD'

/-- The character that starts with a byte, or its replacement, and what is left. -/
def next (first : UInt8) (bs : Bytes) : Char × Bytes :=
  match tails first.toNat with
  | none => (replacement, bs)
  | some ranges =>
    match takeTails ranges bs with
    | (some taken, rest) => (Char.ofNat (scalar first taken), rest)
    | (none, rest) => (replacement, rest)

/-- The characters of at most `fuel` bytes. -/
def decode : (fuel : ℕ) → Bytes → List Char
  | _, [] => []
  | 0, _ :: _ => []
  | fuel + 1, b :: bs =>
    let (c, rest) := next b bs
    c :: decode fuel rest

end Lossy

/-- `String::from_utf8_lossy`. -/
def fromUtf8Lossy (bs : Bytes) : List Char := Lossy.decode bs.length bs

namespace Lossy

/-- A first byte with the bytes it calls for is a character. -/
lemma next_of_tails {first : UInt8} {ranges : List (ℕ × ℕ)} {bs rest taken : Bytes} {c : Char}
    (htails : tails first.toNat = some ranges) (htake : takeTails ranges bs = (some taken, rest))
    (hscalar : scalar first taken = c.val.toNat) : next first bs = (c, rest) := by
  have hc : Char.ofNat c.val.toNat = c := Char.ofNat_toNat c
  rw [next, htails]
  simp only [htake, hscalar, hc]

lemma takeTails_cons {low high : ℕ} {ranges : List (ℕ × ℕ)} {b : UInt8} {bs rest taken : Bytes}
    (hb : low ≤ b.toNat ∧ b.toNat ≤ high) (h : takeTails ranges bs = (some taken, rest)) :
    takeTails ((low, high) :: ranges) (b :: bs) = (some (b :: taken), rest) := by
  rw [takeTails, if_pos hb, h]
  rfl

/-- No scalar value of three bytes is shorter, and none is a surrogate. -/
lemma exists_tails_three {v : ℕ} (hlow : 0x7ff < v) (hhigh : v ≤ 0xffff)
    (hv : v < 0xd800 ∨ 0xdfff < v) : ∃ low high,
      tails (v / 4096 % 16 + 0xe0) = some [(low, high), cont] ∧
      low ≤ v / 64 % 64 + 0x80 ∧ v / 64 % 64 + 0x80 ≤ high := by
  unfold tails
  rw [if_neg (by omega), if_neg (by omega), if_neg (by omega)]
  split_ifs with he0 hed
  · exact ⟨0xa0, 0xbf, rfl, by omega, by omega⟩
  · exact ⟨0x80, 0x9f, rfl, by omega, by omega⟩
  · exact ⟨0x80, 0xbf, rfl, by omega, by omega⟩
  all_goals omega

/-- No scalar value of four bytes is shorter, and none is too large. -/
lemma exists_tails_four {v : ℕ} (hlow : 0xffff < v) (hhigh : v < 0x110000) : ∃ low high,
    tails (v / 262144 % 8 + 0xf0) = some [(low, high), cont, cont] ∧
    low ≤ v / 4096 % 64 + 0x80 ∧ v / 4096 % 64 + 0x80 ≤ high := by
  unfold tails
  rw [if_neg (by omega), if_neg (by omega), if_neg (by omega), if_neg (by omega),
    if_neg (by omega), if_neg (by omega)]
  split_ifs with hf0 hf4 hlast
  · exact ⟨0x90, 0xbf, rfl, by omega, by omega⟩
  · exact ⟨0x80, 0xbf, rfl, by omega, by omega⟩
  · exact ⟨0x80, 0x8f, rfl, by omega, by omega⟩
  · omega

/-- A character is decoded from its own bytes. -/
theorem next_utf8EncodeChar (c : Char) (rest : Bytes) :
    ∃ b bs, String.utf8EncodeChar c = b :: bs ∧ next b (bs ++ rest) = (c, rest) := by
  have hvalid : c.val.toNat < 0xd800 ∨ 0xdfff < c.val.toNat ∧ c.val.toNat < 0x110000 := c.valid
  have hbyte : ∀ n, n < 256 → (UInt8.ofNat n).toNat = n := fun n hn => UInt8.toNat_ofNat_of_lt' hn
  unfold String.utf8EncodeChar
  generalize hv : c.val.toNat = v at hvalid
  have h0 : (UInt8.ofNat (v % 64 + 0x80)).toNat = v % 64 + 0x80 := hbyte _ (by omega)
  have h1 : (UInt8.ofNat (v / 64 % 64 + 0x80)).toNat = v / 64 % 64 + 0x80 := hbyte _ (by omega)
  have h2 : (UInt8.ofNat (v / 4096 % 64 + 0x80)).toNat = v / 4096 % 64 + 0x80 := hbyte _ (by omega)
  simp only
  split_ifs with hone htwo hthree
  · have hfirst : (UInt8.ofNat v).toNat = v := hbyte v (by omega)
    have htails : tails (UInt8.ofNat v).toNat = some [] := by
      rw [hfirst, tails, if_pos (by omega)]
    refine ⟨_, _, rfl, next_of_tails htails rfl ?_⟩
    rw [scalar, List.foldl_nil, hfirst, lead, if_pos (by omega), hv]
  · have hfirst : (UInt8.ofNat (v / 64 % 32 + 0xc0)).toNat = v / 64 % 32 + 0xc0 :=
      hbyte _ (by omega)
    have htails : tails (UInt8.ofNat (v / 64 % 32 + 0xc0)).toNat = some [cont] := by
      rw [hfirst, tails, if_neg (by omega), if_neg (by omega), if_pos (by omega)]
    refine ⟨_, _, rfl, next_of_tails htails (takeTails_cons (by omega) rfl) ?_⟩
    simp only [scalar, List.foldl_cons, List.foldl_nil, lead, hfirst, h0]
    split_ifs <;> omega
  · have hfirst : (UInt8.ofNat (v / 4096 % 16 + 0xe0)).toNat = v / 4096 % 16 + 0xe0 :=
      hbyte _ (by omega)
    obtain ⟨low, high, htails, hrange⟩ := exists_tails_three (by omega) hthree
      (hvalid.imp_right And.left)
    rw [← hfirst] at htails
    rw [← h1] at hrange
    refine ⟨_, _, rfl, next_of_tails htails
      (takeTails_cons hrange (takeTails_cons (by omega) rfl)) ?_⟩
    simp only [scalar, List.foldl_cons, List.foldl_nil, lead, hfirst, h0, h1]
    split_ifs <;> omega
  · have hfirst : (UInt8.ofNat (v / 262144 % 8 + 0xf0)).toNat = v / 262144 % 8 + 0xf0 :=
      hbyte _ (by omega)
    obtain ⟨low, high, htails, hrange⟩ := exists_tails_four (v := v) (by omega) (by omega)
    rw [← hfirst] at htails
    rw [← h2] at hrange
    refine ⟨_, _, rfl, next_of_tails htails
      (takeTails_cons hrange (takeTails_cons (by omega) (takeTails_cons (by omega) rfl))) ?_⟩
    simp only [scalar, List.foldl_cons, List.foldl_nil, lead, hfirst, h0, h1, h2]
    split_ifs <;> omega

/-- Enough fuel decodes encoded text as it was. -/
theorem decode_toUtf8 (s : List Char) {fuel : ℕ} (h : (toUtf8 s).length ≤ fuel) :
    decode fuel (toUtf8 s) = s := by
  induction s generalizing fuel with
  | nil => cases fuel <;> rfl
  | cons c s ih =>
    obtain ⟨b, bs, hc, hnext⟩ := next_utf8EncodeChar c (toUtf8 s)
    rw [toUtf8_cons, hc, List.cons_append] at h ⊢
    cases fuel with
    | zero => cases h
    | succ fuel =>
      rw [List.length_cons, List.length_append] at h
      rw [decode, hnext]
      simp only
      rw [ih (by omega)]

end Lossy

theorem fromUtf8Lossy_toUtf8 (s : List Char) : fromUtf8Lossy (toUtf8 s) = s :=
  Lossy.decode_toUtf8 s le_rfl

/-- A character of the text lies across a byte offset. -/
def Straddles (n : ℕ) (s : List Char) : Prop :=
  ∃ p c q, s = p ++ c :: q ∧ (toUtf8 p).length < n ∧ n < (toUtf8 p).length + c.utf8Size

lemma not_straddles_nil (n : ℕ) : ¬ Straddles n [] := by
  intro h
  obtain ⟨p, c, q, hs, _⟩ := h
  cases p <;> cases hs

lemma not_straddles_zero (s : List Char) : ¬ Straddles 0 s := by
  intro h
  obtain ⟨_, _, _, _, hlow, _⟩ := h
  exact absurd hlow (Nat.not_lt_zero _)

/-- The character is the first one, or lies across the rest of the offset in the rest. -/
theorem straddles_cons_iff (n : ℕ) (c : Char) (s : List Char) :
    Straddles n (c :: s) ↔ (0 < n ∧ n < c.utf8Size) ∨ Straddles (n - c.utf8Size) s := by
  constructor
  · intro h
    obtain ⟨p, d, q, hs, hlow, hhigh⟩ := h
    cases p with
    | nil =>
      obtain ⟨rfl, rfl⟩ := List.cons.inj hs
      simp only [toUtf8_nil, List.length_nil, Nat.zero_add] at hlow hhigh
      exact .inl ⟨hlow, hhigh⟩
    | cons x p =>
      obtain ⟨rfl, rfl⟩ := List.cons.inj hs
      simp only [toUtf8_cons, List.length_append, String.length_utf8EncodeChar] at hlow hhigh
      exact .inr ⟨p, d, q, rfl, by omega, by omega⟩
  · intro h
    rcases h with ⟨hlow, hhigh⟩ | ⟨p, d, q, rfl, hlow, hhigh⟩
    · refine ⟨[], c, s, rfl, ?_⟩
      simp only [toUtf8_nil, List.length_nil, Nat.zero_add]
      exact ⟨hlow, hhigh⟩
    · refine ⟨c :: p, d, q, rfl, ?_⟩
      simp only [toUtf8_cons, List.length_append, String.length_utf8EncodeChar]
      omega

lemma not_straddles_of_length_le {n : ℕ} {s : List Char} (h : (toUtf8 s).length ≤ n) :
    ¬ Straddles n s := by
  intro hs
  obtain ⟨p, c, q, rfl, _, hhigh⟩ := hs
  simp only [toUtf8_append, toUtf8_cons, List.length_append, String.length_utf8EncodeChar] at h
  omega

/-- A slice reports no errors. -/
theorem sliceTo_ne_err {ε : Type} (s : List Char) (n : ℕ) (e : ε) :
    sliceTo s n ≠ .error (.err e) := by
  induction s generalizing n with
  | nil => cases n <;> simp [sliceTo]
  | cons c s ih =>
    cases n with
    | zero => simp [sliceTo]
    | succ n =>
      unfold sliceTo
      split_ifs
      · rw [Ne, bind_pure_eq_error_iff]
        exact ih _
      · simp

/-- A slice inside a text fails exactly where a character lies across its end. -/
theorem sliceTo_eq_panic_iff {ε : Type} {n : ℕ} {s : List Char} (h : n ≤ (toUtf8 s).length) :
    (sliceTo s n : Except (Fault ε) (List Char)) = .error .panic ↔ Straddles n s := by
  induction s generalizing n with
  | nil =>
    have hn : n = 0 := Nat.le_zero.mp h
    subst hn
    simp [sliceTo, not_straddles_nil]
  | cons c s ih =>
    rw [toUtf8_cons, List.length_append, String.length_utf8EncodeChar] at h
    rw [straddles_cons_iff]
    cases n with
    | zero =>
      simp [sliceTo, not_straddles_zero]
    | succ n =>
      unfold sliceTo
      split_ifs with hc
      · rw [bind_pure_eq_error_iff, ih (by omega)]
        constructor
        · exact .inr
        · intro hp
          rcases hp with hp | hp
          · omega
          · exact hp
      · simp only [true_iff]
        exact .inl ⟨Nat.succ_pos n, by omega⟩

end Wire
