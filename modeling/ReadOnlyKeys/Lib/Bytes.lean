import ReadOnlyKeys.Lib.Outcome
import Mathlib.Data.List.Basic
import Mathlib.Data.UInt
import Mathlib.Tactic.Ring

/-!
# Bytes, little-endian numbers, UTF-8 and fixed-size arrays

`leBytes k n` is the `k`-byte little-endian form of `n` reduced modulo `256 ^ k`,
which is what a narrowing cast followed by `to_le_bytes` writes. Strings are
lists of characters and `toUtf8` is their byte form.
-/
namespace Wire
open Outcome

abbrev Bytes := List UInt8

/-- The `k` low base-256 digits of `n`, least significant first. -/
def leBytes : ℕ → ℕ → Bytes
  | 0, _ => []
  | k + 1, n => UInt8.ofNat n :: leBytes k (n / 256)

def leNat : Bytes → ℕ
  | [] => 0
  | b :: bs => b.toNat + 256 * leNat bs

@[simp] theorem leBytes_length (k n : ℕ) : (leBytes k n).length = k := by
  induction k generalizing n with
  | zero => rfl
  | succ k ih => simp [leBytes, ih]

theorem leNat_lt (bs : Bytes) : leNat bs < 256 ^ bs.length := by
  induction bs with
  | nil => simp [leNat]
  | cons b bs ih =>
    have hb := b.toNat_lt
    simp only [leNat, List.length_cons, pow_succ]
    omega

/-- The digit at position `i` is a lower bound in its place value. -/
theorem getElem?_mul_le_leNat (bs : Bytes) (i : ℕ) (b : UInt8) (h : bs[i]? = some b) :
    b.toNat * 256 ^ i ≤ leNat bs := by
  induction bs generalizing i with
  | nil => simp at h
  | cons c bs ih =>
    cases i with
    | zero =>
      obtain rfl : c = b := by simpa using h
      simp only [leNat, pow_zero]
      omega
    | succ i =>
      have hi := ih i (by simpa using h)
      calc b.toNat * 256 ^ (i + 1) = 256 * (b.toNat * 256 ^ i) := by ring
        _ ≤ 256 * leNat bs := Nat.mul_le_mul_left 256 hi
        _ ≤ leNat (c :: bs) := Nat.le_add_left _ _

/-- A number that was narrowed is read back reduced. -/
theorem leNat_leBytes_mod (k n : ℕ) : leNat (leBytes k n) = n % 256 ^ k := by
  induction k generalizing n with
  | zero =>
    rw [pow_zero, Nat.mod_one]
    rfl
  | succ k ih =>
    have hb : (UInt8.ofNat n).toNat = n % 256 := UInt8.toNat_ofNat'
    rw [leBytes, leNat, ih, hb, pow_succ', Nat.mod_mul]

theorem leNat_leBytes (k n : ℕ) (h : n < 256 ^ k) : leNat (leBytes k n) = n := by
  rw [leNat_leBytes_mod, Nat.mod_eq_of_lt h]

theorem leBytes_leNat (bs : Bytes) : leBytes bs.length (leNat bs) = bs := by
  induction bs with
  | nil => rfl
  | cons b bs ih =>
    have hb := b.toNat_lt
    have hd : (b.toNat + 256 * leNat bs) / 256 = leNat bs := by omega
    have hm : UInt8.ofNat (b.toNat + 256 * leNat bs) = b := by
      apply UInt8.toNat_inj.mp
      rw [UInt8.toNat_ofNat']
      omega
    simp only [List.length_cons, leBytes, leNat, hd, hm, ih]

/-- Counted bytes at the start of other counted bytes are a part of these, cut to the length
that was written. -/
theorem prefix_of_counted_prefix {k : ℕ} {xs ys zs : Bytes} (hx : xs.length < 256 ^ k)
    (h : leBytes k xs.length ++ xs <+: leBytes k ys.length ++ (ys ++ zs)) :
    xs <+: ys ∧ xs.length = ys.length % 256 ^ k := by
  obtain ⟨t, ht⟩ := h
  rw [List.append_assoc] at ht
  obtain ⟨hhead, htail⟩ := List.append_inj ht (by simp)
  have hlen : xs.length = ys.length % 256 ^ k := by
    have hn := congrArg leNat hhead
    rwa [leNat_leBytes k _ hx, leNat_leBytes_mod] at hn
  have hle : xs.length ≤ ys.length := by
    rw [hlen]
    exact Nat.mod_le _ _
  exact ⟨List.prefix_of_prefix_length_le ⟨t, htail⟩ (List.prefix_append _ _) hle, hlen⟩

theorem leBytes_injective (k : ℕ) {n m : ℕ} (hn : n < 256 ^ k) (hm : m < 256 ^ k)
    (h : leBytes k n = leBytes k m) : n = m := by
  rw [← leNat_leBytes k n hn, ← leNat_leBytes k m hm, h]

/-- A number in `k` bytes is read back from exactly its own digits. -/
theorem leBytes_eq_iff (k n : ℕ) (bs : Bytes) :
    n < 256 ^ k ∧ bs = leBytes k n ↔ bs.length = k ∧ n = leNat bs := by
  constructor
  · rintro ⟨hn, rfl⟩
    exact ⟨leBytes_length k n, (leNat_leBytes k n hn).symm⟩
  · rintro ⟨rfl, rfl⟩
    exact ⟨leNat_lt bs, (leBytes_leNat bs).symm⟩

/-- The UTF-8 bytes of a string. -/
def toUtf8 (s : List Char) : Bytes := s.flatMap String.utf8EncodeChar

/-- `std::str::from_utf8`. -/
def fromUtf8 (bs : Bytes) : Option (List Char) := bs.toByteArray.utf8Decode?.map Array.toList

@[simp] theorem toUtf8_nil : toUtf8 [] = [] := rfl

@[simp] theorem toUtf8_cons (c : Char) (s : List Char) :
    toUtf8 (c :: s) = String.utf8EncodeChar c ++ toUtf8 s := rfl

@[simp] theorem toUtf8_append (s t : List Char) : toUtf8 (s ++ t) = toUtf8 s ++ toUtf8 t := by
  simp [toUtf8]

lemma toByteArray_toUtf8 (s : List Char) : (toUtf8 s).toByteArray = s.utf8Encode := rfl

theorem fromUtf8_toUtf8 (s : List Char) : fromUtf8 (toUtf8 s) = some s := by
  simp [fromUtf8, toByteArray_toUtf8]

theorem toUtf8_of_fromUtf8 {bs : Bytes} {s : List Char} (h : fromUtf8 bs = some s) :
    toUtf8 s = bs := by
  simp only [fromUtf8, Option.map_eq_some_iff] at h
  obtain ⟨a, ha, rfl⟩ := h
  have hs : bs.toByteArray.utf8Decode?.isSome := by simp [ha]
  have hget : bs.toByteArray.utf8Decode?.get hs = a := by simp [ha]
  have he := ByteArray.utf8Encode_get_utf8Decode? (b := bs.toByteArray) (h := hs)
  rw [hget, ← toByteArray_toUtf8] at he
  have hl := congrArg (fun b : ByteArray => b.data.toList) he
  simpa [List.toList_data_toByteArray] using hl

theorem fromUtf8_eq_some_iff (bs : Bytes) (s : List Char) :
    fromUtf8 bs = some s ↔ toUtf8 s = bs := by
  constructor
  · exact toUtf8_of_fromUtf8
  · rintro rfl
    exact fromUtf8_toUtf8 s

theorem toUtf8_injective : Function.Injective toUtf8 := by
  intro s t h
  have hs := fromUtf8_toUtf8 s
  rw [h, fromUtf8_toUtf8] at hs
  exact (Option.some.inj hs).symm

/-- Only an ASCII character starts with a byte below 128. -/
theorem utf8EncodeChar_head (c : Char) (b : UInt8) (hb : b.toNat < 128)
    (h : (String.utf8EncodeChar c).head? = some b) : c.toNat = b.toNat := by
  simp only [String.utf8EncodeChar] at h
  split_ifs at h with h₁ h₂ h₃ <;>
    · simp only [List.head?_cons, Option.some.injEq] at h
      subst h
      simp only [UInt8.toNat_ofNat', Char.toNat] at hb ⊢
      omega

theorem utf8EncodeChar_ascii (c : Char) (h : c.toNat < 128) :
    String.utf8EncodeChar c = [UInt8.ofNat c.toNat] := by
  have hle : c.val.toNat ≤ 0x7f := Nat.le_of_lt_succ h
  simp only [String.utf8EncodeChar, if_pos hle, Char.toNat]

theorem toUtf8_ascii (s : List Char) (h : ∀ c ∈ s, c.toNat < 128) :
    toUtf8 s = s.map fun c => UInt8.ofNat c.toNat := by
  induction s with
  | nil => rfl
  | cons c s ih =>
    rw [toUtf8_cons, utf8EncodeChar_ascii c (h c List.mem_cons_self),
      ih fun x hx => h x (List.mem_cons_of_mem _ hx)]
    rfl

/-- On ASCII strings, a prefix of the bytes is a prefix of the characters. -/
theorem prefix_of_toUtf8 {s t : List Char} (hs : ∀ c ∈ s, c.toNat < 128)
    (ht : ∀ c ∈ t, c.toNat < 128) (h : toUtf8 s <+: toUtf8 t) : s <+: t := by
  rw [List.prefix_iff_eq_take]
  apply toUtf8_injective
  rw [toUtf8_ascii (t.take s.length) fun c hc => ht c (List.mem_of_mem_take hc), List.map_take,
    ← toUtf8_ascii t ht]
  have hlen : (toUtf8 s).length = s.length := by rw [toUtf8_ascii s hs, List.length_map]
  rw [← hlen]
  exact List.prefix_iff_eq_take.mp h

/-- `&s[n..]`: the suffix from byte `n`, which must be a character boundary. -/
def sliceFrom {ε : Type} : List Char → ℕ → Except (Fault ε) (List Char)
  | s, 0 => .ok s
  | [], _ + 1 => .error .panic
  | c :: s, n + 1 =>
      if c.utf8Size ≤ n + 1 then sliceFrom s (n + 1 - c.utf8Size) else .error .panic

/-- `&s[..n]`: the prefix up to byte `n`, which must be a character boundary. -/
def sliceTo {ε : Type} : List Char → ℕ → Except (Fault ε) (List Char)
  | _, 0 => .ok []
  | [], _ + 1 => .error .panic
  | c :: s, n + 1 =>
      if c.utf8Size ≤ n + 1 then do
        let rest ← sliceTo s (n + 1 - c.utf8Size)
        return c :: rest
      else .error .panic

/-- `str::rfind`: the byte offset of the last occurrence of a character. -/
def rfind (c : Char) : List Char → Option ℕ
  | [] => none
  | x :: s =>
    match rfind c s with
    | some n => some (x.utf8Size + n)
    | none => if x = c then some 0 else none

/-- Slicing at the end of a string prefix returns that prefix. -/
theorem sliceTo_append {ε : Type} (p q : List Char) :
    (sliceTo (p ++ q) (toUtf8 p).length : Except (Fault ε) (List Char)) = .ok p := by
  induction p with
  | nil => cases q <;> rfl
  | cons c p ih =>
    have hc := c.utf8Size_pos
    have hlen : (toUtf8 (c :: p)).length = (c.utf8Size + (toUtf8 p).length - 1) + 1 := by
      rw [toUtf8_cons, List.length_append, String.length_utf8EncodeChar]
      omega
    rw [hlen, List.cons_append, sliceTo, if_pos (by omega),
      show c.utf8Size + (toUtf8 p).length - 1 + 1 - c.utf8Size = (toUtf8 p).length by omega, ih]
    rfl

/-- Slicing from the end of a string prefix returns what follows it. -/
theorem sliceFrom_append {ε : Type} (p q : List Char) :
    (sliceFrom (p ++ q) (toUtf8 p).length : Except (Fault ε) (List Char)) = .ok q := by
  induction p with
  | nil => cases q <;> rfl
  | cons c p ih =>
    have hc := c.utf8Size_pos
    have hlen : (toUtf8 (c :: p)).length = (c.utf8Size + (toUtf8 p).length - 1) + 1 := by
      rw [toUtf8_cons, List.length_append, String.length_utf8EncodeChar]
      omega
    rw [hlen, List.cons_append, sliceFrom, if_pos (by omega),
      show c.utf8Size + (toUtf8 p).length - 1 + 1 - c.utf8Size = (toUtf8 p).length by omega, ih]

lemma rfind_eq_none {c : Char} {s : List Char} (h : c ∉ s) : rfind c s = none := by
  induction s with
  | nil => rfl
  | cons x s ih =>
    have hx : x ≠ c := fun hx => h (by simp [hx])
    simp only [rfind, ih fun hs => h (List.mem_cons_of_mem _ hs), if_neg hx]

theorem rfind_append_cons (c : Char) (p q : List Char) (h : c ∉ q) :
    rfind c (p ++ c :: q) = some (toUtf8 p).length := by
  induction p with
  | nil => simp [rfind, rfind_eq_none h]
  | cons x p ih =>
    rw [List.cons_append, rfind, ih, toUtf8_cons, List.length_append,
      String.length_utf8EncodeChar]

/-- `str::rsplit_once`: the parts around the last occurrence of a character. -/
def rsplitOnce (c : Char) : List Char → Option (List Char × List Char)
  | [] => none
  | x :: s =>
    match rsplitOnce c s with
    | some (p, q) => some (x :: p, q)
    | none => if x = c then some ([], s) else none

theorem rsplitOnce_eq_none_iff {c : Char} {s : List Char} : rsplitOnce c s = none ↔ c ∉ s := by
  induction s with
  | nil => simp [rsplitOnce]
  | cons x s ih =>
    rw [List.mem_cons, not_or, ← ih, rsplitOnce]
    cases rsplitOnce c s with
    | none => simp [eq_comm]
    | some pq => simp

theorem rsplitOnce_append_cons (c : Char) (p : List Char) {q : List Char} (h : c ∉ q) :
    rsplitOnce c (p ++ c :: q) = some (p, q) := by
  induction p with
  | nil => simp [rsplitOnce, rsplitOnce_eq_none_iff.mpr h]
  | cons x p ih => rw [List.cons_append, rsplitOnce, ih]

/-- The second part is free of the separator. -/
theorem notMem_of_rsplitOnce {c : Char} {s p q : List Char} (h : rsplitOnce c s = some (p, q)) :
    c ∉ q := by
  induction s generalizing p with
  | nil => cases h
  | cons x s ih =>
    rw [rsplitOnce] at h
    cases hr : rsplitOnce c s with
    | some pq =>
      rw [hr] at h
      obtain ⟨_, rfl⟩ := Prod.mk.inj (Option.some.inj h)
      exact ih hr
    | none =>
      simp only [hr, Option.ite_none_right_eq_some] at h
      obtain ⟨_, rfl⟩ := Prod.mk.inj (Option.some.inj h.2)
      exact rsplitOnce_eq_none_iff.mp hr

/-- A list is split at the first occurrence of a separator in one way. -/
lemma append_cons_inj_of_notMem {α : Type} {a : α} {p q s t : List α} (hp : a ∉ p) (hq : a ∉ q)
    (h : p ++ a :: s = q ++ a :: t) : p = q ∧ s = t := by
  rcases List.append_eq_append_iff.mp h with ⟨c, rfl, hs⟩ | ⟨c, rfl, hs⟩
  · cases c with
    | nil => exact ⟨(List.append_nil p).symm, (List.cons.inj hs).2⟩
    | cons x c =>
      rw [(List.cons.inj hs).1] at hq
      exact absurd (by simp) hq
  · cases c with
    | nil => exact ⟨List.append_nil q, (List.cons.inj hs).2.symm⟩
    | cons x c =>
      rw [(List.cons.inj hs).1] at hp
      exact absurd (by simp) hp

/-- And so it is at the last one. -/
lemma append_cons_inj_of_notMem_right {α : Type} {a : α} {p q s t : List α} (hs : a ∉ s)
    (ht : a ∉ t) (h : p ++ a :: s = q ++ a :: t) : p = q ∧ s = t := by
  have hr : s.reverse ++ a :: p.reverse = t.reverse ++ a :: q.reverse := by
    simpa using congrArg List.reverse h
  obtain ⟨hst, hpq⟩ := append_cons_inj_of_notMem (by simpa using hs) (by simpa using ht) hr
  exact ⟨List.reverse_injective hpq, List.reverse_injective hst⟩

/-- A list is split at the last occurrence of a member. -/
lemma exists_last_of_mem {α : Type} {a : α} {s : List α} (h : a ∈ s) :
    ∃ p q, s = p ++ a :: q ∧ a ∉ q := by
  obtain ⟨p, q, hs, hp⟩ := List.eq_append_cons_of_mem (List.mem_reverse.mpr h)
  refine ⟨q.reverse, p.reverse, ?_, by rwa [List.mem_reverse]⟩
  rw [← List.reverse_reverse s, hs, List.reverse_append, List.reverse_cons, List.append_assoc]
  rfl

/-- The types that stand for `[u8; n]`: a view as a slice, and the checked
conversion back, which are inverse to each other. -/
class ByteArrays (A : ℕ → Type) where
  decEq : ∀ n, DecidableEq (A n)
  zeros : ∀ n, A n
  asBytes : ∀ {n}, A n → Bytes
  ofSlice : ∀ n, Bytes → Option (A n)
  ofSlice_asBytes : ∀ {n} (a : A n), ofSlice n (asBytes a) = some a
  asBytes_ofSlice : ∀ {n} {bs : Bytes} {a : A n}, ofSlice n bs = some a → asBytes a = bs

export ByteArrays (zeros asBytes ofSlice ofSlice_asBytes asBytes_ofSlice)

instance {A : ℕ → Type} [ByteArrays A] (n : ℕ) : DecidableEq (A n) := ByteArrays.decEq n

theorem asBytes_injective {A : ℕ → Type} [ByteArrays A] (n : ℕ) :
    Function.Injective (asBytes : A n → Bytes) := by
  intro a b h
  have ha := ofSlice_asBytes a
  rw [h, ofSlice_asBytes] at ha
  exact (Option.some.inj ha).symm

/-- Arrays of exactly `n` bytes. -/
instance : ByteArrays (Vector UInt8) where
  decEq _ := inferInstance
  zeros n := Vector.replicate n 0
  asBytes a := a.toList
  ofSlice n bs := if h : bs.length = n then some ⟨bs.toArray, by simpa using h⟩ else none
  ofSlice_asBytes a := by
    rw [dif_pos (by simp)]
    simp [Vector.toList]
  asBytes_ofSlice {n bs a} h := by
    split_ifs at h
    obtain rfl := Option.some.inj h
    rfl

@[simp] theorem asBytes_vector {n : ℕ} (a : Vector UInt8 n) : asBytes a = a.toList := rfl

theorem ofSlice_vector {n : ℕ} (bs : Bytes) (h : bs.length = n) :
    ofSlice n bs = some (⟨bs.toArray, by simpa using h⟩ : Vector UInt8 n) := dif_pos h

theorem ofSlice_vector_eq_none_iff {n : ℕ} (bs : Bytes) :
    (ofSlice n bs : Option (Vector UInt8 n)) = none ↔ bs.length ≠ n := dite_eq_right_iff.trans (by simp)

/-- An opaque symbol of any length in the place of an array: the carriers of a
symbolic reading of the code, where no two different inputs need collide. -/
def Symbol (_ : ℕ) : Type := Bytes

instance : ByteArrays Symbol where
  decEq _ := inferInstanceAs (DecidableEq Bytes)
  zeros _ := ([] : Bytes)
  asBytes a := a
  ofSlice _ bs := some bs
  ofSlice_asBytes _ := rfl
  asBytes_ofSlice h := (Option.some.inj h).symm

end Wire
