import ReadOnlyKeys.Lib.Bytes
import Mathlib.Data.Nat.Digits.Lemmas

/-!
# Positional numerals that keep their leading zeros

A numeral is a list of digits, most significant first. Its conversion to another
base keeps the number it denotes and the count of its leading zeros, and so
converts back. Base58 text is the conversion of bytes, spelt in an alphabet.
-/
namespace Radix

/-- The count of leading zeros. -/
def leadingZeros (ds : List ℕ) : ℕ := (ds.takeWhile (· = 0)).length

/-- Rewrite a numeral of base `b` in base `c`. -/
def convert (b c : ℕ) (ds : List ℕ) : List ℕ :=
  List.replicate (leadingZeros ds) 0 ++ (Nat.digits c (Nat.ofDigits b ds.reverse)).reverse

/-- A numeral is its leading zeros and a numeral without any. -/
lemma exists_replicate_append (ds : List ℕ) :
    ∃ z rest, ds = List.replicate z 0 ++ rest ∧ ∀ h : rest ≠ [], rest.head h ≠ 0 := by
  induction ds with
  | nil => exact ⟨0, [], rfl, fun h => absurd rfl h⟩
  | cons d ds ih =>
    by_cases hd : d = 0
    · obtain ⟨z, rest, hds, hr⟩ := ih
      exact ⟨z + 1, rest, by rw [hd, hds]; rfl, hr⟩
    · exact ⟨0, d :: ds, rfl, fun _ => hd⟩

lemma leadingZeros_append (z : ℕ) {rest : List ℕ} (h : ∀ h : rest ≠ [], rest.head h ≠ 0) :
    leadingZeros (List.replicate z 0 ++ rest) = z := by
  induction z with
  | zero =>
    cases rest with
    | nil => rfl
    | cons d rest =>
      have hd : d ≠ 0 := h (by simp)
      simp [leadingZeros, hd]
  | succ z ih =>
    simp only [leadingZeros, List.replicate_succ, List.cons_append] at ih ⊢
    rw [List.takeWhile_cons_of_pos (by simp), List.length_cons, ih]

lemma ofDigits_reverse_append (b z : ℕ) (rest : List ℕ) :
    Nat.ofDigits b (List.replicate z 0 ++ rest).reverse = Nat.ofDigits b rest.reverse := by
  rw [List.reverse_append, Nat.ofDigits_append, List.reverse_replicate]
  induction z with
  | zero => simp
  | succ z ih =>
    rw [List.replicate_succ, Nat.ofDigits_cons, Nat.zero_add, Nat.mul_left_comm]
    have hz : b ^ rest.reverse.length * Nat.ofDigits b (List.replicate z 0) = 0 := by omega
    rw [hz, Nat.mul_zero, Nat.add_zero]

/-- The digits of a number start with one that is not zero. -/
lemma head_reverse_digits (c n : ℕ) (h : (Nat.digits c n).reverse ≠ []) :
    (Nat.digits c n).reverse.head h ≠ 0 := by
  have hne : Nat.digits c n ≠ [] := by simpa using h
  rw [List.head_reverse]
  exact Nat.getLast_digit_ne_zero c (Nat.digits_ne_nil_iff_ne_zero.mp hne)

/-- Conversion to another base and back is the identity. -/
theorem convert_convert {b c : ℕ} (hb : 1 < b) {ds : List ℕ} (h : ∀ d ∈ ds, d < b) :
    convert c b (convert b c ds) = ds := by
  obtain ⟨z, rest, rfl, hrest⟩ := exists_replicate_append ds
  have hc : convert b c (List.replicate z 0 ++ rest) =
      List.replicate z 0 ++ (Nat.digits c (Nat.ofDigits b rest.reverse)).reverse := by
    rw [convert, leadingZeros_append z hrest, ofDigits_reverse_append]
  have hback : Nat.digits b (Nat.ofDigits b rest.reverse) = rest.reverse := by
    apply Nat.digits_ofDigits b hb
    · intro d hd
      exact h d (List.mem_append_right _ (List.mem_reverse.mp hd))
    · intro hne
      rw [List.getLast_reverse]
      exact hrest _
  rw [hc, convert, leadingZeros_append z (head_reverse_digits c _), ofDigits_reverse_append,
    List.reverse_reverse, Nat.ofDigits_digits, hback, List.reverse_reverse]

/-- The digits of a conversion are digits of the new base. -/
theorem convert_lt {b c : ℕ} (hc : 1 < c) {ds : List ℕ} : ∀ d ∈ convert b c ds, d < c := by
  intro d hd
  rcases List.mem_append.mp hd with hd | hd
  · rw [List.eq_of_mem_replicate hd]
    omega
  · exact Nat.digits_lt_base hc (List.mem_reverse.mp hd)

end Radix

/-!
## Base58
-/
namespace Base58
open Wire Radix

def alphabet : List Char :=
  ['1', '2', '3', '4', '5', '6', '7', '8', '9', 'A', 'B', 'C', 'D', 'E', 'F', 'G', 'H', 'J', 'K',
    'L', 'M', 'N', 'P', 'Q', 'R', 'S', 'T', 'U', 'V', 'W', 'X', 'Y', 'Z', 'a', 'b', 'c', 'd', 'e',
    'f', 'g', 'h', 'i', 'j', 'k', 'm', 'n', 'o', 'p', 'q', 'r', 's', 't', 'u', 'v', 'w', 'x', 'y',
    'z']

def encode (bs : Bytes) : List Char :=
  (convert 256 58 (bs.map UInt8.toNat)).map fun d => alphabet.getD d '1'

def decode (s : List Char) : Option Bytes :=
  if s.all (· ∈ alphabet) then
    some ((convert 58 256 (s.map alphabet.idxOf)).map UInt8.ofNat)
  else none

lemma idxOf_getD : ∀ d < 58, alphabet.idxOf (alphabet.getD d '1') = d := by decide

lemma getD_mem : ∀ d < 58, alphabet.getD d '1' ∈ alphabet := by decide

theorem decode_encode (bs : Bytes) : decode (encode bs) = some bs := by
  have hlt : ∀ d ∈ convert 256 58 (bs.map UInt8.toNat), d < 58 := convert_lt (by decide)
  have hall : (encode bs).all (· ∈ alphabet) = true := by
    rw [List.all_eq_true]
    intro c hc
    obtain ⟨d, hd, rfl⟩ := List.mem_map.mp hc
    exact decide_eq_true (getD_mem d (hlt d hd))
  have hdigits : (encode bs).map alphabet.idxOf = convert 256 58 (bs.map UInt8.toNat) := by
    have hid : ∀ d ∈ convert 256 58 (bs.map UInt8.toNat),
        (alphabet.idxOf ∘ fun d => alphabet.getD d '1') d = id d :=
      fun d hd => idxOf_getD d (hlt d hd)
    rw [encode, List.map_map, List.map_congr_left hid, List.map_id]
  have hbytes : ∀ d ∈ bs.map UInt8.toNat, d < 256 := by
    intro d hd
    obtain ⟨b, _, rfl⟩ := List.mem_map.mp hd
    exact b.toNat_lt
  rw [decode, if_pos hall, hdigits, convert_convert (by decide) hbytes, List.map_map]
  exact congrArg some (List.map_id'' (fun b => UInt8.ofNat_toNat) bs)

lemma getD_idxOf {c : Char} (h : c ∈ alphabet) : alphabet.getD (alphabet.idxOf c) '1' = c := by
  have hlt := List.idxOf_lt_length_of_mem h
  rw [List.getD_eq_getElem?_getD, List.getElem?_eq_getElem hlt, Option.getD_some, List.getElem_idxOf]

/-- There is one text for each byte string. -/
theorem encode_decode {s : List Char} {bs : Bytes} (h : decode s = some bs) : encode bs = s := by
  unfold decode at h
  split_ifs at h with hall
  obtain rfl := Option.some.inj h
  have hmem : ∀ c ∈ s, c ∈ alphabet := fun c hc => of_decide_eq_true (List.all_eq_true.mp hall c hc)
  have hdigits : ∀ d ∈ s.map alphabet.idxOf, d < 58 := by
    intro d hd
    obtain ⟨c, hc, rfl⟩ := List.mem_map.mp hd
    exact List.idxOf_lt_length_of_mem (hmem c hc)
  have hbytes : ((convert 58 256 (s.map alphabet.idxOf)).map UInt8.ofNat).map UInt8.toNat =
      convert 58 256 (s.map alphabet.idxOf) := by
    have hid : ∀ d ∈ convert 58 256 (s.map alphabet.idxOf), (UInt8.toNat ∘ UInt8.ofNat) d = id d := by
      intro d hd
      exact UInt8.toNat_ofNat_of_lt' (convert_lt (by decide) d hd)
    rw [List.map_map, List.map_congr_left hid, List.map_id]
  have hspell : ∀ c ∈ s, ((fun d => alphabet.getD d '1') ∘ alphabet.idxOf) c = id c :=
    fun c hc => getD_idxOf (hmem c hc)
  rw [encode, hbytes, convert_convert (by decide) hdigits, List.map_map, List.map_congr_left hspell,
    List.map_id]

theorem encode_injective : Function.Injective encode := by
  intro bs cs h
  have hd := decode_encode bs
  rw [h, decode_encode] at hd
  exact (Option.some.inj hd).symm

end Base58
