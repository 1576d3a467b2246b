import ReadOnlyKeys.Lib.Outcome
import ReadOnlyKeys.Lib.Bytes

/-!
# Hexadecimal text

A byte is two digits, the high half first. Digits are written in lower case and
read in both cases.
-/
namespace Hex
open Outcome Wire

def alphabet : List Char := "0123456789abcdef".toList

def digit (n : ℕ) : Char := alphabet.getD n '0'

def encode (bs : Bytes) : String :=
  String.ofList (bs.flatMap fun b => [digit (b.toNat / 16), digit (b.toNat % 16)])

/-- The value of a digit, by its byte. -/
def value (c : UInt8) : Option ℕ :=
  if 0x30 ≤ c ∧ c ≤ 0x39 then some (c.toNat - 0x30)
  else if 0x41 ≤ c ∧ c ≤ 0x46 then some (c.toNat - 0x41 + 10)
  else if 0x61 ≤ c ∧ c ≤ 0x66 then some (c.toNat - 0x61 + 10)
  else none

def val (c : UInt8) (index : ℕ) : Except String ℕ :=
  (value c).elim
    (.error s!"Invalid character {(Char.ofNat c.toNat).quote} at position {index}") .ok

/-- Two digits at a time, from an index on. -/
def pairs : ℕ → Bytes → Except String Bytes
  | index, high :: low :: rest => do
    let h ← val high index
    let l ← val low (index + 1)
    let bs ← pairs (index + 2) rest
    return UInt8.ofNat (16 * h + l) :: bs
  | _, _ => .ok []

def decode (s : String) : Except String Bytes :=
  let data := toUtf8 s.toList
  if data.length % 2 = 0 then pairs 0 data else .error "Odd number of digits"

lemma value_digit : ∀ n < 16, (String.utf8EncodeChar (digit n)).map value = [some n] := by
  decide +kernel

/-- A digit is one byte, which has its value. -/
lemma exists_byte {n : ℕ} (h : n < 16) :
    ∃ c, String.utf8EncodeChar (digit n) = [c] ∧ ∀ index, val c index = .ok n := by
  obtain ⟨c, hc, hv⟩ := List.map_eq_singleton_iff.mp (value_digit n h)
  refine ⟨c, hc, fun index => ?_⟩
  rw [val, hv]
  rfl

/-- The digits of bytes are read as the bytes, wherever they start. -/
theorem pairs_digits (bs : Bytes) (index : ℕ) :
    let data := toUtf8 (bs.flatMap fun b => [digit (b.toNat / 16), digit (b.toNat % 16)])
    pairs index data = .ok bs ∧ data.length = 2 * bs.length := by
  induction bs generalizing index with
  | nil => exact ⟨rfl, rfl⟩
  | cons b bs ih =>
    have hb := b.toNat_lt
    obtain ⟨high, hhigh, hval⟩ := exists_byte (n := b.toNat / 16) (by omega)
    obtain ⟨low, hlow, hval'⟩ := exists_byte (n := b.toNat % 16) (by omega)
    obtain ⟨hrest, hlength⟩ := ih (index + 2)
    have hbyte : UInt8.ofNat (16 * (b.toNat / 16) + b.toNat % 16) = b := by
      rw [Nat.div_add_mod, UInt8.ofNat_toNat]
    simp only [List.flatMap_cons, List.cons_append, List.nil_append, toUtf8_cons, hhigh, hlow]
    constructor
    · rw [pairs, hval, ok_bind, hval', ok_bind, hrest, ok_bind, hbyte]
      rfl
    · rw [List.length_cons, List.length_cons, List.length_cons, hlength]
      omega

theorem decode_encode (bs : Bytes) : decode (encode bs) = .ok bs := by
  obtain ⟨hpairs, hlength⟩ := pairs_digits bs 0
  simp only [decode, encode, String.toList_ofList]
  rw [hlength, if_pos (by omega), hpairs]

end Hex
