import ReadOnlyKeys.Lib.Bytes

/-!
# Base64 with padding

Three bytes are four letters of six bits each. A last group of one or two bytes
is padded, and its unused bits are zero.
-/
namespace Base64
open Wire

def alphabet : List Char :=
  (List.range 26).map (fun i => Char.ofNat (65 + i)) ++
    (List.range 26).map (fun i => Char.ofNat (97 + i)) ++
    (List.range 10).map (fun i => Char.ofNat (48 + i)) ++ ['+', '/']

def letter (d : ℕ) : Char := alphabet.getD (d % 64) 'A'

/-- The number that three bytes are. -/
def number (a b c : UInt8) : ℕ := (a.toNat * 256 + b.toNat) * 256 + c.toNat

def letters (a b c : UInt8) : List Char :=
  let n := number a b c
  [letter (n / 262144), letter (n / 4096), letter (n / 64), letter n]

def encode : Bytes → List Char
  | [] => []
  | [a] => (letters a 0 0).take 2 ++ ['=', '=']
  | [a, b] => (letters a b 0).take 3 ++ ['=']
  | a :: b :: c :: rest => letters a b c ++ encode rest

def digit (c : Char) : Option ℕ := if c ∈ alphabet then some (alphabet.idxOf c) else none

/-- The bytes of a whole group of letters. -/
def group (w x y z : ℕ) : Bytes :=
  let n := ((w * 64 + x) * 64 + y) * 64 + z
  [UInt8.ofNat (n / 65536), UInt8.ofNat (n / 256), UInt8.ofNat n]

def decode : List Char → Option Bytes
  | [] => some []
  | w :: x :: y :: z :: rest =>
    if rest = [] ∧ z = '=' then
      if y = '=' then do
        let w ← digit w
        let x ← digit x
        if x % 16 = 0 then some ((group w x 0 0).take 1) else none
      else do
        let w ← digit w
        let x ← digit x
        let y ← digit y
        if y % 4 = 0 then some ((group w x y 0).take 2) else none
    else do
      let w ← digit w
      let x ← digit x
      let y ← digit y
      let z ← digit z
      let rest ← decode rest
      some (group w x y z ++ rest)
  | _ => none

lemma digit_alphabet : ∀ d < 64, digit (alphabet.getD d 'A') = some d := by decide +kernel

lemma alphabet_ne_pad : ∀ d < 64, alphabet.getD d 'A' ≠ '=' := by decide +kernel

@[simp] theorem digit_letter (d : ℕ) : digit (letter d) = some (d % 64) :=
  digit_alphabet _ (Nat.mod_lt _ (by decide))

@[simp] theorem letter_ne_pad (d : ℕ) : letter d ≠ '=' :=
  alphabet_ne_pad _ (Nat.mod_lt _ (by decide))

lemma group_number (a b c : UInt8) : group (number a b c / 262144 % 64)
    (number a b c / 4096 % 64) (number a b c / 64 % 64) (number a b c % 64) = [a, b, c] := by
  have ha := a.toNat_lt
  have hb := b.toNat_lt
  have hc := c.toNat_lt
  have hbyte : ∀ (n : ℕ) (d : UInt8), n % 2 ^ 8 = d.toNat → UInt8.ofNat n = d := by
    intro n d h
    rw [← UInt8.toNat_inj, UInt8.toNat_ofNat', h]
  simp only [group, number, List.cons.injEq, and_true]
  exact ⟨hbyte _ a (by omega), hbyte _ b (by omega), hbyte _ c (by omega)⟩

theorem decode_encode (bs : Bytes) : decode (encode bs) = some bs := by
  induction bs using encode.induct with
  | case1 => rfl
  | case2 a =>
    have hg := group_number a 0 0
    have hx : number a 0 0 / 4096 % 64 % 16 = 0 ∧ number a 0 0 / 64 % 64 = 0 ∧
        number a 0 0 % 64 = 0 := by
      simp only [number, UInt8.toNat_zero]
      omega
    rw [hx.2.1, hx.2.2] at hg
    simp [encode, decode, letters, hx.1, hg]
  | case3 a b =>
    have hg := group_number a b 0
    have hy : number a b 0 / 64 % 64 % 4 = 0 ∧ number a b 0 % 64 = 0 := by
      simp only [number, UInt8.toNat_zero]
      omega
    rw [hy.2] at hg
    simp [encode, decode, letters, hy.1, hg]
  | case4 a b c rest ih => simp [encode, decode, letters, ih, group_number a b c]

end Base64
