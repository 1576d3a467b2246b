import ReadOnlyKeys.Crypto
import ReadOnlyKeys.Lib.PrefixCode
import ReadOnlyKeys.Lib.Radix
import Mathlib.Data.String.Basic

/-!
# Transparent primitives

An instance of the primitives that computes and hides nothing: a ciphertext is
the plaintext with a tag that names the key, and a hash is an unambiguous
listing of its inputs, cut to size where the arrays have a size. It satisfies
every law the results assume, with real arrays or with symbols as needed.
-/
namespace ReadOnlyKeys
open Outcome Wire

/-- How bytes are fitted into an array. -/
abbrev Packing (A : ℕ → Type) := (n : ℕ) → Bytes → A n

/-- Cut or pad with zeros. -/
def packArray : Packing (Vector UInt8) := fun n bs =>
  ⟨((bs ++ List.replicate n 0).take n).toArray, by simp⟩

def packSymbol : Packing Symbol := fun _ bs => bs

namespace Transparent

variable {A : ℕ → Type} [ByteArrays A]

/-- A self-delimiting form of a byte string. -/
def quote (bs : Bytes) : Bytes := bs.flatMap ([1, ·]) ++ [0]

/-- The tag that names a key. -/
def tag (k : A 32) : Bytes := (asBytes k ++ List.replicate 16 0).take 16

def aead (A : ℕ → Type) [ByteArrays A] : Aead A where
  encrypt k _ p := .ok (p ++ tag k)
  decrypt k _ ct :=
    if ct.drop (ct.length - 16) = tag k then some (ct.take (ct.length - 16)) else none
  invalidLength := "Invalid Length"

def crypto (pack : Packing A) : Crypto A where
  StaticSecret := A 32
  staticFrom := id
  staticToBytes := id
  publicFrom := id
  diffieHellman a b := pack 32 (List.zipWith (· ^^^ ·) (asBytes a) (asBytes b))
  hkdf salt ikm info := pack 32 (quote info ++ quote ikm ++ salt)
  sha256Prefix bs := pack 8 bs.reverse
  base58 bs := String.ofList (bs.map fun b => Char.ofNat b.toNat)
  chacha20Poly1305 := aead A
  aes256GcmSiv := aead A
  SigningKey := A 32
  VerifyingKey := A 32
  signingFromBytes := id
  signingToBytes := id
  verifyingKey := id
  verifyingFromBytes := some
  verifyingAsBytes := id
  sign sk m := pack 64 (asBytes sk ++ m)
  verify vk m sig := sig = pack 64 (asBytes vk ++ m)

/-- The instance on arrays of the right size. -/
abbrev arrays : Crypto (Vector UInt8) := crypto packArray

/-- The instance on symbols. -/
abbrev symbols : Crypto Symbol := crypto packSymbol

/-- Arrays that carry a counter. -/
def rng (pack : Packing A) : CryptoRng A ℕ where
  fillBytes n s := (pack n (leBytes 8 s), s + 1)

theorem tag_length (k : A 32) : (tag k).length = 16 := by
  simp [tag]

theorem aead_correct : (aead A).Correct := by
  intro k n p ct h
  obtain rfl : p ++ tag k = ct := Except.ok.inj h
  have hl : (p ++ tag k).length - 16 = p.length := by
    rw [List.length_append, tag_length]
    omega
  simp only [aead, hl, List.drop_left, List.take_left, if_true]

theorem aead_tagged : (aead A).Tagged := by
  intro k n p ct h
  obtain rfl : p ++ tag k = ct := Except.ok.inj h
  rw [List.length_append, tag_length]

theorem aead_accepts (len : ℕ) : (aead A).Accepts len := fun k _ p _ => ⟨p ++ tag k, rfl⟩

theorem aead_reencrypts : (aead A).Reencrypts := fun _ _ p _ _ k' _ => ⟨p ++ tag k', rfl⟩

theorem aead_strips : (aead A).Strips := by
  intro k n p ct h
  simp only [aead, Option.ite_none_right_eq_some, Option.some.injEq] at h
  obtain ⟨htag, rfl⟩ := h
  have hlen := congrArg List.length htag
  rw [tag_length, List.length_drop] at hlen
  rw [List.length_take]
  omega

theorem crypto_correct (pack : Packing A) : (crypto pack).Correct where
  dh_comm _ _ := congrArg (pack 32) (List.zipWith_comm_of_comm UInt8.xor_comm)
  chacha := aead_correct
  aes := aead_correct
  verify_sign _ _ := decide_eq_true rfl

theorem crypto_staticRoundtrip (pack : Packing A) : (crypto pack).StaticRoundtrip := fun _ => rfl

theorem crypto_keyBytes (pack : Packing A) : (crypto pack).KeyBytes :=
  ⟨fun _ => rfl, fun _ _ h => (Option.some.inj h).symm⟩

/-- A quoted string ends where its quotation says. -/
theorem quote_prefixCode : PrefixCode (fun _ => True) quote := by
  intro bs cs xs ys _ _ h
  induction bs generalizing cs with
  | nil => cases cs <;> simp_all [quote]
  | cons b bs ih =>
    cases cs with
    | nil => simp [quote] at h
    | cons c cs =>
      simp only [quote, List.flatMap_cons, List.cons_append, List.nil_append, List.cons.injEq,
        true_and] at h
      obtain ⟨rfl, h⟩ := h
      obtain ⟨rfl, rfl⟩ := ih _ h
      exact ⟨rfl, rfl⟩

/-- With symbols for arrays, no two inputs collide. -/
theorem symbols_injective : symbols.Injective where
  hkdf salt ikm info salt' ikm' info' h := by
    have hq : quote info ++ quote ikm ++ salt = quote info' ++ quote ikm' ++ salt' := h
    rw [List.append_assoc, List.append_assoc] at hq
    obtain ⟨hinfo, hq⟩ := quote_prefixCode _ _ _ _ trivial trivial hq
    obtain ⟨hikm, hsalt⟩ := quote_prefixCode _ _ _ _ trivial trivial hq
    exact ⟨hsalt, hikm, hinfo⟩
  publicFrom := Function.injective_id
  sha256Prefix := List.reverse_injective

lemma take_signature (vk : Vector UInt8 32) (m : Bytes) :
    (asBytes (packArray 64 (asBytes vk ++ m))).take 32 = asBytes vk := by
  have hv : (asBytes vk).length = 32 := by simp
  change (List.take 64 (asBytes vk ++ m ++ List.replicate 64 0)).take 32 = asBytes vk
  rw [List.take_take, List.append_assoc, Nat.min_eq_left (by decide), List.take_left' hv]

/-- With real arrays, a signature starts with the key it is good for. -/
theorem arrays_signaturesBind (vk : Vector UInt8 32) : arrays.SignaturesBind vk := by
  intro vk' m sig h h'
  have he : packArray 64 (asBytes vk' ++ m) = packArray 64 (asBytes vk ++ m) := by
    rw [← of_decide_eq_true h, ← of_decide_eq_true h']
  apply asBytes_injective
  rw [← take_signature vk' m, he, take_signature vk m]

end Transparent

/-- The cipher that refuses plaintexts of more than `max` bytes. -/
def Aead.limited {A : ℕ → Type} (max : ℕ) (c : Aead A) : Aead A :=
  { c with encrypt := fun k n p => if p.length ≤ max then c.encrypt k n p else .error "aead::Error" }

theorem Aead.limited_encrypt {A : ℕ → Type} {max : ℕ} {c : Aead A} {k : A 32} {n : A 12}
    {p ct : Bytes} (h : (c.limited max).encrypt k n p = .ok ct) :
    p.length ≤ max ∧ c.encrypt k n p = .ok ct := by
  simp only [limited] at h
  split_ifs at h with hp
  exact ⟨hp, h⟩

/-- The transparent primitives with a limit on the size of a payload. -/
def limitedArrays (max : ℕ) : Crypto (Vector UInt8) :=
  { Transparent.arrays with chacha20Poly1305 := (Transparent.aead (Vector UInt8)).limited max }

theorem limitedArrays_correct (max : ℕ) : (limitedArrays max).Correct where
  dh_comm := (Transparent.crypto_correct packArray).dh_comm
  chacha _ _ _ _ h := Transparent.aead_correct _ _ _ _ (Aead.limited_encrypt h).2
  aes := Transparent.aead_correct
  verify_sign := (Transparent.crypto_correct packArray).verify_sign

theorem limitedArrays_takesUpTo (max : ℕ) :
    (limitedArrays max).chacha20Poly1305.TakesUpTo max := by
  intro k n p
  constructor
  · intro h
    obtain ⟨ct, h⟩ := h
    exact (Aead.limited_encrypt h).1
  · intro hp
    exact ⟨_, if_pos hp⟩

/-- The transparent primitives with the real Base58 text. -/
def base58Arrays : Crypto (Vector UInt8) :=
  { Transparent.arrays with base58 := fun bs => String.ofList (Base58.encode bs) }

theorem base58Arrays_injective : Function.Injective base58Arrays.base58 := by
  intro bs cs h
  exact Base58.encode_injective (String.ofList_injective h)

end ReadOnlyKeys
