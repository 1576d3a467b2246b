import ReadOnlyKeys.Error
import ReadOnlyKeys.Lib.Bytes

/-!
# Cryptographic primitives

The primitives live in other crates and are parameters of the model. `A n`
stands for `[u8; n]`. Each law a result needs is a named predicate on the
primitives, so that every theorem says which laws it rests on.
-/
namespace ReadOnlyKeys
open Outcome Wire

variable {A : ℕ → Type}

/-- An AEAD cipher with 32-byte keys and 12-byte nonces and no associated data. -/
structure Aead (A : ℕ → Type) where
  encrypt : A 32 → A 12 → Bytes → Except String Bytes
  decrypt : A 32 → A 12 → Bytes → Option Bytes
  invalidLength : String

namespace Aead

variable [ByteArrays A]

/-- `KeyInit::new_from_slice`. -/
def newFromSlice (c : Aead A) (key : Bytes) : Except String (A 32) :=
  (ofSlice 32 key).elim (.error c.invalidLength) .ok

@[simp] theorem newFromSlice_asBytes (c : Aead A) (k : A 32) :
    c.newFromSlice (asBytes k) = .ok k := by
  rw [newFromSlice, ofSlice_asBytes]
  rfl

/-- What was encrypted is decrypted under the same key and nonce. -/
def Correct (c : Aead A) : Prop :=
  ∀ k n p ct, c.encrypt k n p = .ok ct → c.decrypt k n ct = some p

/-- A ciphertext is as long as the plaintext and a tag of 16 bytes. -/
def Tagged (c : Aead A) : Prop :=
  ∀ k n p ct, c.encrypt k n p = .ok ct → ct.length = p.length + 16

/-- What decrypts is as long as the plaintext and a tag of 16 bytes. -/
def Strips (c : Aead A) : Prop :=
  ∀ k n p ct, c.decrypt k n ct = some p → ct.length = p.length + 16

/-- What was decrypted can be encrypted again. -/
def Reencrypts (c : Aead A) : Prop :=
  ∀ k n p ct, c.decrypt k n ct = some p → ∀ k' n', ∃ ct', c.encrypt k' n' p = .ok ct'

/-- Every plaintext of `len` bytes can be encrypted. -/
def Accepts (c : Aead A) (len : ℕ) : Prop :=
  ∀ k n p, p.length = len → ∃ ct, c.encrypt k n p = .ok ct

/-- The plaintexts that can be encrypted are those of at most `max` bytes. -/
def TakesUpTo (c : Aead A) (max : ℕ) : Prop :=
  ∀ k n p, (∃ ct, c.encrypt k n p = .ok ct) ↔ p.length ≤ max

end Aead

/-- The primitives the crates call. -/
structure Crypto (A : ℕ → Type) where
  StaticSecret : Type
  staticFrom : A 32 → StaticSecret
  staticToBytes : StaticSecret → A 32
  publicFrom : StaticSecret → A 32
  diffieHellman : StaticSecret → A 32 → A 32
  /-- HKDF-SHA256 with salt, input key and info, expanded to 32 bytes. -/
  hkdf : Bytes → Bytes → Bytes → A 32
  /-- The first 8 bytes of SHA-256. -/
  sha256Prefix : Bytes → A 8
  base58 : Bytes → String
  chacha20Poly1305 : Aead A
  aes256GcmSiv : Aead A
  SigningKey : Type
  VerifyingKey : Type
  signingFromBytes : A 32 → SigningKey
  signingToBytes : SigningKey → A 32
  verifyingKey : SigningKey → VerifyingKey
  verifyingFromBytes : A 32 → Option VerifyingKey
  verifyingAsBytes : VerifyingKey → A 32
  sign : SigningKey → Bytes → A 64
  verify : VerifyingKey → Bytes → A 64 → Bool

namespace Crypto

variable [ByteArrays A]

/-- Diffie-Hellman commutes, the ciphers decrypt, signatures verify. -/
structure Correct (C : Crypto A) : Prop where
  dh_comm : ∀ a b, C.diffieHellman a (C.publicFrom b) = C.diffieHellman b (C.publicFrom a)
  chacha : C.chacha20Poly1305.Correct
  aes : C.aes256GcmSiv.Correct
  verify_sign : ∀ sk m, C.verify (C.verifyingKey sk) m (C.sign sk m) = true

/-- `StaticSecret::from` followed by `to_bytes` is the identity. -/
def StaticRoundtrip (C : Crypto A) : Prop := ∀ b, C.staticToBytes (C.staticFrom b) = b

/-- Every static secret is made from bytes. -/
def StaticOfBytes (C : Crypto A) : Prop := Function.Surjective C.staticFrom

omit [ByteArrays A] in
/-- With both laws, a secret is made again from its bytes. -/
theorem StaticRoundtrip.staticFrom_staticToBytes {C : Crypto A} (hR : C.StaticRoundtrip)
    (hS : C.StaticOfBytes) (s : C.StaticSecret) : C.staticFrom (C.staticToBytes s) = s := by
  obtain ⟨b, rfl⟩ := hS s
  rw [hR]

/-- The idealised one-way functions: no two inputs share an output. -/
structure Injective (C : Crypto A) : Prop where
  hkdf : ∀ salt ikm info salt' ikm' info', C.hkdf salt ikm info = C.hkdf salt' ikm' info' →
    salt = salt' ∧ ikm = ikm' ∧ info = info'
  publicFrom : Function.Injective C.publicFrom
  sha256Prefix : Function.Injective C.sha256Prefix

/-- The public half determines the secret, and the key identifier the public half. -/
structure IdentifiesKeys (C : Crypto A) : Prop where
  publicFrom : Function.Injective C.publicFrom
  keyId : Function.Injective fun publicKey : A 32 => C.sha256Prefix (asBytes publicKey)

theorem Injective.identifiesKeys {C : Crypto A} (h : C.Injective) : C.IdentifiesKeys :=
  ⟨h.publicFrom, h.sha256Prefix.comp (asBytes_injective 32)⟩

/-- Verifying keys and their bytes determine each other. -/
structure KeyBytes (C : Crypto A) : Prop where
  fromBytes_asBytes : ∀ vk, C.verifyingFromBytes (C.verifyingAsBytes vk) = some vk
  asBytes_fromBytes : ∀ b vk, C.verifyingFromBytes b = some vk → C.verifyingAsBytes vk = b

/-- The idealised signatures of a key: none is good for another key, too. -/
def SignaturesBind (C : Crypto A) (vk : C.VerifyingKey) : Prop :=
  ∀ vk' m sig, C.verify vk m sig = true → C.verify vk' m sig = true → vk' = vk

end Crypto

/-- A cryptographic random number generator with states in `ρ`. -/
structure CryptoRng (A : ℕ → Type) (ρ : Type) where
  fillBytes : (n : ℕ) → ρ → A n × ρ

namespace CryptoRng

variable {ρ : Type}

/-- `rng.fill_bytes` on an array of `n` bytes. -/
def fill (rng : CryptoRng A ρ) (n : ℕ) : StateT ρ Result (A n) :=
  fun s => .ok (rng.fillBytes n s)

@[simp] theorem fill_run (rng : CryptoRng A ρ) (n : ℕ) (s : ρ) :
    (rng.fill n).run s = .ok (rng.fillBytes n s) := rfl

end CryptoRng

end ReadOnlyKeys
