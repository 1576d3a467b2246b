import ReadOnlyKeys.Hybrid
import ReadOnlyKeys.Rekey

/-!
# The algorithm label

The `decrypt` command picks the scheme by the label of the envelope. The label
is the caller's choice in the builder, which always applies the classical
scheme, and rekeying copies the label while it drops the ML-KEM ciphertext.
-/
namespace ReadOnlyKeys
open Outcome Wire

variable {A : ℕ → Type} [ByteArrays A] {ρ ρ' : Type} {C : Crypto A} {K : MlKem768 A ρ}

/-- The decryption step of the `decrypt` command. -/
def decryptByAlgorithm (K : MlKem768 A ρ) (envelope : EncryptedEnvelope A)
    (readKey : ReadKeyPair C) (spendVk : C.VerifyingKey) : Result Bytes :=
  match envelope.algorithm with
  | .hybridX25519MlKemChaCha20 => hybridDecrypt K envelope readKey spendVk
  | .eciesX25519ChaCha20 => decrypt envelope readKey spendVk

/-- There is an ML-KEM ciphertext exactly when the label says so. -/
def EncryptedEnvelope.Truthful (e : EncryptedEnvelope A) : Prop :=
  e.algorithm = .hybridX25519MlKemChaCha20 ↔ e.ephemeralMlkemCiphertext.isSome = true

/-- The key is one the owner meant to admit: in scope-based mode a genuine key at the scope or
above it, in recipient mode a listed key whose identifier stands for no other public key. -/
def EncryptBuilder.Entitles (b : EncryptBuilder C) (spendKey : SpendKeyPair C)
    (k : ReadKeyPair C) : Prop :=
  if b.scopeBased then k.Genuine spendKey ∧ k.scope.isAncestorOf b.scope = true
  else k.recipient ∈ b.recipients ∧
    ∀ r ∈ b.recipients, r.keyId = k.keyId → r.readPublicKey = k.publicKey

section Label

variable {A : ℕ → Type} {e : EncryptedEnvelope A}

/-- Without an ML-KEM ciphertext a label is truthful if it says classical. -/
theorem truthful_iff_of_mlkem_none (h : e.ephemeralMlkemCiphertext = none) :
    e.Truthful ↔ e.algorithm = .eciesX25519ChaCha20 := by
  unfold EncryptedEnvelope.Truthful
  rw [h]
  cases e.algorithm <;> decide

end Label

variable {e : EncryptedEnvelope A} {k : ReadKeyPair C} {vk : C.VerifyingKey}

/-- The hybrid pipeline opens nothing without an ML-KEM ciphertext. -/
theorem hybridDecrypt_ne_ok_of_mlkem_none (h : e.ephemeralMlkemCiphertext = none)
    (plaintext : Bytes) : hybridDecrypt K e k vk ≠ .ok plaintext := by
  intro hd
  simp only [hybridDecrypt_eq, hybridUnwrapFor, h, bind_eq_ok_iff] at hd
  obtain ⟨_, _, _, _, d, _, dataKey, ⟨entry, _, ct, hct, _⟩, _⟩ := hd
  cases hct

/-- A classical envelope is opened by every entitled key. -/
theorem Encrypted.decrypt_entitled {b : EncryptBuilder C} {spendKey : SpendKeyPair C}
    {recipients : List (Recipient A)} {plaintext : Bytes}
    (h : Encrypted b plaintext spendKey recipients e) (hC : C.Correct) (hR : C.StaticRoundtrip)
    (hk : b.Entitles spendKey k) : decrypt e k spendKey.verifyingKey = .ok plaintext := by
  unfold EncryptBuilder.Entitles at hk
  split_ifs at hk with hb
  · rw [h.decrypt_genuine hC hR hb hk.1, if_pos hk.2]
  · exact h.decrypt_listed hC (by simpa using hb) hk.1 hk.2

/-- The label decides rightly exactly where the scheme that was applied is the labelled one. -/
theorem label_truthful_iff (hC : C.Correct) (hR : C.StaticRoundtrip) (hK : K.Correct)
    (spendKey : SpendKeyPair C) (plaintext : Bytes) :
    (∀ (b : EncryptBuilder C) (rng : CryptoRng A ρ') e s s', b.spendKey = some spendKey →
      (b.encrypt rng plaintext).run s = .ok (e, s') →
      (e.Truthful ↔ b.algorithm = .eciesX25519ChaCha20) ∧
      ∀ k, b.Entitles spendKey k →
        (decryptByAlgorithm K e k spendKey.verifyingKey = .ok plaintext ↔
          b.algorithm = .eciesX25519ChaCha20)) ∧
    (∀ (rng : CryptoRng A ρ) T e s s',
      (hybridEncrypt K rng plaintext T spendKey).run s = .ok (e, s') →
      e.Truthful ∧ ∀ k : ReadKeyPair C, k.Genuine spendKey → k.scope.isAncestorOf T = true →
        decryptByAlgorithm K e k spendKey.verifyingKey = .ok plaintext) ∧
    ∀ (rng : CryptoRng A ρ') e (key : ReadKeyPair C) newRecipients e' s s',
      (rekeyRecipients rng e key newRecipients spendKey).run s = .ok (e', s') →
      (e'.Truthful ↔ e.algorithm = .eciesX25519ChaCha20) := by
  refine ⟨fun b rng e s s' hsk he => ?_, fun rng T e s s' he => ?_,
    fun rng e key newRecipients e' s s' he => ?_⟩
  · obtain ⟨sk, recipients, henc⟩ := b.encrypt_run he
    obtain rfl : spendKey = sk := Option.some.inj (hsk.symm.trans henc.spendKey_eq)
    rw [truthful_iff_of_mlkem_none henc.mlkem, henc.algorithm]
    refine ⟨.rfl, fun k hk => ?_⟩
    unfold decryptByAlgorithm
    rw [henc.algorithm]
    cases b.algorithm with
    | eciesX25519ChaCha20 => exact iff_of_true (henc.decrypt_entitled hC hR hk) rfl
    | hybridX25519MlKemChaCha20 =>
      exact iff_of_false (hybridDecrypt_ne_ok_of_mlkem_none henc.mlkem plaintext) (by decide)
  · obtain ⟨scopeKey, hhyb⟩ := hybridEncrypt_run he
    obtain ⟨_, _, _, _, hs⟩ := hhyb.sealed
    refine ⟨?_, fun k hk hanc => ?_⟩
    · unfold EncryptedEnvelope.Truthful
      rw [hhyb.algorithm, hs.mlkemCiphertext]
      exact iff_of_true rfl rfl
    · unfold decryptByAlgorithm
      rw [hhyb.algorithm]
      exact hhyb.hybridDecrypt_genuine hC hR hK hk hanc
  · have hre := rekeyRecipients_run he
    rw [truthful_iff_of_mlkem_none hre.mlkem, hre.algorithm]

/-- A builder with the hybrid label, for the owner of the zero seed. -/
def hybridLabelled : EncryptBuilder Transparent.arrays :=
  ((EncryptBuilder.new _ .hybridX25519MlKemChaCha20 ⟨['/', 'a']⟩).setSpendKey
    (zeroSpend packArray)).setScopeBased

theorem label_truthful_iff_hybrid :
    ∃ e s, (hybridLabelled.encrypt (Transparent.rng packArray) [1, 2]).run 0 = .ok (e, s) ∧
      ¬ e.Truthful ∧ decryptByAlgorithm (Transparent.mlKem packArray) e zeroRoot
        (zeroSpend packArray).verifyingKey ≠ .ok [1, 2] := by
  obtain ⟨r, hr⟩ : ∃ r, (hybridLabelled.encrypt (Transparent.rng packArray) [1, 2]).run 0 = .ok r :=
    ⟨_, rfl⟩
  obtain ⟨htruthful, hopen⟩ := (label_truthful_iff (Transparent.crypto_correct packArray)
    (Transparent.crypto_staticRoundtrip packArray) (Transparent.mlKem_correct packArray)
    (zeroSpend packArray) [1, 2]).1 hybridLabelled (Transparent.rng packArray) r.1 0 r.2 rfl hr
  have hk : hybridLabelled.Entitles (zeroSpend packArray) zeroRoot :=
    ⟨ReadKeyPair.genuine_root _, by decide⟩
  refine ⟨r.1, r.2, hr, fun h => ?_, fun h => ?_⟩
  · have halg := htruthful.mp h
    cases halg
  · have halg := (hopen zeroRoot hk).mp h
    cases halg

/-- The builder signs a classical envelope with the hybrid label, which the command cannot open
with the root key. -/
theorem hybrid_label_unopened :
    ∃ e s, (hybridLabelled.encrypt (Transparent.rng packArray) [1, 2]).run 0 = .ok (e, s) ∧
      e.algorithm = .hybridX25519MlKemChaCha20 ∧ e.ephemeralMlkemCiphertext = none ∧
      hybridLabelled.Entitles (zeroSpend packArray) zeroRoot ∧
      decryptByAlgorithm (Transparent.mlKem packArray) e zeroRoot
        (zeroSpend packArray).verifyingKey =
          fail (.decryptionError "hybrid envelope missing ML-KEM ciphertext") ∧
      decrypt e zeroRoot (zeroSpend packArray).verifyingKey = .ok [1, 2] := by
  obtain ⟨r, hr, halg, hct, hopen, hclassical⟩ :
      ∃ r, (hybridLabelled.encrypt (Transparent.rng packArray) [1, 2]).run 0 = .ok r ∧
        r.1.algorithm = .hybridX25519MlKemChaCha20 ∧ r.1.ephemeralMlkemCiphertext = none ∧
        decryptByAlgorithm (Transparent.mlKem packArray) r.1 zeroRoot
          (zeroSpend packArray).verifyingKey =
            fail (.decryptionError "hybrid envelope missing ML-KEM ciphertext") ∧
        decrypt r.1 zeroRoot (zeroSpend packArray).verifyingKey = .ok [1, 2] :=
    ⟨_, rfl, rfl, rfl, by decide +kernel, by decide +kernel⟩
  exact ⟨r.1, r.2, hr, halg, hct, ⟨ReadKeyPair.genuine_root _, by decide⟩, hopen, hclassical⟩

end ReadOnlyKeys
