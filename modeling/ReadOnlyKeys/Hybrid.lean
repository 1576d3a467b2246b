import ReadOnlyKeys.Access

/-!
# Hybrid encryption

The wrapping secret is combined from a Diffie-Hellman secret and an ML-KEM
secret. The ML-KEM keys come from the read key of the scope, so encryptor and
reader derive the same ones. ML-KEM itself lives in another crate.
-/
namespace ReadOnlyKeys
open Outcome Wire

variable {A : ℕ → Type} [ByteArrays A] {ρ ρ' : Type}

/-- ML-KEM-768, with key generation by the generator that a seed starts. -/
structure MlKem768 (A : ℕ → Type) (ρ : Type) where
  DecapsulationKey : Type
  EncapsulationKey : Type
  generate : A 32 → DecapsulationKey × EncapsulationKey
  encapsulate : EncapsulationKey → CryptoRng A ρ → ρ → Option ((A 1088 × A 32) × ρ)
  decapsulate : DecapsulationKey → A 1088 → Option (A 32)

/-- Decapsulation recovers what was encapsulated for the same key pair. -/
def MlKem768.Correct (K : MlKem768 A ρ) : Prop :=
  ∀ seed rng s ct ss s', K.encapsulate (K.generate seed).2 rng s = some ((ct, ss), s') →
    K.decapsulate (K.generate seed).1 ct = some ss

/-- An ML-KEM-768 key pair. -/
structure PqKeyPair (K : MlKem768 A ρ) where
  decapsulationKey : K.DecapsulationKey
  encapsulationKey : K.EncapsulationKey

namespace Kem

variable {K : MlKem768 A ρ}

/-- The shared secret and the ciphertext, as bytes. -/
def encapsulate (rng : CryptoRng A ρ) (ek : K.EncapsulationKey) : StateT ρ Result (Bytes × Bytes) :=
  do
    let (ct, ss) ← (fun s => unwrap (K.encapsulate ek rng s) : StateT ρ Result (A 1088 × A 32))
    return (asBytes ss, asBytes ct)

/-- Recover the shared secret from a ciphertext. -/
def decapsulate (dk : K.DecapsulationKey) (ciphertext : Bytes) : Result Bytes := do
  let ct ← okOr (ofSlice 1088 ciphertext)
    (.decryptionError s!"invalid ML-KEM ciphertext length: {ciphertext.length}")
  let ss ← okOr (K.decapsulate dk ct) (.decryptionError "ML-KEM decapsulation failed")
  return asBytes ss

end Kem

def domainHybridCombine : Bytes := toUtf8 "rok-v1-hybrid-combine".toList
def domainPqKeyDerive : Bytes := toUtf8 "rok-v1-pq-key-derive".toList

section Derive

variable (C : Crypto A) (K : MlKem768 A ρ)

/-- The seed of the ML-KEM keys of a scope, from the secret of its read key. -/
def derivePqKeySeed (readSecret : A 32) (scope : Scope) : A 32 :=
  C.hkdf domainPqKeyDerive (asBytes readSecret) (toUtf8 scope.path)

/-- Combine an X25519 shared secret with an ML-KEM shared secret. -/
def combineHybridSecrets (x25519Shared : A 32) (mlkemShared : Bytes) : A 32 :=
  C.hkdf domainHybridCombine (asBytes x25519Shared ++ mlkemShared) []

/-- The same read secret and scope always give the same key pair. -/
def derivePqKeypair (readSecret : A 32) (scope : Scope) : PqKeyPair K :=
  let keys := K.generate (derivePqKeySeed C readSecret scope)
  ⟨keys.1, keys.2⟩

end Derive

/-- A recipient with both kinds of public keys. -/
structure HybridRecipient (K : MlKem768 A ρ) where
  x25519Public : A 32
  mlkemEncapsulationKey : K.EncapsulationKey
  keyId : KeyId A

/-- Result of hybrid encapsulation for one recipient. -/
structure HybridEncapsulation (A : ℕ → Type) where
  combinedSharedSecret : A 32
  mlkemCiphertext : Bytes

section Encapsulate

variable (C : Crypto A) {K : MlKem768 A ρ}

def hybridEncapsulate (rng : CryptoRng A ρ) (recipient : HybridRecipient K)
    (ephemeralX25519Secret : C.StaticSecret) : StateT ρ Result (HybridEncapsulation A) := do
  let x25519Shared := C.diffieHellman ephemeralX25519Secret recipient.x25519Public
  let (mlkemSs, mlkemCt) ← Kem.encapsulate rng recipient.mlkemEncapsulationKey
  return ⟨combineHybridSecrets C x25519Shared mlkemSs, mlkemCt⟩

def hybridDecapsulate (x25519Secret : C.StaticSecret) (ephemeralX25519Public : A 32)
    (mlkemDecapsulationKey : K.DecapsulationKey) (mlkemCiphertext : Bytes) : Result (A 32) := do
  let x25519Shared := C.diffieHellman x25519Secret ephemeralX25519Public
  let mlkemSs ← Kem.decapsulate mlkemDecapsulationKey mlkemCiphertext
  return combineHybridSecrets C x25519Shared mlkemSs

end Encapsulate

/-- `{:?}` of an algorithm. -/
def Algorithm.debug : Algorithm → String
  | .eciesX25519ChaCha20 => "EciesX25519ChaCha20"
  | .hybridX25519MlKemChaCha20 => "HybridX25519MlKemChaCha20"

variable {C : Crypto A}

/-- Encrypt plaintext for the read key of a scope. -/
def hybridEncrypt (K : MlKem768 A ρ) (rng : CryptoRng A ρ) (plaintext : Bytes) (scope : Scope)
    (spendKey : SpendKeyPair C) : StateT ρ Result (EncryptedEnvelope A) := do
  let rootRead := spendKey.deriveRootReadKey
  let scopeKey ← call (if scope = Scope.root then .ok rootRead else rootRead.deriveChild scope)
  let pqKeypair := derivePqKeypair C K scopeKey.secretBytes scope
  let dataKey ← rng.fill 32
  let ephemeralSecretBytes ← rng.fill 32
  let ephemeralStatic := C.staticFrom ephemeralSecretBytes
  let encap ← hybridEncapsulate C rng
    ⟨scopeKey.publicKey, pqKeypair.encapsulationKey, scopeKey.keyId⟩ ephemeralStatic
  let (ciphertext, nonce, tag) ← encryptPayload C rng dataKey plaintext
  let entry ← wrapDataKey C rng dataKey encap.combinedSharedSecret scopeKey.keyId
  let envelope : EncryptedEnvelope A := {
    version := EncryptedEnvelope.currentVersion
    algorithm := .hybridX25519MlKemChaCha20
    scope := scope
    ephemeralX25519Public := C.publicFrom ephemeralStatic
    ephemeralMlkemCiphertext := some encap.mlkemCiphertext
    accessEntries := [entry]
    nonce := nonce
    ciphertext := ciphertext
    tag := tag
    signature := zeros 64
    spendPublicKey := C.verifyingAsBytes spendKey.verifyingKey
    accessMode := .scopeBased }
  return envelope.signedBy spendKey

/-- Find the access entry of a key and unwrap the data key from it, with the combined secret. -/
def hybridUnwrapFor (K : MlKem768 A ρ) (envelope : EncryptedEnvelope A) (key : ReadKeyPair C) :
    Result Bytes := do
  let myKeyId := key.keyId
  let entry ← okOr (envelope.accessEntries.find? fun e => e.readKeyId = myKeyId)
    (.noMatchingAccessEntry (myKeyId.toBase58 C))
  let pqKeypair := derivePqKeypair C K key.secretBytes envelope.scope
  let mlkemCt ← okOr envelope.ephemeralMlkemCiphertext
    (.decryptionError "hybrid envelope missing ML-KEM ciphertext")
  let combinedSecret ← hybridDecapsulate C key.secret envelope.ephemeralX25519Public
    pqKeypair.decapsulationKey mlkemCt
  unwrapDataKey C entry combinedSecret myKeyId

/-- Decrypt a hybrid envelope with a key at its scope or above it. -/
def hybridDecrypt (K : MlKem768 A ρ) (envelope : EncryptedEnvelope A) (readKey : ReadKeyPair C)
    (spendVerifyingKey : C.VerifyingKey) : Result Bytes := do
  require (envelope.algorithm = .hybridX25519MlKemChaCha20)
    (.decryptionError s!"expected hybrid algorithm, got {envelope.algorithm.debug}")
  require (C.verify spendVerifyingKey envelope.signableBytes envelope.signature)
    .signatureVerificationFailed
  require (readKey.canAccess envelope.scope)
    (.scopeMismatch readKey.scope.display envelope.scope.display)
  let decryptKey ← (if readKey.scope ≠ envelope.scope then readKey.deriveChild envelope.scope
    else .ok readKey : Result (ReadKeyPair C))
  let dataKey ← hybridUnwrapFor K envelope decryptKey
  decryptPayload C dataKey envelope.ciphertext envelope.nonce envelope.tag

/-- The check of the scope and the derivation together are the reader's way to the scope. -/
theorem hybridDecrypt_eq (K : MlKem768 A ρ) (e : EncryptedEnvelope A) (k : ReadKeyPair C)
    (vk : C.VerifyingKey) : hybridDecrypt K e k vk = (do
      require (e.algorithm = .hybridX25519MlKemChaCha20)
        (.decryptionError s!"expected hybrid algorithm, got {e.algorithm.debug}")
      require (C.verify vk e.signableBytes e.signature) .signatureVerificationFailed
      let decryptKey ← k.reach e.scope
      let dataKey ← hybridUnwrapFor K e decryptKey
      decryptPayload C dataKey e.ciphertext e.nonce e.tag) := by
  unfold hybridDecrypt ReadKeyPair.reach ReadKeyPair.canAccess
  by_cases hanc : k.scope.isAncestorOf e.scope = true
  · rw [require_of _ _ hanc, if_pos hanc, ite_not]
    rfl
  · rw [require_eq_fail hanc, if_neg hanc]
    rfl

/-- The envelope carries `plaintext` under `dataKey`, wrapped for one read key and for the
ML-KEM keys that belong to it. -/
structure HybridSealedWith (K : MlKem768 A ρ) (ephemeral : C.StaticSecret) (dataKey : A 32)
    (ct : A 1088) (ss : A 32) (scopeKey : ReadKeyPair C) (plaintext : Bytes)
    (e : EncryptedEnvelope A) : Prop where
  ephemeralPublic : e.ephemeralX25519Public = C.publicFrom ephemeral
  mlkemCiphertext : e.ephemeralMlkemCiphertext = some (asBytes ct)
  encapsulated : ∃ rng s s', K.encapsulate
    (derivePqKeypair C K scopeKey.secretBytes e.scope).encapsulationKey rng s = some ((ct, ss), s')
  payload : C.chacha20Poly1305.encrypt dataKey e.nonce plaintext =
    .ok (e.ciphertext ++ asBytes e.tag)
  entry : ∃ entry, e.accessEntries = [entry] ∧ entry.readKeyId = scopeKey.keyId ∧
    C.aes256GcmSiv.encrypt (deriveWrappingKey C (combineHybridSecrets C
      (C.diffieHellman ephemeral scopeKey.publicKey) (asBytes ss)) scopeKey.keyId)
      entry.wrapNonce (asBytes dataKey) = .ok entry.wrappedDataKey

/-- What a hybrid encryption that succeeds produces. -/
structure HybridEncrypted (K : MlKem768 A ρ) (plaintext : Bytes) (scope : Scope)
    (spendKey : SpendKeyPair C) (scopeKey : ReadKeyPair C) (e : EncryptedEnvelope A) : Prop where
  scopeKey_eq : (if scope = Scope.root then .ok spendKey.deriveRootReadKey
    else spendKey.deriveRootReadKey.deriveChild scope : Result (ReadKeyPair C)) = .ok scopeKey
  version : e.version = EncryptedEnvelope.currentVersion
  algorithm : e.algorithm = .hybridX25519MlKemChaCha20
  scope_eq : e.scope = scope
  accessMode : e.accessMode = .scopeBased
  signature : e.signature = C.sign spendKey.signingKey e.signableBytes
  sealed : ∃ ephemeral dataKey ct ss,
    HybridSealedWith K ephemeral dataKey ct ss scopeKey plaintext e

variable {K : MlKem768 A ρ} {rng : CryptoRng A ρ} {plaintext : Bytes} {T : Scope}
  {spendKey : SpendKeyPair C} {scopeKey k : ReadKeyPair C} {e : EncryptedEnvelope A}

theorem hybridEncapsulate_run {recipient : HybridRecipient K} {ephemeral : C.StaticSecret}
    {encap : HybridEncapsulation A} {s s' : ρ}
    (h : (hybridEncapsulate C rng recipient ephemeral).run s = .ok (encap, s')) :
    ∃ ct ss, K.encapsulate recipient.mlkemEncapsulationKey rng s = some ((ct, ss), s') ∧
      encap = ⟨combineHybridSecrets C (C.diffieHellman ephemeral recipient.x25519Public)
        (asBytes ss), asBytes ct⟩ := by
  simp only [hybridEncapsulate, Kem.encapsulate, run_bind_eq_ok_iff, run_pure_eq_ok_iff] at h
  obtain ⟨⟨secret, ciphertext⟩, _, ⟨⟨ct, ss⟩, _, hct, hpair, rfl⟩, rfl, rfl⟩ := h
  obtain ⟨rfl, rfl⟩ := Prod.mk.inj hpair
  exact ⟨ct, ss, (unwrap_eq_ok_iff _ _).mp hct, rfl⟩

theorem hybridEncrypt_run {s s' : ρ}
    (h : (hybridEncrypt K rng plaintext T spendKey).run s = .ok (e, s')) :
    ∃ scopeKey, HybridEncrypted K plaintext T spendKey scopeKey e := by
  simp only [hybridEncrypt, run_bind_eq_ok_iff, call_run_eq_ok_iff, run_pure_eq_ok_iff] at h
  obtain ⟨scopeKey, _, ⟨hkey, rfl⟩, dataKey, _, _, secret, _, _, encap, _, hencap,
    ⟨ct, nonce, tag⟩, _, hpay, entry, _, hentry, rfl, rfl⟩ := h
  obtain ⟨kemCt, ss, hkem, rfl⟩ := hybridEncapsulate_run hencap
  obtain ⟨hid, hwrap⟩ := wrapDataKey_run hentry
  exact ⟨scopeKey, hkey, rfl, rfl, rfl, rfl, rfl, C.staticFrom secret, dataKey, kemCt, ss, rfl, rfl,
    ⟨_, _, _, hkem⟩, encryptPayload_run hpay, entry, rfl, hid, hwrap⟩

/-- The envelope is sealed for the genuine key of its scope. -/
theorem HybridEncrypted.genuine (h : HybridEncrypted K plaintext T spendKey scopeKey e)
    (hR : C.StaticRoundtrip) : scopeKey.Genuine spendKey ∧ scopeKey.scope = T :=
  ReadKeyPair.genuine_of_scopeKey hR h.scopeKey_eq

/-- Whoever arrives at the key of the scope reads the plaintext, nobody else does. -/
def accessDecision (scopeKey : ReadKeyPair C) (plaintext : Bytes) (k : ReadKeyPair C) :
    Result Bytes := do
  let d ← k.reach scopeKey.scope
  if d.keyId = scopeKey.keyId then .ok plaintext
  else fail (.noMatchingAccessEntry (d.keyId.toBase58 C))

/-- The decision depends on the scope key only through what all genuine keys share. -/
theorem accessDecision_congr {scopeKey' : ReadKeyPair C} (h : scopeKey.Genuine spendKey)
    (h' : scopeKey'.Genuine spendKey) (hs : scopeKey.scope = scopeKey'.scope) :
    accessDecision scopeKey plaintext k = accessDecision scopeKey' plaintext k := by
  have hid : scopeKey.keyId = scopeKey'.keyId := by
    rw [ReadKeyPair.keyId, ReadKeyPair.keyId, h.publicKey_eq h' hs]
  rw [accessDecision, accessDecision, hs, hid]

theorem accessDecision_eq_ok_or_error (scopeKey : ReadKeyPair C) (plaintext : Bytes)
    (k : ReadKeyPair C) : accessDecision scopeKey plaintext k = .ok plaintext ∨
      ∃ fault, accessDecision scopeKey plaintext k = .error fault := by
  unfold accessDecision
  cases k.reach scopeKey.scope with
  | error fault => exact .inr ⟨fault, rfl⟩
  | ok d =>
    rw [ok_bind]
    split_ifs
    · exact .inl rfl
    · exact .inr ⟨_, rfl⟩

theorem accessDecision_ne_panic (hT : scopeKey.scope.Sliceable) (hk : k.scope.Sliceable) :
    accessDecision scopeKey plaintext k ≠ .error .panic := by
  unfold accessDecision
  by_cases hanc : k.scope.isAncestorOf scopeKey.scope = true
  · obtain ⟨d, hd, _⟩ := ReadKeyPair.exists_reach hk hT hanc
    rw [hd, ok_bind]
    split_ifs <;> intro h <;> cases h
  · rw [ReadKeyPair.reach_of_not_ancestor hanc]
    intro h
    cases h

/-- The classical pipeline takes the decision. -/
theorem Encrypted.decrypt_eq_accessDecision {b : EncryptBuilder C}
    {recipients : List (Recipient A)} (h : Encrypted b plaintext spendKey recipients e)
    (hC : C.Correct) (hR : C.StaticRoundtrip) (hI : C.IdentifiesKeys) (hb : b.scopeBased = true) :
    ∃ scopeKey : ReadKeyPair C, scopeKey.Genuine spendKey ∧ scopeKey.scope = b.scope ∧
      ∀ k, decrypt e k spendKey.verifyingKey = accessDecision scopeKey plaintext k := by
  obtain ⟨hmode, scopeKey, rfl, hgen, hscope⟩ := h.scopeMode hR hb
  obtain ⟨ephemeral, dataKey, hs⟩ := h.sealed
  refine ⟨scopeKey, hgen, hscope, fun k => ?_⟩
  rw [h.decrypt_eq hC, decryptKeyFor_scopeBased hmode, accessDecision, hscope, ← h.scope]
  congr 1
  funext d
  split_ifs with hid
  · have hsecret := secret_eq_of_keyId_eq hI hid
    exact open_of_publicKey_eq hC hs (by rw [scopeKey.public_eq, d.public_eq, hsecret])
  · have hh : Honest C [scopeKey.recipient] := by
      intro r hr
      rw [List.mem_singleton.mp hr]
      rfl
    have hne : ∀ r ∈ [scopeKey.recipient], KeyId.fromPublicBytes C (asBytes r.readPublicKey) ≠
        d.keyId := by
      intro r hr
      rw [List.mem_singleton.mp hr]
      exact fun he => hid he.symm
    have hn : NoCollision d [scopeKey.recipient] := fun r hr he => absurd he (hne r hr)
    have hd : d.publicKey ∉ [scopeKey.recipient].map Recipient.readPublicKey := by
      intro hd
      obtain ⟨r, hr, hrd⟩ := List.mem_map.mp hd
      exact hne r hr (by rw [hrd]; rfl)
    rw [unwrapFor_of_notMem hs.wrapped hh hn hd, error_bind]

/-- The combined secret is recovered with the scope's own secret. -/
theorem hybridDecapsulate_of_sealed (hC : C.Correct) (hK : K.Correct) {ephemeral : C.StaticSecret}
    {dataKey : A 32} {ct : A 1088} {ss : A 32}
    (h : HybridSealedWith K ephemeral dataKey ct ss scopeKey plaintext e) :
    hybridDecapsulate C scopeKey.secret e.ephemeralX25519Public
      (derivePqKeypair C K scopeKey.secretBytes e.scope).decapsulationKey (asBytes ct) =
      .ok (combineHybridSecrets C (C.diffieHellman ephemeral scopeKey.publicKey) (asBytes ss)) := by
  obtain ⟨rng, s, s', henc⟩ := h.encapsulated
  have hdec : K.decapsulate (derivePqKeypair C K scopeKey.secretBytes e.scope).decapsulationKey ct =
      some ss := hK _ _ _ _ _ _ henc
  rw [hybridDecapsulate, Kem.decapsulate, ofSlice_asBytes, okOr_some, ok_bind, hdec, okOr_some,
    h.ephemeralPublic, hC.dh_comm, ← scopeKey.public_eq]
  rfl

/-- The scope's own secret unwraps the data key. -/
theorem hybridUnwrapFor_of_secret (hC : C.Correct) (hK : K.Correct) {ephemeral : C.StaticSecret}
    {dataKey : A 32} {ct : A 1088} {ss : A 32} {d : ReadKeyPair C}
    (h : HybridSealedWith K ephemeral dataKey ct ss scopeKey plaintext e)
    (hd : d.secret = scopeKey.secret) : hybridUnwrapFor K e d = .ok (asBytes dataKey) := by
  obtain ⟨entry, hentries, hid, hwrap⟩ := h.entry
  have hbytes : d.secretBytes = scopeKey.secretBytes := by
    rw [ReadKeyPair.secretBytes, ReadKeyPair.secretBytes, hd]
  have hdid : d.keyId = scopeKey.keyId := by
    rw [ReadKeyPair.keyId, ReadKeyPair.keyId, d.public_eq, scopeKey.public_eq, hd]
  rw [hybridUnwrapFor, hentries, hdid, List.find?_cons_of_pos (by simp [hid]), okOr_some, ok_bind,
    h.mlkemCiphertext, okOr_some, ok_bind, hbytes, hd, hybridDecapsulate_of_sealed hC hK h, ok_bind,
    unwrapDataKey_of_encrypt hC hwrap]

/-- Another key finds no entry. -/
theorem hybridUnwrapFor_of_ne {ephemeral : C.StaticSecret} {dataKey : A 32} {ct : A 1088}
    {ss : A 32} {d : ReadKeyPair C}
    (h : HybridSealedWith K ephemeral dataKey ct ss scopeKey plaintext e)
    (hd : d.keyId ≠ scopeKey.keyId) :
    hybridUnwrapFor K e d = fail (.noMatchingAccessEntry (d.keyId.toBase58 C)) := by
  obtain ⟨entry, hentries, hid, _⟩ := h.entry
  have hne : ¬ entry.readKeyId = d.keyId := by
    rw [hid]
    exact hd.symm
  rw [hybridUnwrapFor, hentries, List.find?_cons_of_neg (by simp [hne]), List.find?_nil, okOr_none,
    error_bind]

/-- The owner's label and signature pass the checks. -/
theorem HybridEncrypted.hybridDecrypt_eq (h : HybridEncrypted K plaintext T spendKey scopeKey e)
    (hC : C.Correct) (k : ReadKeyPair C) : hybridDecrypt K e k spendKey.verifyingKey = (do
      let decryptKey ← k.reach T
      let dataKey ← hybridUnwrapFor K e decryptKey
      decryptPayload C dataKey e.ciphertext e.nonce e.tag) := by
  have hv : C.verify spendKey.verifyingKey e.signableBytes e.signature = true := by
    rw [h.signature]
    exact hC.verify_sign _ _
  rw [ReadOnlyKeys.hybridDecrypt_eq, require_of _ _ h.algorithm, ok_bind, require_of _ _ hv,
    ok_bind, h.scope_eq]

/-- The hybrid pipeline takes the decision. -/
theorem HybridEncrypted.hybridDecrypt_eq_accessDecision
    (h : HybridEncrypted K plaintext T spendKey scopeKey e) (hC : C.Correct)
    (hR : C.StaticRoundtrip) (hK : K.Correct) (hI : C.IdentifiesKeys) (k : ReadKeyPair C) :
    hybridDecrypt K e k spendKey.verifyingKey = accessDecision scopeKey plaintext k := by
  obtain ⟨ephemeral, dataKey, ct, ss, hs⟩ := h.sealed
  rw [h.hybridDecrypt_eq hC, accessDecision, (h.genuine hR).2]
  congr 1
  funext d
  split_ifs with hd
  · rw [hybridUnwrapFor_of_secret hC hK hs (secret_eq_of_keyId_eq hI hd), ok_bind,
      decryptPayload_of_encrypt hC hs.payload]
  · rw [hybridUnwrapFor_of_ne hs hd, error_bind]

/-- A genuine key at the scope or above it opens the envelope. -/
theorem HybridEncrypted.hybridDecrypt_genuine
    (h : HybridEncrypted K plaintext T spendKey scopeKey e) (hC : C.Correct)
    (hR : C.StaticRoundtrip) (hK : K.Correct) (hk : k.Genuine spendKey)
    (hanc : k.scope.isAncestorOf T = true) :
    hybridDecrypt K e k spendKey.verifyingKey = .ok plaintext := by
  obtain ⟨ephemeral, dataKey, ct, ss, hs⟩ := h.sealed
  obtain ⟨hscope, hT⟩ := h.genuine hR
  obtain ⟨d, hd, hgen, hdT⟩ := hk.exists_reach hR (hT ▸ hscope.sliceable) hanc
  have hsecret : d.secret = scopeKey.secret := by
    rw [hgen.secret_eq, hscope.secret_eq, hdT, hT]
  rw [h.hybridDecrypt_eq hC, hd, ok_bind, hybridUnwrapFor_of_secret hC hK hs hsecret, ok_bind,
    decryptPayload_of_encrypt hC hs.payload]

/-- Hybrid and classical scope-based envelopes are opened by the same keys, and refused with
the same error. -/
theorem hybrid_decides_as_classical (hC : C.Correct) (hR : C.StaticRoundtrip)
    (hI : C.IdentifiesKeys) (hK : K.Correct) {rng' : CryptoRng A ρ'}
    {hybrid classical : EncryptedEnvelope A} {s s' : ρ} {t t' : ρ'}
    (hh : (hybridEncrypt K rng plaintext T spendKey).run s = .ok (hybrid, s'))
    (hc : ((((EncryptBuilder.new C .eciesX25519ChaCha20 T).setSpendKey
      spendKey).setScopeBased).encrypt rng' plaintext).run t = .ok (classical, t')) (k : ReadKeyPair C) :
    (hybridDecrypt K hybrid k spendKey.verifyingKey = .ok plaintext ∧
      decrypt classical k spendKey.verifyingKey = .ok plaintext) ∨
    ∃ fault, hybridDecrypt K hybrid k spendKey.verifyingKey = .error fault ∧
      decrypt classical k spendKey.verifyingKey = .error fault ∧
      (k.scope.Sliceable → fault ≠ .panic) := by
  obtain ⟨scopeKey, hhyb⟩ := hybridEncrypt_run hh
  obtain ⟨hgenuine, hscope⟩ := hhyb.genuine hR
  obtain ⟨sk, recipients, hcla⟩ := EncryptBuilder.encrypt_run hc
  obtain rfl : spendKey = sk := Option.some.inj hcla.spendKey_eq
  obtain ⟨scopeKey', hgenuine', hscope', hdecrypt⟩ :=
    hcla.decrypt_eq_accessDecision hC hR hI rfl
  have hsame : scopeKey.scope = scopeKey'.scope := hscope.trans hscope'.symm
  rw [hdecrypt k, hhyb.hybridDecrypt_eq_accessDecision hC hR hK hI k,
    ← accessDecision_congr hgenuine hgenuine' hsame]
  rcases accessDecision_eq_ok_or_error scopeKey plaintext k with hd | ⟨fault, hd⟩
  · exact .inl ⟨hd, hd⟩
  · refine .inr ⟨fault, hd, hd, fun hk hpanic => ?_⟩
    rw [hpanic] at hd
    exact accessDecision_ne_panic hgenuine.sliceable hk hd

/-- A transparent ML-KEM: the ciphertext carries the secret masked with the key. -/
def Transparent.mlKem (pack : Packing A) : MlKem768 A ℕ where
  DecapsulationKey := A 32
  EncapsulationKey := A 32
  generate seed := (seed, seed)
  encapsulate ek rng s :=
    let (m, s') := rng.fillBytes 32 s
    let ct := pack 1088 (asBytes m)
    some ((ct, pack 32 (List.zipWith (· ^^^ ·) (asBytes ek) (asBytes ct))), s')
  decapsulate dk ct := some (pack 32 (List.zipWith (· ^^^ ·) (asBytes dk) (asBytes ct)))

theorem Transparent.mlKem_correct (pack : Packing A) : (mlKem pack).Correct := by
  intro seed rng s ct ss s' h
  obtain ⟨hpair, _⟩ := Prod.mk.inj (Option.some.inj h)
  obtain ⟨rfl, rfl⟩ := Prod.mk.inj hpair
  rfl

theorem hybrid_decides_as_classical_root :
    ∃ hybrid classical s t, (hybridEncrypt (Transparent.mlKem packSymbol)
        (Transparent.rng packSymbol) [1, 2] ⟨['/', 'a']⟩ (zeroSpend packSymbol)).run 0 =
          .ok (hybrid, s) ∧
      ((zeroBuilder packSymbol ['/', 'a']).setScopeBased.encrypt (Transparent.rng packSymbol)
        [1, 2]).run 0 = .ok (classical, t) ∧
      hybridDecrypt (Transparent.mlKem packSymbol) hybrid (zeroSpend packSymbol).deriveRootReadKey
        (zeroSpend packSymbol).verifyingKey = .ok [1, 2] ∧
      decrypt classical (zeroSpend packSymbol).deriveRootReadKey
        (zeroSpend packSymbol).verifyingKey = .ok [1, 2] := by
  obtain ⟨r, hr, hd⟩ : ∃ r, (hybridEncrypt (Transparent.mlKem packSymbol)
    (Transparent.rng packSymbol) [1, 2] ⟨['/', 'a']⟩ (zeroSpend packSymbol)).run 0 = .ok r ∧
      hybridDecrypt (Transparent.mlKem packSymbol) r.1 (zeroSpend packSymbol).deriveRootReadKey
        (zeroSpend packSymbol).verifyingKey = .ok [1, 2] := ⟨_, rfl, by decide +kernel⟩
  obtain ⟨q, hq⟩ : ∃ q, ((zeroBuilder packSymbol ['/', 'a']).setScopeBased.encrypt
    (Transparent.rng packSymbol) [1, 2]).run 0 = .ok q := ⟨_, rfl⟩
  refine ⟨r.1, q.1, r.2, q.2, hr, hq, ?_⟩
  rcases hybrid_decides_as_classical (Transparent.crypto_correct packSymbol)
    (Transparent.crypto_staticRoundtrip packSymbol) Transparent.symbols_injective.identifiesKeys
    (Transparent.mlKem_correct packSymbol) hr hq (zeroSpend packSymbol).deriveRootReadKey with h | h
  · exact h
  · obtain ⟨fault, hf, _⟩ := h
    rw [hd] at hf
    cases hf

end ReadOnlyKeys
