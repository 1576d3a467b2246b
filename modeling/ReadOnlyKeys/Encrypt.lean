import ReadOnlyKeys.Envelope
import ReadOnlyKeys.Hierarchy

/-!
# Encryption, decryption and rekeying

A payload is encrypted once under a fresh data key, and the data key is wrapped
for each recipient under a Diffie-Hellman secret with one ephemeral key. Calls
that draw randomness thread the state of the generator.
-/
namespace ReadOnlyKeys
open Outcome Wire

variable {A : ℕ → Type} [ByteArrays A] {ρ : Type}

section Payload

variable (C : Crypto A) (rng : CryptoRng A ρ)

/-- `encrypted.split_at(encrypted.len() - 16)`. -/
def splitTag (encrypted : Bytes) : Result (Bytes × Bytes) :=
  if 16 ≤ encrypted.length then
    .ok (encrypted.take (encrypted.length - 16), encrypted.drop (encrypted.length - 16))
  else .error .panic

/-- Encrypt plaintext with ChaCha20-Poly1305. Returns the ciphertext, the nonce and the tag. -/
def encryptPayload (dataKey : A 32) (plaintext : Bytes) :
    StateT ρ Result (Bytes × A 12 × A 16) := do
  let nonceBytes ← rng.fill 12
  let cipher ← call (mapErr (C.chacha20Poly1305.newFromSlice (asBytes dataKey)) fun e =>
    .encryptionError s!"ChaCha20 init: {e}")
  let encrypted ← call (mapErr (C.chacha20Poly1305.encrypt cipher nonceBytes plaintext) fun e =>
    .encryptionError s!"ChaCha20 encrypt: {e}")
  let (ct, tagBytes) ← call (splitTag encrypted)
  let tag ← call (unwrap (ofSlice 16 tagBytes))
  return (ct, nonceBytes, tag)

/-- Decrypt ciphertext with ChaCha20-Poly1305. -/
def decryptPayload (dataKey ciphertext : Bytes) (nonce : A 12) (tag : A 16) : Result Bytes := do
  let cipher ← mapErr (C.chacha20Poly1305.newFromSlice dataKey) fun e =>
    .decryptionError s!"ChaCha20 init: {e}"
  okOr (C.chacha20Poly1305.decrypt cipher nonce (ciphertext ++ asBytes tag))
    (.decryptionError "ciphertext authentication failed")

/-- Wrap a data key for a recipient using AES-256-GCM-SIV. -/
def wrapDataKey (dataKey sharedSecret : A 32) (keyId : KeyId A) :
    StateT ρ Result (AccessEntry A) := do
  let wrappingKey := deriveWrappingKey C sharedSecret keyId
  let wrapNonceBytes ← rng.fill 12
  let wrapCipher ← call (mapErr (C.aes256GcmSiv.newFromSlice (asBytes wrappingKey)) fun e =>
    .encryptionError s!"AES-GCM-SIV init: {e}")
  let wrappedDataKey ← call (mapErr
    (C.aes256GcmSiv.encrypt wrapCipher wrapNonceBytes (asBytes dataKey)) fun e =>
      .encryptionError s!"key wrap: {e}")
  return ⟨keyId, wrappedDataKey, wrapNonceBytes⟩

/-- Unwrap a data key from an access entry. -/
def unwrapDataKey (entry : AccessEntry A) (sharedSecret : A 32) (keyId : KeyId A) :
    Result Bytes := do
  let wrappingKey := deriveWrappingKey C sharedSecret keyId
  let wrapCipher ← mapErr (C.aes256GcmSiv.newFromSlice (asBytes wrappingKey)) fun e =>
    .decryptionError s!"AES-GCM-SIV init: {e}"
  okOr (C.aes256GcmSiv.decrypt wrapCipher entry.wrapNonce entry.wrappedDataKey)
    (.decryptionError "failed to unwrap data key")

end Payload

/-- A recipient that will receive access to encrypted data. -/
structure Recipient (A : ℕ → Type) where
  readPublicKey : A 32
  keyId : KeyId A

/-- Builder for encrypted envelopes (classical mode). -/
structure EncryptBuilder (C : Crypto A) where
  algorithm : Algorithm
  scope : Scope
  recipients : List (Recipient A)
  spendKey : Option (SpendKeyPair C)
  scopeBased : Bool

variable {C : Crypto A}

/-- The recipient entry of a read key. -/
def ReadKeyPair.recipient (k : ReadKeyPair C) : Recipient A := ⟨k.publicKey, k.keyId⟩

/-- Wrap the data key for one recipient with the ephemeral secret. -/
def wrapFor (C : Crypto A) (rng : CryptoRng A ρ) (ephemeralStatic : C.StaticSecret)
    (dataKey : A 32) (recipient : Recipient A) : StateT ρ Result (AccessEntry A) :=
  wrapDataKey C rng dataKey (C.diffieHellman ephemeralStatic recipient.readPublicKey)
    recipient.keyId

/-- Set the signature to the spend key's signature of the signable bytes. -/
def EncryptedEnvelope.signedBy (spendKey : SpendKeyPair C) (envelope : EncryptedEnvelope A) :
    EncryptedEnvelope A :=
  { envelope with signature := C.sign spendKey.signingKey envelope.signableBytes }

namespace EncryptBuilder

def new (C : Crypto A) (algorithm : Algorithm) (scope : Scope) : EncryptBuilder C :=
  ⟨algorithm, scope, [], none, false⟩

def addRecipient (self : EncryptBuilder C) (recipient : Recipient A) : EncryptBuilder C :=
  { self with recipients := self.recipients ++ [recipient] }

def addRecipients (self : EncryptBuilder C) (recipients : List (Recipient A)) :
    EncryptBuilder C :=
  { self with recipients := self.recipients ++ recipients }

def setSpendKey (self : EncryptBuilder C) (spendKey : SpendKeyPair C) : EncryptBuilder C :=
  { self with spendKey := some spendKey }

def setScopeBased (self : EncryptBuilder C) : EncryptBuilder C := { self with scopeBased := true }

/-- In scope-based mode the scope's own read key is the sole recipient. -/
def resolve (self : EncryptBuilder C) (spendKey : SpendKeyPair C) :
    Result (List (Recipient A) × AccessMode) :=
  if self.scopeBased then do
    let rootRead := spendKey.deriveRootReadKey
    let scopeKey ← (if self.scope = Scope.root then .ok rootRead
      else rootRead.deriveChild self.scope : Result (ReadKeyPair C))
    return ([scopeKey.recipient], .scopeBased)
  else do
    require (self.recipients.isEmpty = false) (.encryptionError "no recipients")
    return (self.recipients, .recipient)

/-- Encrypt the plaintext and produce a signed envelope. -/
def encrypt (self : EncryptBuilder C) (rng : CryptoRng A ρ) (plaintext : Bytes) :
    StateT ρ Result (EncryptedEnvelope A) := do
  let spendKey ← call (okOr self.spendKey (.encryptionError "spend key not set"))
  let (recipients, accessMode) ← call (self.resolve spendKey)
  let dataKey ← rng.fill 32
  let ephemeralSecretBytes ← rng.fill 32
  let ephemeralStatic := C.staticFrom ephemeralSecretBytes
  let (ciphertext, nonceBytes, tag) ← encryptPayload C rng dataKey plaintext
  let accessEntries ← recipients.mapM (wrapFor C rng ephemeralStatic dataKey)
  let envelope : EncryptedEnvelope A := {
    version := EncryptedEnvelope.currentVersion
    algorithm := self.algorithm
    scope := self.scope
    ephemeralX25519Public := C.publicFrom ephemeralStatic
    ephemeralMlkemCiphertext := none
    accessEntries := accessEntries
    nonce := nonceBytes
    ciphertext := ciphertext
    tag := tag
    signature := zeros 64
    spendPublicKey := C.verifyingAsBytes spendKey.verifyingKey
    accessMode := accessMode }
  return envelope.signedBy spendKey

end EncryptBuilder

/-- Find the access entry of a key and unwrap the data key from it. -/
def unwrapFor (envelope : EncryptedEnvelope A) (key : ReadKeyPair C) : Result Bytes := do
  let myKeyId := key.keyId
  let entry ← okOr (envelope.accessEntries.find? fun e => e.readKeyId = myKeyId)
    (.noMatchingAccessEntry (myKeyId.toBase58 C))
  let sharedSecret := C.diffieHellman key.secret envelope.ephemeralX25519Public
  unwrapDataKey C entry sharedSecret myKeyId

/-- In scope-based mode, check the scope and derive to it if needed. -/
def decryptKeyFor (envelope : EncryptedEnvelope A) (readKey : ReadKeyPair C) :
    Result (ReadKeyPair C) := do
  require (¬ (envelope.accessMode = .scopeBased ∧ readKey.canAccess envelope.scope = false))
    (.scopeMismatch readKey.scope.display envelope.scope.display)
  if envelope.accessMode = .scopeBased ∧ readKey.scope ≠ envelope.scope then
    readKey.deriveChild envelope.scope
  else return readKey

/-- Decrypt an envelope using a read key (classical mode). -/
def decrypt (envelope : EncryptedEnvelope A) (readKey : ReadKeyPair C)
    (spendVerifyingKey : C.VerifyingKey) : Result Bytes := do
  require (C.verify spendVerifyingKey envelope.signableBytes envelope.signature)
    .signatureVerificationFailed
  let decryptKey ← decryptKeyFor envelope readKey
  let dataKey ← unwrapFor envelope decryptKey
  decryptPayload C dataKey envelope.ciphertext envelope.nonce envelope.tag

/-- Change the recipients of a recipient-mode envelope without re-encrypting the payload. -/
def rekeyRecipients (rng : CryptoRng A ρ) (envelope : EncryptedEnvelope A)
    (authorizedKey : ReadKeyPair C) (newRecipients : List (Recipient A))
    (spendKey : SpendKeyPair C) : StateT ρ Result (EncryptedEnvelope A) := do
  call (require (envelope.accessMode ≠ .scopeBased)
    (.encryptionError "rekey_recipients only applies to recipient-mode envelopes"))
  call (require (newRecipients.isEmpty = false)
    (.encryptionError "new recipient list cannot be empty"))
  let spendVk ← call (okOr (C.verifyingFromBytes envelope.spendPublicKey) .invalidKeyMaterial)
  call (require (C.verify spendVk envelope.signableBytes envelope.signature)
    .signatureVerificationFailed)
  let dataKeyVec ← call (unwrapFor envelope authorizedKey)
  let dataKey ← call (unwrap (ofSlice 32 dataKeyVec))
  let ephemeralSecretBytes ← rng.fill 32
  let ephemeralStatic := C.staticFrom ephemeralSecretBytes
  let newEntries ← newRecipients.mapM (wrapFor C rng ephemeralStatic dataKey)
  let newEnvelope : EncryptedEnvelope A := {
    version := envelope.version
    algorithm := envelope.algorithm
    scope := envelope.scope
    ephemeralX25519Public := C.publicFrom ephemeralStatic
    ephemeralMlkemCiphertext := none
    accessEntries := newEntries
    nonce := envelope.nonce
    ciphertext := envelope.ciphertext
    tag := envelope.tag
    signature := zeros 64
    spendPublicKey := C.verifyingAsBytes spendKey.verifyingKey
    accessMode := .recipient }
  return newEnvelope.signedBy spendKey

end ReadOnlyKeys
