import ReadOnlyKeys.Crypto
import ReadOnlyKeys.Scope
import ReadOnlyKeys.Lib.KeyTree

/-!
# Spend keys and read keys

A spend key signs and is the root of a tree of read keys, one for each scope. A
read key carries its scope as a label. Its secret is derived level by level
along the path, or brought in by an import that checks only the public half.
-/
namespace ReadOnlyKeys
open Outcome Wire SeparatedPath

variable {A : ℕ → Type} [ByteArrays A]

/-- A key identifier. -/
@[ext] structure KeyId (A : ℕ → Type) where
  bytes : A 8

instance : DecidableEq (KeyId A) := fun _ _ => decidable_of_iff _ KeyId.ext_iff.symm

namespace KeyId

def fromPublicBytes (C : Crypto A) (publicKey : Bytes) : KeyId A := ⟨C.sha256Prefix publicKey⟩

/-- `Display`. -/
def toBase58 (C : Crypto A) (self : KeyId A) : String := C.base58 (asBytes self.bytes)

end KeyId

def domainSpendToRoot : Bytes := toUtf8 "rok-v1-spend-to-root-read".toList
def domainReadChild : Bytes := toUtf8 "rok-v1-read-child-derive".toList
def domainKeyWrap : Bytes := toUtf8 "rok-v1-key-wrap".toList

section Derive

variable (C : Crypto A)

/-- Derive the root read key secret from a spend key secret. -/
def deriveRootReadSecret (spendSecret : A 32) : A 32 :=
  C.hkdf domainSpendToRoot (asBytes spendSecret) (toUtf8 ['/'])

/-- Derive a child read key secret from a parent read key secret, one level at a time. -/
def deriveChildReadSecret (parentSecret : A 32) (parentScope childScope : Scope) :
    Result (A 32) := do
  require (parentScope.isAncestorOf childScope) (.derivationError
    s!"scope '{childScope.display}' is not a descendant of '{parentScope.display}'")
  require (parentScope ≠ childScope) (.derivationError "child scope must differ from parent scope")
  let parentComponents ← parentScope.components
  let childComponents ← childScope.components
  let levels := List.range' parentComponents.length
    (childComponents.length - parentComponents.length)
  return levels.foldl (fun currentSecret i =>
    let intermediatePath := '/' :: ['/'].intercalate (childComponents.take (i + 1))
    C.hkdf domainReadChild (asBytes currentSecret) (toUtf8 intermediatePath)) parentSecret

/-- Derive a wrapping key from a shared secret and a recipient's key identifier. -/
def deriveWrappingKey (sharedSecret : A 32) (keyId : KeyId A) : A 32 :=
  C.hkdf domainKeyWrap (asBytes sharedSecret) (asBytes keyId.bytes)

end Derive

/-- A read key pair. The public half always belongs to the secret half. -/
structure ReadKeyPair (C : Crypto A) where
  secret : C.StaticSecret
  publicKey : A 32
  scope : Scope
  parentKeyId : Option (KeyId A)
  public_eq : publicKey = C.publicFrom secret

/-- A read key stripped to what delegation needs. -/
structure ExportedReadKey (A : ℕ → Type) where
  secretBytes : A 32
  publicBytes : A 32
  scope : Scope
  parentKeyId : Option (KeyId A)

/-- The spend key pair. -/
structure SpendKeyPair (C : Crypto A) where
  signingKey : C.SigningKey

namespace ReadKeyPair

variable {C : Crypto A}

def fromSecretBytes (C : Crypto A) (secretBytes : A 32) (scope : Scope)
    (parentKeyId : Option (KeyId A)) : ReadKeyPair C :=
  ⟨C.staticFrom secretBytes, C.publicFrom (C.staticFrom secretBytes), scope, parentKeyId, rfl⟩

def keyId (self : ReadKeyPair C) : KeyId A := KeyId.fromPublicBytes C (asBytes self.publicKey)

def secretBytes (self : ReadKeyPair C) : A 32 := C.staticToBytes self.secret

/-- Can this key access the given target scope? -/
def canAccess (self : ReadKeyPair C) (targetScope : Scope) : Bool :=
  self.scope.isAncestorOf targetScope

/-- Derive a child read key at a sub-scope. -/
def deriveChild (self : ReadKeyPair C) (childScope : Scope) : Result (ReadKeyPair C) := do
  require (self.scope.isAncestorOf childScope ∧ self.scope ≠ childScope) (.derivationError
    s!"'{childScope.display}' is not a proper descendant of '{self.scope.display}'")
  let childSecret ← deriveChildReadSecret C self.secretBytes self.scope childScope
  return fromSecretBytes C childSecret childScope (some self.keyId)

/-- Derive a child for a single path segment. -/
def deriveChildSegment (self : ReadKeyPair C) (segment : List Char) : Result (ReadKeyPair C) := do
  let childScope ← self.scope.child segment
  self.deriveChild childScope

/-- Export the read key for delegation. -/
def exportKey (self : ReadKeyPair C) : ExportedReadKey A :=
  ⟨self.secretBytes, self.publicKey, self.scope, self.parentKeyId⟩

/-- Import an exported read key. The scope label is taken as it is. -/
def importKey (C : Crypto A) (exported : ExportedReadKey A) : Result (ReadKeyPair C) := do
  let secret := C.staticFrom exported.secretBytes
  require (C.publicFrom secret = exported.publicBytes) .invalidKeyMaterial
  return ⟨secret, C.publicFrom secret, exported.scope, exported.parentKeyId, rfl⟩

end ReadKeyPair

namespace SpendKeyPair

variable {C : Crypto A}

/-- Recover from a 32-byte seed. -/
def fromSeed (C : Crypto A) (seed : A 32) : SpendKeyPair C := ⟨C.signingFromBytes seed⟩

def verifyingKey (self : SpendKeyPair C) : C.VerifyingKey := C.verifyingKey self.signingKey

/-- Derive the root read key at scope "/". -/
def deriveRootReadKey (self : SpendKeyPair C) : ReadKeyPair C :=
  ReadKeyPair.fromSecretBytes C (deriveRootReadSecret C (C.signingToBytes self.signingKey))
    Scope.root none

end SpendKeyPair

end ReadOnlyKeys
