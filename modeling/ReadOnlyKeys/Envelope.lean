import ReadOnlyKeys.Keys
import ReadOnlyKeys.Lib.Cursor

/-!
# The encrypted envelope and its byte forms

`signableBytes` is what the spend key signs, `toBytes` and `fromBytes` are the
binary file format. Casts to narrower lengths wrap, as `as` does. The decoder is
split after the nonce, before it reads the ciphertext.
-/
namespace ReadOnlyKeys
open Outcome Wire

/-- Encryption algorithm selection. -/
inductive Algorithm where
  | eciesX25519ChaCha20
  | hybridX25519MlKemChaCha20
  deriving DecidableEq, Repr

namespace Algorithm

def toU8 : Algorithm → UInt8
  | eciesX25519ChaCha20 => 1
  | hybridX25519MlKemChaCha20 => 2

def fromU8 (v : UInt8) : Result Algorithm :=
  if v = 1 then .ok eciesX25519ChaCha20
  else if v = 2 then .ok hybridX25519MlKemChaCha20
  else fail (.serializationError s!"unknown algorithm: {v}")

theorem fromU8_eq_ok_iff (v : UInt8) (a : Algorithm) : fromU8 v = .ok a ↔ v = a.toU8 := by
  unfold fromU8
  split_ifs with h₁ h₂ <;> cases a <;> simp_all [toU8]

end Algorithm

/-- Access mode for encrypted envelopes. -/
inductive AccessMode where
  | recipient
  | scopeBased
  deriving DecidableEq, Repr

namespace AccessMode

def toU8 : AccessMode → UInt8
  | recipient => 0
  | scopeBased => 1

def fromU8 (v : UInt8) : Result AccessMode :=
  if v = 0 then .ok recipient
  else if v = 1 then .ok scopeBased
  else fail (.serializationError s!"unknown access mode: {v}")

theorem fromU8_eq_ok_iff (v : UInt8) (a : AccessMode) : fromU8 v = .ok a ↔ v = a.toU8 := by
  unfold fromU8
  split_ifs with h₁ h₂ <;> cases a <;> simp_all [toU8]

end AccessMode

/-- A wrapped data key for one recipient. -/
@[ext] structure AccessEntry (A : ℕ → Type) where
  readKeyId : KeyId A
  wrappedDataKey : Bytes
  wrapNonce : A 12

@[ext] structure EncryptedEnvelope (A : ℕ → Type) where
  version : UInt32
  algorithm : Algorithm
  scope : Scope
  ephemeralX25519Public : A 32
  ephemeralMlkemCiphertext : Option Bytes
  accessEntries : List (AccessEntry A)
  nonce : A 12
  ciphertext : Bytes
  tag : A 16
  signature : A 64
  spendPublicKey : A 32
  accessMode : AccessMode

instance {A : ℕ → Type} [ByteArrays A] : DecidableEq (AccessEntry A) :=
  fun _ _ => decidable_of_iff _ AccessEntry.ext_iff.symm

instance {A : ℕ → Type} [ByteArrays A] : DecidableEq (EncryptedEnvelope A) :=
  fun _ _ => decidable_of_iff _ EncryptedEnvelope.ext_iff.symm

/-- The optional ML-KEM ciphertext, with the length zero for none. -/
def mlkemBytes : Option Bytes → Bytes
  | some ct => leBytes 4 ct.length ++ ct
  | none => leBytes 4 0

section Encode

variable {A : ℕ → Type} [ByteArrays A]

/-- An access entry with a `width`-byte length of its wrapped key. -/
def AccessEntry.toBytes (width : ℕ) (entry : AccessEntry A) : Bytes :=
  asBytes entry.readKeyId.bytes ++ leBytes width entry.wrappedDataKey.length ++
    entry.wrappedDataKey ++ asBytes entry.wrapNonce

namespace EncryptedEnvelope

def currentVersion : UInt32 := 2

/-- "ROK\x01". -/
def magicBytes : Bytes := [0x52, 0x4f, 0x4b, 0x01]

/-- The bytes that are signed: everything except the signature field. -/
def signableBytes (self : EncryptedEnvelope A) : Bytes :=
  leBytes 4 self.version.toNat ++ [self.algorithm.toU8] ++ [self.accessMode.toU8] ++
    toUtf8 self.scope.path ++ asBytes self.ephemeralX25519Public ++
    mlkemBytes self.ephemeralMlkemCiphertext ++ leBytes 4 self.accessEntries.length ++
    self.accessEntries.flatMap (AccessEntry.toBytes 4) ++ asBytes self.nonce ++
    leBytes 8 self.ciphertext.length ++ self.ciphertext ++ asBytes self.tag ++
    asBytes self.spendPublicKey

/-- Serialize to binary format. -/
def toBytes (self : EncryptedEnvelope A) : Bytes :=
  magicBytes ++ leBytes 4 self.version.toNat ++ [self.algorithm.toU8] ++
    [self.accessMode.toU8] ++ leBytes 2 (toUtf8 self.scope.path).length ++
    toUtf8 self.scope.path ++ asBytes self.ephemeralX25519Public ++
    mlkemBytes self.ephemeralMlkemCiphertext ++ leBytes 2 self.accessEntries.length ++
    self.accessEntries.flatMap (AccessEntry.toBytes 2) ++ asBytes self.nonce ++
    leBytes 8 self.ciphertext.length ++ self.ciphertext ++ asBytes self.tag ++
    asBytes self.spendPublicKey ++ asBytes self.signature

end EncryptedEnvelope

end Encode

section Decode

variable (m : Overflow) (data : Slice)

/-- A fixed-size field: a read and a copy into an array of that size. -/
def readArray (eof : RokError) (n : ℕ) : Cursor RokError (Vector UInt8 n) := do
  let bytes ← readBytes m data eof n
  call (unwrap (ofSlice n bytes))

/-- A little-endian number of `k` bytes. -/
def readLe (eof : RokError) (k : ℕ) : Cursor RokError ℕ := do
  let bytes ← readBytes m data eof k
  return leNat bytes

def readByte (eof : RokError) : Cursor RokError UInt8 := do
  let bytes ← readBytes m data eof 1
  call (unwrap bytes.head?)

def readMagic (eof : RokError) (magic : Bytes) (invalid : RokError) : Cursor RokError Unit := do
  let bytes ← readBytes m data eof magic.length
  call (require (bytes = magic) invalid)

def readU32 (eof : RokError) : Cursor RokError UInt32 := do
  let n ← readLe m data eof 4
  return UInt32.ofNat n

/-- A string behind its two-byte length. -/
def readString (eof invalid : RokError) : Cursor RokError (List Char) := do
  let len ← readLe m data eof 2
  let bytes ← readBytes m data eof len
  call (okOr (fromUtf8 bytes) invalid)

namespace EncryptedEnvelope

def eof : RokError := .serializationError "unexpected end of data"

/-- Access mode (v2+); v1 envelopes default to Recipient. -/
def readAccessMode (version : UInt32) : Cursor RokError AccessMode :=
  if 2 ≤ version then do
    let modeByte ← readByte m data eof
    call (AccessMode.fromU8 modeByte)
  else return .recipient

def readAlgorithm : Cursor RokError Algorithm := do
  let algoByte ← readByte m data eof
  call (Algorithm.fromU8 algoByte)

def readScope : Cursor RokError Scope := do
  let scopeStr ← readString m data eof (.serializationError "invalid scope utf8")
  call (Scope.new scopeStr)

def readMlkem : Cursor RokError (Option Bytes) := do
  let mlkemLen ← readLe m data eof 4
  if 0 < mlkemLen then do
    let ct ← readBytes m data eof mlkemLen
    return some ct
  else return none

def readEntry : Cursor RokError (AccessEntry (Vector UInt8)) := do
  let keyIdBytes ← readArray m data eof 8
  let wdkLen ← readLe m data eof 2
  let wrappedDataKey ← readBytes m data eof wdkLen
  let wrapNonce ← readArray m data eof 12
  return ⟨⟨keyIdBytes⟩, wrappedDataKey, wrapNonce⟩

def readEntries : Cursor RokError (List (AccessEntry (Vector UInt8))) := do
  let entryCount ← readLe m data eof 2
  readMany (readEntry m data) entryCount

/-- The fields in front of the ciphertext. -/
@[ext] structure Preamble where
  version : UInt32
  algorithm : Algorithm
  accessMode : AccessMode
  scope : Scope
  ephemeralX25519Public : Vector UInt8 32
  ephemeralMlkemCiphertext : Option Bytes
  accessEntries : List (AccessEntry (Vector UInt8))
  nonce : Vector UInt8 12

def readPreamble : Cursor RokError Preamble := do
  readMagic m data eof magicBytes (.serializationError "invalid magic bytes")
  let version ← readU32 m data eof
  let algorithm ← readAlgorithm m data
  let accessMode ← readAccessMode m data version
  let scope ← readScope m data
  let ephemeralX25519Public ← readArray m data eof 32
  let ephemeralMlkemCiphertext ← readMlkem m data
  let accessEntries ← readEntries m data
  let nonce ← readArray m data eof 12
  return ⟨version, algorithm, accessMode, scope, ephemeralX25519Public, ephemeralMlkemCiphertext,
    accessEntries, nonce⟩

/-- The ciphertext and what follows it. -/
def readRest (p : Preamble) : Cursor RokError (EncryptedEnvelope (Vector UInt8)) := do
  let ctLen ← readLe m data eof 8
  let ciphertext ← readBytes m data eof ctLen
  let tag ← readArray m data eof 16
  let spendPublicKey ← readArray m data eof 32
  let signature ← readArray m data eof 64
  return {
    version := p.version
    algorithm := p.algorithm
    scope := p.scope
    ephemeralX25519Public := p.ephemeralX25519Public
    ephemeralMlkemCiphertext := p.ephemeralMlkemCiphertext
    accessEntries := p.accessEntries
    nonce := p.nonce
    ciphertext := ciphertext
    tag := tag
    signature := signature
    spendPublicKey := spendPublicKey
    accessMode := p.accessMode }

def readEnvelope : Cursor RokError (EncryptedEnvelope (Vector UInt8)) := do
  let p ← readPreamble m data
  readRest m data p

/-- Deserialize from binary format. -/
def fromBytes : Result (EncryptedEnvelope (Vector UInt8)) := (readEnvelope m data).run' 0

end EncryptedEnvelope

end Decode

end ReadOnlyKeys
