import ReadOnlyKeys.Lib.Outcome

/-!
# Errors of the crates

The crates share one error type. A call of the crates returns a value, one of
these errors, or panics.
-/
namespace ReadOnlyKeys
open Outcome

inductive RokError where
  | derivationError (msg : String)
  | encryptionError (msg : String)
  | decryptionError (msg : String)
  | signatureVerificationFailed
  | invalidScope (msg : String)
  | noMatchingAccessEntry (keyId : String)
  | keyNotFound (msg : String)
  | keyRevoked (msg : String)
  | serializationError (msg : String)
  | invalidKeyMaterial
  | scopeMismatch (keyScope dataScope : String)
  | encodingError (msg : String)
  | invalidChecksum
  | storageError (msg : String)
  | invalidTypeTag (expected got : UInt8)
  deriving DecidableEq, Repr

/-- `Display`. -/
def RokError.display : RokError → String
  | derivationError msg => s!"key derivation failed: {msg}"
  | encryptionError msg => s!"encryption failed: {msg}"
  | decryptionError msg => s!"decryption failed: {msg}"
  | signatureVerificationFailed => "signature verification failed"
  | invalidScope msg => s!"invalid scope path: {msg}"
  | noMatchingAccessEntry keyId => s!"no matching access entry for key id {keyId}"
  | keyNotFound msg => s!"key not found: {msg}"
  | keyRevoked msg => s!"key revoked: {msg}"
  | serializationError msg => s!"serialization error: {msg}"
  | invalidKeyMaterial => "invalid key material"
  | scopeMismatch keyScope dataScope =>
    s!"scope mismatch: key scope '{keyScope}' cannot access data at scope '{dataScope}'"
  | encodingError msg => s!"encoding error: {msg}"
  | invalidChecksum => "invalid checksum"
  | storageError msg => s!"storage error: {msg}"
  | invalidTypeTag expected got => s!"invalid type tag: expected {expected}, got {got}"

abbrev Result := Except (Fault RokError)

/-- `Err(e)`. -/
abbrev fail {α : Type} (e : RokError) : Result α := .error (.err e)

end ReadOnlyKeys
