import ReadOnlyKeys.Lib.Protobuf
import ReadOnlyKeys.Proto

/-!
# The messages on the wire

The coding that is generated for the message types, with their field numbers.
Decoding inverts encoding on every message whose enumerations are 32-bit
integers.
-/
namespace ReadOnlyKeys
open Outcome Wire

namespace Prost
open Protobuf

/-- `Message::decode`, as far as the fields. -/
def fields (bs : Bytes) : Except String (List Field) :=
  (read bs).elim (.error "failed to decode Protobuf message") .ok

lemma fields_write (fs : List Field) : fields (write fs) = .ok fs := by
  rw [fields, read_write]
  rfl

/-- A `string` field. -/
def string (bs : Bytes) : Except String (List Char) :=
  (fromUtf8 bs).elim (.error "invalid string value: data is not UTF-8 encoded") .ok

lemma string_toUtf8 (s : List Char) : string (toUtf8 s) = .ok s := by
  rw [string, fromUtf8_toUtf8]
  rfl

/-- An `enumeration` field is sign-extended to 64 bits. -/
def ofI32 (v : Int) : ℕ := (v % 2 ^ 64).toNat

/-- It is read by its low 32 bits. -/
def toI32 (n : ℕ) : Int :=
  if n % 2 ^ 32 < 2 ^ 31 then n % 2 ^ 32 else (n % 2 ^ 32 : Int) - 2 ^ 32

lemma toI32_ofI32 {v : Int} (h : IsI32 v) : toI32 (ofI32 v) = v := by
  unfold toI32 ofI32
  obtain ⟨hlo, hhi⟩ := h
  split_ifs <;> omega

def encodeAccessEntry (entry : ProtoAccessEntry) : Bytes :=
  write (bytesField 1 entry.readKeyId ++ bytesField 2 entry.wrappedDataKey ++
    bytesField 3 entry.wrapNonce)

def decodeAccessEntry (bs : Bytes) : Except String ProtoAccessEntry := do
  let fs ← fields bs
  return ⟨lastBytes 1 fs, lastBytes 2 fs, lastBytes 3 fs⟩

lemma decodeAccessEntry_encode (entry : ProtoAccessEntry) :
    decodeAccessEntry (encodeAccessEntry entry) = .ok entry := by
  rw [decodeAccessEntry, encodeAccessEntry, fields_write, ok_bind]
  simp [lastBytes]
  rfl

def encodeEnvelope (env : ProtoEnvelope) : Bytes :=
  write (numberField 1 env.version.toNat ++ numberField 2 (ofI32 env.algorithm) ++
    bytesField 3 (toUtf8 env.scope) ++ bytesField 4 env.ephemeralX25519Public ++
    bytesField 5 env.ephemeralMlkemCiphertext ++ messages 6 encodeAccessEntry env.accessEntries ++
    bytesField 7 env.nonce ++ bytesField 8 env.ciphertext ++ bytesField 9 env.tag ++
    bytesField 10 env.spendPublicKey ++ bytesField 11 env.signature ++
    numberField 12 (ofI32 env.accessMode))

def decodeEnvelope (bs : Bytes) : Except String ProtoEnvelope := do
  let fs ← fields bs
  let scope ← string (lastBytes 3 fs)
  let accessEntries ← (lens 6 fs).mapM decodeAccessEntry
  return {
    version := UInt32.ofNat (lastNumber 1 fs)
    algorithm := toI32 (lastNumber 2 fs)
    scope := scope
    ephemeralX25519Public := lastBytes 4 fs
    ephemeralMlkemCiphertext := lastBytes 5 fs
    accessEntries := accessEntries
    nonce := lastBytes 7 fs
    ciphertext := lastBytes 8 fs
    tag := lastBytes 9 fs
    spendPublicKey := lastBytes 10 fs
    signature := lastBytes 11 fs
    accessMode := toI32 (lastNumber 12 fs) }

lemma decodeEnvelope_encode {env : ProtoEnvelope} (h : env.Typed) :
    decodeEnvelope (encodeEnvelope env) = .ok env := by
  have hentries : (env.accessEntries.map encodeAccessEntry).mapM decodeAccessEntry =
      .ok env.accessEntries := mapM_map_eq_ok fun entry _ => decodeAccessEntry_encode entry
  rw [decodeEnvelope, encodeEnvelope, fields_write, ok_bind]
  simp [lastBytes, lastNumber, string_toUtf8, hentries, toI32_ofI32 h.1, toI32_ofI32 h.2]

def encodeSection (s : ProtoSection) : Bytes :=
  write (bytesField 1 (toUtf8 s.name) ++ messages 2 encodeEnvelope s.envelope.toList)

def decodeSection (bs : Bytes) : Except String ProtoSection := do
  let fs ← fields bs
  let name ← string (lastBytes 1 fs)
  let envelope ← (lens 2 fs).getLast?.mapM decodeEnvelope
  return ⟨name, envelope⟩

lemma decodeSection_encode {s : ProtoSection} (h : ∀ e ∈ s.envelope, e.Typed) :
    decodeSection (encodeSection s) = .ok s := by
  obtain ⟨name, envelope⟩ := s
  rw [decodeSection, encodeSection, fields_write, ok_bind]
  cases envelope with
  | none =>
    simp [lastBytes, string_toUtf8]
  | some e =>
    simp [lastBytes, string_toUtf8, decodeEnvelope_encode (h e rfl)]

/-- `encode_to_vec` for `rok::SectionedEnvelope`. -/
def encode (env : ProtoSectionedEnvelope) : Bytes :=
  write (numberField 1 env.version.toNat ++ messages 2 encodeSection env.sections)

/-- `decode` for `rok::SectionedEnvelope`. -/
def decode (bs : Bytes) : Except String ProtoSectionedEnvelope := do
  let fs ← fields bs
  let sections ← (lens 2 fs).mapM decodeSection
  return ⟨UInt32.ofNat (lastNumber 1 fs), sections⟩

theorem decode_encode {env : ProtoSectionedEnvelope} (h : env.Typed) :
    decode (encode env) = .ok env := by
  have hsections : (env.sections.map encodeSection).mapM decodeSection = .ok env.sections :=
    mapM_map_eq_ok fun s hs => decodeSection_encode (h s hs)
  rw [decode, encode, fields_write, ok_bind]
  simp [lastNumber, hsections]

def encodeAccessRule (rule : ProtoAccessRule) : Bytes :=
  write (bytesField 1 (toUtf8 rule.scope) ++ messages 2 id rule.recipientKeyIds ++
    numberField 3 rule.expiresAt.toNat)

def decodeAccessRule (bs : Bytes) : Except String ProtoAccessRule := do
  let fs ← fields bs
  let scope ← string (lastBytes 1 fs)
  return ⟨scope, lens 2 fs, UInt64.ofNat (lastNumber 3 fs)⟩

lemma decodeAccessRule_encode (rule : ProtoAccessRule) :
    decodeAccessRule (encodeAccessRule rule) = .ok rule := by
  rw [decodeAccessRule, encodeAccessRule, fields_write, ok_bind]
  simp [lastBytes, lastNumber, string_toUtf8]

/-- `encode_to_vec` for `rok::AccessPolicy`. -/
def encodePolicy (policy : ProtoAccessPolicy) : Bytes :=
  write (messages 1 encodeAccessRule policy.rules)

/-- `decode` for `rok::AccessPolicy`. -/
def decodePolicy (bs : Bytes) : Except String ProtoAccessPolicy := do
  let fs ← fields bs
  let rules ← (lens 1 fs).mapM decodeAccessRule
  return ⟨rules⟩

theorem decodePolicy_encode (policy : ProtoAccessPolicy) :
    decodePolicy (encodePolicy policy) = .ok policy := by
  have hrules : (policy.rules.map encodeAccessRule).mapM decodeAccessRule = .ok policy.rules :=
    mapM_map_eq_ok fun rule _ => decodeAccessRule_encode rule
  rw [decodePolicy, encodePolicy, fields_write, ok_bind]
  simp [hrules]

end Prost

end ReadOnlyKeys
