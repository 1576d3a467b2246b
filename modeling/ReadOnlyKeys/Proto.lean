import ReadOnlyKeys.Envelope

/-!
# Envelopes and protobuf messages

The message types and the wire coding are generated code. A message holds
unchecked bytes and numbers, and the conversion from it checks every length and
every enumeration value. It accepts any version.
-/
namespace ReadOnlyKeys
open Outcome Wire

/-- `rok::AccessEntry`. -/
structure ProtoAccessEntry where
  readKeyId : Bytes
  wrappedDataKey : Bytes
  wrapNonce : Bytes

/-- `rok::EncryptedEnvelope`. -/
structure ProtoEnvelope where
  version : UInt32
  algorithm : Int
  scope : List Char
  ephemeralX25519Public : Bytes
  ephemeralMlkemCiphertext : Bytes
  accessEntries : List ProtoAccessEntry
  nonce : Bytes
  ciphertext : Bytes
  tag : Bytes
  spendPublicKey : Bytes
  signature : Bytes
  accessMode : Int

/-- `rok::ExportedReadKey`. -/
structure ProtoExportedReadKey where
  secretBytes : Bytes
  publicBytes : Bytes
  scope : List Char
  parentKeyId : Bytes

/-- `rok::SectionedSection`. -/
structure ProtoSection where
  name : List Char
  envelope : Option ProtoEnvelope

/-- `rok::SectionedEnvelope`. -/
structure ProtoSectionedEnvelope where
  version : UInt32
  sections : List ProtoSection

/-- `rok::AccessRule`. -/
structure ProtoAccessRule where
  scope : List Char
  recipientKeyIds : List Bytes
  expiresAt : UInt64

/-- `rok::AccessPolicy`. -/
structure ProtoAccessPolicy where
  rules : List ProtoAccessRule

/-- The enumeration fields of the generated types are 32-bit integers. -/
def IsI32 (v : Int) : Prop := -2 ^ 31 ≤ v ∧ v < 2 ^ 31

def ProtoEnvelope.Typed (env : ProtoEnvelope) : Prop := IsI32 env.algorithm ∧ IsI32 env.accessMode

def ProtoSectionedEnvelope.Typed (env : ProtoSectionedEnvelope) : Prop :=
  ∀ s ∈ env.sections, ∀ e ∈ s.envelope, e.Typed

def Algorithm.tryFromProto (v : Int) : Result Algorithm :=
  if v = 1 then .ok .eciesX25519ChaCha20
  else if v = 2 then .ok .hybridX25519MlKemChaCha20
  else if v = 0 then fail (.serializationError "unspecified algorithm")
  else fail (.serializationError s!"unknown algorithm value: {v}")

def Algorithm.toProto : Algorithm → Int
  | .eciesX25519ChaCha20 => 1
  | .hybridX25519MlKemChaCha20 => 2

def AccessMode.toProto : AccessMode → Int
  | .recipient => 0
  | .scopeBased => 1

def AccessMode.tryFromProto (v : Int) : Result AccessMode :=
  if v = 0 then .ok .recipient
  else if v = 1 then .ok .scopeBased
  else fail (.serializationError s!"unknown access mode value: {v}")

/-- A length check and a copy into an array of that length. -/
def arrayFromProto (n : ℕ) (bytes : Bytes) (msg : String) : Result (Vector UInt8 n) := do
  require (bytes.length = n) (.serializationError msg)
  unwrap (ofSlice n bytes)

def AccessEntry.tryFromProto (entry : ProtoAccessEntry) : Result (AccessEntry (Vector UInt8)) := do
  let keyIdBytes ← arrayFromProto 8 entry.readKeyId
    s!"expected 8-byte key_id, got {entry.readKeyId.length}"
  let wrapNonce ← arrayFromProto 12 entry.wrapNonce
    s!"expected 12-byte wrap_nonce, got {entry.wrapNonce.length}"
  return ⟨⟨keyIdBytes⟩, entry.wrappedDataKey, wrapNonce⟩

def AccessEntry.toProto (entry : AccessEntry (Vector UInt8)) : ProtoAccessEntry :=
  ⟨asBytes entry.readKeyId.bytes, entry.wrappedDataKey, asBytes entry.wrapNonce⟩

lemma Algorithm.tryFromProto_toProto (a : Algorithm) : tryFromProto a.toProto = .ok a := by
  cases a <;> rfl

lemma AccessMode.tryFromProto_toProto (a : AccessMode) : tryFromProto a.toProto = .ok a := by
  cases a <;> rfl

lemma arrayFromProto_asBytes {n : ℕ} (a : Vector UInt8 n) (msg : String) :
    arrayFromProto n (asBytes a) msg = .ok a := by
  rw [arrayFromProto, require_of _ _ (by simp), ok_bind, ofSlice_asBytes]
  rfl

lemma AccessEntry.tryFromProto_toProto (entry : AccessEntry (Vector UInt8)) :
    tryFromProto entry.toProto = .ok entry := by
  simp only [tryFromProto, toProto, arrayFromProto_asBytes, ok_bind]
  rfl

namespace ExportedReadKey

def toProto (key : ExportedReadKey (Vector UInt8)) : ProtoExportedReadKey where
  secretBytes := asBytes key.secretBytes
  publicBytes := asBytes key.publicBytes
  scope := key.scope.path
  parentKeyId := key.parentKeyId.elim [] fun p => asBytes p.bytes

def tryFromProto (key : ProtoExportedReadKey) : Result (ExportedReadKey (Vector UInt8)) := do
  let secretBytes ← arrayFromProto 32 key.secretBytes "exported read key secret must be 32 bytes"
  let publicBytes ← arrayFromProto 32 key.publicBytes "exported read key public must be 32 bytes"
  let scope ← Scope.new key.scope
  return ⟨secretBytes, publicBytes, scope, (ofSlice 8 key.parentKeyId).map KeyId.mk⟩

/-- A message says all of an exported key whose scope is valid. -/
theorem tryFromProto_toProto {key : ExportedReadKey (Vector UInt8)} (hv : key.scope.Valid) :
    tryFromProto key.toProto = .ok key := by
  have hscope : Scope.new key.scope.path = .ok key.scope := (Scope.new_eq_ok_iff _ _).mpr ⟨rfl, hv⟩
  simp only [tryFromProto, toProto, arrayFromProto_asBytes, ok_bind, hscope]
  obtain ⟨secret, pub, scope, parent⟩ := key
  cases parent with
  | none => rfl
  | some p =>
    rw [Option.elim_some, ofSlice_asBytes]
    rfl

end ExportedReadKey

namespace EncryptedEnvelope

def toProto (env : EncryptedEnvelope (Vector UInt8)) : ProtoEnvelope where
  version := env.version
  algorithm := env.algorithm.toProto
  scope := env.scope.path
  ephemeralX25519Public := asBytes env.ephemeralX25519Public
  ephemeralMlkemCiphertext := env.ephemeralMlkemCiphertext.getD []
  accessEntries := env.accessEntries.map AccessEntry.toProto
  nonce := asBytes env.nonce
  ciphertext := env.ciphertext
  tag := asBytes env.tag
  spendPublicKey := asBytes env.spendPublicKey
  signature := asBytes env.signature
  accessMode := env.accessMode.toProto

lemma toProto_typed (e : EncryptedEnvelope (Vector UInt8)) : e.toProto.Typed := by
  constructor
  · show IsI32 e.algorithm.toProto
    cases e.algorithm <;> exact ⟨by decide, by decide⟩
  · show IsI32 e.accessMode.toProto
    cases e.accessMode <;> exact ⟨by decide, by decide⟩

def tryFromProto (env : ProtoEnvelope) : Result (EncryptedEnvelope (Vector UInt8)) := do
  let algorithm ← Algorithm.tryFromProto env.algorithm
  let scope ← Scope.new env.scope
  let ephemeralX25519Public ← arrayFromProto 32 env.ephemeralX25519Public
    "ephemeral X25519 public key must be 32 bytes"
  let ephemeralMlkemCiphertext :=
    if env.ephemeralMlkemCiphertext.isEmpty then none else some env.ephemeralMlkemCiphertext
  let accessEntries ← env.accessEntries.mapM AccessEntry.tryFromProto
  let nonce ← arrayFromProto 12 env.nonce "nonce must be 12 bytes"
  let tag ← arrayFromProto 16 env.tag "tag must be 16 bytes"
  let spendPublicKey ← arrayFromProto 32 env.spendPublicKey "spend public key must be 32 bytes"
  let signature ← arrayFromProto 64 env.signature "signature must be 64 bytes"
  let accessMode ← AccessMode.tryFromProto env.accessMode
  return {
    version := env.version
    algorithm := algorithm
    scope := scope
    ephemeralX25519Public := ephemeralX25519Public
    ephemeralMlkemCiphertext := ephemeralMlkemCiphertext
    accessEntries := accessEntries
    nonce := nonce
    ciphertext := env.ciphertext
    tag := tag
    signature := signature
    spendPublicKey := spendPublicKey
    accessMode := accessMode }

/-- Serialize to protobuf bytes, with the generated encoder `encode`. -/
def toProtoBytes (encode : ProtoEnvelope → Bytes) (self : EncryptedEnvelope (Vector UInt8)) :
    Bytes := encode self.toProto

/-- Deserialize from protobuf bytes, with the generated decoder `decode`. -/
def fromProtoBytes (decode : Bytes → Except String ProtoEnvelope) (bytes : Bytes) :
    Result (EncryptedEnvelope (Vector UInt8)) := do
  let protoEnv ← mapErr (decode bytes) fun e => .serializationError s!"protobuf decode: {e}"
  tryFromProto protoEnv

/-- What the conversion guarantees of the variable fields. -/
theorem tryFromProto_eq_ok {env : ProtoEnvelope} {e : EncryptedEnvelope (Vector UInt8)}
    (h : tryFromProto env = .ok e) : e.version = env.version ∧ e.scope.Valid ∧
      ∀ ct ∈ e.ephemeralMlkemCiphertext, 1 ≤ ct.length := by
  simp only [tryFromProto, bind_eq_ok_iff] at h
  obtain ⟨_, _, scope, hscope, _, _, _, _, _, _, _, _, _, _, _, _, _, _, h⟩ := h
  obtain rfl := Except.ok.inj h
  refine ⟨rfl, ((Scope.new_eq_ok_iff _ _).mp hscope).2, fun ct hct => ?_⟩
  simp only at hct
  split_ifs at hct with hempty
  · cases hct
  · obtain rfl := Option.some.inj hct
    exact List.length_pos_iff.mpr (by simpa using hempty)

/-- A message says all of an envelope whose scope is valid and whose ML-KEM ciphertext, if it has
one, is not empty. -/
theorem tryFromProto_toProto {e : EncryptedEnvelope (Vector UInt8)} (hv : e.scope.Valid)
    (hct : ∀ ct ∈ e.ephemeralMlkemCiphertext, ct ≠ []) : tryFromProto e.toProto = .ok e := by
  have hscope : Scope.new e.scope.path = .ok e.scope := (Scope.new_eq_ok_iff _ _).mpr ⟨rfl, hv⟩
  have hentries : (e.accessEntries.map AccessEntry.toProto).mapM AccessEntry.tryFromProto =
      .ok e.accessEntries := mapM_map_eq_ok fun entry _ => entry.tryFromProto_toProto
  have hmlkem : (if (e.ephemeralMlkemCiphertext.getD []).isEmpty then none
      else some (e.ephemeralMlkemCiphertext.getD [])) = e.ephemeralMlkemCiphertext := by
    cases hc : e.ephemeralMlkemCiphertext with
    | none => rfl
    | some ct =>
      have hne := hct ct hc
      simpa using hne
  simp only [tryFromProto, toProto, Algorithm.tryFromProto_toProto, hscope, ok_bind,
    arrayFromProto_asBytes, hentries, AccessMode.tryFromProto_toProto]
  exact congrArg Except.ok
    (EncryptedEnvelope.ext rfl rfl rfl rfl hmlkem rfl rfl rfl rfl rfl rfl rfl)

theorem fromProtoBytes_eq_ok {decode : Bytes → Except String ProtoEnvelope} {bytes : Bytes}
    {e : EncryptedEnvelope (Vector UInt8)} (h : fromProtoBytes decode bytes = .ok e) :
    e.scope.Valid ∧ ∀ ct ∈ e.ephemeralMlkemCiphertext, 1 ≤ ct.length := by
  rw [fromProtoBytes, bind_eq_ok_iff] at h
  obtain ⟨env, _, h⟩ := h
  exact (tryFromProto_eq_ok h).2

end EncryptedEnvelope

end ReadOnlyKeys
