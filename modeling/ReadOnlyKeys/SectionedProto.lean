import ReadOnlyKeys.Prost
import ReadOnlyKeys.SectionedCodec
import Mathlib.Algebra.Order.BigOperators.Group.List

/-!
# Sectioned envelopes as protobuf messages

The second format of containers. Within the limits of the binary format both
formats carry the same containers. The coding of messages is generated code, of
which the result assumes only that decoding inverts encoding.
-/
namespace ReadOnlyKeys
open Outcome Wire

def Section.toProto (self : Section (Vector UInt8)) : ProtoSection :=
  ⟨self.name, some self.envelope.toProto⟩

def Section.tryFromProto (proto : ProtoSection) : Result (Section (Vector UInt8)) := do
  let protoEnv ← okOr proto.envelope (.serializationError "sectioned section missing envelope")
  let envelope ← EncryptedEnvelope.tryFromProto protoEnv
  return ⟨proto.name, envelope⟩

namespace SectionedEnvelope

def toProto (self : SectionedEnvelope (Vector UInt8)) : ProtoSectionedEnvelope :=
  ⟨self.version, self.sections.map Section.toProto⟩

def tryFromProto (env : ProtoSectionedEnvelope) : Result (SectionedEnvelope (Vector UInt8)) := do
  let sections ← env.sections.mapM Section.tryFromProto
  return ⟨env.version, sections⟩

/-- Serialize to protobuf bytes, with the generated encoder `encode`. -/
def toProtoBytes (encode : ProtoSectionedEnvelope → Bytes)
    (self : SectionedEnvelope (Vector UInt8)) : Bytes := encode self.toProto

/-- Deserialize from protobuf bytes, with the generated decoder `decode`. -/
def fromProtoBytes (decode : Bytes → Except String ProtoSectionedEnvelope) (bytes : Bytes) :
    Result (SectionedEnvelope (Vector UInt8)) := do
  let proto ← mapErr (decode bytes) fun e => .serializationError s!"protobuf decode: {e}"
  tryFromProto proto

end SectionedEnvelope

/-- Decoding inverts encoding on the generated message types. -/
def DecodeInverts (encode : ProtoSectionedEnvelope → Bytes)
    (decode : Bytes → Except String ProtoSectionedEnvelope) : Prop :=
  ∀ msg : ProtoSectionedEnvelope, msg.Typed → decode (encode msg) = .ok msg

namespace SectionedEnvelope

lemma toProto_typed (s : SectionedEnvelope (Vector UInt8)) : s.toProto.Typed := by
  intro x hx e he
  obtain ⟨sec, _, rfl⟩ := List.mem_map.mp hx
  obtain rfl := Option.some.inj he
  exact sec.envelope.toProto_typed

theorem tryFromProto_toProto {s : SectionedEnvelope (Vector UInt8)}
    (h : ∀ x ∈ s.sections, x.envelope.scope.Valid ∧
      ∀ ct ∈ x.envelope.ephemeralMlkemCiphertext, ct ≠ []) : tryFromProto s.toProto = .ok s := by
  have hsections : (s.sections.map Section.toProto).mapM Section.tryFromProto = .ok s.sections := by
    refine mapM_map_eq_ok fun x hx => ?_
    obtain ⟨hv, hct⟩ := h x hx
    rw [Section.tryFromProto, Section.toProto, okOr_some, ok_bind,
      EncryptedEnvelope.tryFromProto_toProto hv hct]
    rfl
  rw [tryFromProto, toProto, hsections]
  rfl

/-- A container within the limits is small enough to be in memory. -/
theorem toBytes_length_le {s : SectionedEnvelope (Vector UInt8)}
    (hcount : s.sections.length ≤ 65535)
    (h : ∀ x ∈ s.sections, x.Fits) : s.toBytes.length ≤ isizeMax := by
  have hsection : ∀ x ∈ s.sections, (sectionBytes x).length ≤ 2 ^ 33 := by
    intro x hx
    have hname := (h x hx).name
    have hsize := (h x hx).size
    simp only [sectionBytes, List.length_append, leBytes_length, EncryptedEnvelope.toBytes_length]
    omega
  have hsum : (s.sections.map fun x => (sectionBytes x).length).sum ≤
      s.sections.length * 2 ^ 33 := by
    have hle := List.sum_le_card_nsmul (s.sections.map fun x => (sectionBytes x).length) (2 ^ 33)
      (by simpa using hsection)
    simpa using hle
  simp only [toBytes, List.length_append, leBytes_length, List.length_flatMap, magicBytes,
    List.length_cons, List.length_nil, isizeMax]
  omega

/-- Binary bytes and protobuf bytes of a container within the limits both give it back. -/
theorem formats_agree {encode : ProtoSectionedEnvelope → Bytes}
    {decode : Bytes → Except String ProtoSectionedEnvelope} (hP : DecodeInverts encode decode)
    (m : Overflow) {s : SectionedEnvelope (Vector UInt8)} (hcount : s.sections.length ≤ 65535)
    (h : ∀ x ∈ s.sections, x.Fits) :
    (Slice.ofBytes s.toBytes >>= fromBytes m) = .ok s ∧
      fromProtoBytes decode (s.toProtoBytes encode) = .ok s := by
  constructor
  · have hslice : (Slice.ofBytes s.toBytes : Result Slice) =
        .ok ⟨s.toBytes, toBytes_length_le hcount h⟩ := dif_pos _
    rw [hslice, ok_bind, fromBytes_toBytes_iff m rfl]
    exact ⟨hcount, h⟩
  · rw [fromProtoBytes, toProtoBytes, hP _ s.toProto_typed, mapErr_ok, ok_bind]
    refine tryFromProto_toProto fun x hx => ?_
    have hl := (h x hx).limits
    refine ⟨hl.scope_valid, fun ct hct hnil => ?_⟩
    have hlen := (hl.mlkem ct hct).1
    rw [hnil] at hlen
    cases hlen

end SectionedEnvelope

theorem formats_agree_two_sections :
    (Slice.ofBytes twoSections.toBytes >>= SectionedEnvelope.fromBytes .wrapping) =
        .ok twoSections ∧
      SectionedEnvelope.fromProtoBytes Prost.decode (twoSections.toProtoBytes Prost.encode) =
        .ok twoSections :=
  SectionedEnvelope.formats_agree (fun _ h => Prost.decode_encode h) .wrapping (by decide)
    twoSections_fits

end ReadOnlyKeys
