import ReadOnlyKeys.EnvelopeCodec
import ReadOnlyKeys.Proto
import ReadOnlyKeys.Rekey

/-!
# Writing back what was decoded

The encoder writes the access mode for every version and the decoder reads it
from version 2 on. An envelope that was decoded, or rekeyed after decoding, is
therefore written back faithfully from version 2 on and never before.
-/
namespace ReadOnlyKeys
open Outcome Wire

namespace EncryptedEnvelope

/-- Envelopes that come out of a decoder, and those rekeyed from them. -/
inductive Decoded (decode : Bytes → Except String ProtoEnvelope) :
    EncryptedEnvelope (Vector UInt8) → Prop where
  | binary {e : EncryptedEnvelope (Vector UInt8)} (m : Overflow) (data : Slice)
      (h : fromBytes m data = .ok e) : Decoded decode e
  | proto {e : EncryptedEnvelope (Vector UInt8)} (bytes : Bytes)
      (h : fromProtoBytes decode bytes = .ok e) : Decoded decode e
  | rekeyed {C : Crypto (Vector UInt8)} {ρ : Type} {rng : CryptoRng (Vector UInt8) ρ}
      {e e' : EncryptedEnvelope (Vector UInt8)} {authorizedKey : ReadKeyPair C}
      {newRecipients : List (Recipient (Vector UInt8))} {spendKey : SpendKeyPair C} {s s' : ρ}
      (he : Decoded decode e)
      (h : (rekeyRecipients rng e authorizedKey newRecipients spendKey).run s = .ok (e', s')) :
      Decoded decode e'

/-- Lengths the binary format can express. -/
structure LengthsFit (e : EncryptedEnvelope (Vector UInt8)) : Prop where
  scope : (toUtf8 e.scope.path).length ≤ 65535
  entries : e.accessEntries.length ≤ 65535
  wrapped : ∀ entry ∈ e.accessEntries, entry.wrappedDataKey.length ≤ 65535
  mlkem : ∀ ct ∈ e.ephemeralMlkemCiphertext, ct.length < 2 ^ 32

/-- Decoders check the scope and leave no empty ML-KEM ciphertext, and rekeying keeps that. -/
theorem Decoded.checked {decode : Bytes → Except String ProtoEnvelope}
    {e : EncryptedEnvelope (Vector UInt8)} (h : Decoded decode e) :
    e.scope.Valid ∧ ∀ ct ∈ e.ephemeralMlkemCiphertext, 1 ≤ ct.length := by
  induction h with
  | binary m data h =>
    have hl := withinLimits_of_fromBytes m data h
    exact ⟨hl.scope_valid, fun ct hct => (hl.mlkem ct hct).1⟩
  | proto bytes h => exact fromProtoBytes_eq_ok h
  | rekeyed _ h ih =>
    have hre := rekeyRecipients_run h
    rw [hre.scope, hre.mlkem]
    exact ⟨ih.1, by simp⟩

theorem Decoded.withinLimits {decode : Bytes → Except String ProtoEnvelope}
    {e : EncryptedEnvelope (Vector UInt8)} (h : Decoded decode e) (hl : e.LengthsFit) :
    e.WithinLimits :=
  ⟨h.checked.1, hl.scope, hl.entries, hl.wrapped,
    fun ct hct => ⟨h.checked.2 ct hct, hl.mlkem ct hct⟩⟩

/-- With the mode byte in front, the length and the slash of the scope cannot line up. -/
lemma mode_shift_ne (mode : AccessMode) (len : ℕ) (xs ys : Bytes) :
    ¬ leBytes 2 len ++ 0x2f :: xs <+: mode.toU8 :: (leBytes 2 len ++ ys) := by
  intro h
  simp only [leBytes, List.cons_append, List.nil_append, List.cons_prefix_cons] at h
  obtain ⟨hlo, hhi, hslash, _⟩ := h
  rw [hlo, ← hslash] at hhi
  cases mode <;> exact absurd hhi (by decide)

/-- Before version 2, the encoding does not start as the decoder expects. -/
theorem layout_not_prefix_toBytes {e : EncryptedEnvelope (Vector UInt8)} (hv : ¬ 2 ≤ e.version)
    (hs : e.scope.Valid) : ¬ e.layout <+: e.toBytes := by
  obtain ⟨r, hr⟩ := hs.exists_cons
  have hm : modeLayout e.version e.accessMode = [] := if_neg hv
  have hu : toUtf8 e.scope.path = 0x2f :: toUtf8 r := by
    rw [hr]
    rfl
  intro h
  simp only [layout, Preamble.layout, restLayout, preamble, toBytes, hm, hu, List.append_assoc,
    List.append_nil, List.nil_append, List.prefix_append_right_inj] at h
  exact mode_shift_ne _ _ _ _ h

/-- An envelope is read back from its own bytes exactly from version 2 on and within the
limits of the format. -/
theorem fromBytes_toBytes_iff (m : Overflow) {e : EncryptedEnvelope (Vector UInt8)} {out : Slice}
    (hout : out.bytes = e.toBytes) :
    fromBytes m out = .ok e ↔ 2 ≤ e.version ∧ e.WithinLimits := by
  constructor
  · intro hok
    have hl := withinLimits_of_fromBytes m out hok
    refine ⟨?_, hl⟩
    by_contra hv
    rw [fromBytes_eq_ok_iff, hout] at hok
    exact layout_not_prefix_toBytes hv hl.scope_valid hok.2
  · intro h
    rw [fromBytes_eq_ok_iff_starts m out h.1 h.2, hout]

/-- A decoded or rekeyed envelope is read back from its own bytes exactly from version 2 on. -/
theorem reencode_iff_version {decode : Bytes → Except String ProtoEnvelope}
    {e : EncryptedEnvelope (Vector UInt8)} (h : Decoded decode e) (hl : e.LengthsFit)
    (m : Overflow) (out : Slice) (hout : out.bytes = e.toBytes) :
    fromBytes m out = .ok e ↔ 2 ≤ e.version := by
  rw [fromBytes_toBytes_iff m hout]
  exact and_iff_left (h.withinLimits hl)

theorem reencode_iff_version_sample : fromBytes .trapping ⟨sample.toBytes, by decide +kernel⟩ =
    .ok sample := by
  have hok := (fromBytes_eq_ok_iff_starts .wrapping sampleBytes (by decide)
    sample_withinLimits).mpr (List.prefix_append _ _)
  have hdec : Decoded (fun _ => .error "") sample := .binary .wrapping sampleBytes hok
  exact (reencode_iff_version hdec ⟨by decide, by decide, by decide, by decide⟩ .trapping _ rfl).mpr
    (by decide)

/-- A version 1 envelope with no recipients. -/
def versionOne : EncryptedEnvelope (Vector UInt8) where
  version := 1
  algorithm := .eciesX25519ChaCha20
  scope := ⟨['/', 'a']⟩
  ephemeralX25519Public := zeros 32
  ephemeralMlkemCiphertext := none
  accessEntries := []
  nonce := zeros 12
  ciphertext := []
  tag := zeros 16
  signature := zeros 64
  spendPublicKey := zeros 32
  accessMode := .recipient

/-- Version 1 bytes, without an access mode. -/
def versionOneBytes : Slice :=
  ⟨magicBytes ++ [1, 0, 0, 0, 1, 2, 0, 0x2f, 0x61] ++ List.replicate 170 0, by decide +kernel⟩

theorem versionOne_not_reread : fromBytes .wrapping versionOneBytes = .ok versionOne ∧
    fromBytes .wrapping ⟨versionOne.toBytes, by decide +kernel⟩ = fail eof :=
  ⟨by decide +kernel, by decide +kernel⟩

end EncryptedEnvelope

section Limits

variable {C : Crypto (Vector UInt8)} {b : EncryptBuilder C} {plaintext : Bytes}
  {spendKey : SpendKeyPair C} {recipients : List (Recipient (Vector UInt8))}
  {e : EncryptedEnvelope (Vector UInt8)}

/-- A wrapped data key is a key and a tag. -/
lemma Wraps.length {ephemeral : C.StaticSecret} {dataKey : Vector UInt8 32}
    {recipient : Recipient (Vector UInt8)} {entry : AccessEntry (Vector UInt8)}
    (h : Wraps C ephemeral dataKey recipient entry) (hT : C.aes256GcmSiv.Tagged) :
    entry.wrappedDataKey.length = 48 := by
  rw [hT _ _ _ _ h.encrypted]
  simp

/-- Of the limits, only the length of the scope and the number of recipients are left to the
caller of an encryption. -/
theorem Encrypted.withinLimits_iff (h : Encrypted b plaintext spendKey recipients e)
    (hT : C.aes256GcmSiv.Tagged) (hv : b.scope.Valid) :
    e.WithinLimits ↔ (toUtf8 b.scope.path).length ≤ 65535 ∧ recipients.length ≤ 65535 := by
  obtain ⟨ephemeral, dataKey, hs⟩ := h.sealed
  have hlen := hs.entries.length_eq
  constructor
  · intro hl
    refine ⟨h.scope ▸ hl.scope_length, ?_⟩
    rw [hlen]
    exact hl.entries
  · intro hl
    refine ⟨h.scope ▸ hv, h.scope ▸ hl.1, hlen ▸ hl.2, fun entry hentry => ?_, by simp [h.mlkem]⟩
    obtain ⟨r, _, hw⟩ := exists_mem_of_forall₂ hs.entries hentry
    rw [hw.length hT]
    decide

theorem Encrypted.fromBytes_toBytes_iff (h : Encrypted b plaintext spendKey recipients e)
    (hT : C.aes256GcmSiv.Tagged) (hv : b.scope.Valid) (m : Overflow) {out : Slice}
    (hout : out.bytes = e.toBytes) :
    EncryptedEnvelope.fromBytes m out = .ok e ↔
      (toUtf8 b.scope.path).length ≤ 65535 ∧ recipients.length ≤ 65535 := by
  have h2 : 2 ≤ e.version := by
    rw [h.version]
    decide
  rw [EncryptedEnvelope.fromBytes_toBytes_iff m hout, h.withinLimits_iff hT hv]
  exact and_iff_right h2

end Limits

end ReadOnlyKeys
