import ReadOnlyKeys.Hybrid
import ReadOnlyKeys.SectionedCodec

/-!
# Where serialisation truncates

The producers put no bound on the scope, on the number of recipients, on the
number of sections or on the names of sections, while the encoders narrow their
lengths. What is written is readable exactly within the widths of the format.
-/
namespace ReadOnlyKeys
open Outcome Wire

variable {C : Crypto (Vector UInt8)} {ρ : Type}

/-- The scope key is the one recipient of scope-based mode. -/
theorem Encrypted.recipients_length_le_iff {b : EncryptBuilder C} {plaintext : Bytes}
    {spendKey : SpendKeyPair C} {recipients : List (Recipient (Vector UInt8))}
    {e : EncryptedEnvelope (Vector UInt8)} (h : Encrypted b plaintext spendKey recipients e) :
    recipients.length ≤ 65535 ↔ b.scopeBased = true ∨ b.recipients.length ≤ 65535 := by
  cases hb : b.scopeBased with
  | false => simp [(h.recipientMode hb).1]
  | true =>
    obtain ⟨_, scopeKey, _, rfl⟩ := h.exists_scopeKey hb
    simp

/-- Of the limits, only the length of the scope is left to the caller of a hybrid encryption. -/
theorem HybridEncrypted.withinLimits_iff {K : MlKem768 (Vector UInt8) ρ} {plaintext : Bytes}
    {T : Scope} {spendKey : SpendKeyPair C} {scopeKey : ReadKeyPair C}
    {e : EncryptedEnvelope (Vector UInt8)}
    (h : HybridEncrypted K plaintext T spendKey scopeKey e) (hT : C.aes256GcmSiv.Tagged)
    (hv : T.Valid) : e.WithinLimits ↔ (toUtf8 T.path).length ≤ 65535 := by
  obtain ⟨ephemeral, dataKey, ct, ss, hs⟩ := h.sealed
  obtain ⟨entry, hentries, _, hwrap⟩ := hs.entry
  constructor
  · intro hl
    exact h.scope_eq ▸ hl.scope_length
  · intro hl
    refine ⟨h.scope_eq ▸ hv, h.scope_eq ▸ hl, by simp [hentries], fun x hx => ?_, fun x hx => ?_⟩
    · rw [hentries, List.mem_singleton] at hx
      rw [hx, hT _ _ _ _ hwrap]
      simp
    · rw [hs.mlkemCiphertext, Option.mem_some_iff] at hx
      rw [← hx]
      simp

/-- What the producers return is read back from its own bytes exactly when no length is narrowed:
the scope and the number of recipients of an envelope, and all that a container counts. -/
theorem reread_iff_not_narrowed (K : MlKem768 (Vector UInt8) ρ) (hT : C.aes256GcmSiv.Tagged)
    (m : Overflow) (out : Slice) :
    (∀ (b : EncryptBuilder C) (rng : CryptoRng (Vector UInt8) ρ) plaintext e s s',
      b.scope.Valid → (b.encrypt rng plaintext).run s = .ok (e, s') → out.bytes = e.toBytes →
      (EncryptedEnvelope.fromBytes m out = .ok e ↔ (toUtf8 b.scope.path).length ≤ 65535 ∧
        (b.scopeBased = true ∨ b.recipients.length ≤ 65535))) ∧
    (∀ (rng : CryptoRng (Vector UInt8) ρ) plaintext T (spendKey : SpendKeyPair C) e s s',
      T.Valid → (hybridEncrypt K rng plaintext T spendKey).run s = .ok (e, s') →
      out.bytes = e.toBytes →
      (EncryptedEnvelope.fromBytes m out = .ok e ↔ (toUtf8 T.path).length ≤ 65535)) ∧
    ∀ (builder : SectionedEnvelopeBuilder (Vector UInt8)) s, builder.build = .ok s →
      out.bytes = s.toBytes → (SectionedEnvelope.fromBytes m out = .ok s ↔
        builder.sections.length ≤ 65535 ∧ ∀ x ∈ builder.sections, x.Fits) := by
  refine ⟨fun b rng plaintext e s s' hv he hout => ?_,
    fun rng plaintext T spendKey e s s' hv he hout => ?_, fun builder s hs hout => ?_⟩
  · obtain ⟨spendKey, recipients, henc⟩ := b.encrypt_run he
    rw [henc.fromBytes_toBytes_iff hT hv m hout, henc.recipients_length_le_iff]
  · obtain ⟨scopeKey, hhyb⟩ := hybridEncrypt_run he
    rw [EncryptedEnvelope.fromBytes_toBytes_iff m hout, hhyb.withinLimits_iff hT hv, hhyb.version]
    exact and_iff_right (by decide)
  · simp only [SectionedEnvelopeBuilder.build, bind_eq_ok_iff] at hs
    obtain ⟨_, _, hs⟩ := hs
    obtain rfl := Except.ok.inj hs
    exact SectionedEnvelope.fromBytes_toBytes_iff m hout

theorem reread_iff_not_narrowed_two_sections :
    (do
      let builder ← SectionedEnvelopeBuilder.new.addSection ['x'] EncryptedEnvelope.sample
      let builder ← builder.addSection ['y'] EncryptedEnvelope.sample
      builder.build) = .ok twoSections ∧
    SectionedEnvelope.fromBytes .wrapping ⟨twoSections.toBytes, by decide +kernel⟩ =
      .ok twoSections := by
  have hT : Transparent.arrays.aes256GcmSiv.Tagged := Transparent.aead_tagged
  refine ⟨rfl, ((reread_iff_not_narrowed (Transparent.mlKem packArray) hT .wrapping
    ⟨twoSections.toBytes, by decide +kernel⟩).2.2 ⟨twoSections.sections⟩ twoSections rfl
    rfl).mpr ⟨by decide, twoSections_fits⟩⟩

/-- A scope of `n + 1` bytes. -/
def scopeOfLength (n : ℕ) : Scope := Scope.ofSegments [List.replicate n 'a']

lemma scopeOfLength_valid {n : ℕ} (hn : n ≠ 0) : (scopeOfLength n).Valid := by
  refine ⟨_, fun g hg => ?_, rfl⟩
  rw [List.mem_singleton.mp hg]
  refine ⟨by simpa using hn, fun c hc => ?_⟩
  rw [List.eq_of_mem_replicate hc]
  decide

lemma scopeOfLength_length (n : ℕ) : (toUtf8 (scopeOfLength n).path).length = n + 1 := by
  have hpath : (scopeOfLength n).path = '/' :: List.replicate n 'a' := by
    simp [scopeOfLength, Scope.ofSegments, SeparatedPath.render]
  rw [hpath, toUtf8_ascii, List.length_map, List.length_cons, List.length_replicate]
  intro c hc
  rcases List.mem_cons.mp hc with rfl | hc
  · decide
  · rw [List.eq_of_mem_replicate hc]
    decide

/-- An envelope at a scope of 65536 bytes is written and cannot be read back. -/
theorem long_scope_unreadable : (scopeOfLength 65535).Valid ∧
    ∃ e s out, ((((EncryptBuilder.new _ .eciesX25519ChaCha20 (scopeOfLength 65535)).setSpendKey
        (zeroSpend packArray)).addRecipient zeroRoot.recipient).encrypt (Transparent.rng packArray)
          [1, 2]).run 0 = .ok (e, s) ∧ out.bytes = e.toBytes ∧
      EncryptedEnvelope.fromBytes .wrapping out ≠ .ok e := by
  obtain ⟨r, hr, hscope, hmlkem, hentries, hct⟩ :
      ∃ r, ((((EncryptBuilder.new _ .eciesX25519ChaCha20 (scopeOfLength 65535)).setSpendKey
        (zeroSpend packArray)).addRecipient zeroRoot.recipient).encrypt (Transparent.rng packArray)
          [1, 2]).run 0 = .ok r ∧ r.1.scope = scopeOfLength 65535 ∧
        r.1.ephemeralMlkemCiphertext = none ∧
        (r.1.accessEntries.map fun entry => 22 + entry.wrappedDataKey.length).sum = 70 ∧
        r.1.ciphertext.length = 2 :=
    ⟨_, rfl, rfl, rfl, by decide +kernel, by decide +kernel⟩
  have hsize : r.1.toBytes.length ≤ isizeMax := by
    rw [EncryptedEnvelope.toBytes_length, EncryptedEnvelope.encodedSize, hscope, hmlkem, hentries,
      hct, scopeOfLength_length]
    decide
  refine ⟨scopeOfLength_valid (by decide), r.1, r.2, ⟨r.1.toBytes, hsize⟩, hr, rfl, fun h => ?_⟩
  have hl := (EncryptedEnvelope.withinLimits_of_fromBytes .wrapping _ h).scope_length
  rw [hscope, scopeOfLength_length] at hl
  omega

end ReadOnlyKeys
