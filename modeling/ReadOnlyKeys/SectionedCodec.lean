import ReadOnlyKeys.ParserSafety
import ReadOnlyKeys.Reencode

/-!
# The binary format of sectioned envelopes

The encoder narrows the number of sections and the lengths of names and
envelopes. A container is read back from its own bytes exactly when nothing was
narrowed and every envelope is read back from its own.
-/
namespace ReadOnlyKeys
open Outcome Wire

namespace EncryptedEnvelope

/-- The length of the encoding, field by field. -/
def encodedSize (e : EncryptedEnvelope (Vector UInt8)) : ℕ :=
  12 + (toUtf8 e.scope.path).length + 32 + (4 + (e.ephemeralMlkemCiphertext.elim 0 List.length)) +
    2 + (e.accessEntries.map fun entry => 22 + entry.wrappedDataKey.length).sum + 12 + 8 +
    e.ciphertext.length + 16 + 32 + 64

theorem toBytes_length (e : EncryptedEnvelope (Vector UInt8)) :
    e.toBytes.length = e.encodedSize := by
  have hmlkem : (mlkemBytes e.ephemeralMlkemCiphertext).length =
      4 + e.ephemeralMlkemCiphertext.elim 0 List.length := by
    cases e.ephemeralMlkemCiphertext <;> simp [mlkemBytes]
  have hentries : (e.accessEntries.flatMap (AccessEntry.toBytes 2)).length =
      (e.accessEntries.map fun entry => 22 + entry.wrappedDataKey.length).sum := by
    rw [List.length_flatMap]
    congr 2
    funext entry
    simp only [AccessEntry.toBytes, List.length_append, asBytes_vector, Vector.length_toList,
      leBytes_length]
    omega
  simp only [toBytes, List.length_append, hmlkem, hentries, leBytes_length, asBytes_vector,
    Vector.length_toList, List.length_cons, List.length_nil, magicBytes, encodedSize]

end EncryptedEnvelope

/-- What an encryption adds to the bytes of its plaintext: a fixed frame, the scope, and one
entry for each recipient. -/
theorem Encrypted.encodedSize_eq {C : Crypto (Vector UInt8)} {b : EncryptBuilder C}
    {plaintext : Bytes} {spendKey : SpendKeyPair C} {recipients : List (Recipient (Vector UInt8))}
    {e : EncryptedEnvelope (Vector UInt8)} (h : Encrypted b plaintext spendKey recipients e)
    (hT : C.aes256GcmSiv.Tagged) (hP : C.chacha20Poly1305.Tagged) :
    e.encodedSize =
      182 + (toUtf8 b.scope.path).length + 70 * recipients.length + plaintext.length := by
  obtain ⟨ephemeral, dataKey, hs⟩ := h.sealed
  have hct : e.ciphertext.length = plaintext.length := by
    have hlen := hP _ _ _ _ hs.payload
    simp only [List.length_append, asBytes_vector, Vector.length_toList] at hlen
    omega
  have hentry : ∀ entry ∈ e.accessEntries, 22 + entry.wrappedDataKey.length = 70 := by
    intro entry hentry
    obtain ⟨r, _, hw⟩ := exists_mem_of_forall₂ hs.entries hentry
    rw [hw.length hT]
  have hsum : (e.accessEntries.map fun entry => 22 + entry.wrappedDataKey.length).sum =
      70 * recipients.length := by
    rw [List.map_congr_left hentry, List.map_const', List.sum_replicate_nat,
      hs.entries.length_eq, Nat.mul_comm]
  rw [EncryptedEnvelope.encodedSize, h.scope, h.mlkem, hsum, hct, Option.elim_none]
  omega

/-- A section that the binary format can express. -/
structure Section.Fits (s : Section (Vector UInt8)) : Prop where
  name : (toUtf8 s.name).length ≤ 65535
  version : 2 ≤ s.envelope.version
  limits : s.envelope.WithinLimits
  size : s.envelope.encodedSize < 2 ^ 32

namespace SectionedEnvelope

variable (m : Overflow) (data : Slice)

theorem readSections_reads : Reads data (readSections m data) (fun s bs =>
    s.sections.length < 256 ^ 2 ∧ ∃ parts, List.Forall₂ SectionLayout s.sections parts ∧
      bs = magicBytes ++ (leBytes 4 s.version.toNat ++
        (leBytes 2 s.sections.length ++ parts.flatten))) := by
  refine (Reads.bind (readMagic_reads m data eof _ _ (by decide)) fun _ _ _ =>
    Reads.bind (readU32_reads m data eof) fun version _ _ =>
    Reads.bind (readLe_reads m data eof 2 (by omega)) fun count _ _ =>
    Reads.bind ((readSection_reads m data).readMany count) fun sections _ _ =>
    Reads.pure (⟨version, sections⟩ : SectionedEnvelope (Vector UInt8))).congr fun s bs => ?_
  constructor
  · intro h
    obtain ⟨_, _, _, rfl, ⟨version, _, _, rfl, ⟨count, _, _, ⟨hcount, rfl⟩, ⟨sections, _, _,
      ⟨rfl, parts, hparts, rfl⟩, ⟨rfl, rfl⟩, rfl⟩, rfl⟩, rfl⟩, rfl⟩ := h
    exact ⟨hcount, parts, hparts, by rw [List.append_nil]⟩
  · intro h
    obtain ⟨hcount, parts, hparts, rfl⟩ := h
    exact ⟨(), _, _, rfl, ⟨s.version, _, _, rfl, ⟨s.sections.length, _, _, ⟨hcount, rfl⟩,
      ⟨s.sections, _, [], ⟨rfl, parts, hparts, rfl⟩, ⟨rfl, rfl⟩, rfl⟩, rfl⟩, rfl⟩,
      by rw [List.append_nil]⟩

/-- A section whose layout starts its own encoding was written without narrowing. -/
theorem fits_of_sectionLayout {s : Section (Vector UInt8)} {part rest : Bytes}
    (h : SectionLayout s part) (hpre : part <+: sectionBytes s ++ rest) :
    s.Fits ∧ part = sectionBytes s := by
  obtain ⟨inner, hname, hinner, ⟨hfits, _⟩, hlayout, rfl⟩ := h
  rw [EncryptedEnvelope.fits_iff] at hfits
  simp only [sectionBytes, List.append_assoc, List.prefix_append_right_inj] at hpre
  obtain ⟨hinit, hlen⟩ := prefix_of_counted_prefix hinner hpre
  have hv : 2 ≤ s.envelope.version := by
    by_contra hv
    exact EncryptedEnvelope.layout_not_prefix_toBytes hv hfits.2.scope_valid
      (hlayout.trans hinit)
  have htoBytes := EncryptedEnvelope.toBytes_eq_layout hv
  have heq : inner.length = s.envelope.toBytes.length := by
    have hlow := hlayout.length_le
    rw [← htoBytes] at hlow
    omega
  have hwhole : inner = s.envelope.toBytes := hinit.eq_of_length heq
  refine ⟨⟨by omega, hv, hfits.2, ?_⟩, ?_⟩
  · rw [← EncryptedEnvelope.toBytes_length, ← hwhole]
    omega
  · rw [hwhole]
    simp only [sectionBytes, List.append_assoc]

theorem sectionLayout_of_fits {s : Section (Vector UInt8)} (h : s.Fits) :
    SectionLayout s (sectionBytes s) := by
  have hname := h.name
  have hsize := h.size
  have hct := s.envelope.ciphertext_length_le_toBytes
  rw [← EncryptedEnvelope.toBytes_length] at hsize
  refine ⟨s.envelope.toBytes, by omega, by omega, ⟨?_, by omega⟩, ?_, ?_⟩
  · exact (EncryptedEnvelope.fits_iff _).mpr ⟨.inl h.version, h.limits⟩
  · rw [EncryptedEnvelope.toBytes_eq_layout h.version]
  · simp only [sectionBytes, List.append_assoc]

/-- Section by section, what starts the encodings is the encodings. -/
theorem fits_of_forall₂ {sections : List (Section (Vector UInt8))} {parts : List Bytes}
    (h : List.Forall₂ SectionLayout sections parts)
    (hpre : parts.flatten <+: sections.flatMap sectionBytes) : ∀ s ∈ sections, s.Fits := by
  induction h with
  | nil => simp
  | @cons s part sections parts hs _ ih =>
    rw [List.flatten_cons, List.flatMap_cons] at hpre
    obtain ⟨hfits, rfl⟩ := fits_of_sectionLayout hs ((List.prefix_append _ _).trans hpre)
    rw [List.prefix_append_right_inj] at hpre
    intro x hx
    rcases List.mem_cons.mp hx with rfl | hx
    · exact hfits
    · exact ih hpre x hx

/-- A container is read back from its own bytes exactly when all of it fits the format. -/
theorem fromBytes_toBytes_iff {s : SectionedEnvelope (Vector UInt8)} {out : Slice}
    (hout : out.bytes = s.toBytes) : fromBytes m out = .ok s ↔
      s.sections.length ≤ 65535 ∧ ∀ x ∈ s.sections, x.Fits := by
  rw [fromBytes, (readSections_reads m out).run_zero, hout]
  constructor
  · intro h
    obtain ⟨_, ⟨hcount, parts, hparts, rfl⟩, hpre⟩ := h
    simp only [toBytes, List.append_assoc, List.prefix_append_right_inj] at hpre
    exact ⟨by omega, fits_of_forall₂ hparts hpre⟩
  · intro h
    obtain ⟨hcount, hfits⟩ := h
    refine ⟨s.toBytes, ⟨by omega, s.sections.map sectionBytes, ?_, ?_⟩, List.prefix_rfl⟩
    · rw [List.forall₂_map_right_iff, List.forall₂_same]
      exact fun x hx => sectionLayout_of_fits (hfits x hx)
    · rw [toBytes, List.flatMap_def]
      simp only [List.append_assoc]

end SectionedEnvelope

/-- Two sections of one envelope. -/
def twoSections : SectionedEnvelope (Vector UInt8) :=
  ⟨1, [⟨['x'], EncryptedEnvelope.sample⟩, ⟨['y'], EncryptedEnvelope.sample⟩]⟩

lemma twoSections_fits : ∀ x ∈ twoSections.sections, x.Fits := by
  have hl := EncryptedEnvelope.sample_withinLimits
  intro x hx
  simp only [twoSections, List.mem_cons, List.not_mem_nil, or_false] at hx
  rcases hx with rfl | rfl
  · exact ⟨by decide, by decide, hl, by decide⟩
  · exact ⟨by decide, by decide, hl, by decide⟩

end ReadOnlyKeys
