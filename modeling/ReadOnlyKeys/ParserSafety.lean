import ReadOnlyKeys.Sectioned

/-!
# When parsing panics

Every length in the formats is bounded by its own width except the length of the
ciphertext, which is eight bytes wide and is added to the position unchecked.
Parsing panics exactly on inputs that reach that length well-formed and whose
ciphertext would end past the largest word.
-/
namespace ReadOnlyKeys
open Outcome Wire

variable (m : Overflow) (data : Slice)

theorem readArray_parses (eof : RokError) (n : ℕ) (hn : n < 2 ^ 63) :
    Parses data (readArray m data eof n) (fun a bs => bs = asBytes a) where
  safe := by
    refine (Parses.readBytes m eof n hn).bind_safe fun bs _ hbs => Safe.call ?_
    rw [ofSlice_vector bs hbs.2]
    simp [unwrap]
  reads := readArray_reads m data eof n (by omega)

theorem readLe_parses (eof : RokError) (k : ℕ) (hk : k < 2 ^ 63) :
    Parses data (readLe m data eof k) (fun n bs => n < 256 ^ k ∧ bs = leBytes k n) where
  safe := (Parses.readBytes m eof k hk).bind_safe fun _ _ _ => Safe.pure _
  reads := readLe_reads m data eof k (by omega)

theorem readByte_parses (eof : RokError) :
    Parses data (readByte m data eof) (fun b bs => bs = [b]) where
  safe := by
    refine (Parses.readBytes m eof 1 (by omega)).bind_safe fun bs _ hbs => Safe.call ?_
    obtain ⟨b, rfl⟩ := List.length_eq_one_iff.mp hbs.2
    simp [unwrap]
  reads := readByte_reads m data eof

theorem readMagic_parses (eof : RokError) (magic : Bytes) (invalid : RokError)
    (hm : magic.length < 2 ^ 63) :
    Parses data (readMagic m data eof magic invalid) (fun _ bs => bs = magic) where
  safe := (Parses.readBytes m eof _ hm).bind_safe fun _ _ _ => Safe.call (require_ne_panic _ _)
  reads := readMagic_reads m data eof magic invalid (by omega)

theorem readU32_parses (eof : RokError) :
    Parses data (readU32 m data eof) (fun v bs => bs = leBytes 4 v.toNat) where
  safe := (readLe_parses m data eof 4 (by omega)).bind_safe fun _ _ _ => Safe.pure _
  reads := readU32_reads m data eof

/-- A counted read with a length of at most four bytes. -/
theorem readCounted_parses (eof : RokError) (k : ℕ) (hk : k ≤ 4) :
    Parses data (readLe m data eof k >>= readBytes m data eof)
      (fun a bs => a.length < 256 ^ k ∧ bs = leBytes k a.length ++ a) where
  safe := by
    have hlt : 256 ^ k ≤ 2 ^ 32 := by
      calc 256 ^ k ≤ 256 ^ 4 := Nat.pow_le_pow_right (by omega) hk
        _ = 2 ^ 32 := by decide
    refine (readLe_parses m data eof k (by omega)).bind_safe fun n _ hn => ?_
    exact (Parses.readBytes m eof n (by omega)).safe
  reads := readCounted_reads m data eof k (by omega)

theorem readString_parses (eof invalid : RokError) :
    Parses data (readString m data eof invalid) (fun s bs => (toUtf8 s).length < 256 ^ 2 ∧
      bs = leBytes 2 (toUtf8 s).length ++ toUtf8 s) where
  safe := by
    rw [readString_eq]
    exact (readCounted_parses m data eof 2 (by omega)).bind_safe fun _ _ _ =>
      Safe.call (okOr_ne_panic _ _)
  reads := readString_reads m data eof invalid

namespace EncryptedEnvelope

theorem readAlgorithm_parses :
    Parses data (readAlgorithm m data) (fun a bs => bs = [a.toU8]) where
  safe := by
    refine (readByte_parses m data eof).bind_safe fun b _ _ => Safe.call ?_
    unfold Algorithm.fromU8
    split_ifs <;> simp
  reads := readAlgorithm_reads m data

theorem readAccessMode_parses (version : UInt32) :
    Parses data (readAccessMode m data version)
      (fun a bs => (2 ≤ version ∨ a = .recipient) ∧ bs = modeLayout version a) where
  safe := by
    unfold readAccessMode
    split_ifs
    · refine (readByte_parses m data eof).bind_safe fun b _ _ => Safe.call ?_
      unfold AccessMode.fromU8
      split_ifs <;> simp
    · exact Safe.pure _
  reads := readAccessMode_reads m data version

theorem readScope_parses :
    Parses data (readScope m data) (fun s bs => (s.Valid ∧ (toUtf8 s.path).length < 256 ^ 2) ∧
      bs = leBytes 2 (toUtf8 s.path).length ++ toUtf8 s.path) where
  safe := (readString_parses m data eof _).bind_safe fun _ _ _ => Safe.call (Scope.new_ne_panic _)
  reads := readScope_reads m data

theorem readMlkem_parses :
    Parses data (readMlkem m data) (fun ct? bs => MlkemFits ct? ∧ bs = mlkemBytes ct?) where
  safe := by
    refine (readLe_parses m data eof 4 (by omega)).bind_safe fun n _ hn => ?_
    split_ifs
    · exact (Parses.readBytes m eof n (by omega)).bind_safe fun _ _ _ => Safe.pure _
    · exact Safe.pure _
  reads := readMlkem_reads m data

theorem readEntry_parses :
    Parses data (readEntry m data)
      (fun e bs => e.wrappedDataKey.length < 256 ^ 2 ∧ bs = e.toBytes 2) where
  safe :=
    (readArray_parses m data eof 8 (by omega)).bind_safe fun _ _ _ =>
    (readLe_parses m data eof 2 (by omega)).bind_safe fun n _ hn =>
    (Parses.readBytes m eof n (by omega)).bind_safe fun _ _ _ =>
    (readArray_parses m data eof 12 (by omega)).bind_safe fun _ _ _ => Safe.pure _
  reads := readEntry_reads m data

theorem readEntries_parses :
    Parses data (readEntries m data) (fun es bs => (es.length < 256 ^ 2 ∧
      ∀ e ∈ es, e.wrappedDataKey.length < 256 ^ 2) ∧
      bs = leBytes 2 es.length ++ es.flatMap (AccessEntry.toBytes 2)) where
  safe := (readLe_parses m data eof 2 (by omega)).bind_safe fun n _ _ =>
    (readEntry_parses m data).readMany_safe n
  reads := readEntries_reads m data

theorem readPreamble_parses :
    Parses data (readPreamble m data) (fun p bs => p.Fits ∧ bs = p.layout) where
  safe :=
    (readMagic_parses m data eof _ _ (by decide)).bind_safe fun _ _ _ =>
    (readU32_parses m data eof).bind_safe fun version _ _ =>
    (readAlgorithm_parses m data).bind_safe fun _ _ _ =>
    (readAccessMode_parses m data version).bind_safe fun _ _ _ =>
    (readScope_parses m data).bind_safe fun _ _ _ =>
    (readArray_parses m data eof 32 (by omega)).bind_safe fun _ _ _ =>
    (readMlkem_parses m data).bind_safe fun _ _ _ =>
    (readEntries_parses m data).bind_safe fun _ _ _ =>
    (readArray_parses m data eof 12 (by omega)).bind_safe fun _ _ _ => Safe.pure _
  reads := readPreamble_reads m data

/-- The bytes reach the length of the ciphertext in good order, and the end it announces is past
the largest word. -/
def Overflows (bytes : Bytes) : Prop :=
  ∃ (p : Preamble) (ctLen : ℕ), p.Fits ∧ ctLen < 2 ^ 64 ∧
    p.layout ++ leBytes 8 ctLen <+: bytes ∧ 2 ^ 64 ≤ p.layout.length + 8 + ctLen

theorem readRest_eq_panic_iff (p : Preamble) {pos : ℕ} (hpos : pos ≤ data.bytes.length) :
    (readRest m data p).run pos = .error .panic ↔ ∃ ctLen, ctLen < 2 ^ 64 ∧
      leBytes 8 ctLen <+: data.bytes.drop pos ∧ 2 ^ 64 ≤ pos + 8 + ctLen := by
  have hafter : ∀ ciphertext : Bytes, Safe data (do
      let tag ← readArray m data eof 16
      let spendPublicKey ← readArray m data eof 32
      let signature ← readArray m data eof 64
      return (⟨p.version, p.algorithm, p.scope, p.ephemeralX25519Public,
        p.ephemeralMlkemCiphertext, p.accessEntries, p.nonce, ciphertext, tag, signature,
        spendPublicKey, p.accessMode⟩ : EncryptedEnvelope (Vector UInt8))) := fun ciphertext =>
    (readArray_parses m data eof 16 (by omega)).bind_safe fun _ _ _ =>
    (readArray_parses m data eof 32 (by omega)).bind_safe fun _ _ _ =>
    (readArray_parses m data eof 64 (by omega)).bind_safe fun _ _ _ => Safe.pure _
  rw [readRest, (readLe_parses m data eof 8 (by omega)).run_bind_eq_panic_iff hpos]
  constructor
  · intro h
    obtain ⟨ctLen, _, ⟨hlt, rfl⟩, hpre, h⟩ := h
    rw [readBytes_bind_eq_panic_iff hlt hafter (Reads.prefix_length hpos hpre), leBytes_length] at h
    exact ⟨ctLen, hlt, hpre, h⟩
  · intro h
    obtain ⟨ctLen, hlt, hpre, h⟩ := h
    refine ⟨ctLen, _, ⟨hlt, rfl⟩, hpre, ?_⟩
    rwa [readBytes_bind_eq_panic_iff hlt hafter (Reads.prefix_length hpos hpre), leBytes_length]

theorem fromBytes_eq_panic_iff : fromBytes m data = .error .panic ↔ Overflows data.bytes := by
  rw [fromBytes, run'_eq_panic_iff, readEnvelope,
    (readPreamble_parses m data).run_bind_eq_panic_iff (Nat.zero_le _)]
  constructor
  · intro h
    obtain ⟨p, _, ⟨hp, rfl⟩, hpre, h⟩ := h
    rw [readRest_eq_panic_iff m data p (Reads.prefix_length (Nat.zero_le _) hpre)] at h
    obtain ⟨ctLen, hlt, hlen, h⟩ := h
    refine ⟨p, ctLen, hp, hlt, ?_, by simpa using h⟩
    exact Reads.append_prefix_drop.mpr ⟨hpre, hlen⟩
  · intro h
    obtain ⟨p, ctLen, hp, hlt, hpre, h⟩ := h
    obtain ⟨hpre, hlen⟩ := Reads.append_prefix_drop.mp (show _ <+: data.bytes.drop 0 from hpre)
    refine ⟨p, _, ⟨hp, rfl⟩, hpre, ?_⟩
    rw [readRest_eq_panic_iff m data p (Reads.prefix_length (Nat.zero_le _) hpre)]
    exact ⟨ctLen, hlt, hlen, by simpa using h⟩

end EncryptedEnvelope

namespace SectionedEnvelope

/-- The bytes of one section that parses: an envelope, and whatever fills its counted space. -/
def SectionLayout (s : Section (Vector UInt8)) (bs : Bytes) : Prop :=
  ∃ inner : Bytes, (toUtf8 s.name).length < 256 ^ 2 ∧ inner.length < 256 ^ 4 ∧
    (s.envelope.preamble.Fits ∧ s.envelope.ciphertext.length < 256 ^ 8) ∧
    s.envelope.layout <+: inner ∧
    bs = (leBytes 2 (toUtf8 s.name).length ++ toUtf8 s.name) ++ (leBytes 4 inner.length ++ inner)

theorem readSection_eq : readSection m data =
    readString m data eof (.serializationError "invalid section name utf8") >>= fun name =>
      (readLe m data eof 4 >>= readBytes m data eof) >>= fun inner =>
        call (Slice.ofBytes inner) >>= fun slice =>
          call (EncryptedEnvelope.fromBytes m slice) >>= fun envelope =>
            pure ⟨name, envelope⟩ := by
  simp only [readSection, bind_assoc]

theorem readSection_reads : Reads data (readSection m data) SectionLayout := by
  rw [readSection_eq]
  refine (Reads.bind (readString_reads m data eof _) fun name _ _ =>
    Reads.bind (readCounted_reads m data eof 4 (by omega)) fun inner _ _ =>
    Reads.call_bind _ fun slice => Reads.call_bind _ fun envelope =>
    Reads.pure (⟨name, envelope⟩ : Section (Vector UInt8))).congr fun s bs => ?_
  constructor
  · intro h
    obtain ⟨name, _, _, ⟨hname, rfl⟩, ⟨inner, _, _, ⟨hinner, rfl⟩,
      ⟨slice, hslice, envelope, henv, rfl, rfl⟩, rfl⟩, rfl⟩ := h
    rw [Slice.ofBytes_eq_ok_iff _ _ (by omega)] at hslice
    rw [EncryptedEnvelope.fromBytes_eq_ok_iff, ← hslice] at henv
    exact ⟨inner, hname, hinner, henv.1, henv.2, by rw [List.append_nil]⟩
  · intro h
    obtain ⟨inner, hname, hinner, hfits, hpre, rfl⟩ := h
    have hle : inner.length ≤ isizeMax := by
      unfold isizeMax
      omega
    refine ⟨s.name, _, _, ⟨hname, rfl⟩, ⟨inner, _, [], ⟨hinner, rfl⟩,
      ⟨⟨inner, hle⟩, ?_, s.envelope, ?_, rfl, rfl⟩, by rw [List.append_nil]⟩, rfl⟩
    · rw [Slice.ofBytes_eq_ok_iff _ _ (by omega)]
    · rw [EncryptedEnvelope.fromBytes_eq_ok_iff]
      exact ⟨hfits, hpre⟩

theorem readSection_eq_panic_iff {pos : ℕ} (hpos : pos ≤ data.bytes.length) :
    (readSection m data).run pos = .error .panic ↔ ∃ (name : List Char) (inner : Bytes),
      (toUtf8 name).length < 256 ^ 2 ∧ inner.length < 256 ^ 4 ∧
      (leBytes 2 (toUtf8 name).length ++ toUtf8 name) ++ (leBytes 4 inner.length ++ inner) <+:
        data.bytes.drop pos ∧ EncryptedEnvelope.Overflows inner := by
  have hinner : ∀ (name : List Char) (inner : Bytes) (pos : ℕ), inner.length < 256 ^ 4 →
      ((call (Slice.ofBytes inner) >>= fun slice =>
        call (EncryptedEnvelope.fromBytes m slice) >>= fun envelope =>
          pure (⟨name, envelope⟩ : Section (Vector UInt8)) : Cursor RokError _).run pos =
            .error .panic ↔ EncryptedEnvelope.Overflows inner) := by
    intro name inner pos hlen
    have hle : inner.length ≤ isizeMax := by
      unfold isizeMax
      omega
    have hslice : (Slice.ofBytes inner : Result Slice) = .ok ⟨inner, hle⟩ := dif_pos hle
    have hfrom := EncryptedEnvelope.fromBytes_eq_panic_iff m ⟨inner, hle⟩
    rw [hslice, ← hfrom, StateT.run_bind, call_run_ok, ok_bind, StateT.run_bind]
    cases EncryptedEnvelope.fromBytes m ⟨inner, hle⟩ with
    | error e => simp
    | ok envelope => exact iff_of_false (fun h => by cases h) fun h => by cases h
  have hcounted := readCounted_parses m data eof 4 (by omega)
  rw [readSection_eq, (readString_parses m data eof _).run_bind_eq_panic_iff hpos]
  constructor
  · intro h
    obtain ⟨name, _, ⟨hname, rfl⟩, hpre, h⟩ := h
    rw [hcounted.run_bind_eq_panic_iff (Reads.prefix_length hpos hpre)] at h
    obtain ⟨inner, _, ⟨hlen, rfl⟩, hpre', h⟩ := h
    exact ⟨name, inner, hname, hlen, Reads.append_prefix_drop.mpr ⟨hpre, hpre'⟩,
      (hinner name inner _ hlen).mp h⟩
  · intro h
    obtain ⟨name, inner, hname, hlen, hpre, h⟩ := h
    obtain ⟨hpre, hpre'⟩ := Reads.append_prefix_drop.mp hpre
    refine ⟨name, _, ⟨hname, rfl⟩, hpre, ?_⟩
    rw [hcounted.run_bind_eq_panic_iff (Reads.prefix_length hpos hpre)]
    exact ⟨inner, _, ⟨hlen, rfl⟩, hpre', (hinner name inner _ hlen).mpr h⟩

/-- The bytes hold sections in good order up to one whose envelope overflows. -/
def Overflows (bytes : Bytes) : Prop :=
  ∃ (version : UInt32) (count : ℕ) (done : List (Section (Vector UInt8))) (parts : List Bytes)
    (name : List Char) (inner : Bytes), count < 256 ^ 2 ∧ done.length < count ∧
    List.Forall₂ SectionLayout done parts ∧
    (toUtf8 name).length < 256 ^ 2 ∧ inner.length < 256 ^ 4 ∧
    magicBytes ++ (leBytes 4 version.toNat ++ (leBytes 2 count ++ (parts.flatten ++
      ((leBytes 2 (toUtf8 name).length ++ toUtf8 name) ++ (leBytes 4 inner.length ++ inner))))) <+:
        bytes ∧ EncryptedEnvelope.Overflows inner

theorem readSections_eq_panic_iff {pos : ℕ} (hpos : pos ≤ data.bytes.length) (count : ℕ) :
    (readMany (readSection m data) count).run pos = .error .panic ↔
      ∃ done parts name inner, done.length < count ∧ List.Forall₂ SectionLayout done parts ∧
        (toUtf8 name).length < 256 ^ 2 ∧ inner.length < 256 ^ 4 ∧
        parts.flatten ++ ((leBytes 2 (toUtf8 name).length ++ toUtf8 name) ++
          (leBytes 4 inner.length ++ inner)) <+: data.bytes.drop pos ∧
        EncryptedEnvelope.Overflows inner := by
  rw [readMany_eq_panic_iff (readSection_reads m data) count hpos]
  constructor
  · intro h
    obtain ⟨done, parts, hlt, hall, hpre, h⟩ := h
    rw [readSection_eq_panic_iff m data (Reads.prefix_length hpos hpre)] at h
    obtain ⟨name, inner, hname, hlen, hpre', h⟩ := h
    exact ⟨done, parts, name, inner, hlt, hall, hname, hlen,
      Reads.append_prefix_drop.mpr ⟨hpre, hpre'⟩, h⟩
  · intro h
    obtain ⟨done, parts, name, inner, hlt, hall, hname, hlen, hpre, h⟩ := h
    obtain ⟨hpre, hpre'⟩ := Reads.append_prefix_drop.mp hpre
    refine ⟨done, parts, hlt, hall, hpre, ?_⟩
    rw [readSection_eq_panic_iff m data (Reads.prefix_length hpos hpre)]
    exact ⟨name, inner, hname, hlen, hpre', h⟩

theorem fromBytes_eq_panic_iff : fromBytes m data = .error .panic ↔ Overflows data.bytes := by
  have hlast : ∀ (version : UInt32) (count pos : ℕ),
      (readMany (readSection m data) count >>= fun sections =>
        pure (⟨version, sections⟩ : SectionedEnvelope (Vector UInt8)) : Cursor RokError _).run pos =
          .error .panic ↔ (readMany (readSection m data) count).run pos = .error .panic := by
    intro version count pos
    rw [StateT.run_bind, bind_eq_panic_iff]
    constructor
    · intro h
      rcases h with h | ⟨_, _, h⟩
      · exact h
      · cases h
    · exact .inl
  have hnumber := readLe_parses m data eof 2 (by omega)
  rw [fromBytes, run'_eq_panic_iff, readSections,
    (readMagic_parses m data eof _ _ (by decide)).run_bind_eq_panic_iff (Nat.zero_le _)]
  constructor
  · intro h
    obtain ⟨_, _, rfl, hpre₁, h⟩ := h
    have hpos₁ := Reads.prefix_length (Nat.zero_le _) hpre₁
    rw [(readU32_parses m data eof).run_bind_eq_panic_iff hpos₁] at h
    obtain ⟨version, _, rfl, hpre₂, h⟩ := h
    have hpos₂ := Reads.prefix_length hpos₁ hpre₂
    rw [hnumber.run_bind_eq_panic_iff hpos₂] at h
    obtain ⟨count, _, ⟨hcount, rfl⟩, hpre₃, h⟩ := h
    rw [hlast, readSections_eq_panic_iff m data (Reads.prefix_length hpos₂ hpre₃)] at h
    obtain ⟨done, parts, name, inner, hlt, hall, hname, hlen, hpre₄, h⟩ := h
    refine ⟨version, count, done, parts, name, inner, hcount, hlt, hall, hname, hlen, ?_, h⟩
    exact Reads.append_prefix_drop.mpr ⟨hpre₁, Reads.append_prefix_drop.mpr
      ⟨hpre₂, Reads.append_prefix_drop.mpr ⟨hpre₃, hpre₄⟩⟩⟩
  · intro h
    obtain ⟨version, count, done, parts, name, inner, hcount, hlt, hall, hname, hlen, hpre, h⟩ := h
    obtain ⟨hpre₁, hpre⟩ := Reads.append_prefix_drop.mp (show _ <+: data.bytes.drop 0 from hpre)
    obtain ⟨hpre₂, hpre⟩ := Reads.append_prefix_drop.mp hpre
    obtain ⟨hpre₃, hpre₄⟩ := Reads.append_prefix_drop.mp hpre
    have hpos₁ := Reads.prefix_length (Nat.zero_le _) hpre₁
    have hpos₂ := Reads.prefix_length hpos₁ hpre₂
    refine ⟨(), _, rfl, hpre₁, ?_⟩
    rw [(readU32_parses m data eof).run_bind_eq_panic_iff hpos₁]
    refine ⟨version, _, rfl, hpre₂, ?_⟩
    rw [hnumber.run_bind_eq_panic_iff hpos₂]
    refine ⟨count, _, ⟨hcount, rfl⟩, hpre₃, ?_⟩
    rw [hlast, readSections_eq_panic_iff m data (Reads.prefix_length hpos₂ hpre₃)]
    exact ⟨done, parts, name, inner, hlt, hall, hname, hlen, hpre₄, h⟩

end SectionedEnvelope

/-- Parsing returns a value or an error exactly when no announced ciphertext overflows. -/
theorem parsing_panics_iff :
    (EncryptedEnvelope.fromBytes m data ≠ .error .panic ↔
      ¬ EncryptedEnvelope.Overflows data.bytes) ∧
    (SectionedEnvelope.fromBytes m data ≠ .error .panic ↔
      ¬ SectionedEnvelope.Overflows data.bytes) :=
  ⟨not_congr (EncryptedEnvelope.fromBytes_eq_panic_iff m data),
    not_congr (SectionedEnvelope.fromBytes_eq_panic_iff m data)⟩

/-- An envelope at the root scope, cut off after a ciphertext length of all ones. -/
def overflowing : Slice :=
  ⟨EncryptedEnvelope.magicBytes ++ [2, 0, 0, 0, 1, 0, 1, 0, 0x2f] ++ List.replicate 50 0 ++
    List.replicate 8 0xff, by decide⟩

theorem overflowing_panics : EncryptedEnvelope.fromBytes .wrapping overflowing = .error .panic ∧
    EncryptedEnvelope.fromBytes .trapping overflowing = .error .panic :=
  ⟨rfl, rfl⟩

end ReadOnlyKeys
