import ReadOnlyKeys.Envelope

/-!
# The binary format of envelopes

Each reader is paired with the bytes it consumes, and the pairs compose to the
whole format. Decoding is the inverse of encoding from version 2 on, up to
bytes that follow the encoding.
-/
namespace ReadOnlyKeys
open Outcome Wire

variable (m : Overflow) (data : Slice)

theorem readArray_reads (eof : RokError) (n : ℕ) (hn : n < 2 ^ 64) :
    Reads data (readArray m data eof n) (fun a bs => bs = asBytes a) := by
  apply ((Reads.readBytes m eof n hn).bind_call fun bs => unwrap (ofSlice n bs)).congr
  intro a bs
  constructor
  · intro h
    obtain ⟨xs, ⟨rfl, _⟩, ha⟩ := h
    rw [unwrap_eq_ok_iff] at ha
    exact (asBytes_ofSlice ha).symm
  · intro h
    subst h
    exact ⟨asBytes a, ⟨rfl, by simp⟩, by rw [unwrap_eq_ok_iff, ofSlice_asBytes]⟩

theorem readLe_reads (eof : RokError) (k : ℕ) (hk : k < 2 ^ 64) :
    Reads data (readLe m data eof k) (fun n bs => n < 256 ^ k ∧ bs = leBytes k n) := by
  apply ((Reads.readBytes m eof k hk).bind_pure leNat).congr
  intro n bs
  rw [leBytes_eq_iff]
  constructor
  · intro h
    obtain ⟨xs, ⟨rfl, hlen⟩, rfl⟩ := h
    exact ⟨hlen, rfl⟩
  · intro h
    obtain ⟨hlen, rfl⟩ := h
    exact ⟨bs, ⟨rfl, hlen⟩, rfl⟩

theorem readByte_reads (eof : RokError) :
    Reads data (readByte m data eof) (fun b bs => bs = [b]) := by
  apply ((Reads.readBytes m eof 1 (by omega)).bind_call fun bs => unwrap bs.head?).congr
  intro b bs
  constructor
  · intro h
    obtain ⟨xs, ⟨rfl, hlen⟩, hb⟩ := h
    obtain ⟨c, rfl⟩ := List.length_eq_one_iff.mp hlen
    simpa using hb
  · intro h
    subst h
    exact ⟨[b], ⟨rfl, rfl⟩, rfl⟩

theorem readMagic_reads (eof : RokError) (magic : Bytes) (invalid : RokError)
    (hm : magic.length < 2 ^ 64) :
    Reads data (readMagic m data eof magic invalid) (fun _ bs => bs = magic) := by
  apply ((Reads.readBytes m eof _ hm).bind_call fun bs => require (bs = magic) invalid).congr
  intro _ bs
  simp only [require_eq_ok_iff]
  constructor
  · intro h
    obtain ⟨xs, ⟨rfl, _⟩, hx⟩ := h
    exact hx
  · intro h
    subst h
    exact ⟨bs, ⟨rfl, rfl⟩, rfl⟩

theorem readU32_reads (eof : RokError) :
    Reads data (readU32 m data eof) (fun v bs => bs = leBytes 4 v.toNat) := by
  apply ((readLe_reads m data eof 4 (by omega)).bind_pure UInt32.ofNat).congr
  intro v bs
  constructor
  · intro h
    obtain ⟨n, ⟨hn, rfl⟩, rfl⟩ := h
    rw [UInt32.toNat_ofNat_of_lt' hn]
  · intro h
    subst h
    exact ⟨v.toNat, ⟨v.toNat_lt, rfl⟩, by simp⟩

/-- A counted read: a length of `k` bytes and that many bytes. -/
theorem readCounted_reads (eof : RokError) (k : ℕ) (hk : k ≤ 8) :
    Reads data (readLe m data eof k >>= readBytes m data eof)
      (fun a bs => a.length < 256 ^ k ∧ bs = leBytes k a.length ++ a) := by
  have hlt : 256 ^ k ≤ 2 ^ 64 := by
    calc 256 ^ k ≤ 256 ^ 8 := Nat.pow_le_pow_right (by omega) hk
      _ = 2 ^ 64 := by decide
  apply (Reads.bind (readLe_reads m data eof k (by omega)) fun n _ hn =>
    Reads.readBytes m eof n (by omega)).congr
  intro a bs
  constructor
  · intro h
    obtain ⟨n, _, _, ⟨hn, rfl⟩, ⟨rfl, rfl⟩, rfl⟩ := h
    exact ⟨hn, rfl⟩
  · intro h
    obtain ⟨hn, rfl⟩ := h
    exact ⟨a.length, _, a, ⟨hn, rfl⟩, ⟨rfl, rfl⟩, rfl⟩

theorem readString_eq (eof invalid : RokError) : readString m data eof invalid =
    (readLe m data eof 2 >>= readBytes m data eof) >>= fun bytes =>
      call (okOr (fromUtf8 bytes) invalid) := by
  rw [bind_assoc]
  rfl

theorem readString_reads (eof invalid : RokError) :
    Reads data (readString m data eof invalid) (fun s bs => (toUtf8 s).length < 256 ^ 2 ∧
      bs = leBytes 2 (toUtf8 s).length ++ toUtf8 s) := by
  rw [readString_eq]
  apply ((readCounted_reads m data eof 2 (by omega)).bind_call fun bytes =>
    okOr (fromUtf8 bytes) invalid).congr
  intro s bs
  simp only [okOr_eq_ok_iff, fromUtf8_eq_some_iff]
  constructor
  · intro h
    obtain ⟨_, ha, rfl⟩ := h
    exact ha
  · intro h
    exact ⟨toUtf8 s, h, rfl⟩

namespace EncryptedEnvelope

theorem readAlgorithm_reads :
    Reads data (readAlgorithm m data) (fun a bs => bs = [a.toU8]) := by
  apply ((readByte_reads m data eof).bind_call Algorithm.fromU8).congr
  intro a bs
  simp only [Algorithm.fromU8_eq_ok_iff, exists_eq_right]

/-- The bytes of the access mode: none before version 2. -/
def modeLayout (version : UInt32) (mode : AccessMode) : Bytes :=
  if 2 ≤ version then [mode.toU8] else []

theorem readAccessMode_reads (version : UInt32) :
    Reads data (readAccessMode m data version)
      (fun a bs => (2 ≤ version ∨ a = .recipient) ∧ bs = modeLayout version a) := by
  unfold readAccessMode modeLayout
  by_cases hv : 2 ≤ version
  · simp only [if_pos hv]
    apply ((readByte_reads m data eof).bind_call AccessMode.fromU8).congr
    intro a bs
    simp only [AccessMode.fromU8_eq_ok_iff, exists_eq_right, hv, true_or, true_and]
  · simp only [if_neg hv]
    apply (Reads.pure AccessMode.recipient).congr
    intro a bs
    simp [hv]

theorem readScope_reads :
    Reads data (readScope m data) (fun s bs => (s.Valid ∧ (toUtf8 s.path).length < 256 ^ 2) ∧
      bs = leBytes 2 (toUtf8 s.path).length ++ toUtf8 s.path) := by
  apply ((readString_reads m data eof _).bind_call Scope.new).congr
  intro s bs
  simp only [Scope.new_eq_ok_iff]
  constructor
  · intro h
    obtain ⟨p, ⟨hp, rfl⟩, rfl, hv⟩ := h
    exact ⟨⟨hv, hp⟩, rfl⟩
  · intro h
    obtain ⟨⟨hv, hp⟩, rfl⟩ := h
    exact ⟨s.path, ⟨hp, rfl⟩, rfl, hv⟩

/-- The ML-KEM ciphertexts the format can tell apart from none. -/
def MlkemFits (ct? : Option Bytes) : Prop := ∀ ct ∈ ct?, 0 < ct.length ∧ ct.length < 256 ^ 4

theorem readMlkem_reads :
    Reads data (readMlkem m data) (fun ct? bs => MlkemFits ct? ∧ bs = mlkemBytes ct?) := by
  have hbody : ∀ n, n < 256 ^ 4 → Reads data (if 0 < n then do
        let ct ← readBytes m data eof n
        return some ct
      else return none)
      (fun ct? bs => (∀ ct ∈ ct?, 0 < ct.length) ∧ (ct?.elim 0 List.length) = n ∧
        bs = ct?.getD []) := by
    intro n hn
    by_cases hpos : 0 < n
    · rw [if_pos hpos]
      apply ((Reads.readBytes m eof n (by omega)).bind_pure some).congr
      intro ct? bs
      constructor
      · intro h
        obtain ⟨ct, ⟨rfl, rfl⟩, rfl⟩ := h
        simpa using hpos
      · intro h
        obtain ⟨_, rfl, rfl⟩ := h
        cases ct? with
        | none => simp at hpos
        | some ct => exact ⟨ct, ⟨rfl, rfl⟩, rfl⟩
    · rw [if_neg hpos]
      apply (Reads.pure none).congr
      intro ct? bs
      constructor
      · intro h
        obtain ⟨rfl, rfl⟩ := h
        exact ⟨by simp, by simp; omega, rfl⟩
      · intro h
        obtain ⟨hne, hlen, rfl⟩ := h
        cases ct? with
        | none => exact ⟨rfl, rfl⟩
        | some ct =>
          have hct := hne ct rfl
          simp only [Option.elim_some] at hlen
          omega
  apply (Reads.bind (readLe_reads m data eof 4 (by omega)) fun n _ hn => hbody n hn.1).congr
  intro ct? bs
  constructor
  · intro h
    obtain ⟨n, _, _, ⟨hn, rfl⟩, ⟨hne, rfl, rfl⟩, rfl⟩ := h
    cases ct? with
    | none => exact ⟨by simp [MlkemFits], by simp [mlkemBytes]⟩
    | some ct => exact ⟨fun c hc => ⟨hne c hc, by obtain rfl := Option.some.inj hc; exact hn⟩, rfl⟩
  · intro h
    obtain ⟨hfits, rfl⟩ := h
    cases ct? with
    | none => exact ⟨0, _, [], ⟨by decide, rfl⟩, ⟨by simp, rfl, rfl⟩, by simp [mlkemBytes]⟩
    | some ct => exact ⟨ct.length, _, ct, ⟨(hfits ct rfl).2, rfl⟩,
        ⟨fun c hc => (hfits c hc).1, rfl, rfl⟩, rfl⟩

theorem readEntry_reads :
    Reads data (readEntry m data)
      (fun e bs => e.wrappedDataKey.length < 256 ^ 2 ∧ bs = e.toBytes 2) := by
  have he : readEntry m data = readArray m data eof 8 >>= fun keyIdBytes =>
      (readLe m data eof 2 >>= readBytes m data eof) >>= fun wrappedDataKey =>
        readArray m data eof 12 >>= fun wrapNonce =>
          pure ⟨⟨keyIdBytes⟩, wrappedDataKey, wrapNonce⟩ := by
    simp only [readEntry, bind_assoc]
  rw [he]
  refine (Reads.exactField (K := fun _ => True) (readArray_reads m data eof 8 (by omega))
    (fun e => e.readKeyId.bytes) fun a =>
    Reads.field (readCounted_reads m data eof 2 (by omega)) AccessEntry.wrappedDataKey
      (fun _ _ _ => Iff.rfl) fun b _ _ =>
    Reads.exactField (readArray_reads m data eof 12 (by omega)) AccessEntry.wrapNonce fun c =>
    Reads.record _ fun r => ?_).congr fun e bs => ?_
  · rw [AccessEntry.ext_iff, KeyId.ext_iff]
    tauto
  · simp [AccessEntry.toBytes, List.append_assoc]

theorem readEntries_reads :
    Reads data (readEntries m data) (fun es bs => (es.length < 256 ^ 2 ∧
      ∀ e ∈ es, e.wrappedDataKey.length < 256 ^ 2) ∧
      bs = leBytes 2 es.length ++ es.flatMap (AccessEntry.toBytes 2)) := by
  apply (Reads.bind (readLe_reads m data eof 2 (by omega)) fun n _ _ =>
    (readEntry_reads m data).readMany_flatMap n).congr
  intro es bs
  constructor
  · intro h
    obtain ⟨n, _, _, ⟨hn, rfl⟩, ⟨rfl, hes, rfl⟩, rfl⟩ := h
    exact ⟨⟨hn, hes⟩, rfl⟩
  · intro h
    obtain ⟨⟨hn, hes⟩, rfl⟩ := h
    exact ⟨es.length, _, _, ⟨hn, rfl⟩, ⟨rfl, hes, rfl⟩, rfl⟩

namespace Preamble

/-- The bytes in front of the ciphertext, as the decoder expects them. -/
def layout (p : Preamble) : Bytes :=
  magicBytes ++ (leBytes 4 p.version.toNat ++ ([p.algorithm.toU8] ++
    (modeLayout p.version p.accessMode ++
      ((leBytes 2 (toUtf8 p.scope.path).length ++ toUtf8 p.scope.path) ++
        (asBytes p.ephemeralX25519Public ++ (mlkemBytes p.ephemeralMlkemCiphertext ++
          ((leBytes 2 p.accessEntries.length ++ p.accessEntries.flatMap (AccessEntry.toBytes 2)) ++
            (asBytes p.nonce ++ []))))))))

/-- The values the layout can carry. -/
def Fits (p : Preamble) : Prop :=
  (2 ≤ p.version ∨ p.accessMode = .recipient) ∧
    (p.scope.Valid ∧ (toUtf8 p.scope.path).length < 256 ^ 2) ∧
    MlkemFits p.ephemeralMlkemCiphertext ∧
    (p.accessEntries.length < 256 ^ 2 ∧
      ∀ e ∈ p.accessEntries, e.wrappedDataKey.length < 256 ^ 2) ∧ True

end Preamble

theorem readPreamble_reads :
    Reads data (readPreamble m data) (fun p bs => p.Fits ∧ bs = p.layout) := by
  refine (Reads.exactField (K := fun _ => True) (readMagic_reads m data eof _ _ (by decide))
    (fun _ => ()) fun _ =>
    Reads.exactField (readU32_reads m data eof) Preamble.version fun version =>
    Reads.exactField (readAlgorithm_reads m data) Preamble.algorithm fun algorithm =>
    Reads.field (readAccessMode_reads m data version) Preamble.accessMode
      (P := fun p => 2 ≤ p.version ∨ p.accessMode = .recipient)
      (f := fun p => modeLayout p.version p.accessMode)
      (fun p bs hp => by rw [hp.2.1]) fun mode _ _ =>
    Reads.field (readScope_reads m data) Preamble.scope (fun _ _ _ => Iff.rfl) fun scope _ _ =>
    Reads.exactField (readArray_reads m data eof 32 (by omega)) Preamble.ephemeralX25519Public
      fun ephemeral =>
    Reads.field (readMlkem_reads m data) Preamble.ephemeralMlkemCiphertext (fun _ _ _ => Iff.rfl)
      fun mlkem _ _ =>
    Reads.field (readEntries_reads m data) Preamble.accessEntries (fun _ _ _ => Iff.rfl)
      fun entries _ _ =>
    Reads.exactField (readArray_reads m data eof 12 (by omega)) Preamble.nonce fun nonce =>
    Reads.record _ fun p => ?_).congr fun p bs => ?_
  · rw [Preamble.ext_iff]
    tauto
  · simp only [Preamble.Fits, Preamble.layout, true_and]

def preamble (e : EncryptedEnvelope (Vector UInt8)) : Preamble :=
  ⟨e.version, e.algorithm, e.accessMode, e.scope, e.ephemeralX25519Public,
    e.ephemeralMlkemCiphertext, e.accessEntries, e.nonce⟩

/-- The ciphertext and what follows it, as bytes. -/
def restLayout (e : EncryptedEnvelope (Vector UInt8)) : Bytes :=
  (leBytes 8 e.ciphertext.length ++ e.ciphertext) ++
    (asBytes e.tag ++ (asBytes e.spendPublicKey ++ (asBytes e.signature ++ [])))

theorem readRest_reads (p : Preamble) :
    Reads data (readRest m data p) (fun e bs => e.preamble = p ∧
      (e.ciphertext.length < 256 ^ 8 ∧ True) ∧ bs = e.restLayout) := by
  have hr : readRest m data p =
      (readLe m data eof 8 >>= readBytes m data eof) >>= fun ciphertext =>
        readArray m data eof 16 >>= fun tag => readArray m data eof 32 >>= fun spendPublicKey =>
          readArray m data eof 64 >>= fun signature =>
            pure ⟨p.version, p.algorithm, p.scope, p.ephemeralX25519Public,
              p.ephemeralMlkemCiphertext, p.accessEntries, p.nonce, ciphertext, tag, signature,
              spendPublicKey, p.accessMode⟩ := by
    simp only [readRest, bind_assoc]
  rw [hr]
  refine (Reads.field (K := fun e => e.preamble = p)
      (readCounted_reads m data eof 8 (by omega)) EncryptedEnvelope.ciphertext
      (fun _ _ _ => Iff.rfl) fun ciphertext _ _ =>
    Reads.exactField (readArray_reads m data eof 16 (by omega)) EncryptedEnvelope.tag fun tag =>
    Reads.exactField (readArray_reads m data eof 32 (by omega)) EncryptedEnvelope.spendPublicKey
      fun spendPublicKey =>
    Reads.exactField (readArray_reads m data eof 64 (by omega)) EncryptedEnvelope.signature
      fun signature => Reads.record _ fun e => ?_)
  rw [EncryptedEnvelope.ext_iff, preamble, Preamble.ext_iff]
  tauto

/-- The bytes the decoder takes for an envelope: without an access mode before version 2. -/
def layout (e : EncryptedEnvelope (Vector UInt8)) : Bytes := e.preamble.layout ++ e.restLayout

theorem readEnvelope_reads :
    Reads data (readEnvelope m data) (fun e bs =>
      (e.preamble.Fits ∧ e.ciphertext.length < 256 ^ 8) ∧ bs = e.layout) := by
  refine (Reads.field (K := fun _ => True) (R := fun e => e.ciphertext.length < 256 ^ 8 ∧ True)
    (g := restLayout) (readPreamble_reads m data) preamble (fun _ _ _ => Iff.rfl) fun p _ _ =>
    (readRest_reads m data p).congr fun e bs => ?_).congr fun e bs => ?_
  · simp only [and_true]
  · simp only [layout, true_and, and_true]

theorem fromBytes_eq_ok_iff (e : EncryptedEnvelope (Vector UInt8)) :
    fromBytes m data = .ok e ↔
      (e.preamble.Fits ∧ e.ciphertext.length < 256 ^ 8) ∧ e.layout <+: data.bytes := by
  rw [fromBytes, (readEnvelope_reads m data).run_zero]
  simp only [and_assoc, exists_and_left, exists_eq_left]

/-- The limits of the binary format. -/
structure WithinLimits (e : EncryptedEnvelope (Vector UInt8)) : Prop where
  scope_valid : e.scope.Valid
  scope_length : (toUtf8 e.scope.path).length ≤ 65535
  entries : e.accessEntries.length ≤ 65535
  wrapped : ∀ entry ∈ e.accessEntries, entry.wrappedDataKey.length ≤ 65535
  mlkem : ∀ ct ∈ e.ephemeralMlkemCiphertext, 1 ≤ ct.length ∧ ct.length < 2 ^ 32

theorem fits_iff (e : EncryptedEnvelope (Vector UInt8)) :
    e.preamble.Fits ↔ (2 ≤ e.version ∨ e.accessMode = .recipient) ∧ e.WithinLimits := by
  have hw : e.WithinLimits ↔ e.scope.Valid ∧ (toUtf8 e.scope.path).length ≤ 65535 ∧
      e.accessEntries.length ≤ 65535 ∧
      (∀ entry ∈ e.accessEntries, entry.wrappedDataKey.length ≤ 65535) ∧
      ∀ ct ∈ e.ephemeralMlkemCiphertext, 1 ≤ ct.length ∧ ct.length < 2 ^ 32 :=
    ⟨fun h => ⟨h.1, h.2, h.3, h.4, h.5⟩, fun h => ⟨h.1, h.2.1, h.2.2.1, h.2.2.2.1, h.2.2.2.2⟩⟩
  have hn : ∀ n, n < 256 ^ 2 ↔ n ≤ 65535 := by
    intro n
    omega
  rw [hw]
  simp only [Preamble.Fits, preamble, MlkemFits, hn, and_true, and_assoc]
  tauto

/-- From version 2 on, the encoder writes what the decoder expects. -/
theorem toBytes_eq_layout {e : EncryptedEnvelope (Vector UInt8)} (h : 2 ≤ e.version) :
    e.toBytes = e.layout := by
  have hm : modeLayout e.version e.accessMode = [e.accessMode.toU8] := if_pos h
  simp only [toBytes, layout, Preamble.layout, restLayout, preamble, hm, List.append_assoc,
    List.append_nil]

theorem ciphertext_length_le_toBytes (e : EncryptedEnvelope (Vector UInt8)) :
    e.ciphertext.length ≤ e.toBytes.length := by
  simp only [toBytes, List.length_append]
  omega

/-- Within the limits, what decodes to an envelope starts with its encoding. -/
theorem fromBytes_eq_ok_iff_starts {e : EncryptedEnvelope (Vector UInt8)} (hv : 2 ≤ e.version)
    (hl : e.WithinLimits) : fromBytes m data = .ok e ↔ e.toBytes <+: data.bytes := by
  rw [fromBytes_eq_ok_iff, fits_iff, toBytes_eq_layout hv]
  constructor
  · intro h
    exact h.2
  · intro h
    have hct := e.ciphertext_length_le_toBytes
    rw [toBytes_eq_layout hv] at hct
    have hle := h.length_le
    have hlt := data.length_lt
    exact ⟨⟨⟨.inl hv, hl⟩, by omega⟩, h⟩

theorem withinLimits_of_fromBytes {e : EncryptedEnvelope (Vector UInt8)}
    (h : fromBytes m data = .ok e) : e.WithinLimits := by
  rw [fromBytes_eq_ok_iff, fits_iff] at h
  exact h.1.1.2

/-- Decoding accepts exactly the encodings, each followed by anything. -/
theorem fromBytes_iff_starts_with_toBytes :
    (∀ e, 2 ≤ e.version → e.WithinLimits →
      (fromBytes m data = .ok e ↔ e.toBytes <+: data.bytes)) ∧
    ∀ e, fromBytes m data = .ok e → 2 ≤ e.version → e.WithinLimits :=
  ⟨fun _ hv hl => fromBytes_eq_ok_iff_starts m data hv hl,
    fun _ h _ => withinLimits_of_fromBytes m data h⟩

/-- A small envelope with one access entry. -/
def sample : EncryptedEnvelope (Vector UInt8) where
  version := 2
  algorithm := .hybridX25519MlKemChaCha20
  scope := ⟨['/', 'a']⟩
  ephemeralX25519Public := zeros 32
  ephemeralMlkemCiphertext := some [1, 2]
  accessEntries := [⟨⟨zeros 8⟩, [3, 4, 5], zeros 12⟩]
  nonce := zeros 12
  ciphertext := [6]
  tag := zeros 16
  signature := zeros 64
  spendPublicKey := zeros 32
  accessMode := .scopeBased

/-- The encoding of the sample and one more byte. -/
def sampleBytes : Slice := ⟨sample.toBytes ++ [7], by decide +kernel⟩

lemma sample_withinLimits : sample.WithinLimits :=
  ⟨by decide, by decide, by decide, by decide, by decide⟩

theorem fromBytes_iff_starts_with_toBytes_sample :
    fromBytes .wrapping sampleBytes = .ok sample ∧ sample.WithinLimits := by
  have h := fromBytes_iff_starts_with_toBytes .wrapping sampleBytes
  have hok : fromBytes .wrapping sampleBytes = .ok sample :=
    (h.1 sample (by decide) sample_withinLimits).mpr (List.prefix_append _ _)
  exact ⟨hok, h.2 sample hok (by decide)⟩

end EncryptedEnvelope

end ReadOnlyKeys
