import ReadOnlyKeys.SectionCommands

/-!
# The command that opens nothing

`inspect` shows what a file says of itself without a key: which of the two kinds
of file it is, and what its envelopes carry in the clear.
-/
namespace ReadOnlyKeys
open Outcome Wire

variable {ρ σ : Type} {C : Crypto (Vector UInt8)}

/-- Non-secret metadata about an envelope. -/
structure EnvelopeMetadata where
  version : UInt32
  algorithm : Algorithm
  scope : Scope
  recipientCount : ℕ
  ciphertextLen : ℕ
  recipientKeyIds : List (KeyId (Vector UInt8))
  accessMode : AccessMode

def EncryptedEnvelope.metadata (self : EncryptedEnvelope (Vector UInt8)) : EnvelopeMetadata where
  version := self.version
  algorithm := self.algorithm
  scope := self.scope
  recipientCount := self.accessEntries.length
  ciphertextLen := self.ciphertext.length
  recipientKeyIds := self.accessEntries.map AccessEntry.readKeyId
  accessMode := self.accessMode

/-- Non-secret metadata about a single section. -/
structure SectionMetadataEntry where
  name : List Char
  scope : String
  algorithm : Algorithm
  accessMode : AccessMode
  ciphertextLen : ℕ
  recipientCount : ℕ

/-- Non-secret metadata about a sectioned envelope. -/
structure SectionedMetadata where
  version : UInt32
  sectionCount : ℕ
  sections : List SectionMetadataEntry

def Section.metadata (self : Section (Vector UInt8)) : SectionMetadataEntry :=
  let metadata := self.envelope.metadata
  { name := self.name
    scope := metadata.scope.display
    algorithm := metadata.algorithm
    accessMode := metadata.accessMode
    ciphertextLen := metadata.ciphertextLen
    recipientCount := metadata.recipientCount }

def SectionedEnvelope.metadata (self : SectionedEnvelope (Vector UInt8)) : SectionedMetadata where
  version := self.version
  sectionCount := self.sections.length
  sections := self.sections.map Section.metadata

structure InspectArgs where
  file : List Char
  format : Format

/-- What `inspect` prints of an envelope. -/
structure SingleReport where
  file : List Char
  version : UInt32
  algorithm : String
  accessMode : String
  scope : String
  format : String
  recipients : ℕ
  ciphertextSize : ℕ
  fileSize : ℕ
  recipientKeyIds : List String
  mlkemCiphertextSize : Option ℕ

/-- What it prints of a section. -/
structure SectionReport where
  name : List Char
  scope : String
  algorithm : String
  accessMode : String
  recipients : ℕ
  ciphertextSize : ℕ

/-- What it prints of a container. -/
structure SectionedReport where
  file : List Char
  version : UInt32
  sections : ℕ
  format : String
  fileSize : ℕ
  entries : List SectionReport

inductive InspectReport where
  | single (report : SingleReport)
  | sectioned (report : SectionedReport)

namespace InspectArgs

section Run

variable (C) (m : Overflow) (decode : Bytes → Except String ProtoEnvelope)
  (decodeSections : Bytes → Except String ProtoSectionedEnvelope)

def inspectSingle (envelope : EncryptedEnvelope (Vector UInt8)) (args : InspectArgs)
    (data : Bytes) : InspectReport :=
  let metadata := envelope.metadata
  .single {
    file := args.file
    version := metadata.version
    algorithm := metadata.algorithm.debug
    accessMode := metadata.accessMode.label
    scope := metadata.scope.display
    format := args.format.label
    recipients := metadata.recipientCount
    ciphertextSize := metadata.ciphertextLen
    fileSize := data.length
    recipientKeyIds := metadata.recipientKeyIds.map fun keyId => keyId.toBase58 C
    mlkemCiphertextSize := envelope.ephemeralMlkemCiphertext.map List.length }

def inspectSectioned (sectioned : SectionedEnvelope (Vector UInt8)) (args : InspectArgs)
    (data : Bytes) : InspectReport :=
  let metadata := sectioned.metadata
  .sectioned {
    file := args.file
    version := metadata.version
    sections := metadata.sectionCount
    format := args.format.label
    fileSize := data.length
    entries := metadata.sections.map fun entry => {
      name := entry.name
      scope := entry.scope
      algorithm := entry.algorithm.debug
      accessMode := entry.accessMode.label
      recipients := entry.recipientCount
      ciphertextSize := entry.ciphertextLen } }

/-- The path of an envelope that stands alone. -/
def single (args : InspectArgs) (data : Bytes) : Result InspectReport := do
  let envelope ← args.format.envelope m decode data
  return inspectSingle C envelope args data

/-- The bytes of a file: the four bytes at the start decide in one format, and in the other
whether a container with sections is read. -/
def inspect (args : InspectArgs) (data : Bytes) : Result InspectReport :=
  match args.format with
  | .binary =>
    if 4 ≤ data.length ∧ data.take 4 = SectionedEnvelope.magicBytes then do
      let sectioned ← args.format.sectioned m decodeSections data
      return inspectSectioned sectioned args data
    else args.single C m decode data
  | .proto =>
    match args.format.sectioned m decodeSections data with
    | .ok sectioned =>
      if sectioned.sections.isEmpty = false then .ok (inspectSectioned sectioned args data)
      else args.single C m decode data
    | .error (.err _) => args.single C m decode data
    | .error .panic => .error .panic

/-- `rok inspect`. -/
def run (fs : FileSystem σ) (args : InspectArgs) : Program CommandError σ InspectReport := do
  let data ← onFiles (fs.read args.file)
  Program.attempt (orStop (args.inspect C m decode decodeSections data))

end Run

end InspectArgs

section Kinds

variable {m : Overflow} {decode : Bytes → Except String ProtoEnvelope}
  {decodeSections : Bytes → Except String ProtoSectionedEnvelope}

/-- What an envelope is read from, or read up to a crash, starts with the one magic. -/
lemma EncryptedEnvelope.magic_prefix (data : Slice)
    (h : (∃ e, fromBytes m data = .ok e) ∨ fromBytes m data = .error .panic) :
    magicBytes <+: data.bytes := by
  have hlayout : ∀ p : Preamble, magicBytes <+: p.layout := fun p => by
    simp only [Preamble.layout, List.append_assoc, List.prefix_append]
  rcases h with ⟨e, h⟩ | h
  · obtain ⟨-, hpre⟩ := (fromBytes_eq_ok_iff m data e).mp h
    exact ((hlayout e.preamble).trans (List.prefix_append _ _)).trans hpre
  · obtain ⟨p, ctLen, -, -, hpre, -⟩ := (fromBytes_eq_panic_iff m data).mp h
    exact ((hlayout p).trans (List.prefix_append _ _)).trans hpre

/-- And for containers with the other. -/
lemma SectionedEnvelope.magic_prefix (data : Slice)
    (h : (∃ s, fromBytes m data = .ok s) ∨ fromBytes m data = .error .panic) :
    magicBytes <+: data.bytes := by
  rcases h with ⟨s, h⟩ | h
  · rw [fromBytes, (readSections_reads m data).run_zero] at h
    obtain ⟨_, ⟨-, parts, -, rfl⟩, hpre⟩ := h
    exact (List.prefix_append _ _).trans hpre
  · obtain ⟨_, _, _, _, _, _, -, -, -, -, -, hpre, -⟩ := (fromBytes_eq_panic_iff m data).mp h
    exact (List.prefix_append _ _).trans hpre

/-- The four bytes that are looked at are the magic of containers. -/
lemma starts_iff (data : Bytes) : (4 ≤ data.length ∧ data.take 4 = SectionedEnvelope.magicBytes) ↔
    SectionedEnvelope.magicBytes <+: data := by
  rw [List.prefix_iff_eq_take]
  constructor
  · intro h
    exact h.2.symm
  · intro h
    refine ⟨?_, h.symm⟩
    have hlength := congrArg List.length h
    simp only [SectionedEnvelope.magicBytes, List.length_take, List.length_cons,
      List.length_nil] at hlength
    omega

/-- No bytes start with both. -/
lemma not_both_magics {data : Bytes} (h : EncryptedEnvelope.magicBytes <+: data) :
    ¬ SectionedEnvelope.magicBytes <+: data := by
  intro h'
  have hsame := List.prefix_of_prefix_length_le h h' (by decide)
  revert hsame
  decide

lemma Slice.ofBytes_bytes {ε : Type} (data : Slice) :
    (Slice.ofBytes data.bytes : Except (Fault ε) Slice) = .ok data := by
  rw [Slice.ofBytes, dif_pos data.length_le]

namespace InspectArgs

variable {args : InspectArgs} {fs : FileSystem σ} {s s₁ : σ} {data : Bytes}

/-- A run reads its file and shows what the bytes say. -/
lemma run_exec (hread : (fs.read args.file).exec s = (.ok data, s₁)) :
    (args.run C m decode decodeSections fs).exec s =
      (orStop (args.inspect C m decode decodeSections data), s₁) := by
  have hfile : (onFiles (fs.read args.file)).exec s = (.ok data, s₁) :=
    (exec_onFiles_eq_ok_iff _ _ _ _).mpr hread
  rw [run, Program.exec_bind, hfile]
  rfl

/-- The start of the bytes decides which parser is asked. -/
lemma inspect_binary (C : Crypto (Vector UInt8)) (m : Overflow)
    (decode : Bytes → Except String ProtoEnvelope)
    (decodeSections : Bytes → Except String ProtoSectionedEnvelope)
    (hbinary : args.format = .binary) (data : Slice) :
    args.inspect C m decode decodeSections data.bytes =
      if SectionedEnvelope.magicBytes <+: data.bytes then
        (SectionedEnvelope.fromBytes m data).map fun sectioned =>
          inspectSectioned sectioned args data.bytes
      else
        (EncryptedEnvelope.fromBytes m data).map fun envelope =>
          inspectSingle C envelope args data.bytes := by
  simp only [inspect, single, hbinary, starts_iff, Format.sectioned, Format.envelope,
    Slice.ofBytes_bytes, ok_bind]
  split_ifs
  · cases SectionedEnvelope.fromBytes m data <;> rfl
  · cases EncryptedEnvelope.fromBytes m data <;> rfl

end InspectArgs

/-- What is printed of what was parsed. -/
lemma orStop_map_eq_ok_iff {α β : Type} {x : Result α} {f : α → β} {b : β} {s : σ} :
    ((orStop (x.map f) : Except (Fault CommandError) β), s) = (.ok b, s) ↔
      ∃ a, x = .ok a ∧ b = f a := by
  cases x with
  | ok a => simp [orStop, Except.map, eq_comm]
  | error fault => simp [orStop, Except.map]

lemma orStop_map_eq_panic_iff {α β : Type} {x : Result α} {f : α → β} {s : σ} :
    ((orStop (x.map f) : Except (Fault CommandError) β), s) = (.error .panic, s) ↔
      x = .error .panic := by
  cases x with
  | ok a => simp [orStop, Except.map]
  | error fault => simp [orStop, Except.map]

/-- On every file of the binary format `inspect` shows what the one parser accepts or the other, and
crashes where the one does or the other. There is no file that both accept. -/
theorem inspect_exact {args : InspectArgs} (hbinary : args.format = .binary) {fs : FileSystem σ}
    {s s₁ : σ} {data : Slice} (hread : (fs.read args.file).exec s = (.ok data.bytes, s₁)) :
    (∀ report, (args.run C m decode decodeSections fs).exec s = (.ok report, s₁) ↔
      (∃ e, EncryptedEnvelope.fromBytes m data = .ok e ∧
        report = InspectArgs.inspectSingle C e args data.bytes) ∨
      ∃ sectioned, SectionedEnvelope.fromBytes m data = .ok sectioned ∧
        report = InspectArgs.inspectSectioned sectioned args data.bytes) ∧
    ((args.run C m decode decodeSections fs).exec s = (.error .panic, s₁) ↔
      EncryptedEnvelope.Overflows data.bytes ∨ SectionedEnvelope.Overflows data.bytes) ∧
    ¬ ((∃ e, EncryptedEnvelope.fromBytes m data = .ok e) ∧
      ∃ sectioned, SectionedEnvelope.fromBytes m data = .ok sectioned) := by
  rw [InspectArgs.run_exec hread, InspectArgs.inspect_binary C m decode decodeSections hbinary,
    ← EncryptedEnvelope.fromBytes_eq_panic_iff m, ← SectionedEnvelope.fromBytes_eq_panic_iff m]
  have hsingle := EncryptedEnvelope.magic_prefix (m := m) data
  have hsectioned := SectionedEnvelope.magic_prefix (m := m) data
  by_cases hmagic : SectionedEnvelope.magicBytes <+: data.bytes
  · have hnone : ¬ EncryptedEnvelope.magicBytes <+: data.bytes :=
      fun h => not_both_magics h hmagic
    have hreject : ¬ ((∃ e, EncryptedEnvelope.fromBytes m data = .ok e) ∨
        EncryptedEnvelope.fromBytes m data = .error .panic) := fun h => hnone (hsingle h)
    obtain ⟨hnoEnvelope, hnoCrash⟩ := not_or.mp hreject
    simp only [if_pos hmagic, orStop_map_eq_ok_iff, orStop_map_eq_panic_iff]
    refine ⟨fun report => ?_, by simp [hnoCrash], fun h => hnoEnvelope h.1⟩
    constructor
    · exact .inr
    · intro h
      rcases h with ⟨e, he, -⟩ | h
      · exact absurd ⟨e, he⟩ hnoEnvelope
      · exact h
  · have hreject : ¬ ((∃ sectioned, SectionedEnvelope.fromBytes m data = .ok sectioned) ∨
        SectionedEnvelope.fromBytes m data = .error .panic) := fun h => hmagic (hsectioned h)
    obtain ⟨hnoSections, hnoCrash⟩ := not_or.mp hreject
    simp only [if_neg hmagic, orStop_map_eq_ok_iff, orStop_map_eq_panic_iff]
    refine ⟨fun report => ?_, by simp [hnoCrash], fun h => hnoSections h.2⟩
    constructor
    · exact .inl
    · intro h
      rcases h with h | ⟨sectioned, hs, -⟩
      · exact h
      · exact absurd ⟨sectioned, hs⟩ hnoSections

/-- An envelope in a file. -/
def sampleInspect : InspectArgs := ⟨['f'], .binary⟩

theorem inspect_exact_sample : ((sampleInspect.run base58Arrays .wrapping Prost.decodeEnvelope
    Prost.decode pathFiles).exec
      (Function.update (fun _ => none) ['f'] (some EncryptedEnvelope.sampleBytes.bytes))).1 =
    .ok (InspectArgs.inspectSingle base58Arrays EncryptedEnvelope.sample sampleInspect
      EncryptedEnvelope.sampleBytes.bytes) := by
  have hparse : EncryptedEnvelope.fromBytes .wrapping EncryptedEnvelope.sampleBytes =
      .ok EncryptedEnvelope.sample :=
    (EncryptedEnvelope.fromBytes_eq_ok_iff_starts _ _ (by decide)
      EncryptedEnvelope.sample_withinLimits).mpr (List.prefix_append _ _)
  have hread : (pathFiles.read sampleInspect.file).exec (Function.update (fun _ => none) ['f']
      (some EncryptedEnvelope.sampleBytes.bytes)) = (.ok EncryptedEnvelope.sampleBytes.bytes,
        Function.update (fun _ => none) ['f'] (some EncryptedEnvelope.sampleBytes.bytes)) := rfl
  rw [((inspect_exact rfl hread).1 _).mpr (.inl ⟨EncryptedEnvelope.sample, hparse, rfl⟩)]

end Kinds

section Shown

variable {E : KeyText} {K : MlKem768 (Vector UInt8) ρ} {spend : SpendKeyPair C}

/-- The owner's key for a scope. -/
def SpendKeyPair.KeyFor (self : SpendKeyPair C) (scope : Scope) (key : ReadKeyPair C) : Prop :=
  (if scope = Scope.root then .ok self.deriveRootReadKey
    else self.deriveRootReadKey.deriveChild scope : Result (ReadKeyPair C)) = .ok key

/-- The length of the ML-KEM ciphertext that goes with an algorithm. -/
def Algorithm.mlkemSize : Algorithm → Option ℕ
  | .eciesX25519ChaCha20 => none
  | .hybridX25519MlKemChaCha20 => some 1088

/-- The access mode, by whether only the scope decides. -/
def AccessMode.ofScopeBased (scopeBased : Bool) : AccessMode :=
  if scopeBased then .scopeBased else .recipient

namespace SectionMaker

/-- Whom it addresses: those that are listed, in order, or the key of the scope. -/
def Addresses (spend : SpendKeyPair C) (ids : List (KeyId (Vector UInt8))) :
    SectionMaker C → Prop
  | classical b _ =>
      if b.scopeBased then ∃ key, spend.KeyFor b.scope key ∧ ids = [key.keyId]
      else ids = b.recipients.map Recipient.keyId
  | hybrid scope _ => ∃ key, spend.KeyFor scope key ∧ ids = [key.keyId]

/-- An envelope says in the clear how it was made and for whom. -/
structure Shows (maker : SectionMaker C) (spend : SpendKeyPair C)
    (e : EncryptedEnvelope (Vector UInt8)) : Prop where
  version : e.version = 2
  algorithm : e.algorithm = maker.algorithm
  scope : e.scope = maker.scope
  accessMode : e.accessMode = AccessMode.ofScopeBased maker.scopeBased
  ciphertext : e.ciphertext.length = maker.plaintext.length
  mlkem : e.ephemeralMlkemCiphertext.map List.length = maker.algorithm.mlkemSize
  recipients : maker.Addresses spend (e.accessEntries.map AccessEntry.readKeyId)

variable {maker : SectionMaker C} {e : EncryptedEnvelope (Vector UInt8)}

/-- Where only the scope decides there is one recipient. -/
lemma Addresses.length_eq_one {ids : List (KeyId (Vector UInt8))} (h : maker.Addresses spend ids)
    (hbased : maker.scopeBased = true) : ids.length = 1 := by
  cases maker with
  | classical b plaintext =>
    rw [Addresses, if_pos (show b.scopeBased = true from hbased)] at h
    obtain ⟨key, -, rfl⟩ := h
    rfl
  | hybrid scope plaintext =>
    obtain ⟨key, -, rfl⟩ := h
    rfl

/-- A payload is as long as its plaintext. -/
lemma ciphertext_length (hG : C.chacha20Poly1305.Tagged) {dataKey : Vector UInt8 32}
    {plaintext : Bytes} (h : C.chacha20Poly1305.encrypt dataKey e.nonce plaintext =
      .ok (e.ciphertext ++ asBytes e.tag)) : e.ciphertext.length = plaintext.length := by
  have hlength := hG _ _ _ _ h
  simp only [List.length_append, asBytes_vector, Vector.length_toList] at hlength
  omega

/-- The entries name the recipients, in order. -/
lemma readKeyIds_eq {ephemeral : C.StaticSecret} {dataKey : Vector UInt8 32}
    {recipients : List (Recipient (Vector UInt8))} {entries : List (AccessEntry (Vector UInt8))}
    (h : List.Forall₂ (Wraps C ephemeral dataKey) recipients entries) :
    entries.map AccessEntry.readKeyId = recipients.map Recipient.keyId := by
  induction h with
  | nil => rfl
  | cons hw _ ih => rw [List.map_cons, List.map_cons, hw.readKeyId, ih]

theorem Makes.shows (h : maker.Makes K spend e) (hG : C.chacha20Poly1305.Tagged) :
    maker.Shows spend e := by
  have hscope := h.scope_eq
  cases maker with
  | classical b plaintext =>
    obtain ⟨hsk, halg, _, _, rng, s, s', hrun⟩ := h
    obtain ⟨sk, recipients, henc⟩ := b.encrypt_run hrun
    obtain rfl : spend = sk := Option.some.inj (hsk.symm.trans henc.spendKey_eq)
    obtain ⟨ephemeral, dataKey, hs⟩ := henc.sealed
    have hids := readKeyIds_eq hs.entries
    have hmlkem : e.ephemeralMlkemCiphertext.map List.length =
        (classical b plaintext).algorithm.mlkemSize := by
      rw [henc.mlkem]
      rfl
    have hmode : e.accessMode = AccessMode.ofScopeBased b.scopeBased ∧
        (classical b plaintext).Addresses spend (e.accessEntries.map AccessEntry.readKeyId) := by
      rw [hids, Addresses]
      cases hb : b.scopeBased with
      | true =>
        obtain ⟨hmode, scopeKey, hkey, rfl⟩ := henc.exists_scopeKey hb
        exact ⟨hmode, scopeKey, hkey, rfl⟩
      | false =>
        obtain ⟨rfl, hmode⟩ := henc.recipientMode hb
        exact ⟨hmode, rfl⟩
    exact ⟨henc.version, henc.algorithm.trans halg, hscope, hmode.1,
      ciphertext_length hG hs.payload, hmlkem, hmode.2⟩
  | hybrid scope plaintext =>
    obtain ⟨rng, s, s', hrun⟩ := h
    obtain ⟨scopeKey, hhyb⟩ := hybridEncrypt_run hrun
    obtain ⟨_, _, ct, _, hs⟩ := hhyb.sealed
    obtain ⟨entry, hentries, hid, _⟩ := hs.entry
    have hmlkem : e.ephemeralMlkemCiphertext.map List.length =
        (hybrid scope plaintext : SectionMaker C).algorithm.mlkemSize := by
      rw [hs.mlkemCiphertext, Option.map_some, asBytes_vector, Vector.length_toList]
      rfl
    refine ⟨hhyb.version, hhyb.algorithm, hscope, hhyb.accessMode,
      ciphertext_length hG hs.payload, hmlkem, scopeKey, hhyb.scopeKey_eq, ?_⟩
    rw [hentries, List.map_singleton, hid]

end SectionMaker

variable {m : Overflow} {encode : ProtoEnvelope → Bytes}
  {decode : Bytes → Except String ProtoEnvelope}
  {encodeSections : ProtoSectionedEnvelope → Bytes}
  {decodeSections : Bytes → Except String ProtoSectionedEnvelope}

/-- Read as a container, the message of an envelope has no sections: where the container's message
has them it has the number of its algorithm. -/
def MessagesApart (encode : ProtoEnvelope → Bytes)
    (decodeSections : Bytes → Except String ProtoSectionedEnvelope) : Prop :=
  ∀ msg : ProtoEnvelope, msg.Typed → ∀ env, decodeSections (encode msg) = .ok env →
    env.sections = []

namespace InspectArgs

variable {args : InspectArgs} {data : Bytes}

/-- What `decrypt` reads as an envelope is shown as one. -/
lemma inspect_of_envelope {e : EncryptedEnvelope (Vector UInt8)}
    (h : args.format.envelope m decode data = .ok e)
    (hproto : args.format = .proto → ∀ env, decodeSections data = .ok env → env.sections = []) :
    args.inspect C m decode decodeSections data = .ok (inspectSingle C e args data) := by
  have hsingle : args.single C m decode data = .ok (inspectSingle C e args data) := by
    rw [single, h]
    rfl
  cases hf : args.format with
  | binary =>
    rw [hf, Format.envelope, bind_eq_ok_iff] at h
    obtain ⟨slice, hslice, he⟩ := h
    unfold Slice.ofBytes at hslice
    split_ifs at hslice with hsize
    obtain rfl := Except.ok.inj hslice
    have hmagic := not_both_magics (EncryptedEnvelope.magic_prefix _ (.inl ⟨e, he⟩))
    have hinspect := inspect_binary C m decode decodeSections hf ⟨data, hsize⟩
    rw [hinspect, if_neg hmagic, he]
    rfl
  | proto =>
    simp only [inspect, hf, Format.sectioned, SectionedEnvelope.fromProtoBytes]
    cases hdecode : decodeSections data with
    | error err => exact hsingle
    | ok env =>
      have hnone : env = ⟨env.version, []⟩ := by
        rw [← hproto hf env hdecode]
      rw [mapErr_ok, ok_bind, hnone]
      exact hsingle

/-- What `decrypt-sections` reads as a container with sections is shown as one. -/
lemma inspect_of_sectioned {sectioned : SectionedEnvelope (Vector UInt8)}
    (h : args.format.sectioned m decodeSections data = .ok sectioned)
    (hne : sectioned.sections ≠ []) :
    args.inspect C m decode decodeSections data = .ok (inspectSectioned sectioned args data) := by
  cases hf : args.format with
  | binary =>
    rw [hf, Format.sectioned, bind_eq_ok_iff] at h
    obtain ⟨slice, hslice, hs⟩ := h
    unfold Slice.ofBytes at hslice
    split_ifs at hslice with hsize
    obtain rfl := Except.ok.inj hslice
    have hinspect := inspect_binary C m decode decodeSections hf ⟨data, hsize⟩
    rw [hinspect, if_pos (SectionedEnvelope.magic_prefix _ (.inl ⟨_, hs⟩)), hs]
    rfl
  | proto =>
    rw [hf] at h
    simp only [inspect, hf, h]
    rw [if_pos (by simpa using hne)]

end InspectArgs

namespace EncryptArgs

/-- Whom a run addresses: the keys of the texts, in order, or the key of the scope. -/
def Addresses (args : EncryptArgs) (E : KeyText) (spend : SpendKeyPair C)
    (ids : List (KeyId (Vector UInt8))) : Prop :=
  if args.scopeBased then ∃ key, spend.KeyFor ⟨args.scope⟩ key ∧ ids = [key.keyId]
  else List.Forall₂ (fun encoded keyId => ∃ publicKey named,
    Encoding.decodeReadPublic E encoded = .ok (publicKey, named) ∧
      keyId = KeyId.fromPublicBytes C (asBytes publicKey)) args.recipient ids

/-- What `inspect` shows of what a run made. -/
def shown (args : EncryptArgs) (C : Crypto (Vector UInt8)) (file : List Char)
    (ids : List (KeyId (Vector UInt8))) (plaintext data : Bytes) : SingleReport where
  file := file
  version := 2
  algorithm := args.algorithm.algorithm.debug
  accessMode := (AccessMode.ofScopeBased args.scopeBased).label
  scope := String.ofList args.scope
  format := args.format.label
  recipients := ids.length
  ciphertextSize := plaintext.length
  fileSize := data.length
  recipientKeyIds := ids.map fun keyId => keyId.toBase58 C
  mlkemCiphertextSize := args.algorithm.algorithm.mlkemSize

variable {args : EncryptArgs} {maker : SectionMaker C}

/-- The makers of a run address whom the arguments name. -/
lemma addresses_of_maker {ids : List (KeyId (Vector UInt8))} (h : maker.Addresses spend ids)
    (hscope : maker.scope = ⟨args.scope⟩) (hmode : maker.scopeBased = args.scopeBased)
    (hlists : args.Lists E maker) : args.Addresses E spend ids := by
  rw [Addresses, ← hmode, ← hscope]
  cases maker with
  | hybrid scope plaintext => exact h
  | classical b plaintext =>
    cases hb : b.scopeBased with
    | true =>
      rw [SectionMaker.Addresses, if_pos hb] at h
      simp only [SectionMaker.scopeBased, hb, if_true]
      exact h
    | false =>
      rw [SectionMaker.Addresses, hb, if_neg (by decide)] at h
      simp only [SectionMaker.scopeBased, hb, Bool.false_eq_true, if_false]
      rw [h, List.forall₂_map_right_iff]
      exact (hlists hb).imp fun encoded r hr => ⟨_, hr.1.choose, hr.1.choose_spec, hr.2⟩

end EncryptArgs

variable {hexDecode : String → Except String Bytes} {rng : CryptoRng (Vector UInt8) ρ} {r : ρ}
  {fs : FileSystem σ} {s s₁ : σ}

/-- What `encrypt` wrote, wherever and whenever it is read, `inspect` shows as what the arguments
asked for, and as `encrypt` reported it: the algorithm, the mode, the scope, the recipients in
order, the format, and the lengths. -/
theorem inspect_after_encrypt (hT : C.aes256GcmSiv.Tagged) (hG : C.chacha20Poly1305.Tagged)
    (hP : ∀ msg : ProtoEnvelope, msg.Typed → decode (encode msg) = .ok msg)
    (hA : MessagesApart encode decodeSections) {args : EncryptArgs} (hfits : args.Fits)
    {report : EncryptReport}
    (hrun : (args.run C E K hexDecode encode rng r fs).exec s = (.ok report, s₁)) :
    ∃ spend plaintext data mid ids, spendOfSeed C hexDecode args.spendSeed = .ok spend ∧
      (fs.read args.file).exec s = (.ok plaintext, mid) ∧
      (fs.write report.output data).exec mid = (.ok ⟨⟩, s₁) ∧ args.Addresses E spend ids ∧
      report = ⟨args.output.getD (encryptedPath args.file), args.algorithm.algorithm.debug,
        String.ofList args.scope, (AccessMode.ofScopeBased args.scopeBased).label, ids.length,
        args.format.label, data.length⟩ ∧
      ∀ (iargs : InspectArgs) (t t₁ : σ), iargs.format = args.format →
        (fs.read iargs.file).exec t = (.ok data, t₁) →
        (iargs.run C m decode decodeSections fs).exec t =
          (.ok (.single (args.shown C iargs.file ids plaintext data)), t₁) := by
  obtain ⟨spend, scope, plaintext, e, data, mid, hspend, hscope, hread, hmade, hdata, hwrite,
    hreport⟩ := EncryptArgs.run_eq_ok_iff.mp hrun
  obtain ⟨rfl, hv⟩ := (Scope.new_eq_ok_iff _ _).mp hscope
  obtain ⟨maker, hmakes, hplain, hmaker, hmode, -, -, halg, hlists, hmfits⟩ :=
    EncryptArgs.exists_maker hmade
  have hshows := hmakes.shows hG
  have henvelope : args.format.envelope m decode data = .ok e :=
    hmakes.reread hT (hmaker ▸ hv) hP m (hmfits rfl hfits) hdata
  have hproto : args.format = .proto → ∀ env, decodeSections data = .ok env →
      env.sections = [] := by
    intro hf env henv
    rw [hf] at hdata
    obtain rfl := Except.ok.inj hdata
    exact hA _ e.toProto_typed env henv
  have hscopeEq : e.scope = ⟨args.scope⟩ := hshows.scope.trans hmaker
  refine ⟨spend, plaintext, data, mid, e.accessEntries.map AccessEntry.readKeyId, hspend, hread,
    hwrite, EncryptArgs.addresses_of_maker hshows.recipients hmaker hmode hlists, ?_,
    fun iargs t t₁ hformat hfile => ?_⟩
  · rw [hreport, EncryptArgs.report, hshows.algorithm, halg, hshows.accessMode, hmode, hscopeEq,
      List.length_map]
    rfl
  · rw [← hformat] at henvelope hproto
    rw [InspectArgs.run_exec hfile, InspectArgs.inspect_of_envelope henvelope hproto, orStop,
      mapFault_ok, InspectArgs.inspectSingle, EncryptArgs.shown, ← hformat, ← halg, ← hmode,
      ← hshows.mlkem, ← hshows.algorithm, ← hshows.accessMode, ← hplain, ← hshows.ciphertext,
      ← hshows.version, List.length_map]
    simp only [EncryptedEnvelope.metadata, hscopeEq]
    rfl

/-- The generated coding tells the messages apart. -/
lemma prost_messagesApart : MessagesApart Prost.encodeEnvelope Prost.decode := by
  intro msg _ env henv
  rw [Prost.decode, Prost.encodeEnvelope, Prost.fields_write, ok_bind, bind_eq_ok_iff] at henv
  obtain ⟨sections, hsections, henv⟩ := henv
  obtain rfl := Except.ok.inj henv
  have hnone : (pure [] : Except String (List ProtoSection)) = .ok sections := by
    simpa using hsections
  exact (Except.ok.inj hnone).symm

theorem inspect_after_encrypt_owner : ∃ report files,
    (ownerEncrypts.run base58Arrays base58Text (Transparent.mlKem packArray)
      Hex.decode Prost.encodeEnvelope
      (Transparent.rng packArray) 0 pathFiles).exec
        (Function.update (fun _ => none) ['f'] (some [1, 2])) = (.ok report, files) ∧
    ∃ ids data, ((⟨report.output, .binary⟩ : InspectArgs).run base58Arrays .wrapping
      Prost.decodeEnvelope Prost.decode pathFiles).exec files =
        (.ok (.single (ownerEncrypts.shown base58Arrays report.output ids [1, 2] data)),
          files) := by
  obtain ⟨report, files, hrun⟩ := exists_ownerEncrypts
  obtain ⟨spend, plaintext, data, mid, ids, -, hread, hwrite, -, -, hinspect⟩ :=
    inspect_after_encrypt (m := .wrapping) Transparent.aead_tagged Transparent.aead_tagged
      (fun _ h => Prost.decodeEnvelope_encode h) prost_messagesApart
      (fun _ => ⟨by decide +kernel, .inl rfl⟩ : ownerEncrypts.Fits) hrun
  obtain ⟨hplain, rfl⟩ := Prod.mk.inj hread
  obtain rfl : [1, 2] = plaintext := Except.ok.inj hplain
  obtain ⟨-, rfl⟩ := Prod.mk.inj hwrite
  refine ⟨report, _, hrun, ids, data, hinspect ⟨report.output, .binary⟩ _ _ rfl ?_⟩
  simp only [pathFiles, Program.exec_effect, Function.update_self]
  rfl

/-- What `inspect` shows of a section that was made of a content. -/
def SectionContent.shown (algorithm : Algorithm) (c : SectionContent) : SectionReport where
  name := c.name
  scope := c.scope.display
  algorithm := algorithm.debug
  accessMode := AccessMode.scopeBased.label
  recipients := 1
  ciphertextSize := c.plaintext.length

/-- What it shows of a container. -/
def SectionedEnvelope.entries (self : SectionedEnvelope (Vector UInt8)) : List SectionReport :=
  self.metadata.sections.map fun entry => ⟨entry.name, entry.scope, entry.algorithm.debug,
    entry.accessMode.label, entry.recipientCount, entry.ciphertextLen⟩

/-- The sections of an owner are shown as they were made, in order. -/
lemma entries_eq (hG : C.chacha20Poly1305.Tagged) {own : List (OwnSection K spend)}
    {algorithm : Algorithm} (hown : ∀ x ∈ own, x.ForScope ∧ x.maker.algorithm = algorithm) :
    SectionedEnvelope.entries ⟨1, own.map OwnSection.sec⟩ =
      (own.map OwnSection.content).map (SectionContent.shown algorithm) := by
  rw [SectionedEnvelope.entries, SectionedEnvelope.metadata, List.map_map, List.map_map,
    List.map_map]
  refine List.map_congr_left fun x hx => ?_
  obtain ⟨hfor, rfl⟩ := hown x hx
  have hshows := x.made.shows hG
  have hone := hshows.recipients.length_eq_one hfor.scopeBased
  rw [List.length_map] at hone
  simp only [Function.comp_apply, Section.metadata, EncryptedEnvelope.metadata, hshows.scope,
    hshows.algorithm, hshows.accessMode, hshows.ciphertext, hone, hfor.scopeBased]
  rfl

variable {readValues : List Char → Except String (List Json)}

/-- What `encrypt-sections` wrote, wherever and whenever it is read, `inspect` shows section by
section as the definitions and their files have it, in their order. -/
theorem inspect_after_encrypt_sections (m : Overflow)
    (decode : Bytes → Except String ProtoEnvelope) (hT : C.aes256GcmSiv.Tagged)
    (hG : C.chacha20Poly1305.Tagged) (hP : DecodeInverts encodeSections decodeSections)
    {args : EncryptSectionsArgs} {report : SectionsReport}
    (hrun : (args.run K rng readValues fs C hexDecode encodeSections r).exec s =
      (.ok report, s₁)) :
    ∃ defs plaintexts data s₀ mid, (args.sectionDefs readValues fs).exec s = (.ok defs, s₀) ∧
      (defs.mapM fun d => fs.read d.file).exec s₀ = (.ok plaintexts, mid) ∧
      (fs.write report.output data).exec mid = (.ok ⟨⟩, s₁) ∧
      report = ⟨args.output.getD "output.roks".toList, defs.map fun d => (d.name, d.scope),
        args.algorithm.label, args.format.label, data.length⟩ ∧
      (args.Fits defs data → ∀ (iargs : InspectArgs) (t t₁ : σ), iargs.format = args.format →
        (fs.read iargs.file).exec t = (.ok data, t₁) →
        (iargs.run C m decode decodeSections fs).exec t = (.ok (.sectioned {
          file := iargs.file
          version := 1
          sections := defs.length
          format := args.format.label
          fileSize := data.length
          entries := (defs.zipWith SectionDef.content plaintexts).map
            (SectionContent.shown args.algorithm.algorithm) }), t₁)) := by
  obtain ⟨spend, defs, plaintexts, data, s₀, mid, -, hdefs, hreads, hwrite, hreport, own, hown,
    hcontents, hne, hdata⟩ := EncryptSectionsArgs.run_eq_ok hrun
  refine ⟨defs, plaintexts, data, s₀, mid, hdefs, hreads, hwrite, hreport,
    fun hfits iargs t t₁ hformat hfile => ?_⟩
  have hsectioned : args.format.sectioned m decodeSections data =
      .ok ⟨1, own.map OwnSection.sec⟩ :=
    sectioned_reread hT hP m (fun x hx => (hown x hx).1) hcontents hdata hfits
  have hcount : (own.map OwnSection.sec).length = defs.length := by
    have hlength := congrArg List.length hcontents
    rw [List.length_map, List.length_zipWith, Program.length_of_exec_mapM hreads] at hlength
    rw [List.length_map, hlength, min_self]
  rw [← hformat] at hsectioned
  rw [InspectArgs.run_exec hfile, InspectArgs.inspect_of_sectioned hsectioned (by simpa using hne),
    orStop, mapFault_ok, ← hcontents, ← entries_eq hG hown, ← hformat, ← hcount]
  rfl

theorem inspect_after_encrypt_sections_two : ∃ report files,
    (twoFlags.run (Transparent.mlKem packArray) (Transparent.rng packArray)
      (fun _ => .error "") pathFiles base58Arrays
      Hex.decode Prost.encode 0).exec twoFiles =
        (.ok report, files) ∧
    ∃ size, ((⟨report.output, .proto⟩ : InspectArgs).run base58Arrays .wrapping
      Prost.decodeEnvelope Prost.decode pathFiles).exec files = (.ok (.sectioned {
        file := report.output
        version := 1
        sections := 2
        format := "protobuf"
        fileSize := size
        entries := [⟨['a'], "/x", Algorithm.eciesX25519ChaCha20.debug, "scope-based", 1, 1⟩,
          ⟨['b'], "/y", Algorithm.eciesX25519ChaCha20.debug, "scope-based", 1, 1⟩] }), files) := by
  obtain ⟨report, files, hrun⟩ := exists_twoFlags
  have hdecodes : DecodeInverts Prost.encode Prost.decode := fun _ h => Prost.decode_encode h
  obtain ⟨defs, plaintexts, data, s₀, mid, hdefs, hreads, hwrite, -, hinspect⟩ :=
    inspect_after_encrypt_sections .wrapping Prost.decodeEnvelope Transparent.aead_tagged
      Transparent.aead_tagged hdecodes hrun
  have htwo : (twoFlags.sectionDefs (fun _ => .error "") pathFiles).exec twoFiles =
      (.ok [⟨['a'], ['/', 'x'], ['f']⟩, ⟨['b'], ['/', 'y'], ['g']⟩], twoFiles) := rfl
  obtain ⟨htwo, rfl⟩ := Prod.mk.inj (htwo.symm.trans hdefs)
  obtain rfl := Except.ok.inj htwo
  have hfiles : (([⟨['a'], ['/', 'x'], ['f']⟩, ⟨['b'], ['/', 'y'], ['g']⟩] : List SectionDef).mapM
      fun d => pathFiles.read d.file).exec twoFiles = (.ok [[1], [2]], twoFiles) := rfl
  obtain ⟨hfiles, rfl⟩ := Prod.mk.inj (hfiles.symm.trans hreads)
  obtain rfl := Except.ok.inj hfiles
  obtain ⟨-, rfl⟩ := Prod.mk.inj hwrite
  refine ⟨report, _, hrun, data.length, hinspect (fun h => by cases h) ⟨report.output, .proto⟩ _ _
    rfl ?_⟩
  simp only [pathFiles, Program.exec_effect, Function.update_self]
  rfl

end Shown

end ReadOnlyKeys
