import ReadOnlyKeys.FileNames
import ReadOnlyKeys.Lib.Hex
import ReadOnlyKeys.Truncation

/-!
# The commands on files

`encrypt` reads a file and writes an envelope, in one of two formats. `decrypt`
reads an envelope and writes its plaintext. What a command prints is its result
here.
-/
namespace ReadOnlyKeys
open Outcome Wire

variable {ρ σ : Type} {C : Crypto (Vector UInt8)}

/-- What ends a command on files. -/
inductive CommandError where
  | cli (e : CliError)
  | text (msg : String)

inductive AlgorithmChoice where
  | classical
  | hybrid

structure EncryptArgs where
  file : List Char
  scope : List Char
  spendSeed : String
  recipient : List String
  output : Option (List Char)
  format : Format
  scopeBased : Bool
  algorithm : AlgorithmChoice

structure DecryptArgs where
  file : List Char
  key : String
  spendPublic : String
  output : Option (List Char)
  format : Format

/-- The algorithm that is chosen. -/
def AlgorithmChoice.algorithm : AlgorithmChoice → Algorithm
  | .classical => .eciesX25519ChaCha20
  | .hybrid => .hybridX25519MlKemChaCha20

def Format.label : Format → String
  | .binary => "binary"
  | .proto => "protobuf"

def AccessMode.label : AccessMode → String
  | .recipient => "per-recipient"
  | .scopeBased => "scope-based"

/-- What `encrypt` prints. -/
structure EncryptReport where
  output : List Char
  algorithm : String
  scope : String
  accessMode : String
  recipients : ℕ
  format : String
  size : ℕ

/-- What `decrypt` prints. -/
structure DecryptReport where
  output : List Char
  algorithm : String
  scope : String
  size : ℕ

/-- An error of the crates ends the command. -/
def orStop {α : Type} (x : Result α) : Except (Fault CommandError) α :=
  mapFault x fun e => .cli (.rok e)

/-- So does an error of the file system. -/
def onFiles {α : Type} (p : Program CliError σ α) : Program CommandError σ α := p.mapError .cli

/-- The spend key of a seed in hex. -/
def spendOfSeed (C : Crypto (Vector UInt8)) (hexDecode : String → Except String Bytes)
    (spendSeed : String) : Except (Fault CommandError) (SpendKeyPair C) := do
  let seedBytes ← mapErr (hexDecode spendSeed) .text
  let seed ← okOr (ofSlice 32 seedBytes) (.text "spend seed must be 32 bytes (64 hex chars)")
  return SpendKeyPair.fromSeed C seed

namespace EncryptArgs

section Run

variable (C) (E : KeyText) (K : MlKem768 (Vector UInt8) ρ)
  (rng : CryptoRng (Vector UInt8) ρ) (r : ρ)

/-- The recipients of the public keys that are named. -/
def recipients (self : EncryptArgs) :
    Except (Fault CommandError) (List (Recipient (Vector UInt8))) :=
  self.recipient.mapM fun encoded => do
    let (publicKey, _) ← orStop (Encoding.decodeReadPublic E encoded)
    return ⟨publicKey, KeyId.fromPublicBytes C (asBytes publicKey)⟩

/-- The builder of classical encryption. -/
def builder (self : EncryptArgs) (spend : SpendKeyPair C) (scope : Scope) :
    Except (Fault CommandError) (EncryptBuilder C) := do
  let builder := (EncryptBuilder.new C .eciesX25519ChaCha20 scope).setSpendKey spend
  if self.scopeBased then return builder.setScopeBased
  else do
    let recipients ← self.recipients C E
    require (recipients.isEmpty = false)
      (.text "at least one --recipient is required, or use --scope-based")
    return builder.addRecipients recipients

/-- The envelope of a plaintext. -/
def envelope (self : EncryptArgs) (spend : SpendKeyPair C) (scope : Scope) (plaintext : Bytes) :
    Except (Fault CommandError) (EncryptedEnvelope (Vector UInt8)) :=
  match self.algorithm with
  | .hybrid => do
    require (self.scopeBased = true) (.text "hybrid algorithm requires --scope-based")
    require (self.recipient.isEmpty = true)
      (.text "hybrid algorithm does not support --recipient (scope-based only)")
    let (envelope, _) ← orStop ((hybridEncrypt K rng plaintext scope spend).run r)
    return envelope
  | .classical => do
    let builder ← self.builder C E spend scope
    let (envelope, _) ← orStop ((builder.encrypt rng plaintext).run r)
    return envelope

end Run

end EncryptArgs

namespace Format

/-- The bytes of an envelope. -/
def bytes (encode : ProtoEnvelope → Bytes) (self : Format)
    (envelope : EncryptedEnvelope (Vector UInt8)) : Except (Fault CommandError) Bytes :=
  match self with
  | .binary => do
    let slice ← Slice.ofBytes envelope.toBytes
    return slice.bytes
  | .proto => .ok (envelope.toProtoBytes encode)

/-- The envelope of bytes. -/
def envelope (m : Overflow) (decode : Bytes → Except String ProtoEnvelope) (self : Format)
    (data : Bytes) : Result (EncryptedEnvelope (Vector UInt8)) :=
  match self with
  | .binary => Slice.ofBytes data >>= EncryptedEnvelope.fromBytes m
  | .proto => EncryptedEnvelope.fromProtoBytes decode data

end Format

/-- What a run of `encrypt` reports. -/
def EncryptArgs.report (self : EncryptArgs) (envelope : EncryptedEnvelope (Vector UInt8))
    (size : ℕ) : EncryptReport where
  output := self.output.getD (encryptedPath self.file)
  algorithm := envelope.algorithm.debug
  scope := envelope.scope.display
  accessMode := envelope.accessMode.label
  recipients := envelope.accessEntries.length
  format := self.format.label
  size := size

/-- What a run of `decrypt` reports. -/
def DecryptArgs.report (self : DecryptArgs) (envelope : EncryptedEnvelope (Vector UInt8))
    (size : ℕ) : DecryptReport where
  output := self.output.getD (decryptedPath self.file)
  algorithm := envelope.algorithm.debug
  scope := envelope.scope.display
  size := size

section Commands

variable (C) (E : KeyText) (K : MlKem768 (Vector UInt8) ρ)

/-- `rok encrypt`. -/
def EncryptArgs.run (hexDecode : String → Except String Bytes) (encode : ProtoEnvelope → Bytes)
    (rng : CryptoRng (Vector UInt8) ρ) (r : ρ) (fs : FileSystem σ) (args : EncryptArgs) :
    Program CommandError σ EncryptReport := do
  let spend ← Program.attempt (spendOfSeed C hexDecode args.spendSeed)
  let scope ← Program.attempt (orStop (Scope.new args.scope))
  let plaintext ← onFiles (fs.read args.file)
  let envelope ← Program.attempt (args.envelope C E K rng r spend scope plaintext)
  let envelopeBytes ← Program.attempt (args.format.bytes encode envelope)
  onFiles (fs.write (args.output.getD (encryptedPath args.file)) envelopeBytes)
  return args.report envelope envelopeBytes.length

/-- `rok decrypt`. -/
def DecryptArgs.run (m : Overflow) (decode : Bytes → Except String ProtoEnvelope)
    (fs : FileSystem σ) (args : DecryptArgs) : Program CommandError σ DecryptReport := do
  let exported ← Program.attempt (orStop (Encoding.decodeExportedReadKey E args.key))
  let readKey ← Program.attempt (orStop (ReadKeyPair.importKey C exported))
  let spendVk ← Program.attempt (orStop (Encoding.decodeSpendPublic C E args.spendPublic))
  let envelopeBytes ← onFiles (fs.read args.file)
  let envelope ← Program.attempt (orStop (args.format.envelope m decode envelopeBytes))
  let plaintext ← Program.attempt (orStop (decryptByAlgorithm K envelope readKey spendVk))
  onFiles (fs.write (args.output.getD (decryptedPath args.file)) plaintext)
  return args.report envelope plaintext.length

end Commands

namespace SectionMaker

def scope : SectionMaker C → Scope
  | classical b _ => b.scope
  | hybrid scope _ => scope

def scopeBased : SectionMaker C → Bool
  | classical b _ => b.scopeBased
  | hybrid _ _ => true

def algorithm : SectionMaker C → Algorithm
  | classical _ _ => .eciesX25519ChaCha20
  | hybrid _ _ => .hybridX25519MlKemChaCha20

/-- The binary format can carry what was made. -/
def Fits : SectionMaker C → Prop
  | classical b _ =>
      (toUtf8 b.scope.path).length ≤ 65535 ∧ (b.scopeBased = true ∨ b.recipients.length ≤ 65535)
  | hybrid scope _ => (toUtf8 scope.path).length ≤ 65535

variable {K : MlKem768 (Vector UInt8) ρ} {spendKey : SpendKeyPair C} {maker : SectionMaker C}
  {e : EncryptedEnvelope (Vector UInt8)}

theorem Makes.scope_eq (h : maker.Makes K spendKey e) : e.scope = maker.scope := by
  cases maker with
  | classical b plaintext =>
    obtain ⟨_, _, _, _, rng, s, s', hrun⟩ := h
    obtain ⟨_, _, henc⟩ := b.encrypt_run hrun
    exact henc.scope
  | hybrid scope plaintext =>
    obtain ⟨rng, s, s', hrun⟩ := h
    obtain ⟨_, hhyb⟩ := hybridEncrypt_run hrun
    exact hhyb.scope_eq

/-- The binary format carries it exactly then, and the messages always. -/
theorem Makes.limits (h : maker.Makes K spendKey e) (hT : C.aes256GcmSiv.Tagged)
    (hv : maker.scope.Valid) : (2 ≤ e.version ∧ e.WithinLimits ↔ maker.Fits) ∧
      ∀ ct ∈ e.ephemeralMlkemCiphertext, ct ≠ [] := by
  cases maker with
  | classical b plaintext =>
    obtain ⟨_, _, _, _, rng, s, s', hrun⟩ := h
    obtain ⟨sk, recipients, henc⟩ := b.encrypt_run hrun
    have hversion : 2 ≤ e.version := by
      rw [henc.version]
      decide
    have hscope : b.scope.Valid := hv
    refine ⟨?_, by simp [henc.mlkem]⟩
    rw [henc.withinLimits_iff hT hscope, henc.recipients_length_le_iff, Fits]
    exact and_iff_right hversion
  | hybrid scope plaintext =>
    obtain ⟨rng, s, s', hrun⟩ := h
    obtain ⟨scopeKey, hhyb⟩ := hybridEncrypt_run hrun
    obtain ⟨_, _, ct, _, hs⟩ := hhyb.sealed
    have hversion : 2 ≤ e.version := by
      rw [hhyb.version]
      decide
    have hscope : scope.Valid := hv
    refine ⟨?_, fun x hx hnil => ?_⟩
    · rw [hhyb.withinLimits_iff hT hscope, Fits]
      exact and_iff_right hversion
    · rw [hs.mlkemCiphertext, Option.mem_some_iff] at hx
      have hlength : (asBytes ct).length = 1088 := by simp
      rw [hx, hnil] at hlength
      cases hlength

/-- What was made is read back from its bytes, in both formats. -/
theorem Makes.reread (h : maker.Makes K spendKey e) (hT : C.aes256GcmSiv.Tagged)
    (hv : maker.scope.Valid) {encode : ProtoEnvelope → Bytes}
    {decode : Bytes → Except String ProtoEnvelope}
    (hP : ∀ msg : ProtoEnvelope, msg.Typed → decode (encode msg) = .ok msg) (m : Overflow)
    {format : Format} (hfits : format = .binary → maker.Fits) {data : Bytes}
    (hdata : format.bytes encode e = .ok data) : format.envelope m decode data = .ok e := by
  obtain ⟨hlimits, hmlkem⟩ := h.limits hT hv
  have hscope : e.scope.Valid := h.scope_eq ▸ hv
  cases format with
  | binary =>
    rw [Format.bytes, bind_eq_ok_iff] at hdata
    obtain ⟨slice, hslice, hdata⟩ := hdata
    obtain rfl := Except.ok.inj hdata
    unfold Slice.ofBytes at hslice
    split_ifs at hslice with hsize
    obtain rfl := Except.ok.inj hslice
    rw [Format.envelope, Slice.ofBytes, dif_pos hsize, ok_bind,
      EncryptedEnvelope.fromBytes_toBytes_iff m rfl]
    exact hlimits.mpr (hfits rfl)
  | proto =>
    obtain rfl := Except.ok.inj hdata
    rw [Format.envelope, EncryptedEnvelope.fromProtoBytes, EncryptedEnvelope.toProtoBytes,
      hP _ e.toProto_typed, mapErr_ok, ok_bind,
      EncryptedEnvelope.tryFromProto_toProto hscope hmlkem]

/-- The decision of the reader's command, for any key where the makers listed keys. -/
theorem Makes.decrypts (hC : C.Correct) (hR : C.StaticRoundtrip) (hK : K.Correct)
    {k : ReadKeyPair C} (h : maker.Makes K spendKey e)
    (hk : maker.scopeBased = true → k.Genuine spendKey) (hn : maker.Apart k) :
    ∃ err : RokError, err.noAccess = true ∧
      decryptByAlgorithm K e k spendKey.verifyingKey =
        if maker.admits k = true then .ok maker.plaintext else fail err := by
  cases hm : maker.scopeBased with
  | true => exact h.decryptByAlgorithm_eq hC hR hK (hk hm) hn
  | false =>
    cases maker with
    | hybrid scope plaintext => cases hm
    | classical b plaintext =>
      obtain ⟨hsk, halg, hh, ρ', rng, s, s', hrun⟩ := h
      obtain ⟨sk, recipients, henc⟩ := b.encrypt_run hrun
      obtain rfl : spendKey = sk := Option.some.inj (hsk.symm.trans henc.spendKey_eq)
      have hb : b.scopeBased = false := hm
      refine ⟨_, noAccess_noMatchingAccessEntry (k.keyId.toBase58 C), ?_⟩
      have hdispatch : decryptByAlgorithm K e k spendKey.verifyingKey =
          decrypt e k spendKey.verifyingKey := by
        rw [decryptByAlgorithm, henc.algorithm, halg]
      rw [hdispatch, henc.decrypt_recipientMode hC hb (hh hb) k (hn hb)]
      by_cases hmem : k.publicKey ∈ b.recipients.map Recipient.readPublicKey
      · rw [if_pos hmem, if_pos ((admits_listed_iff hb).mpr hmem)]
        rfl
      · rw [if_neg hmem, if_neg fun hadmits => hmem ((admits_listed_iff hb).mp hadmits)]

end SectionMaker

namespace EncryptArgs

variable (args : EncryptArgs) (E : KeyText)

/-- May the key read what the command writes? The keys above the scope, or those named. -/
def Admits (scope : Scope) (k : ReadKeyPair C) : Prop :=
  if args.scopeBased then k.scope.isAncestorOf scope = true
  else ∃ encoded ∈ args.recipient, ∃ named,
    Encoding.decodeReadPublic E encoded = .ok (k.publicKey, named)

/-- No key that is named has the reader's identifier, other than the reader's. -/
def Apart (k : ReadKeyPair C) : Prop :=
  ∀ encoded ∈ args.recipient, ∀ publicKey named,
    Encoding.decodeReadPublic E encoded = .ok (publicKey, named) →
      KeyId.fromPublicBytes C (asBytes publicKey) = k.keyId → publicKey = k.publicKey

/-- The lengths are within the widths of the format. -/
def Fits : Prop := args.format = .binary →
  (toUtf8 args.scope).length ≤ 65535 ∧ (args.scopeBased = true ∨ args.recipient.length ≤ 65535)

/-- The recipient is the key of the text. -/
def Reads (C : Crypto (Vector UInt8)) (E : KeyText) (encoded : String)
    (r : Recipient (Vector UInt8)) : Prop :=
  (∃ named, Encoding.decodeReadPublic E encoded = .ok (r.readPublicKey, named)) ∧
    r.keyId = KeyId.fromPublicBytes C (asBytes r.readPublicKey)

/-- Where recipients are listed, they are the keys of the texts, in order. -/
def Lists (args : EncryptArgs) (E : KeyText) : SectionMaker C → Prop
  | .classical b _ => b.scopeBased = false → List.Forall₂ (Reads C E) args.recipient b.recipients
  | .hybrid _ _ => True

variable {args E}

theorem recipients_eq_ok {rs : List (Recipient (Vector UInt8))}
    (h : args.recipients C E = .ok rs) : List.Forall₂ (Reads C E) args.recipient rs := by
  refine (forall₂_of_mapM_eq_ok h).imp fun encoded r hr => ?_
  rw [bind_eq_ok_iff] at hr
  obtain ⟨⟨publicKey, named⟩, hdecode, hr⟩ := hr
  obtain rfl := Except.ok.inj hr
  exact ⟨⟨named, by simpa [orStop] using hdecode⟩, rfl⟩

variable {K : MlKem768 (Vector UInt8) ρ} {rng : CryptoRng (Vector UInt8) ρ} {r : ρ}
  {spend : SpendKeyPair C} {scope : Scope} {plaintext : Bytes}
  {e : EncryptedEnvelope (Vector UInt8)}

/-- The envelope is made as the arguments say. -/
theorem exists_maker (h : args.envelope C E K rng r spend scope plaintext = .ok e) :
    ∃ maker : SectionMaker C, maker.Makes K spend e ∧ maker.plaintext = plaintext ∧
      maker.scope = scope ∧ maker.scopeBased = args.scopeBased ∧
      (∀ k, maker.admits k = true ↔ args.Admits E scope k) ∧
      (∀ k, (args.scopeBased = false → args.Apart E k) → maker.Apart k) ∧
      maker.algorithm = args.algorithm.algorithm ∧ args.Lists E maker ∧
      (scope.path = args.scope → args.Fits → args.format = .binary → maker.Fits) := by
  rw [envelope] at h
  cases halg : args.algorithm with
  | hybrid =>
    simp only [halg, bind_eq_ok_iff, require_eq_ok_iff] at h
    obtain ⟨_, hscopeBased, _, _, ⟨e', r'⟩, hrun, h⟩ := h
    obtain rfl := Except.ok.inj h
    rw [orStop, mapFault_eq_ok_iff] at hrun
    refine ⟨.hybrid scope plaintext, ⟨rng, r, r', hrun⟩, rfl, rfl, hscopeBased.symm, fun k => ?_,
      fun _ _ => trivial, rfl, trivial, fun hpath hfits hbinary => ?_⟩
    · rw [Admits, if_pos hscopeBased]
      rfl
    · rw [SectionMaker.Fits, hpath]
      exact (hfits hbinary).1
  | classical =>
    simp only [halg, bind_eq_ok_iff] at h
    obtain ⟨b, hb, ⟨e', r'⟩, hrun, h⟩ := h
    obtain rfl := Except.ok.inj h
    rw [orStop, mapFault_eq_ok_iff] at hrun
    unfold builder at hb
    by_cases hscopeBased : args.scopeBased = true
    · simp only [if_pos hscopeBased] at hb
      obtain rfl := Except.ok.inj hb
      refine ⟨.classical _ plaintext, ⟨rfl, rfl, fun hfalse => ?_, ρ, rng, r, r', hrun⟩, rfl, rfl,
        hscopeBased.symm, fun k => ?_, fun _ _ hfalse => ?_, rfl, fun hfalse => ?_,
        fun hpath hfits hbinary => ?_⟩
      · cases hfalse
      · rw [Admits, if_pos hscopeBased]
        rfl
      · cases hfalse
      · cases hfalse
      · rw [SectionMaker.Fits]
        exact ⟨hpath ▸ (hfits hbinary).1, .inl rfl⟩
    · have hfalse : args.scopeBased = false := by simpa using hscopeBased
      simp only [if_neg hscopeBased, bind_eq_ok_iff] at hb
      obtain ⟨rs, hrs, _, _, hb⟩ := hb
      obtain rfl := Except.ok.inj hb
      have hnamed := recipients_eq_ok hrs
      have hadded : ((EncryptBuilder.new C .eciesX25519ChaCha20 scope).setSpendKey
          spend).addRecipients rs = ⟨.eciesX25519ChaCha20, scope, rs, some spend, false⟩ := rfl
      rw [hadded] at hrun
      refine ⟨.classical _ plaintext, ⟨rfl, rfl, fun _ x hx => ?_, ρ, rng, r, r', hrun⟩, rfl, rfl,
        hfalse.symm, fun k => ?_, fun k hapart _ x hx hid => ?_, rfl, fun _ => hnamed,
        fun hpath hfits hbinary => ?_⟩
      · obtain ⟨_, _, _, hid⟩ := exists_mem_of_forall₂ hnamed hx
        exact hid
      · rw [Admits, if_neg hscopeBased, SectionMaker.admits_listed_iff rfl, List.mem_map]
        constructor
        · intro hk
          obtain ⟨x, hx, hxk⟩ := hk
          obtain ⟨encoded, hencoded, ⟨named, hdecode⟩, _⟩ := exists_mem_of_forall₂ hnamed hx
          exact ⟨encoded, hencoded, named, hxk ▸ hdecode⟩
        · intro hk
          obtain ⟨encoded, hencoded, named, hdecode⟩ := hk
          obtain ⟨x, hx, ⟨named', hdecode'⟩, _⟩ := exists_mem_of_forall₂ hnamed.flip hencoded
          obtain ⟨hkey, _⟩ := Prod.mk.inj (Except.ok.inj (hdecode'.symm.trans hdecode))
          exact ⟨x, hx, hkey⟩
      · obtain ⟨encoded, hencoded, ⟨named, hdecode⟩, _⟩ := exists_mem_of_forall₂ hnamed hx
        exact hapart hfalse encoded hencoded _ named hdecode hid
      · obtain ⟨hlength, hcount⟩ := hfits hbinary
        rw [SectionMaker.Fits]
        refine ⟨hpath ▸ hlength, .inr ?_⟩
        rw [← hnamed.length_eq]
        exact hcount.resolve_left hscopeBased

end EncryptArgs

section Pipeline

variable {E : KeyText} {K : MlKem768 (Vector UInt8) ρ} {hexDecode : String → Except String Bytes}
  {encode : ProtoEnvelope → Bytes} {decode : Bytes → Except String ProtoEnvelope} {m : Overflow}
  {rng : CryptoRng (Vector UInt8) ρ} {r : ρ} {fs : FileSystem σ} {s s₁ : σ}

/-- A call to the file system, as a step of a command. -/
lemma exec_onFiles_eq_ok_iff {α : Type} (p : Program CliError σ α) (s s' : σ) (a : α) :
    (onFiles p).exec s = (.ok a, s') ↔ p.exec s = (.ok a, s') := by
  rw [onFiles, Program.exec_mapError, Prod.ext_iff, Prod.ext_iff]
  simp

/-- What a run of `encrypt` that succeeds has done. -/
theorem EncryptArgs.run_eq_ok_iff {args : EncryptArgs} {report : EncryptReport} :
    (args.run C E K hexDecode encode rng r fs).exec s = (.ok report, s₁) ↔
      ∃ spend scope plaintext envelope data mid,
        spendOfSeed C hexDecode args.spendSeed = .ok spend ∧ Scope.new args.scope = .ok scope ∧
        (fs.read args.file).exec s = (.ok plaintext, mid) ∧
        args.envelope C E K rng r spend scope plaintext = .ok envelope ∧
        args.format.bytes encode envelope = .ok data ∧
        (fs.write report.output data).exec mid = (.ok ⟨⟩, s₁) ∧
        report = args.report envelope data.length := by
  simp only [run, Program.exec_bind_eq_ok_iff, Program.exec_attempt_eq_ok_iff,
    exec_onFiles_eq_ok_iff, Program.exec_pure, Prod.mk.injEq, Except.ok.injEq]
  constructor
  · intro h
    obtain ⟨spend, _, ⟨hspend, rfl⟩, scope, _, ⟨hscope, rfl⟩, plaintext, mid, hread, envelope, _,
      ⟨hmade, rfl⟩, data, _, ⟨hdata, rfl⟩, _, _, hwrite, rfl, rfl⟩ := h
    exact ⟨spend, scope, plaintext, envelope, data, mid, hspend, by simpa [orStop] using hscope,
      hread, hmade, hdata, hwrite, rfl⟩
  · intro h
    obtain ⟨spend, scope, plaintext, envelope, data, mid, hspend, hscope, hread, hmade, hdata,
      hwrite, rfl⟩ := h
    exact ⟨spend, _, ⟨hspend, rfl⟩, scope, _, ⟨by simpa [orStop] using hscope, rfl⟩, plaintext, mid,
      hread, envelope, _, ⟨hmade, rfl⟩, data, _, ⟨hdata, rfl⟩, _, _, hwrite, rfl, rfl⟩

/-- A run of `decrypt` on a file with an envelope, with texts of keys that are read back. -/
theorem DecryptArgs.run_exec {args : DecryptArgs} {k : ReadKeyPair C} {vk : C.VerifyingKey}
    {e : EncryptedEnvelope (Vector UInt8)} {data : Bytes}
    (hkey : (Encoding.decodeExportedReadKey E args.key >>= ReadKeyPair.importKey C) = .ok k)
    (hspend : Encoding.decodeSpendPublic C E args.spendPublic = .ok vk)
    (hread : (fs.read args.file).exec s = (.ok data, s₁))
    (henvelope : args.format.envelope m decode data = .ok e) :
    (args.run C E K m decode fs).exec s = match decryptByAlgorithm K e k vk with
      | .ok plaintext => (do
          onFiles (fs.write (args.output.getD (decryptedPath args.file)) plaintext)
          return args.report e plaintext.length : Program CommandError σ DecryptReport).exec s₁
      | .error fault => (orStop (.error fault), s₁) := by
  rw [bind_eq_ok_iff] at hkey
  obtain ⟨exported, hexported, himport⟩ := hkey
  have hfile : (onFiles (fs.read args.file)).exec s = (.ok data, s₁) :=
    (exec_onFiles_eq_ok_iff _ _ _ _).mpr hread
  unfold run
  rw [hexported, orStop, mapFault_ok, Program.exec_attempt_bind]
  simp only [himport, hspend, orStop, mapFault_ok, Program.exec_attempt_bind]
  rw [Program.exec_bind, hfile]
  simp only [henvelope, mapFault_ok, Program.exec_attempt_bind]
  cases decryptByAlgorithm K e k vk <;> rfl

/-- The texts of a key and of its owner are read back. -/
lemma texts_read (hR : C.StaticRoundtrip) (hS : C.StaticOfBytes) (hE : E.Inverts C)
    (hV : ∀ vk, C.verifyingFromBytes (C.verifyingAsBytes vk) = some vk) {k : ReadKeyPair C}
    (hv : k.scope.Valid) (spend : SpendKeyPair C) {key spendPublic : String}
    (hkey : key = Encoding.encodeExportedReadKey C E k.exportKey)
    (hpublic : spendPublic = Encoding.encodeSpendPublic C E spend.verifyingKey) :
    (Encoding.decodeExportedReadKey E key >>= ReadKeyPair.importKey C) = .ok k ∧
      Encoding.decodeSpendPublic C E spendPublic = .ok spend.verifyingKey := by
  have hscope : k.exportKey.scope.Valid := hv
  constructor
  · rw [hkey, Encoding.decodeExportedReadKey_encode hE hscope, ok_bind, k.importKey_exportKey hR hS]
  · rw [hpublic, Encoding.decodeSpendPublic_encode hE hV]

/-- What `encrypt` wrote, wherever and whenever it is read, `decrypt` gives back to the keys that
the arguments admit, and it writes nothing for another: of the owner's keys where the scope
decides, and of all keys where they are named. -/
theorem encrypt_then_decrypt (hC : C.Correct) (hR : C.StaticRoundtrip) (hS : C.StaticOfBytes)
    (hT : C.aes256GcmSiv.Tagged) (hK : K.Correct) (hE : E.Inverts C)
    (hV : ∀ vk, C.verifyingFromBytes (C.verifyingAsBytes vk) = some vk)
    (hP : ∀ msg : ProtoEnvelope, msg.Typed → decode (encode msg) = .ok msg) {args : EncryptArgs}
    (hfits : args.Fits) {report : EncryptReport}
    (hrun : (args.run C E K hexDecode encode rng r fs).exec s = (.ok report, s₁)) :
    ∃ spend scope plaintext data mid, spendOfSeed C hexDecode args.spendSeed = .ok spend ∧
      Scope.new args.scope = .ok scope ∧ (fs.read args.file).exec s = (.ok plaintext, mid) ∧
      (fs.write report.output data).exec mid = (.ok ⟨⟩, s₁) ∧
      ∀ (k : ReadKeyPair C) (dargs : DecryptArgs) (t t₁ : σ),
        (args.scopeBased = true →
          Relation.ReflTransGen ReadKeyPair.Delegates spend.deriveRootReadKey k) →
        (args.scopeBased = false → args.Apart E k) → k.scope.Valid →
        dargs.key = Encoding.encodeExportedReadKey C E k.exportKey →
        dargs.spendPublic = Encoding.encodeSpendPublic C E spend.verifyingKey →
        dargs.format = args.format → (fs.read dargs.file).exec t = (.ok data, t₁) →
        (args.Admits E scope k → ∃ e, e.scope = scope ∧ (dargs.run C E K m decode fs).exec t = (do
          onFiles (fs.write (dargs.output.getD (decryptedPath dargs.file)) plaintext)
          return dargs.report e plaintext.length : Program CommandError σ DecryptReport).exec t₁) ∧
        (¬ args.Admits E scope k → ∃ err : RokError, err.noAccess = true ∧
          (dargs.run C E K m decode fs).exec t = (.error (.err (.cli (.rok err))), t₁)) := by
  obtain ⟨spend, scope, plaintext, e, data, mid, hspend, hscope, hread, hmade, hdata, hwrite, -⟩ :=
    EncryptArgs.run_eq_ok_iff.mp hrun
  obtain ⟨hpath, hv⟩ := (Scope.new_eq_ok_iff _ _).mp hscope
  obtain ⟨maker, hmakes, hplain, hmaker, hmode, hadmits, hapart, -, -, hmfits⟩ :=
    EncryptArgs.exists_maker hmade
  refine ⟨spend, scope, plaintext, data, mid, hspend, hscope, hread, hwrite,
    fun k dargs t t₁ hk hclear hkv hkey hpublic hformat hfile => ?_⟩
  have henvelope : dargs.format.envelope m decode data = .ok e := by
    rw [hformat]
    exact hmakes.reread hT (hmaker ▸ hv) hP m (hmfits (congrArg Scope.path hpath) hfits) hdata
  obtain ⟨hexported, hverifying⟩ := texts_read hR hS hE hV hkv spend hkey hpublic
  obtain ⟨err, herr, hopen⟩ := hmakes.decrypts hC hR hK
    (fun hm => ReadKeyPair.genuine_of_delegated hR (hk (hmode ▸ hm))) (hapart k hclear)
  have hexec := DecryptArgs.run_exec (K := K) (m := m) hexported hverifying hfile henvelope
  constructor
  · intro hadmitted
    rw [hopen, if_pos ((hadmits k).mpr hadmitted), hplain] at hexec
    exact ⟨e, hmakes.scope_eq.trans hmaker, hexec⟩
  · intro hrefused
    rw [hopen, if_neg (fun hadmitted => hrefused ((hadmits k).mp hadmitted))] at hexec
    exact ⟨err, herr, hexec⟩

lemma base58Arrays_correct : base58Arrays.Correct where
  dh_comm := (Transparent.crypto_correct packArray).dh_comm
  chacha := Transparent.aead_correct
  aes := Transparent.aead_correct
  verify_sign := (Transparent.crypto_correct packArray).verify_sign

/-- Files by their paths. -/
def pathFiles : FileSystem (List Char → Option Bytes) where
  read path := Program.effect fun files =>
    ((files path).elim (.error (.err (.io "not found"))) .ok, files)
  createDirAll _ := pure ⟨⟩
  write path data := Program.effect fun files =>
    (.ok ⟨⟩, Function.update files path (some data))

/-- The seed of the owner. -/
def ownerSeed : String := Hex.encode (asBytes (zeros 32 : Vector UInt8 32))

lemma spendOfSeed_ownerSeed : spendOfSeed base58Arrays Hex.decode ownerSeed = .ok fileOwner := by
  rw [spendOfSeed, ownerSeed, Hex.decode_encode, mapErr_ok, ok_bind, ofSlice_asBytes]
  rfl

/-- The owner encrypts `f` for `/a`. -/
def ownerEncrypts : EncryptArgs where
  file := ['f']
  scope := ['/', 'a']
  spendSeed := ownerSeed
  recipient := []
  output := none
  format := .binary
  scopeBased := true
  algorithm := .classical

/-- The root key decrypts a file into `g`. -/
def rootDecrypts (file : List Char) : DecryptArgs where
  file := file
  key := Encoding.encodeExportedReadKey base58Arrays base58Text
    fileOwner.deriveRootReadKey.exportKey
  spendPublic := Encoding.encodeSpendPublic base58Arrays base58Text fileOwner.verifyingKey
  output := some ['g']
  format := .binary

/-- That run of `encrypt` succeeds. -/
lemma exists_ownerEncrypts : ∃ report files,
    (ownerEncrypts.run base58Arrays base58Text (Transparent.mlKem packArray)
      Hex.decode Prost.encodeEnvelope
      (Transparent.rng packArray) 0 pathFiles).exec
        (Function.update (fun _ => none) ['f'] (some [1, 2])) = (.ok report, files) := by
  obtain ⟨e, he, hsize⟩ : ∃ e, ownerEncrypts.envelope base58Arrays base58Text
      (Transparent.mlKem packArray) (Transparent.rng packArray) 0 fileOwner ⟨['/', 'a']⟩ [1, 2] =
        .ok e ∧ e.toBytes.length ≤ isizeMax := ⟨_, rfl, by decide +kernel⟩
  have hbytes : ownerEncrypts.format.bytes Prost.encodeEnvelope e = .ok e.toBytes := by
    show (Slice.ofBytes e.toBytes >>= _) = _
    rw [Slice.ofBytes, dif_pos hsize, ok_bind]
    rfl
  exact ⟨_, _, EncryptArgs.run_eq_ok_iff.mpr ⟨fileOwner, ⟨['/', 'a']⟩, [1, 2], e, e.toBytes, _,
    spendOfSeed_ownerSeed, by decide, rfl, he, hbytes, rfl, rfl⟩⟩

theorem encrypt_then_decrypt_root : ∃ report files,
    (ownerEncrypts.run base58Arrays base58Text (Transparent.mlKem packArray)
      Hex.decode Prost.encodeEnvelope
      (Transparent.rng packArray) 0 pathFiles).exec
        (Function.update (fun _ => none) ['f'] (some [1, 2])) = (.ok report, files) ∧
    ∃ report' files', ((rootDecrypts report.output).run base58Arrays base58Text
      (Transparent.mlKem packArray) .wrapping Prost.decodeEnvelope pathFiles).exec files =
        (.ok report', files') ∧ files' ['g'] = some [1, 2] := by
  obtain ⟨report, files, hrun⟩ := exists_ownerEncrypts
  obtain ⟨spend, scope, plaintext, data, mid, hspend, hscope, hread, hwrite, hopen⟩ :=
    encrypt_then_decrypt (m := .wrapping) base58Arrays_correct (fun _ => rfl) (fun s => ⟨s, rfl⟩)
      Transparent.aead_tagged (Transparent.mlKem_correct packArray) base58Text_inverts
      (fun _ => rfl) (fun _ h => Prost.decodeEnvelope_encode h)
      (fun _ => ⟨by decide +kernel, .inl rfl⟩ : ownerEncrypts.Fits) hrun
  have howner : spendOfSeed base58Arrays Hex.decode ownerEncrypts.spendSeed = .ok fileOwner :=
    spendOfSeed_ownerSeed
  have hscope' : Scope.new ownerEncrypts.scope = .ok ⟨['/', 'a']⟩ := by decide
  obtain rfl := Except.ok.inj (howner.symm.trans hspend)
  obtain rfl := Except.ok.inj (hscope'.symm.trans hscope)
  obtain ⟨hplain, rfl⟩ := Prod.mk.inj hread
  obtain rfl : [1, 2] = plaintext := Except.ok.inj hplain
  obtain ⟨-, rfl⟩ := Prod.mk.inj hwrite
  have hadmits : ownerEncrypts.Admits base58Text ⟨['/', 'a']⟩ fileOwner.deriveRootReadKey := by
    show Scope.isAncestorOf _ _ = true
    decide
  have hfile : ∀ files, files report.output = some data →
      (pathFiles.read report.output).exec files = (.ok data, files) := by
    intro files hfiles
    simp only [pathFiles, Program.exec_effect, hfiles]
    rfl
  obtain ⟨e, _, hdecrypt⟩ := (hopen fileOwner.deriveRootReadKey (rootDecrypts report.output) _ _
    (fun _ => .refl) (fun h => by cases h) Scope.root_valid rfl rfl rfl
    (hfile _ (Function.update_self _ _ _))).1 hadmits
  exact ⟨report, _, hrun, _, Function.update _ ['g'] (some [1, 2]), hdecrypt,
    Function.update_self _ _ _⟩

end Pipeline

end ReadOnlyKeys
