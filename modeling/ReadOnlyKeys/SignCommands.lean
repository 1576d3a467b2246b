import ReadOnlyKeys.KeyCommands

/-!
# The commands on signatures

`sign` and `verify` go with any file. The keys are texts that `keygen` prints.
-/
namespace ReadOnlyKeys
open Outcome Wire

variable {ρ σ : Type} {C : Crypto (Vector UInt8)}

structure SignArgs where
  file : List Char
  spendSeed : String
  output : Option (List Char)

structure VerifyArgs where
  file : List Char
  sig : List Char
  spendPublic : String

/-- What `sign` prints. -/
structure SignReport where
  output : List Char
  signature : String

/-- What `verify` prints. It exits with 1 where the signature is invalid. -/
inductive VerifyReport where
  | valid
  | invalid (e : RokError)

namespace Sign

/-- Sign arbitrary data with a spend key. -/
def sign (spendKey : SpendKeyPair C) (data : Bytes) : Vector UInt8 64 :=
  C.sign spendKey.signingKey data

/-- Verify a signature against a spend public key. -/
def verify (C : Crypto (Vector UInt8)) (verifyingKey : C.VerifyingKey) (data : Bytes)
    (signatureBytes : Vector UInt8 64) : Result Unit :=
  require (C.verify verifyingKey data signatureBytes = true) .signatureVerificationFailed

end Sign

section Signatures

variable (C) (E : KeyText)

/-- `rok sign`. -/
def SignArgs.run (hexEncode : Bytes → String) (hexDecode : String → Except String Bytes)
    (fs : FileSystem σ) (args : SignArgs) : Program CommandError σ SignReport := do
  let spend ← Program.attempt (spendOfSeed C hexDecode args.spendSeed)
  let data ← onFiles (fs.read args.file)
  let signature := asBytes (Sign.sign spend data)
  let outputPath := args.output.getD (signaturePath args.file)
  onFiles (fs.write outputPath signature)
  return ⟨outputPath, hexEncode signature⟩

/-- `rok verify`. -/
def VerifyArgs.run (fs : FileSystem σ) (args : VerifyArgs) :
    Program CommandError σ VerifyReport := do
  let spendVk ← Program.attempt (orStop (Encoding.decodeSpendPublic C E args.spendPublic))
  let data ← onFiles (fs.read args.file)
  let sigBytes ← onFiles (fs.read args.sig)
  let signature ← Program.attempt (okOr (ofSlice 64 sigBytes)
    (.text s!"signature must be exactly 64 bytes, got {sigBytes.length}"))
  match Sign.verify C spendVk data signature with
  | .ok _ => return .valid
  | .error (.err e) => return .invalid e
  | .error .panic => Program.attempt (.error .panic)

variable {C} {E} {rng : CryptoRng (Vector UInt8) ρ} {hexEncode : Bytes → String}
  {hexDecode : String → Except String Bytes} {r r' : ρ} {fs : FileSystem σ} {s s₁ : σ}

/-- What a run of `sign` that succeeds has done. -/
lemma SignArgs.run_eq_ok {args : SignArgs} {report : SignReport}
    (h : (args.run C hexEncode hexDecode fs).exec s = (.ok report, s₁)) :
    ∃ spend data mid, spendOfSeed C hexDecode args.spendSeed = .ok spend ∧
      (fs.read args.file).exec s = (.ok data, mid) ∧
      (fs.write report.output (asBytes (Sign.sign spend data))).exec mid = (.ok ⟨⟩, s₁) := by
  simp only [run, Program.exec_bind_eq_ok_iff, Program.exec_attempt_eq_ok_iff,
    exec_onFiles_eq_ok_iff, Program.exec_pure, Prod.mk.injEq, Except.ok.injEq] at h
  obtain ⟨spend, _, ⟨hspend, rfl⟩, data, mid, hread, _, _, hwrite, rfl, rfl⟩ := h
  exact ⟨spend, data, mid, hspend, hread, hwrite⟩

/-- A run of `verify` with a text of a key that is read: a signature of another length is an error,
and the others are decided by the scheme. -/
lemma VerifyArgs.run_exec {args : VerifyArgs} {vk : C.VerifyingKey} {data sig : Bytes} {s₂ : σ}
    (hkey : Encoding.decodeSpendPublic C E args.spendPublic = .ok vk)
    (hdata : (fs.read args.file).exec s = (.ok data, s₁))
    (hsig : (fs.read args.sig).exec s₁ = (.ok sig, s₂)) :
    (args.run C E fs).exec s = match ofSlice 64 sig with
      | some signature => (.ok (if C.verify vk data signature = true then .valid
          else .invalid .signatureVerificationFailed), s₂)
      | none => (.error (.err (.text s!"signature must be exactly 64 bytes, got {sig.length}")),
          s₂) := by
  have hfile := (exec_onFiles_eq_ok_iff (fs.read args.file) s s₁ data).mpr hdata
  have hsigFile := (exec_onFiles_eq_ok_iff (fs.read args.sig) s₁ s₂ sig).mpr hsig
  rw [run, hkey, orStop, mapFault_ok, Program.exec_attempt_bind]
  simp only [Program.exec_bind, hfile, hsigFile]
  cases (ofSlice 64 sig : Option (Vector UInt8 64)) with
  | none => rfl
  | some signature =>
    simp only [okOr_some, Program.exec_attempt, Sign.verify, require]
    by_cases hv : C.verify vk data signature = true
    · simp only [if_pos hv]
      rfl
    · simp only [if_neg hv]
      rfl

/-- The texts that `keygen` prints go together: the seed is the seed of the owner whose public key
and whose root read key they are, and `derive` with this seed prints keys below that root. What
`sign` signs with it, `verify` accepts with the public key, wherever and whenever both files are
read; a signature file of another length it refuses. -/
theorem keygen_texts (hC : C.Correct) (hG : C.SigningRoundtrip) (hR : C.StaticRoundtrip)
    (hS : C.StaticOfBytes) (hE : E.Inverts C)
    (hV : ∀ vk, C.verifyingFromBytes (C.verifyingAsBytes vk) = some vk)
    (hH : ∀ bs, hexDecode (hexEncode bs) = .ok bs) {label : String} {report : KeygenReport}
    (hkeygen : (keygen C E hexEncode rng label).run r = .ok (report, r')) :
    ∃ spend, spendOfSeed C hexDecode report.seed = .ok spend ∧
      (Encoding.decodeExportedReadKey E report.root.exportedKey >>= ReadKeyPair.importKey C) =
        .ok spend.deriveRootReadKey ∧
      (∀ (dargs : DeriveArgs) (texts : KeyTexts), dargs.spendSeed = report.seed →
        dargs.run C E hexDecode = .ok texts → ∃ key, spend.DerivesAt dargs.scope key ∧
          (Encoding.decodeExportedReadKey E texts.exportedKey >>= ReadKeyPair.importKey C) =
            .ok key) ∧
      ∀ (fs : FileSystem σ) (sargs : SignArgs) (s s₁ : σ) (signed : SignReport),
        sargs.spendSeed = report.seed →
        (sargs.run C hexEncode hexDecode fs).exec s = (.ok signed, s₁) →
        ∃ data mid signature, (fs.read sargs.file).exec s = (.ok data, mid) ∧
          (fs.write signed.output (asBytes (signature : Vector UInt8 64))).exec mid =
            (.ok ⟨⟩, s₁) ∧
          ∀ (vargs : VerifyArgs) (t t₁ t₂ : σ) (data' sig : Bytes),
            vargs.spendPublic = report.publicKey →
            (fs.read vargs.file).exec t = (.ok data', t₁) →
            (fs.read vargs.sig).exec t₁ = (.ok sig, t₂) →
            (data' = data → sig = asBytes signature →
              (vargs.run C E fs).exec t = (.ok .valid, t₂)) ∧
            (sig.length ≠ 64 → (vargs.run C E fs).exec t = (.error (.err (.text
              s!"signature must be exactly 64 bytes, got {sig.length}")), t₂)) := by
  rw [keygen, run_bind_eq_ok_iff] at hkeygen
  obtain ⟨spend, _, -, hreport⟩ := hkeygen
  obtain ⟨rfl, -⟩ := (run_pure_eq_ok_iff _ _ _ _).mp hreport
  have hseed : spendOfSeed C hexDecode (hexEncode (asBytes spend.seed)) = .ok spend := by
    rw [spendOfSeed, hH, mapErr_ok, ok_bind, ofSlice_asBytes, okOr_some, ok_bind,
      SpendKeyPair.fromSeed, SpendKeyPair.seed, hG]
    rfl
  refine ⟨spend, hseed, (KeyTexts.read hR hS hE Scope.root_valid _).1,
    fun dargs texts hsame hrun => ?_, fun fs sargs s s₁ signed hsame hrun => ?_⟩
  · rw [DeriveArgs.run, bind_eq_ok_iff] at hrun
    obtain ⟨key, hkey, htexts⟩ := hrun
    obtain rfl := Except.ok.inj htexts
    obtain ⟨spend', hspend', hderives⟩ := derivedKey_eq_ok_iff.mp hkey
    obtain rfl := Except.ok.inj (hseed.symm.trans (hsame ▸ hspend'))
    obtain ⟨_, hmade⟩ := hderives.eq_fromSecretBytes
    have hscope : key.scope = ⟨dargs.scope⟩ := congrArg ReadKeyPair.scope hmade
    exact ⟨key, hderives, (KeyTexts.read hR hS hE (hscope ▸ hderives.1) _).1⟩
  · obtain ⟨spend', data, mid, hspend', hread, hwrite⟩ := SignArgs.run_eq_ok hrun
    obtain rfl := Except.ok.inj (hseed.symm.trans (hsame ▸ hspend'))
    refine ⟨data, mid, Sign.sign spend data, hread, hwrite,
      fun vargs t t₁ t₂ data' sig hpublic hfile hsig => ?_⟩
    have hkey : Encoding.decodeSpendPublic C E vargs.spendPublic = .ok spend.verifyingKey := by
      rw [hpublic, Encoding.decodeSpendPublic_encode hE hV]
    rw [VerifyArgs.run_exec hkey hfile hsig]
    constructor
    · rintro rfl rfl
      have hverify : C.verify spend.verifyingKey data' (Sign.sign spend data') = true :=
        hC.verify_sign _ _
      rw [ofSlice_asBytes]
      simp only [hverify, if_true]
    · intro hlength
      rw [(ofSlice_vector_eq_none_iff sig).mpr hlength]

theorem keygen_texts_owner : ∃ report r',
    (keygen base58Arrays base58Text Hex.encode (Transparent.rng packArray) "owner").run 0 =
      .ok (report, r') ∧
    ∃ spend, spendOfSeed base58Arrays Hex.decode report.seed = .ok spend ∧
      (Encoding.decodeExportedReadKey base58Text report.root.exportedKey >>=
        ReadKeyPair.importKey base58Arrays) = .ok spend.deriveRootReadKey := by
  obtain ⟨report, r', hkeygen⟩ : ∃ report r', (keygen base58Arrays base58Text Hex.encode
      (Transparent.rng packArray) "owner").run 0 = .ok (report, r') := ⟨_, _, rfl⟩
  obtain ⟨spend, hspend, hroot, -⟩ := keygen_texts (σ := List Char → Option Bytes)
    base58Arrays_correct (fun _ => rfl) (fun _ => rfl) (fun s => ⟨s, rfl⟩) base58Text_inverts
    (fun _ => rfl) Hex.decode_encode hkeygen
  exact ⟨report, r', hkeygen, spend, hspend, hroot⟩

end Signatures

end ReadOnlyKeys
