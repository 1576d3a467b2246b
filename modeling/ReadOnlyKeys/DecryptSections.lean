import ReadOnlyKeys.AlgorithmLabel
import ReadOnlyKeys.Sectioned
import Mathlib.Data.List.Infix

/-!
# The `decrypt-sections` command

The command tries one key on every section and tells a section it may not read
from a broken one by the text of the error. Files are written through `write`,
which may fail.
-/
namespace ReadOnlyKeys
open Outcome Wire

/-- `str::contains`. -/
def textContains (text needle : String) : Bool := needle.toList <:+: text.toList

/-- Is it the text of an error for want of access? -/
def RokError.noAccess (e : RokError) : Bool :=
  textContains e.display "scope mismatch" || textContains e.display "no matching access entry"

/-- A text contains what its beginning contains. -/
theorem textContains_append {text needle : String} (h : textContains text needle = true)
    (rest : String) : textContains (text ++ rest) needle = true := by
  refine decide_eq_true ((of_decide_eq_true h).trans ?_)
  rw [String.toList_append]
  exact (List.prefix_append _ _).isInfix

theorem noAccess_scopeMismatch (keyScope dataScope : String) :
    (RokError.scopeMismatch keyScope dataScope).noAccess = true := by
  have h : textContains "scope mismatch: key scope '" "scope mismatch" = true := by decide +kernel
  rw [RokError.noAccess, Bool.or_eq_true]
  exact .inl (textContains_append (textContains_append (textContains_append
    (textContains_append h keyScope) _) dataScope) _)

theorem noAccess_noMatchingAccessEntry (keyId : String) :
    (RokError.noMatchingAccessEntry keyId).noAccess = true := by
  have h : textContains "no matching access entry for key id " "no matching access entry" = true := by
    decide +kernel
  rw [RokError.noAccess, Bool.or_eq_true]
  exact .inr (textContains_append h keyId)

/-- What ends the command. -/
inductive CliError where
  | rok (e : RokError)
  | io (msg : String)

/-- `PathBuf::join`, with `/` as the separator. -/
def joinPath (dir name : List Char) : List Char :=
  if name.head? = some '/' then name
  else if dir = [] ∨ dir.getLast? = some '/' then dir ++ name
  else dir ++ '/' :: name

/-- The counts the command reports. -/
structure SectionCounts where
  decrypted : ℕ
  skipped : ℕ
  deriving DecidableEq, Repr

/-- All sections, or those that were asked for. -/
def selectedSection (names : List (List Char)) (name : List Char) : Bool :=
  names.isEmpty || names.contains name

variable {A : ℕ → Type} [ByteArrays A] {ρ σ : Type} {C : Crypto A}

section Command

variable (K : MlKem768 A ρ) (readKey : ReadKeyPair C) (spendVk : C.VerifyingKey)
  (outputDir : List Char) (names : List (List Char))
  (write : List Char → Bytes → Program CliError σ PUnit)

/-- One round of the loop over the sections. -/
def decryptSection (counts : SectionCounts) (sec : Section A) :
    Program CliError σ SectionCounts :=
  if selectedSection names sec.name = false then return counts
  else match decryptByAlgorithm K sec.envelope readKey spendVk with
    | .ok plaintext => do
      write (joinPath outputDir sec.name) plaintext
      return { counts with decrypted := counts.decrypted + 1 }
    | .error (.err e) =>
        if e.noAccess then return { counts with skipped := counts.skipped + 1 }
        else Program.attempt (.error (.err (.rok e)))
    | .error .panic => Program.attempt (.error .panic)

/-- The loop over the sections. -/
def decryptSections (sections : List (Section A)) : Program CliError σ SectionCounts :=
  sections.foldlM (decryptSection K readKey spendVk outputDir names write) ⟨0, 0⟩

end Command

/-- How the envelope of a section was made. -/
inductive SectionMaker (C : Crypto A) where
  | classical (b : EncryptBuilder C) (plaintext : Bytes)
  | hybrid (scope : Scope) (plaintext : Bytes)

namespace SectionMaker

def plaintext : SectionMaker C → Bytes
  | classical _ plaintext => plaintext
  | hybrid _ plaintext => plaintext

/-- The envelope comes out of the encryption, with some generator, and names honest keys. -/
def Makes (K : MlKem768 A ρ) (spendKey : SpendKeyPair C) (e : EncryptedEnvelope A) :
    SectionMaker C → Prop
  | classical b plaintext => b.spendKey = some spendKey ∧ b.algorithm = .eciesX25519ChaCha20 ∧
      (b.scopeBased = false → Honest C b.recipients) ∧
      ∃ (ρ' : Type) (rng : CryptoRng A ρ') (s s' : ρ'), (b.encrypt rng plaintext).run s = .ok (e, s')
  | hybrid scope plaintext => ∃ (rng : CryptoRng A ρ) (s s' : ρ),
      (hybridEncrypt K rng plaintext scope spendKey).run s = .ok (e, s')

/-- May the key read what was made? -/
def admits (k : ReadKeyPair C) : SectionMaker C → Bool
  | classical b _ =>
      if b.scopeBased then k.scope.isAncestorOf b.scope
      else k.publicKey ∈ b.recipients.map Recipient.readPublicKey
  | hybrid scope _ => k.scope.isAncestorOf scope

theorem admits_listed_iff {b : EncryptBuilder C} {plaintext : Bytes} {k : ReadKeyPair C}
    (hb : b.scopeBased = false) : (classical b plaintext).admits k = true ↔
      k.publicKey ∈ b.recipients.map Recipient.readPublicKey := by
  simp [admits, hb]

/-- No listed public key other than the reader's has the reader's key identifier. -/
def Apart (k : ReadKeyPair C) : SectionMaker C → Prop
  | classical b _ => b.scopeBased = false → NoCollision k b.recipients
  | hybrid _ _ => True

end SectionMaker

/-- A section that the owner of a spend key made. -/
structure OwnSection (K : MlKem768 A ρ) (spendKey : SpendKeyPair C) where
  sec : Section A
  maker : SectionMaker C
  made : maker.Makes K spendKey sec.envelope

/-- Opening a hybrid envelope with a genuine key, by whether its scope reaches. -/
theorem HybridEncrypted.hybridDecrypt_eq_ite {K : MlKem768 A ρ} {plaintext : Bytes} {T : Scope}
    {spendKey : SpendKeyPair C} {scopeKey k : ReadKeyPair C} {e : EncryptedEnvelope A}
    (h : HybridEncrypted K plaintext T spendKey scopeKey e) (hC : C.Correct)
    (hR : C.StaticRoundtrip) (hK : K.Correct) (hk : k.Genuine spendKey) :
    hybridDecrypt K e k spendKey.verifyingKey =
      if k.scope.isAncestorOf T = true then .ok plaintext
      else fail (.scopeMismatch k.scope.display T.display) := by
  split_ifs with hanc
  · exact h.hybridDecrypt_genuine hC hR hK hk hanc
  · rw [h.hybridDecrypt_eq hC, ReadKeyPair.reach_of_not_ancestor hanc, error_bind]

variable {K : MlKem768 A ρ} {spendKey : SpendKeyPair C}

/-- A key that may read a section gets the plaintext, another one an error for want of access. -/
theorem SectionMaker.Makes.decryptByAlgorithm_eq (hC : C.Correct) (hR : C.StaticRoundtrip)
    (hK : K.Correct) {k : ReadKeyPair C} (hk : k.Genuine spendKey) {maker : SectionMaker C}
    {e : EncryptedEnvelope A} (h : maker.Makes K spendKey e) (hn : maker.Apart k) :
    ∃ err : RokError, err.noAccess = true ∧
      decryptByAlgorithm K e k spendKey.verifyingKey =
        if maker.admits k = true then .ok maker.plaintext else fail err := by
  cases maker with
  | classical b plaintext =>
    obtain ⟨hsk, halg, hh, ρ', rng, s, s', hrun⟩ := h
    obtain ⟨sk, recipients, henc⟩ := b.encrypt_run hrun
    obtain rfl : spendKey = sk := Option.some.inj (hsk.symm.trans henc.spendKey_eq)
    have hdispatch : decryptByAlgorithm K e k spendKey.verifyingKey =
        decrypt e k spendKey.verifyingKey := by
      rw [decryptByAlgorithm, henc.algorithm, halg]
    rw [hdispatch]
    cases hb : b.scopeBased with
    | true =>
      refine ⟨_, noAccess_scopeMismatch k.scope.display b.scope.display, ?_⟩
      rw [henc.decrypt_genuine hC hR hb hk]
      simp [admits, SectionMaker.plaintext, hb]
    | false =>
      refine ⟨_, noAccess_noMatchingAccessEntry (k.keyId.toBase58 C), ?_⟩
      rw [henc.decrypt_recipientMode hC hb (hh hb) k (hn hb)]
      simp [admits, SectionMaker.plaintext, hb]
  | hybrid scope plaintext =>
    obtain ⟨rng, s, s', hrun⟩ := h
    obtain ⟨scopeKey, hhyb⟩ := hybridEncrypt_run hrun
    refine ⟨_, noAccess_scopeMismatch k.scope.display scope.display, ?_⟩
    rw [decryptByAlgorithm, hhyb.algorithm]
    exact hhyb.hybridDecrypt_eq_ite hC hR hK hk

namespace OwnSection

/-- The sections that were asked for and that the key may read. -/
def opened (k : ReadKeyPair C) (names : List (List Char)) (own : List (OwnSection K spendKey)) :
    List (OwnSection K spendKey) :=
  own.filter fun x => selectedSection names x.sec.name && x.maker.admits k

/-- The sections that were asked for and that the key may not read. -/
def withheld (k : ReadKeyPair C) (names : List (List Char)) (own : List (OwnSection K spendKey)) :
    List (OwnSection K spendKey) :=
  own.filter fun x => selectedSection names x.sec.name && !x.maker.admits k

end OwnSection

section Loop

variable {k : ReadKeyPair C} {outputDir : List Char} {names : List (List Char)}
  {write : List Char → Bytes → Program CliError σ PUnit}

/-- What one round does with a section of the owner. -/
theorem decryptSection_own (hC : C.Correct) (hR : C.StaticRoundtrip) (hK : K.Correct)
    (hk : k.Genuine spendKey) (x : OwnSection K spendKey) (hn : x.maker.Apart k)
    (counts : SectionCounts) :
    decryptSection K k spendKey.verifyingKey outputDir names write counts x.sec =
      if selectedSection names x.sec.name = false then return counts
      else if x.maker.admits k = true then do
        write (joinPath outputDir x.sec.name) x.maker.plaintext
        return ⟨counts.decrypted + 1, counts.skipped⟩
      else return ⟨counts.decrypted, counts.skipped + 1⟩ := by
  obtain ⟨err, herr, hd⟩ := x.made.decryptByAlgorithm_eq hC hR hK hk hn
  rw [decryptSection, hd]
  split_ifs with hsel hadm
  · rfl
  · rfl
  · simp only [herr, if_true]

/-- From any counts, the loop writes the plaintexts of the sections that open, in order, and
counts. -/
theorem foldlM_decryptSection (hC : C.Correct) (hR : C.StaticRoundtrip) (hK : K.Correct)
    (hk : k.Genuine spendKey) (own : List (OwnSection K spendKey))
    (hn : ∀ x ∈ own, x.maker.Apart k) (counts : SectionCounts) :
    (own.map OwnSection.sec).foldlM
        (decryptSection K k spendKey.verifyingKey outputDir names write) counts = do
      forM (OwnSection.opened k names own) fun x =>
        write (joinPath outputDir x.sec.name) x.maker.plaintext
      return ⟨counts.decrypted + (OwnSection.opened k names own).length,
        counts.skipped + (OwnSection.withheld k names own).length⟩ := by
  induction own generalizing counts with
  | nil =>
    simp [OwnSection.opened, OwnSection.withheld]
  | cons x own ih =>
    have hrest := ih fun y hy => hn y (List.mem_cons_of_mem _ hy)
    rw [List.map_cons, List.foldlM_cons,
      decryptSection_own hC hR hK hk x (hn x List.mem_cons_self)]
    cases hsel : selectedSection names x.sec.name with
    | false =>
      simp [hrest, OwnSection.opened, OwnSection.withheld, hsel]
    | true =>
      cases hadm : x.maker.admits k with
      | true =>
        simp [hrest, OwnSection.opened, OwnSection.withheld, hsel, hadm, Nat.add_assoc,
          Nat.add_comm 1]
      | false =>
        simp [hrest, OwnSection.opened, OwnSection.withheld, hsel, hadm, Nat.add_assoc,
          Nat.add_comm 1]

/-- The command does on the owner's sections what the rules of access say: it writes the
plaintexts that the key may read, counts the others that were asked for, and only a failing write
ends it. -/
theorem decryptSections_exact (hC : C.Correct) (hR : C.StaticRoundtrip) (hK : K.Correct)
    (hk : Relation.ReflTransGen ReadKeyPair.Delegates spendKey.deriveRootReadKey k)
    (own : List (OwnSection K spendKey)) (hn : ∀ x ∈ own, x.maker.Apart k)
    (outputDir : List Char) (names : List (List Char))
    (write : List Char → Bytes → Program CliError σ PUnit) :
    (decryptSections K k spendKey.verifyingKey outputDir names write (own.map OwnSection.sec) = do
      forM (OwnSection.opened k names own) fun x =>
        write (joinPath outputDir x.sec.name) x.maker.plaintext
      return ⟨(OwnSection.opened k names own).length, (OwnSection.withheld k names own).length⟩) ∧
    ((∀ path data st, ∃ st', (write path data).exec st = (.ok ⟨⟩, st')) → ∀ st, ∃ st',
      (decryptSections K k spendKey.verifyingKey outputDir names write
        (own.map OwnSection.sec)).exec st =
          (.ok ⟨(OwnSection.opened k names own).length, (OwnSection.withheld k names own).length⟩,
            st')) := by
  have hloop : decryptSections K k spendKey.verifyingKey outputDir names write
      (own.map OwnSection.sec) = do
        forM (OwnSection.opened k names own) fun x =>
          write (joinPath outputDir x.sec.name) x.maker.plaintext
        return ⟨(OwnSection.opened k names own).length,
          (OwnSection.withheld k names own).length⟩ := by
    rw [decryptSections, foldlM_decryptSection hC hR hK (ReadKeyPair.genuine_of_delegated hR hk) own
      hn, Nat.zero_add, Nat.zero_add]
  refine ⟨hloop, fun hwrite st => ?_⟩
  have hwrites : ∃ st', (forM (OwnSection.opened k names own) fun x =>
      write (joinPath outputDir x.sec.name) x.maker.plaintext).exec st = (.ok ⟨⟩, st') ∧ True := by
    refine Program.exec_forM_ok (fun _ _ => True) (fun _ x _ s _ _ => ?_) trivial
    obtain ⟨s', hs'⟩ := hwrite (joinPath outputDir x.sec.name) x.maker.plaintext s
    exact ⟨s', hs', trivial⟩
  obtain ⟨st', hexec, _⟩ := hwrites
  refine ⟨st', ?_⟩
  rw [hloop, Program.exec_bind, hexec]
  rfl

end Loop

/-- Files kept in a list. -/
def appendFile (path : List Char) (data : Bytes) :
    Program CliError (List (List Char × Bytes)) PUnit :=
  Program.effect fun files => (.ok ⟨⟩, files ++ [(path, data)])

theorem decryptSections_exact_mixed :
    ∃ (own : List (OwnSection (Transparent.mlKem packArray) (zeroSpend packArray)))
      (k : ReadKeyPair Transparent.arrays), own.length = 3 ∧
      zeroRoot.deriveChildSegment ['a'] = .ok k ∧
      (decryptSections (Transparent.mlKem packArray) k (zeroSpend packArray).verifyingKey
        ['o'] [] appendFile (own.map OwnSection.sec)).exec [] =
          (.ok ⟨1, 2⟩, [(['o', '/', 'x'], [1, 2])]) := by
  obtain ⟨k, hk, hscope, hne, hid⟩ : ∃ k, zeroRoot.deriveChildSegment ['a'] = .ok k ∧
      k.scope = ⟨['/', 'a']⟩ ∧ k.publicKey ≠ zeroChild.publicKey ∧ k.keyId ≠ zeroChild.keyId :=
    ⟨_, rfl, rfl, by decide +kernel, by decide +kernel⟩
  obtain ⟨r₁, h₁⟩ : ∃ r, ((zeroBuilder packArray ['/', 'a', '/', 'b']).setScopeBased.encrypt
    (Transparent.rng packArray) [1, 2]).run 0 = .ok r := ⟨_, rfl⟩
  obtain ⟨r₂, h₂⟩ : ∃ r, (((zeroBuilder packArray ['/', 'a']).addRecipient
    zeroChild.recipient).encrypt (Transparent.rng packArray) [3]).run 0 = .ok r := ⟨_, rfl⟩
  obtain ⟨r₃, h₃⟩ : ∃ r, (hybridEncrypt (Transparent.mlKem packArray) (Transparent.rng packArray)
    [4] ⟨['/', 'c']⟩ (zeroSpend packArray)).run 0 = .ok r := ⟨_, rfl⟩
  have hh : Honest Transparent.arrays [zeroChild.recipient] := by
    intro r hr
    rw [List.mem_singleton.mp hr]
    rfl
  let byScope : OwnSection (Transparent.mlKem packArray) (zeroSpend packArray) :=
    ⟨⟨['x'], r₁.1⟩, .classical (zeroBuilder packArray ['/', 'a', '/', 'b']).setScopeBased [1, 2],
      rfl, rfl, (fun h => by cases h), ℕ, _, 0, r₁.2, h₁⟩
  let byList : OwnSection (Transparent.mlKem packArray) (zeroSpend packArray) :=
    ⟨⟨['y'], r₂.1⟩, .classical ((zeroBuilder packArray ['/', 'a']).addRecipient zeroChild.recipient)
      [3], rfl, rfl, fun _ => hh, ℕ, _, 0, r₂.2, h₂⟩
  let byHybrid : OwnSection (Transparent.mlKem packArray) (zeroSpend packArray) :=
    ⟨⟨['z'], r₃.1⟩, .hybrid _ [4], _, 0, r₃.2, h₃⟩
  have hn : ∀ x ∈ [byScope, byList, byHybrid], x.maker.Apart k := by
    intro x hx
    simp only [List.mem_cons, List.not_mem_nil, or_false] at hx
    rcases hx with rfl | rfl | rfl
    · intro h
      cases h
    · intro _ r hr he
      rw [List.mem_singleton.mp hr] at he
      exact absurd he.symm hid
    · trivial
  have hadmits₁ : byScope.maker.admits k = true := by
    show k.scope.isAncestorOf ⟨['/', 'a', '/', 'b']⟩ = true
    rw [hscope]
    decide
  have hadmits₂ : byList.maker.admits k = false := by
    have hmem : k.publicKey ∉ [zeroChild.recipient].map Recipient.readPublicKey := by
      simpa [ReadKeyPair.recipient] using hne
    exact Bool.eq_false_iff.mpr fun h => hmem ((SectionMaker.admits_listed_iff rfl).mp h)
  have hadmits₃ : byHybrid.maker.admits k = false := by
    show k.scope.isAncestorOf ⟨['/', 'c']⟩ = false
    rw [hscope]
    decide
  have hopened : OwnSection.opened k [] [byScope, byList, byHybrid] = [byScope] := by
    simp [OwnSection.opened, selectedSection, hadmits₁, hadmits₂, hadmits₃]
  have hwithheld : OwnSection.withheld k [] [byScope, byList, byHybrid] = [byList, byHybrid] := by
    simp [OwnSection.withheld, selectedSection, hadmits₁, hadmits₂, hadmits₃]
  refine ⟨[byScope, byList, byHybrid], k, rfl, hk, ?_⟩
  rw [(decryptSections_exact (Transparent.crypto_correct packArray)
    (Transparent.crypto_staticRoundtrip packArray) (Transparent.mlKem_correct packArray)
    (.tail .refl (.derive (.segment ['a'] hk))) [byScope, byList, byHybrid] hn ['o'] [] appendFile).1,
    hopened, hwithheld]
  rfl

end ReadOnlyKeys
