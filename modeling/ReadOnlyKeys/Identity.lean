import ReadOnlyKeys.Access

/-!
# Credentials with selective disclosure

`issue` encrypts every attribute in recipient mode for the same recipients and
writes the attribute's scope next to it. Only `disclose`, on the reader's side,
compares the scope with the reader's.
-/
namespace ReadOnlyKeys
open Outcome Wire

variable {A : ℕ → Type} [ByteArrays A] {ρ : Type}

/-- An attribute to be encrypted: its name, its scope and its value. -/
structure Attribute where
  name : List Char
  scope : Scope
  value : Bytes

/-- An encrypted attribute within a credential. -/
structure EncryptedAttribute (A : ℕ → Type) where
  name : List Char
  scope : Scope
  envelope : EncryptedEnvelope A

/-- A credential with individually encrypted attributes. -/
structure Credential (C : Crypto A) where
  issuerVerifyingKey : C.VerifyingKey
  subjectId : List Char
  attributes : List (EncryptedAttribute A)

variable {C : Crypto A}

namespace Credential

/-- The builder `issue` uses for one attribute. -/
def builder (spendKey : SpendKeyPair C) (recipients : List (Recipient A)) (scope : Scope) :
    EncryptBuilder C :=
  ((EncryptBuilder.new C .eciesX25519ChaCha20 scope).addRecipients recipients).setSpendKey spendKey

def issueAttribute (rng : CryptoRng A ρ) (spendKey : SpendKeyPair C)
    (recipients : List (Recipient A)) (a : Attribute) : StateT ρ Result (EncryptedAttribute A) := do
  let envelope ← (builder spendKey recipients a.scope).encrypt rng a.value
  return ⟨a.name, a.scope, envelope⟩

/-- Issue a credential: encrypt each attribute under its own scope. -/
def issue (rng : CryptoRng A ρ) (spendKey : SpendKeyPair C) (subjectId : List Char)
    (attributes : List Attribute) (recipients : List (Recipient A)) :
    StateT ρ Result (Credential C) := do
  let encryptedAttrs ← attributes.mapM (issueAttribute rng spendKey recipients)
  return ⟨spendKey.verifyingKey, subjectId, encryptedAttrs⟩

/-- The loop of `disclose`. -/
def discloseAll (issuerVerifyingKey : C.VerifyingKey) (readKey : ReadKeyPair C) :
    List (EncryptedAttribute A) → Result (List (List Char × Bytes))
  | [] => .ok []
  | attr :: rest =>
      if readKey.canAccess attr.scope = false then discloseAll issuerVerifyingKey readKey rest
      else match decrypt attr.envelope readKey issuerVerifyingKey with
        | .ok plaintext => do
          let disclosed ← discloseAll issuerVerifyingKey readKey rest
          return (attr.name, plaintext) :: disclosed
        | .error (.err (.noMatchingAccessEntry _)) => discloseAll issuerVerifyingKey readKey rest
        | .error e => .error e

/-- Decrypt only the attributes the read key has scope access to. -/
def disclose (self : Credential C) (readKey : ReadKeyPair C) :
    Result (List (List Char × Bytes)) :=
  discloseAll self.issuerVerifyingKey readKey self.attributes

end Credential

/-- What issuing makes of one attribute. -/
structure Issued (spendKey : SpendKeyPair C) (recipients : List (Recipient A)) (a : Attribute)
    (attr : EncryptedAttribute A) : Prop where
  name : attr.name = a.name
  scope : attr.scope = a.scope
  encrypted : ∃ listed, Encrypted (Credential.builder spendKey recipients a.scope) a.value spendKey
    listed attr.envelope

theorem issue_run {rng : CryptoRng A ρ} {spendKey : SpendKeyPair C} {subjectId : List Char}
    {attributes : List Attribute} {recipients : List (Recipient A)} {cred : Credential C}
    {s s' : ρ}
    (h : (Credential.issue rng spendKey subjectId attributes recipients).run s = .ok (cred, s')) :
    cred.issuerVerifyingKey = spendKey.verifyingKey ∧
      List.Forall₂ (Issued spendKey recipients) attributes cred.attributes := by
  rw [Credential.issue, run_bind_eq_ok_iff] at h
  obtain ⟨attrs, _, hattrs, h⟩ := h
  obtain ⟨rfl, _⟩ := (run_pure_eq_ok_iff _ _ _ _).mp h
  refine ⟨rfl, run_mapM_forall₂ _ _ (fun a s attr s' ha => ?_) attributes s _ attrs hattrs⟩
  rw [Credential.issueAttribute, run_bind_eq_ok_iff] at ha
  obtain ⟨envelope, _, henv, ha⟩ := ha
  obtain ⟨rfl, _⟩ := (run_pure_eq_ok_iff _ _ _ _).mp ha
  obtain ⟨sk, listed, henc⟩ := EncryptBuilder.encrypt_run henv
  obtain rfl : spendKey = sk := Option.some.inj henc.spendKey_eq
  exact ⟨rfl, rfl, listed, henc⟩

/-- An issued attribute opens for every recipient, whatever the scopes. -/
theorem Issued.decrypt_eq (hC : C.Correct) {spendKey : SpendKeyPair C}
    {keys : List (ReadKeyPair C)} {a : Attribute} {attr : EncryptedAttribute A}
    (h : Issued spendKey (keys.map ReadKeyPair.recipient) a attr) {k : ReadKeyPair C}
    (hk : k ∈ keys) (hn : NoCollision k (keys.map ReadKeyPair.recipient)) :
    decrypt attr.envelope k spendKey.verifyingKey = .ok a.value := by
  obtain ⟨listed, henc⟩ := h.encrypted
  have hh : Honest C (keys.map ReadKeyPair.recipient) := by
    intro r hr
    obtain ⟨k, _, rfl⟩ := List.mem_map.mp hr
    rfl
  have hlisted : k.publicKey ∈ (keys.map ReadKeyPair.recipient).map Recipient.readPublicKey :=
    List.mem_map_of_mem (List.mem_map_of_mem hk)
  exact (henc.decrypt_recipientMode hC rfl hh k hn).trans (if_pos hlisted)

/-- No listed key opens an attribute whose scope it neither equals nor is above. -/
def Protects (keys : List (ReadKeyPair C)) (attributes : List Attribute) (cred : Credential C) :
    Prop :=
  ∀ k ∈ keys, List.Forall₂ (fun (a : Attribute) (attr : EncryptedAttribute A) =>
    k.scope.isAncestorOf attr.scope = false →
      decrypt attr.envelope k cred.issuerVerifyingKey ≠ .ok a.value) attributes cred.attributes

/-- The attributes are kept from the keys outside their scopes when there are no such keys among
the recipients, and only then as long as no key identifiers collide. -/
theorem issue_protects_iff (hC : C.Correct) {rng : CryptoRng A ρ} {spendKey : SpendKeyPair C}
    {subjectId : List Char} {attributes : List Attribute} {keys : List (ReadKeyPair C)}
    {cred : Credential C} {s s' : ρ}
    (h : (Credential.issue rng spendKey subjectId attributes
      (keys.map ReadKeyPair.recipient)).run s = .ok (cred, s')) :
    ((∀ k ∈ keys, ∀ a ∈ attributes, k.scope.isAncestorOf a.scope = true) →
      Protects keys attributes cred) ∧
    ((∀ k ∈ keys, NoCollision k (keys.map ReadKeyPair.recipient)) →
      Protects keys attributes cred →
        ∀ k ∈ keys, ∀ a ∈ attributes, k.scope.isAncestorOf a.scope = true) := by
  obtain ⟨hvk, hissued⟩ := issue_run h
  constructor
  · intro hanc k hk
    rw [List.forall₂_iff_zip]
    refine ⟨hissued.length_eq, fun {a attr} hz hout => ?_⟩
    rw [(List.forall₂_zip hissued hz).scope, hanc k hk a (List.of_mem_zip hz).1] at hout
    cases hout
  · intro hn hprot k hk a ha
    have hboth := List.Forall₂.mp (fun a attr hp hi => And.intro hp hi) (hprot k hk) hissued
    obtain ⟨attr, _, hp, hi⟩ := exists_mem_of_forall₂ hboth.flip ha
    cases hanc : k.scope.isAncestorOf a.scope with
    | true => rfl
    | false =>
      have hopen := hi.decrypt_eq hC hk (hn k hk)
      rw [← hvk] at hopen
      exact absurd hopen (hp (by rw [hi.scope, hanc]))

/-- A name and a date of birth. -/
def nameAndDob : List Attribute :=
  [⟨"name".toList, ⟨"/identity/name".toList⟩, [1, 2]⟩,
    ⟨"dob".toList, ⟨"/identity/dob".toList⟩, [3, 4]⟩]

theorem issue_protects_iff_root :
    ∃ cred s', (Credential.issue (Transparent.rng packArray) (zeroSpend packArray) [] nameAndDob
        ([zeroRoot].map ReadKeyPair.recipient)).run 0 = .ok (cred, s') ∧
      Protects [zeroRoot] nameAndDob cred ∧
      ∀ k ∈ [zeroRoot], ∀ a ∈ nameAndDob, k.scope.isAncestorOf a.scope = true := by
  obtain ⟨⟨cred, s'⟩, hc⟩ : ∃ r, (Credential.issue (Transparent.rng packArray)
    (zeroSpend packArray) [] nameAndDob ([zeroRoot].map ReadKeyPair.recipient)).run 0 = .ok r :=
      ⟨_, rfl⟩
  have h := issue_protects_iff (Transparent.crypto_correct packArray) hc
  have hp : Protects [zeroRoot] nameAndDob cred := by
    refine h.1 fun k hk a _ => ?_
    rw [List.mem_singleton.mp hk]
    rfl
  refine ⟨cred, s', hc, hp, h.2 (fun k hk r hr _ => ?_) hp⟩
  rw [List.mem_singleton.mp hk, List.mem_singleton.mp hr]
  rfl

/-- The key for the name opens the date of birth. -/
theorem nameKey_reads_dob :
    ∃ identity name cred s', zeroRoot.deriveChildSegment "identity".toList = .ok identity ∧
      identity.deriveChildSegment "name".toList = .ok name ∧
      (Credential.issue (Transparent.rng packArray) (zeroSpend packArray) [] nameAndDob
        ([zeroRoot, name].map ReadKeyPair.recipient)).run 0 = .ok (cred, s') ∧
      ∃ dob ∈ cred.attributes, dob.scope = ⟨"/identity/dob".toList⟩ ∧
        name.scope.isAncestorOf dob.scope = false ∧
        decrypt dob.envelope name cred.issuerVerifyingKey = .ok [3, 4] :=
  ⟨_, _, _, _, rfl, rfl, rfl, _, .tail _ (.head _), rfl, by decide +kernel, by decide +kernel⟩

/-- An issued attribute opens for whoever has a listed public key, and for nobody else. -/
lemma Issued.decrypt_iff_listed (hC : C.Correct) {spendKey : SpendKeyPair C}
    {recipients : List (Recipient A)} (hh : Honest C recipients) {a : Attribute}
    {attr : EncryptedAttribute A} (h : Issued spendKey recipients a attr) {k : ReadKeyPair C}
    (hn : NoCollision k recipients) : decrypt attr.envelope k spendKey.verifyingKey =
      if k.publicKey ∈ recipients.map Recipient.readPublicKey then .ok a.value
      else fail (.noMatchingAccessEntry (k.keyId.toBase58 C)) := by
  obtain ⟨listed, henc⟩ := h.encrypted
  exact henc.decrypt_recipientMode hC rfl hh k hn

/-- To a listed key, `disclose` shows exactly the attributes at the key's scope and below, by name
and value and in their order. To any other key it shows none. It never fails. -/
theorem disclose_exact (hC : C.Correct) {rng : CryptoRng A ρ} {spendKey : SpendKeyPair C}
    {subjectId : List Char} {attributes : List Attribute} {recipients : List (Recipient A)}
    (hh : Honest C recipients) {cred : Credential C} {s s' : ρ}
    (h : (Credential.issue rng spendKey subjectId attributes recipients).run s = .ok (cred, s'))
    (k : ReadKeyPair C) (hn : NoCollision k recipients) :
    cred.disclose k = .ok (if k.publicKey ∈ recipients.map Recipient.readPublicKey then
      (attributes.filter fun a => k.scope.isAncestorOf a.scope).map fun a => (a.name, a.value)
      else []) := by
  obtain ⟨hvk, hissued⟩ := issue_run h
  rw [Credential.disclose, hvk]
  clear h
  generalize cred.attributes = attrs at hissued ⊢
  induction hissued with
  | nil => simp [Credential.discloseAll]
  | @cons a attr attributes attrs ha _ ih =>
    rw [Credential.discloseAll, ReadKeyPair.canAccess, ha.scope]
    cases hanc : k.scope.isAncestorOf a.scope with
    | false =>
      rw [if_pos rfl, ih, List.filter_cons_of_neg (by simp [hanc])]
    | true =>
      rw [if_neg (by decide), ha.decrypt_iff_listed hC hh hn,
        List.filter_cons_of_pos (by simp [hanc])]
      split_ifs at ih ⊢ with hlisted
      · simp only [ih, ok_bind, ha.name, List.map_cons]
        rfl
      · simp only [ih]

theorem disclose_exact_root :
    ∃ cred s', (Credential.issue (Transparent.rng packArray) (zeroSpend packArray) [] nameAndDob
        ([zeroRoot].map ReadKeyPair.recipient)).run 0 = .ok (cred, s') ∧
      cred.disclose zeroRoot = .ok [("name".toList, [1, 2]), ("dob".toList, [3, 4])] := by
  obtain ⟨⟨cred, s'⟩, hc⟩ : ∃ r, (Credential.issue (Transparent.rng packArray)
    (zeroSpend packArray) [] nameAndDob ([zeroRoot].map ReadKeyPair.recipient)).run 0 = .ok r :=
      ⟨_, rfl⟩
  refine ⟨cred, s', hc, ?_⟩
  have hlisted : ∀ r ∈ [zeroRoot].map ReadKeyPair.recipient, r = zeroRoot.recipient := by simp
  have hhonest : Honest Transparent.arrays ([zeroRoot].map ReadKeyPair.recipient) := by
    intro r hr
    rw [hlisted r hr]
    rfl
  rw [disclose_exact (Transparent.crypto_correct packArray) hhonest hc zeroRoot
    fun r hr _ => by rw [hlisted r hr]; rfl]
  rfl

end ReadOnlyKeys
