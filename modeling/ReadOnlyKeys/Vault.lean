import ReadOnlyKeys.Rekey
import ReadOnlyKeys.Lib.Runs
import Mathlib.Data.List.AList

/-!
# The document vault

The vault keeps documents under their names, each a recipient-mode envelope at a
scope. Rekeying decrypts and encrypts the documents of a scope one after the
other, in the order in which the map visits them, and stops at the first that
fails. The documents done by then stay done.
-/
namespace ReadOnlyKeys
open Outcome Wire

variable {ρ : Type}

/-- An in-memory vault of encrypted documents. -/
structure Vault (C : Crypto (Vector UInt8)) where
  spendKey : SpendKeyPair C
  documents : AList fun _ : List Char => EncryptedEnvelope (Vector UInt8)

/-- Metadata about a document stored in the vault. -/
structure VaultEntry where
  name : List Char
  scope : Scope
  size : ℕ
  recipientCount : ℕ

namespace Vault

variable {C : Crypto (Vector UInt8)}

def new (spendKey : SpendKeyPair C) : Vault C := ⟨spendKey, ∅⟩

def verifyingKey (self : Vault C) : C.VerifyingKey := self.spendKey.verifyingKey

def insert (self : Vault C) (name : List Char) (envelope : EncryptedEnvelope (Vector UInt8)) :
    Vault C := { self with documents := self.documents.insert name envelope }

@[simp] theorem insert_spendKey (self : Vault C) (name : List Char)
    (envelope : EncryptedEnvelope (Vector UInt8)) :
    (self.insert name envelope).spendKey = self.spendKey := rfl

@[simp] theorem lookup_insert (self : Vault C) (name : List Char)
    (envelope : EncryptedEnvelope (Vector UInt8)) :
    (self.insert name envelope).documents.lookup name = some envelope :=
  AList.lookup_insert _

theorem lookup_insert_ne (self : Vault C) {name other : List Char}
    (envelope : EncryptedEnvelope (Vector UInt8)) (h : other ≠ name) :
    (self.insert name envelope).documents.lookup other = self.documents.lookup other :=
  AList.lookup_insert_ne h

/-- The builder for a document. -/
def builder (spendKey : SpendKeyPair C) (scope : Scope)
    (recipients : List (Recipient (Vector UInt8))) : EncryptBuilder C :=
  ((EncryptBuilder.new C .eciesX25519ChaCha20 scope).addRecipients recipients).setSpendKey spendKey

/-- Encrypt and store a document under a scope. The state is the vault and the generator. -/
def store (rng : CryptoRng (Vector UInt8) ρ) (name : List Char) (scope : Scope) (data : Bytes)
    (recipients : List (Recipient (Vector UInt8))) : Program RokError (Vault C × ρ) PUnit := do
  let (self, r) ← get
  let (envelope, r') ← Program.attempt
    (((builder self.spendKey scope recipients).encrypt rng data).run r)
  set (self.insert name envelope, r')

/-- Decrypt and retrieve a document. -/
def retrieve (self : Vault C) (name : List Char) (readKey : ReadKeyPair C) : Result Bytes := do
  let envelope ← okOr (self.documents.lookup name)
    (.keyNotFound s!"document '{String.ofList name}' not found")
  decrypt envelope readKey self.verifyingKey

/-- Is there a document of the name, at the scope or below? -/
def selects (self : Vault C) (scope : Scope) (name : List Char) : Bool :=
  (self.documents.lookup name).any fun envelope => scope.isAncestorOf envelope.scope

/-- List the documents in the order in which the map visits them. -/
def list (self : Vault C) (order : List (List Char)) (scopeFilter : Option Scope) :
    List VaultEntry :=
  (order.filter fun name => scopeFilter.all fun scope => self.selects scope name).filterMap
    fun name => (self.documents.lookup name).map fun envelope =>
      ⟨name, envelope.scope, envelope.ciphertext.length, envelope.accessEntries.length⟩

section Rekey

variable (rng : CryptoRng (Vector UInt8) ρ) (rootReadKey : ReadKeyPair C)
  (newRecipients : List (Recipient (Vector UInt8)))

/-- One round of the loop: a document is decrypted, encrypted for the new recipients and put
back. -/
def rekeyDocument (name : List Char) : Program RokError (Vault C × ρ) PUnit := do
  let (self, r) ← get
  let envelope ← Program.attempt (unwrap (self.documents.lookup name))
  let plaintext ← Program.attempt (decrypt envelope rootReadKey self.verifyingKey)
  let (newEnvelope, r') ← Program.attempt
    (((builder self.spendKey envelope.scope newRecipients).encrypt rng plaintext).run r)
  set (self.insert name newEnvelope, r')

/-- Re-encrypt all documents at a scope with new recipients. `order` is the order in which the
map visits its names. -/
def rekey (order : List (List Char)) (scope : Scope) : Program RokError (Vault C × ρ) ℕ := do
  let (self, _) ← get
  let namesToRekey := order.filter (self.selects scope)
  let count := namesToRekey.length
  forM namesToRekey (rekeyDocument rng rootReadKey newRecipients)
  return count

end Rekey

section Rounds

variable {rng : CryptoRng (Vector UInt8) ρ} {k : ReadKeyPair C}
  {newRecipients : List (Recipient (Vector UInt8))} {v v' : Vault C} {r r' : ρ}
  {name : List Char} {e e' : EncryptedEnvelope (Vector UInt8)} {p : Bytes}

/-- A round computes a new envelope from the state it finds, and either puts it back or leaves
the state as it was. -/
theorem rekeyDocument_exec : (rekeyDocument rng k newRecipients name).exec (v, r) =
    match (do
        let e ← unwrap (v.documents.lookup name)
        let p ← decrypt e k v.verifyingKey
        ((builder v.spendKey e.scope newRecipients).encrypt rng p).run r : Result _) with
    | .ok (e', r') => (.ok ⟨⟩, (v.insert name e', r'))
    | .error f => (.error f, (v, r)) := by
  simp only [rekeyDocument, Program.exec_bind, Program.exec_get, Program.exec_attempt]
  cases hname : (unwrap (v.documents.lookup name) : Result _) with
  | error f => rfl
  | ok e =>
    simp only [ok_bind]
    cases hd : decrypt e k v.verifyingKey with
    | error f => rfl
    | ok p =>
      simp only [ok_bind]
      cases ((builder v.spendKey e.scope newRecipients).encrypt rng p).run r <;> rfl

theorem rekeyDocument_ok (hname : v.documents.lookup name = some e)
    (hd : decrypt e k v.verifyingKey = .ok p)
    (he : ((builder v.spendKey e.scope newRecipients).encrypt rng p).run r = .ok (e', r')) :
    (rekeyDocument rng k newRecipients name).exec (v, r) = (.ok ⟨⟩, (v.insert name e', r')) := by
  simp only [rekeyDocument_exec, hname, unwrap_some, ok_bind, hd, he]

theorem rekeyDocument_fault {f : Fault RokError} (hname : v.documents.lookup name = some e)
    (hd : decrypt e k v.verifyingKey = .error f) :
    (rekeyDocument rng k newRecipients name).exec (v, r) = (.error f, (v, r)) := by
  simp only [rekeyDocument_exec, hname, unwrap_some, ok_bind, hd, error_bind]

/-- Without recipients every round fails and changes nothing. -/
theorem rekeyDocument_nil :
    ∃ f, (rekeyDocument rng k [] name).exec (v, r) = (.error f, (v, r)) := by
  rw [rekeyDocument_exec]
  split
  · next e' r' h =>
    rw [bind_eq_ok_iff] at h
    obtain ⟨e, _, h⟩ := h
    rw [bind_eq_ok_iff] at h
    obtain ⟨p, _, h⟩ := h
    obtain ⟨sk, recipients, henc⟩ := EncryptBuilder.encrypt_run h
    have hr := henc.resolve_eq
    cases hr
  · next f _ => exact ⟨f, rfl⟩

/-- A name is ready when its document opens under the key. -/
def Opens (k : ReadKeyPair C) (v : Vault C) (name : List Char) : Prop :=
  ∃ e p, v.documents.lookup name = some e ∧ decrypt e k v.verifyingKey = .ok p

/-- The loop has done the names of `done` in the vault `v` and left the others. -/
structure Progress (v : Vault C) (k : ReadKeyPair C)
    (newRecipients : List (Recipient (Vector UInt8))) (done : List (List Char)) (v' : Vault C) :
    Prop where
  spendKey : v'.spendKey = v.spendKey
  kept : ∀ name ∉ done, v'.documents.lookup name = v.documents.lookup name
  rekeyed : ∀ name ∈ done, ∃ e p e' listed, v.documents.lookup name = some e ∧
    decrypt e k v.verifyingKey = .ok p ∧ v'.documents.lookup name = some e' ∧
    Encrypted (builder v.spendKey e.scope newRecipients) p v.spendKey listed e'

theorem Progress.refl : Progress v k newRecipients [] v :=
  ⟨rfl, fun _ _ => rfl, by simp⟩

theorem Progress.insert {done : List (List Char)} (h : Progress v k newRecipients done v')
    (hname : v.documents.lookup name = some e) (hd : decrypt e k v.verifyingKey = .ok p)
    {listed : List (Recipient (Vector UInt8))}
    (he : Encrypted (builder v.spendKey e.scope newRecipients) p v.spendKey listed e') :
    Progress v k newRecipients (done ++ [name]) (v'.insert name e') where
  spendKey := h.spendKey
  kept other ho := by
    rw [List.mem_append, List.mem_singleton, not_or] at ho
    rw [lookup_insert_ne _ _ ho.2, h.kept other ho.1]
  rekeyed other ho := by
    by_cases heq : other = name
    · subst heq
      exact ⟨e, p, e', listed, hname, hd, lookup_insert _ _ _, he⟩
    · rw [List.mem_append, List.mem_singleton, or_iff_left heq] at ho
      obtain ⟨e₀, p₀, e₁, l, h₁, h₂, h₃, h₄⟩ := h.rekeyed other ho
      exact ⟨e₀, p₀, e₁, l, h₁, h₂, by rw [lookup_insert_ne _ _ heq, h₃], h₄⟩

/-- One round on a document that opens. -/
theorem exists_rekeyDocument (hA : C.aes256GcmSiv.Accepts 32) (hT : C.chacha20Poly1305.Tagged)
    (hE : C.chacha20Poly1305.Reencrypts) (rng : CryptoRng (Vector UInt8) ρ)
    (hR : newRecipients ≠ []) {done : List (List Char)}
    (h : Progress v k newRecipients done v') (hn : name ∉ done) (ho : Opens k v name) (r : ρ) :
    ∃ v'' r', (rekeyDocument rng k newRecipients name).exec (v', r) = (.ok ⟨⟩, (v'', r')) ∧
      Progress v k newRecipients (done ++ [name]) v'' := by
  obtain ⟨e, p, hname, hd⟩ := ho
  obtain ⟨key, nonce, ct, hct⟩ := exists_decrypt_of_decrypt hd
  have hvk : v'.verifyingKey = v.verifyingKey := congrArg SpendKeyPair.verifyingKey h.spendKey
  obtain ⟨e', r', he⟩ := EncryptBuilder.encrypt_exists hA hT rng
    (b := builder v.spendKey e.scope newRecipients) rfl rfl hR (hE _ _ _ _ hct) r
  obtain ⟨sk, listed, henc⟩ := EncryptBuilder.encrypt_run he
  obtain rfl : v.spendKey = sk := Option.some.inj henc.spendKey_eq
  have hd' : decrypt e k v'.verifyingKey = .ok p := by
    rw [hvk, hd]
  rw [← h.spendKey] at he
  exact ⟨v'.insert name e', r', rekeyDocument_ok ((h.kept name hn).trans hname) hd' he,
    h.insert hname hd henc⟩

/-- The loop over documents that all open. -/
theorem exists_rekeyLoop (hA : C.aes256GcmSiv.Accepts 32) (hT : C.chacha20Poly1305.Tagged)
    (hE : C.chacha20Poly1305.Reencrypts) (rng : CryptoRng (Vector UInt8) ρ)
    (hR : newRecipients ≠ []) {names : List (List Char)} (hnodup : names.Nodup)
    (ho : ∀ name ∈ names, Opens k v name) (r : ρ) :
    ∃ v' r', (forM names (rekeyDocument rng k newRecipients)).exec (v, r) = (.ok ⟨⟩, (v', r')) ∧
      Progress v k newRecipients names v' := by
  have hstep : ∀ done name rest (s : Vault C × ρ), names = done ++ name :: rest →
      Progress v k newRecipients done s.1 →
      ∃ s', (rekeyDocument rng k newRecipients name).exec s = (.ok ⟨⟩, s') ∧
        Progress v k newRecipients (done ++ [name]) s'.1 := by
    rintro done name rest s rfl h
    have hn : name ∉ done := fun hmem =>
      (List.nodup_append.mp hnodup).2.2 name hmem name List.mem_cons_self rfl
    obtain ⟨v'', r'', hexec, hprog⟩ := exists_rekeyDocument hA hT hE rng hR h hn
      (ho name (List.mem_append_right _ List.mem_cons_self)) s.2
    exact ⟨(v'', r''), hexec, hprog⟩
  obtain ⟨⟨v', r'⟩, hexec, hprog⟩ := Program.exec_forM_ok
    (fun done (s : Vault C × ρ) => Progress v k newRecipients done s.1) hstep (s := (v, r)) Progress.refl
  exact ⟨v', r', hexec, hprog⟩

/-- The loop stops at the first document that does not open. -/
theorem exists_rekeyLoop_fault (hA : C.aes256GcmSiv.Accepts 32) (hT : C.chacha20Poly1305.Tagged)
    (hE : C.chacha20Poly1305.Reencrypts) (rng : CryptoRng (Vector UInt8) ρ)
    (hR : newRecipients ≠ []) {before after : List (List Char)}
    (hnodup : (before ++ name :: after).Nodup) (ho : ∀ b ∈ before, Opens k v b)
    {f : Fault RokError} (hname : v.documents.lookup name = some e)
    (hd : decrypt e k v.verifyingKey = .error f) (r : ρ) :
    ∃ v' r', (forM (before ++ name :: after) (rekeyDocument rng k newRecipients)).exec (v, r) =
      (.error f, (v', r')) ∧ Progress v k newRecipients before v' := by
  have hnot : name ∉ before := fun hmem =>
    (List.nodup_append.mp hnodup).2.2 name hmem name List.mem_cons_self rfl
  obtain ⟨v', r', hexec, hprog⟩ := exists_rekeyLoop hA hT hE rng hR
    (List.nodup_append.mp hnodup).1 ho r
  have hvk : v'.verifyingKey = v.verifyingKey := congrArg SpendKeyPair.verifyingKey hprog.spendKey
  have hfault : (rekeyDocument rng k newRecipients name).exec (v', r') = (.error f, (v', r')) :=
    rekeyDocument_fault ((hprog.kept name hnot).trans hname) (by rw [hvk, hd])
  refine ⟨v', r', ?_, hprog⟩
  simp only [Program.exec_forM_append, hexec, Program.exec_forM_cons, hfault]

theorem opens_insert_iff {other : List Char} (h : other ≠ name) :
    Opens k (v.insert name e) other ↔ Opens k v other := by
  unfold Opens
  rw [lookup_insert_ne _ _ h]
  rfl

end Rounds

section Atomic

variable {rng : CryptoRng (Vector UInt8) ρ} {k : ReadKeyPair C}
  {newRecipients : List (Recipient (Vector UInt8))} {v : Vault C} {r : ρ}
  {order : List (List Char)} {scope : Scope}

theorem rekey_exec : (rekey rng k newRecipients order scope).exec (v, r) =
    match (forM (order.filter (v.selects scope)) (rekeyDocument rng k newRecipients)).exec (v, r) with
    | (.ok _, s') => (.ok (order.filter (v.selects scope)).length, s')
    | (.error f, s') => (.error f, s') := by
  simp only [rekey, Program.exec_bind, Program.exec_get, Program.exec_pure]
  cases (forM (order.filter (v.selects scope)) (rekeyDocument rng k newRecipients)).exec (v, r) with
  | mk res s' => cases res <;> rfl

theorem exists_lookup_of_selects {name : List Char} (h : v.selects scope name = true) :
    ∃ e, v.documents.lookup name = some e ∧ scope.isAncestorOf e.scope = true := by
  simpa [selects, Option.any_eq_true] using h

/-- The document of the name does not open under the key. -/
def Refuses (k : ReadKeyPair C) (v : Vault C) (name : List Char) : Prop :=
  ∃ e err, v.documents.lookup name = some e ∧ decrypt e k v.verifyingKey = fail err

/-- The first ephemeral key that a rekeying draws is not yet in the vault. -/
def FreshEphemeral (rng : CryptoRng (Vector UInt8) ρ) (v : Vault C) (r : ρ) : Prop :=
  ∀ name e, v.documents.lookup name = some e → e.ephemeralX25519Public ≠
    C.publicFrom (C.staticFrom (rng.fillBytes 32 (rng.fillBytes 32 r).2).1)

/-- A document that the loop replaced is not the one it was. -/
theorem rekeyLoop_replaces (hA : C.aes256GcmSiv.Accepts 32) (hT : C.chacha20Poly1305.Tagged)
    (hE : C.chacha20Poly1305.Reencrypts) (hfresh : FreshEphemeral rng v r)
    (hR : newRecipients ≠ []) {first name : List Char} {before after : List (List Char)}
    (hnodup : (first :: before ++ name :: after).Nodup)
    (ho : ∀ b ∈ first :: before, Opens k v b) (hr : Refuses k v name) :
    ∃ err v' r', (forM (first :: before ++ name :: after)
      (rekeyDocument rng k newRecipients)).exec (v, r) = (fail err, (v', r')) ∧
        v'.documents.lookup first ≠ v.documents.lookup first := by
  rw [List.cons_append, List.nodup_cons] at hnodup
  have hne : ∀ b ∈ before ++ name :: after, b ≠ first := fun b hb heq => hnodup.1 (heq ▸ hb)
  obtain ⟨e, p, hfirst, hd⟩ := ho first List.mem_cons_self
  obtain ⟨key, nonce, ct, hct⟩ := exists_decrypt_of_decrypt hd
  obtain ⟨e', r', he⟩ := EncryptBuilder.encrypt_exists hA hT rng
    (b := builder v.spendKey e.scope newRecipients) rfl rfl hR (hE _ _ _ _ hct) r
  obtain ⟨e₁, err, hname, hd₁⟩ := hr
  -- The rest of the loop runs on the vault with the first document replaced.
  have ho' : ∀ b ∈ before, Opens k (v.insert first e') b := fun b hb =>
    (opens_insert_iff (hne b (List.mem_append_left _ hb))).mpr (ho b (List.mem_cons_of_mem _ hb))
  have hname' : (v.insert first e').documents.lookup name = some e₁ :=
    (lookup_insert_ne _ _ (hne name (List.mem_append_right _ List.mem_cons_self))).trans hname
  obtain ⟨v', r'', hexec, hprog⟩ := exists_rekeyLoop_fault hA hT hE rng hR hnodup.2 ho' hname' hd₁ r'
  refine ⟨err, v', r'', ?_, fun hsame => ?_⟩
  · simp only [List.cons_append, Program.exec_forM_cons, rekeyDocument_ok hfirst hd he, hexec]
  · have hkept := hprog.kept first fun hmem => hnodup.1 (List.mem_append_left _ hmem)
    rw [lookup_insert, hsame, hfirst] at hkept
    obtain rfl := Option.some.inj hkept
    exact hfresh first e hfirst (EncryptBuilder.encrypt_ephemeral he)

theorem nodup_filter_of_perm (horder : order.Perm v.documents.keys) (P : List Char → Bool) :
    (order.filter P).Nodup :=
  (horder.nodup_iff.mpr v.documents.keys_nodup).filter P

/-- Without new recipients a rekeying changes nothing. -/
theorem rekey_nil_exec : ∃ res, (rekey rng k [] order scope).exec (v, r) = (res, (v, r)) := by
  rw [rekey_exec]
  cases order.filter (v.selects scope) with
  | nil => exact ⟨_, rfl⟩
  | cons name rest =>
    obtain ⟨f, hf⟩ : ∃ f, (rekeyDocument rng k [] name).exec (v, r) = (.error f, (v, r)) :=
      rekeyDocument_nil
    exact ⟨.error f, by simp only [Program.exec_forM_cons, hf]⟩

/-- Either every document opens, or there is a first one that does not. -/
theorem opens_or_exists_fault (k : ReadKeyPair C) {names : List (List Char)}
    (h : ∀ name ∈ names, ∃ e, v.documents.lookup name = some e) :
    (∀ name ∈ names, Opens k v name) ∨ ∃ before name after e f,
      names = before ++ name :: after ∧ (∀ b ∈ before, Opens k v b) ∧
      v.documents.lookup name = some e ∧ decrypt e k v.verifyingKey = .error f := by
  induction names with
  | nil => exact .inl (by simp)
  | cons name rest ih =>
    obtain ⟨e, hname⟩ := h name List.mem_cons_self
    cases hd : decrypt e k v.verifyingKey with
    | error f => exact .inr ⟨[], name, rest, e, f, rfl, by simp, hname, hd⟩
    | ok p =>
      have hopens : Opens k v name := ⟨e, p, hname, hd⟩
      rcases ih fun x hx => h x (List.mem_cons_of_mem _ hx) with hall | hfault
      · exact .inl (List.forall_mem_cons.mpr ⟨hopens, hall⟩)
      · obtain ⟨before, x, after, e', f, rfl, hb, hx, hf⟩ := hfault
        exact .inr ⟨name :: before, x, after, e', f, rfl, List.forall_mem_cons.mpr ⟨hopens, hb⟩, hx,
          hf⟩

theorem exists_lookup_of_mem_filter {name : List Char}
    (h : name ∈ order.filter (v.selects scope)) : ∃ e, v.documents.lookup name = some e := by
  obtain ⟨e, hname, _⟩ := exists_lookup_of_selects (List.mem_filter.mp h).2
  exact ⟨e, hname⟩

/-- Where only the first document visited is refused, if any, a failed rekeying changes nothing. -/
theorem rekey_error_unchanged (hA : C.aes256GcmSiv.Accepts 32) (hT : C.chacha20Poly1305.Tagged)
    (hE : C.chacha20Poly1305.Reencrypts) (horder : order.Perm v.documents.keys)
    (hR : newRecipients ≠ [])
    (hfirst : ∀ before name after, order.filter (v.selects scope) = before ++ name :: after →
      (∀ b ∈ before, Opens k v b) → Refuses k v name → before = [])
    {err : RokError} {v' : Vault C} {r' : ρ}
    (hrun : (rekey rng k newRecipients order scope).exec (v, r) = (fail err, (v', r')))
    (name : List Char) : v'.documents.lookup name = v.documents.lookup name := by
  have hnodup := nodup_filter_of_perm horder (v.selects scope)
  rw [rekey_exec] at hrun
  rcases opens_or_exists_fault k (v := v) fun _ => exists_lookup_of_mem_filter with hall | hfault
  · obtain ⟨v₁, r₁, hexec, _⟩ := exists_rekeyLoop hA hT hE rng hR hnodup hall r
    rw [hexec] at hrun
    cases hrun
  · obtain ⟨before, refused, after, e, f, hsplit, ho, hname, hd⟩ := hfault
    rw [hsplit] at hnodup hrun
    obtain ⟨v₁, r₁, hexec, hprog⟩ := exists_rekeyLoop_fault hA hT hE rng hR hnodup ho hname hd r
    rw [hexec] at hrun
    obtain ⟨rfl, rfl, _⟩ : f = .err err ∧ v₁ = v' ∧ _ := by simpa using hrun
    have hnil := hfirst before refused after hsplit ho ⟨e, err, hname, hd⟩
    rw [hnil] at hprog
    exact hprog.kept name (by simp)

/-- A failed rekeying changed nothing exactly when there is no new recipient, or the first
document that is refused was the first one visited. -/
theorem rekey_unchanged_iff (hA : C.aes256GcmSiv.Accepts 32) (hT : C.chacha20Poly1305.Tagged)
    (hE : C.chacha20Poly1305.Reencrypts) (hfresh : FreshEphemeral rng v r)
    (horder : order.Perm v.documents.keys) :
    (∀ err v' r', (rekey rng k newRecipients order scope).exec (v, r) = (fail err, (v', r')) →
        ∀ name, v'.documents.lookup name = v.documents.lookup name) ↔
      newRecipients = [] ∨ ∀ before name after,
        order.filter (v.selects scope) = before ++ name :: after →
        (∀ b ∈ before, Opens k v b) → Refuses k v name → before = [] := by
  constructor
  · intro hsame
    by_cases hR : newRecipients = []
    · exact .inl hR
    refine .inr fun before name after hsplit ho hr => ?_
    cases before with
    | nil => rfl
    | cons first before =>
      have hnodup := nodup_filter_of_perm horder (v.selects scope)
      rw [hsplit] at hnodup
      obtain ⟨err, v', r', hexec, hne⟩ := rekeyLoop_replaces hA hT hE hfresh hR hnodup ho hr
      refine absurd (hsame err v' r' ?_ first) hne
      simp only [rekey_exec, hsplit, hexec]
  · intro hcond err v' r' hrun
    by_cases hR : newRecipients = []
    · subst hR
      obtain ⟨res, hexec⟩ : ∃ res, (rekey rng k [] order scope).exec (v, r) = (res, (v, r)) :=
        rekey_nil_exec
      rw [hexec] at hrun
      obtain ⟨_, rfl, _⟩ : _ ∧ v = v' ∧ _ := by simpa using hrun
      exact fun name => rfl
    · exact rekey_error_unchanged hA hT hE horder hR (hcond.resolve_left hR) hrun

/-- A vault with a document for the root key and one for another key, both at one scope. -/
def mixedVault : Vault Transparent.arrays × ℕ :=
  (Program.exec (do
    store (Transparent.rng packArray) ['a'] ⟨['/', 'a']⟩ [1, 2] [zeroRoot.recipient]
    store (Transparent.rng packArray) ['b'] ⟨['/', 'a']⟩ [3] [zeroChild.recipient])
    (new (zeroSpend packArray), 0)).2

/-- Visited in the other order, the vault is left as it was. -/
theorem rekey_unchanged_iff_refused_first :
    ∃ v' r', (rekey (Transparent.rng packArray) zeroRoot [zeroChild.recipient] [['b'], ['a']]
        ⟨['/', 'a']⟩).exec mixedVault =
          (fail (.noMatchingAccessEntry (zeroRoot.keyId.toBase58 Transparent.arrays)), (v', r')) ∧
      ∀ name, v'.documents.lookup name = mixedVault.1.documents.lookup name := by
  obtain ⟨v', r', hrun⟩ : ∃ v' r', (rekey (Transparent.rng packArray) zeroRoot
      [zeroChild.recipient] [['b'], ['a']] ⟨['/', 'a']⟩).exec mixedVault =
        (fail (.noMatchingAccessEntry (zeroRoot.keyId.toBase58 Transparent.arrays)), (v', r')) :=
    ⟨_, _, rfl⟩
  have hfresh : FreshEphemeral (Transparent.rng packArray) mixedVault.1 mixedVault.2 := by
    have hall : ∀ x ∈ mixedVault.1.documents.entries, x.2.ephemeralX25519Public ≠
        packArray 32 (leBytes 8 9) := by decide +kernel
    exact fun name e he => hall ⟨name, e⟩ (AList.mem_lookup_iff.mp he)
  refine ⟨v', r', hrun, (rekey_unchanged_iff (Transparent.aead_accepts 32) Transparent.aead_tagged
    Transparent.aead_reencrypts hfresh (by decide +kernel)).mpr (.inr ?_) _ _ _ hrun⟩
  intro before name after hsplit ho _
  cases before with
  | nil => rfl
  | cons first before =>
    have hnames : [['b'], ['a']].filter (mixedVault.1.selects ⟨['/', 'a']⟩) = [['b'], ['a']] := by
      decide +kernel
    rw [hnames] at hsplit
    obtain ⟨rfl, _⟩ := List.cons.inj hsplit
    obtain ⟨e, p, hname, hd⟩ := ho _ List.mem_cons_self
    have hno : mixedVault.1.retrieve ['b'] zeroRoot =
        fail (.noMatchingAccessEntry (zeroRoot.keyId.toBase58 Transparent.arrays)) := by
      decide +kernel
    rw [retrieve, hname, okOr_some, ok_bind, hd] at hno
    cases hno

/-- The document visited first has lost its reader when the second one fails the call. -/
theorem rekey_fails_halfway :
    ∃ v' r', (rekey (Transparent.rng packArray) zeroRoot [zeroChild.recipient] [['a'], ['b']]
        ⟨['/', 'a']⟩).exec mixedVault =
          (fail (.noMatchingAccessEntry (zeroRoot.keyId.toBase58 Transparent.arrays)), (v', r')) ∧
      mixedVault.1.retrieve ['a'] zeroRoot = .ok [1, 2] ∧
      v'.retrieve ['a'] zeroRoot =
        fail (.noMatchingAccessEntry (zeroRoot.keyId.toBase58 Transparent.arrays)) ∧
      v'.documents.lookup ['a'] ≠ mixedVault.1.documents.lookup ['a'] :=
  ⟨_, _, rfl, by decide +kernel, by decide +kernel, by decide +kernel⟩

end Atomic

/-- A document as its owner stored it. -/
structure Document where
  scope : Scope
  data : Bytes
  recipients : List (Recipient (Vector UInt8))

/-- What the owner has stored under each name. -/
abbrev Documents := List Char → Option Document

/-- A call of `store`, in some state of the thread's generator. -/
structure StoreCall (ρ : Type) where
  name : List Char
  document : Document
  r : ρ

/-- The vault after a call, beside what its owner then knows it to hold. -/
def afterStore (rng : CryptoRng (Vector UInt8) ρ) (s : Vault C × Documents) (c : StoreCall ρ) :
    Vault C × Documents :=
  match (store rng c.name c.document.scope c.document.data c.document.recipients).exec (s.1, c.r) with
  | (.ok _, v, _) => (v, Function.update s.2 c.name (some c.document))
  | (.error _, v, _) => (v, s.2)

/-- A new vault after some calls of `store`. -/
def stored (rng : CryptoRng (Vector UInt8) ρ) (spendKey : SpendKeyPair C)
    (calls : List (StoreCall ρ)) : Vault C × Documents :=
  Runs.run (afterStore rng) (new spendKey, fun _ => none) calls

/-- The vault holds honest envelopes of the documents and nothing else. -/
structure Keeps (spendKey : SpendKeyPair C) (v : Vault C) (docs : Documents) : Prop where
  spendKey_eq : v.spendKey = spendKey
  documents : ∀ name, Option.Rel (fun d e => ∃ listed,
    Encrypted (builder spendKey d.scope d.recipients) d.data spendKey listed e)
      (docs name) (v.documents.lookup name)

theorem Keeps.insert {spendKey : SpendKeyPair C} {v : Vault C} {docs : Documents}
    (h : Keeps spendKey v docs) {d : Document} {e : EncryptedEnvelope (Vector UInt8)}
    {listed : List (Recipient (Vector UInt8))}
    (he : Encrypted (builder spendKey d.scope d.recipients) d.data spendKey listed e)
    (name : List Char) : Keeps spendKey (v.insert name e) (Function.update docs name (some d)) where
  spendKey_eq := h.spendKey_eq
  documents other := by
    by_cases heq : other = name
    · subst heq
      rw [Function.update_self, lookup_insert]
      exact .some ⟨listed, he⟩
    · rw [Function.update_of_ne heq, lookup_insert_ne _ _ heq]
      exact h.documents other

theorem store_exec {rng : CryptoRng (Vector UInt8) ρ} {name : List Char} {scope : Scope}
    {data : Bytes} {recipients : List (Recipient (Vector UInt8))} {v : Vault C} {r : ρ} :
    (store rng name scope data recipients).exec (v, r) =
      match ((builder v.spendKey scope recipients).encrypt rng data).run r with
      | .ok (e, r') => (.ok ⟨⟩, (v.insert name e, r'))
      | .error f => (.error f, (v, r)) := by
  simp only [store, Program.exec_bind, Program.exec_get, Program.exec_attempt]
  cases ((builder v.spendKey scope recipients).encrypt rng data).run r <;> rfl

/-- A call of `store` keeps what the vault holds in step with what the owner stored. -/
theorem Keeps.afterStore {spendKey : SpendKeyPair C} {rng : CryptoRng (Vector UInt8) ρ}
    {s : Vault C × Documents} (h : Keeps spendKey s.1 s.2) (c : StoreCall ρ) :
    Keeps spendKey (afterStore rng s c).1 (afterStore rng s c).2 := by
  obtain ⟨v, docs⟩ := s
  have hsk : v.spendKey = spendKey := h.spendKey_eq
  simp only [Vault.afterStore, store_exec, hsk]
  cases he : ((builder spendKey c.document.scope c.document.recipients).encrypt rng
      c.document.data).run c.r with
  | error f => exact h
  | ok x =>
    obtain ⟨sk, listed, henc⟩ := EncryptBuilder.encrypt_run he
    obtain rfl : spendKey = sk := Option.some.inj henc.spendKey_eq
    exact h.insert henc c.name

theorem keeps_stored (rng : CryptoRng (Vector UInt8) ρ) (spendKey : SpendKeyPair C)
    (calls : List (StoreCall ρ)) :
    Keeps spendKey (stored rng spendKey calls).1 (stored rng spendKey calls).2 :=
  Runs.run_invariant (fun s : Vault C × Documents => Keeps spendKey s.1 s.2) calls
    (fun c _ _ hs => hs.afterStore c) ⟨rfl, fun _ => .none⟩

section Exact

variable {spendKey : SpendKeyPair C} {v v' : Vault C} {docs : Documents} {d : Document}
  {name : List Char} {k : ReadKeyPair C} {newRecipients : List (Recipient (Vector UInt8))}

theorem retrieve_of_lookup {e : EncryptedEnvelope (Vector UInt8)}
    (hname : v.documents.lookup name = some e) :
    v.retrieve name k = decrypt e k v.verifyingKey := by
  rw [retrieve, hname, okOr_some, ok_bind]

/-- What the owner stored under a name is in the vault. -/
theorem Keeps.exists_encrypted (h : Keeps spendKey v docs) (hd : docs name = some d) :
    ∃ e listed, v.documents.lookup name = some e ∧
      Encrypted (builder spendKey d.scope d.recipients) d.data spendKey listed e := by
  have hrel := h.documents name
  rw [hd] at hrel
  cases hl : v.documents.lookup name with
  | none =>
    rw [hl] at hrel
    cases hrel
  | some e =>
    rw [hl] at hrel
    obtain ⟨listed, henc⟩ := Option.rel_some_some.mp hrel
    exact ⟨e, listed, rfl, henc⟩

/-- A document at a scope or below was stored there. -/
theorem Keeps.exists_of_selects (h : Keeps spendKey v docs) {S : Scope}
    (hs : v.selects S name = true) :
    ∃ d, docs name = some d ∧ S.isAncestorOf d.scope = true := by
  obtain ⟨e, hname, hanc⟩ := exists_lookup_of_selects hs
  have hrel := h.documents name
  cases hd : docs name with
  | none =>
    rw [hd, hname] at hrel
    cases hrel
  | some d =>
    rw [hd, hname] at hrel
    obtain ⟨listed, henc⟩ := Option.rel_some_some.mp hrel
    exact ⟨d, rfl, by rwa [henc.scope] at hanc⟩

/-- The key is among the recipients, and who else has its identifier has its public key. -/
def Lists (k : ReadKeyPair C) (d : Document) : Prop :=
  k.recipient ∈ d.recipients ∧ ∀ r ∈ d.recipients, r.keyId = k.keyId → r.readPublicKey = k.publicKey

theorem Keeps.decrypt_of_lists (h : Keeps spendKey v docs) (hC : C.Correct)
    (hd : docs name = some d) (hk : Lists k d) :
    ∃ e, v.documents.lookup name = some e ∧ decrypt e k v.verifyingKey = .ok d.data := by
  obtain ⟨e, listed, hname, henc⟩ := h.exists_encrypted hd
  refine ⟨e, hname, ?_⟩
  rw [verifyingKey, h.spendKey_eq]
  exact henc.decrypt_listed hC rfl hk.1 hk.2

/-- What the loop did to a document: the new recipients read it, and no one else. -/
theorem Progress.retrieve_eq {done : List (List Char)} (h : Progress v k newRecipients done v')
    (hC : C.Correct) (hh : Honest C newRecipients) (hmem : name ∈ done) {data : Bytes}
    (hdata : v.retrieve name k = .ok data) {q : ReadKeyPair C} (hn : NoCollision q newRecipients) :
    v'.retrieve name q =
      if q.publicKey ∈ newRecipients.map Recipient.readPublicKey then .ok data
      else fail (.noMatchingAccessEntry (q.keyId.toBase58 C)) := by
  obtain ⟨e, p, e', listed, hname, hd, hname', henc⟩ := h.rekeyed name hmem
  rw [retrieve_of_lookup hname, hd] at hdata
  obtain rfl := Except.ok.inj hdata
  rw [retrieve_of_lookup hname', verifyingKey, h.spendKey]
  -- The two sides compare arrays by different instances.
  convert henc.decrypt_recipientMode hC rfl hh q hn
  rfl

theorem Progress.scope_eq {done : List (List Char)} (h : Progress v k newRecipients done v')
    (name : List Char) : (v'.documents.lookup name).map EncryptedEnvelope.scope =
      (v.documents.lookup name).map EncryptedEnvelope.scope := by
  by_cases hmem : name ∈ done
  · obtain ⟨e, p, e', listed, hname, _, hname', henc⟩ := h.rekeyed name hmem
    rw [hname, hname', Option.map_some, Option.map_some, henc.scope]
    rfl
  · rw [h.kept name hmem]

/-- Rekeying a scope that the key can read replaces the readers of exactly its documents. -/
theorem rekey_exact (hC : C.Correct) (hA : C.aes256GcmSiv.Accepts 32)
    (hT : C.chacha20Poly1305.Tagged) (hE : C.chacha20Poly1305.Reencrypts)
    (rng : CryptoRng (Vector UInt8) ρ) {calls : List (StoreCall ρ)}
    (hv : stored rng spendKey calls = (v, docs)) {S : Scope}
    (hroot : ∀ name d, docs name = some d → S.isAncestorOf d.scope = true → Lists k d)
    (hR : newRecipients ≠ []) (hh : Honest C newRecipients) {order : List (List Char)}
    (horder : order.Perm v.documents.keys) (r : ρ) :
    ∃ v' r', (rekey rng k newRecipients order S).exec (v, r) =
        (.ok (v.documents.keys.filter (v.selects S)).length, (v', r')) ∧
      (∀ name, (v'.documents.lookup name).map EncryptedEnvelope.scope =
        (v.documents.lookup name).map EncryptedEnvelope.scope) ∧
      (∀ name, v.selects S name = false →
        v'.documents.lookup name = v.documents.lookup name) ∧
      ∀ name, v.selects S name = true → ∃ data, v.retrieve name k = .ok data ∧
        (∃ d, docs name = some d ∧ d.data = data) ∧
        ∀ q : ReadKeyPair C, NoCollision q newRecipients → v'.retrieve name q =
          if q.publicKey ∈ newRecipients.map Recipient.readPublicKey then .ok data
          else fail (.noMatchingAccessEntry (q.keyId.toBase58 C)) := by
  have hkeeps := keeps_stored rng spendKey calls
  rw [hv] at hkeeps
  have hsel : ∀ name, v.selects S name = true → ∃ e d, v.documents.lookup name = some e ∧
      docs name = some d ∧ decrypt e k v.verifyingKey = .ok d.data := by
    intro name hs
    obtain ⟨d, hd, hanc⟩ := hkeeps.exists_of_selects hs
    obtain ⟨e, hname, hdec⟩ := hkeeps.decrypt_of_lists hC hd (hroot name d hd hanc)
    exact ⟨e, d, hname, hd, hdec⟩
  have hopen : ∀ name ∈ order.filter (v.selects S), Opens k v name := by
    intro name hmem
    obtain ⟨e, d, hname, _, hdec⟩ := hsel name (List.mem_filter.mp hmem).2
    exact ⟨e, d.data, hname, hdec⟩
  obtain ⟨v', r', hexec, hprog⟩ := exists_rekeyLoop hA hT hE rng hR
    (nodup_filter_of_perm horder _) hopen r
  refine ⟨v', r', ?_, hprog.scope_eq, fun name hs => hprog.kept name ?_, fun name hs => ?_⟩
  · simp only [rekey_exec, hexec, (horder.filter (v.selects S)).length_eq]
  · simp [hs]
  · obtain ⟨e, d, hname, hd, hdec⟩ := hsel name hs
    have hdata : v.retrieve name k = .ok d.data := by
      rw [retrieve_of_lookup hname, hdec]
    have hmem : name ∈ order.filter (v.selects S) := by
      have hkey : name ∈ v.documents.keys := by
        rw [← AList.mem_keys, ← AList.lookup_isSome, hname]
        rfl
      exact List.mem_filter.mpr ⟨horder.mem_iff.mpr hkey, hs⟩
    exact ⟨d.data, hdata, ⟨d, hd, rfl⟩, fun q hn => hprog.retrieve_eq hC hh hmem hdata hn⟩

/-- A document at a scope and one beside it, for different readers. -/
def zeroCalls : List (StoreCall ℕ) :=
  [⟨['a'], ⟨⟨['/', 'a', '/', 'b']⟩, [1, 2], [zeroChild.recipient, zeroRoot.recipient]⟩, 0⟩,
    ⟨['b'], ⟨⟨['/', 'c']⟩, [3], [zeroChild.recipient]⟩, 6⟩]

theorem rekey_exact_handover :
    ∃ v docs v' r', stored (Transparent.rng packArray) (zeroSpend packArray) zeroCalls = (v, docs) ∧
      (rekey (Transparent.rng packArray) zeroRoot [zeroChild.recipient] [['a'], ['b']]
        ⟨['/', 'a']⟩).exec (v, 9) = (.ok 1, (v', r')) ∧
      v'.documents.lookup ['b'] = v.documents.lookup ['b'] ∧
      v'.retrieve ['a'] zeroChild = .ok [1, 2] := by
  obtain ⟨v, hv, hkeys, hsel, hselb, hnames, hdata⟩ :
      ∃ v, stored (Transparent.rng packArray) (zeroSpend packArray) zeroCalls =
          (v, Function.update (Function.update (fun _ => none) ['a']
            (some ⟨⟨['/', 'a', '/', 'b']⟩, [1, 2], [zeroChild.recipient, zeroRoot.recipient]⟩)) ['b']
            (some ⟨⟨['/', 'c']⟩, [3], [zeroChild.recipient]⟩)) ∧
        [['a'], ['b']].Perm v.documents.keys ∧ v.selects ⟨['/', 'a']⟩ ['a'] = true ∧
        v.selects ⟨['/', 'a']⟩ ['b'] = false ∧
        (v.documents.keys.filter (v.selects ⟨['/', 'a']⟩)).length = 1 ∧
        v.retrieve ['a'] zeroRoot = .ok [1, 2] :=
    ⟨_, rfl, by decide +kernel, by decide +kernel, by decide +kernel, by decide +kernel,
      by decide +kernel⟩
  have hh : Honest Transparent.arrays [zeroChild.recipient] := by
    intro r hr
    rw [List.mem_singleton.mp hr]
    rfl
  have hroot : ∀ name d, Function.update (Function.update (fun _ : List Char => none) ['a']
      (some (⟨⟨['/', 'a', '/', 'b']⟩, [1, 2], [zeroChild.recipient, zeroRoot.recipient]⟩ : Document)))
        ['b'] (some ⟨⟨['/', 'c']⟩, [3], [zeroChild.recipient]⟩) name = some d →
      Scope.isAncestorOf ⟨['/', 'a']⟩ d.scope = true → Lists zeroRoot d := by
    intro name d hd hanc
    by_cases hb : name = ['b']
    · subst hb
      rw [Function.update_self] at hd
      obtain rfl := Option.some.inj hd
      exact absurd hanc (by decide +kernel)
    · rw [Function.update_of_ne hb] at hd
      by_cases ha : name = ['a']
      · subst ha
        rw [Function.update_self] at hd
        obtain rfl := Option.some.inj hd
        exact ⟨List.mem_cons_of_mem _ List.mem_cons_self, by decide +kernel⟩
      · rw [Function.update_of_ne ha] at hd
        cases hd
  have hn : NoCollision zeroChild [zeroChild.recipient] := by
    intro r hr _
    rw [List.mem_singleton.mp hr]
    rfl
  obtain ⟨v', r', hrun, _, hkept, hread⟩ := rekey_exact (Transparent.crypto_correct packArray)
    (Transparent.aead_accepts 32) Transparent.aead_tagged Transparent.aead_reencrypts
    (Transparent.rng packArray) hv hroot (List.cons_ne_nil zeroChild.recipient []) hh hkeys 9
  obtain ⟨data, hold, _, hq⟩ := hread ['a'] hsel
  rw [hdata] at hold
  obtain rfl := Except.ok.inj hold
  exact ⟨v, _, v', r', hv, by rw [hrun, hnames], hkept ['b'] hselb,
    (hq zeroChild hn).trans (if_pos List.mem_cons_self)⟩

end Exact

end Vault

end ReadOnlyKeys
