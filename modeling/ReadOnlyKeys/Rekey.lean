import ReadOnlyKeys.Access

/-!
# Rekeying

Rekeying replaces the access entries and signs the result with the caller's
spend key. The signature it checks first is checked against the key that the
envelope itself names.
-/
namespace ReadOnlyKeys
open Outcome Wire

variable {A : ℕ → Type} [ByteArrays A] {ρ : Type} {C : Crypto A} {rng : CryptoRng A ρ}

/-- What a rekeying that succeeds has checked, kept and replaced. -/
structure Rekeyed (e : EncryptedEnvelope A) (authorizedKey : ReadKeyPair C)
    (newRecipients : List (Recipient A)) (spendKey : SpendKeyPair C) (e' : EncryptedEnvelope A) :
    Prop where
  verified : ∃ vk, C.verifyingFromBytes e.spendPublicKey = some vk ∧
    C.verify vk e.signableBytes e.signature = true
  old_mode : e.accessMode = .recipient
  new_mode : e'.accessMode = .recipient
  version : e'.version = e.version
  algorithm : e'.algorithm = e.algorithm
  scope : e'.scope = e.scope
  mlkem : e'.ephemeralMlkemCiphertext = none
  nonce : e'.nonce = e.nonce
  ciphertext : e'.ciphertext = e.ciphertext
  tag : e'.tag = e.tag
  spendPublicKey : e'.spendPublicKey = C.verifyingAsBytes spendKey.verifyingKey
  signature : e'.signature = C.sign spendKey.signingKey e'.signableBytes
  rewrapped : ∃ dataKey ephemeral, unwrapFor e authorizedKey = .ok (asBytes dataKey) ∧
    e'.ephemeralX25519Public = C.publicFrom ephemeral ∧
    List.Forall₂ (Wraps C ephemeral dataKey) newRecipients e'.accessEntries

theorem rekeyRecipients_run {e e' : EncryptedEnvelope A} {authorizedKey : ReadKeyPair C}
    {newRecipients : List (Recipient A)} {spendKey : SpendKeyPair C} {s s' : ρ}
    (h : (rekeyRecipients rng e authorizedKey newRecipients spendKey).run s = .ok (e', s')) :
    Rekeyed e authorizedKey newRecipients spendKey e' := by
  simp only [rekeyRecipients, run_bind_eq_ok_iff, call_run_eq_ok_iff, require_eq_ok_iff,
    okOr_eq_ok_iff, unwrap_eq_ok_iff, run_pure_eq_ok_iff] at h
  obtain ⟨_, _, ⟨hmode, rfl⟩, _, _, ⟨_, rfl⟩, vk, _, ⟨hvk, rfl⟩, _, _, ⟨hver, rfl⟩, bytes, _,
    ⟨hun, rfl⟩, dataKey, _, ⟨hkey, rfl⟩, secret, _, _, entries, _, hentries, rfl, rfl⟩ := h
  have hold : e.accessMode = .recipient := by
    cases hm : e.accessMode with
    | recipient => rfl
    | scopeBased => exact absurd hm hmode
  exact ⟨⟨vk, hvk, hver⟩, hold, rfl, rfl, rfl, rfl, rfl, rfl, rfl, rfl, rfl, rfl, dataKey,
    C.staticFrom secret, by rw [hun, asBytes_ofSlice hkey], rfl, wrapFor_mapM_run hentries⟩

/-- A rekeyed envelope was signed by the spend key's holder if it named that key, and only then
when the signatures of that key bind to it. -/
theorem rekey_verifies_iff (hB : C.KeyBytes) {e e' : EncryptedEnvelope A}
    {authorizedKey : ReadKeyPair C} {newRecipients : List (Recipient A)}
    {spendKey : SpendKeyPair C} {s s' : ρ}
    (h : (rekeyRecipients rng e authorizedKey newRecipients spendKey).run s = .ok (e', s')) :
    (e.spendPublicKey = C.verifyingAsBytes spendKey.verifyingKey →
      C.verify spendKey.verifyingKey e.signableBytes e.signature = true) ∧
    (C.SignaturesBind spendKey.verifyingKey →
      C.verify spendKey.verifyingKey e.signableBytes e.signature = true →
        e.spendPublicKey = C.verifyingAsBytes spendKey.verifyingKey) := by
  obtain ⟨vk, hvk, hver⟩ := (rekeyRecipients_run h).verified
  constructor
  · intro hnamed
    rw [hnamed, hB.fromBytes_asBytes] at hvk
    rwa [Option.some.inj hvk]
  · intro hbind hown
    rw [← hbind _ _ _ hown hver, hB.asBytes_fromBytes _ _ hvk]

theorem rekey_verifies_iff_own :
    ∃ e s e' s', (((zeroBuilder packArray ['/', 'a']).addRecipient zeroRoot.recipient).encrypt
        (Transparent.rng packArray) [1, 2]).run 0 = .ok (e, s) ∧
      (rekeyRecipients (Transparent.rng packArray) e zeroRoot [zeroRoot.recipient]
        (zeroSpend packArray)).run s = .ok (e', s') ∧
      Transparent.arrays.verify (zeroSpend packArray).verifyingKey e.signableBytes e.signature =
        true ∧
      e.spendPublicKey = Transparent.arrays.verifyingAsBytes (zeroSpend packArray).verifyingKey := by
  obtain ⟨⟨e, s⟩, he, ⟨e', s'⟩, he', hown⟩ :
      ∃ r, (((zeroBuilder packArray ['/', 'a']).addRecipient zeroRoot.recipient).encrypt
        (Transparent.rng packArray) [1, 2]).run 0 = .ok r ∧
      ∃ r', (rekeyRecipients (Transparent.rng packArray) r.1 zeroRoot [zeroRoot.recipient]
        (zeroSpend packArray)).run r.2 = .ok r' ∧ r.1.spendPublicKey = zeros 32 :=
    ⟨_, rfl, _, rfl, rfl⟩
  have h := rekey_verifies_iff (Transparent.crypto_keyBytes packArray) he'
  exact ⟨e, s, e', s', he, he', h.1 hown,
    h.2 (Transparent.arrays_signaturesBind _) (h.1 hown)⟩

/-- A spend key other than that of the zero seed. -/
def strangerSpend : SpendKeyPair Transparent.arrays :=
  SpendKeyPair.fromSeed _ (packArray 32 [1])

section Audience

variable {C : Crypto (Vector UInt8)}

/-- Past its checks, a rekeying succeeds. -/
theorem rekeyRecipients_exists (hA : C.aes256GcmSiv.Accepts 32) (rng : CryptoRng (Vector UInt8) ρ)
    {e : EncryptedEnvelope (Vector UInt8)} {k : ReadKeyPair C}
    {newRecipients : List (Recipient (Vector UInt8))} {vk : C.VerifyingKey}
    {dataKey : Vector UInt8 32} (hmode : e.accessMode = .recipient) (hR : newRecipients ≠ [])
    (hvk : C.verifyingFromBytes e.spendPublicKey = some vk)
    (hver : C.verify vk e.signableBytes e.signature = true)
    (hun : unwrapFor e k = .ok (asBytes dataKey)) (spendKey : SpendKeyPair C) (s : ρ) :
    ∃ e' s', (rekeyRecipients rng e k newRecipients spendKey).run s = .ok (e', s') := by
  have hwrap := fun r (_ : r ∈ newRecipients) =>
    wrapFor_exists hA rng (C.staticFrom (rng.fillBytes 32 s).1) dataKey r
  obtain ⟨entries, s', hentries⟩ := run_mapM_exists hwrap (rng.fillBytes 32 s).2
  have hscope : e.accessMode ≠ .scopeBased := by
    rw [hmode]
    decide
  have hne : newRecipients.isEmpty = false := by
    simpa using hR
  simp only [rekeyRecipients, run_bind_eq_ok_iff, call_run_eq_ok_iff, require_eq_ok_iff,
    okOr_eq_ok_iff, unwrap_eq_ok_iff, run_pure_eq_ok_iff]
  exact ⟨_, s', (), s, ⟨hscope, rfl⟩, (), s, ⟨hne, rfl⟩, vk, s, ⟨hvk, rfl⟩, (), s, ⟨hver, rfl⟩, _, s,
    ⟨hun, rfl⟩, dataKey, s, ⟨ofSlice_asBytes _, rfl⟩, _, _, rfl, entries, s', hentries, rfl, rfl⟩

/-- What the opening of an envelope in recipient mode has found. -/
theorem decrypt_recipient_eq_ok_iff {e : EncryptedEnvelope A} {C : Crypto A} {k : ReadKeyPair C}
    {vk : C.VerifyingKey} {p : Bytes} (h : e.accessMode = .recipient) :
    decrypt e k vk = .ok p ↔ C.verify vk e.signableBytes e.signature = true ∧
      ∃ dataKey, unwrapFor e k = .ok dataKey ∧
        decryptPayload C dataKey e.ciphertext e.nonce e.tag = .ok p := by
  simp [decrypt, decryptKeyFor_recipient k h, bind_eq_ok_iff]

/-- A payload only decrypts under a data key of 32 bytes. -/
theorem ofSlice_of_decryptPayload {dataKey ct p : Bytes} {nonce : A 12} {tag : A 16}
    {C : Crypto A} (h : decryptPayload C dataKey ct nonce tag = .ok p) :
    ∃ key : A 32, ofSlice 32 dataKey = some key := by
  rw [decryptPayload, bind_eq_ok_iff] at h
  obtain ⟨cipher, hc, _⟩ := h
  rw [mapErr_eq_ok_iff, Aead.newFromSlice] at hc
  cases ho : (ofSlice 32 dataKey : Option (A 32)) with
  | none =>
    rw [ho] at hc
    cases hc
  | some key => exact ⟨key, rfl⟩

/-- The envelope a rekeying made opens for the new recipients, and for no one else. -/
theorem Rekeyed.decrypt_eq (hC : C.Correct) {e e' : EncryptedEnvelope (Vector UInt8)}
    {k : ReadKeyPair C} {newRecipients : List (Recipient (Vector UInt8))}
    {spendKey : SpendKeyPair C} {p : Bytes} (h : Rekeyed e k newRecipients spendKey e')
    (hd : decrypt e k spendKey.verifyingKey = .ok p) (hh : Honest C newRecipients)
    {r : ReadKeyPair C} (hn : NoCollision r newRecipients) :
    decrypt e' r spendKey.verifyingKey =
      if r.publicKey ∈ newRecipients.map Recipient.readPublicKey then .ok p
      else fail (.noMatchingAccessEntry (r.keyId.toBase58 C)) := by
  obtain ⟨_, dataKey, hun, hpay⟩ := (decrypt_recipient_eq_ok_iff h.old_mode).mp hd
  obtain ⟨key, ephemeral, hkey, hpub, hwraps⟩ := h.rewrapped
  have hw : WrappedFor C ephemeral key newRecipients e' := ⟨hpub, hwraps⟩
  have hver : C.verify spendKey.verifyingKey e'.signableBytes e'.signature = true := by
    rw [h.signature]
    exact hC.verify_sign _ _
  -- The payload fields are those the old data key was good for.
  have hnew : decryptPayload C (asBytes key) e'.ciphertext e'.nonce e'.tag = .ok p := by
    rw [hkey] at hun
    rw [Except.ok.inj hun, h.ciphertext, h.nonce, h.tag]
    exact hpay
  rw [decrypt, require_of _ _ hver, ok_bind, decryptKeyFor_recipient r h.new_mode, ok_bind]
  split_ifs with hr
  · rw [unwrapFor_of_mem hC hw hh hn hr, ok_bind, hnew]
  · rw [unwrapFor_of_notMem hw hh hn hr, error_bind]

/-- Rekeying keeps the payload and replaces the audience, and what it returns can be rekeyed
again. -/
theorem rekey_replaces_audience (hC : C.Correct) (hB : C.KeyBytes)
    (hA : C.aes256GcmSiv.Accepts 32) (rng : CryptoRng (Vector UInt8) ρ)
    {e : EncryptedEnvelope (Vector UInt8)} {k : ReadKeyPair C} {spendKey : SpendKeyPair C}
    {p : Bytes} {newRecipients : List (Recipient (Vector UInt8))}
    (hmode : e.accessMode = .recipient)
    (hnamed : e.spendPublicKey = C.verifyingAsBytes spendKey.verifyingKey)
    (hd : decrypt e k spendKey.verifyingKey = .ok p) (hR : newRecipients ≠ [])
    (hh : Honest C newRecipients) (s : ρ) :
    ∃ e' s', (rekeyRecipients rng e k newRecipients spendKey).run s = .ok (e', s') ∧
      e'.version = e.version ∧ e'.algorithm = e.algorithm ∧ e'.scope = e.scope ∧
      e'.nonce = e.nonce ∧ e'.ciphertext = e.ciphertext ∧ e'.tag = e.tag ∧
      e'.accessMode = .recipient ∧
      e'.spendPublicKey = C.verifyingAsBytes spendKey.verifyingKey ∧
      ∀ r : ReadKeyPair C, NoCollision r newRecipients → decrypt e' r spendKey.verifyingKey =
        if r.publicKey ∈ newRecipients.map Recipient.readPublicKey then .ok p
        else fail (.noMatchingAccessEntry (r.keyId.toBase58 C)) := by
  obtain ⟨hver, dataKey, hun, hpay⟩ := (decrypt_recipient_eq_ok_iff hmode).mp hd
  obtain ⟨key, hkey⟩ := ofSlice_of_decryptPayload hpay
  have hvk : C.verifyingFromBytes e.spendPublicKey = some spendKey.verifyingKey := by
    rw [hnamed, hB.fromBytes_asBytes]
  obtain ⟨e', s', hrun⟩ := rekeyRecipients_exists hA rng hmode hR hvk hver
    (by rw [hun, asBytes_ofSlice hkey]) spendKey s
  have hre := rekeyRecipients_run hrun
  exact ⟨e', s', hrun, hre.version, hre.algorithm, hre.scope, hre.nonce, hre.ciphertext, hre.tag,
    hre.new_mode, hre.spendPublicKey, fun r hn => hre.decrypt_eq hC hd hh hn⟩

/-- The read key of the zero seed for one segment. -/
def zeroChild : ReadKeyPair Transparent.arrays :=
  ReadKeyPair.fromSecretBytes _ (packArray 32 [2]) ⟨['/', 'a']⟩ none

/-- A rekeying that takes the only reader away and lets another in. -/
theorem rekey_replaces_audience_handover :
    ∃ e s e' s', (((zeroBuilder packArray ['/', 'a']).addRecipient zeroRoot.recipient).encrypt
        (Transparent.rng packArray) [1, 2]).run 0 = .ok (e, s) ∧
      (rekeyRecipients (Transparent.rng packArray) e zeroRoot [zeroChild.recipient]
        (zeroSpend packArray)).run s = .ok (e', s') ∧
      decrypt e' zeroChild (zeroSpend packArray).verifyingKey = .ok [1, 2] ∧
      decrypt e' zeroRoot (zeroSpend packArray).verifyingKey =
        fail (.noMatchingAccessEntry (zeroRoot.keyId.toBase58 Transparent.arrays)) := by
  obtain ⟨⟨e, s⟩, he, hmode, hnamed, hd⟩ :
      ∃ r, (((zeroBuilder packArray ['/', 'a']).addRecipient zeroRoot.recipient).encrypt
        (Transparent.rng packArray) [1, 2]).run 0 = .ok r ∧ r.1.accessMode = .recipient ∧
      r.1.spendPublicKey = zeros 32 ∧
      decrypt r.1 zeroRoot (zeroSpend packArray).verifyingKey = .ok [1, 2] :=
    ⟨_, rfl, rfl, rfl, by decide +kernel⟩
  have hh : Honest Transparent.arrays [zeroChild.recipient] := by
    intro r hr
    rw [List.mem_singleton.mp hr]
    rfl
  obtain ⟨e', s', hrun, -, -, -, -, -, -, -, -, hopen⟩ := rekey_replaces_audience
    (Transparent.crypto_correct packArray) (Transparent.crypto_keyBytes packArray)
    (Transparent.aead_accepts 32) (Transparent.rng packArray) hmode hnamed hd
    (List.cons_ne_nil zeroChild.recipient []) hh s
  refine ⟨e, s, e', s', he, hrun, (hopen zeroChild ?_).trans (if_pos List.mem_cons_self),
    (hopen zeroRoot ?_).trans (if_neg ?_)⟩
  · intro r hr _
    rw [List.mem_singleton.mp hr]
    rfl
  · intro r hr hid
    rw [List.mem_singleton.mp hr] at hid
    exact absurd hid (by decide +kernel)
  · decide +kernel

end Audience

section Panics

theorem unwrapDataKey_ne_panic {C : Crypto A} (entry : AccessEntry A) (sharedSecret : A 32)
    (keyId : KeyId A) : unwrapDataKey C entry sharedSecret keyId ≠ .error .panic := by
  rw [unwrapDataKey, ne_eq, bind_eq_panic_iff]
  rintro (h | ⟨cipher, _, h⟩)
  · exact mapErr_ne_panic _ _ h
  · exact okOr_ne_panic _ _ h

theorem unwrapFor_ne_panic {C : Crypto A} (e : EncryptedEnvelope A) (k : ReadKeyPair C) :
    unwrapFor e k ≠ .error .panic := by
  rw [unwrapFor, ne_eq, bind_eq_panic_iff]
  rintro (h | ⟨entry, _, h⟩)
  · exact okOr_ne_panic _ _ h
  · exact unwrapDataKey_ne_panic _ _ _ h

theorem decryptKeyFor_ne_panic {C : Crypto A} {e : EncryptedEnvelope A} {k : ReadKeyPair C}
    (he : e.scope.Sliceable) (hk : k.scope.Sliceable) : decryptKeyFor e k ≠ .error .panic := by
  cases hmode : e.accessMode with
  | recipient =>
    simp [decryptKeyFor_recipient k hmode]
  | scopeBased =>
    rw [decryptKeyFor_scopeBased hmode]
    by_cases hanc : k.scope.isAncestorOf e.scope = true
    · obtain ⟨d, hd, _⟩ := ReadKeyPair.exists_reach hk he hanc
      simp [hd]
    · simp [ReadKeyPair.reach_of_not_ancestor hanc]

theorem decryptPayload_ne_panic {C : Crypto A} (dataKey ciphertext : Bytes) (nonce : A 12)
    (tag : A 16) : decryptPayload C dataKey ciphertext nonce tag ≠ .error .panic := by
  rw [decryptPayload, ne_eq, bind_eq_panic_iff]
  rintro (h | ⟨cipher, _, h⟩)
  · exact mapErr_ne_panic _ _ h
  · exact okOr_ne_panic _ _ h

theorem decrypt_ne_panic {C : Crypto A} {e : EncryptedEnvelope A} {k : ReadKeyPair C}
    (he : e.scope.Sliceable) (hk : k.scope.Sliceable) (vk : C.VerifyingKey) :
    decrypt e k vk ≠ .error .panic := by
  simp only [decrypt, ne_eq, bind_eq_panic_iff]
  rintro (h | ⟨_, _, h | ⟨_, _, h | ⟨_, _, h⟩⟩⟩)
  · exact require_ne_panic _ _ h
  · exact decryptKeyFor_ne_panic he hk h
  · exact unwrapFor_ne_panic _ _ h
  · exact decryptPayload_ne_panic _ _ _ _ h

theorem wrapFor_ne_panic {C : Crypto A} (rng : CryptoRng A ρ) (ephemeral : C.StaticSecret)
    (dataKey : A 32) (r : Recipient A) (s : ρ) :
    (wrapFor C rng ephemeral dataKey r).run s ≠ .error .panic := by
  simp only [wrapFor, wrapDataKey, ne_eq, run_bind_eq_panic_iff, call_run_eq_panic_iff,
    CryptoRng.fill_run, mapErr_ne_panic, run_pure_ne_panic]
  simp

variable {C : Crypto (Vector UInt8)}

/-- The checks in front of the copy of the data key pass, and the entry of the key unwraps. -/
structure ReachesCopy (e : EncryptedEnvelope (Vector UInt8)) (k : ReadKeyPair C)
    (newRecipients : List (Recipient (Vector UInt8))) (entry : AccessEntry (Vector UInt8)) :
    Prop where
  mode : e.accessMode ≠ .scopeBased
  recipients : newRecipients ≠ []
  verified : ∃ vk, C.verifyingFromBytes e.spendPublicKey = some vk ∧
    C.verify vk e.signableBytes e.signature = true
  found : e.accessEntries.find? (fun entry => entry.readKeyId = k.keyId) = some entry
  unwraps : (unwrapDataKey C entry (C.diffieHellman k.secret e.ephemeralX25519Public)
    k.keyId).isOk = true

/-- A rekeying panics exactly when the data key it copies has not 32 bytes. -/
theorem rekeyRecipients_eq_panic_iff (rng : CryptoRng (Vector UInt8) ρ)
    (e : EncryptedEnvelope (Vector UInt8)) (k : ReadKeyPair C)
    (newRecipients : List (Recipient (Vector UInt8))) (spendKey : SpendKeyPair C) (s : ρ) :
    (rekeyRecipients rng e k newRecipients spendKey).run s = .error .panic ↔
      e.accessMode ≠ .scopeBased ∧ newRecipients ≠ [] ∧
      (∃ vk, C.verifyingFromBytes e.spendPublicKey = some vk ∧
        C.verify vk e.signableBytes e.signature = true) ∧
      ∃ dataKey, unwrapFor e k = .ok dataKey ∧ dataKey.length ≠ 32 := by
  have hloop : ∀ ephemeral dataKey s, (newRecipients.mapM (wrapFor C rng ephemeral dataKey)).run s ≠
      .error .panic := fun ephemeral dataKey =>
    run_mapM_ne_panic fun r _ => wrapFor_ne_panic rng ephemeral dataKey r
  simp only [rekeyRecipients, run_bind_eq_panic_iff, call_run_eq_panic_iff, require_ne_panic,
    call_run_eq_ok_iff, require_eq_ok_iff, okOr_ne_panic, okOr_eq_ok_iff, unwrapFor_ne_panic,
    unwrap_eq_panic_iff, unwrap_eq_ok_iff, false_or, CryptoRng.fill_run, hloop, run_pure_ne_panic,
    ofSlice_vector_eq_none_iff, reduceCtorEq, and_false, exists_false, or_false,
    List.isEmpty_eq_false_iff]
  constructor
  · rintro ⟨_, _, ⟨hmode, rfl⟩, _, _, ⟨hR, rfl⟩, vk, _, ⟨hvk, rfl⟩, _, _, ⟨hver, rfl⟩, dataKey, _,
      ⟨hun, rfl⟩, hlen⟩
    exact ⟨hmode, hR, ⟨vk, hvk, hver⟩, dataKey, hun, hlen⟩
  · rintro ⟨hmode, hR, ⟨vk, hvk, hver⟩, dataKey, hun, hlen⟩
    exact ⟨(), s, ⟨hmode, rfl⟩, (), s, ⟨hR, rfl⟩, vk, s, ⟨hvk, rfl⟩, (), s, ⟨hver, rfl⟩, dataKey, s,
      ⟨hun, rfl⟩, hlen⟩

/-- What the authorized key unwraps, entry by entry. -/
theorem unwrapFor_eq_ok_iff {C : Crypto A} {e : EncryptedEnvelope A} {k : ReadKeyPair C}
    {dataKey : Bytes} : unwrapFor e k = .ok dataKey ↔
      ∃ entry, e.accessEntries.find? (fun entry => entry.readKeyId = k.keyId) = some entry ∧
        unwrapDataKey C entry (C.diffieHellman k.secret e.ephemeralX25519Public) k.keyId =
          .ok dataKey := by
  rw [unwrapFor, bind_eq_ok_iff]
  simp only [okOr_eq_ok_iff]

/-- A wrapped key is 16 bytes longer than what it unwraps to. -/
theorem unwrapDataKey_length {C : Crypto A} (hS : C.aes256GcmSiv.Strips) {entry : AccessEntry A}
    {sharedSecret : A 32} {keyId : KeyId A} {dataKey : Bytes}
    (h : unwrapDataKey C entry sharedSecret keyId = .ok dataKey) :
    entry.wrappedDataKey.length = dataKey.length + 16 := by
  rw [unwrapDataKey, bind_eq_ok_iff] at h
  obtain ⟨cipher, _, h⟩ := h
  exact hS _ _ _ _ ((okOr_eq_ok_iff _ _ _).mp h)

/-- A rekeying returns unless it reaches the copy with a wrapped key of the wrong length. -/
theorem rekey_returns_iff (hS : C.aes256GcmSiv.Strips) (rng : CryptoRng (Vector UInt8) ρ)
    (e : EncryptedEnvelope (Vector UInt8)) (k : ReadKeyPair C)
    (newRecipients : List (Recipient (Vector UInt8))) (spendKey : SpendKeyPair C) (s : ρ) :
    (rekeyRecipients rng e k newRecipients spendKey).run s ≠ .error .panic ↔
      ∀ entry, ReachesCopy e k newRecipients entry → entry.wrappedDataKey.length = 48 := by
  rw [ne_eq, rekeyRecipients_eq_panic_iff]
  constructor
  · intro hno entry h
    obtain ⟨dataKey, hun⟩ : ∃ dataKey, unwrapDataKey C entry
        (C.diffieHellman k.secret e.ephemeralX25519Public) k.keyId = .ok dataKey := by
      have hok := h.unwraps
      cases hu : unwrapDataKey C entry (C.diffieHellman k.secret e.ephemeralX25519Public) k.keyId with
      | error fault =>
        rw [hu] at hok
        cases hok
      | ok dataKey => exact ⟨dataKey, rfl⟩
    by_contra hlen
    refine hno ⟨h.mode, h.recipients, h.verified, dataKey,
      unwrapFor_eq_ok_iff.mpr ⟨entry, h.found, hun⟩, fun h32 => hlen ?_⟩
    rw [unwrapDataKey_length hS hun, h32]
  · rintro hall ⟨hmode, hR, hver, dataKey, hun, hlen⟩
    obtain ⟨entry, hf, hu⟩ := unwrapFor_eq_ok_iff.mp hun
    have h48 := hall entry ⟨hmode, hR, hver, hf, by rw [hu]; rfl⟩
    rw [unwrapDataKey_length hS hu] at h48
    omega

/-- An envelope with a data key of one byte, wrapped for a reader. -/
def shortKeyEnvelope : EncryptedEnvelope (Vector UInt8) :=
  EncryptedEnvelope.signedBy (C := Transparent.arrays) strangerSpend {
    version := 2
    algorithm := .eciesX25519ChaCha20
    scope := ⟨['/', 'a']⟩
    ephemeralX25519Public := zeros 32
    ephemeralMlkemCiphertext := none
    accessEntries := [⟨zeroRoot.keyId, 7 :: Transparent.tag (deriveWrappingKey Transparent.arrays
      (Transparent.arrays.diffieHellman zeroRoot.secret (zeros 32)) zeroRoot.keyId), zeros 12⟩]
    nonce := zeros 12
    ciphertext := []
    tag := zeros 16
    signature := zeros 64
    spendPublicKey := Transparent.arrays.verifyingAsBytes strangerSpend.verifyingKey
    accessMode := .recipient }

/-- The envelope of a stranger panics the owner's rekeying, and only fails to decrypt. -/
theorem rekey_panics_shortKey :
    (rekeyRecipients (Transparent.rng packArray) shortKeyEnvelope zeroRoot [zeroRoot.recipient]
        (zeroSpend packArray)).run 0 = .error .panic ∧
      decrypt shortKeyEnvelope zeroRoot strangerSpend.verifyingKey =
        fail (.decryptionError "ChaCha20 init: Invalid Length") := by
  constructor
  · decide +kernel
  · decide +kernel

theorem rekey_returns_iff_honest :
    ∃ e s, (((zeroBuilder packArray ['/', 'a']).addRecipient zeroRoot.recipient).encrypt
        (Transparent.rng packArray) [1, 2]).run 0 = .ok (e, s) ∧
      (rekeyRecipients (Transparent.rng packArray) e zeroRoot [zeroRoot.recipient]
        (zeroSpend packArray)).run s ≠ .error .panic := by
  obtain ⟨⟨e, s⟩, he, hall⟩ :
      ∃ r, (((zeroBuilder packArray ['/', 'a']).addRecipient zeroRoot.recipient).encrypt
        (Transparent.rng packArray) [1, 2]).run 0 = .ok r ∧
      ∀ entry ∈ r.1.accessEntries, entry.wrappedDataKey.length = 48 :=
    ⟨_, rfl, by decide +kernel⟩
  exact ⟨e, s, he, (rekey_returns_iff Transparent.aead_strips _ e zeroRoot _ _ s).mpr
    fun entry h => hall entry (List.mem_of_find?_eq_some h.found)⟩

end Panics

/-- An envelope that a stranger signed for a reader of the owner does not open under the owner's
key, and does after the owner rekeyed it. -/
theorem rekey_launders_stranger :
    ∃ e s e' s', (((EncryptBuilder.new Transparent.arrays .eciesX25519ChaCha20
          ⟨['/', 'a']⟩).addRecipient zeroRoot.recipient).setSpendKey strangerSpend |>.encrypt
        (Transparent.rng packArray) [1, 2]).run 0 = .ok (e, s) ∧
      (rekeyRecipients (Transparent.rng packArray) e zeroRoot [zeroRoot.recipient]
        (zeroSpend packArray)).run s = .ok (e', s') ∧
      Transparent.arrays.verify (zeroSpend packArray).verifyingKey e.signableBytes e.signature =
        false ∧
      decrypt e zeroRoot (zeroSpend packArray).verifyingKey = fail .signatureVerificationFailed ∧
      decrypt e' zeroRoot (zeroSpend packArray).verifyingKey = .ok [1, 2] :=
  ⟨_, _, _, _, rfl, rfl, by decide +kernel, by decide +kernel, by decide +kernel⟩

end ReadOnlyKeys
