import ReadOnlyKeys.Encrypt

/-!
# Who can open an envelope

`SealedWith` says what an honest encryption leaves in an envelope. A key opens a
sealed envelope when it is one of the recipients, so recipient mode admits the
listed keys, and scope-based mode the keys from which the key of the scope is
derived.
-/
namespace ReadOnlyKeys
open Outcome Wire

variable {A : ℕ → Type} [ByteArrays A] {ρ : Type}

/-- `entry` holds the data key, wrapped for the recipient with the ephemeral secret. -/
structure Wraps (C : Crypto A) (ephemeral : C.StaticSecret) (dataKey : A 32)
    (recipient : Recipient A) (entry : AccessEntry A) : Prop where
  readKeyId : entry.readKeyId = recipient.keyId
  encrypted : C.aes256GcmSiv.encrypt
    (deriveWrappingKey C (C.diffieHellman ephemeral recipient.readPublicKey) recipient.keyId)
    entry.wrapNonce (asBytes dataKey) = .ok entry.wrappedDataKey

/-- The envelope carries `plaintext` under `dataKey`, wrapped for the recipients in order. -/
structure SealedWith (C : Crypto A) (ephemeral : C.StaticSecret) (dataKey : A 32)
    (recipients : List (Recipient A)) (plaintext : Bytes) (e : EncryptedEnvelope A) : Prop where
  ephemeralPublic : e.ephemeralX25519Public = C.publicFrom ephemeral
  payload : C.chacha20Poly1305.encrypt dataKey e.nonce plaintext =
    .ok (e.ciphertext ++ asBytes e.tag)
  entries : List.Forall₂ (Wraps C ephemeral dataKey) recipients e.accessEntries

/-- The data key is wrapped for the recipients in order, with one ephemeral secret. -/
structure WrappedFor (C : Crypto A) (ephemeral : C.StaticSecret) (dataKey : A 32)
    (recipients : List (Recipient A)) (e : EncryptedEnvelope A) : Prop where
  ephemeralPublic : e.ephemeralX25519Public = C.publicFrom ephemeral
  entries : List.Forall₂ (Wraps C ephemeral dataKey) recipients e.accessEntries

variable {C : Crypto A} {rng : CryptoRng A ρ}

theorem SealedWith.wrapped {ephemeral : C.StaticSecret} {dataKey : A 32}
    {recipients : List (Recipient A)} {plaintext : Bytes} {e : EncryptedEnvelope A}
    (h : SealedWith C ephemeral dataKey recipients plaintext e) :
    WrappedFor C ephemeral dataKey recipients e :=
  ⟨h.ephemeralPublic, h.entries⟩

theorem encryptPayload_run {dataKey : A 32} {plaintext ct : Bytes} {nonce : A 12} {tag : A 16}
    {s s' : ρ} (h : (encryptPayload C rng dataKey plaintext).run s = .ok ((ct, nonce, tag), s')) :
    C.chacha20Poly1305.encrypt dataKey nonce plaintext = .ok (ct ++ asBytes tag) := by
  simp only [encryptPayload, run_bind_eq_ok_iff, call_run_eq_ok_iff, mapErr_eq_ok_iff,
    Aead.newFromSlice_asBytes, unwrap_eq_ok_iff, run_pure_eq_ok_iff] at h
  obtain ⟨n, _, _, cipher, _, ⟨hc, rfl⟩, encrypted, _, ⟨he, rfl⟩, ⟨x, tagBytes⟩, _, ⟨hsplit, rfl⟩, t,
    _, ⟨ht, rfl⟩, h, rfl⟩ := h
  obtain rfl := Except.ok.inj hc
  obtain ⟨rfl, rfl, rfl⟩ : x = ct ∧ n = nonce ∧ t = tag := by simpa using h
  unfold splitTag at hsplit
  split_ifs at hsplit
  obtain ⟨rfl, rfl⟩ : _ ∧ _ := by simpa using hsplit
  rw [he, asBytes_ofSlice ht, List.take_append_drop]

theorem wrapDataKey_run {dataKey sharedSecret : A 32} {keyId : KeyId A} {entry : AccessEntry A}
    {s s' : ρ} (h : (wrapDataKey C rng dataKey sharedSecret keyId).run s = .ok (entry, s')) :
    entry.readKeyId = keyId ∧ C.aes256GcmSiv.encrypt (deriveWrappingKey C sharedSecret keyId)
      entry.wrapNonce (asBytes dataKey) = .ok entry.wrappedDataKey := by
  simp only [wrapDataKey, run_bind_eq_ok_iff, call_run_eq_ok_iff, mapErr_eq_ok_iff,
    Aead.newFromSlice_asBytes, run_pure_eq_ok_iff] at h
  obtain ⟨n, _, _, cipher, _, ⟨hc, rfl⟩, wrapped, _, ⟨hw, rfl⟩, rfl, rfl⟩ := h
  obtain rfl := Except.ok.inj hc
  exact ⟨rfl, hw⟩

/-- The wrap loop gives one entry for each recipient, in order. -/
theorem wrapFor_mapM_run {ephemeral : C.StaticSecret} {dataKey : A 32}
    {recipients : List (Recipient A)} {entries : List (AccessEntry A)} {s s' : ρ}
    (h : (recipients.mapM (wrapFor C rng ephemeral dataKey)).run s = .ok (entries, s')) :
    List.Forall₂ (Wraps C ephemeral dataKey) recipients entries := by
  refine run_mapM_forall₂ _ _ (fun r s entry s' hr => ?_) recipients s s' entries h
  obtain ⟨hid, henc⟩ := wrapDataKey_run hr
  exact ⟨hid, henc⟩

/-- What an encryption that succeeds produces. -/
structure Encrypted (b : EncryptBuilder C) (plaintext : Bytes) (spendKey : SpendKeyPair C)
    (recipients : List (Recipient A)) (e : EncryptedEnvelope A) : Prop where
  spendKey_eq : b.spendKey = some spendKey
  resolve_eq : b.resolve spendKey = .ok (recipients, e.accessMode)
  version : e.version = EncryptedEnvelope.currentVersion
  algorithm : e.algorithm = b.algorithm
  scope : e.scope = b.scope
  mlkem : e.ephemeralMlkemCiphertext = none
  spendPublicKey : e.spendPublicKey = C.verifyingAsBytes spendKey.verifyingKey
  signature : e.signature = C.sign spendKey.signingKey e.signableBytes
  sealed : ∃ ephemeral dataKey, SealedWith C ephemeral dataKey recipients plaintext e

theorem EncryptBuilder.encrypt_run {b : EncryptBuilder C} {plaintext : Bytes}
    {e : EncryptedEnvelope A} {s s' : ρ} (h : (b.encrypt rng plaintext).run s = .ok (e, s')) :
    ∃ spendKey recipients, Encrypted b plaintext spendKey recipients e := by
  simp only [EncryptBuilder.encrypt, run_bind_eq_ok_iff, call_run_eq_ok_iff, okOr_eq_ok_iff,
    run_pure_eq_ok_iff] at h
  obtain ⟨sk, _, ⟨hsk, rfl⟩, ⟨rs, mode⟩, _, ⟨hrs, rfl⟩, dataKey, _, _, secret, _, _,
    ⟨ct, nonce, tag⟩, _, hpay, entries, _, hentries, rfl, rfl⟩ := h
  exact ⟨sk, rs, hsk, hrs, rfl, rfl, rfl, rfl, rfl, rfl, C.staticFrom secret, dataKey, rfl,
    encryptPayload_run hpay, wrapFor_mapM_run hentries⟩

/-- The ephemeral secret is the second draw of an encryption. -/
theorem EncryptBuilder.encrypt_ephemeral {b : EncryptBuilder C} {plaintext : Bytes}
    {e : EncryptedEnvelope A} {s s' : ρ} (h : (b.encrypt rng plaintext).run s = .ok (e, s')) :
    e.ephemeralX25519Public =
      C.publicFrom (C.staticFrom (rng.fillBytes 32 (rng.fillBytes 32 s).2).1) := by
  simp only [EncryptBuilder.encrypt, run_bind_eq_ok_iff, call_run_eq_ok_iff, CryptoRng.fill_run,
    Except.ok.injEq, run_pure_eq_ok_iff] at h
  obtain ⟨_, _, ⟨_, rfl⟩, _, _, ⟨_, rfl⟩, dataKey, _, hkey, secret, _, hsecret, _, _, _, _, _, _, rfl,
    _⟩ := h
  rw [hkey, hsecret]
  rfl

section Succeeds

variable {C : Crypto (Vector UInt8)}

/-- Wrapping a data key succeeds in every state of the generator. -/
theorem wrapFor_exists (hA : C.aes256GcmSiv.Accepts 32) (rng : CryptoRng (Vector UInt8) ρ)
    (ephemeral : C.StaticSecret) (dataKey : Vector UInt8 32) (r : Recipient (Vector UInt8)) (s : ρ) :
    ∃ entry s', (wrapFor C rng ephemeral dataKey r).run s = .ok (entry, s') := by
  obtain ⟨ct, hct⟩ := hA (deriveWrappingKey C (C.diffieHellman ephemeral r.readPublicKey) r.keyId)
    (rng.fillBytes 12 s).1 (asBytes dataKey) (by simp)
  refine ⟨⟨r.keyId, ct, (rng.fillBytes 12 s).1⟩, (rng.fillBytes 12 s).2, ?_⟩
  simp only [wrapFor, wrapDataKey, StateT.run_bind, CryptoRng.fill_run, ok_bind,
    Aead.newFromSlice_asBytes, mapErr_ok, call_run_ok, hct]
  rfl

theorem encryptPayload_exists (hT : C.chacha20Poly1305.Tagged) (rng : CryptoRng (Vector UInt8) ρ)
    {plaintext : Bytes} (hp : ∀ k n, ∃ ct, C.chacha20Poly1305.encrypt k n plaintext = .ok ct)
    (dataKey : Vector UInt8 32) (s : ρ) :
    ∃ sealed s', (encryptPayload C rng dataKey plaintext).run s = .ok (sealed, s') := by
  obtain ⟨ct, hct⟩ := hp dataKey (rng.fillBytes 12 s).1
  have hlen := hT _ _ _ _ hct
  have hsplit : splitTag ct = .ok (ct.take (ct.length - 16), ct.drop (ct.length - 16)) :=
    if_pos (by omega)
  have htag := ofSlice_vector (ct.drop (ct.length - 16)) (n := 16) (by
    rw [List.length_drop]
    omega)
  simp only [encryptPayload, run_bind_eq_ok_iff, call_run_eq_ok_iff, mapErr_eq_ok_iff,
    Aead.newFromSlice_asBytes, unwrap_eq_ok_iff, run_pure_eq_ok_iff]
  exact ⟨_, _, _, _, rfl, dataKey, _, ⟨rfl, rfl⟩, ct, _, ⟨hct, rfl⟩, _, _, ⟨hsplit, rfl⟩, _, _,
    ⟨htag, rfl⟩, rfl, rfl⟩

/-- An encryption succeeds if it has recipients and the cipher takes the plaintext. -/
theorem EncryptBuilder.encrypt_exists_of_resolve (hA : C.aes256GcmSiv.Accepts 32)
    (hT : C.chacha20Poly1305.Tagged) (rng : CryptoRng (Vector UInt8) ρ) {b : EncryptBuilder C}
    {spendKey : SpendKeyPair C} {plaintext : Bytes} (hsk : b.spendKey = some spendKey)
    {resolved : List (Recipient (Vector UInt8)) × AccessMode}
    (hresolve : b.resolve spendKey = .ok resolved)
    (hp : ∀ k n, ∃ ct, C.chacha20Poly1305.encrypt k n plaintext = .ok ct) (s : ρ) :
    ∃ e s', (b.encrypt rng plaintext).run s = .ok (e, s') := by
  obtain ⟨recipients, mode⟩ := resolved
  rcases hk : rng.fillBytes 32 s with ⟨dataKey, s₁⟩
  rcases he : rng.fillBytes 32 s₁ with ⟨secret, s₂⟩
  obtain ⟨⟨ct, nonce, tag⟩, s₃, hpay⟩ := encryptPayload_exists hT rng hp dataKey s₂
  have hwrap := fun r (_ : r ∈ recipients) =>
    wrapFor_exists hA rng (C.staticFrom secret) dataKey r
  obtain ⟨entries, s₄, hentries⟩ := run_mapM_exists hwrap s₃
  simp only [EncryptBuilder.encrypt, run_bind_eq_ok_iff, call_run_eq_ok_iff, okOr_eq_ok_iff,
    run_pure_eq_ok_iff, CryptoRng.fill_run]
  exact ⟨_, _, spendKey, s, ⟨hsk, rfl⟩, _, s, ⟨hresolve, rfl⟩, dataKey, s₁, congrArg _ hk, secret, s₂,
    congrArg _ he, _, s₃, hpay, entries, s₄, hentries, rfl, rfl⟩

/-- An encryption for listed recipients succeeds if the cipher takes the plaintext. -/
theorem EncryptBuilder.encrypt_exists (hA : C.aes256GcmSiv.Accepts 32)
    (hT : C.chacha20Poly1305.Tagged) (rng : CryptoRng (Vector UInt8) ρ) {b : EncryptBuilder C}
    {spendKey : SpendKeyPair C} {plaintext : Bytes} (hsk : b.spendKey = some spendKey)
    (hb : b.scopeBased = false) (hr : b.recipients ≠ [])
    (hp : ∀ k n, ∃ ct, C.chacha20Poly1305.encrypt k n plaintext = .ok ct) (s : ρ) :
    ∃ e s', (b.encrypt rng plaintext).run s = .ok (e, s') := by
  have hresolve : b.resolve spendKey = .ok (b.recipients, .recipient) := by
    rw [EncryptBuilder.resolve, hb, if_neg (by decide), require_of _ _ (by simpa using hr), ok_bind]
    rfl
  exact encrypt_exists_of_resolve hA hT rng hsk hresolve hp s

/-- What the cipher refuses is refused with an error. -/
theorem EncryptBuilder.encrypt_refuses (rng : CryptoRng (Vector UInt8) ρ) {b : EncryptBuilder C}
    {spendKey : SpendKeyPair C} {plaintext : Bytes} (hsk : b.spendKey = some spendKey)
    {resolved : List (Recipient (Vector UInt8)) × AccessMode}
    (hresolve : b.resolve spendKey = .ok resolved)
    (hp : ∀ k n, ∃ e, C.chacha20Poly1305.encrypt k n plaintext = .error e) (s : ρ) :
    ∃ err, (b.encrypt rng plaintext).run s = fail err := by
  rcases hk : rng.fillBytes 32 s with ⟨dataKey, s₁⟩
  rcases he : rng.fillBytes 32 s₁ with ⟨secret, s₂⟩
  obtain ⟨e, herr⟩ := hp dataKey (rng.fillBytes 12 s₂).1
  refine ⟨.encryptionError s!"ChaCha20 encrypt: {e}", ?_⟩
  simp only [EncryptBuilder.encrypt, encryptPayload, StateT.run_bind, hsk, okOr_some, call_run_ok,
    ok_bind, hresolve, CryptoRng.fill_run, hk, he, Aead.newFromSlice_asBytes, mapErr_ok, herr]
  rfl

end Succeeds

/-- Each key identifier is the one of the public key it stands for. -/
def Honest (C : Crypto A) (recipients : List (Recipient A)) : Prop :=
  ∀ r ∈ recipients, r.keyId = KeyId.fromPublicBytes C (asBytes r.readPublicKey)

/-- No listed public key other than the reader's own has the reader's key identifier. -/
def NoCollision (k : ReadKeyPair C) (recipients : List (Recipient A)) : Prop :=
  ∀ r ∈ recipients, KeyId.fromPublicBytes C (asBytes r.readPublicKey) = k.keyId →
    r.readPublicKey = k.publicKey

section Opening

variable {ephemeral : C.StaticSecret} {dataKey : A 32} {recipients : List (Recipient A)}
  {plaintext : Bytes} {e : EncryptedEnvelope A} {k : ReadKeyPair C}

/-- A data key is unwrapped with the secret it was wrapped with. -/
theorem unwrapDataKey_of_encrypt (hC : C.Correct) {entry : AccessEntry A} {sharedSecret : A 32}
    {keyId : KeyId A} (h : C.aes256GcmSiv.encrypt (deriveWrappingKey C sharedSecret keyId)
      entry.wrapNonce (asBytes dataKey) = .ok entry.wrappedDataKey) :
    unwrapDataKey C entry sharedSecret keyId = .ok (asBytes dataKey) := by
  rw [unwrapDataKey, Aead.newFromSlice_asBytes, mapErr_ok, ok_bind, hC.aes _ _ _ _ h, okOr_some]

/-- A wrapped data key is unwrapped with the shared secret of the other side. -/
theorem unwrapDataKey_of_wraps (hC : C.Correct) {r : Recipient A} {entry : AccessEntry A}
    (h : Wraps C ephemeral dataKey r entry) (hid : r.keyId = k.keyId)
    (hpk : r.readPublicKey = k.publicKey) :
    unwrapDataKey C entry (C.diffieHellman k.secret (C.publicFrom ephemeral)) k.keyId =
      .ok (asBytes dataKey) := by
  have henc := h.encrypted
  rw [hid, hpk, k.public_eq, hC.dh_comm] at henc
  exact unwrapDataKey_of_encrypt hC henc

theorem decryptPayload_of_encrypt (hC : C.Correct) (h : C.chacha20Poly1305.encrypt dataKey e.nonce
    plaintext = .ok (e.ciphertext ++ asBytes e.tag)) :
    decryptPayload C (asBytes dataKey) e.ciphertext e.nonce e.tag = .ok plaintext := by
  rw [decryptPayload, Aead.newFromSlice_asBytes, mapErr_ok, ok_bind, hC.chacha _ _ _ _ h,
    okOr_some]

/-- A listed key opens its entry, if whoever else has its identifier has its public key. -/
theorem unwrapFor_of_listed (hC : C.Correct)
    (h : WrappedFor C ephemeral dataKey recipients e) (hk : k.recipient ∈ recipients)
    (hn : ∀ r ∈ recipients, r.keyId = k.keyId → r.readPublicKey = k.publicKey) :
    unwrapFor e k = .ok (asBytes dataKey) := by
  obtain ⟨entry, hentry, hw⟩ := exists_mem_of_forall₂ h.entries.flip hk
  cases hf : e.accessEntries.find? fun entry => entry.readKeyId = k.keyId with
  | none =>
    have hne := List.find?_eq_none.mp hf entry hentry
    exact absurd (decide_eq_true hw.readKeyId) hne
  | some first =>
    obtain ⟨r', hr', hw'⟩ := exists_mem_of_forall₂ h.entries (List.mem_of_find?_eq_some hf)
    have hid : r'.keyId = k.keyId := by
      rw [← hw'.readKeyId]
      simpa using List.find?_some hf
    rw [unwrapFor, hf, okOr_some, ok_bind, h.ephemeralPublic,
      unwrapDataKey_of_wraps hC hw' hid (hn r' hr' hid)]

/-- The entry a lookup returns is the reader's own, whichever position it has. -/
theorem unwrapFor_of_mem (hC : C.Correct)
    (h : WrappedFor C ephemeral dataKey recipients e) (hh : Honest C recipients)
    (hn : NoCollision k recipients) (hk : k.publicKey ∈ recipients.map Recipient.readPublicKey) :
    unwrapFor e k = .ok (asBytes dataKey) := by
  obtain ⟨r, hr, hrk⟩ := List.mem_map.mp hk
  have hrecipient : r = k.recipient := by
    have hid := hh r hr
    rw [hrk] at hid
    cases r
    simp_all [ReadKeyPair.recipient, ReadKeyPair.keyId]
  refine unwrapFor_of_listed hC h (hrecipient ▸ hr) fun r' hr' hid => hn r' hr' ?_
  rw [← hh r' hr', hid]

/-- A key that is not listed finds no entry. -/
theorem unwrapFor_of_notMem (h : WrappedFor C ephemeral dataKey recipients e)
    (hh : Honest C recipients) (hn : NoCollision k recipients)
    (hk : k.publicKey ∉ recipients.map Recipient.readPublicKey) :
    unwrapFor e k = fail (.noMatchingAccessEntry (k.keyId.toBase58 C)) := by
  have hf : e.accessEntries.find? (fun entry => entry.readKeyId = k.keyId) = none := by
    refine List.find?_eq_none.mpr fun entry hentry hid => hk ?_
    obtain ⟨r, hr, hw⟩ := exists_mem_of_forall₂ h.entries hentry
    have hrid : r.keyId = k.keyId := by
      rw [← hw.readKeyId]
      exact of_decide_eq_true hid
    rw [← hn r hr (by rw [← hh r hr, hrid])]
    exact List.mem_map_of_mem hr
  rw [unwrapFor, hf, okOr_none, error_bind]

/-- A plaintext that an envelope opened to came out of the cipher. -/
theorem exists_decrypt_of_decrypt {C : Crypto A} {e : EncryptedEnvelope A} {k : ReadKeyPair C}
    {vk : C.VerifyingKey} {p : Bytes} (h : decrypt e k vk = .ok p) :
    ∃ key nonce ct, C.chacha20Poly1305.decrypt key nonce ct = some p := by
  simp only [decrypt, decryptPayload, bind_eq_ok_iff, okOr_eq_ok_iff] at h
  obtain ⟨_, _, _, _, _, _, cipher, _, hp⟩ := h
  exact ⟨cipher, _, _, hp⟩

end Opening

/-- An envelope in recipient mode opens with the reader's own key. -/
theorem decryptKeyFor_recipient {e : EncryptedEnvelope A} (k : ReadKeyPair C)
    (h : e.accessMode = .recipient) : decryptKeyFor e k = .ok k := by
  simp [decryptKeyFor, h]

section Modes

variable {b : EncryptBuilder C} {spendKey : SpendKeyPair C} {recipients : List (Recipient A)}
  {plaintext : Bytes} {e : EncryptedEnvelope A}

/-- The owner's signature on an encrypted envelope verifies. -/
theorem Encrypted.decrypt_eq (h : Encrypted b plaintext spendKey recipients e) (hC : C.Correct)
    (k : ReadKeyPair C) : decrypt e k spendKey.verifyingKey = (do
      let decryptKey ← decryptKeyFor e k
      let dataKey ← unwrapFor e decryptKey
      decryptPayload C dataKey e.ciphertext e.nonce e.tag) := by
  have hv : C.verify spendKey.verifyingKey e.signableBytes e.signature = true := by
    rw [h.signature]
    exact hC.verify_sign _ _
  rw [decrypt, require_of _ _ hv, ok_bind]

theorem Encrypted.recipientMode (h : Encrypted b plaintext spendKey recipients e)
    (hb : b.scopeBased = false) : recipients = b.recipients ∧ e.accessMode = .recipient := by
  have hr := h.resolve_eq
  rw [EncryptBuilder.resolve, hb, if_neg (by decide), bind_eq_ok_iff] at hr
  obtain ⟨_, _, hr⟩ := hr
  obtain ⟨hrs, hm⟩ := Prod.mk.inj (Except.ok.inj hr)
  exact ⟨hrs.symm, hm.symm⟩

/-- The owner's own key for a scope is genuine. -/
theorem ReadKeyPair.genuine_of_scopeKey (hR : C.StaticRoundtrip) {T : Scope}
    {scopeKey : ReadKeyPair C}
    (h : (if T = Scope.root then .ok spendKey.deriveRootReadKey
      else spendKey.deriveRootReadKey.deriveChild T : Result (ReadKeyPair C)) = .ok scopeKey) :
    scopeKey.Genuine spendKey ∧ scopeKey.scope = T := by
  split_ifs at h with hroot
  · obtain rfl := Except.ok.inj h
    exact ⟨ReadKeyPair.genuine_root spendKey, hroot.symm⟩
  · exact (ReadKeyPair.genuine_root spendKey).deriveChild hR h

/-- The owner has a key for every scope that can be split. -/
theorem ReadKeyPair.exists_scopeKey {C : Crypto A} (spendKey : SpendKeyPair C) {T : Scope}
    (hT : T.Sliceable) : ∃ scopeKey : ReadKeyPair C,
      (if T = Scope.root then .ok spendKey.deriveRootReadKey
        else spendKey.deriveRootReadKey.deriveChild T : Result (ReadKeyPair C)) = .ok scopeKey := by
  split_ifs with hroot
  · exact ⟨_, rfl⟩
  · have hderivable : Scope.Derivable spendKey.deriveRootReadKey.scope T :=
      ⟨rfl, Ne.symm hroot, Scope.root_valid.sliceable, hT⟩
    exact ⟨_, (ReadKeyPair.deriveChild_eq_ok_iff _ _ _).mpr ⟨hderivable, rfl⟩⟩

/-- In scope-based mode the recipient is found for every scope that can be split. -/
theorem EncryptBuilder.exists_resolve {C : Crypto A} {b : EncryptBuilder C}
    (hb : b.scopeBased = true) (hT : b.scope.Sliceable) (spendKey : SpendKeyPair C) :
    ∃ resolved, b.resolve spendKey = .ok resolved := by
  obtain ⟨scopeKey, hk⟩ := ReadKeyPair.exists_scopeKey spendKey hT
  refine ⟨([scopeKey.recipient], .scopeBased), ?_⟩
  rw [EncryptBuilder.resolve, if_pos hb]
  exact (bind_eq_ok_iff _ _ _).mpr ⟨scopeKey, hk, rfl⟩

/-- In scope-based mode the key of the scope is the one recipient. -/
theorem Encrypted.exists_scopeKey (h : Encrypted b plaintext spendKey recipients e)
    (hb : b.scopeBased = true) : e.accessMode = .scopeBased ∧ ∃ scopeKey : ReadKeyPair C,
      (if b.scope = Scope.root then .ok spendKey.deriveRootReadKey
        else spendKey.deriveRootReadKey.deriveChild b.scope : Result (ReadKeyPair C)) =
          .ok scopeKey ∧ recipients = [scopeKey.recipient] := by
  have hr := h.resolve_eq
  rw [EncryptBuilder.resolve, hb, if_pos rfl, bind_eq_ok_iff] at hr
  obtain ⟨scopeKey, hk, hr⟩ := hr
  obtain ⟨hrs, hm⟩ := Prod.mk.inj (Except.ok.inj hr)
  exact ⟨hm.symm, scopeKey, hk, hrs.symm⟩

/-- In scope-based mode the envelope is sealed for the genuine key of its scope. -/
theorem Encrypted.scopeMode (h : Encrypted b plaintext spendKey recipients e)
    (hC : C.StaticRoundtrip) (hb : b.scopeBased = true) :
    e.accessMode = .scopeBased ∧ ∃ scopeKey : ReadKeyPair C, recipients = [scopeKey.recipient] ∧
      scopeKey.Genuine spendKey ∧ scopeKey.scope = b.scope := by
  obtain ⟨hmode, scopeKey, hk, hrs⟩ := h.exists_scopeKey hb
  exact ⟨hmode, scopeKey, hrs, ReadKeyPair.genuine_of_scopeKey hC hk⟩

end Modes

/-- A listed reader opens a recipient-mode envelope, if whoever else has its identifier has its
public key. -/
theorem Encrypted.decrypt_listed {b : EncryptBuilder C} {spendKey : SpendKeyPair C}
    {recipients : List (Recipient A)} {plaintext : Bytes} {e : EncryptedEnvelope A}
    (h : Encrypted b plaintext spendKey recipients e) (hC : C.Correct) (hb : b.scopeBased = false)
    {k : ReadKeyPair C} (hk : k.recipient ∈ b.recipients)
    (hn : ∀ r ∈ b.recipients, r.keyId = k.keyId → r.readPublicKey = k.publicKey) :
    decrypt e k spendKey.verifyingKey = .ok plaintext := by
  obtain ⟨rfl, hmode⟩ := h.recipientMode hb
  obtain ⟨ephemeral, dataKey, hs⟩ := h.sealed
  rw [h.decrypt_eq hC, decryptKeyFor_recipient k hmode, ok_bind,
    unwrapFor_of_listed hC hs.wrapped hk hn, ok_bind, decryptPayload_of_encrypt hC hs.payload]

/-- Opening a recipient-mode envelope, by whether the reader is listed. -/
theorem Encrypted.decrypt_recipientMode {b : EncryptBuilder C} {spendKey : SpendKeyPair C}
    {recipients : List (Recipient A)} {plaintext : Bytes} {e : EncryptedEnvelope A}
    (h : Encrypted b plaintext spendKey recipients e) (hC : C.Correct) (hb : b.scopeBased = false)
    (hh : Honest C b.recipients) (k : ReadKeyPair C) (hn : NoCollision k b.recipients) :
    decrypt e k spendKey.verifyingKey =
      if k.publicKey ∈ b.recipients.map Recipient.readPublicKey then .ok plaintext
      else fail (.noMatchingAccessEntry (k.keyId.toBase58 C)) := by
  obtain ⟨rfl, hmode⟩ := h.recipientMode hb
  obtain ⟨ephemeral, dataKey, hs⟩ := h.sealed
  rw [h.decrypt_eq hC, decryptKeyFor_recipient k hmode, ok_bind]
  split_ifs with hk
  · rw [unwrapFor_of_mem hC hs.wrapped hh hn hk, ok_bind, decryptPayload_of_encrypt hC hs.payload]
  · rw [unwrapFor_of_notMem hs.wrapped hh hn hk, error_bind]

/-- Recipient mode admits exactly the listed public keys, whatever their scope. -/
theorem recipient_mode_exact (hC : C.Correct) {b : EncryptBuilder C} {spendKey : SpendKeyPair C}
    {plaintext : Bytes} {e : EncryptedEnvelope A} {s s' : ρ} (hsk : b.spendKey = some spendKey)
    (hb : b.scopeBased = false) (hh : Honest C b.recipients)
    (he : (b.encrypt rng plaintext).run s = .ok (e, s'))
    (k : ReadKeyPair C) (hn : NoCollision k b.recipients) :
    decrypt e k spendKey.verifyingKey =
      if k.publicKey ∈ b.recipients.map Recipient.readPublicKey then .ok plaintext
      else fail (.noMatchingAccessEntry (k.keyId.toBase58 C)) := by
  obtain ⟨sk, recipients, henc⟩ := b.encrypt_run he
  obtain rfl : spendKey = sk := Option.some.inj (hsk.symm.trans henc.spendKey_eq)
  exact henc.decrypt_recipientMode hC hb hh k hn

/-- A builder for the owner of the zero seed. -/
def zeroBuilder (pack : Packing A) (path : List Char) : EncryptBuilder (Transparent.crypto pack) :=
  (EncryptBuilder.new _ .eciesX25519ChaCha20 ⟨path⟩).setSpendKey (zeroSpend pack)

theorem recipient_mode_exact_listed_twice :
    ∃ e s', (((zeroBuilder packArray ['/', 'a']).addRecipients
        [zeroRoot.recipient, zeroRoot.recipient]).encrypt (Transparent.rng packArray) [1, 2]).run 0 =
          .ok (e, s') ∧ decrypt e zeroRoot (zeroSpend packArray).verifyingKey = .ok [1, 2] := by
  obtain ⟨⟨e, s'⟩, he⟩ : ∃ r, (((zeroBuilder packArray ['/', 'a']).addRecipients
      [zeroRoot.recipient, zeroRoot.recipient]).encrypt (Transparent.rng packArray) [1, 2]).run 0 =
        .ok r := ⟨_, rfl⟩
  have hrec : ∀ r ∈ [zeroRoot.recipient, zeroRoot.recipient], r = zeroRoot.recipient := by simp
  refine ⟨e, s', he, (recipient_mode_exact (Transparent.crypto_correct packArray) rfl rfl
    (fun r hr => ?_) he zeroRoot fun r hr _ => ?_).trans (if_pos List.mem_cons_self)⟩
  · rw [hrec r hr]
    rfl
  · rw [hrec r hr]
    rfl

/-- The key that a reader arrives at for a scope, from its own. -/
def ReadKeyPair.reach (k : ReadKeyPair C) (T : Scope) : Result (ReadKeyPair C) :=
  if k.scope.isAncestorOf T = true then if k.scope = T then .ok k else k.deriveChild T
  else fail (.scopeMismatch k.scope.display T.display)

theorem decryptKeyFor_scopeBased {e : EncryptedEnvelope A} (h : e.accessMode = .scopeBased)
    (k : ReadKeyPair C) : decryptKeyFor e k = k.reach e.scope := by
  unfold decryptKeyFor ReadKeyPair.reach ReadKeyPair.canAccess
  by_cases hanc : k.scope.isAncestorOf e.scope = true
  · rw [if_pos hanc, require_of _ _ (by simp [hanc]), ok_bind]
    by_cases hs : k.scope = e.scope
    · rw [if_pos hs, if_neg (by simp [hs])]
      rfl
    · rw [if_neg hs, if_pos ⟨h, hs⟩]
  · rw [if_neg hanc, require, if_neg (by simpa [h] using hanc), error_bind]

theorem ReadKeyPair.reach_of_not_ancestor {k : ReadKeyPair C} {T : Scope}
    (h : ¬ k.scope.isAncestorOf T = true) :
    k.reach T = fail (.scopeMismatch k.scope.display T.display) := if_neg h

theorem ReadKeyPair.ancestor_of_reach {k d : ReadKeyPair C} {T : Scope} (h : k.reach T = .ok d) :
    k.scope.isAncestorOf T = true := by
  by_contra hanc
  rw [reach_of_not_ancestor hanc] at h
  cases h

/-- A key that may access a scope reaches it, if both can be split. -/
theorem ReadKeyPair.exists_reach {k : ReadKeyPair C} {T : Scope} (hk : k.scope.Sliceable)
    (hT : T.Sliceable) (hanc : k.scope.isAncestorOf T = true) :
    ∃ d, k.reach T = .ok d ∧ (d = k ∧ k.scope = T ∨ k.deriveChild T = .ok d) := by
  unfold reach
  rw [if_pos hanc]
  by_cases hs : k.scope = T
  · exact ⟨k, if_pos hs, .inl ⟨rfl, hs⟩⟩
  · have hd := (deriveChild_eq_ok_iff k _ T).mpr ⟨⟨hanc, hs, hk, hT⟩, rfl⟩
    exact ⟨_, (if_neg hs).trans hd, .inr hd⟩

/-- A genuine key that may access the scope reaches the key of the scope. -/
theorem ReadKeyPair.Genuine.exists_reach (hC : C.StaticRoundtrip) {spendKey : SpendKeyPair C}
    {k : ReadKeyPair C} (hk : k.Genuine spendKey) {T : Scope} (hT : T.Sliceable)
    (hanc : k.scope.isAncestorOf T = true) :
    ∃ d, k.reach T = .ok d ∧ d.Genuine spendKey ∧ d.scope = T := by
  obtain ⟨d, hd, ⟨rfl, hs⟩ | hchild⟩ := ReadKeyPair.exists_reach hk.sliceable hT hanc
  · exact ⟨d, hd, hk, hs⟩
  · exact ⟨d, hd, hk.deriveChild hC hchild⟩

/-- What is sealed for one read key alone is opened by the keys with its public key. -/
theorem open_of_publicKey_eq (hC : C.Correct) {ephemeral : C.StaticSecret} {dataKey : A 32}
    {plaintext : Bytes} {e : EncryptedEnvelope A} {scopeKey d : ReadKeyPair C}
    (h : SealedWith C ephemeral dataKey [scopeKey.recipient] plaintext e)
    (hpk : scopeKey.publicKey = d.publicKey) :
    (unwrapFor e d >>= fun dataKey => decryptPayload C dataKey e.ciphertext e.nonce e.tag) =
      .ok plaintext := by
  have hh : Honest C [scopeKey.recipient] := by
    intro r hr
    rw [List.mem_singleton.mp hr]
    rfl
  have hn : NoCollision d [scopeKey.recipient] := by
    intro r hr _
    rw [List.mem_singleton.mp hr]
    exact hpk
  rw [unwrapFor_of_mem hC h.wrapped hh hn (by simp [ReadKeyPair.recipient, hpk]), ok_bind,
    decryptPayload_of_encrypt hC h.payload]

/-- Opening a scope-based envelope with a genuine key, by whether its scope reaches. -/
theorem Encrypted.decrypt_genuine {b : EncryptBuilder C} {spendKey : SpendKeyPair C}
    {recipients : List (Recipient A)} {plaintext : Bytes} {e : EncryptedEnvelope A}
    (h : Encrypted b plaintext spendKey recipients e) (hC : C.Correct) (hR : C.StaticRoundtrip)
    (hb : b.scopeBased = true) {k : ReadKeyPair C} (hk : k.Genuine spendKey) :
    decrypt e k spendKey.verifyingKey =
      if k.scope.isAncestorOf b.scope = true then .ok plaintext
      else fail (.scopeMismatch k.scope.display b.scope.display) := by
  obtain ⟨hmode, scopeKey, rfl, hscope, hT⟩ := h.scopeMode hR hb
  obtain ⟨ephemeral, dataKey, hs⟩ := h.sealed
  have hTe : scopeKey.scope = e.scope := hT.trans h.scope.symm
  rw [h.decrypt_eq hC, ← h.scope, decryptKeyFor_scopeBased hmode]
  by_cases hanc : k.scope.isAncestorOf e.scope = true
  · obtain ⟨d, hd, hgen, hde⟩ := hk.exists_reach hR (hTe ▸ hscope.sliceable) hanc
    have hpk : scopeKey.publicKey = d.publicKey := hscope.publicKey_eq hgen (hTe.trans hde.symm)
    rw [if_pos hanc, hd, ok_bind, open_of_publicKey_eq hC hs hpk]
  · rw [if_neg hanc, ReadKeyPair.reach_of_not_ancestor hanc, error_bind]

/-- Scope-based mode admits exactly the keys at the scope and above it, however they were
delegated from the root. -/
theorem scope_based_exact (hC : C.Correct) (hR : C.StaticRoundtrip) {b : EncryptBuilder C}
    {spendKey : SpendKeyPair C} {plaintext : Bytes} {e : EncryptedEnvelope A} {s s' : ρ}
    (hsk : b.spendKey = some spendKey) (hb : b.scopeBased = true)
    (he : (b.encrypt rng plaintext).run s = .ok (e, s')) {k : ReadKeyPair C}
    (hk : Relation.ReflTransGen ReadKeyPair.Delegates spendKey.deriveRootReadKey k) :
    (decrypt e k spendKey.verifyingKey =
      if k.scope.isAncestorOf b.scope = true then .ok plaintext
      else fail (.scopeMismatch k.scope.display b.scope.display)) ∧
    (k.scope.Valid → b.scope.Valid →
      (k.scope.isAncestorOf b.scope = true ↔ k.scope.segments <+: b.scope.segments)) := by
  refine ⟨?_, Scope.isAncestorOf_iff⟩
  obtain ⟨sk, recipients, henc⟩ := b.encrypt_run he
  obtain rfl : spendKey = sk := Option.some.inj (hsk.symm.trans henc.spendKey_eq)
  exact henc.decrypt_genuine hC hR hb (ReadKeyPair.genuine_of_delegated hR hk)

theorem scope_based_exact_parent :
    ∃ e s' k, ((zeroBuilder packArray ['/', 'a', '/', 'b']).setScopeBased.encrypt
        (Transparent.rng packArray) [1, 2]).run 0 = .ok (e, s') ∧
      zeroRoot.deriveChildSegment ['a'] = .ok k ∧
      decrypt e k (zeroSpend packArray).verifyingKey = .ok [1, 2] := by
  obtain ⟨⟨e, s'⟩, he⟩ : ∃ r, ((zeroBuilder packArray ['/', 'a', '/', 'b']).setScopeBased.encrypt
    (Transparent.rng packArray) [1, 2]).run 0 = .ok r := ⟨_, rfl⟩
  refine ⟨e, s', _, he, rfl, (scope_based_exact (Transparent.crypto_correct packArray)
    (Transparent.crypto_staticRoundtrip packArray) rfl rfl he
    (.tail .refl (.derive (.segment ['a'] rfl)))).1.trans (if_pos ?_)⟩
  decide

/-- A lookup only succeeds on an entry with the reader's key identifier. -/
theorem exists_entry_of_unwrapFor {e : EncryptedEnvelope A} {k : ReadKeyPair C} {dataKey : Bytes}
    (h : unwrapFor e k = .ok dataKey) : ∃ entry ∈ e.accessEntries, entry.readKeyId = k.keyId := by
  rw [unwrapFor, bind_eq_ok_iff] at h
  obtain ⟨entry, hf, _⟩ := h
  rw [okOr_eq_ok_iff] at hf
  exact ⟨entry, List.mem_of_find?_eq_some hf, by simpa using List.find?_some hf⟩

/-- Equal key identifiers mean equal secrets. -/
theorem secret_eq_of_keyId_eq (hI : C.IdentifiesKeys) {k k' : ReadKeyPair C}
    (h : k.keyId = k'.keyId) : k.secret = k'.secret := by
  have hp := hI.keyId (congrArg KeyId.bytes h)
  rw [k.public_eq, k'.public_eq] at hp
  exact hI.publicFrom hp

/-- One level of the derivation loses nothing when HKDF is injective. -/
theorem levelSecret_injective (hI : C.Injective) (path : List (List Char)) :
    Function.Injective (levelSecret C path) := by
  intro s t h
  exact asBytes_injective 32 (hI.hkdf _ _ _ _ _ _ h).2.1

/-- Only a key with the genuine secret of its claimed scope derives to a genuine key. -/
theorem ReadKeyPair.Genuine.of_deriveChild (hI : C.Injective) (hR : C.StaticRoundtrip)
    {spendKey : SpendKeyPair C} {k d : ReadKeyPair C} {T : Scope} (hd : k.deriveChild T = .ok d)
    (h : d.secret = C.staticFrom (hierarchySecret C spendKey.rootSecret T.segments)) :
    k.secretBytes = hierarchySecret C spendKey.rootSecret k.scope.segments := by
  obtain ⟨hkT, rfl⟩ := (deriveChild_eq_ok_iff _ _ _).mp hd
  have hw := congrArg C.staticToBytes h
  simp only [fromSecretBytes] at hw
  rw [hR, hR, ← walk_hierarchySecret C _ hkT.prefix_segments] at hw
  exact KeyTree.walk_injective _ (levelSecret_injective hI) _ _ hw

/-- Whatever scope a key claims, it opens a scope-based envelope only with the secret that the
hierarchy assigns to that scope, and only at the scope of the envelope or above it. -/
theorem no_escalation (hI : C.Injective) (hR : C.StaticRoundtrip) {b : EncryptBuilder C}
    {spendKey : SpendKeyPair C} {plaintext : Bytes} {e : EncryptedEnvelope A} {s s' : ρ}
    (hsk : b.spendKey = some spendKey) (hb : b.scopeBased = true)
    (he : (b.encrypt rng plaintext).run s = .ok (e, s')) (k : ReadKeyPair C) (vk : C.VerifyingKey)
    {opened : Bytes} (hd : decrypt e k vk = .ok opened) :
    k.scope.isAncestorOf b.scope = true ∧ k.scope.segments <+: b.scope.segments ∧
      k.secretBytes = hierarchySecret C spendKey.rootSecret k.scope.segments := by
  obtain ⟨sk, recipients, henc⟩ := b.encrypt_run he
  obtain rfl : spendKey = sk := Option.some.inj (hsk.symm.trans henc.spendKey_eq)
  obtain ⟨hmode, scopeKey, rfl, hscope, hT⟩ := henc.scopeMode hR hb
  obtain ⟨ephemeral, dataKey, hs⟩ := henc.sealed
  simp only [decrypt, bind_eq_ok_iff] at hd
  obtain ⟨_, _, d, hkey, _, hun, _⟩ := hd
  -- the entry that was found belongs to the key of the scope
  obtain ⟨entry, hentry, hid⟩ := exists_entry_of_unwrapFor hun
  obtain ⟨r, hr, hw⟩ := exists_mem_of_forall₂ hs.entries hentry
  have hdk : d.secret = scopeKey.secret := by
    apply secret_eq_of_keyId_eq hI.identifiesKeys
    rw [← hid, hw.readKeyId, List.mem_singleton.mp hr]
    rfl
  rw [hscope.secret_eq, hT] at hdk
  rw [decryptKeyFor_scopeBased hmode, henc.scope, ReadKeyPair.reach] at hkey
  split_ifs at hkey with hanc hsame
  · obtain rfl := Except.ok.inj hkey
    refine ⟨hanc, hsame ▸ List.prefix_rfl, ?_⟩
    rw [ReadKeyPair.secretBytes, hdk, hR, hsame]
  · have hkT := ((ReadKeyPair.deriveChild_eq_ok_iff _ _ _).mp hkey).1
    exact ⟨hanc, hkT.prefix_segments, ReadKeyPair.Genuine.of_deriveChild hI hR hkey hdk⟩

theorem no_escalation_root :
    ∃ e s', ((zeroBuilder packSymbol ['/', 'a']).setScopeBased.encrypt
        (Transparent.rng packSymbol) [1, 2]).run 0 = .ok (e, s') ∧
      (zeroSpend packSymbol).deriveRootReadKey.secretBytes =
        hierarchySecret Transparent.symbols (zeroSpend packSymbol).rootSecret [] := by
  obtain ⟨⟨e, s'⟩, he, hd⟩ : ∃ r, ((zeroBuilder packSymbol ['/', 'a']).setScopeBased.encrypt
      (Transparent.rng packSymbol) [1, 2]).run 0 = .ok r ∧
      decrypt r.1 (zeroSpend packSymbol).deriveRootReadKey (zeroSpend packSymbol).verifyingKey =
        .ok [1, 2] := ⟨_, rfl, by decide +kernel⟩
  exact ⟨e, s', he, (no_escalation Transparent.symbols_injective
    (Transparent.crypto_staticRoundtrip packSymbol) rfl rfl he _ _ hd).2.2⟩

end ReadOnlyKeys
