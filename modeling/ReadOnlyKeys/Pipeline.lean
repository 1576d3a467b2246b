import ReadOnlyKeys.Access
import ReadOnlyKeys.Lib.Runs

/-!
# Pipelines

A pipeline encrypts chunks for the consumers it has at the moment. Consumers are
kept in a list with repetitions, are added one at a time, and are removed by
their identifier.
-/
namespace ReadOnlyKeys
open Outcome Wire

variable {ρ : Type} {C : Crypto (Vector UInt8)}

/-- An encrypted data pipeline for one scope. -/
structure Pipeline (C : Crypto (Vector UInt8)) where
  scope : Scope
  spendKey : SpendKeyPair C
  consumers : List (Recipient (Vector UInt8))

namespace Pipeline

def new (scope : Scope) (spendKey : SpendKeyPair C) : Pipeline C := ⟨scope, spendKey, []⟩

/-- Add a consumer to the pipeline. -/
def addConsumer (self : Pipeline C) (recipient : Recipient (Vector UInt8)) : Pipeline C :=
  { self with consumers := self.consumers ++ [recipient] }

/-- Remove a consumer by key identifier. -/
def removeConsumer (self : Pipeline C) (keyId : KeyId (Vector UInt8)) : Pipeline C :=
  { self with consumers := self.consumers.filter (·.keyId ≠ keyId) }

/-- The builder for a chunk. -/
def builder (self : Pipeline C) : EncryptBuilder C :=
  ((EncryptBuilder.new C .eciesX25519ChaCha20 self.scope).addRecipients self.consumers).setSpendKey
    self.spendKey

/-- Encrypt a data chunk for all current consumers. -/
def encryptChunk (rng : CryptoRng (Vector UInt8) ρ) (self : Pipeline C) (data : Bytes) :
    StateT ρ Result (EncryptedEnvelope (Vector UInt8)) := self.builder.encrypt rng data

/-- Decrypt a chunk using a consumer's read key. -/
def decryptChunk (envelope : EncryptedEnvelope (Vector UInt8)) (readKey : ReadKeyPair C)
    (spendVerifyingKey : C.VerifyingKey) : Result Bytes :=
  decrypt envelope readKey spendVerifyingKey

lemma builder_recipients (self : Pipeline C) : self.builder.recipients = self.consumers :=
  List.nil_append _

/-- Without consumers there is no chunk. -/
theorem encryptChunk_of_empty (rng : CryptoRng (Vector UInt8) ρ) {self : Pipeline C}
    (h : self.consumers = []) (data : Bytes) (s : ρ) :
    (self.encryptChunk rng data).run s = fail (.encryptionError "no recipients") := by
  have hresolve : self.builder.resolve self.spendKey = fail (.encryptionError "no recipients") := by
    have hempty : self.builder.recipients.isEmpty ≠ false := by
      rw [builder_recipients, h]
      decide
    have hmode : self.builder.scopeBased = false := rfl
    rw [EncryptBuilder.resolve, hmode, if_neg (by decide), require_eq_fail hempty, error_bind]
  have hkey : self.builder.spendKey = some self.spendKey := rfl
  rw [encryptChunk, EncryptBuilder.encrypt, StateT.run_bind, hkey, okOr_some, call_run_ok, ok_bind,
    StateT.run_bind, hresolve, call_run_error, error_bind]

/-- With consumers, a chunk that the cipher takes is encrypted. -/
theorem exists_encryptChunk (hA : C.aes256GcmSiv.Accepts 32) (hT : C.chacha20Poly1305.Tagged)
    (rng : CryptoRng (Vector UInt8) ρ) {self : Pipeline C} (h : self.consumers ≠ []) {data : Bytes}
    (hp : C.chacha20Poly1305.Accepts data.length) (s : ρ) :
    ∃ e s', (self.encryptChunk rng data).run s = .ok (e, s') := by
  have hkey : self.builder.spendKey = some self.spendKey := rfl
  have hr : self.builder.recipients ≠ [] := by rwa [builder_recipients]
  exact EncryptBuilder.encrypt_exists hA hT rng hkey rfl hr (fun k n => hp k n data rfl) s

/-- A chunk opens for its consumers and for nobody else. -/
theorem decryptChunk_eq (hC : C.Correct) {rng : CryptoRng (Vector UInt8) ρ} {self : Pipeline C}
    {data : Bytes} {e : EncryptedEnvelope (Vector UInt8)} {s s' : ρ}
    (he : (self.encryptChunk rng data).run s = .ok (e, s')) (hh : Honest C self.consumers)
    (c : ReadKeyPair C) (hn : NoCollision c self.consumers) :
    (c.publicKey ∈ self.consumers.map Recipient.readPublicKey →
      decryptChunk e c self.spendKey.verifyingKey = .ok data) ∧
    (c.publicKey ∉ self.consumers.map Recipient.readPublicKey →
      decryptChunk e c self.spendKey.verifyingKey =
        fail (.noMatchingAccessEntry (c.keyId.toBase58 C))) := by
  rw [← builder_recipients] at hh hn ⊢
  have h := recipient_mode_exact hC rfl rfl hh he c hn
  exact ⟨fun hk => h.trans (if_pos hk), fun hk => h.trans (if_neg hk)⟩

/-- A call on a pipeline. A chunk draws on the generator in the state `s`. -/
inductive Op (ρ : Type) where
  | addConsumer (recipient : Recipient (Vector UInt8))
  | removeConsumer (keyId : KeyId (Vector UInt8))
  | encryptChunk (s : ρ) (data : Bytes)

namespace Op

/-- The call adds or removes the consumer. -/
def names (keyId : KeyId (Vector UInt8)) : Op ρ → Bool
  | addConsumer recipient => recipient.keyId = keyId
  | removeConsumer k => k = keyId
  | encryptChunk _ _ => false

def isChunk : Op ρ → Bool
  | encryptChunk _ _ => true
  | _ => false

end Op

/-- A pipeline and the results of its chunks so far. -/
structure Stream (C : Crypto (Vector UInt8)) where
  pipeline : Pipeline C
  chunks : List (Result (EncryptedEnvelope (Vector UInt8)))

def Stream.step (rng : CryptoRng (Vector UInt8) ρ) (self : Stream C) : Op ρ → Stream C
  | .addConsumer recipient => { self with pipeline := self.pipeline.addConsumer recipient }
  | .removeConsumer keyId => { self with pipeline := self.pipeline.removeConsumer keyId }
  | .encryptChunk s data =>
    let chunk := ((self.pipeline.encryptChunk rng data).run s).map Prod.fst
    { self with chunks := self.chunks ++ [chunk] }

/-- The latest call that names a consumer adds it. -/
def Present (ops : List (Op ρ)) (keyId : KeyId (Vector UInt8)) : Prop :=
  ∃ recipient, Runs.latest (Op.names keyId) ops = some (.addConsumer recipient)

lemma present_concat_add (ops : List (Op ρ)) (r : Recipient (Vector UInt8))
    (keyId : KeyId (Vector UInt8)) :
    Present (ops ++ [.addConsumer r]) keyId ↔ r.keyId = keyId ∨ Present ops keyId := by
  unfold Present
  rw [Runs.latest_concat]
  by_cases h : r.keyId = keyId <;> simp [Op.names, h]

lemma present_concat_remove (ops : List (Op ρ)) (k keyId : KeyId (Vector UInt8)) :
    Present (ops ++ [.removeConsumer k]) keyId ↔ k ≠ keyId ∧ Present ops keyId := by
  unfold Present
  rw [Runs.latest_concat]
  by_cases h : k = keyId <;> simp [Op.names, h]

lemma present_concat_chunk (ops : List (Op ρ)) (s : ρ) (data : Bytes)
    (keyId : KeyId (Vector UInt8)) :
    Present (ops ++ [.encryptChunk s data]) keyId ↔ Present ops keyId := by
  unfold Present
  rw [Runs.latest_concat]
  simp [Op.names]

/-- What a stream records of its history: the consumers are those present, and each call for a
chunk has left a result. -/
structure Tracks (spendKey : SpendKeyPair C) (stream : Stream C) (ops : List (Op ρ)) : Prop where
  spendKey : stream.pipeline.spendKey = spendKey
  present : ∀ keyId, (∃ r ∈ stream.pipeline.consumers, r.keyId = keyId) ↔ Present ops keyId
  added : ∀ r ∈ stream.pipeline.consumers, .addConsumer r ∈ ops
  chunks : stream.chunks.length = ops.countP Op.isChunk

theorem Tracks.step (rng : CryptoRng (Vector UInt8) ρ) {spendKey : SpendKeyPair C}
    {stream : Stream C} {ops : List (Op ρ)} (h : Tracks spendKey stream ops) (op : Op ρ) :
    Tracks spendKey (stream.step rng op) (ops ++ [op]) := by
  cases op with
  | addConsumer recipient =>
    refine ⟨h.spendKey, fun keyId => ?_, fun r hr => ?_, ?_⟩
    · rw [present_concat_add, ← h.present]
      simp only [Stream.step, Pipeline.addConsumer, List.mem_append, List.mem_singleton]
      constructor
      · intro hr
        obtain ⟨r, hr | rfl, hid⟩ := hr
        · exact .inr ⟨r, hr, hid⟩
        · exact .inl hid
      · intro hr
        rcases hr with hid | ⟨r, hr, hid⟩
        · exact ⟨recipient, .inr rfl, hid⟩
        · exact ⟨r, .inl hr, hid⟩
    · rcases List.mem_append.mp hr with hr | hr
      · exact List.mem_append_left _ (h.added r hr)
      · rw [List.mem_singleton.mp hr]
        exact List.mem_append_right _ (List.mem_singleton_self _)
    · rw [List.countP_append, ← h.chunks]
      rfl
  | removeConsumer k =>
    refine ⟨h.spendKey, fun keyId => ?_, fun r hr => ?_, ?_⟩
    · rw [present_concat_remove, ← h.present]
      simp only [Stream.step, Pipeline.removeConsumer, List.mem_filter, decide_eq_true_eq]
      constructor
      · intro hr
        obtain ⟨r, ⟨hr, hne⟩, rfl⟩ := hr
        exact ⟨hne.symm, r, hr, rfl⟩
      · intro hr
        obtain ⟨hne, r, hr, rfl⟩ := hr
        exact ⟨r, ⟨hr, hne.symm⟩, rfl⟩
    · exact List.mem_append_left _ (h.added r (List.mem_filter.mp hr).1)
    · rw [List.countP_append, ← h.chunks]
      rfl
  | encryptChunk s data =>
    refine ⟨h.spendKey, fun keyId => ?_, fun r hr => ?_, ?_⟩
    · rw [present_concat_chunk, ← h.present]
      rfl
    · exact List.mem_append_left _ (h.added r hr)
    · rw [List.countP_append, ← h.chunks]
      exact List.length_append

section Readers

variable {spendKey : SpendKeyPair C} {stream : Stream C} {ops : List (Op ρ)} {c : ReadKeyPair C}
  (h : Tracks spendKey stream ops)
  (hh : ∀ r, .addConsumer r ∈ ops → r.keyId = KeyId.fromPublicBytes C (asBytes r.readPublicKey))

include h hh

lemma Tracks.honest : Honest C stream.pipeline.consumers := fun r hr => hh r (h.added r hr)

variable (hc : ∀ r, .addConsumer r ∈ ops → r.keyId = c.keyId → r.readPublicKey = c.publicKey)

include hc

lemma Tracks.noCollision : NoCollision c stream.pipeline.consumers := by
  intro r hr hid
  exact hc r (h.added r hr) ((h.honest hh r hr).trans hid)

/-- A reader is listed by its public key exactly when it is present by its identifier. -/
lemma Tracks.listed_iff : c.publicKey ∈ stream.pipeline.consumers.map Recipient.readPublicKey ↔
    Present ops c.keyId := by
  rw [← h.present, List.mem_map]
  apply exists_congr
  intro r
  apply and_congr_right
  intro hr
  constructor
  · intro hpk
    rw [h.honest hh r hr, hpk]
    rfl
  · intro hid
    exact hc r (h.added r hr) hid

end Readers

/-- After every run, the stream has recorded its history. -/
theorem tracks_run (rng : CryptoRng (Vector UInt8) ρ) (scope : Scope) (spendKey : SpendKeyPair C)
    (ops : List (Op ρ)) :
    Tracks spendKey (Runs.run (Stream.step rng) ⟨new scope spendKey, []⟩ ops) ops := by
  apply Runs.run_history (Tracks spendKey)
  · intro stream before op h
    exact h.step rng op
  · exact ⟨rfl, by simp [new, Present], by simp [new], rfl⟩

/-- Results stay as they are. -/
lemma chunks_prefix_run (rng : CryptoRng (Vector UInt8) ρ) (stream : Stream C) (ops : List (Op ρ)) :
    stream.chunks <+: (Runs.run (Stream.step rng) stream ops).chunks := by
  apply Runs.run_invariant fun later : Stream C => stream.chunks <+: later.chunks
  · intro op _ later h
    cases op with
    | addConsumer recipient => exact h
    | removeConsumer keyId => exact h
    | encryptChunk s data => exact h.trans (List.prefix_append _ _)
  · exact List.prefix_rfl

/-- The result of a chunk is found at its place, whatever is called later. -/
lemma chunk_of_run (rng : CryptoRng (Vector UInt8) ρ) (scope : Scope) (spendKey : SpendKeyPair C)
    (before after : List (Op ρ)) (s : ρ) (data : Bytes) :
    (Runs.run (Stream.step rng) ⟨new scope spendKey, []⟩
        (before ++ .encryptChunk s data :: after)).chunks[before.countP Op.isChunk]? =
      some ((((Runs.run (Stream.step rng) ⟨new scope spendKey, []⟩ before).pipeline.encryptChunk rng
        data).run s).map Prod.fst) := by
  rw [← (tracks_run rng scope spendKey before).chunks, Runs.run_append, Runs.run_cons]
  obtain ⟨later, hlater⟩ := chunks_prefix_run rng ((Runs.run (Stream.step rng)
    ⟨new scope spendKey, []⟩ before).step rng (.encryptChunk s data)) after
  rw [← hlater, Stream.step, List.append_assoc, List.getElem?_append_right le_rfl, Nat.sub_self]
  rfl

/-- A chunk fails exactly when no consumer is present, and otherwise opens to its data for the
consumers present at its time and for nobody else, whatever is called later. -/
theorem chunk_reaches_present (hC : C.Correct) (hA : C.aes256GcmSiv.Accepts 32)
    (hT : C.chacha20Poly1305.Tagged) (rng : CryptoRng (Vector UInt8) ρ) (scope : Scope)
    (spendKey : SpendKeyPair C) (before after : List (Op ρ)) (s : ρ) (data : Bytes)
    (hp : C.chacha20Poly1305.Accepts data.length)
    (hh : ∀ r, .addConsumer r ∈ before → r.keyId = KeyId.fromPublicBytes C (asBytes r.readPublicKey)) :
    ∃ chunk, (Runs.run (Stream.step rng) ⟨new scope spendKey, []⟩
        (before ++ .encryptChunk s data :: after)).chunks[before.countP Op.isChunk]? = some chunk ∧
      ((∀ keyId, ¬ Present before keyId) → chunk = fail (.encryptionError "no recipients")) ∧
      ((∃ keyId, Present before keyId) → ∃ e, chunk = .ok e ∧ ∀ c : ReadKeyPair C,
        (∀ r, .addConsumer r ∈ before → r.keyId = c.keyId → r.readPublicKey = c.publicKey) →
          (Present before c.keyId → decryptChunk e c spendKey.verifyingKey = .ok data) ∧
          (¬ Present before c.keyId → decryptChunk e c spendKey.verifyingKey =
            fail (.noMatchingAccessEntry (c.keyId.toBase58 C)))) := by
  refine ⟨_, chunk_of_run rng scope spendKey before after s data, fun hnone => ?_, fun hsome => ?_⟩
  · have hempty := List.eq_nil_iff_forall_not_mem.mpr fun r hr =>
      hnone r.keyId (((tracks_run rng scope spendKey before).present r.keyId).mp ⟨r, hr, rfl⟩)
    rw [encryptChunk_of_empty rng hempty]
    rfl
  · have h := tracks_run rng scope spendKey before
    obtain ⟨keyId, hkeyId⟩ := hsome
    obtain ⟨r, hr, _⟩ := (h.present keyId).mpr hkeyId
    obtain ⟨e, s', he⟩ := exists_encryptChunk hA hT rng (List.ne_nil_of_mem hr) hp s
    refine ⟨e, by rw [he]; rfl, fun c hc => ?_⟩
    have hopen := decryptChunk_eq hC he (h.honest hh) c (h.noCollision hh hc)
    rw [h.listed_iff hh hc, h.spendKey] at hopen
    exact hopen

end Pipeline

/-- The root key is added twice, removed and added again, with a chunk after each change. -/
def rootComesAndGoes : List (Pipeline.Op ℕ) :=
  [.addConsumer zeroRoot.recipient, .addConsumer zeroRoot.recipient, .encryptChunk 0 [1],
    .removeConsumer zeroRoot.keyId, .encryptChunk 0 [2], .addConsumer zeroRoot.recipient]

theorem chunk_reaches_present_again :
    ∃ e, (Runs.run (Pipeline.Stream.step (Transparent.rng packArray))
        ⟨Pipeline.new Scope.root (zeroSpend packArray), []⟩
          (rootComesAndGoes ++ [.encryptChunk 0 [3], .removeConsumer zeroRoot.keyId])).chunks[2]? =
            some (.ok e) ∧
      Pipeline.decryptChunk e zeroRoot (zeroSpend packArray).verifyingKey = .ok [3] := by
  have hadd : ∀ r, .addConsumer r ∈ rootComesAndGoes → r = zeroRoot.recipient := by
    intro r hr
    simpa [rootComesAndGoes] using hr
  have hpres : Pipeline.Present rootComesAndGoes zeroRoot.keyId := ⟨zeroRoot.recipient, rfl⟩
  obtain ⟨chunk, hchunk, _, hsome⟩ := Pipeline.chunk_reaches_present
    (Transparent.crypto_correct packArray) (Transparent.aead_accepts 32) Transparent.aead_tagged
    (Transparent.rng packArray) Scope.root (zeroSpend packArray) rootComesAndGoes
    [.removeConsumer zeroRoot.keyId] 0 [3] (Transparent.aead_accepts _)
    (fun r hr => by rw [hadd r hr]; rfl)
  obtain ⟨e, rfl, hopen⟩ := hsome ⟨_, hpres⟩
  exact ⟨e, hchunk, (hopen zeroRoot fun r hr _ => by rw [hadd r hr]; rfl).1 hpres⟩

end ReadOnlyKeys
