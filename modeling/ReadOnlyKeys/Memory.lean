import ReadOnlyKeys.Reencode
import ReadOnlyKeys.Lib.Runs
import ReadOnlyKeys.Storage
import Mathlib.Data.List.ReduceOption

/-!
# The memory store

The owner encrypts memories in scope-based mode and hands their bytes to a
storage backend. Owner and agents read them back with scoped read keys. What a
reader learns about where a memory belongs is the backend's word.
-/
namespace ReadOnlyKeys
open Outcome Wire

variable {σ ρ : Type}

/-- A decrypted memory. -/
structure MemoryEntry where
  scope : Scope
  key : List Char
  data : Bytes
  deriving DecidableEq

/-- A memory proposed by an agent. -/
structure Proposal where
  scope : Scope
  key : List Char
  plaintext : Bytes
  proposedBy : String

/-- The owner's store over a backend. -/
structure MemoryStore (C : Crypto (Vector UInt8)) (σ : Type) where
  spendKey : SpendKeyPair C
  backend : StorageBackend σ

/-- An agent's view of a store. -/
structure MemoryReader (C : Crypto (Vector UInt8)) (σ : Type) where
  spendVk : C.VerifyingKey
  backend : StorageBackend σ

section Read

variable {C : Crypto (Vector UInt8)} (m : Overflow) (vk : C.VerifyingKey)
  (readKey : ReadKeyPair C)

/-- The envelope in a stored entry. -/
def StorageEntry.envelope (entry : StorageEntry) :
    Result (EncryptedEnvelope (Vector UInt8)) := do
  let data ← Slice.ofBytes entry.data
  EncryptedEnvelope.fromBytes m data

/-- The reading of one memory, which store and reader share. -/
def readMemory (backend : StorageBackend σ) (scope : Scope) (key : List Char) :
    Program RokError σ Bytes := do
  let entry ← backend.getByKey scope.path key
  let envelope ← Program.attempt (entry.envelope m)
  Program.attempt (decrypt envelope readKey vk)

/-- One step of the loop over the listed entries. An entry that cannot be decrypted is skipped. -/
def visitEntry (entry : StorageEntry) : Result (Option MemoryEntry) := do
  let envelope ← entry.envelope m
  match decrypt envelope readKey vk with
  | .ok data => do
    let entryScope ← mapFault (Scope.new entry.scope) fun e =>
      .storageError s!"bad scope in storage: {e.display}"
    return some ⟨entryScope, entry.key, data⟩
  | .error (.err _) => return none
  | .error .panic => .error .panic

/-- The listing of all memories a key can see, which store and reader share. -/
def listMemories (backend : StorageBackend σ) : Program RokError σ (List MemoryEntry) := do
  let entries ← backend.list readKey.scope.path
  let memories ← Program.attempt (entries.mapM (visitEntry m vk readKey))
  return memories.reduceOption

variable {m vk readKey} {backend : StorageBackend σ} {entry : StorageEntry}
  {e : EncryptedEnvelope (Vector UInt8)} {s s' : σ}

/-- A read decrypts the envelope that the backend answers with. -/
theorem readMemory_of_envelope {scope : Scope} {key : List Char}
    (hget : (backend.getByKey scope.path key).exec s = (.ok entry, s'))
    (henv : entry.envelope m = .ok e) :
    (readMemory m vk readKey backend scope key).exec s = (decrypt e readKey vk, s') := by
  unfold readMemory
  rw [Program.exec_bind, hget]
  simp only [henv, Program.exec_attempt_bind]
  rfl

theorem visitEntry_of_decrypt {data : Bytes} (henv : entry.envelope m = .ok e)
    (hd : decrypt e readKey vk = .ok data) (hv : Scope.Valid ⟨entry.scope⟩) :
    visitEntry m vk readKey entry = .ok (some ⟨⟨entry.scope⟩, entry.key, data⟩) := by
  have hnew : Scope.new entry.scope = .ok ⟨entry.scope⟩ := (Scope.new_eq_ok_iff _ _).mpr ⟨rfl, hv⟩
  rw [visitEntry, henv, ok_bind, hd]
  simp only [hnew]
  rfl

theorem listMemories_of_visit {entries : List StorageEntry} {f : StorageEntry → MemoryEntry}
    (hlist : (backend.list readKey.scope.path).exec s = (.ok entries, s'))
    (hvisit : ∀ x ∈ entries, visitEntry m vk readKey x = .ok (some (f x))) :
    (listMemories m vk readKey backend).exec s = (.ok (entries.map f), s') := by
  unfold listMemories
  rw [Program.exec_bind, hlist]
  simp only [mapM_eq_ok hvisit, Program.exec_attempt_bind, Program.exec_pure]
  simp [List.reduceOption]

end Read

namespace MemoryStore

variable {C : Crypto (Vector UInt8)} (self : MemoryStore C σ)

/-- Encrypt and store a memory at a scope. `r` is the state of the thread's generator. -/
def write (rng : CryptoRng (Vector UInt8) ρ) (r : ρ) (scope : Scope) (key : List Char)
    (content : Bytes) : Program RokError σ StorageId := do
  let (envelope, _) ← Program.attempt
    ((((EncryptBuilder.new C .eciesX25519ChaCha20 scope).setSpendKey
      self.spendKey).setScopeBased.encrypt rng content).run r)
  let envelopeBytes ← Program.attempt (Slice.ofBytes envelope.toBytes)
  self.backend.put scope.path key envelopeBytes.bytes

def read (m : Overflow) (readKey : ReadKeyPair C) (scope : Scope) (key : List Char) :
    Program RokError σ Bytes :=
  readMemory m self.spendKey.verifyingKey readKey self.backend scope key

def list (m : Overflow) (readKey : ReadKeyPair C) : Program RokError σ (List MemoryEntry) :=
  listMemories m self.spendKey.verifyingKey readKey self.backend

/-- Encrypt and store a proposed memory. -/
def acceptProposal (rng : CryptoRng (Vector UInt8) ρ) (r : ρ) (proposal : Proposal) :
    Program RokError σ StorageId :=
  self.write rng r proposal.scope proposal.key proposal.plaintext

/-- Export a scoped read key for delegation. -/
def grantAccess (scope : Scope) : Result (ExportedReadKey (Vector UInt8)) :=
  let root := self.spendKey.deriveRootReadKey
  if scope = Scope.root then return root.exportKey
  else do
    let scopedKey ← root.deriveChild scope
    return scopedKey.exportKey

end MemoryStore

namespace MemoryReader

variable {C : Crypto (Vector UInt8)} (self : MemoryReader C σ)

def read (m : Overflow) (readKey : ReadKeyPair C) (scope : Scope) (key : List Char) :
    Program RokError σ Bytes :=
  readMemory m self.spendVk readKey self.backend scope key

def list (m : Overflow) (readKey : ReadKeyPair C) : Program RokError σ (List MemoryEntry) :=
  listMemories m self.spendVk readKey self.backend

end MemoryReader

section Holds

variable {C : Crypto (Vector UInt8)} (m : Overflow) (spendKey : SpendKeyPair C)

/-- The data is an envelope of `content` at a scope, as every genuine key finds it. -/
def Holds (scope : Scope) (data content : Bytes) : Prop :=
  ∃ e, (∀ entry : StorageEntry, entry.data = data → entry.envelope m = .ok e) ∧
    ∀ k : ReadKeyPair C, k.Genuine spendKey → decrypt e k spendKey.verifyingKey =
      if k.scope.isAncestorOf scope = true then .ok content
      else fail (.scopeMismatch k.scope.display scope.display)

/-- The bytes of a scope-based envelope hold its plaintext, where its scope can be written. -/
theorem Encrypted.holds (hC : C.Correct) (hR : C.StaticRoundtrip) (hT : C.aes256GcmSiv.Tagged)
    {b : EncryptBuilder C} {recipients : List (Recipient (Vector UInt8))}
    {e : EncryptedEnvelope (Vector UInt8)} {content : Bytes} {out : Slice}
    (h : Encrypted b content spendKey recipients e) (hb : b.scopeBased = true)
    (hv : b.scope.Valid) (hlen : (toUtf8 b.scope.path).length ≤ 65535)
    (hout : (Slice.ofBytes e.toBytes : Result Slice) = .ok out) :
    Holds m spendKey b.scope out.bytes content := by
  obtain ⟨_, _, hrs, _⟩ := h.scopeMode hR hb
  refine ⟨e, fun entry hdata => ?_, fun k hk => h.decrypt_genuine hC hR hb hk⟩
  have hbytes : out.bytes = e.toBytes := by
    unfold Slice.ofBytes at hout
    split_ifs at hout
    rw [← Except.ok.inj hout]
  have hin : (Slice.ofBytes entry.data : Result Slice) = .ok out := by
    rw [hdata, hbytes]
    exact hout
  rw [StorageEntry.envelope, hin, ok_bind, h.fromBytes_toBytes_iff hT hv m hbytes, hrs]
  exact ⟨hlen, by simp⟩

/-- The bytes that a write puts. They do not depend on the backend. -/
def MemoryStore.written (spendKey : SpendKeyPair C) (rng : CryptoRng (Vector UInt8) ρ) (r : ρ)
    (scope : Scope) (content : Bytes) : Result Bytes := do
  let (envelope, _) ← (((EncryptBuilder.new C .eciesX25519ChaCha20 scope).setSpendKey
    spendKey).setScopeBased.encrypt rng content).run r
  let envelopeBytes ← Slice.ofBytes envelope.toBytes
  return envelopeBytes.bytes

/-- A write puts its bytes, or fails before it reaches the backend. -/
theorem MemoryStore.exec_write (self : MemoryStore C σ) (rng : CryptoRng (Vector UInt8) ρ) (r : ρ)
    (scope : Scope) (key : List Char) (content : Bytes) (s : σ) :
    (self.write rng r scope key content).exec s =
      match written self.spendKey rng r scope content with
      | .ok data => (self.backend.put scope.path key data).exec s
      | .error err => (.error err, s) := by
  unfold write written
  rw [Program.exec_attempt_bind]
  cases (((EncryptBuilder.new C .eciesX25519ChaCha20 scope).setSpendKey
      self.spendKey).setScopeBased.encrypt rng content).run r with
  | error err => rfl
  | ok p =>
    cases hout : (Slice.ofBytes p.1.toBytes : Result Slice) with
    | error err => simp only [Program.exec_attempt_bind, hout, ok_bind, error_bind]
    | ok out =>
      simp only [Program.exec_attempt_bind, hout, ok_bind]
      rfl

/-- The bytes of a write are an honest envelope. -/
theorem MemoryStore.holds_of_written (hC : C.Correct) (hR : C.StaticRoundtrip)
    (hT : C.aes256GcmSiv.Tagged) {rng : CryptoRng (Vector UInt8) ρ} {r : ρ} {scope : Scope}
    (hv : scope.Valid) (hlen : (toUtf8 scope.path).length ≤ 65535) {content data : Bytes}
    (h : written spendKey rng r scope content = .ok data) : Holds m spendKey scope data content := by
  simp only [written, bind_eq_ok_iff] at h
  obtain ⟨p, hp, out, hout, h⟩ := h
  obtain rfl := Except.ok.inj h
  obtain ⟨sk, recipients, henc⟩ := EncryptBuilder.encrypt_run hp
  obtain rfl : spendKey = sk := Option.some.inj henc.spendKey_eq
  exact henc.holds m spendKey hC hR hT rfl hv hlen hout

/-- A write fails before it reaches the backend, or puts an honest envelope. -/
theorem MemoryStore.write_cases (hC : C.Correct) (hR : C.StaticRoundtrip)
    (hT : C.aes256GcmSiv.Tagged) (self : MemoryStore C σ) (rng : CryptoRng (Vector UInt8) ρ)
    (r : ρ) {scope : Scope} (hv : scope.Valid) (hlen : (toUtf8 scope.path).length ≤ 65535)
    (key : List Char) (content : Bytes) (s : σ) :
    (∃ err, written self.spendKey rng r scope content = .error err ∧
      (self.write rng r scope key content).exec s = (.error err, s)) ∨
    ∃ data, written self.spendKey rng r scope content = .ok data ∧
      Holds m self.spendKey scope data content ∧
      (self.write rng r scope key content).exec s =
        (self.backend.put scope.path key data).exec s := by
  rw [self.exec_write]
  cases hw : written self.spendKey rng r scope content with
  | error err => exact .inl ⟨err, rfl, rfl⟩
  | ok data => exact .inr ⟨data, rfl, holds_of_written m self.spendKey hC hR hT hv hlen hw, rfl⟩

/-- A write leaves an honest envelope in the backend, or nothing. -/
theorem MemoryStore.write_exec (hC : C.Correct) (hR : C.StaticRoundtrip)
    (hT : C.aes256GcmSiv.Tagged) {self : MemoryStore C σ}
    {view : σ → List Char × List Char → Option Bytes} (hB : ExactMap self.backend view)
    {rng : CryptoRng (Vector UInt8) ρ} {r : ρ} {scope : Scope} (hv : scope.Valid)
    (hlen : (toUtf8 scope.path).length ≤ 65535) {key : List Char} {content : Bytes} {s s' : σ}
    {res : Result StorageId} (h : (self.write rng r scope key content).exec s = (res, s')) :
    (∃ err, res = .error err ∧ view s' = view s) ∨
      ∃ id data, res = .ok id ∧ Holds m self.spendKey scope data content ∧
        view s' = Function.update (view s) (scope.path, key) (some data) := by
  rcases write_cases m hC hR hT self rng r hv hlen key content s with
    ⟨err, _, hexec⟩ | ⟨data, _, hholds, hexec⟩
  · obtain ⟨rfl, rfl⟩ := Prod.mk.inj (h.symm.trans hexec)
    exact .inl ⟨err, rfl, rfl⟩
  · have hput := hB.put _ _ _ _ _ _ (hexec.symm.trans h)
    cases res with
    | error err => exact .inl ⟨err, rfl, hput⟩
    | ok id => exact .inr ⟨id, data, rfl, hholds, hput⟩

/-- The memories at each scope and key. -/
abbrev Contents := List Char × List Char → Option Bytes

/-- The backend holds envelopes of the contents and nothing else. -/
def Mirrors (view : List Char × List Char → Option Bytes) (contents : Contents) : Prop :=
  ∀ q, match view q with
    | none => contents q = none
    | some data => ∃ content, contents q = some content ∧ Scope.Valid ⟨q.1⟩ ∧
      Holds m spendKey ⟨q.1⟩ data content

variable {m spendKey}

theorem Mirrors.held {view : List Char × List Char → Option Bytes} {contents : Contents}
    (h : Mirrors m spendKey view contents) {q : List Char × List Char} {data : Bytes}
    (hv : view q = some data) :
    ∃ content, contents q = some content ∧ Scope.Valid ⟨q.1⟩ ∧
      Holds m spendKey ⟨q.1⟩ data content := by
  have hq := h q
  simp only [hv] at hq
  exact hq

theorem Mirrors.exists_view {view : List Char × List Char → Option Bytes} {contents : Contents}
    (h : Mirrors m spendKey view contents) {q : List Char × List Char} {content : Bytes}
    (hc : contents q = some content) : ∃ data, view q = some data := by
  cases hv : view q with
  | some data => exact ⟨data, rfl⟩
  | none =>
    have hq := h q
    simp only [hv] at hq
    rw [hc] at hq
    cases hq

theorem Mirrors.update {view : List Char × List Char → Option Bytes} {contents : Contents}
    (h : Mirrors m spendKey view contents) {scope : Scope} (hv : scope.Valid) (key : List Char)
    {data content : Bytes} (hd : Holds m spendKey scope data content) :
    Mirrors m spendKey (Function.update view (scope.path, key) (some data))
      (Function.update contents (scope.path, key) (some content)) := by
  intro q
  by_cases hq : q = (scope.path, key)
  · subst hq
    rw [Function.update_self, Function.update_self]
    exact ⟨content, rfl, hv, hd⟩
  · rw [Function.update_of_ne hq, Function.update_of_ne hq]
    exact h q

/-- What a reader with a key at `S` should see of the contents. -/
structure Shows (S : Scope) (contents : Contents) (s : σ)
    (read : Scope → List Char → Program RokError σ Bytes)
    (list : Program RokError σ (List MemoryEntry)) : Prop where
  read_ok : ∀ T name content, S.isAncestorOf T = true → contents (T.path, name) = some content →
    ((read T name).exec s).1 = .ok content
  read_err : ∀ T name, S.isAncestorOf T = false ∨ contents (T.path, name) = none →
    ∃ err, ((read T name).exec s).1 = fail err
  list : ∃ memories, (list.exec s).1 = .ok memories ∧
    (memories.map fun e => (e.scope, e.key)).Nodup ∧
    ∀ T name content, ⟨T, name, content⟩ ∈ memories ↔
      S.isAncestorOf T = true ∧ contents (T.path, name) = some content

variable {backend : StorageBackend σ} {view : σ → List Char × List Char → Option Bytes}
  {contents : Contents} {k : ReadKeyPair C}

/-- Reading a memory that the backend holds. -/
theorem readMemory_exec (hB : ExactMap backend view) {s : σ}
    (h : Mirrors m spendKey (view s) contents) (hk : k.Genuine spendKey) (T : Scope)
    (name : List Char) {content : Bytes} (hc : contents (T.path, name) = some content) :
    ((readMemory m spendKey.verifyingKey k backend T name).exec s).1 =
      if k.scope.isAncestorOf T = true then .ok content
      else fail (.scopeMismatch k.scope.display T.display) := by
  obtain ⟨data, hv⟩ := h.exists_view hc
  obtain ⟨c, hcc, _, e, henv, hdec⟩ := h.held hv
  obtain rfl : c = content := Option.some.inj (hcc.symm.trans hc)
  have hget := hB.getByKey T.path name s
  simp only [hv] at hget
  obtain ⟨entry, s', hexec, hdata⟩ := hget
  rw [readMemory_of_envelope hexec (henv entry hdata)]
  exact hdec k hk

/-- Reading a memory that was never written. -/
theorem readMemory_exec_none (hB : ExactMap backend view) {s : σ}
    (h : Mirrors m spendKey (view s) contents) (T : Scope) (name : List Char)
    (hc : contents (T.path, name) = none) :
    ∃ err, ((readMemory m spendKey.verifyingKey k backend T name).exec s).1 = fail err := by
  have hget := hB.getByKey T.path name s
  cases hv : view s (T.path, name) with
  | none =>
    simp only [hv] at hget
    obtain ⟨err, s', hexec⟩ := hget
    refine ⟨err, ?_⟩
    unfold readMemory
    rw [Program.exec_bind, hexec]
  | some data =>
    obtain ⟨c, hcc, _⟩ := h.held hv
    rw [hc] at hcc
    cases hcc

/-- A stored entry in reach of the key is visited as the memory at its place. -/
theorem Mirrors.visitEntry_eq {view : List Char × List Char → Option Bytes}
    (h : Mirrors m spendKey view contents) (hk : k.Genuine spendKey) {e : StorageEntry}
    (hanc : k.scope.isAncestorOf ⟨e.scope⟩ = true)
    (hview : view (e.scope, e.key) = some e.data) :
    ∃ content, contents (e.scope, e.key) = some content ∧
      visitEntry m spendKey.verifyingKey k e = .ok (some ⟨⟨e.scope⟩, e.key, content⟩) := by
  obtain ⟨content, hc, hv, env, henv, hdec⟩ := h.held hview
  have hd := hdec k hk
  rw [if_pos hanc] at hd
  exact ⟨content, hc, visitEntry_of_decrypt (henv e rfl) hd hv⟩

/-- Where the backend lists what it holds, the listing gives every memory at the scope of the key
and below, once. -/
theorem Mirrors.listMemories_of_list {view : List Char × List Char → Option Bytes}
    (h : Mirrors m spendKey view contents) (hk : k.Genuine spendKey) {s s' : σ}
    {es : List StorageEntry} (hexec : (backend.list k.scope.path).exec s = (.ok es, s'))
    (hnodup : (es.map fun e => (e.scope, e.key)).Nodup)
    (hmem : ∀ scope key data, (∃ e ∈ es, e.scope = scope ∧ e.key = key ∧ e.data = data) ↔
      k.scope.isAncestorOf ⟨scope⟩ = true ∧ view (scope, key) = some data) :
    ∃ memories, (listMemories m spendKey.verifyingKey k backend).exec s = (.ok memories, s') ∧
      (memories.map fun e => (e.scope, e.key)).Nodup ∧
      ∀ T name content, ⟨T, name, content⟩ ∈ memories ↔
        k.scope.isAncestorOf T = true ∧ contents (T.path, name) = some content := by
  let toMemory (e : StorageEntry) : MemoryEntry :=
    ⟨⟨e.scope⟩, e.key, (contents (e.scope, e.key)).getD []⟩
  have hanc : ∀ e ∈ es, k.scope.isAncestorOf ⟨e.scope⟩ = true ∧
      view (e.scope, e.key) = some e.data := fun e he =>
    (hmem e.scope e.key e.data).mp ⟨e, he, rfl, rfl, rfl⟩
  have hvisit : ∀ e ∈ es,
      visitEntry m spendKey.verifyingKey k e = .ok (some (toMemory e)) := by
    intro e he
    obtain ⟨content, hc, hx⟩ := h.visitEntry_eq hk (hanc e he).1 (hanc e he).2
    rw [hx]
    simp only [toMemory, hc, Option.getD_some]
  refine ⟨es.map toMemory, listMemories_of_visit hexec hvisit, ?_, fun T name content => ?_⟩
  · rw [List.map_map]
    apply List.Nodup.of_map (fun p : Scope × List Char => (p.1.path, p.2))
    rw [List.map_map]
    exact hnodup
  · constructor
    · intro hm
      obtain ⟨e, he, hx⟩ := List.mem_map.mp hm
      obtain ⟨c, hc, _⟩ := h.held (hanc e he).2
      simp only [toMemory, hc, Option.getD_some, MemoryEntry.mk.injEq] at hx
      obtain ⟨rfl, rfl, rfl⟩ := hx
      exact ⟨(hanc e he).1, hc⟩
    · intro ⟨hreach, hc⟩
      obtain ⟨data, hv⟩ := h.exists_view hc
      obtain ⟨e, he, hs, hkey, _⟩ := (hmem T.path name data).mpr ⟨hreach, hv⟩
      refine List.mem_map.mpr ⟨e, he, ?_⟩
      simp only [toMemory, hs, hkey, hc, Option.getD_some]

/-- The listing gives every memory at the scope of the key and below, once. -/
theorem listMemories_exec (hB : ExactMap backend view) {s : σ}
    (h : Mirrors m spendKey (view s) contents) (hk : k.Genuine spendKey) :
    ∃ memories, ((listMemories m spendKey.verifyingKey k backend).exec s).1 = .ok memories ∧
      (memories.map fun e => (e.scope, e.key)).Nodup ∧
      ∀ T name content, ⟨T, name, content⟩ ∈ memories ↔
        k.scope.isAncestorOf T = true ∧ contents (T.path, name) = some content := by
  obtain ⟨es, s', hexec, hnodup, hmem⟩ := hB.list k.scope.path s
  obtain ⟨memories, hlist, hmemories⟩ := h.listMemories_of_list hk hexec hnodup hmem
  exact ⟨memories, by rw [hlist], hmemories⟩

/-- Over a backend that mirrors the contents, a genuine key sees what it should. -/
theorem Mirrors.shows (hB : ExactMap backend view) {s : σ}
    (h : Mirrors m spendKey (view s) contents) (hk : k.Genuine spendKey) :
    Shows k.scope contents s (readMemory m spendKey.verifyingKey k backend)
      (listMemories m spendKey.verifyingKey k backend) where
  read_ok T name content ha hc := by
    rw [readMemory_exec hB h hk T name hc, if_pos ha]
  read_err T name hn := by
    cases hc : contents (T.path, name) with
    | none => exact readMemory_exec_none hB h T name hc
    | some content =>
      have ha : ¬ k.scope.isAncestorOf T = true := by
        rcases hn with hn | hn
        · simp [hn]
        · rw [hc] at hn
          cases hn
      exact ⟨_, by rw [readMemory_exec hB h hk T name hc, if_neg ha]⟩
  list := listMemories_exec hB h hk

end Holds

namespace MemoryStore

/-- A call of the owner, with the state of the generator it meets. -/
inductive Op (ρ : Type) where
  | write (r : ρ) (scope : Scope) (key : List Char) (content : Bytes)
  | acceptProposal (r : ρ) (proposal : Proposal)

namespace Op

def scope : Op ρ → Scope
  | write _ scope _ _ => scope
  | acceptProposal _ proposal => proposal.scope

def key : Op ρ → List Char
  | write _ _ key _ => key
  | acceptProposal _ proposal => proposal.key

def content : Op ρ → Bytes
  | write _ _ _ content => content
  | acceptProposal _ proposal => proposal.plaintext

/-- A call at a scope that can be written down. -/
def Admissible (op : Op ρ) : Prop :=
  op.scope.Valid ∧ (toUtf8 op.scope.path).length ≤ 65535

end Op

variable {C : Crypto (Vector UInt8)} (self : MemoryStore C σ) (rng : CryptoRng (Vector UInt8) ρ)

def program : Op ρ → Program RokError σ StorageId
  | .write r scope key content => self.write rng r scope key content
  | .acceptProposal r proposal => self.acceptProposal rng r proposal

/-- A call, and the record of what was last written where. A call that fails writes nothing. -/
def step (sc : σ × Contents) (op : Op ρ) : σ × Contents :=
  match (self.program rng op).exec sc.1 with
  | (.ok _, s) => (s, Function.update sc.2 (op.scope.path, op.key) (some op.content))
  | (.error _, s) => (s, sc.2)

lemma program_eq_write (op : Op ρ) : ∃ r,
    self.program rng op = self.write rng r op.scope op.key op.content := by
  cases op with
  | write r scope key content => exact ⟨r, rfl⟩
  | acceptProposal r proposal => exact ⟨r, rfl⟩

variable {self rng}

/-- Every admissible call keeps the backend a mirror of what was written. -/
theorem mirrors_step (hC : C.Correct) (hR : C.StaticRoundtrip) (hT : C.aes256GcmSiv.Tagged)
    (m : Overflow) {view : σ → List Char × List Char → Option Bytes}
    (hB : ExactMap self.backend view) {op : Op ρ} (hop : op.Admissible)
    {sc : σ × Contents}
    (h : Mirrors m self.spendKey (view sc.1) sc.2) :
    Mirrors m self.spendKey (view (self.step rng sc op).1) (self.step rng sc op).2 := by
  obtain ⟨r, hprogram⟩ := self.program_eq_write rng op
  unfold step
  rw [hprogram]
  cases hexec : (self.write rng r op.scope op.key op.content).exec sc.1 with
  | mk res s' =>
    rcases write_exec m hC hR hT hB hop.1 hop.2 hexec with
      ⟨err, rfl, hview⟩ | ⟨id, data, rfl, hd, hview⟩
    · simp only [hview]
      exact h
    · simp only [hview]
      exact h.update hop.1 op.key hd

/-- After every sequence of admissible calls on an empty backend, it mirrors what was written. -/
theorem mirrors_run (hC : C.Correct) (hR : C.StaticRoundtrip) (hT : C.aes256GcmSiv.Tagged)
    (m : Overflow) {view : σ → List Char × List Char → Option Bytes}
    (hB : ExactMap self.backend view) {s₀ : σ} (h₀ : ∀ q, view s₀ q = none) {ops : List (Op ρ)}
    (hops : ∀ op ∈ ops, op.Admissible) :
    Mirrors m self.spendKey (view (Runs.run (self.step rng) (s₀, fun _ => none) ops).1)
      (Runs.run (self.step rng) (s₀, fun _ => none) ops).2 := by
  apply Runs.run_invariant (fun sc : σ × Contents => Mirrors m self.spendKey (view sc.1) sc.2)
  · intro op hop sc h
    exact mirrors_step hC hR hT m hB (hops op hop) h
  · intro q
    simp only [h₀ q]

/-- A state that the owner's calls lead to from an empty backend. -/
def Written (self : MemoryStore C σ) (rng : CryptoRng (Vector UInt8) ρ)
    (view : σ → List Char × List Char → Option Bytes) (s : σ) : Prop :=
  ∃ s₀ ops, (∀ q, view s₀ q = none) ∧ (∀ op ∈ ops, op.Admissible) ∧
    (Runs.run (self.step rng) (s₀, fun _ => none) ops).1 = s

theorem Written.exists_mirrors {view : σ → List Char × List Char → Option Bytes} {s : σ}
    (h : Written self rng view s) (hC : C.Correct) (hR : C.StaticRoundtrip)
    (hT : C.aes256GcmSiv.Tagged) (m : Overflow) (hB : ExactMap self.backend view) :
    ∃ contents, Mirrors m self.spendKey (view s) contents := by
  obtain ⟨s₀, ops, h₀, hops, rfl⟩ := h
  exact ⟨_, mirrors_run hC hR hT m hB h₀ hops⟩

/-- Access that was granted and imported is a delegation from the root. -/
theorem delegated_of_grantAccess {scope : Scope} {exported : ExportedReadKey (Vector UInt8)}
    {k : ReadKeyPair C} (hg : self.grantAccess scope = .ok exported)
    (hi : ReadKeyPair.importKey C exported = .ok k) :
    Relation.ReflTransGen ReadKeyPair.Delegates self.spendKey.deriveRootReadKey k := by
  unfold grantAccess at hg
  simp only at hg
  split_ifs at hg with hroot
  · obtain rfl := Except.ok.inj hg
    exact .tail .refl (.transfer hi)
  · rw [bind_eq_ok_iff] at hg
    obtain ⟨scopedKey, hs, hg⟩ := hg
    obtain rfl := Except.ok.inj hg
    exact .tail (.tail .refl (.derive (.child scope hs))) (.transfer hi)

/-- After every sequence of writes and accepted proposals, a key of the hierarchy sees
through the store and through a reader the contents last written at its scope and below. -/
theorem shows_last_writes (hC : C.Correct) (hR : C.StaticRoundtrip) (hT : C.aes256GcmSiv.Tagged)
    (m : Overflow) (self : MemoryStore C σ) (rng : CryptoRng (Vector UInt8) ρ)
    {view : σ → List Char × List Char → Option Bytes} (hB : ExactMap self.backend view) (s₀ : σ)
    (h₀ : ∀ q, view s₀ q = none) (ops : List (Op ρ))
    (hops : ∀ op ∈ ops, op.Admissible) {k : ReadKeyPair C}
    (hk : Relation.ReflTransGen ReadKeyPair.Delegates self.spendKey.deriveRootReadKey k ∨
      ∃ scope exported, self.grantAccess scope = .ok exported ∧
        ReadKeyPair.importKey C exported = .ok k) :
    ∀ final, Runs.run (self.step rng) (s₀, fun _ => none) ops = final →
      Shows k.scope final.2 final.1 (self.read m k) (self.list m k) ∧
      Shows k.scope final.2 final.1
        (MemoryReader.read ⟨self.spendKey.verifyingKey, self.backend⟩ m k)
        (MemoryReader.list ⟨self.spendKey.verifyingKey, self.backend⟩ m k) := by
  intro final hfinal
  have hdelegated : Relation.ReflTransGen ReadKeyPair.Delegates
      self.spendKey.deriveRootReadKey k := by
    rcases hk with hk | ⟨scope, exported, hg, hi⟩
    · exact hk
    · exact delegated_of_grantAccess hg hi
  have hmirror : Mirrors m self.spendKey (view final.1) final.2 := by
    rw [← hfinal]
    exact mirrors_run hC hR hT m hB h₀ hops
  have hshows := hmirror.shows hB (ReadKeyPair.genuine_of_delegated hR hdelegated)
  exact ⟨hshows, hshows⟩

end MemoryStore

/-- A backend keyed by pairs. -/
def pairBackend : StorageBackend (AList fun _ : List Char × List Char => Bytes) where
  put scope key data := Program.effect fun s =>
    (.ok ⟨scope ++ ' ' :: key⟩, s.insert (scope, key) data)
  get id := Program.effect fun s =>
    (okOr ((s.entries.find? fun e => e.1.1 ++ ' ' :: e.1.2 = id.id).map fun e =>
      ⟨id, e.1.1, e.1.2, e.2, 0, 0⟩) (MemoryStorage.notFound id), s)
  getByKey scope key := Program.effect fun s =>
    (okOr ((s.lookup (scope, key)).map fun data => ⟨⟨scope ++ ' ' :: key⟩, scope, key, data, 0, 0⟩)
      (MemoryStorage.notFound ⟨scope ++ ' ' :: key⟩), s)
  list scopePrefix := Program.effect fun s =>
    (.ok ((s.entries.filter fun e => Scope.isAncestorOf ⟨scopePrefix⟩ ⟨e.1.1⟩).map fun e =>
      ⟨⟨e.1.1 ++ ' ' :: e.1.2⟩, e.1.1, e.1.2, e.2, 0, 0⟩), s)
  delete id := Program.effect fun s =>
    match s.entries.find? fun e => e.1.1 ++ ' ' :: e.1.2 = id.id with
    | some e => (.ok (), s.erase e.1)
    | none => (fail (MemoryStorage.notFound id), s)

theorem pairBackend_exactMap : ExactMap pairBackend fun s q => s.lookup q where
  put scope key data s r s' h := by
    obtain ⟨rfl, rfl⟩ := Prod.mk.inj h
    funext q
    simp only
    by_cases hq : q = (scope, key)
    · subst hq
      rw [Function.update_self, AList.lookup_insert]
    · rw [Function.update_of_ne hq, AList.lookup_insert_ne hq]
  getByKey scope key s := by
    cases hl : s.lookup (scope, key) with
    | none => exact ⟨_, s, by simp only [pairBackend, Program.exec_effect, hl]; rfl⟩
    | some data => exact ⟨_, s, by simp only [pairBackend, Program.exec_effect, hl]; rfl, rfl⟩
  list scopePrefix s := by
    refine ⟨_, s, rfl, ?_, fun scope key data => ?_⟩
    · rw [List.map_map]
      exact s.keys_nodup.sublist (List.filter_sublist.map Sigma.fst)
    · simp only [List.mem_map, List.mem_filter]
      constructor
      · intro h
        obtain ⟨e, ⟨x, ⟨hx, ha⟩, rfl⟩, rfl, rfl, rfl⟩ := h
        exact ⟨ha, AList.mem_lookup_iff.mpr hx⟩
      · intro h
        obtain ⟨ha, hd⟩ := h
        exact ⟨_, ⟨⟨(scope, key), data⟩, ⟨AList.mem_lookup_iff.mp hd, ha⟩, rfl⟩, rfl, rfl, rfl⟩

theorem pairBackend_steadyMap : SteadyMap pairBackend fun s q => s.lookup q where
  toExactMap := pairBackend_exactMap
  put_ok _ _ _ _ := ⟨_, _, rfl⟩
  getByKey_view _ _ _ := rfl

/-- A store of the zero seed's owner. -/
def zeroStore : MemoryStore Transparent.arrays (AList fun _ : List Char × List Char => Bytes) :=
  ⟨zeroSpend packArray, pairBackend⟩

/-- Two writes to one place, the second a proposal. -/
def twoWrites : List (MemoryStore.Op ℕ) :=
  [.write 0 ⟨['/', 'a']⟩ ['x'] [1, 2],
    .acceptProposal 0 ⟨⟨['/', 'a']⟩, ['x'], [3], "agent"⟩]

theorem shows_last_writes_overwritten :
    ∃ final, Runs.run (zeroStore.step (Transparent.rng packArray)) (∅, fun _ => none) twoWrites =
        final ∧
      ((zeroStore.read .wrapping zeroRoot ⟨['/', 'a']⟩ ['x']).exec final.1).1 = .ok [3] ∧
      ∃ memories, ((zeroStore.list .wrapping zeroRoot).exec final.1).1 = .ok memories ∧
        ⟨⟨['/', 'a']⟩, ['x'], [3]⟩ ∈ memories := by
  have hops : ∀ op ∈ twoWrites, op.Admissible := by
    intro op hop
    simp only [twoWrites, List.mem_cons, List.not_mem_nil, or_false] at hop
    rcases hop with rfl | rfl <;> exact ⟨by decide, by decide⟩
  obtain ⟨final, hfinal⟩ : ∃ final, Runs.run (zeroStore.step (Transparent.rng packArray))
    (∅, fun _ => none) twoWrites = final := ⟨_, rfl⟩
  have h := (MemoryStore.shows_last_writes (Transparent.crypto_correct packArray)
    (Transparent.crypto_staticRoundtrip packArray) Transparent.aead_tagged .wrapping zeroStore
    (Transparent.rng packArray) pairBackend_exactMap ∅ (fun _ => rfl) twoWrites hops
    (.inl .refl) final hfinal).1
  have hlast : final.2 (['/', 'a'], ['x']) = some [3] := by
    rw [← hfinal]
    decide +kernel
  obtain ⟨memories, hlist, _, hmem⟩ := h.list
  exact ⟨final, hfinal, h.read_ok _ _ _ rfl hlast, memories, hlist,
    (hmem _ _ _).mpr ⟨rfl, hlast⟩⟩

section Authenticity

variable {C : Crypto (Vector UInt8)} {m : Overflow} {vk : C.VerifyingKey} {k : ReadKeyPair C}
  {backend : StorageBackend σ}

/-- The owner signed the envelope, and the key was entitled to what it opened. -/
structure Vouches (vk : C.VerifyingKey) (k : ReadKeyPair C) (e : EncryptedEnvelope (Vector UInt8))
    (data : Bytes) : Prop where
  signed : C.verify vk e.signableBytes e.signature = true
  entitled : e.accessMode = .scopeBased → k.scope.isAncestorOf e.scope = true
  opened : decrypt e k vk = .ok data

theorem vouches_of_decrypt {e : EncryptedEnvelope (Vector UInt8)} {data : Bytes}
    (h : decrypt e k vk = .ok data) : Vouches vk k e data := by
  have hd := h
  simp only [decrypt, bind_eq_ok_iff, require_eq_ok_iff] at hd
  obtain ⟨_, hsigned, d, hkey, _⟩ := hd
  refine ⟨hsigned, fun hmode => ?_, h⟩
  rw [decryptKeyFor_scopeBased hmode] at hkey
  exact ReadKeyPair.ancestor_of_reach hkey

/-- What is stored under a scope was signed for that scope. -/
def StorageEntry.Consistent (m : Overflow) (entry : StorageEntry) : Prop :=
  ∀ e, entry.envelope m = .ok e → e.scope.path = entry.scope

/-- A read that succeeds opened the envelope that the backend answered with. -/
theorem readMemory_eq_ok {scope : Scope} {key : List Char} {data : Bytes} {s s' : σ}
    (h : (readMemory m vk k backend scope key).exec s = (.ok data, s')) :
    ∃ entry e, (backend.getByKey scope.path key).exec s = (.ok entry, s') ∧
      entry.envelope m = .ok e ∧ Vouches vk k e data ∧
      (entry.Consistent m → entry.scope = scope.path → e.scope = scope) := by
  simp only [readMemory, Program.exec_bind_eq_ok_iff, Program.exec_attempt_eq_ok_iff] at h
  obtain ⟨entry, _, hget, e, _, ⟨henv, rfl⟩, hd, rfl⟩ := h
  exact ⟨entry, e, hget, henv, vouches_of_decrypt hd, fun hc hs => Scope.ext ((hc e henv).trans hs)⟩

/-- A visited entry is reported at its stored scope and key. -/
theorem visitEntry_eq_ok {entry : StorageEntry} {x : MemoryEntry}
    (h : visitEntry m vk k entry = .ok (some x)) :
    ∃ e, entry.envelope m = .ok e ∧ Vouches vk k e x.data ∧ x.scope.path = entry.scope ∧
      x.scope.Valid ∧ x.key = entry.key ∧ (entry.Consistent m → e.scope = x.scope) := by
  unfold visitEntry at h
  rw [bind_eq_ok_iff] at h
  obtain ⟨e, henv, h⟩ := h
  cases hd : decrypt e k vk with
  | error fault =>
    rw [hd] at h
    cases fault <;> cases h
  | ok data =>
    simp only [hd, bind_eq_ok_iff, mapFault_eq_ok_iff, Scope.new_eq_ok_iff] at h
    obtain ⟨entryScope, ⟨rfl, hv⟩, h⟩ := h
    obtain rfl := Option.some.inj (Except.ok.inj h)
    exact ⟨e, henv, vouches_of_decrypt hd, rfl, hv, rfl, fun hc => Scope.ext (hc e henv)⟩

theorem listMemories_eq_ok {memories : List MemoryEntry} {s s' : σ}
    (h : (listMemories m vk k backend).exec s = (.ok memories, s')) :
    ∃ entries, (backend.list k.scope.path).exec s = (.ok entries, s') ∧
      ∀ x ∈ memories, ∃ entry ∈ entries, visitEntry m vk k entry = .ok (some x) := by
  simp only [listMemories, Program.exec_bind_eq_ok_iff, Program.exec_attempt_eq_ok_iff,
    Program.exec_pure, Prod.mk.injEq, Except.ok.injEq] at h
  obtain ⟨entries, _, hlist, visited, _, ⟨hvisit, rfl⟩, rfl, rfl⟩ := h
  refine ⟨entries, hlist, fun x hx => ?_⟩
  exact exists_of_mapM_eq_ok hvisit (List.reduceOption_mem_iff.mp hx)

/-- Whatever the backend answers, what is read was signed by the owner for a scope that the
key covers, and is reported at the scope that the backend names. -/
theorem reported_at_stored_scope (m : Overflow) (spendKey : SpendKeyPair C)
    (backend : StorageBackend σ) (k : ReadKeyPair C) :
    (∀ s s' scope key data,
      ((MemoryStore.read ⟨spendKey, backend⟩ m k scope key).exec s = (.ok data, s') ∨
        (MemoryReader.read ⟨spendKey.verifyingKey, backend⟩ m k scope key).exec s =
          (.ok data, s')) →
      ∃ entry e, (backend.getByKey scope.path key).exec s = (.ok entry, s') ∧
        entry.envelope m = .ok e ∧ Vouches spendKey.verifyingKey k e data ∧
        (entry.Consistent m → entry.scope = scope.path → e.scope = scope)) ∧
    ∀ s s' memories,
      ((MemoryStore.list ⟨spendKey, backend⟩ m k).exec s = (.ok memories, s') ∨
        (MemoryReader.list ⟨spendKey.verifyingKey, backend⟩ m k).exec s = (.ok memories, s')) →
      ∃ entries, (backend.list k.scope.path).exec s = (.ok entries, s') ∧
        ∀ x ∈ memories, ∃ entry ∈ entries, ∃ e, entry.envelope m = .ok e ∧
          Vouches spendKey.verifyingKey k e x.data ∧ x.scope.path = entry.scope ∧
          x.scope.Valid ∧ x.key = entry.key ∧ (entry.Consistent m → e.scope = x.scope) := by
  constructor
  · intro s s' scope key data h
    exact readMemory_eq_ok (h.elim id id)
  · intro s s' memories h
    obtain ⟨entries, hlist, hmem⟩ := listMemories_eq_ok (h.elim id id)
    refine ⟨entries, hlist, fun x hx => ?_⟩
    obtain ⟨entry, hentry, hvisit⟩ := hmem x hx
    exact ⟨entry, hentry, visitEntry_eq_ok hvisit⟩

end Authenticity

/-- A backend that answers every request with one entry. -/
def constantBackend (entry : StorageEntry) : StorageBackend Unit where
  put _ _ _ := pure entry.id
  get _ := pure entry
  getByKey _ _ := pure entry
  list _ := pure [entry]
  delete _ := pure ()

/-- An honest envelope for `/a` that the backend moves to `/b` is read and listed at `/b`. -/
theorem moved_envelope_read :
    ∃ e s', ((zeroBuilder packArray ['/', 'a']).setScopeBased.encrypt
        (Transparent.rng packArray) [1, 2]).run 0 = .ok (e, s') ∧ e.scope = ⟨['/', 'a']⟩ ∧
      ∃ entry : StorageEntry, entry.scope = ['/', 'b'] ∧ entry.envelope .wrapping = .ok e ∧
        (MemoryReader.read ⟨(zeroSpend packArray).verifyingKey, constantBackend entry⟩ .wrapping
          zeroRoot ⟨['/', 'b']⟩ ['x']).exec () = (.ok [1, 2], ()) ∧
        (MemoryStore.list ⟨zeroSpend packArray, constantBackend entry⟩ .wrapping zeroRoot).exec () =
          (.ok [⟨⟨['/', 'b']⟩, ['x'], [1, 2]⟩], ()) := by
  obtain ⟨r, he, hscope, henv, hd⟩ : ∃ r, ((zeroBuilder packArray ['/', 'a']).setScopeBased.encrypt
      (Transparent.rng packArray) [1, 2]).run 0 = .ok r ∧ r.1.scope = ⟨['/', 'a']⟩ ∧
      StorageEntry.envelope .wrapping ⟨⟨[]⟩, ['/', 'b'], ['x'], r.1.toBytes, 0, 0⟩ = .ok r.1 ∧
      decrypt r.1 zeroRoot (zeroSpend packArray).verifyingKey = .ok [1, 2] :=
    ⟨_, rfl, rfl, by decide +kernel, by decide +kernel⟩
  generalize hentry : (⟨⟨[]⟩, ['/', 'b'], ['x'], r.1.toBytes, 0, 0⟩ : StorageEntry) = entry at henv
  have hv : Scope.Valid ⟨['/', 'b']⟩ := by decide
  have hvisit : ∀ x ∈ [entry], visitEntry .wrapping (zeroSpend packArray).verifyingKey zeroRoot x =
      .ok (some ⟨⟨['/', 'b']⟩, ['x'], [1, 2]⟩) := by
    intro x hx
    obtain rfl := List.mem_singleton.mp hx
    rw [visitEntry_of_decrypt henv hd (by rwa [← hentry]), ← hentry]
  have hlist : ((constantBackend entry).list zeroRoot.scope.path).exec () = (.ok [entry], ()) := rfl
  refine ⟨r.1, r.2, he, hscope, entry, by rw [← hentry], henv, ?_,
    listMemories_of_visit hlist hvisit⟩
  show (readMemory _ _ _ _ _ _).exec () = _
  rw [readMemory_of_envelope rfl henv, hd]

end ReadOnlyKeys
