import ReadOnlyKeys.Session
import ReadOnlyKeys.SectionedCodec

/-!
# Synchronising a batch of memories

An owner's entry is written unless a read with the session's key finds its
content already there. The batch leaves what its writes would have left one
after another, because a skipped write is one that stores what is stored. An
agent's entry is only counted.
-/
namespace ReadOnlyKeys
open Outcome Wire

variable {σ ρ : Type}

/-- An entry of a batch. -/
structure SyncEntry where
  scope : List Char
  key : List Char
  content : List Char

/-- Where an entry belongs. -/
def SyncEntry.place (self : SyncEntry) : List Char × List Char := (self.scope, self.key)

/-- What became of the entries. -/
structure SyncCounts where
  written : ℕ
  skipped : ℕ
  proposed : ℕ
  errors : List String

namespace SyncCounts

def zero : SyncCounts := ⟨0, 0, 0, []⟩

def total (self : SyncCounts) : ℕ :=
  self.written + self.skipped + self.proposed + self.errors.length

/-- One more entry that failed. -/
def failed (self : SyncCounts) (error : String) : SyncCounts :=
  { self with errors := self.errors ++ [error] }

/-- The answer of the tool. -/
def report (self : SyncCounts) : String :=
  let parts :=
    (if 0 < self.written then [s!"{self.written} written"] else []) ++
    (if 0 < self.proposed then [s!"{self.proposed} proposed"] else []) ++
    (if 0 < self.skipped then [s!"{self.skipped} unchanged"] else []) ++
    (if self.errors ≠ [] then [s!"{self.errors.length} errors"] else [])
  let head := "sync: " ++ ", ".intercalate parts
  self.errors.foldl (fun result err => result ++ s!"\n  error: {err}") head

end SyncCounts

section Tool

variable (m : Overflow) (C : Crypto (Vector UInt8)) (E : KeyText) (connect : Session.Connect σ)
  (rng : CryptoRng (Vector UInt8) ρ)

/-- How an error names its entry. -/
def SyncEntry.display (self : SyncEntry) : String :=
  s!"{String.ofList self.scope}:{String.ofList self.key}"

/-- What is done with an entry that is not there already. It comes with the state of the
thread's generator that its write meets. -/
def commitEntry (session : Session) (scope : Scope) (counts : SyncCounts) (p : SyncEntry × ρ) :
    Program McpError σ SyncCounts :=
  match session.role with
  | .owner => do
    let store ← Program.attempt (mapFault (session.memoryStore C connect) .internalError)
    match ← (store.write rng p.2 scope p.1.key (toUtf8 p.1.content)).result with
    | .ok _ => return { counts with written := counts.written + 1 }
    | .error e => return counts.failed s!"{p.1.display} — write failed: {e.display}"
  | .agent => return { counts with proposed := counts.proposed + 1 }

/-- One round of the loop. -/
def syncEntry (session : Session) (reader : MemoryReader C σ) (readKey : ReadKeyPair C)
    (counts : SyncCounts) (p : SyncEntry × ρ) : Program McpError σ SyncCounts :=
  match Scope.new p.1.scope with
  | .error .panic => Program.attempt (.error .panic)
  | .error (.err e) => return counts.failed s!"{p.1.display} — invalid scope: {e.display}"
  | .ok scope => do
    let existing ← (reader.read m readKey scope p.1.key).result
    if existing.toOption = some (toUtf8 p.1.content) then
      return { counts with skipped := counts.skipped + 1 }
    else commitEntry C connect rng session scope counts p

/-- The tool `rok_memory:sync`. -/
def syncTool (session : Option Session) (entries : List (SyncEntry × ρ)) :
    Program McpError σ String := do
  let session ← Program.attempt (okOr session
    (.invalidParams "no active session — call rok_memory:login first"))
  if entries = [] then return "nothing to sync"
  else do
    let (reader, readKey) ← Program.attempt (session.loadReader C E connect)
    let counts ← entries.foldlM (syncEntry m C connect rng session reader readKey) .zero
    return counts.report

end Tool

/-- The laws of the primitives under which a write stores up to `max` bytes and refuses more. -/
structure Crypto.Seals (C : Crypto (Vector UInt8)) (max : ℕ) : Prop where
  correct : C.Correct
  roundtrip : C.StaticRoundtrip
  wraps : C.aes256GcmSiv.Accepts 32
  wrapsTagged : C.aes256GcmSiv.Tagged
  takes : C.chacha20Poly1305.TakesUpTo max
  tagged : C.chacha20Poly1305.Tagged
  max_le : max ≤ 2 ^ 62

/-- The contents after a write, which takes at most `max` bytes. -/
def putContent (max : ℕ) (contents : Contents) (q : List Char × List Char) (content : Bytes) :
    Contents :=
  if content.length ≤ max then Function.update contents q (some content) else contents

section Writes

variable {C : Crypto (Vector UInt8)} {max : ℕ} {content : Bytes}

/-- An honest envelope at one scope can be held in memory. -/
lemma Encrypted.toBytes_length_le (hS : C.Seals max) {b : EncryptBuilder C}
    {spendKey : SpendKeyPair C} {recipients : List (Recipient (Vector UInt8))}
    {e : EncryptedEnvelope (Vector UInt8)} (h : Encrypted b content spendKey recipients e)
    (hb : b.scopeBased = true) (hlen : (toUtf8 b.scope.path).length ≤ 65535)
    (hc : content.length ≤ max) : e.toBytes.length ≤ isizeMax := by
  obtain ⟨_, _, hrs, _⟩ := h.scopeMode hS.roundtrip hb
  have hmax := hS.max_le
  rw [EncryptedEnvelope.toBytes_length, h.encodedSize_eq hS.wrapsTagged hS.tagged, hrs,
    List.length_singleton, isizeMax]
  omega

namespace MemoryStore

variable (self : MemoryStore C σ) (rng : CryptoRng (Vector UInt8) ρ)
  {view : σ → List Char × List Char → Option Bytes} {scope : Scope}

/-- The builder of a write. -/
def builder (scope : Scope) : EncryptBuilder C :=
  ((EncryptBuilder.new C .eciesX25519ChaCha20 scope).setSpendKey self.spendKey).setScopeBased

lemma exists_resolve (hv : scope.Valid) :
    ∃ resolved, (self.builder scope).resolve self.spendKey = .ok resolved :=
  EncryptBuilder.exists_resolve rfl hv.sliceable self.spendKey

/-- A write of at most `max` bytes has something to put. -/
theorem written_ok (hS : C.Seals max) (hv : scope.Valid)
    (hlen : (toUtf8 scope.path).length ≤ 65535) (hc : content.length ≤ max) (r : ρ) :
    ∃ data, written self.spendKey rng r scope content = .ok data := by
  obtain ⟨resolved, hresolve⟩ := self.exists_resolve hv
  obtain ⟨e, r', he⟩ := EncryptBuilder.encrypt_exists_of_resolve hS.wraps hS.tagged rng rfl hresolve
    (fun k n => (hS.takes k n content).mpr hc) r
  obtain ⟨sk, recipients, henc⟩ := EncryptBuilder.encrypt_run he
  have hout : (Slice.ofBytes e.toBytes : Result Slice) =
      .ok ⟨e.toBytes, henc.toBytes_length_le hS rfl hlen hc⟩ := dif_pos _
  refine ⟨e.toBytes, ?_⟩
  unfold builder at he
  simp only [written, he, ok_bind, hout]
  rfl

/-- A longer write is refused. -/
theorem written_refused (hS : C.Seals max) (hv : scope.Valid) (hc : ¬ content.length ≤ max)
    (r : ρ) : ∃ err, written self.spendKey rng r scope content = fail err := by
  obtain ⟨resolved, hresolve⟩ := self.exists_resolve hv
  have hp : ∀ k n, ∃ e, C.chacha20Poly1305.encrypt k n content = .error e := by
    intro k n
    cases he : C.chacha20Poly1305.encrypt k n content with
    | error e => exact ⟨e, rfl⟩
    | ok ct => exact absurd ((hS.takes k n content).mp ⟨ct, he⟩) hc
  obtain ⟨err, herr⟩ := EncryptBuilder.encrypt_refuses rng rfl hresolve hp r
  refine ⟨err, ?_⟩
  unfold builder at herr
  rw [written, herr, error_bind]

/-- A write of at most `max` bytes succeeds. -/
theorem write_exec_ok (hS : C.Seals max) (hB : SteadyMap self.backend view) (hv : scope.Valid)
    (hlen : (toUtf8 scope.path).length ≤ 65535) (hc : content.length ≤ max) (r : ρ)
    (key : List Char) (s : σ) :
    ∃ id s', (self.write rng r scope key content).exec s = (.ok id, s') := by
  obtain ⟨data, hdata⟩ := self.written_ok rng hS hv hlen hc r
  rw [self.exec_write, hdata]
  exact hB.put_ok scope.path key data s

/-- A longer write is refused and changes nothing. -/
theorem write_exec_refused (hS : C.Seals max) (hv : scope.Valid) (hc : ¬ content.length ≤ max)
    (r : ρ) (key : List Char) (s : σ) :
    ∃ err, (self.write rng r scope key content).exec s = (fail err, s) := by
  obtain ⟨err, herr⟩ := self.written_refused rng hS hv hc r
  rw [self.exec_write, herr]
  exact ⟨err, rfl⟩

/-- A write ends without a panic, and the backend goes on mirroring the contents. -/
theorem write_mirrors (hS : C.Seals max) {m : Overflow} (hB : SteadyMap self.backend view)
    (hv : scope.Valid) (hlen : (toUtf8 scope.path).length ≤ 65535) (r : ρ) (key : List Char)
    (content : Bytes) {s : σ} {contents : Contents}
    (h : Mirrors m self.spendKey (view s) contents) :
    ∃ res s', (self.write rng r scope key content).exec s = (res, s') ∧ res ≠ .error .panic ∧
      Mirrors m self.spendKey (view s') (putContent max contents (scope.path, key) content) ∧
      ∀ q, q ≠ (scope.path, key) → view s' q = view s q := by
  unfold putContent
  by_cases hc : content.length ≤ max
  · obtain ⟨id, s', hexec⟩ := self.write_exec_ok rng hS hB hv hlen hc r key s
    refine ⟨.ok id, s', hexec, by simp, ?_⟩
    rw [if_pos hc]
    rcases write_exec m hS.correct hS.roundtrip hS.wrapsTagged hB.toExactMap hv hlen hexec with
      ⟨err, herr, _⟩ | ⟨_, data, _, hd, hview⟩
    · cases herr
    · rw [hview]
      exact ⟨h.update hv key hd, fun q hq => Function.update_of_ne hq _ _⟩
  · obtain ⟨err, hexec⟩ := self.write_exec_refused rng hS hv hc r key s
    rw [if_neg hc]
    exact ⟨_, s, hexec, by simp, h, fun _ _ => rfl⟩

end MemoryStore

end Writes

section Reads

variable {C : Crypto (Vector UInt8)} {m : Overflow} {spendKey : SpendKeyPair C}
  {backend : StorageBackend σ} {view : σ → List Char × List Char → Option Bytes}
  {contents : Contents} {k : ReadKeyPair C} {s : σ}

/-- A read does not change what is stored. -/
theorem readMemory_view (hB : SteadyMap backend view) (vk : C.VerifyingKey) (T : Scope)
    (name : List Char) (s : σ) : view ((readMemory m vk k backend T name).exec s).2 = view s := by
  have hview := hB.getByKey_view T.path name s
  unfold readMemory
  rw [Program.exec_bind]
  cases hget : (backend.getByKey T.path name).exec s with
  | mk r s' =>
    rw [hget] at hview
    cases r with
    | error err => exact hview
    | ok entry =>
      simp only [Program.exec_attempt_bind]
      cases entry.envelope m with
      | error err => exact hview
      | ok e => exact hview

/-- A genuine key reads the contents in its reach. -/
theorem readMemory_toOption (hB : ExactMap backend view) (h : Mirrors m spendKey (view s) contents)
    (hk : k.Genuine spendKey) (T : Scope) (name : List Char) :
    ((readMemory m spendKey.verifyingKey k backend T name).exec s).1.toOption =
      if k.scope.isAncestorOf T = true then contents (T.path, name) else none := by
  cases hc : contents (T.path, name) with
  | none =>
    obtain ⟨err, herr⟩ := readMemory_exec_none (k := k) hB h T name hc
    rw [herr, ite_self]
    rfl
  | some content =>
    rw [readMemory_exec hB h hk T name hc]
    split_ifs <;> rfl

/-- A stored envelope has a valid scope. -/
lemma StorageEntry.scope_valid_of_envelope {entry : StorageEntry}
    {e : EncryptedEnvelope (Vector UInt8)} (h : entry.envelope m = .ok e) : e.scope.Valid := by
  rw [StorageEntry.envelope, bind_eq_ok_iff] at h
  obtain ⟨data, _, hdata⟩ := h
  exact (EncryptedEnvelope.withinLimits_of_fromBytes m data hdata).scope_valid

/-- No key makes a read panic, whether or not it opens anything. -/
theorem Mirrors.readMemory_ne_panic (hB : ExactMap backend view)
    (h : Mirrors m spendKey (view s) contents) (hk : k.scope.Sliceable) (vk : C.VerifyingKey)
    (T : Scope) (name : List Char) :
    ((readMemory m vk k backend T name).exec s).1 ≠ .error .panic := by
  have hget := hB.getByKey T.path name s
  cases hv : view s (T.path, name) with
  | none =>
    simp only [hv] at hget
    obtain ⟨err, s', hexec⟩ := hget
    unfold readMemory
    rw [Program.exec_bind, hexec]
    simp
  | some data =>
    simp only [hv] at hget
    obtain ⟨entry, s', hexec, hdata⟩ := hget
    obtain ⟨_, _, _, e, henv, _⟩ := h.held hv
    have hscope := StorageEntry.scope_valid_of_envelope (henv entry hdata)
    rw [readMemory_of_envelope hexec (henv entry hdata)]
    exact decrypt_ne_panic hscope.sliceable hk vk

end Reads

/-- The contents after an entry was written, if its scope is valid. -/
def writeContent (max : ℕ) (contents : Contents) (e : SyncEntry) : Contents :=
  if Scope.Valid ⟨e.scope⟩ then putContent max contents e.place (toUtf8 e.content) else contents

/-- Writing what is there changes nothing. -/
lemma putContent_of_eq {max : ℕ} {contents : Contents} {q : List Char × List Char}
    {content : Bytes} (h : contents q = some content) :
    putContent max contents q content = contents := by
  unfold putContent
  split_ifs
  · rw [← h, Function.update_eq_self]
  · rfl

lemma SyncCounts.total_failed (counts : SyncCounts) (error : String) :
    (counts.failed error).total = counts.total + 1 := by
  simp [total, failed, Nat.add_assoc]

section Rounds

variable {C : Crypto (Vector UInt8)} {E : KeyText} (m : Overflow) (connect : Session.Connect σ)
  (rng : CryptoRng (Vector UInt8) ρ) (session : Session) (reader : MemoryReader C σ)
  (k : ReadKeyPair C) (counts : SyncCounts) {p : SyncEntry × ρ} (s : σ)

/-- An entry with an invalid scope is an error. -/
theorem syncEntry_of_not_valid (h : ¬ Scope.Valid ⟨p.1.scope⟩) :
    ∃ error, (syncEntry m C connect rng session reader k counts p).exec s =
      (.ok (counts.failed error), s) := by
  unfold syncEntry
  cases hnew : Scope.new p.1.scope with
  | ok T =>
    obtain ⟨rfl, hv⟩ := (Scope.new_eq_ok_iff _ _).mp hnew
    exact absurd hv h
  | error fault =>
    cases fault with
    | panic => exact absurd hnew (Scope.new_ne_panic _)
    | err e => exact ⟨_, rfl⟩

/-- With a valid scope, the read decides whether the entry is skipped. -/
theorem syncEntry_of_valid (hv : Scope.Valid ⟨p.1.scope⟩)
    (hread : ((reader.read m k ⟨p.1.scope⟩ p.1.key).exec s).1 ≠ .error .panic) :
    (syncEntry m C connect rng session reader k counts p).exec s =
      if ((reader.read m k ⟨p.1.scope⟩ p.1.key).exec s).1.toOption = some (toUtf8 p.1.content) then
        (.ok { counts with skipped := counts.skipped + 1 },
          ((reader.read m k ⟨p.1.scope⟩ p.1.key).exec s).2)
      else (commitEntry C connect rng session ⟨p.1.scope⟩ counts p).exec
        ((reader.read m k ⟨p.1.scope⟩ p.1.key).exec s).2 := by
  obtain ⟨y, hy, hyo⟩ := exists_result (δ := McpError) hread
  unfold syncEntry
  simp only [Encoding.new_of_valid hv, Program.exec_bind, Program.exec_result, hy, hyo]
  split_ifs <;> rfl

end Rounds

section Owner

variable {C : Crypto (Vector UInt8)} {max : ℕ} {m : Overflow} {E : KeyText}
  {connect : Session.Connect σ} {rng : CryptoRng (Vector UInt8) ρ} {url apiKey : String}
  {view : σ → List Char × List Char → Option Bytes} {seed : Vector UInt8 32} {scope : Scope}
  {k : ReadKeyPair C} {contents : Contents} {s : σ}

/-- An owner's entry that is committed is counted as written or as an error. -/
theorem commitEntry_owner (hS : C.Seals max) (hB : SteadyMap (connect url apiKey) view)
    (h : Mirrors m (SpendKeyPair.fromSeed C seed) (view s) contents) {p : SyncEntry × ρ}
    (hv : Scope.Valid ⟨p.1.scope⟩) (hlen : (toUtf8 p.1.scope).length ≤ 65535)
    (counts : SyncCounts) :
    ∃ counts' s', (commitEntry C connect rng (Session.newOwner seed scope url apiKey)
        ⟨p.1.scope⟩ counts p).exec s = (.ok counts', s') ∧
      counts'.proposed = counts.proposed ∧ counts'.total = counts.total + 1 ∧
      Mirrors m (SpendKeyPair.fromSeed C seed) (view s')
        (putContent max contents p.1.place (toUtf8 p.1.content)) ∧
      ∀ q, q ≠ p.1.place → view s' q = view s q := by
  let store : MemoryStore C σ := ⟨SpendKeyPair.fromSeed C seed, connect url apiKey⟩
  obtain ⟨res, s', hexec, hnp, hmirrors, hview⟩ :=
    store.write_mirrors rng hS hB hv hlen p.2 p.1.key (toUtf8 p.1.content) h
  obtain ⟨y, hy, _⟩ := exists_result (δ := McpError) hnp
  show ∃ counts' s', (Program.attempt (mapFault _ _) >>= _).exec s = _ ∧ _
  have hstore : (Session.newOwner seed scope url apiKey).memoryStore C connect = .ok store :=
    Session.memoryStore_newOwner seed scope url apiKey
  rw [Program.exec_attempt_bind, hstore]
  simp only [mapFault_ok, Program.exec_bind, Program.exec_result, hexec, hy]
  cases y with
  | ok id =>
    refine ⟨_, s', rfl, rfl, ?_, hmirrors, hview⟩
    simp only [SyncCounts.total]
    omega
  | error e => exact ⟨_, s', rfl, rfl, SyncCounts.total_failed _ _, hmirrors, hview⟩

/-- An owner's entry is counted once, and leaves what its write would leave. -/
theorem syncEntry_owner (hS : C.Seals max) (hB : SteadyMap (connect url apiKey) view)
    (hk : k.Genuine (SpendKeyPair.fromSeed C seed))
    (h : Mirrors m (SpendKeyPair.fromSeed C seed) (view s) contents) {p : SyncEntry × ρ}
    (hlen : (toUtf8 p.1.scope).length ≤ 65535) (counts : SyncCounts) :
    ∃ counts' s', (syncEntry m C connect rng (Session.newOwner seed scope url apiKey)
        ⟨(SpendKeyPair.fromSeed C seed).verifyingKey, connect url apiKey⟩ k counts p).exec s =
          (.ok counts', s') ∧
      counts'.proposed = counts.proposed ∧ counts'.total = counts.total + 1 ∧
      Mirrors m (SpendKeyPair.fromSeed C seed) (view s') (writeContent max contents p.1) ∧
      ∀ q, q ≠ p.1.place → view s' q = view s q := by
  let session := Session.newOwner seed scope url apiKey
  let reader : MemoryReader C σ := ⟨(SpendKeyPair.fromSeed C seed).verifyingKey, connect url apiKey⟩
  unfold writeContent
  split_ifs with hv
  · have hread := readMemory_toOption hB.toExactMap h hk ⟨p.1.scope⟩ p.1.key
    have hview := readMemory_view (m := m) (k := k) hB reader.spendVk ⟨p.1.scope⟩ p.1.key s
    have hround := syncEntry_of_valid m connect rng session reader k counts s hv
      (h.readMemory_ne_panic hB.toExactMap hk.sliceable _ _ _)
    rw [hround]
    split_ifs with hsame
    · -- What the session's key reads is what is stored, so the write would change nothing.
      have hsome := hread.symm.trans hsame
      rw [Option.ite_none_right_eq_some] at hsome
      have hstored : contents p.1.place = some (toUtf8 p.1.content) := hsome.2
      refine ⟨_, _, rfl, rfl, ?_, ?_, fun q _ => congrFun hview q⟩
      · simp only [SyncCounts.total]
        omega
      · rw [putContent_of_eq hstored]
        exact hview.symm ▸ h
    · obtain ⟨counts', s', hexec, hproposed, htotal, hmirrors, huntouched⟩ :=
        commitEntry_owner hS hB (hview.symm ▸ h) hv hlen counts
      exact ⟨counts', s', hexec, hproposed, htotal, hmirrors, fun q hq =>
        (huntouched q hq).trans (congrFun hview q)⟩
  · obtain ⟨error, hexec⟩ := syncEntry_of_not_valid m connect rng session reader k counts s hv
    exact ⟨_, s, hexec, rfl, SyncCounts.total_failed _ _, h, fun _ _ => rfl⟩

/-- What the owner's entries done so far have made of the state `s`. -/
structure Synced (m : Overflow) (spendKey : SpendKeyPair C)
    (view : σ → List Char × List Char → Option Bytes) (max : ℕ) (contents : Contents) (s : σ)
    (done : List (SyncEntry × ρ)) (counts : SyncCounts) (s' : σ) : Prop where
  proposed : counts.proposed = 0
  total : counts.total = done.length
  mirrors : Mirrors m spendKey (view s')
    (Runs.run (writeContent max) contents (done.map Prod.fst))
  untouched : ∀ q, (∀ p ∈ done, p.1.place ≠ q) → view s' q = view s q

/-- A batch of the owner is counted in full, leaves what its writes would leave, and touches
nothing else. -/
theorem syncEntries_owner (hS : C.Seals max) (hB : SteadyMap (connect url apiKey) view)
    (hk : k.Genuine (SpendKeyPair.fromSeed C seed))
    (h : Mirrors m (SpendKeyPair.fromSeed C seed) (view s) contents)
    (entries : List (SyncEntry × ρ)) (hlen : ∀ p ∈ entries, (toUtf8 p.1.scope).length ≤ 65535) :
    ∃ counts s', (entries.foldlM (syncEntry m C connect rng (Session.newOwner seed scope url apiKey)
        ⟨(SpendKeyPair.fromSeed C seed).verifyingKey, connect url apiKey⟩ k) .zero).exec s =
          (.ok counts, s') ∧
      Synced m (SpendKeyPair.fromSeed C seed) view max contents s entries counts s' := by
  apply Program.exec_foldlM_ok (Synced m (SpendKeyPair.fromSeed C seed) view max contents s)
  · intro done p counts s₁ hp hdone
    obtain ⟨counts', s₂, hexec, hproposed, htotal, hmirrors, huntouched⟩ :=
      syncEntry_owner hS hB hk hdone.mirrors (hlen p hp) counts
    refine ⟨counts', s₂, hexec, hproposed.trans hdone.proposed, ?_, ?_, fun q hq => ?_⟩
    · rw [htotal, hdone.total, List.length_append, List.length_singleton]
    · rw [List.map_append, List.map_singleton, Runs.run_concat]
      exact hmirrors
    · have hne : q ≠ p.1.place := Ne.symm (hq p (by simp))
      rw [huntouched q hne]
      exact hdone.untouched q fun x hx => hq x (List.mem_append_left _ hx)
  · exact ⟨rfl, rfl, h, fun _ _ => rfl⟩

/-- The state after the write of an entry, if its scope is valid. -/
def plainWrite (store : MemoryStore C σ) (rng : CryptoRng (Vector UInt8) ρ) (s : σ)
    (p : SyncEntry × ρ) : σ :=
  match Scope.new p.1.scope with
  | .ok scope => ((store.write rng p.2 scope p.1.key (toUtf8 p.1.content)).exec s).2
  | .error _ => s

theorem plainWrite_mirrors (hS : C.Seals max) {store : MemoryStore C σ}
    (hB : SteadyMap store.backend view) (rng : CryptoRng (Vector UInt8) ρ)
    (h : Mirrors m store.spendKey (view s) contents) {p : SyncEntry × ρ}
    (hlen : (toUtf8 p.1.scope).length ≤ 65535) :
    Mirrors m store.spendKey (view (plainWrite store rng s p)) (writeContent max contents p.1) := by
  unfold writeContent plainWrite
  split_ifs with hv
  · obtain ⟨res, s', hexec, _, hmirrors, _⟩ :=
      store.write_mirrors rng hS hB hv hlen p.2 p.1.key (toUtf8 p.1.content) h
    rw [Encoding.new_of_valid hv]
    simp only [hexec]
    exact hmirrors
  · cases hnew : Scope.new p.1.scope with
    | ok T =>
      obtain ⟨rfl, hT⟩ := (Scope.new_eq_ok_iff _ _).mp hnew
      exact absurd hT hv
    | error _ => exact h

theorem plainWrites_mirrors (hS : C.Seals max) {store : MemoryStore C σ}
    (hB : SteadyMap store.backend view) (rng : CryptoRng (Vector UInt8) ρ)
    (h : Mirrors m store.spendKey (view s) contents) (writes : List (SyncEntry × ρ))
    (hlen : ∀ p ∈ writes, (toUtf8 p.1.scope).length ≤ 65535) :
    Mirrors m store.spendKey (view (Runs.run (plainWrite store rng) s writes))
      (Runs.run (writeContent max) contents (writes.map Prod.fst)) := by
  have hmap : Runs.run (writeContent max) contents (writes.map Prod.fst) =
      Runs.run (fun contents p => writeContent max contents p.1) contents writes := List.foldl_map
  rw [hmap]
  apply Runs.run_simulation (fun s contents => Mirrors m store.spendKey (view s) contents)
  · intro p hp s contents h
    exact plainWrite_mirrors hS hB rng h (hlen p hp)
  · exact h

end Owner

section Agent

variable {C : Crypto (Vector UInt8)} {m : Overflow} {connect : Session.Connect σ}
  (rng : CryptoRng (Vector UInt8) ρ) {session : Session} {reader : MemoryReader C σ}
  {view : σ → List Char × List Char → Option Bytes} {spendKey : SpendKeyPair C}
  {k : ReadKeyPair C} {contents : Contents} {s : σ}

/-- An agent's entry is counted once and changes nothing. -/
theorem syncEntry_agent (hrole : session.role = .agent) (hB : SteadyMap reader.backend view)
    (hk : k.scope.Sliceable) (h : Mirrors m spendKey (view s) contents) (p : SyncEntry × ρ)
    (counts : SyncCounts) :
    ∃ counts' s', (syncEntry m C connect rng session reader k counts p).exec s =
        (.ok counts', s') ∧
      counts'.written = counts.written ∧ counts'.total = counts.total + 1 ∧ view s' = view s := by
  by_cases hv : Scope.Valid ⟨p.1.scope⟩
  · have hview := readMemory_view (m := m) (k := k) hB reader.spendVk ⟨p.1.scope⟩ p.1.key s
    have hround := syncEntry_of_valid m connect rng session reader k counts s hv
      (h.readMemory_ne_panic hB.toExactMap hk _ _ _)
    rw [hround]
    split_ifs
    · refine ⟨_, _, rfl, rfl, ?_, hview⟩
      simp only [SyncCounts.total]
      omega
    · unfold commitEntry
      rw [hrole]
      refine ⟨_, _, rfl, rfl, ?_, hview⟩
      simp only [SyncCounts.total]
      omega
  · obtain ⟨error, hexec⟩ := syncEntry_of_not_valid m connect rng session reader k counts s hv
    exact ⟨_, s, hexec, rfl, SyncCounts.total_failed _ _, rfl⟩

/-- A batch of an agent is counted in full and changes nothing. -/
theorem syncEntries_agent (hrole : session.role = .agent) (hB : SteadyMap reader.backend view)
    (hk : k.scope.Sliceable) (h : Mirrors m spendKey (view s) contents)
    (entries : List (SyncEntry × ρ)) :
    ∃ counts s', (entries.foldlM (syncEntry m C connect rng session reader k) .zero).exec s =
        (.ok counts, s') ∧
      counts.written = 0 ∧ counts.total = entries.length ∧ view s' = view s := by
  let I (done : List (SyncEntry × ρ)) (counts : SyncCounts) (s' : σ) : Prop :=
    counts.written = 0 ∧ counts.total = done.length ∧ view s' = view s
  have hzero : I [] .zero s := ⟨rfl, rfl, rfl⟩
  refine Program.exec_foldlM_ok I (fun done p counts s₁ _ hI => ?_) hzero
  obtain ⟨hwritten, htotal, hview⟩ := hI
  obtain ⟨counts', s₂, hexec, hwritten', htotal', hview'⟩ :=
    syncEntry_agent rng hrole hB hk (hview.symm ▸ h) p counts
  refine ⟨counts', s₂, hexec, hwritten'.trans hwritten, ?_, hview'.trans hview⟩
  rw [htotal', htotal, List.length_append, List.length_singleton]

end Agent

/-- What the tool answers to a batch with these counts. -/
def syncAnswer (entries : List (SyncEntry × ρ)) (counts : SyncCounts) : String :=
  if entries = [] then "nothing to sync" else counts.report

section Batches

variable {C : Crypto (Vector UInt8)} {max : ℕ} {m : Overflow} {E : KeyText}
  {connect : Session.Connect σ} {rng : CryptoRng (Vector UInt8) ρ} {session : Session}
  {reader : MemoryReader C σ} {k : ReadKeyPair C} {entries : List (SyncEntry × ρ)}

/-- Once the keys are loaded, the tool answers what the loop counted. -/
theorem syncTool_exec (hload : session.loadReader C E connect = .ok (reader, k))
    {counts : SyncCounts} {s s' : σ}
    (hloop : (entries.foldlM (syncEntry m C connect rng session reader k) .zero).exec s =
      (.ok counts, s')) :
    (syncTool m C E connect rng (some session) entries).exec s =
      (.ok (syncAnswer entries counts), s') := by
  unfold syncTool syncAnswer
  rw [Program.exec_attempt_bind, okOr_some]
  simp only
  split_ifs with hnil
  · subst hnil
    obtain ⟨_, rfl⟩ := Prod.mk.inj hloop
    rfl
  · simp only [Program.exec_attempt_bind, hload]
    rw [Program.exec_bind, hloop]
    rfl

/-- Without the keys, the tool reads and writes nothing. -/
theorem syncTool_exec_of_error {fault : Fault McpError}
    (hload : session.loadReader C E connect = .error fault) (s : σ) :
    ((syncTool m C E connect rng (some session) entries).exec s).2 = s := by
  unfold syncTool
  rw [Program.exec_attempt_bind, okOr_some]
  simp only
  split_ifs with hnil
  · rfl
  · simp only [Program.exec_attempt_bind, hload]

variable {max : ℕ} {view : σ → List Char × List Char → Option Bytes} {url apiKey : String}
  {seed : Vector UInt8 32} {contents : Contents} {s : σ}

/-- The owner's batch and the plain writes end with the same memories. -/
theorem syncTool_owner (hS : C.Seals max) (hB : SteadyMap (connect url apiKey) view)
    (h : Mirrors m (SpendKeyPair.fromSeed C seed) (view s) contents)
    (hlen : ∀ p ∈ entries, (toUtf8 p.1.scope).length ≤ 65535) {scope : Scope} (hv : scope.Valid) :
    ∃ loaded counts s',
      (Session.newOwner seed scope url apiKey).loadReader C E connect = .ok loaded ∧
      (entries.foldlM (syncEntry m C connect rng (Session.newOwner seed scope url apiKey) loaded.1
        loaded.2) .zero).exec s = (.ok counts, s') ∧
      (syncTool m C E connect rng (some (Session.newOwner seed scope url apiKey)) entries).exec s =
        (.ok (syncAnswer entries counts), s') ∧
      Synced m (SpendKeyPair.fromSeed C seed) view max contents s entries counts s' := by
  obtain ⟨k, hk, _, hload⟩ :=
    Session.loadReader_newOwner hS.roundtrip E connect seed hv url apiKey
  obtain ⟨counts, s', hloop, hsynced⟩ := syncEntries_owner hS hB hk h entries hlen
  exact ⟨_, counts, s', hload, hloop, syncTool_exec hload hloop, hsynced⟩

/-- Two states that mirror the same contents read alike with every genuine key. -/
theorem readMemory_toOption_congr {backend : StorageBackend σ} (hB : ExactMap backend view)
    {spendKey : SpendKeyPair C} {s s' : σ} (h : Mirrors m spendKey (view s) contents)
    (h' : Mirrors m spendKey (view s') contents) (hk : k.Genuine spendKey) (T : Scope)
    (name : List Char) :
    ((readMemory m spendKey.verifyingKey k backend T name).exec s).1.toOption =
      ((readMemory m spendKey.verifyingKey k backend T name).exec s').1.toOption := by
  rw [readMemory_toOption hB h hk, readMemory_toOption hB h' hk]

/-- The agent's batch changes nothing, and is counted in full if the agent's keys are loaded. -/
theorem syncTool_agent (hB : SteadyMap (connect url apiKey) view) {spendKey : SpendKeyPair C}
    (h : Mirrors m spendKey (view s) contents) (readKeyEncoded spendPublicEncoded : String)
    (scope : Scope) : ∃ res s',
      (syncTool m C E connect rng (some (Session.newAgent readKeyEncoded spendPublicEncoded scope
        url apiKey)) entries).exec s = (res, s') ∧
      view s' = view s ∧
      ∀ loaded, (Session.newAgent readKeyEncoded spendPublicEncoded scope url apiKey).loadReader
          C E connect = .ok loaded → ∃ counts,
        (entries.foldlM (syncEntry m C connect rng (Session.newAgent readKeyEncoded
          spendPublicEncoded scope url apiKey) loaded.1 loaded.2) .zero).exec s =
            (.ok counts, s') ∧
        res = .ok (syncAnswer entries counts) ∧ counts.written = 0 ∧
        counts.total = entries.length := by
  cases hload : (Session.newAgent readKeyEncoded spendPublicEncoded scope url apiKey).loadReader C E
      connect with
  | error fault =>
    exact ⟨_, _, rfl, congrArg view (syncTool_exec_of_error hload s), nofun⟩
  | ok loaded =>
    obtain ⟨reader, k⟩ := loaded
    obtain ⟨hbackend, hk⟩ := Session.loadReader_newAgent hload
    have hrole : (Session.newAgent readKeyEncoded spendPublicEncoded scope url apiKey).role =
      .agent := rfl
    obtain ⟨counts, s', hloop, hwritten, htotal, hview⟩ :=
      syncEntries_agent rng hrole (hbackend.symm ▸ hB) hk.sliceable h entries
    refine ⟨_, s', syncTool_exec hload hloop, hview, fun loaded hloaded => ?_⟩
    obtain rfl := Except.ok.inj hloaded
    exact ⟨counts, hloop, rfl, hwritten, htotal⟩

/-- For the owner, a batch leaves for every key the memories that the writes of its valid entries
leave in order, whatever randomness either meets, and does not touch other places. An agent's
batch leaves all as it was. The loop over the batch counts every entry once, and the answer
reports these counts. -/
theorem sync_eq_writes (hS : C.Seals max) (m : Overflow) (E : KeyText)
    (rng : CryptoRng (Vector UInt8) ρ) (connect : Session.Connect σ) (url apiKey : String)
    (seed : Vector UInt8 32) (hB : SteadyMap (connect url apiKey) view)
    {store : MemoryStore C σ} (hstore : store = ⟨SpendKeyPair.fromSeed C seed, connect url apiKey⟩)
    (hs : store.Written rng view s) (hlen : ∀ p ∈ entries, (toUtf8 p.1.scope).length ≤ 65535) :
    (∀ scope : Scope, scope.Valid → ∃ loaded counts s',
      (Session.newOwner seed scope url apiKey).loadReader C E connect = .ok loaded ∧
      (entries.foldlM (syncEntry m C connect rng (Session.newOwner seed scope url apiKey) loaded.1
        loaded.2) .zero).exec s = (.ok counts, s') ∧
      (syncTool m C E connect rng (some (Session.newOwner seed scope url apiKey)) entries).exec s =
        (.ok (syncAnswer entries counts), s') ∧
      counts.proposed = 0 ∧
      counts.written + counts.skipped + counts.errors.length = entries.length ∧
      (∀ q, (∀ p ∈ entries, p.1.place ≠ q) → view s' q = view s q) ∧
      ∀ writes : List (SyncEntry × ρ), writes.map Prod.fst = entries.map Prod.fst →
        ∀ k : ReadKeyPair C, k.Genuine store.spendKey → ∀ T name,
          ((store.read m k T name).exec s').1.toOption =
            ((store.read m k T name).exec
              (Runs.run (plainWrite store rng) s writes)).1.toOption) ∧
    ∀ readKeyEncoded spendPublicEncoded scope, ∃ res s',
      (syncTool m C E connect rng (some (Session.newAgent readKeyEncoded spendPublicEncoded scope
        url apiKey)) entries).exec s = (res, s') ∧
      view s' = view s ∧
      ∀ loaded, (Session.newAgent readKeyEncoded spendPublicEncoded scope url apiKey).loadReader
          C E connect = .ok loaded → ∃ counts,
        (entries.foldlM (syncEntry m C connect rng (Session.newAgent readKeyEncoded
          spendPublicEncoded scope url apiKey) loaded.1 loaded.2) .zero).exec s =
            (.ok counts, s') ∧
        res = .ok (syncAnswer entries counts) ∧ counts.written = 0 ∧
        counts.proposed + counts.skipped + counts.errors.length = entries.length := by
  subst hstore
  obtain ⟨contents, h⟩ := hs.exists_mirrors hS.correct hS.roundtrip hS.wrapsTagged m hB.toExactMap
  refine ⟨fun scope hv => ?_, fun readKeyEncoded spendPublicEncoded scope => ?_⟩
  · obtain ⟨loaded, counts, s', hload, hloop, hexec, hsynced⟩ := syncTool_owner hS hB h hlen hv
    refine ⟨loaded, counts, s', hload, hloop, hexec, hsynced.proposed, ?_, hsynced.untouched,
      fun writes hwrites k hk T name => ?_⟩
    · have htotal := hsynced.total
      have hproposed := hsynced.proposed
      simp only [SyncCounts.total] at htotal
      omega
    · have hlen' : ∀ p ∈ writes, (toUtf8 p.1.scope).length ≤ 65535 := by
        intro p hp
        have hmem : p.1 ∈ entries.map Prod.fst := hwrites ▸ List.mem_map_of_mem hp
        obtain ⟨p', hp', he⟩ := List.mem_map.mp hmem
        exact he ▸ hlen p' hp'
      have hplain := plainWrites_mirrors hS hB rng h writes hlen'
      rw [hwrites] at hplain
      exact readMemory_toOption_congr hB.toExactMap hsynced.mirrors hplain hk T name
  · obtain ⟨res, s', hexec, hview, hcounted⟩ :=
      syncTool_agent hB h readKeyEncoded spendPublicEncoded scope
    refine ⟨res, s', hexec, hview, fun loaded hload => ?_⟩
    obtain ⟨counts, hloop, hres, hwritten, htotal⟩ := hcounted loaded hload
    refine ⟨counts, hloop, hres, hwritten, ?_⟩
    simp only [SyncCounts.total] at htotal
    omega

end Batches

theorem limitedArrays_seals (max : ℕ) (h : max ≤ 2 ^ 62) : (limitedArrays max).Seals max where
  correct := limitedArrays_correct max
  roundtrip _ := rfl
  wraps := Transparent.aead_accepts 32
  wrapsTagged := Transparent.aead_tagged
  takes := limitedArrays_takesUpTo max
  tagged _ _ _ _ h := Transparent.aead_tagged _ _ _ _ (Aead.limited_encrypt h).2
  max_le := h

/-- A store of the zero seed's owner that takes up to 64 bytes. -/
def limitedStore : MemoryStore (limitedArrays 64) (AList fun _ : List Char × List Char => Bytes) :=
  ⟨SpendKeyPair.fromSeed _ (zeros 32), pairBackend⟩

/-- A backend with `1` at `/a` under `x`. -/
def oneStored : AList fun _ : List Char × List Char => Bytes :=
  (Runs.run (limitedStore.step (Transparent.rng packArray)) (∅, fun _ => none)
    [.write 0 ⟨['/', 'a']⟩ ['x'] [0x31]]).1

/-- What is stored, something else in its place, and an entry without a scope. -/
def threeEntries : List (SyncEntry × ℕ) :=
  [(⟨['/', 'a'], ['x'], ['1']⟩, 0), (⟨['/', 'a'], ['x'], ['2']⟩, 0), (⟨[], ['x'], ['3']⟩, 0)]

theorem sync_eq_writes_three_entries : ∃ counts s',
    (syncTool .wrapping (limitedArrays 64) base58Text (fun _ _ => pairBackend)
      (Transparent.rng packArray) (some (Session.newOwner (zeros 32) Scope.root "" ""))
        threeEntries).exec oneStored = (.ok (syncAnswer threeEntries counts), s') ∧
    counts.written + counts.skipped + counts.errors.length = 3 ∧
    ((limitedStore.read .wrapping limitedStore.spendKey.deriveRootReadKey ⟨['/', 'a']⟩ ['x']).exec
      s').1.toOption = some [0x32] := by
  have hwritten : limitedStore.Written (Transparent.rng packArray) (fun s q => s.lookup q)
      oneStored := by
    refine ⟨∅, _, fun _ => rfl, fun op hop => ?_, rfl⟩
    rw [List.mem_singleton.mp hop]
    exact ⟨by decide, by decide⟩
  have hlen : ∀ p ∈ threeEntries, (toUtf8 p.1.scope).length ≤ 65535 := by decide
  obtain ⟨_, counts, s', _, _, hexec, _, htotal, _, hread⟩ := (sync_eq_writes
    (limitedArrays_seals 64 (by decide)) .wrapping base58Text (Transparent.rng packArray)
    (fun _ _ => pairBackend) "" "" (zeros 32) pairBackend_steadyMap rfl hwritten hlen).1 Scope.root
      Scope.root_valid
  have hsame := hread threeEntries rfl _ (ReadKeyPair.genuine_root _) ⟨['/', 'a']⟩ ['x']
  exact ⟨counts, s', hexec, htotal, hsame.trans (by decide +kernel)⟩

end ReadOnlyKeys
