import ReadOnlyKeys.StoreRuns
import ReadOnlyKeys.Tools

/-!
# Runs of the tool server

As long as one owner's seed is in use, what is stored mirrors the texts that the
owner's requests said, whichever sessions come and go between them. The requests
that read answer with these texts.
-/
namespace ReadOnlyKeys
open Outcome Wire

variable {σ ρ : Type}

/-- The memories at each scope and key, as texts. -/
abbrev Texts := Spot → Option (List Char)

namespace Texts

def contents (texts : Texts) : Contents := fun q => (texts q).map toUtf8

/-- The texts after a write, which takes at most `max` bytes. -/
def put (max : ℕ) (texts : Texts) (scope key content : List Char) : Texts :=
  if Scope.Valid ⟨scope⟩ ∧ (toUtf8 content).length ≤ max then
    Function.update texts (scope, key) (some content)
  else texts

theorem contents_put {max : ℕ} (texts : Texts) {scope : List Char} (hv : Scope.Valid ⟨scope⟩)
    (key content : List Char) : (texts.put max scope key content).contents =
      putContent max texts.contents (scope, key) (toUtf8 content) := by
  unfold put putContent
  simp only [hv, true_and]
  split_ifs
  · funext q
    by_cases hq : q = (scope, key)
    · subst hq
      simp only [contents, Function.update_self, Option.map_some]
    · simp only [contents, Function.update_of_ne hq]
  · rfl

theorem put_of_not_valid {max : ℕ} (texts : Texts) {scope : List Char}
    (hv : ¬ Scope.Valid ⟨scope⟩) (key content : List Char) :
    texts.put max scope key content = texts := if_neg fun h => hv h.1

end Texts

lemma requestScope_of_valid {T : List Char} (hv : Scope.Valid ⟨T⟩) :
    requestScope T = .ok ⟨T⟩ := by
  rw [requestScope, Encoding.new_of_valid hv, mapFault_ok]

lemma requestScope_of_not_valid {T : List Char} (hv : ¬ Scope.Valid ⟨T⟩) :
    ∃ e, requestScope T = .error (.err e) := by
  unfold requestScope
  cases hnew : Scope.new T with
  | ok scope =>
    obtain ⟨rfl, hT⟩ := (Scope.new_eq_ok_iff _ _).mp hnew
    exact absurd hT hv
  | error fault =>
    cases fault with
    | err e => exact ⟨_, rfl⟩
    | panic => exact absurd hnew (Scope.new_ne_panic _)

lemma exists_ok_map_iff {ε α β : Type} {x : Except ε α} {f : α → β} :
    (∃ b, x.map f = .ok b) ↔ ∃ a, x = .ok a := by
  cases x <;> simp [Except.map]

/-- The texts after an owner's request. -/
def ToolCall.remember (max : ℕ) (texts : Texts) : ToolCall ρ → Texts
  | .write _ params => texts.put max params.scope params.key params.content
  | .propose _ params => texts.put max params.scope params.key params.content
  | .sync entries =>
    Runs.run (fun texts p => texts.put max p.scope p.key p.content) texts (entries.map Prod.fst)
  | _ => texts

section Owner

variable {C : Crypto (Vector UInt8)} {max : ℕ} {m : Overflow} {E : KeyText}
  {connect : Session.Connect σ} {rng : CryptoRng (Vector UInt8) ρ} {url apiKey : String}
  {P : Spot → Prop} {I small : σ → Prop} {shelf : σ → Shelf} {seed : Vector UInt8 32}
  {scope : Scope} {texts : Texts} {s : σ}

/-- An owner's write at a valid scope stores its text where it is not too long, and is refused
elsewhere. -/
theorem MemoryStore.write_texts (hS : C.Seals max) {store : MemoryStore C σ}
    (hB : MapOn store.backend P I small shelf) (rng : CryptoRng (Vector UInt8) ρ)
    (h : Keeps store.spendKey m I shelf s texts.contents) {T key : List Char}
    (hv : Scope.Valid ⟨T⟩) (hlen : (toUtf8 T).length ≤ 65535) (hP : P (T, key)) (r : ρ)
    (content : List Char) :
    ∃ res s', (store.write rng r ⟨T⟩ key (toUtf8 content)).exec s = (res, s') ∧
      res ≠ .error .panic ∧ ((∃ id, res = .ok id) ↔ (toUtf8 content).length ≤ max) ∧
      Keeps store.spendKey m I shelf s' (texts.put max T key content).contents := by
  rw [Texts.contents_put texts hv, putContent]
  split_ifs with hc
  · obtain ⟨data, hdata⟩ := store.written_ok rng hS hv hlen hc r
    have hexec : (store.write rng r ⟨T⟩ key (toUtf8 content)).exec s =
        (store.backend.put T key data).exec s := by rw [store.exec_write, hdata]
    obtain ⟨hs', id, hid, hshelf⟩ := hB.step (.put T key data) h.1 hP
    have hcontents : (shelf ((store.backend.put T key data).exec s).2).contents =
        Function.update (shelf s).contents (T, key) (some data) := congrArg Shelf.contents hshelf
    have hholds := holds_of_written m store.spendKey hS.correct hS.roundtrip hS.wrapsTagged hv hlen
      hdata
    refine ⟨.ok id, _, hexec.trans (Prod.ext hid rfl), nofun, iff_of_true ⟨id, rfl⟩ hc, hs', ?_⟩
    rw [hcontents]
    exact h.2.update hv key hholds
  · obtain ⟨err, herr⟩ := store.written_refused rng hS hv hc r
    have hexec : (store.write rng r ⟨T⟩ key (toUtf8 content)).exec s = (fail err, s) := by
      rw [store.exec_write, herr]
    exact ⟨_, s, hexec, nofun, iff_of_false nofun hc, h⟩

/-- What an owner's write is answered with, and what it leaves. -/
structure Stored {α : Type} (m : Overflow) (spendKey : SpendKeyPair C) (I : σ → Prop)
    (shelf : σ → Shelf) (texts : Texts) (accepted : Prop) (r : Except (Fault McpError) α × σ) :
    Prop where
  ne_panic : r.1 ≠ .error .panic
  ok_iff : (∃ a, r.1 = .ok a) ↔ accepted
  keeps : MemoryStore.Keeps spendKey m I shelf r.2 texts.contents

/-- A write behind a valid scope, whatever its answer and its error say. -/
lemma MemoryStore.write_stored {α : Type} (hS : C.Seals max) {store : MemoryStore C σ}
    (hB : MapOn store.backend P I small shelf) (rng : CryptoRng (Vector UInt8) ρ)
    (h : Keeps store.spendKey m I shelf s texts.contents) {T key : List Char}
    (hv : Scope.Valid ⟨T⟩) (hlen : (toUtf8 T).length ≤ 65535) (hP : P (T, key)) (r : ρ)
    (content : List Char) (f : RokError → McpError) (g : StorageId → α) :
    Stored m store.spendKey I shelf (texts.put max T key content)
      ((toUtf8 content).length ≤ max)
      (((store.write rng r ⟨T⟩ key (toUtf8 content)).mapError f >>= fun id =>
        pure (g id)).exec s) := by
  obtain ⟨res, s', hexec, hnp, hok, hkeeps⟩ := store.write_texts hS hB rng h hv hlen hP r content
  rw [Program.exec_bind, Program.exec_mapError, hexec]
  cases res with
  | ok id => exact ⟨nofun, iff_of_true ⟨_, rfl⟩ (hok.mp ⟨id, rfl⟩), hkeeps⟩
  | error fault =>
    have hno : ¬ (toUtf8 content).length ≤ max := fun hc => nomatch hok.mpr hc
    cases fault with
    | err e => exact ⟨nofun, iff_of_false nofun hno, hkeeps⟩
    | panic => exact absurd rfl hnp

/-- A request of the owner to write, with its scope still to be checked. -/
lemma MemoryStore.request_stored {α : Type} (hS : C.Seals max) {store : MemoryStore C σ}
    (hB : MapOn store.backend P I small shelf) (rng : CryptoRng (Vector UInt8) ρ)
    (h : Keeps store.spendKey m I shelf s texts.contents) {T key : List Char}
    (hlen : (toUtf8 T).length ≤ 65535) (hP : Scope.Valid ⟨T⟩ → P (T, key)) (r : ρ)
    (content : List Char) (f : RokError → McpError) (g : StorageId → α) :
    Stored m store.spendKey I shelf (texts.put max T key content)
      (Scope.Valid ⟨T⟩ ∧ (toUtf8 content).length ≤ max)
      ((Program.attempt (requestScope T) >>= fun scope =>
        (store.write rng r scope key (toUtf8 content)).mapError f >>= fun id =>
          pure (g id)).exec s) := by
  rw [Program.exec_attempt_bind]
  by_cases hv : Scope.Valid ⟨T⟩
  · rw [requestScope_of_valid hv]
    simp only [hv, true_and]
    exact store.write_stored hS hB rng h hv hlen (hP hv) r content f g
  · obtain ⟨e, he⟩ := requestScope_of_not_valid hv
    rw [he, texts.put_of_not_valid hv]
    exact ⟨nofun, iff_of_false nofun fun h => hv h.1, h⟩

/-- The owner's write. -/
theorem writeTool_owner (hS : C.Seals max) (hB : MapOn (connect url apiKey) P I small shelf)
    (h : MemoryStore.Keeps (SpendKeyPair.fromSeed C seed) m I shelf s texts.contents)
    (scope : Scope) (rng : CryptoRng (Vector UInt8) ρ) (r : ρ) (params : WriteParams)
    (hlen : (toUtf8 params.scope).length ≤ 65535)
    (hP : Scope.Valid ⟨params.scope⟩ → P (params.scope, params.key)) :
    Stored m (SpendKeyPair.fromSeed C seed) I shelf
      (texts.put max params.scope params.key params.content)
      (Scope.Valid ⟨params.scope⟩ ∧ (toUtf8 params.content).length ≤ max)
      ((writeTool C connect rng r (some (Session.newOwner seed scope url apiKey)) params).exec
        s) := by
  let store : MemoryStore C σ := ⟨SpendKeyPair.fromSeed C seed, connect url apiKey⟩
  exact store.request_stored hS hB rng h hlen hP r params.content _ _

/-- The owner's acceptance of a proposal. -/
theorem proposeTool_owner (hS : C.Seals max) (hB : MapOn (connect url apiKey) P I small shelf)
    (h : MemoryStore.Keeps (SpendKeyPair.fromSeed C seed) m I shelf s texts.contents)
    (scope : Scope) (rng : CryptoRng (Vector UInt8) ρ) (r : ρ) (params : ProposeParams)
    (hlen : (toUtf8 params.scope).length ≤ 65535)
    (hP : Scope.Valid ⟨params.scope⟩ → P (params.scope, params.key)) :
    Stored m (SpendKeyPair.fromSeed C seed) I shelf
      (texts.put max params.scope params.key params.content)
      (Scope.Valid ⟨params.scope⟩ ∧ (toUtf8 params.content).length ≤ max)
      ((proposeTool C connect rng r (some (Session.newOwner seed scope url apiKey)) params).exec
        s) := by
  let store : MemoryStore C σ := ⟨SpendKeyPair.fromSeed C seed, connect url apiKey⟩
  exact store.request_stored hS hB rng h hlen hP r params.content _ _

/-- An entry of the owner that is committed leaves its text, whatever it is counted as. -/
theorem commitEntry_texts (hS : C.Seals max) (hB : MapOn (connect url apiKey) P I small shelf)
    (h : MemoryStore.Keeps (SpendKeyPair.fromSeed C seed) m I shelf s texts.contents)
    {p : SyncEntry × ρ} (hv : Scope.Valid ⟨p.1.scope⟩) (hlen : (toUtf8 p.1.scope).length ≤ 65535)
    (hP : P p.1.place) (counts : SyncCounts) :
    ∃ counts' s', (commitEntry C connect rng (Session.newOwner seed scope url apiKey)
        ⟨p.1.scope⟩ counts p).exec s = (.ok counts', s') ∧
      MemoryStore.Keeps (SpendKeyPair.fromSeed C seed) m I shelf s'
        (texts.put max p.1.scope p.1.key p.1.content).contents := by
  let store : MemoryStore C σ := ⟨SpendKeyPair.fromSeed C seed, connect url apiKey⟩
  obtain ⟨res, s', hexec, hnp, _, hkeeps⟩ :=
    store.write_texts hS hB rng h hv hlen hP p.2 p.1.content
  obtain ⟨y, hy, _⟩ := exists_result (δ := McpError) hnp
  show ∃ counts' s', (Program.attempt (mapFault _ _) >>= _).exec s = _ ∧ _
  have hstore : (Session.newOwner seed scope url apiKey).memoryStore C connect = .ok store :=
    Session.memoryStore_newOwner seed scope url apiKey
  rw [Program.exec_attempt_bind, hstore]
  simp only [mapFault_ok, Program.exec_bind, Program.exec_result, hexec, hy]
  cases y with
  | ok id => exact ⟨_, s', rfl, hkeeps⟩
  | error e => exact ⟨_, s', rfl, hkeeps⟩

/-- An entry of the owner leaves its text. -/
theorem syncEntry_texts (hS : C.Seals max) (hB : MapOn (connect url apiKey) P I small shelf)
    {k : ReadKeyPair C} (hk : k.Genuine (SpendKeyPair.fromSeed C seed))
    (h : MemoryStore.Keeps (SpendKeyPair.fromSeed C seed) m I shelf s texts.contents)
    {p : SyncEntry × ρ} (hlen : (toUtf8 p.1.scope).length ≤ 65535)
    (hP : Scope.Valid ⟨p.1.scope⟩ → P p.1.place) (counts : SyncCounts) :
    ∃ counts' s', (syncEntry m C connect rng (Session.newOwner seed scope url apiKey)
        ⟨(SpendKeyPair.fromSeed C seed).verifyingKey, connect url apiKey⟩ k counts p).exec s =
          (.ok counts', s') ∧
      MemoryStore.Keeps (SpendKeyPair.fromSeed C seed) m I shelf s'
        (texts.put max p.1.scope p.1.key p.1.content).contents := by
  let session := Session.newOwner seed scope url apiKey
  let reader : MemoryReader C σ := ⟨(SpendKeyPair.fromSeed C seed).verifyingKey, connect url apiKey⟩
  by_cases hv : Scope.Valid ⟨p.1.scope⟩
  · obtain ⟨hread, hkeeps⟩ := MemoryStore.readMemory_mapOn
      ⟨SpendKeyPair.fromSeed C seed, connect url apiKey⟩ hB h hk ⟨p.1.scope⟩ (hP hv)
    rw [syncEntry_of_valid m connect rng session reader k counts s hv hread.ne_panic]
    split_ifs with hsame
    · -- What the session's key reads is what is stored, so the write would change nothing.
      have hsome := hread.toOption.symm.trans hsame
      rw [Option.ite_none_right_eq_some] at hsome
      refine ⟨_, _, rfl, ?_⟩
      rw [Texts.contents_put texts hv, putContent_of_eq hsome.2]
      exact hkeeps
    · exact commitEntry_texts hS hB hkeeps hv hlen (hP hv) counts
  · obtain ⟨error, hexec⟩ := syncEntry_of_not_valid m connect rng session reader k counts s hv
    refine ⟨_, s, hexec, ?_⟩
    rw [texts.put_of_not_valid hv]
    exact h

/-- The owner's batch leaves the texts of its entries. -/
theorem syncTool_texts (hS : C.Seals max) (hB : MapOn (connect url apiKey) P I small shelf)
    (h : MemoryStore.Keeps (SpendKeyPair.fromSeed C seed) m I shelf s texts.contents)
    (rng : CryptoRng (Vector UInt8) ρ) {entries : List (SyncEntry × ρ)}
    (hlen : ∀ p ∈ entries, (toUtf8 p.1.scope).length ≤ 65535)
    (hP : ∀ p ∈ entries, Scope.Valid ⟨p.1.scope⟩ → P p.1.place) (hv : scope.Valid) :
    MemoryStore.Keeps (SpendKeyPair.fromSeed C seed) m I shelf
      ((syncTool m C E connect rng (some (Session.newOwner seed scope url apiKey))
        entries).exec s).2 ((ToolCall.sync entries).remember max texts).contents := by
  let write (texts : Texts) (p : SyncEntry) : Texts := texts.put max p.scope p.key p.content
  obtain ⟨k, hk, _, hload⟩ := Session.loadReader_newOwner hS.roundtrip E connect seed hv url apiKey
  let I (done : List (SyncEntry × ρ)) (_ : SyncCounts) (s : σ) : Prop :=
    MemoryStore.Keeps (SpendKeyPair.fromSeed C seed) m I shelf s
      (Runs.run write texts (done.map Prod.fst)).contents
  obtain ⟨counts, s', hloop, hkeeps⟩ : ∃ counts s', (entries.foldlM
      (syncEntry m C connect rng (Session.newOwner seed scope url apiKey)
        ⟨(SpendKeyPair.fromSeed C seed).verifyingKey, connect url apiKey⟩ k)
      SyncCounts.zero).exec s = (.ok counts, s') ∧ I entries counts s' := by
    refine Program.exec_foldlM_ok I (fun done p counts s₁ hp hdone => ?_) h
    simp only [I, List.map_append, List.map_singleton, Runs.run_concat]
    exact syncEntry_texts hS hB hk hdone (hlen p hp) (hP p hp) counts
  rw [syncTool_exec hload hloop]
  exact hkeeps

end Owner

section Reads

variable {C : Crypto (Vector UInt8)} {m : Overflow} {E : KeyText} {connect : Session.Connect σ}
  {P : Spot → Prop} {I small : σ → Prop} {shelf : σ → Shelf} {backend : StorageBackend σ}
  {spendKey : SpendKeyPair C} {k : ReadKeyPair C} {texts : Texts} {s : σ} {session : Session}

/-- Reading with a genuine key gives the texts in its reach, and nothing else. -/
theorem readTool_texts (hB : MapOn backend P I small shelf)
    (hload : session.loadReader C E connect = .ok (⟨spendKey.verifyingKey, backend⟩, k))
    (h : MemoryStore.Keeps spendKey m I shelf s texts.contents) (hk : k.Genuine spendKey)
    {params : ReadParams} (hP : Scope.Valid ⟨params.scope⟩ → P (params.scope, params.key)) :
    ((readTool m C E connect (some session) params).exec s).1 ≠ .error .panic ∧
      ∀ text, ((readTool m C E connect (some session) params).exec s).1 = .ok text ↔
        Scope.Valid ⟨params.scope⟩ ∧ k.scope.isAncestorOf ⟨params.scope⟩ = true ∧
          texts (params.scope, params.key) = some text.toList := by
  simp only [readTool, okOr_some, Program.exec_attempt_bind, hload, MemoryReader.read]
  by_cases hv : Scope.Valid ⟨params.scope⟩
  · obtain ⟨hreads, _⟩ := MemoryStore.readMemory_mapOn ⟨spendKey, backend⟩ hB h hk ⟨params.scope⟩
      (hP hv)
    have hnp := hreads.ne_panic
    have hread := hreads.toOption
    simp only [requestScope_of_valid hv, Program.exec_bind, Program.exec_mapError]
    cases hexec : (readMemory m spendKey.verifyingKey k backend ⟨params.scope⟩
        params.key).exec s with
    | mk r s' =>
      rw [hexec] at hnp hread
      cases r with
      | ok data =>
        obtain ⟨hanc, hdata⟩ := Option.ite_none_right_eq_some.mp hread.symm
        obtain ⟨t, ht, rfl⟩ := Option.map_eq_some_iff.mp hdata
        refine ⟨by simp, fun text => ?_⟩
        simp only [mapFault_ok, Program.exec_pure, Except.ok.injEq, fromUtf8Lossy_toUtf8, hv, hanc,
          ht, true_and, Option.some.injEq]
        constructor
        · rintro rfl
          rw [String.toList_ofList]
        · rintro rfl
          rw [String.ofList_toList]
      | error fault =>
        cases fault with
        | panic => exact absurd rfl hnp
        | err e =>
          simp only [mapFault, Except.mapError]
          refine ⟨by simp, fun text => iff_of_false (by simp) fun hno => ?_⟩
          obtain ⟨_, hanc, ht⟩ := hno
          simp only [Except.toOption, hanc, if_true, Texts.contents, ht] at hread
          cases hread
  · obtain ⟨e, he⟩ := requestScope_of_not_valid hv
    simp only [he]
    exact ⟨by simp, fun text => iff_of_false (by simp) fun h => hv h.1⟩

/-- The listings answer with what the key lists. -/
theorem listings_of_list {vk : C.VerifyingKey}
    (hload : session.loadReader C E connect = .ok (⟨vk, backend⟩, k)) {memories : List MemoryEntry}
    (hlist : ((listMemories m vk k backend).exec s).1 = .ok memories) :
    ((listMemoriesTool m C E connect (some session)).exec s).1 =
        mapFault (listTool memories) (fun e => .internalError e.display) ∧
      ((listResources m C E connect (some session)).exec s).1 =
        .ok (memories.map memoryToResource) := by
  cases hexec : (listMemories m vk k backend).exec s with
  | mk r s' =>
    obtain rfl : r = .ok memories := by rw [← hlist, hexec]
    constructor
    · rw [listMemoriesTool, Program.exec_attempt_bind, okOr_some]
      simp only [Program.exec_attempt_bind, hload, MemoryReader.list]
      rw [Program.exec_bind, Program.exec_mapError, hexec]
      rfl
    · rw [listResources]
      simp only [Program.exec_attempt_bind, hload, MemoryReader.list]
      rw [Program.exec_bind, Program.exec_mapError, hexec]
      rfl

end Reads

section Grants

variable {C : Crypto (Vector UInt8)} {m : Overflow} {E : KeyText} {connect : Session.Connect σ}

/-- The laws under which a key survives its text. -/
structure KeyText.Carries (E : KeyText) (C : Crypto (Vector UInt8)) : Prop where
  inverts : E.Inverts C
  roundtrip : C.StaticRoundtrip
  ofBytes : C.StaticOfBytes
  verifying : ∀ vk, C.verifyingFromBytes (C.verifyingAsBytes vk) = some vk

/-- An agent's session with the two texts of a key loads it as it was. -/
theorem Session.loadReader_of_texts (hE : E.Carries C) (connect : Session.Connect σ)
    {k : ReadKeyPair C} (hk : k.scope.Valid) (vk : C.VerifyingKey) (scope : Scope)
    (url apiKey : String) : (Session.newAgent (Encoding.encodeExportedReadKey C E k.exportKey)
      (Encoding.encodeSpendPublic C E vk) scope url apiKey).loadReader C E connect =
        .ok (⟨vk, connect url apiKey⟩, k) := by
  have hreader := Session.memoryReader_newAgent
    (Encoding.decodeSpendPublic_encode hE.inverts hE.verifying vk) connect
      (Encoding.encodeExportedReadKey C E k.exportKey) scope url apiKey
  have hkey := Session.readKey_newAgent
    (Encoding.decodeExportedReadKey_encode hE.inverts (k := k.exportKey) hk)
      (ReadKeyPair.importKey_exportKey hE.roundtrip hE.ofBytes k)
        (Encoding.encodeSpendPublic C E vk) scope url apiKey
  rw [Session.loadReader, hreader, hkey]
  rfl

/-- The owner's grant prints the texts of the key of the scope. -/
theorem grantTool_owner (hR : C.StaticRoundtrip) (E : KeyText) (connect : Session.Connect σ)
    (seed : Vector UInt8 32) (scope : Scope) (url apiKey : String) {T : Scope} (hT : T.Valid) :
    ∃ k : ReadKeyPair C, k.Genuine (SpendKeyPair.fromSeed C seed) ∧ k.scope = T ∧
      grantTool C E connect (some (Session.newOwner seed scope url apiKey)) ⟨T.path⟩ =
        .ok (grantText T.path (Encoding.encodeExportedReadKey C E k.exportKey)
          (Encoding.encodeSpendPublic C E (SpendKeyPair.fromSeed C seed).verifyingKey)) := by
  obtain ⟨k, hk⟩ := ReadKeyPair.exists_scopeKey (SpendKeyPair.fromSeed C seed) hT.sliceable
  obtain ⟨hgenuine, hscope⟩ := ReadKeyPair.genuine_of_scopeKey hR hk
  have hgrant : (MemoryStore.mk (SpendKeyPair.fromSeed C seed) (connect url apiKey)).grantAccess T =
      .ok k.exportKey := by
    unfold MemoryStore.grantAccess
    simp only
    split_ifs at hk ⊢ with hroot
    · rw [Except.ok.inj hk]
      rfl
    · rw [hk]
      rfl
  refine ⟨k, hgenuine, hscope, ?_⟩
  unfold grantTool
  simp only [okOr_some, ok_bind, requestScope_of_valid hT, Session.memoryStore_newOwner, hgrant,
    mapFault_ok]
  rfl

end Grants

/-- The server of the session holds the shelf, at the places that pass the test. -/
def Session.Hosted (connect : Session.Connect σ) (P : Spot → Prop) (I small : σ → Prop)
    (shelf : σ → Shelf) (self : Session) : Prop :=
  MapOn (self.backend connect) P I small shelf

/-- An active owner's session is one of the seed, at a server that holds the shelf, with a valid
scope. -/
def World.OwnedBy (connect : Session.Connect σ) (P : Spot → Prop) (I small : σ → Prop)
    (shelf : σ → Shelf) (seed : Vector UInt8 32) (w : World σ) : Prop :=
  ∀ session, w.activeSession = some session → session.role = .owner →
    session.Hosted connect P I small shelf ∧
      ∃ scope url apiKey, scope.Valid ∧ session = Session.newOwner seed scope url apiKey

/-- Every owner's session that is asked for is one of the constructor. -/
lemma ToolCall.Asks.eq_newOwner {hexDecode : String → Except String Bytes} {session : Session}
    {op : ToolCall ρ} (h : op.Asks hexDecode session) (hrole : session.role = .owner) :
    ∃ seed scope url apiKey, session = Session.newOwner seed scope url apiKey := by
  cases op with
  | setup os params =>
    rcases buildSessionFromConfig_cases h with ⟨_, seed, url, apiKey, rfl⟩ | ⟨_, _, _, _, _, _, rfl⟩
    · exact ⟨seed, _, url, apiKey, rfl⟩
    · cases hrole
  | login params =>
    obtain ⟨scope, _, _, h⟩ := h
    rcases LoginParams.session_cases h with ⟨_, seed, url, apiKey, rfl⟩ | ⟨_, _, _, _, _, _, rfl⟩
    · exact ⟨seed, scope, url, apiKey, rfl⟩
    · cases hrole
  | _ => exact h.elim

namespace Server

variable {C : Crypto (Vector UInt8)} (self : Server C σ ρ)

/-- An owner's session that the request asks for is one of the seed, at a server that holds the
shelf. The scopes that it writes at can be written down, and it asks for places that the shelf has
room for. -/
structure Admits (server : Server C σ ρ) (P : Spot → Prop) (I small : σ → Prop) (shelf : σ → Shelf)
    (seed : Vector UInt8 32) (w : World σ) (op : ToolCall ρ) : Prop where
  seed : ∀ session, op.Asks server.hexDecode session → session.role = .owner →
    session.Hosted server.connect P I small shelf ∧ session.credentials.spendSeed = some seed
  scopes : ∀ q ∈ op.places, (toUtf8 q.1).length ≤ 65535
  meets : op.Meets P (small w.storage)

/-- A request, and the record of what the owner's requests said. -/
def record (max : ℕ) (wt : World σ × Texts) (op : ToolCall ρ) : World σ × Texts :=
  (self.step wt.1 op, if OwnerActive wt.1.activeSession then op.remember max wt.2 else wt.2)

/-- The invariant of a run: one seed, and texts that the storage mirrors. -/
structure Remembers (server : Server C σ ρ) (P : Spot → Prop) (I small : σ → Prop)
    (shelf : σ → Shelf) (seed : Vector UInt8 32) (wt : World σ × Texts) : Prop where
  owned : wt.1.OwnedBy server.connect P I small shelf seed
  keeps : MemoryStore.Keeps (SpendKeyPair.fromSeed C seed) server.m I shelf wt.1.storage
    wt.2.contents

variable {self} {max : ℕ} {P : Spot → Prop} {I small : σ → Prop} {shelf : σ → Shelf}
  {seed : Vector UInt8 32} {w : World σ} {texts : Texts} {op : ToolCall ρ}

theorem ownedBy_step (hop : self.Admits P I small shelf seed w op)
    (hw : w.OwnedBy self.connect P I small shelf seed) :
    (self.step w op).OwnedBy self.connect P I small shelf seed := by
  intro session hsession hrole
  rcases self.step_session w op with hs | hs | ⟨s, hs, hasks⟩
  · exact hw session (hs ▸ hsession) hrole
  · rw [hs] at hsession
    cases hsession
  · obtain rfl := Option.some.inj (hs.symm.trans hsession)
    obtain ⟨seed', scope, url, apiKey, rfl⟩ := hasks.eq_newOwner hrole
    obtain ⟨hhosted, hseed⟩ := hop.seed _ hasks hrole
    obtain rfl := Option.some.inj hseed
    exact ⟨hhosted, scope, url, apiKey, hasks.scope_valid, rfl⟩

section Run

variable (hL : ∀ url apiKey, LocalPuts (self.connect url apiKey) P I small
  fun s => (shelf s).contents)
include hL

/-- A request that names no place, or is not made by an owner, leaves what is stored. -/
lemma keeps_of_idle (hop : op.Meets P (small w.storage)) {spendKey : SpendKeyPair C}
    {contents : Contents} (h : MemoryStore.Keeps spendKey self.m I shelf w.storage contents)
    (hidle : OwnerActive w.activeSession → op.places = []) :
    MemoryStore.Keeps spendKey self.m I shelf (self.step w op).storage contents := by
  obtain ⟨hs, hwrites⟩ := step_stays hL h.1 hop
  have hcontents : (shelf (self.step w op).storage).contents = (shelf w.storage).contents := by
    funext q
    by_contra hne
    obtain ⟨ho, hq, _⟩ := hwrites q hne
    rw [hidle ho] at hq
    cases hq
  refine ⟨hs, ?_⟩
  rw [hcontents]
  exact h.2

/-- What is stored and what is remembered change together. -/
theorem keeps_record (hS : C.Seals max) (hop : self.Admits P I small shelf seed w op)
    (h : self.Remembers P I small shelf seed (w, texts)) :
    MemoryStore.Keeps (SpendKeyPair.fromSeed C seed) self.m I shelf
      (self.record max (w, texts) op).1.storage (self.record max (w, texts) op).2.contents := by
  unfold record
  simp only
  split_ifs with ho
  · obtain ⟨session, hsession, hrole⟩ := ho
    obtain ⟨hhosted, scope, url, apiKey, hv, rfl⟩ := h.owned session hsession hrole
    have hmap : MapOn (self.connect url apiKey) P I small shelf := hhosted
    have hexec : self.step w op = ((self.handler (some (Session.newOwner seed scope url apiKey))
        op).exec w).2 := by rw [step, exec_call, hsession]
    cases op with
    | write r params =>
      have hstored := writeTool_owner hS hmap h.keeps scope self.rng r params
        (hop.scopes (params.scope, params.key) (List.mem_singleton_self _)) hop.meets
      rw [hexec]
      simpa only [handler, World.exec_onStorage, Program.exec_map, ToolCall.remember] using
        hstored.keeps
    | propose r params =>
      have hstored := proposeTool_owner hS hmap h.keeps scope self.rng r params
        (hop.scopes (params.scope, params.key) (List.mem_singleton_self _)) hop.meets
      rw [hexec]
      simpa only [handler, World.exec_onStorage, Program.exec_map, ToolCall.remember] using
        hstored.keeps
    | sync entries =>
      have hsynced := syncTool_texts (E := self.keyText) hS hmap h.keeps self.rng
        (fun p hp => hop.scopes p.1.place (List.mem_map_of_mem hp)) hop.meets hv
      rw [hexec]
      simpa only [handler, World.exec_onStorage, Program.exec_map] using hsynced
    | _ => exact keeps_of_idle hL hop.meets h.keeps fun _ => rfl
  · exact keeps_of_idle hL hop.meets h.keeps fun ho' => absurd ho' ho

theorem Remembers.record (hS : C.Seals max) {wt : World σ × Texts}
    (hop : self.Admits P I small shelf seed wt.1 op) (h : self.Remembers P I small shelf seed wt) :
    self.Remembers P I small shelf seed (self.record max wt op) :=
  ⟨ownedBy_step hop h.owned, keeps_record hL hS hop h⟩

theorem Remembers.run (hS : C.Seals max) {ops : List (ToolCall ρ)} {wt : World σ × Texts}
    (hops : Runs.Meets (self.record max) (fun wt op => self.Admits P I small shelf seed wt.1 op) wt
      ops) (h : self.Remembers P I small shelf seed wt) :
    self.Remembers P I small shelf seed (Runs.run (self.record max) wt ops) :=
  (Runs.reached_run _ _ _).invariant_of_meets hops (fun _ _ hop h => h.record hL hS hop) h

end Run

/-- What the requests that read answer with, for a key. A listing needs a state that is small
enough. -/
structure Shows (server : Server C σ ρ) (P : Spot → Prop) (small : σ → Prop) (k : ReadKeyPair C)
    (w : World σ) (texts : Texts) : Prop where
  read : ∀ params, (Scope.Valid ⟨params.scope⟩ → P (params.scope, params.key)) →
    server.answer w (.read params) ≠ .error .panic ∧
    ∀ text, server.answer w (.read params) = .ok (.text text) ↔
      Scope.Valid ⟨params.scope⟩ ∧ k.scope.isAncestorOf ⟨params.scope⟩ = true ∧
        texts (params.scope, params.key) = some text.toList
  list : small w.storage → ∃ memories : List MemoryEntry,
    (memories.map fun e => (e.scope, e.key)).Nodup ∧
    (∀ T name data, ⟨T, name, data⟩ ∈ memories ↔ k.scope.isAncestorOf T = true ∧
      ∃ text, texts (T.path, name) = some text ∧ data = toUtf8 text) ∧
    server.answer w .list =
      (mapFault (listTool memories) fun e => .internalError e.display).map .text ∧
    server.answer w .listResources = .ok (.resources (memories.map memoryToResource))

theorem Remembers.shows {wt : World σ × Texts} (h : self.Remembers P I small shelf seed wt)
    {session : Session} (hsession : wt.1.activeSession = some session)
    (hhosted : session.Hosted self.connect P I small shelf) {k : ReadKeyPair C}
    {reader : MemoryReader C σ}
    (hload : session.loadReader C self.keyText self.connect = .ok (reader, k))
    (hvk : reader.spendVk = (SpendKeyPair.fromSeed C seed).verifyingKey)
    (hk : k.Genuine (SpendKeyPair.fromSeed C seed)) : self.Shows P small k wt.1 wt.2 := by
  obtain ⟨w, texts⟩ := wt
  obtain ⟨vk, backend⟩ := reader
  obtain rfl : backend = session.backend self.connect := Session.loadReader_backend hload
  obtain rfl : vk = (SpendKeyPair.fromSeed C seed).verifyingKey := hvk
  have hcall (op : ToolCall ρ) :
      self.answer w op = ((self.handler (some session) op).exec w).1 := by
    rw [answer, exec_call, hsession]
  refine ⟨fun params hP => ?_, fun hsmall => ?_⟩
  · have hread : self.answer w (.read params) =
        ((readTool self.m C self.keyText self.connect (some session) params).exec
          w.storage).1.map .text := by
      rw [hcall]
      simp only [handler, World.exec_onStorage, Program.exec_map]
    obtain ⟨hnp, htexts⟩ := readTool_texts hhosted hload h.keeps hk hP
    rw [hread]
    constructor
    · cases hr : ((readTool self.m C self.keyText self.connect (some session) params).exec
          w.storage).1 with
      | ok text => simp [Except.map]
      | error fault =>
        rw [hr] at hnp
        exact fun hp => hnp (congrArg Except.error (Except.error.inj hp))
    · intro text
      rw [← htexts]
      cases ((readTool self.m C self.keyText self.connect (some session) params).exec
          w.storage).1 with
      | ok text' => simp [Except.map]
      | error fault => simp [Except.map]
  · obtain ⟨⟨memories, hlist, hnodup, hmem⟩, _⟩ := MemoryStore.listMemories_mapOn
      ⟨SpendKeyPair.fromSeed C seed, session.backend self.connect⟩ hhosted h.keeps hk hsmall
    obtain ⟨htool, hresources⟩ := listings_of_list hload hlist
    refine ⟨memories, hnodup, fun T name data => ?_, ?_, ?_⟩
    · rw [hmem, Texts.contents, Option.map_eq_some_iff]
      simp only [eq_comm (a := data)]
    · rw [hcall, ← htool]
      simp only [handler, World.exec_onStorage, Program.exec_map]
    · rw [hcall]
      simp only [handler, World.exec_onStorage, Program.exec_map, hresources]
      rfl

/-- An owner's write and acceptance are answered without an error exactly where they are
remembered. -/
theorem Remembers.write_ok_iff (hS : C.Seals max) {wt : World σ × Texts}
    (h : self.Remembers P I small shelf seed wt) (ho : OwnerActive wt.1.activeSession) (r : ρ)
    (scope key content : List Char) (agentId : String) (hlen : (toUtf8 scope).length ≤ 65535)
    (hP : Scope.Valid ⟨scope⟩ → P (scope, key)) :
    ((∃ a, self.answer wt.1 (.write r ⟨scope, key, content⟩) = .ok a) ↔
      Scope.Valid ⟨scope⟩ ∧ (toUtf8 content).length ≤ max) ∧
    ((∃ a, self.answer wt.1 (.propose r ⟨scope, key, content, agentId⟩) = .ok a) ↔
      Scope.Valid ⟨scope⟩ ∧ (toUtf8 content).length ≤ max) := by
  obtain ⟨session, hsession, hrole⟩ := ho
  obtain ⟨hhosted, S, url, apiKey, _, rfl⟩ := h.owned session hsession hrole
  have hmap : MapOn (self.connect url apiKey) P I small shelf := hhosted
  have hwrite := (writeTool_owner hS hmap h.keeps S self.rng r ⟨scope, key, content⟩ hlen hP).ok_iff
  have hpropose := (proposeTool_owner hS hmap h.keeps S self.rng r
    ⟨scope, key, content, agentId⟩ hlen hP).ok_iff
  simp only [answer, exec_call, hsession, handler, World.exec_onStorage, Program.exec_map,
    exists_ok_map_iff]
  exact ⟨hwrite, hpropose⟩

/-- As long as every owner's session is one of a seed, at servers that hold one shelf, the requests
that read answer with the texts that the owner's requests said last, in reach of the key of the
session. -/
theorem answers_last_texts (self : Server C σ ρ) (hS : C.Seals max)
    (hL : ∀ url apiKey, LocalPuts (self.connect url apiKey) P I small fun s => (shelf s).contents)
    (seed : Vector UInt8 32) {wt₀ : World σ × Texts}
    (h₀ : self.Remembers P I small shelf seed wt₀) (ops : List (ToolCall ρ))
    (hops : Runs.Meets (self.record max) (fun wt op => self.Admits P I small shelf seed wt.1 op) wt₀
      ops) :
    ∀ w' texts, Runs.run (self.record max) wt₀ ops = (w', texts) →
      ∀ session, w'.activeSession = some session →
        (session.role = .owner →
          (∃ reader k, session.loadReader C self.keyText self.connect = .ok (reader, k) ∧
            k.scope = session.scope ∧ self.Shows P small k w' texts) ∧
          ∀ r scope key content agentId, (toUtf8 scope).length ≤ 65535 →
            (Scope.Valid ⟨scope⟩ → P (scope, key)) →
            ((∃ a, self.answer w' (.write r ⟨scope, key, content⟩) = .ok a) ↔
              Scope.Valid ⟨scope⟩ ∧ (toUtf8 content).length ≤ max) ∧
            ((∃ a, self.answer w' (.propose r ⟨scope, key, content, agentId⟩) = .ok a) ↔
              Scope.Valid ⟨scope⟩ ∧ (toUtf8 content).length ≤ max)) ∧
        ∀ reader k, session.Hosted self.connect P I small shelf →
          session.loadReader C self.keyText self.connect = .ok (reader, k) →
          reader.spendVk = (SpendKeyPair.fromSeed C seed).verifyingKey →
          k.Genuine (SpendKeyPair.fromSeed C seed) → self.Shows P small k w' texts := by
  intro w' texts hrun session hsession
  have h : self.Remembers P I small shelf seed (w', texts) := by
    rw [← hrun]
    exact h₀.run hL hS hops
  refine ⟨fun hrole => ⟨?_, fun r scope key content agentId hlen hP => ?_⟩,
    fun reader k hhosted hload hvk hk => h.shows hsession hhosted hload hvk hk⟩
  · obtain ⟨hhosted, scope, url, apiKey, hv, rfl⟩ := h.owned session hsession hrole
    obtain ⟨k, hk, hscope, hload⟩ := Session.loadReader_newOwner hS.roundtrip self.keyText
      self.connect seed hv url apiKey
    exact ⟨_, k, hload, hscope, h.shows hsession hhosted hload rfl hk⟩
  · exact h.write_ok_iff hS ⟨session, hsession, hrole⟩ r scope key content agentId hlen hP

/-- A login without a seed is admitted whatever the seed, in a state that is small enough. -/
lemma admits_login {params : LoginParams} (h : params.spendSeed = none) (hsmall : small w.storage) :
    self.Admits P I small shelf seed w (.login params) where
  seed _ hasks hrole := absurd h (hasks.givesSeed hrole)
  scopes _ hq := absurd hq List.not_mem_nil
  meets := hsmall

/-- An agent with the texts of a genuine key can log in with every valid scope. -/
theorem Remembers.login (hE : self.keyText.Carries C) {wt : World σ × Texts}
    (h : self.Remembers P I small shelf seed wt) (hsmall : small wt.1.storage)
    {k : ReadKeyPair C} (hk : k.Genuine (SpendKeyPair.fromSeed C seed)) (hkv : k.scope.Valid)
    {params : LoginParams} (hseed : params.spendSeed = none)
    (hrk : params.readKey = some (Encoding.encodeExportedReadKey C self.keyText k.exportKey))
    (hsp : params.spendPublic = some (Encoding.encodeSpendPublic C self.keyText
      (SpendKeyPair.fromSeed C seed).verifyingKey))
    (hv : Scope.Valid ⟨params.scope⟩)
    (hhosted : MapOn (self.connect params.fileverseUrl params.apiKey) P I small shelf) :
    (∃ text, self.answer wt.1 (.login params) = .ok (.text text)) ∧
      (self.step wt.1 (.login params)).activeSession = some (Session.newAgent
        (Encoding.encodeExportedReadKey C self.keyText k.exportKey)
        (Encoding.encodeSpendPublic C self.keyText (SpendKeyPair.fromSeed C seed).verifyingKey)
        ⟨params.scope⟩ params.fileverseUrl params.apiKey) := by
  let session := Session.newAgent (Encoding.encodeExportedReadKey C self.keyText k.exportKey)
    (Encoding.encodeSpendPublic C self.keyText (SpendKeyPair.fromSeed C seed).verifyingKey)
    ⟨params.scope⟩ params.fileverseUrl params.apiKey
  have hsession : params.session self.hexDecode ⟨params.scope⟩ = .ok session := by
    rw [LoginParams.session, hseed, hrk, hsp]
    rfl
  have hload := Session.loadReader_of_texts hE self.connect hkv
    (SpendKeyPair.fromSeed C seed).verifyingKey ⟨params.scope⟩ params.fileverseUrl params.apiKey
  simp only [Session.loadReader, bind_eq_ok_iff, mapFault_eq_ok_iff] at hload
  obtain ⟨reader, hreader, k', hkey, hload⟩ := hload
  obtain ⟨rfl, rfl⟩ := Prod.mk.inj (Except.ok.inj hload)
  obtain ⟨⟨memories, hlist, _⟩, _⟩ := MemoryStore.listMemories_mapOn
    ⟨SpendKeyPair.fromSeed C seed, self.connect params.fileverseUrl params.apiKey⟩ hhosted h.keeps
    hk hsmall
  have hcount := countMemories_of_list hreader hkey (Prod.ext hlist rfl)
  obtain ⟨text, hlogin⟩ := login_of_countMemories (Encoding.new_of_valid hv) hsession hcount
  simp only [answer, step, exec_call, handler, Program.exec_map, hlogin]
  exact ⟨⟨text, rfl⟩, rfl⟩

/-- What an owner grants in a run, an agent may log in with from then on, whatever scope it names,
and as long as its session is active the requests that read answer with the texts at and below the
granted scope. -/
theorem grant_delegates (self : Server C σ ρ) (hS : C.Seals max) (hE : self.keyText.Carries C)
    (hL : ∀ url apiKey, LocalPuts (self.connect url apiKey) P I small fun s => (shelf s).contents)
    (seed : Vector UInt8 32) {wt₀ : World σ × Texts}
    (h₀ : self.Remembers P I small shelf seed wt₀) (ops : List (ToolCall ρ))
    (hops : Runs.Meets (self.record max) (fun wt op => self.Admits P I small shelf seed wt.1 op) wt₀
      ops) :
    ∀ wt, Runs.run (self.record max) wt₀ ops = wt →
      OwnerActive wt.1.activeSession → ∀ T : Scope, T.Valid →
      ∃ rk sp, self.answer wt.1 (.grant ⟨T.path⟩) = .ok (.text (grantText T.path rk sp)) ∧
        ∀ later : List (ToolCall ρ), Runs.Meets (self.record max)
          (fun wt op => self.Admits P I small shelf seed wt.1 op) wt later →
        ∀ wt₂, Runs.run (self.record max) wt later = wt₂ → small wt₂.1.storage →
        ∀ params : LoginParams, params.spendSeed = none → params.readKey = some rk →
          params.spendPublic = some sp → Scope.Valid ⟨params.scope⟩ →
          MapOn (self.connect params.fileverseUrl params.apiKey) P I small shelf →
          (∃ text, self.answer wt₂.1 (.login params) = .ok (.text text)) ∧
          (self.step wt₂.1 (.login params)).activeSession = some (Session.newAgent rk sp
            ⟨params.scope⟩ params.fileverseUrl params.apiKey) ∧
          ∀ rest : List (ToolCall ρ), Runs.Meets (self.record max)
            (fun wt op => self.Admits P I small shelf seed wt.1 op)
            (self.record max wt₂ (.login params)) rest →
          ∀ wt₃, Runs.run (self.record max) wt₂ (.login params :: rest) = wt₃ →
            ∀ scope url apiKey, MapOn (self.connect url apiKey) P I small shelf →
              wt₃.1.activeSession = some (Session.newAgent rk sp scope url apiKey) →
            ∃ k : ReadKeyPair C, k.scope = T ∧ self.Shows P small k wt₃.1 wt₃.2 := by
  intro wt hrun howner T hT
  have h : self.Remembers P I small shelf seed wt := by
    rw [← hrun]
    exact h₀.run hL hS hops
  obtain ⟨session, hsession, hrole⟩ := howner
  obtain ⟨_, scope, url, apiKey, _, rfl⟩ := h.owned session hsession hrole
  obtain ⟨k, hk, rfl, hgrant⟩ :=
    grantTool_owner hS.roundtrip self.keyText self.connect seed scope url apiKey hT
  refine ⟨Encoding.encodeExportedReadKey C self.keyText k.exportKey,
    Encoding.encodeSpendPublic C self.keyText (SpendKeyPair.fromSeed C seed).verifyingKey, ?_,
    fun later hlater wt₂ hrun₂ hsmall params hseed hrk hsp hv hhosted => ?_⟩
  · rw [answer, exec_call, hsession, handler, Program.exec_attempt, hgrant]
    rfl
  have h₂ : self.Remembers P I small shelf seed wt₂ := by
    rw [← hrun₂]
    exact h.run hL hS hlater
  obtain ⟨hanswer, hactive⟩ := h₂.login hE hsmall hk hT hseed hrk hsp hv hhosted
  refine ⟨hanswer, hactive, fun rest hrest wt₃ hrun₃ scope url apiKey hhosted₃ hsession₃ =>
    ⟨k, rfl, ?_⟩⟩
  have h₃ : self.Remembers P I small shelf seed wt₃ := by
    rw [← hrun₃]
    exact h₂.run hL hS ⟨admits_login hseed hsmall, hrest⟩
  have hload := Session.loadReader_of_texts hE self.connect hT
    (SpendKeyPair.fromSeed C seed).verifyingKey scope url apiKey
  exact h₃.shows hsession₃ hhosted₃ hload rfl hk

end Server

lemma base58Text_carries (max : ℕ) : base58Text.Carries (textArrays max) where
  inverts := base58Text_inverts
  roundtrip _ := rfl
  ofBytes s := ⟨s, rfl⟩
  verifying _ := rfl

section Documents
open FileverseBackend

/-- The storage of the server is the one of its client of documents. -/
def Remembered (wt : World ClientState × Texts) : Prop :=
  clientServer.Remembers Fits
    (fun s => Shelved standard s.1 ∧ ∀ n, (s.2 n).fate = .answered) (fun s => s.1.length ≤ 1000)
    (fun s => shelf standard s.1) (zeros 32) wt

lemma remembered_ownedWorld : Remembered (ownedWorld, fun _ => none) where
  owned session hsession _ := by
    obtain rfl := Option.some.inj hsession
    exact ⟨textServer_mapOn, Scope.root, "", "", Scope.root_valid, rfl⟩
  keeps := .init ⟨shelved_nil standard, fun _ => rfl⟩ (docsView_nil standard) _ _

lemma admits_twoMemories : Runs.Meets (clientServer.record 64) (fun wt op => clientServer.Admits
      Fits (fun s => Shelved standard s.1 ∧ ∀ n, (s.2 n).fate = .answered)
      (fun s => s.1.length ≤ 1000) (fun s => shelf standard s.1) (zeros 32) wt.1 op)
    (ownedWorld, fun _ => none) twoMemories :=
  ⟨⟨fun _ h => h.elim, by decide, fun _ => (by decide)⟩,
    ⟨fun _ h => h.elim, by decide, fun _ => (by decide)⟩, trivial⟩

/-- What the owner wrote is read. -/
theorem answers_last_texts_owner : ∃ wt, Runs.run (clientServer.record 64)
      (ownedWorld, fun _ => none) twoMemories = wt ∧
    clientServer.answer wt.1 (.read ⟨['/', 'a'], ['x']⟩) = .ok (.text "1") := by
  obtain ⟨wt, hwt⟩ : ∃ wt, Runs.run (clientServer.record 64) (ownedWorld, fun _ => none)
    twoMemories = wt := ⟨_, rfl⟩
  have hsession : wt.1.activeSession = some (Session.newOwner (zeros 32) Scope.root "" "") := by
    rw [← hwt]
    rfl
  obtain ⟨⟨_, k, _, hscope, hshows⟩, _⟩ := (Server.answers_last_texts clientServer
    (textArrays_seals 64 (by decide)) (fun _ _ => textServer_mapOn.localPuts) (zeros 32)
    remembered_ownedWorld twoMemories admits_twoMemories _ _ hwt _ hsession).1 rfl
  have htext : wt.2 (['/', 'a'], ['x']) = some ['1'] := by
    rw [← hwt]
    rfl
  have hread := (hshows.read ⟨['/', 'a'], ['x']⟩ fun _ => (by decide)).2 "1"
  exact ⟨wt, hwt, hread.mpr ⟨by decide, by rw [hscope]; rfl, htext⟩⟩

/-- The login of an agent with the texts of a grant. -/
def grantedLogin (rk sp : String) : LoginParams := ⟨"k", "", none, some rk, some sp, ['/']⟩

/-- An agent that is granted the scope `/a` reads there, and nothing else. -/
theorem grant_delegates_agent : ∃ wt, Runs.run (clientServer.record 64)
      (ownedWorld, fun _ => none) twoMemories = wt ∧
    ∃ rk sp, clientServer.answer wt.1 (.grant ⟨['/', 'a']⟩) =
        .ok (.text (grantText ['/', 'a'] rk sp)) ∧
      ∃ wt', Runs.run (clientServer.record 64) wt [.login (grantedLogin rk sp)] = wt' ∧
        clientServer.answer wt'.1 (.read ⟨['/', 'a'], ['x']⟩) = .ok (.text "1") ∧
        ∀ text, clientServer.answer wt'.1 (.read ⟨['/'], ['y']⟩) ≠ .ok (.text text) := by
  obtain ⟨wt, hwt⟩ : ∃ wt, Runs.run (clientServer.record 64) (ownedWorld, fun _ => none)
    twoMemories = wt := ⟨_, rfl⟩
  have howner : OwnerActive wt.1.activeSession := by
    rw [← hwt]
    exact ⟨_, rfl, rfl⟩
  have htext : wt.2 (['/', 'a'], ['x']) = some ['1'] := by
    rw [← hwt]
    rfl
  have hsmall : wt.1.storage.1.length ≤ 1000 := by
    rw [← hwt]
    decide +kernel
  obtain ⟨rk, sp, hgrant, hlogin⟩ := Server.grant_delegates clientServer
    (textArrays_seals 64 (by decide)) (base58Text_carries 64)
    (fun _ _ => textServer_mapOn.localPuts) (zeros 32) remembered_ownedWorld twoMemories
    admits_twoMemories wt hwt howner ⟨['/', 'a']⟩ (by decide)
  obtain ⟨_, hactive, hrest⟩ := hlogin [] trivial wt rfl hsmall (grantedLogin rk sp) rfl rfl rfl
    Scope.root_valid textServer_mapOn
  obtain ⟨k, hscope, hshows⟩ := hrest [] trivial _ rfl _ _ _ textServer_mapOn hactive
  -- The login is no request that is remembered.
  have htexts : (clientServer.record 64 wt (.login (grantedLogin rk sp))).2 = wt.2 := ite_self _
  have hthere := (hshows.read ⟨['/', 'a'], ['x']⟩ fun _ => (by decide)).2 "1"
  have helsewhere := (hshows.read ⟨['/'], ['y']⟩ fun _ => (by decide)).2
  refine ⟨wt, hwt, rk, sp, hgrant, _, rfl, hthere.mpr ⟨by decide, ?_, ?_⟩, ?_⟩
  · rw [hscope]
    rfl
  · exact (congrFun htexts _).trans htext
  · intro text h
    have hreach := ((helsewhere text).mp h).2.1
    rw [hscope] at hreach
    cases hreach

end Documents

end ReadOnlyKeys
