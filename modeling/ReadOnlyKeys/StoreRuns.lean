import ReadOnlyKeys.FileverseMap

/-!
# The memory store over real backends

The owner writes through the store, and whoever has a read key reads and lists
through a store or a reader, call after call. Over a backend that is a shelf at the
places in use, every answer is about what was written last.
-/
namespace ReadOnlyKeys
open Outcome Wire Answers

variable {σ ρ : Type}

/-- A call of the owner, or of someone with a read key, who has the store or a reader. -/
inductive StoreCall (C : Crypto (Vector UInt8)) (ρ : Type) where
  | write (op : MemoryStore.Op ρ)
  | read (k : ReadKeyPair C) (scope : Scope) (key : List Char)
  | list (k : ReadKeyPair C)
  | agentRead (k : ReadKeyPair C) (scope : Scope) (key : List Char)
  | agentList (k : ReadKeyPair C)

namespace StoreCall

variable {C : Crypto (Vector UInt8)}

abbrev Value : StoreCall C ρ → Type
  | write _ => StorageId
  | read _ _ _ | agentRead _ _ _ => Bytes
  | list _ | agentList _ => List MemoryEntry

/-- What a key reads of the contents. -/
def Reads (k : ReadKeyPair C) (contents : Contents) (scope : Scope) (key : List Char)
    (res : Result Bytes) : Prop :=
  match contents (scope.path, key) with
  | some content => res = if k.scope.isAncestorOf scope = true then .ok content
      else fail (.scopeMismatch k.scope.display scope.display)
  | none => ∃ err, res = fail err

/-- What a key lists of the contents: all at its scope and below, once each. -/
def Lists (k : ReadKeyPair C) (contents : Contents) (res : Result (List MemoryEntry)) : Prop :=
  ∃ memories, res = .ok memories ∧ (memories.map fun e => (e.scope, e.key)).Nodup ∧
    ∀ T name content, ⟨T, name, content⟩ ∈ memories ↔
      k.scope.isAncestorOf T = true ∧ contents (T.path, name) = some content

/-- The answer to a call where these are the contents, and the contents after it. A write that
fails writes nothing. -/
def Spec (contents : Contents) : (op : StoreCall C ρ) → Result op.Value → Contents → Prop
  | write op, res, contents' =>
      contents' = if res.isOk then
        Function.update contents (op.scope.path, op.key) (some op.content) else contents
  | read k scope key, res, contents' | agentRead k scope key, res, contents' =>
      contents' = contents ∧ Reads k contents scope key res
  | list k, res, contents' | agentList k, res, contents' =>
      contents' = contents ∧ Lists k contents res

/-- Two answers to a call say the same, but for ids, texts of errors and the order of a listing. -/
def Alike : (op : StoreCall C ρ) → Result op.Value → Result op.Value → Prop
  | write _, r, r' => r.isOk = r'.isOk
  | read _ _ _, r, r' | agentRead _ _ _, r, r' =>
      r = r' ∨ (∃ err, r = fail err) ∧ ∃ err, r' = fail err
  | list _, r, r' | agentList _, r, r' => ∃ ms ms', r = .ok ms ∧ r' = .ok ms' ∧ ms.Perm ms'

/-- The owner writes at a place that passes the test and can be written down. A reader has a key
that the root key was delegated to. -/
def Meets (spendKey : SpendKeyPair C) (P : Spot → Prop) (lists : Prop) : StoreCall C ρ → Prop
  | write op => op.Admissible ∧ P (op.scope.path, op.key)
  | read k scope key | agentRead k scope key =>
      Relation.ReflTransGen ReadKeyPair.Delegates spendKey.deriveRootReadKey k ∧ P (scope.path, key)
  | list k | agentList k =>
      Relation.ReflTransGen ReadKeyPair.Delegates spendKey.deriveRootReadKey k ∧ lists

variable {k : ReadKeyPair C} {contents : Contents}

theorem Reads.alike {scope : Scope} {key : List Char} {r r' : Result Bytes}
    (h : Reads k contents scope key r) (h' : Reads k contents scope key r') :
    r = r' ∨ (∃ err, r = fail err) ∧ ∃ err, r' = fail err := by
  unfold Reads at h h'
  split at h
  · rw [‹contents _ = _›] at h'
    exact .inl (h.trans h'.symm)
  · rw [‹contents _ = _›] at h'
    exact .inr ⟨h, h'⟩

theorem Reads.ne_panic {scope : Scope} {key : List Char} {r : Result Bytes}
    (h : Reads k contents scope key r) : r ≠ .error .panic := by
  unfold Reads at h
  split at h
  · rw [h]
    split_ifs <;> simp
  · obtain ⟨err, rfl⟩ := h
    simp

theorem Reads.toOption {scope : Scope} {key : List Char} {r : Result Bytes}
    (h : Reads k contents scope key r) : r.toOption =
      if k.scope.isAncestorOf scope = true then contents (scope.path, key) else none := by
  unfold Reads at h
  split at h
  · rw [h, ‹contents _ = _›]
    split_ifs <;> rfl
  · obtain ⟨err, rfl⟩ := h
    rw [‹contents _ = _›, ite_self]
    rfl

theorem Lists.alike {r r' : Result (List MemoryEntry)} (h : Lists k contents r)
    (h' : Lists k contents r') : ∃ ms ms', r = .ok ms ∧ r' = .ok ms' ∧ ms.Perm ms' := by
  obtain ⟨ms, hr, hnodup, hmem⟩ := h
  obtain ⟨ms', hr', hnodup', hmem'⟩ := h'
  refine ⟨ms, ms', hr, hr', (List.perm_ext_iff_of_nodup hnodup.of_map hnodup'.of_map).mpr ?_⟩
  intro x
  obtain ⟨T, name, content⟩ := x
  rw [hmem, hmem']

end StoreCall

namespace MemoryStore

variable {C : Crypto (Vector UInt8)} (self : MemoryStore C σ) (rng : CryptoRng (Vector UInt8) ρ)
  (m : Overflow)

/-- An agent has the owner's verifying key. -/
def reader : MemoryReader C σ := ⟨self.spendKey.verifyingKey, self.backend⟩

def answer (s : σ) : (op : StoreCall C ρ) → Result op.Value × σ
  | .write op => (self.program rng op).exec s
  | .read k scope key => (self.read m k scope key).exec s
  | .list k => (self.list m k).exec s
  | .agentRead k scope key => (self.reader.read m k scope key).exec s
  | .agentList k => (self.reader.list m k).exec s

variable {self rng m} {P : Spot → Prop} {I small : σ → Prop} {shelf : σ → Shelf} {s : σ}
  {contents : Contents} {k : ReadKeyPair C}

/-- The state is good and the backend holds the contents. -/
def Keeps (spendKey : SpendKeyPair C) (m : Overflow) (I : σ → Prop) (shelf : σ → Shelf) (s : σ)
    (contents : Contents) : Prop :=
  I s ∧ Mirrors m spendKey (shelf s).contents contents

theorem readMemory_mapOn (self : MemoryStore C σ) (hB : MapOn self.backend P I small shelf)
    (h : Keeps self.spendKey m I shelf s contents) (hk : k.Genuine self.spendKey)
    (scope : Scope) {key : List Char} (hP : P (scope.path, key)) :
    let r := (readMemory m self.spendKey.verifyingKey k self.backend scope key).exec s
    StoreCall.Reads k contents scope key r.1 ∧ Keeps self.spendKey m I shelf r.2 contents := by
  obtain ⟨hs, hmirrors⟩ := h
  obtain ⟨hs', hshelf, hget⟩ := hB.step (.getByKey scope.path key) hs hP
  cases hexec : (self.backend.getByKey scope.path key).exec s with
  | mk res s' =>
    simp only [StorageOp.exec, StorageOp.program, hexec] at hs' hshelf hget
    have hkeeps : Keeps self.spendKey m I shelf s' contents := ⟨hs', hshelf ▸ hmirrors⟩
    unfold StoreCall.Reads
    cases hv : (shelf s).contents (scope.path, key) with
    | none =>
      obtain ⟨err, rfl⟩ : ∃ err, res = fail err := by
        rw [hv] at hget
        exact hget
      have hnone := hmirrors (scope.path, key)
      rw [hv] at hnone
      simp only [hnone, readMemory, Program.exec_bind, hexec]
      exact ⟨⟨err, rfl⟩, hkeeps⟩
    | some data =>
      obtain ⟨e, rfl, hhas⟩ : ∃ e, res = .ok e ∧ (shelf s).Has (scope.path, key) e := by
        rw [hv] at hget
        exact hget
      obtain ⟨content, hc, _, envelope, henv, hdec⟩ := hmirrors.held hhas.data
      rw [readMemory_of_envelope hexec (henv e rfl), hc]
      exact ⟨hdec k hk, hkeeps⟩

theorem listMemories_mapOn (self : MemoryStore C σ) (hB : MapOn self.backend P I small shelf)
    (h : Keeps self.spendKey m I shelf s contents) (hk : k.Genuine self.spendKey)
    (hsmall : small s) :
    let r := (listMemories m self.spendKey.verifyingKey k self.backend).exec s
    StoreCall.Lists k contents r.1 ∧ Keeps self.spendKey m I shelf r.2 contents := by
  obtain ⟨hs, hmirrors⟩ := h
  obtain ⟨hs', hshelf, hlist⟩ := hB.step (.list k.scope.path) hs hsmall
  cases hexec : (self.backend.list k.scope.path).exec s with
  | mk res s' =>
    simp only [StorageOp.exec, StorageOp.program, hexec] at hs' hshelf hlist
    obtain ⟨es, rfl, hnodup, hhas, hplaces⟩ := hlist
    have hmem : ∀ scope key data, (∃ e ∈ es, e.scope = scope ∧ e.key = key ∧ e.data = data) ↔
        k.scope.isAncestorOf ⟨scope⟩ = true ∧ (shelf s).contents (scope, key) = some data := by
      intro scope key data
      constructor
      · intro he
        obtain ⟨e, he, rfl, rfl, rfl⟩ := he
        exact ⟨((hplaces _).mp ⟨e, he, rfl⟩).1, (hhas e he).data⟩
      · intro hview
        obtain ⟨e, he, hpair⟩ := (hplaces (scope, key)).mpr ⟨hview.1, by rw [hview.2]; rfl⟩
        obtain ⟨rfl, rfl⟩ := Prod.mk.inj hpair
        exact ⟨e, he, rfl, rfl, Option.some.inj ((hhas e he).data.symm.trans hview.2)⟩
    obtain ⟨memories, hmemories, hspec⟩ := hmirrors.listMemories_of_list hk hexec hnodup hmem
    rw [hmemories]
    exact ⟨⟨memories, rfl, hspec⟩, hs', hshelf ▸ hmirrors⟩

/-- The bytes that a call of the owner puts. -/
def Op.written (spendKey : SpendKeyPair C) (rng : CryptoRng (Vector UInt8) ρ) :
    Op ρ → Result Bytes
  | .write r scope _ content => MemoryStore.written spendKey rng r scope content
  | .acceptProposal r p => MemoryStore.written spendKey rng r p.scope p.plaintext

/-- The contents after a call. Only a write that has something to put changes them. -/
def next (spendKey : SpendKeyPair C) (rng : CryptoRng (Vector UInt8) ρ) (contents : Contents) :
    StoreCall C ρ → Contents
  | .write op => if (op.written spendKey rng).isOk then
      Function.update contents (op.scope.path, op.key) (some op.content) else contents
  | .read _ _ _ | .list _ | .agentRead _ _ _ | .agentList _ => contents

theorem write_mapOn (self : MemoryStore C σ) (rng : CryptoRng (Vector UInt8) ρ)
    (hC : C.Correct) (hR : C.StaticRoundtrip) (hT : C.aes256GcmSiv.Tagged)
    (hB : MapOn self.backend P I small shelf) (h : Keeps self.spendKey m I shelf s contents)
    {op : Op ρ} (hop : op.Admissible) (hP : P (op.scope.path, op.key)) :
    ((self.program rng op).exec s).1.isOk = (op.written self.spendKey rng).isOk ∧
      Keeps self.spendKey m I shelf ((self.program rng op).exec s).2
        (next self.spendKey rng contents (.write op)) := by
  obtain ⟨hs, hmirrors⟩ := h
  obtain ⟨r, hprogram, hwritten⟩ : ∃ r,
      self.program rng op = self.write rng r op.scope op.key op.content ∧
        op.written self.spendKey rng = written self.spendKey rng r op.scope op.content := by
    cases op <;> exact ⟨_, rfl, rfl⟩
  rw [hprogram, next, hwritten]
  rcases write_cases m hC hR hT self rng r hop.1 hop.2 op.key op.content s with
    ⟨err, hbytes, hexec⟩ | ⟨data, hbytes, hholds, hexec⟩
  · rw [hexec, hbytes]
    exact ⟨rfl, hs, hmirrors⟩
  · obtain ⟨hs', id, hid, hshelf⟩ := hB.step (.put op.scope.path op.key data) hs hP
    simp only [StorageOp.exec, StorageOp.program, ← hexec] at hs' hid hshelf
    rw [hid, hbytes]
    refine ⟨rfl, hs', ?_⟩
    rw [hshelf]
    exact hmirrors.update hop.1 op.key hholds

/-- A call is answered by the contents, and keeps the backend a mirror of them. -/
theorem answer_mapOn (self : MemoryStore C σ) (rng : CryptoRng (Vector UInt8) ρ)
    (hC : C.Correct) (hR : C.StaticRoundtrip) (hT : C.aes256GcmSiv.Tagged)
    (hB : MapOn self.backend P I small shelf) (h : Keeps self.spendKey m I shelf s contents)
    {op : StoreCall C ρ} (hop : op.Meets self.spendKey P (small s)) :
    op.Spec contents (self.answer rng m s op).1 (next self.spendKey rng contents op) ∧
      Keeps self.spendKey m I shelf (self.answer rng m s op).2
        (next self.spendKey rng contents op) := by
  cases op with
  | write op =>
    obtain ⟨hok, hkeeps⟩ := self.write_mapOn rng hC hR hT hB h hop.1 hop.2
    refine ⟨?_, hkeeps⟩
    simp only [next, ← hok]
    rfl
  | read k scope key | agentRead k scope key =>
    obtain ⟨hreads, hkeeps⟩ :=
      readMemory_mapOn self hB h (ReadKeyPair.genuine_of_delegated hR hop.1) _ hop.2
    exact ⟨⟨rfl, hreads⟩, hkeeps⟩
  | list k | agentList k =>
    obtain ⟨hlists, hkeeps⟩ :=
      listMemories_mapOn self hB h (ReadKeyPair.genuine_of_delegated hR hop.1) hop.2
    exact ⟨⟨rfl, hlists⟩, hkeeps⟩

theorem Keeps.init (h : I s) (hempty : ∀ q, (shelf s).contents q = none)
    (spendKey : SpendKeyPair C) (m : Overflow) : Keeps spendKey m I shelf s fun _ => none := by
  refine ⟨h, fun q => ?_⟩
  rw [hempty q]

/-- In every run of the owner's writes and of reads and listings with delegated keys, over a
backend that is a shelf at the places in use, every answer is about what was written last. -/
theorem answers_last_writes (hC : C.Correct) (hR : C.StaticRoundtrip)
    (hT : C.aes256GcmSiv.Tagged) (m : Overflow) (self : MemoryStore C σ)
    (rng : CryptoRng (Vector UInt8) ρ) {P : Spot → Prop} {I small : σ → Prop} {shelf : σ → Shelf}
    (hB : MapOn self.backend P I small shelf) (s₀ : σ) (h₀ : I s₀)
    (hempty : ∀ q, (shelf s₀).contents q = none) {calls : List (StoreCall C ρ)}
    (hcalls : Runs.Meets (fun s op => (self.answer rng m s op).2)
      (fun s op => op.Meets self.spendKey P (small s)) s₀ calls) :
    ∃ contents, Allows StoreCall.Spec (fun _ => none) (history (self.answer rng m) s₀ calls)
      contents := by
  have hstep : ∀ s contents (op : StoreCall C ρ), op.Meets self.spendKey P (small s) →
      Keeps self.spendKey m I shelf s contents → ∃ contents',
        op.Spec contents (self.answer rng m s op).1 contents' ∧
          Keeps self.spendKey m I shelf (self.answer rng m s op).2 contents' :=
    fun _ _ _ hop h => ⟨_, self.answer_mapOn rng hC hR hT hB h hop⟩
  obtain ⟨contents, hallows, _⟩ := exists_allows _ hstep (.init h₀ hempty self.spendKey m) hcalls
  exact ⟨contents, hallows⟩

variable {τ : Type}

/-- Two stores are asked the same. -/
def answerBoth (self : MemoryStore C σ) (other : MemoryStore C τ) (rng : CryptoRng (Vector UInt8) ρ)
    (m : Overflow) (s : σ × τ) (op : StoreCall C ρ) : (Result op.Value × Result op.Value) × σ × τ :=
  (((self.answer rng m s.1 op).1, (other.answer rng m s.2 op).1),
    ((self.answer rng m s.1 op).2, (other.answer rng m s.2 op).2))

/-- The owner may change backends: over two that are shelves at the places in use, the same calls
are answered alike. -/
theorem answers_alike (hC : C.Correct) (hR : C.StaticRoundtrip) (hT : C.aes256GcmSiv.Tagged)
    (m : Overflow) (spendKey : SpendKeyPair C) (rng : CryptoRng (Vector UInt8) ρ)
    {backend : StorageBackend σ} {backend' : StorageBackend τ} {P P' : Spot → Prop}
    {I small : σ → Prop} {I' small' : τ → Prop} {shelf : σ → Shelf} {shelf' : τ → Shelf}
    (hB : MapOn backend P I small shelf) (hB' : MapOn backend' P' I' small' shelf')
    (s₀ : σ) (t₀ : τ) (h₀ : I s₀) (h₀' : I' t₀) (hempty : ∀ q, (shelf s₀).contents q = none)
    (hempty' : ∀ q, (shelf' t₀).contents q = none) {calls : List (StoreCall C ρ)}
    (hcalls : Runs.Meets
      (fun s op => (answerBoth ⟨spendKey, backend⟩ ⟨spendKey, backend'⟩ rng m s op).2)
      (fun s op => op.Meets spendKey P (small s.1) ∧ op.Meets spendKey P' (small' s.2)) (s₀, t₀)
      calls) :
    ∀ x ∈ history (answerBoth ⟨spendKey, backend⟩ ⟨spendKey, backend'⟩ rng m) (s₀, t₀) calls,
      x.1.Alike x.2.1 x.2.2 := by
  let Spec (contents : Contents) (op : StoreCall C ρ) (v : Result op.Value × Result op.Value)
      (contents' : Contents) : Prop :=
    op.Spec contents v.1 contents' ∧ op.Spec contents v.2 contents' ∧ op.Alike v.1 v.2
  have hstep : ∀ (s : σ × τ) contents (op : StoreCall C ρ),
      op.Meets spendKey P (small s.1) ∧ op.Meets spendKey P' (small' s.2) →
      Keeps spendKey m I shelf s.1 contents ∧ Keeps spendKey m I' shelf' s.2 contents →
      ∃ contents', Spec contents op
          (answerBoth ⟨spendKey, backend⟩ ⟨spendKey, backend'⟩ rng m s op).1 contents' ∧
        Keeps spendKey m I shelf
          (answerBoth ⟨spendKey, backend⟩ ⟨spendKey, backend'⟩ rng m s op).2.1 contents' ∧
        Keeps spendKey m I' shelf'
          (answerBoth ⟨spendKey, backend⟩ ⟨spendKey, backend'⟩ rng m s op).2.2 contents' := by
    intro s contents op hop h
    obtain ⟨hspec, hkeeps⟩ := answer_mapOn ⟨spendKey, backend⟩ rng hC hR hT hB h.1 hop.1
    obtain ⟨hspec', hkeeps'⟩ := answer_mapOn ⟨spendKey, backend'⟩ rng hC hR hT hB' h.2 hop.2
    refine ⟨_, ⟨hspec, hspec', ?_⟩, hkeeps, hkeeps'⟩
    cases op with
    | write op =>
      have hok := (write_mapOn ⟨spendKey, backend⟩ rng hC hR hT hB h.1 hop.1.1 hop.1.2).1
      exact hok.trans (write_mapOn ⟨spendKey, backend'⟩ rng hC hR hT hB' h.2 hop.2.1 hop.2.2).1.symm
    | read k scope key | agentRead k scope key => exact hspec.2.alike hspec'.2
    | list k | agentList k => exact hspec.2.alike hspec'.2
  obtain ⟨contents, hallows, _⟩ := exists_allows _ hstep
    ⟨.init h₀ hempty spendKey m, .init h₀' hempty' spendKey m⟩ hcalls
  exact hallows.forall_mem fun _ _ _ _ h => h.2.2

/-- The owner may move from the in-memory storage to a document server: at keys without a slash or
a colon the same calls are answered alike. -/
theorem documents_answer_as_memory (hC : C.Correct) (hR : C.StaticRoundtrip)
    (hT : C.aes256GcmSiv.Tagged) (m : Overflow) (spendKey : SpendKeyPair C)
    (rng : CryptoRng (Vector UInt8) ρ) (server : FileverseBackend.DocumentServer)
    (base64 : Base64Engine)
    (hstarts : ∀ query doc, query <+: doc.title → server.hits query doc = true) (times : ℕ → ℕ)
    {env : ℕ → FileverseBackend.Turn} (henv : ∀ n, (env n).fate = .answered)
    {calls : List (StoreCall C ρ)}
    (hcalls : Runs.Meets (fun s op => (answerBoth ⟨spendKey, MemoryStorage.backend⟩
        ⟨spendKey, FileverseBackend.client server base64⟩ rng m s op).2)
      (fun s op => op.Meets spendKey MemoryStorage.Flat True ∧
        op.Meets spendKey FileverseBackend.Fits (s.2.1.length ≤ 1000))
      ((.new, times), ([], env)) calls) :
    ∀ x ∈ history (answerBoth ⟨spendKey, MemoryStorage.backend⟩
        ⟨spendKey, FileverseBackend.client server base64⟩ rng m) ((.new, times), ([], env)) calls,
      x.1.Alike x.2.1 x.2.2 :=
  answers_alike hC hR hT m spendKey rng MemoryStorage.backend_mapOn
    (FileverseBackend.client_mapOn server hstarts) (.new, times) ([], env) MemoryStorage.flats_new
    ⟨FileverseBackend.shelved_nil base64, henv⟩ MemoryStorage.view_new
    (FileverseBackend.docsView_nil base64) hcalls

end MemoryStore

section Documents
open FileverseBackend

/-- An agent reads a memory that the owner writes, and then lists what replaced it. -/
def documentCalls : List (StoreCall Transparent.arrays ℕ) :=
  [.write (.write 0 ⟨['/', 'a']⟩ ['x'] [1, 2]), .agentRead zeroRoot ⟨['/', 'a']⟩ ['x'],
    .write (.acceptProposal 0 ⟨⟨['/', 'a']⟩, ['x'], [3], "agent"⟩), .agentList zeroRoot]

/-- The store of the zero seed's owner on a document server. -/
def documentStore : MemoryStore Transparent.arrays ClientState :=
  ⟨zeroSpend packArray, client textServer standard⟩

theorem answers_last_writes_documents : ∃ contents,
    Allows StoreCall.Spec (fun _ => none) (history
      (documentStore.answer (Transparent.rng packArray) .wrapping) ([], fun _ => answered)
        documentCalls) contents := by
  have hB : MapOn documentStore.backend Fits _ _ _ :=
    client_mapOn textServer fun query doc h => decide_eq_true h.isInfix
  have hcalls : Runs.Meets
      (fun s op => (documentStore.answer (Transparent.rng packArray) .wrapping s op).2)
      (fun s op => op.Meets (zeroSpend packArray) Fits (s.1.length ≤ 1000))
      ([], fun _ => answered) documentCalls :=
    ⟨⟨⟨by decide, by decide⟩, by decide⟩, ⟨.refl, by decide⟩,
      ⟨⟨by decide, by decide⟩, by decide⟩, ⟨.refl, by decide +kernel⟩, trivial⟩
  exact MemoryStore.answers_last_writes (Transparent.crypto_correct packArray)
    (Transparent.crypto_staticRoundtrip packArray) Transparent.aead_tagged .wrapping documentStore
    (Transparent.rng packArray) hB ([], fun _ => answered) ⟨shelved_nil standard, fun _ => rfl⟩
    (docsView_nil standard) hcalls

theorem documents_answer_as_memory_calls :
    (history (MemoryStore.answerBoth ⟨zeroSpend packArray, MemoryStorage.backend⟩
      ⟨zeroSpend packArray, client textServer standard⟩ (Transparent.rng packArray) .wrapping)
      ((.new, id), ([], fun _ => answered)) documentCalls).Forall
        fun x => x.1.Alike x.2.1 x.2.2 := by
  have hcalls : Runs.Meets
      (fun s op => (MemoryStore.answerBoth ⟨zeroSpend packArray, MemoryStorage.backend⟩
        ⟨zeroSpend packArray, client textServer standard⟩ (Transparent.rng packArray) .wrapping
          s op).2)
      (fun s op => op.Meets (zeroSpend packArray) MemoryStorage.Flat True ∧
        op.Meets (zeroSpend packArray) Fits (s.2.1.length ≤ 1000))
      ((.new, id), ([], fun _ => answered)) documentCalls :=
    ⟨⟨⟨⟨by decide, by decide⟩, by decide⟩, ⟨by decide, by decide⟩, by decide⟩,
      ⟨⟨.refl, by decide⟩, .refl, by decide⟩,
      ⟨⟨⟨by decide, by decide⟩, by decide⟩, ⟨by decide, by decide⟩, by decide⟩,
      ⟨⟨.refl, trivial⟩, .refl, by decide +kernel⟩, trivial⟩
  exact List.forall_iff_forall_mem.mpr (MemoryStore.documents_answer_as_memory
    (Transparent.crypto_correct packArray) (Transparent.crypto_staticRoundtrip packArray)
    Transparent.aead_tagged .wrapping (zeroSpend packArray) (Transparent.rng packArray) textServer
    standard (fun query doc h => decide_eq_true h.isInfix) id (fun _ => rfl) hcalls)

end Documents

end ReadOnlyKeys
