import ReadOnlyKeys.FileverseMap
import ReadOnlyKeys.Lib.Hex
import ReadOnlyKeys.Preview
import ReadOnlyKeys.Resources
import ReadOnlyKeys.Setup
import ReadOnlyKeys.Sync

/-!
# The requests of the tool server

Every request but those that make a session works with the session that is active
when it arrives. What is stored changes only in an owner's session, and only at the
places that the request names.
-/
namespace ReadOnlyKeys
open Outcome Wire

variable {σ ρ : Type}

structure ReadParams where
  scope : List Char
  key : List Char

structure GrantParams where
  scope : List Char

structure ProposeParams where
  scope : List Char
  key : List Char
  content : List Char
  agentId : String

/-- The refusal of a request without a session. -/
def noSession : McpError := .invalidParams "no active session — call rok_memory:login first"

/-- The answer of the tool `rok_memory:grant`. -/
def grantText (scope : List Char) (encodedKey spendPublic : String) : String :=
  s!"granted access to {String.ofList scope}\n  read_key: {encodedKey}\n  spend_public: {spendPublic}\n\nGive both values to the agent. They can read {String.ofList scope} and descendants."

/-- The answer to a proposal that is accepted. -/
def acceptedText (params : ProposeParams) (id : StorageId) : String :=
  s!"accepted proposal from '{params.agentId}' at {String.ofList params.scope}:{String.ofList params.key} (id: {String.ofList id.id})"

/-- The answer to a proposal of an agent. -/
def stagedText (params : ProposeParams) : String :=
  s!"proposal staged (agent cannot write directly)\n  scope: {String.ofList params.scope}\n  key: {String.ofList params.key}\n  from: {params.agentId}\n  size: {(toUtf8 params.content).length} bytes\n\nThe owner must accept this with rok_memory:propose using their spend seed."

section Tools

variable (m : Overflow) (C : Crypto (Vector UInt8)) (E : KeyText) (connect : Session.Connect σ)
  (rng : CryptoRng (Vector UInt8) ρ)

/-- The scope that a request names. -/
def requestScope (scope : List Char) : Except (Fault McpError) Scope :=
  mapFault (Scope.new scope) fun e => .invalidParams s!"invalid scope: {e.display}"

/-- The tool `rok_memory:list`. -/
def listMemoriesTool (session : Option Session) : Program McpError σ String := do
  let session ← Program.attempt (okOr session noSession)
  let (reader, readKey) ← Program.attempt (session.loadReader C E connect)
  let entries ← (reader.list m readKey).mapError fun e =>
    .internalError s!"list failed: {e.display}"
  Program.attempt (mapFault (listTool entries) fun e => .internalError e.display)

/-- The tool `rok_memory:read`. -/
def readTool (session : Option Session) (params : ReadParams) : Program McpError σ String := do
  let session ← Program.attempt (okOr session noSession)
  let scope ← Program.attempt (requestScope params.scope)
  let (reader, readKey) ← Program.attempt (session.loadReader C E connect)
  let data ← (reader.read m readKey scope params.key).mapError fun e =>
    .internalError s!"read failed: {e.display}"
  return String.ofList (fromUtf8Lossy data)

/-- The tool `rok_memory:grant`, which asks the storage nothing. -/
def grantTool (session : Option Session) (params : GrantParams) :
    Except (Fault McpError) String := do
  let session ← okOr session noSession
  require (session.role = .owner) (.invalidParams "grant requires owner role (spend seed)")
  let scope ← requestScope params.scope
  let store ← mapFault (session.memoryStore C connect) .internalError
  let exported ← mapFault (store.grantAccess scope) fun e =>
    .internalError s!"grant failed: {e.display}"
  let spend ← mapFault (session.spendKey C) .internalError
  return grantText params.scope (Encoding.encodeExportedReadKey C E exported)
    (Encoding.encodeSpendPublic C E spend.verifyingKey)

/-- The tool `rok_memory:propose`. `r` is the state of the thread's generator. -/
def proposeTool (r : ρ) (session : Option Session) (params : ProposeParams) :
    Program McpError σ String := do
  let session ← Program.attempt (okOr session noSession)
  let scope ← Program.attempt (requestScope params.scope)
  match session.role with
  | .owner => do
    let store ← Program.attempt (mapFault (session.memoryStore C connect) .internalError)
    let proposal := ⟨scope, params.key, toUtf8 params.content, params.agentId⟩
    let id ← (store.acceptProposal rng r proposal).mapError fun e =>
      .internalError s!"accept failed: {e.display}"
    return acceptedText params id
  | .agent => return stagedText params

end Tools

/-- A request to the server. -/
inductive ToolCall (ρ : Type) where
  | setup (os : Os) (params : SetupParams)
  | login (params : LoginParams)
  | logout
  | list
  | read (params : ReadParams)
  | write (r : ρ) (params : WriteParams)
  | grant (params : GrantParams)
  | propose (r : ρ) (params : ProposeParams)
  | sync (entries : List (SyncEntry × ρ))
  | status
  | listResources
  | readResource (uri : List Char)

/-- What a request is answered with. -/
inductive Answer where
  | text (text : String)
  | resources (resources : List Resource)
  | contents (contents : ResourceContents)

/-- What the server computes with. -/
structure Server (C : Crypto (Vector UInt8)) (σ ρ : Type) where
  m : Overflow
  keyText : KeyText
  connect : Session.Connect σ
  rng : CryptoRng (Vector UInt8) ρ
  hexDecode : String → Except String Bytes
  serde : SerdeJson

/-- The session that a request meets. -/
def World.activeSession (w : World σ) : Option Session :=
  w.service.session.map ActiveSession.toSession

namespace Server

variable {C : Crypto (Vector UInt8)} (self : Server C σ ρ)

/-- The handler of a request in a session. -/
def handler (session : Option Session) : ToolCall ρ → Program McpError (World σ) Answer
  | .setup os params =>
    .text <$> setup self.m C self.keyText self.connect self.hexDecode self.serde os params
  | .login params => .text <$> login self.m C self.keyText self.connect self.hexDecode params
  | .logout => .text <$> logout
  | .list => World.onStorage (.text <$> listMemoriesTool self.m C self.keyText self.connect session)
  | .read params =>
    World.onStorage (.text <$> readTool self.m C self.keyText self.connect session params)
  | .write r params =>
    World.onStorage (.text <$> writeTool C self.connect self.rng r session params)
  | .grant params =>
    Program.attempt ((grantTool C self.keyText self.connect session params).map .text)
  | .propose r params =>
    World.onStorage (.text <$> proposeTool C self.connect self.rng r session params)
  | .sync entries =>
    World.onStorage (.text <$> syncTool self.m C self.keyText self.connect self.rng session entries)
  | .status => do
    let w ← get
    return .text (status w.service)
  | .listResources =>
    World.onStorage (.resources <$> ReadOnlyKeys.listResources self.m C self.keyText self.connect
      session)
  | .readResource uri =>
    World.onStorage (.contents <$> ReadOnlyKeys.readResource self.m C self.keyText self.connect
      session uri)

/-- A request and its answer. -/
def call (op : ToolCall ρ) : Program McpError (World σ) Answer := do
  let w ← get
  self.handler w.activeSession op

def answer (w : World σ) (op : ToolCall ρ) : Except (Fault McpError) Answer :=
  ((self.call op).exec w).1

def step (w : World σ) (op : ToolCall ρ) : World σ := ((self.call op).exec w).2

theorem exec_call (op : ToolCall ρ) (w : World σ) :
    (self.call op).exec w = (self.handler w.activeSession op).exec w := rfl

end Server

/-- The places that a request may write. -/
def ToolCall.places : ToolCall ρ → List Spot
  | .write _ params => [(params.scope, params.key)]
  | .propose _ params => [(params.scope, params.key)]
  | .sync entries => entries.map fun p => p.1.place
  | _ => []

/-- The request may write at `q`, whose scope is a valid one. -/
def ToolCall.Writes (op : ToolCall ρ) (q : Spot) : Prop := q ∈ op.places ∧ Scope.Valid ⟨q.1⟩

/-- The places with a valid scope that the request asks the storage for pass the test. If it lists
what is stored, the state allows it. -/
def ToolCall.Meets (P : Spot → Prop) (lists : Prop) : ToolCall ρ → Prop
  | .setup _ _ | .login _ | .list | .listResources => lists
  | .read params => Scope.Valid ⟨params.scope⟩ → P (params.scope, params.key)
  | .write _ params => Scope.Valid ⟨params.scope⟩ → P (params.scope, params.key)
  | .propose _ params => Scope.Valid ⟨params.scope⟩ → P (params.scope, params.key)
  | .sync entries => ∀ p ∈ entries, Scope.Valid ⟨p.1.scope⟩ → P p.1.place
  | .readResource uri => ∀ q, parseUri uri = .ok q → Scope.Valid ⟨q.1⟩ → P q
  | .logout | .grant _ | .status => True

/-- The session is an owner's. -/
def OwnerActive (session : Option Session) : Prop := ∃ s, session = some s ∧ s.role = .owner

@[simp] theorem ownerActive_some_iff (s : Session) : OwnerActive (some s) ↔ s.role = .owner := by
  simp [OwnerActive]

@[simp] theorem not_ownerActive_none : ¬ OwnerActive none := nofun

instance (session : Option Session) : Decidable (OwnerActive session) :=
  match session with
  | none => .isFalse not_ownerActive_none
  | some s => decidable_of_iff (s.role = .owner) (ownerActive_some_iff s).symm

section Frames

variable {C : Crypto (Vector UInt8)} {m : Overflow} {E : KeyText} {connect : Session.Connect σ}
  {rng : CryptoRng (Vector UInt8) ρ} {P : Spot → Prop} {I small : σ → Prop} {view : σ → Contents}
  {W : Set Spot} {backend : StorageBackend σ} {session : Session}

theorem readMemory_moves (hB : LocalPuts backend P I small view) (vk : C.VerifyingKey)
    (k : ReadKeyPair C) (scope : Scope) {key : List Char} (hP : P (scope.path, key)) :
    (readMemory m vk k backend scope key).Moves (Stays I view W) :=
  ((hB.getByKey scope.path key hP).mono (Stays.mono (Set.empty_subset W))).bind fun _ =>
    .attempt_bind fun _ _ => Program.moves_attempt _

theorem listMemories_moves (hB : LocalPuts backend P I small view) (vk : C.VerifyingKey)
    (k : ReadKeyPair C) :
    (listMemories m vk k backend).Moves (Stays (fun s => I s ∧ small s) view W) :=
  ((hB.list k.scope.path).mono (Stays.mono (Set.empty_subset W))).bind fun _ =>
    .attempt_bind fun _ _ => Program.moves_pure _

theorem MemoryStore.write_moves {store : MemoryStore C σ}
    (hB : LocalPuts store.backend P I small view) (rng : CryptoRng (Vector UInt8) ρ) (r : ρ)
    {scope : Scope} {key : List Char} (hP : P (scope.path, key)) (hW : (scope.path, key) ∈ W)
    (content : Bytes) : (store.write rng r scope key content).Moves (Stays I view W) :=
  .attempt_bind fun _ _ => .attempt_bind fun _ _ =>
    (hB.put scope.path key _ hP).mono (Stays.mono (Set.singleton_subset_iff.mpr hW))

theorem Session.loadReader_backend {reader : MemoryReader C σ} {k : ReadKeyPair C}
    (h : session.loadReader C E connect = .ok (reader, k)) :
    reader.backend = session.backend connect := by
  simp only [loadReader, memoryReader, bind_eq_ok_iff, mapFault_eq_ok_iff] at h
  obtain ⟨_, ⟨vk, _, hr⟩, _, _, h⟩ := h
  obtain ⟨rfl, _⟩ := Prod.mk.inj (Except.ok.inj h)
  rw [← Except.ok.inj hr]

theorem Session.memoryStore_backend {store : MemoryStore C σ}
    (h : session.memoryStore C connect = .ok store) :
    store.backend = session.backend connect := by
  simp only [memoryStore, bind_eq_ok_iff] at h
  obtain ⟨_, _, h⟩ := h
  rw [← Except.ok.inj h]

variable (hB : ∀ url apiKey, LocalPuts (connect url apiKey) P I small view)
include hB

lemma localPuts_of_loadReader {reader : MemoryReader C σ} {k : ReadKeyPair C}
    (hload : session.loadReader C E connect = .ok (reader, k)) :
    LocalPuts reader.backend P I small view := by
  rw [Session.loadReader_backend hload]
  exact hB _ _

lemma localPuts_of_memoryStore {store : MemoryStore C σ}
    (hstore : session.memoryStore C connect = .ok store) :
    LocalPuts store.backend P I small view := by
  rw [Session.memoryStore_backend hstore]
  exact hB _ _

/-- A request that only lists with the keys of its session. -/
lemma moves_of_list {ε α : Type} {reader : MemoryReader C σ} {k : ReadKeyPair C}
    (hload : session.loadReader C E connect = .ok (reader, k)) {f : RokError → ε}
    {g : List MemoryEntry → Program ε σ α}
    (hg : ∀ entries, (g entries).Moves (Stays (fun s => I s ∧ small s) view W)) :
    ((reader.list m k).mapError f >>= g).Moves (Stays (fun s => I s ∧ small s) view W) := by
  have hlist : (reader.list m k).Moves (Stays (fun s => I s ∧ small s) view W) :=
    listMemories_moves (localPuts_of_loadReader hB hload) _ _
  exact (hlist.mapError f).bind hg

lemma moves_of_read {ε α : Type} {reader : MemoryReader C σ} {k : ReadKeyPair C}
    (hload : session.loadReader C E connect = .ok (reader, k)) {f : RokError → ε} {scope : Scope}
    {key : List Char} (hP : P (scope.path, key)) {g : Bytes → Program ε σ α}
    (hg : ∀ data, (g data).Moves (Stays I view W)) :
    ((reader.read m k scope key).mapError f >>= g).Moves (Stays I view W) := by
  have hread : (reader.read m k scope key).Moves (Stays I view W) :=
    readMemory_moves (localPuts_of_loadReader hB hload) _ _ _ hP
  exact (hread.mapError f).bind hg

theorem listMemoriesTool_moves (session : Option Session) :
    (listMemoriesTool m C E connect session).Moves (Stays (fun s => I s ∧ small s) view W) :=
  .attempt_bind fun _ _ => .attempt_bind fun _ hload =>
    moves_of_list hB hload fun _ => Program.moves_attempt _

theorem readTool_moves (session : Option Session) {params : ReadParams}
    (hP : Scope.Valid ⟨params.scope⟩ → P (params.scope, params.key)) :
    (readTool m C E connect session params).Moves (Stays I view W) := by
  refine .attempt_bind fun _ _ => .attempt_bind fun T hT => .attempt_bind fun _ hload => ?_
  rw [requestScope, mapFault_eq_ok_iff, Scope.new_eq_ok_iff] at hT
  obtain ⟨rfl, hv⟩ := hT
  exact moves_of_read hB hload (hP hv) fun _ => Program.moves_pure _

theorem listResources_moves (session : Option Session) :
    (listResources m C E connect session).Moves (Stays (fun s => I s ∧ small s) view W) := by
  unfold listResources
  cases session with
  | none => exact Program.moves_pure _
  | some session =>
    exact .attempt_bind fun _ hload => moves_of_list hB hload fun _ => Program.moves_pure _

theorem readResource_moves (session : Option Session) {uri : List Char}
    (hP : ∀ q, parseUri uri = .ok q → Scope.Valid ⟨q.1⟩ → P q) :
    (readResource m C E connect session uri).Moves (Stays I view W) := by
  refine .attempt_bind fun q hq => .attempt_bind fun _ _ => .attempt_bind fun T hT =>
    .attempt_bind fun _ hload => ?_
  rw [mapFault_eq_ok_iff, Scope.new_eq_ok_iff] at hT
  obtain ⟨rfl, hv⟩ := hT
  exact moves_of_read hB hload (hP q hq hv) fun _ => Program.moves_pure _

theorem countMemories_moves (session : Session) :
    (countMemories m C E connect session).Moves (Stays (fun s => I s ∧ small s) view W) := by
  refine .attempt_bind fun reader hreader => .attempt_bind fun k _ => ?_
  have hlocal : LocalPuts reader.backend P I small view := by
    simp only [Session.memoryReader, bind_eq_ok_iff] at hreader
    obtain ⟨_, _, h⟩ := hreader
    rw [← Except.ok.inj h]
    exact hB _ _
  have hlist : (reader.list m k).Moves (Stays (fun s => I s ∧ small s) view W) :=
    listMemories_moves hlocal _ _
  exact (hlist.mapError _).bind fun _ => Program.moves_pure _

/-- A write in a session, with whatever answer. -/
lemma moves_of_write {ε α : Type} {store : MemoryStore C σ}
    (hstore : session.memoryStore C connect = .ok store) (r : ρ) {scope : Scope} {key : List Char}
    (hP : P (scope.path, key)) (hW : (scope.path, key) ∈ W) (content : Bytes) {f : RokError → ε}
    {g : StorageId → Program ε σ α} (hg : ∀ id, (g id).Moves (Stays I view W)) :
    ((store.write rng r scope key content).mapError f >>= g).Moves (Stays I view W) := by
  have hwrite : (store.write rng r scope key content).Moves (Stays I view W) :=
    store.write_moves (localPuts_of_memoryStore hB hstore) rng r hP hW content
  exact (hwrite.mapError f).bind hg

theorem writeTool_moves {session : Option Session} {params : WriteParams} (r : ρ)
    (hP : Scope.Valid ⟨params.scope⟩ → P (params.scope, params.key))
    (hW : OwnerActive session → Scope.Valid ⟨params.scope⟩ → (params.scope, params.key) ∈ W) :
    (writeTool C connect rng r session params).Moves (Stays I view W) := by
  refine .attempt_bind fun s hs => .attempt_bind fun _ howner => .attempt_bind fun T hT =>
    .attempt_bind fun store hstore => ?_
  rw [okOr_eq_ok_iff] at hs
  rw [require_eq_ok_iff] at howner
  rw [mapFault_eq_ok_iff, Scope.new_eq_ok_iff] at hT
  obtain ⟨rfl, hv⟩ := hT
  rw [mapFault_eq_ok_iff] at hstore
  exact moves_of_write hB hstore r (hP hv) (hW ⟨s, hs, howner⟩ hv) _ fun _ => Program.moves_pure _

theorem proposeTool_moves {session : Option Session} {params : ProposeParams} (r : ρ)
    (hP : Scope.Valid ⟨params.scope⟩ → P (params.scope, params.key))
    (hW : OwnerActive session → Scope.Valid ⟨params.scope⟩ → (params.scope, params.key) ∈ W) :
    (proposeTool C connect rng r session params).Moves (Stays I view W) := by
  refine .attempt_bind fun s hs => .attempt_bind fun T hT => ?_
  rw [okOr_eq_ok_iff] at hs
  rw [requestScope, mapFault_eq_ok_iff, Scope.new_eq_ok_iff] at hT
  obtain ⟨rfl, hv⟩ := hT
  cases hrole : s.role with
  | agent => exact Program.moves_pure _
  | owner =>
    refine .attempt_bind fun store hstore => ?_
    rw [mapFault_eq_ok_iff] at hstore
    exact moves_of_write hB hstore r (hP hv) (hW ⟨s, hs, hrole⟩ hv) _ fun _ => Program.moves_pure _

theorem syncTool_moves {session : Option Session} {entries : List (SyncEntry × ρ)}
    (hP : ∀ p ∈ entries, Scope.Valid ⟨p.1.scope⟩ → P p.1.place)
    (hW : OwnerActive session → ∀ p ∈ entries, Scope.Valid ⟨p.1.scope⟩ → p.1.place ∈ W) :
    (syncTool m C E connect rng session entries).Moves (Stays I view W) := by
  refine .attempt_bind fun s hs => ?_
  rw [okOr_eq_ok_iff] at hs
  split_ifs
  · exact Program.moves_pure _
  · refine .attempt_bind fun loaded hload => ?_
    obtain ⟨reader, k⟩ := loaded
    refine Program.Moves.bind (.foldlM (fun counts p hp => ?_) _) fun _ => Program.moves_pure _
    unfold syncEntry
    cases hscope : Scope.new p.1.scope with
    | error fault =>
      cases fault with
      | err e => exact Program.moves_pure _
      | panic => exact Program.moves_attempt _
    | ok T =>
      obtain ⟨rfl, hv⟩ := (Scope.new_eq_ok_iff _ _).mp hscope
      have hread : (reader.read m k ⟨p.1.scope⟩ p.1.key).Moves (Stays I view W) :=
        readMemory_moves (localPuts_of_loadReader hB hload) _ _ _ (hP p hp hv)
      refine hread.result.bind fun existing => ?_
      split_ifs
      · exact Program.moves_pure _
      · unfold commitEntry
        cases hrole : s.role with
        | agent => exact Program.moves_pure _
        | owner =>
          refine .attempt_bind fun store hstore => ?_
          rw [mapFault_eq_ok_iff] at hstore
          have hwrite : (store.write rng p.2 ⟨p.1.scope⟩ p.1.key (toUtf8 p.1.content)).Moves
              (Stays I view W) :=
            store.write_moves (localPuts_of_memoryStore hB hstore) rng p.2 (hP p hp hv)
              (hW ⟨s, hs, hrole⟩ p hp hv) _
          refine hwrite.result.bind fun res => ?_
          cases res <;> exact Program.moves_pure _

end Frames

/-- The session that a request asks for. -/
def ToolCall.Asks (hexDecode : String → Except String Bytes) (session : Session) :
    ToolCall ρ → Prop
  | .setup _ params => buildSessionFromConfig hexDecode params.config = some session
  | .login params => ∃ scope : Scope, scope.Valid ∧ scope.path = params.scope ∧
      params.session hexDecode scope = .ok session
  | _ => False

/-- The request has a spend seed. -/
def ToolCall.GivesSeed : ToolCall ρ → Prop
  | .setup _ params => params.spendSeed ≠ none
  | .login params => params.spendSeed ≠ none
  | _ => False

/-- Only a request with a seed asks for an owner's session. -/
lemma ToolCall.Asks.givesSeed {hexDecode : String → Except String Bytes} {session : Session}
    {op : ToolCall ρ} (h : op.Asks hexDecode session) (hrole : session.role = .owner) :
    op.GivesSeed := by
  cases op with
  | setup os params =>
    rcases buildSessionFromConfig_cases h with ⟨hseed, _⟩ | ⟨_, _, _, _, _, _, rfl⟩
    · exact hseed
    · cases hrole
  | login params =>
    obtain ⟨_, _, _, h⟩ := h
    rcases LoginParams.session_cases h with ⟨hseed, _⟩ | ⟨_, _, _, _, _, _, rfl⟩
    · exact hseed
    · cases hrole
  | _ => exact h.elim

lemma ToolCall.Asks.scope_valid {hexDecode : String → Except String Bytes} {session : Session}
    {op : ToolCall ρ} (h : op.Asks hexDecode session) : session.scope.Valid := by
  cases op with
  | setup os params =>
    rw [buildSessionFromConfig_scope h]
    exact Scope.root_valid
  | login params =>
    obtain ⟨scope, hv, _, h⟩ := h
    rcases LoginParams.session_cases h with ⟨_, _, _, _, rfl⟩ | ⟨_, _, _, _, _, _, rfl⟩ <;> exact hv
  | _ => exact h.elim

/-- The storage of the one world is related to that of the other. -/
def World.OfStorage (R : σ → σ → Prop) (w w' : World σ) : Prop := R w.storage w'.storage

section Storage

variable {R : σ → σ → Prop} {ε α : Type}

instance [IsPreorder σ R] : IsPreorder (World σ) (World.OfStorage R) where
  refl w := refl_of R w.storage
  trans _ _ _ h h' := trans_of R h h'

lemma moves_onStorage {p : Program ε σ α} (h : p.Moves R) :
    (World.onStorage p).Moves (World.OfStorage R) := fun w => h w.storage

/-- A program that leaves the storage alone. -/
lemma moves_of_storage [IsPreorder σ R] {p : Program ε (World σ) α}
    (h : ∀ w, (p.exec w).2.storage = w.storage) : p.Moves (World.OfStorage R) := by
  intro w
  rw [World.OfStorage, h w]
  exact refl_of R w.storage

end Storage

namespace Server

variable {C : Crypto (Vector UInt8)} {self : Server C σ ρ} {P : Spot → Prop} {I small : σ → Prop}
  {view : σ → Contents} {W : Set Spot}

/-- A handler changes only what its request may write in an owner's session. -/
theorem handler_stays (hB : ∀ url apiKey, LocalPuts (self.connect url apiKey) P I small view)
    {session : Option Session} {op : ToolCall ρ} {w : World σ} (hI : I w.storage)
    (hop : op.Meets P (small w.storage))
    (hW : OwnerActive session → ∀ q ∈ op.places, Scope.Valid ⟨q.1⟩ → q ∈ W) :
    I ((self.handler session op).exec w).2.storage ∧
      ∀ q ∉ W, view ((self.handler session op).exec w).2.storage q = view w.storage q := by
  -- A request that lists moves between states that are small enough.
  have hlists {α : Type} {p : Program McpError (World σ) α}
      (h : p.Moves (World.OfStorage (Stays (fun s => I s ∧ small s) view W)))
      (hsmall : small w.storage) :
      I (p.exec w).2.storage ∧ ∀ q ∉ W, view (p.exec w).2.storage q = view w.storage q :=
    (h w ⟨hI, hsmall⟩).imp_left And.left
  have hcount (session : Session) (f : String → McpError) :
      (World.onStorage ((countMemories self.m C self.keyText self.connect session).mapError
        f)).Moves (World.OfStorage (Stays (fun s => I s ∧ small s) view W)) :=
    moves_onStorage ((countMemories_moves hB session).mapError f)
  cases op with
  | setup os params =>
    refine hlists (.map (.attempt_bind fun prepared _ => ?_) _) hop
    obtain ⟨session, path, data⟩ := prepared
    refine Program.Moves.bind (moves_of_storage fun _ => rfl) fun _ =>
      .bind (moves_of_storage fun _ => rfl) fun _ => (hcount session _).bind fun _ => ?_
    exact .bind (moves_of_storage fun _ => rfl) fun _ => Program.moves_pure _
  | login params =>
    refine hlists (.map (.attempt_bind fun _ _ => .attempt_bind fun session _ => ?_) _) hop
    refine (hcount session _).bind fun _ => ?_
    exact .bind (moves_of_storage fun _ => rfl) fun _ => Program.moves_pure _
  | list => exact hlists (moves_onStorage ((listMemoriesTool_moves hB session).map _)) hop
  | listResources => exact hlists (moves_onStorage ((listResources_moves hB session).map _)) hop
  | read params => exact moves_onStorage ((readTool_moves hB session hop).map _) w hI
  | readResource uri => exact moves_onStorage ((readResource_moves hB session hop).map _) w hI
  | write r params =>
    refine moves_onStorage ((writeTool_moves hB r hop fun ho hv => ?_).map _) w hI
    exact hW ho _ (List.mem_singleton_self _) hv
  | propose r params =>
    refine moves_onStorage ((proposeTool_moves hB r hop fun ho hv => ?_).map _) w hI
    exact hW ho _ (List.mem_singleton_self _) hv
  | sync entries =>
    refine moves_onStorage ((syncTool_moves hB hop fun ho p hp hv => ?_).map _) w hI
    exact hW ho _ (List.mem_map_of_mem hp) hv
  | logout =>
    have hlogout : (logout : Program McpError (World σ) String).Moves
        (World.OfStorage (Stays I view W)) :=
      Program.moves_get.bind fun _ => .attempt_bind fun _ _ =>
        .bind (moves_of_storage fun _ => rfl) fun _ => Program.moves_pure _
    exact hlogout.map _ w hI
  | grant params => exact ⟨hI, fun _ _ => rfl⟩
  | status => exact ⟨hI, fun _ _ => rfl⟩

/-- A request keeps the storage good, and a place that it changed was written by it in an owner's
session. -/
theorem step_stays (hB : ∀ url apiKey, LocalPuts (self.connect url apiKey) P I small view)
    {w : World σ} {op : ToolCall ρ} (hI : I w.storage) (hop : op.Meets P (small w.storage)) :
    I (self.step w op).storage ∧
      ∀ q, view (self.step w op).storage q ≠ view w.storage q →
        OwnerActive w.activeSession ∧ op.Writes q := by
  let W : Set Spot := {q | OwnerActive w.activeSession ∧ op.Writes q}
  obtain ⟨hI', hview⟩ := handler_stays (W := W) hB hI hop
    fun ho q hq hv => (⟨ho, hq, hv⟩ : OwnerActive w.activeSession ∧ op.Writes q)
  refine ⟨hI', fun q hne => ?_⟩
  by_contra hq
  exact hne (hview q hq)

/-- A request leaves the session, ends it, or installs the one that it asks for. -/
theorem step_session (self : Server C σ ρ) (w : World σ) (op : ToolCall ρ) :
    (self.step w op).activeSession = w.activeSession ∨ (self.step w op).activeSession = none ∨
      ∃ session, (self.step w op).activeSession = some session ∧
        op.Asks self.hexDecode session := by
  have hkeep {w' : World σ} (h : w'.service = w.service) : w'.activeSession = w.activeSession := by
    rw [World.activeSession, h]
    rfl
  unfold step
  rw [exec_call]
  cases op with
  | setup os params =>
    simp only [handler, Program.exec_map]
    cases hexec : (setup self.m C self.keyText self.connect self.hexDecode self.serde os
        params).exec w with
    | mk r w' =>
      obtain ⟨hkept, hinstalled⟩ := setup_frame hexec
      cases r with
      | error fault => exact .inl (hkeep (hkept nofun))
      | ok text =>
        obtain ⟨session, count, hbuild, hw'⟩ := hinstalled text rfl
        exact .inr (.inr ⟨session, by rw [World.activeSession, hw']; rfl, hbuild⟩)
  | login params =>
    simp only [handler, Program.exec_map]
    cases hexec : (login self.m C self.keyText self.connect self.hexDecode params).exec w with
    | mk r w' =>
      obtain ⟨hkept, hinstalled⟩ := login_frame hexec
      cases r with
      | error fault => exact .inl (hkeep (hkept nofun))
      | ok text =>
        obtain ⟨scope, session, count, hscope, hsession, hw'⟩ := hinstalled text rfl
        have hv : scope.Valid := by
          obtain ⟨T, hT, _⟩ | ⟨_, _, hr, _⟩ := Program.exec_bind_cases hexec
          · rw [Program.exec_attempt, mapFault_eq_ok_iff, Scope.new_eq_ok_iff] at hT
            obtain ⟨rfl, hv⟩ := hT
            rwa [← hscope] at hv
          · cases hr
        exact .inr (.inr ⟨session, by rw [World.activeSession, hw']; rfl, scope, hv, hscope,
          hsession⟩)
  | logout =>
    simp only [handler, Program.exec_map, logout, Program.exec_bind, Program.exec_get,
      Program.exec_attempt]
    cases require (w.service.session.isSome = true)
      (McpError.invalidParams "no active session") with
    | error fault => exact .inl rfl
    | ok _ => exact .inr (.inl rfl)
  | _ => exact .inl rfl

/-- An owner's session was active before the request, or the request gives a seed. -/
theorem ownerActive_of_step {w : World σ} {op : ToolCall ρ}
    (h : OwnerActive (self.step w op).activeSession) :
    OwnerActive w.activeSession ∨ op.GivesSeed := by
  rcases self.step_session w op with hs | hs | ⟨session, hs, hasks⟩
  · exact .inl (hs ▸ h)
  · obtain ⟨_, hsome, _⟩ := h
    rw [hs] at hsome
    cases hsome
  · obtain ⟨_, hsome, hrole⟩ := h
    obtain rfl := Option.some.inj (hs.symm.trans hsome)
    exact .inr (hasks.givesSeed hrole)

/-- Without a request that gives a seed, no owner's session becomes active. -/
lemma not_ownerActive_run {w : World σ} {ops : List (ToolCall ρ)}
    (hops : ∀ op ∈ ops, ¬ op.GivesSeed) (hw : ¬ OwnerActive w.activeSession) :
    ¬ OwnerActive (Runs.run self.step w ops).activeSession :=
  Runs.run_invariant (fun w : World σ => ¬ OwnerActive w.activeSession) ops
    (fun op hop _ h ho => (ownerActive_of_step ho).elim h (hops op hop)) hw

/-- A place at which a run changed the storage was written by a request in an owner's session. -/
lemma exists_write_of_run_ne
    (hB : ∀ url apiKey, LocalPuts (self.connect url apiKey) P I small view) {w : World σ}
    (hI : I w.storage) {ops : List (ToolCall ρ)}
    (hops : Runs.Meets self.step (fun w op => op.Meets P (small w.storage)) w ops) {q : Spot}
    (h : view (Runs.run self.step w ops).storage q ≠ view w.storage q) :
    ∃ before op after, ops = before ++ op :: after ∧
      OwnerActive (Runs.run self.step w before).activeSession ∧ op.Writes q := by
  induction ops generalizing w with
  | nil => exact absurd rfl h
  | cons op ops ih =>
    obtain ⟨hI', hwrites⟩ := step_stays hB hI hops.1
    by_cases hfirst : view (self.step w op).storage q = view w.storage q
    · rw [Runs.run_cons, ← hfirst] at h
      obtain ⟨before, op', after, rfl, ho, hw⟩ := ih hI' hops.2 h
      exact ⟨op :: before, op', after, rfl, ho, hw⟩
    · obtain ⟨ho, hw⟩ := hwrites q hfirst
      exact ⟨[], op, ops, rfl, ho, hw⟩

/-- A place at which a run changed the storage has a valid scope and was named by a request that
may write, made in an owner's session. Where no request gives a seed and no owner's session is
active to begin with, a run changes nothing that is stored. -/
theorem storage_changes_by_owner (self : Server C σ ρ)
    (hB : ∀ url apiKey, LocalPuts (self.connect url apiKey) P I small view) (w : World σ)
    (hI : I w.storage) (ops : List (ToolCall ρ))
    (hops : Runs.Meets self.step (fun w op => op.Meets P (small w.storage)) w ops) :
    (∀ q, view (Runs.run self.step w ops).storage q ≠ view w.storage q →
      ∃ before op after, ops = before ++ op :: after ∧
        OwnerActive (Runs.run self.step w before).activeSession ∧ op.Writes q) ∧
    ((∀ op ∈ ops, ¬ op.GivesSeed) → ¬ OwnerActive w.activeSession →
      ∀ w', Runs.Reached self.step w ops w' →
        ¬ OwnerActive w'.activeSession ∧ view w'.storage = view w.storage) := by
  refine ⟨fun q => exists_write_of_run_ne hB hI hops, fun hseed hw w' hreached => ?_⟩
  obtain ⟨before, hbefore, rfl⟩ := hreached
  have hno : ∀ prior, prior <+: before →
      ¬ OwnerActive (Runs.run self.step w prior).activeSession := fun prior hprior =>
    not_ownerActive_run (fun op hop => hseed op ((hprior.trans hbefore).subset hop)) hw
  refine ⟨hno before List.prefix_rfl, funext fun q => ?_⟩
  by_contra hne
  obtain ⟨prior, op, after, rfl, ho, _⟩ :=
    exists_write_of_run_ne hB hI (hops.of_prefix hbefore) hne
  exact hno prior (List.prefix_append _ _) ho

end Server

/-- The transparent primitives with a limit on the size of a payload and the real Base58 text. -/
def textArrays (max : ℕ) : Crypto (Vector UInt8) :=
  { limitedArrays max with base58 := base58Arrays.base58 }

lemma textArrays_seals (max : ℕ) (h : max ≤ 2 ^ 62) : (textArrays max).Seals max where
  correct := ⟨(limitedArrays_correct max).dh_comm, (limitedArrays_correct max).chacha,
    (limitedArrays_correct max).aes, (limitedArrays_correct max).verify_sign⟩
  roundtrip _ := rfl
  wraps := Transparent.aead_accepts 32
  wrapsTagged := Transparent.aead_tagged
  takes := limitedArrays_takesUpTo max
  tagged := (limitedArrays_seals max h).tagged
  max_le := h

section Documents
open FileverseBackend

/-- A server with one document server behind it, for memories of up to 64 bytes. -/
def clientServer : Server (textArrays 64) ClientState ℕ where
  m := .wrapping
  keyText := base58Text
  connect _ _ := client textServer standard
  rng := Transparent.rng packArray
  hexDecode := Hex.decode
  serde := prettySerde

/-- Nothing is stored, and the owner's session at the root is active. -/
def ownedWorld : World ClientState :=
  ⟨⟨some ⟨Session.newOwner (zeros 32) Scope.root "" "", 0⟩, false⟩, ([], fun _ => answered),
    fun _ => none⟩

/-- A memory below the scope `/a`, and one that is not. -/
def twoMemories : List (ToolCall ℕ) :=
  [.write 0 ⟨['/', 'a'], ['x'], ['1']⟩, .propose 0 ⟨['/'], ['y'], ['2'], "claude-code"⟩]

/-- The same with an agent's session. -/
def agentWorld : World ClientState :=
  ⟨⟨some ⟨Session.newAgent "" "" Scope.root "" "", 0⟩, false⟩, ([], fun _ => answered),
    fun _ => none⟩

lemma textServer_mapOn : MapOn (client textServer standard) Fits
    (fun s => Shelved standard s.1 ∧ ∀ n, (s.2 n).fate = .answered) (fun s => s.1.length ≤ 1000)
    (fun s => shelf standard s.1) :=
  client_mapOn textServer fun _ _ h => decide_eq_true h.isInfix

/-- An agent that asks for both stores none. -/
theorem storage_changes_by_owner_agent :
    docsView standard (Runs.run clientServer.step agentWorld twoMemories).storage.1 =
      fun _ => none := by
  have hseed : ∀ op ∈ twoMemories, ¬ op.GivesSeed := by
    intro op hop
    simp only [twoMemories, List.mem_cons, List.not_mem_nil, or_false] at hop
    rcases hop with rfl | rfl <;> exact id
  have hops : Runs.Meets clientServer.step
      (fun w op => op.Meets Fits (w.storage.1.length ≤ 1000)) agentWorld twoMemories :=
    ⟨fun _ => (by decide), fun _ => (by decide), trivial⟩
  obtain ⟨_, hkept⟩ := Server.storage_changes_by_owner clientServer
    (fun _ _ => textServer_mapOn.localPuts) agentWorld ⟨shelved_nil standard, fun _ => rfl⟩
    twoMemories hops
  exact (hkept hseed nofun _ (Runs.reached_run _ _ _)).2.trans (funext (docsView_nil standard))

end Documents

end ReadOnlyKeys
