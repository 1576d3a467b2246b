import ReadOnlyKeys.Session
import ReadOnlyKeys.Lib.Utf8
import Mathlib.Logic.Function.Basic

/-!
# The service and its session

The service holds at most one session. A session is built from the configuration
file when the server starts, and from parameters by the tools. It is installed
once its memories have been counted.
-/
namespace ReadOnlyKeys
open Outcome Wire

variable {σ : Type}

/-- `Display`. -/
def Role.display : Role → String
  | .owner => "owner"
  | .agent => "agent"

/-- A session with the count of memories that it was installed with. -/
structure ActiveSession extends Session where
  memoryCount : ℕ

structure RokService where
  session : Option ActiveSession
  autoLoad : Bool

/-- The contents of the files, by their paths. -/
abbrev Disk := List Char → Option Bytes

/-- What the tools act on: the service, the storage server and the files. -/
structure World (σ : Type) where
  service : RokService
  storage : σ
  disk : Disk

namespace World

def onStorage {ε α : Type} (p : Program ε σ α) : Program ε (World σ) α :=
  p.within World.storage fun storage w => { w with storage }

def onDisk {ε α : Type} (p : Program ε Disk α) : Program ε (World σ) α :=
  p.within World.disk fun disk w => { w with disk }

/-- Replace the session. -/
def setSession {ε : Type} (session : Option ActiveSession) : Program ε (World σ) PUnit :=
  Program.effect fun w => (.ok ⟨⟩, { w with service := { w.service with session } })

@[simp] theorem exec_onStorage {ε α : Type} (p : Program ε σ α) (w : World σ) :
    (onStorage p).exec w = ((p.exec w.storage).1, { w with storage := (p.exec w.storage).2 }) :=
  Program.exec_within ..

@[simp] theorem exec_onDisk {ε α : Type} (p : Program ε Disk α) (w : World σ) :
    (onDisk p).exec w = ((p.exec w.disk).1, { w with disk := (p.exec w.disk).2 }) :=
  Program.exec_within ..

@[simp] theorem exec_setSession {ε : Type} (session : Option ActiveSession) (w : World σ) :
    (setSession session : Program ε (World σ) PUnit).exec w =
      (.ok ⟨⟩, { w with service := { w.service with session } }) := rfl

end World

/-- The configuration file, `~/.rok/session.json`. -/
structure SessionConfig where
  apiKey : Option String
  fileverseUrl : Option String
  spendSeed : Option String
  readKey : Option String
  spendPublic : Option String
  autoLoad : Option Bool

structure LoginParams where
  apiKey : String
  fileverseUrl : String
  spendSeed : Option String
  readKey : Option String
  spendPublic : Option String
  scope : List Char

def defaultFileverseUrl : String := "http://127.0.0.1:8001"

def defaultScope : List Char := ['/']

section Build

variable (hexDecode : String → Except String Bytes)

def buildSessionFromConfig (cfg : SessionConfig) : Option Session := do
  let url := cfg.fileverseUrl.getD defaultFileverseUrl
  let apiKey ← cfg.apiKey
  match cfg.spendSeed, cfg.readKey, cfg.spendPublic with
  | some seedHex, _, _ => do
    let seedBytes ← (hexDecode seedHex).toOption
    let seed ← ofSlice 32 seedBytes
    return Session.newOwner seed Scope.root url apiKey
  | none, some rk, some sp => return Session.newAgent rk sp Scope.root url apiKey
  | none, _, _ => none

/-- The service as it starts, with the configuration that was loaded. -/
def newWithConfig (config : Option SessionConfig) : RokService :=
  let autoLoad := (config.bind SessionConfig.autoLoad).getD false
  let session := config.bind (buildSessionFromConfig hexDecode)
  ⟨session.map fun session => ⟨session, 0⟩, autoLoad && session.isSome⟩

/-- The session that the parameters of a login ask for. -/
def LoginParams.session (self : LoginParams) (scope : Scope) : Except (Fault McpError) Session :=
  match self.spendSeed, self.readKey, self.spendPublic with
  | some seedHex, _, _ => do
    let seedBytes ← mapErr (hexDecode seedHex) fun e => .invalidParams s!"invalid hex: {e}"
    let seed ← okOr (ofSlice 32 seedBytes) (.invalidParams
      s!"spend seed must be 32 bytes (64 hex chars), got {seedBytes.length}")
    return Session.newOwner seed scope self.fileverseUrl self.apiKey
  | none, some rk, some sp => return Session.newAgent rk sp scope self.fileverseUrl self.apiKey
  | none, _, _ => .error (.err (.invalidParams
      "provide either spend_seed (owner) or read_key + spend_public (agent)"))

variable {hexDecode}

/-- A configuration with a seed makes an owner's session at the root, and one without makes an
agent's, with the read key that it names. -/
theorem buildSessionFromConfig_cases {cfg : SessionConfig} {session : Session}
    (h : buildSessionFromConfig hexDecode cfg = some session) :
    (cfg.spendSeed ≠ none ∧
      ∃ seed url apiKey, session = Session.newOwner seed Scope.root url apiKey) ∨
    (cfg.spendSeed = none ∧ ∃ rk sp url apiKey, cfg.readKey = some rk ∧
      session = Session.newAgent rk sp Scope.root url apiKey) := by
  rw [buildSessionFromConfig, Option.bind_eq_bind, Option.bind_eq_some_iff] at h
  obtain ⟨apiKey, _, h⟩ := h
  cases hseed : cfg.spendSeed with
  | some seedHex =>
    simp only [hseed, Option.bind_eq_bind, Option.bind_eq_some_iff] at h
    obtain ⟨_, _, seed, _, h⟩ := h
    exact .inl ⟨by simp, seed, _, apiKey, (Option.some.inj h).symm⟩
  | none =>
    cases hrk : cfg.readKey with
    | none => simp [hseed, hrk] at h
    | some rk =>
      cases hsp : cfg.spendPublic with
      | none => simp [hseed, hrk, hsp] at h
      | some sp =>
        simp only [hseed, hrk, hsp] at h
        exact .inr ⟨rfl, rk, sp, _, apiKey, rfl, (Option.some.inj h).symm⟩

theorem buildSessionFromConfig_scope {cfg : SessionConfig} {session : Session}
    (h : buildSessionFromConfig hexDecode cfg = some session) : session.scope = Scope.root := by
  rcases buildSessionFromConfig_cases h with ⟨_, _, _, _, rfl⟩ | ⟨_, _, _, _, _, _, rfl⟩ <;> rfl

/-- The same of the parameters of a login, with the scope that they name. -/
theorem LoginParams.session_cases {params : LoginParams} {scope : Scope} {session : Session}
    (h : params.session hexDecode scope = .ok session) :
    (params.spendSeed ≠ none ∧ ∃ seed url apiKey, session = Session.newOwner seed scope url apiKey) ∨
    (params.spendSeed = none ∧ ∃ rk sp url apiKey, params.readKey = some rk ∧
      session = Session.newAgent rk sp scope url apiKey) := by
  unfold LoginParams.session at h
  cases hseed : params.spendSeed with
  | some seedHex =>
    simp only [hseed, bind_eq_ok_iff] at h
    obtain ⟨_, _, seed, _, h⟩ := h
    exact .inl ⟨by simp, seed, _, _, (Except.ok.inj h).symm⟩
  | none =>
    cases hrk : params.readKey with
    | none => simp [hseed, hrk] at h
    | some rk =>
      cases hsp : params.spendPublic with
      | none => simp [hseed, hrk, hsp] at h
      | some sp =>
        simp only [hseed, hrk, hsp] at h
        exact .inr ⟨rfl, rk, sp, _, _, rfl, (Except.ok.inj h).symm⟩

end Build

section Tools

variable (m : Overflow) (C : Crypto (Vector UInt8)) (E : KeyText) (connect : Session.Connect σ)
  (hexDecode : String → Except String Bytes)

def countMemories (session : Session) : Program String σ ℕ := do
  let reader ← Program.attempt (session.memoryReader C E connect)
  let readKey ← Program.attempt (session.readKey C E)
  let entries ← (reader.list m readKey).mapError RokError.display
  return entries.length

/-- The tool `rok_memory:login`. -/
def login (params : LoginParams) : Program McpError (World σ) String := do
  let scope ← Program.attempt (mapFault (Scope.new params.scope) fun e =>
    .invalidParams s!"invalid scope: {e.display}")
  let session ← Program.attempt (params.session hexDecode scope)
  let count ← World.onStorage ((countMemories m C E connect session).mapError fun e =>
    .internalError s!"login failed: {e}")
  World.setSession (some ⟨session, count⟩)
  return s!"rok session started\n  role: {session.role.display}\n  scope: {scope.display}\n  memories: {count}"

/-- The tool `rok_memory:logout`. -/
def logout : Program McpError (World σ) String := do
  let w ← get
  Program.attempt (require (w.service.session.isSome = true) (.invalidParams "no active session"))
  World.setSession none
  return "rok session ended, credentials cleared"

/-- The report of a session in the tool `rok_memory:status`. -/
def statusText (role : Role) (scope : Scope) (memoryCount : ℕ) : String :=
  let capabilities := match role with
    | .owner => "read, write, grant, propose"
    | .agent => "read, propose (staged)"
  s!"rok session active\n  role: {role.display}\n  scope: {scope.display}\n  memories: {memoryCount}\n  capabilities: {capabilities}"

/-- The tool `rok_memory:status`. -/
def status (service : RokService) : String :=
  match service.session with
  | some session => statusText session.role session.scope session.memoryCount
  | none => "no active session"

/-- The first line of a dump. -/
def dumpHeader (count : ℕ) (scope : Scope) : String :=
  s!"[rok-memory] {count} memories loaded from scope {scope.display}:\n"

/-- What `--dump` prints of a memory. -/
def dumpEntry (entry : MemoryEntry) : List String :=
  [s!"--- {entry.scope.display} / {String.ofList entry.key} ---",
    String.ofList (fromUtf8Lossy entry.data), ""]

/-- The lines that `--dump` prints, with the configuration that was loaded. -/
def dumpMemories (config : Option SessionConfig) : Program String σ (List String) := do
  let config ← Program.attempt (okOr config "no ~/.rok/session.json found")
  if config.autoLoad.getD false = false then return []
  else do
    let session ← Program.attempt (okOr (buildSessionFromConfig hexDecode config)
      "invalid credentials in session.json")
    let reader ← Program.attempt (session.memoryReader C E connect)
    let readKey ← Program.attempt (session.readKey C E)
    let entries ← (reader.list m readKey).mapError RokError.display
    if entries = [] then return []
    else return dumpHeader entries.length session.scope :: entries.flatMap dumpEntry

/-- The keys of the session load, and the listing with them reports no error. -/
def Session.Counts (self : Session) (storage : σ) : Prop :=
  ∃ reader readKey, self.memoryReader C E connect = .ok reader ∧ self.readKey C E = .ok readKey ∧
    ¬ IsErr ((reader.list m readKey).exec storage).1

/-- Counting reports an error exactly where this fails. -/
theorem countMemories_isErr_iff {session : Session} (hv : session.scope.Valid) (storage : σ) :
    IsErr ((countMemories m C E connect session).exec storage).1 ↔
      ¬ session.Counts m C E connect storage := by
  unfold countMemories Session.Counts
  simp only [Program.isErr_exec_bind_iff, Program.exec_attempt, Prod.mk.injEq,
    Program.exec_mapError, Program.exec_pure, isErr_mapFault_iff, not_isErr_ok, and_false,
    exists_false, or_false]
  rw [isErr_iff_of_ne_panic session.memoryReader_ne_panic,
    isErr_iff_of_ne_panic (Session.readKey_ne_panic hv)]
  constructor
  · intro h hcounts
    obtain ⟨reader, readKey, hreader, hkey, hlist⟩ := hcounts
    rcases h with h | ⟨_, _, ⟨hr, rfl⟩, h | ⟨_, _, ⟨hk, rfl⟩, h⟩⟩
    · exact h reader hreader
    · exact h readKey hkey
    · obtain rfl := Except.ok.inj (hreader.symm.trans hr)
      obtain rfl := Except.ok.inj (hkey.symm.trans hk)
      exact hlist h
  · intro h
    by_contra hno
    push Not at hno
    obtain ⟨⟨reader, hreader⟩, hrest⟩ := hno
    obtain ⟨⟨readKey, hkey⟩, hlist⟩ := hrest reader storage ⟨hreader, rfl⟩
    exact h ⟨reader, readKey, hreader, hkey, hlist readKey storage ⟨hkey, rfl⟩⟩

variable {m C E connect hexDecode}

/-- A login that succeeds installs the session that its parameters ask for. Another leaves the
service as it was. -/
theorem login_frame {params : LoginParams} {w w' : World σ} {r : Except (Fault McpError) String}
    (h : (login m C E connect hexDecode params).exec w = (r, w')) :
    ((∀ text, r ≠ .ok text) → w'.service = w.service) ∧
      ∀ text, r = .ok text → ∃ scope session count, scope.path = params.scope ∧
        params.session hexDecode scope = .ok session ∧
          w'.service.session = some ⟨session, count⟩ := by
  unfold login at h
  obtain ⟨scope, hscope, h⟩ | ⟨e, _, rfl, rfl⟩ := Program.exec_bind_cases h
  · obtain ⟨session, hsession, h⟩ | ⟨e, _, rfl, rfl⟩ := Program.exec_bind_cases h
    · obtain ⟨count, _, h⟩ | ⟨e, _, rfl, rfl⟩ := Program.exec_bind_cases h
      · obtain ⟨rfl, rfl⟩ := Prod.mk.inj h
        rw [Program.exec_attempt, mapFault_eq_ok_iff, Scope.new_eq_ok_iff] at hscope
        exact ⟨fun hr => absurd rfl (hr _),
          fun _ _ => ⟨scope, session, count, congrArg Scope.path hscope.1, hsession, rfl⟩⟩
      · exact ⟨fun _ => rfl, nofun⟩
    · exact ⟨fun _ => rfl, nofun⟩
  · exact ⟨fun _ => rfl, nofun⟩

theorem countMemories_of_list {session : Session} {reader : MemoryReader C σ}
    {readKey : ReadKeyPair C} {entries : List MemoryEntry} {storage storage' : σ}
    (hreader : session.memoryReader C E connect = .ok reader)
    (hkey : session.readKey C E = .ok readKey)
    (hlist : (reader.list m readKey).exec storage = (.ok entries, storage')) :
    (countMemories m C E connect session).exec storage = (.ok entries.length, storage') := by
  simp only [countMemories, Program.exec_bind, Program.exec_attempt, hreader, hkey,
    Program.exec_mapError, hlist, mapFault_ok]
  rfl

/-- A login whose memories can be counted succeeds. -/
theorem login_of_countMemories {params : LoginParams} {scope : Scope} {session : Session} {n : ℕ}
    {w : World σ} {storage : σ} (hscope : Scope.new params.scope = .ok scope)
    (hsession : params.session hexDecode scope = .ok session)
    (hcount : (countMemories m C E connect session).exec w.storage = (.ok n, storage)) :
    ∃ text, (login m C E connect hexDecode params).exec w =
      (.ok text, { w with service := { w.service with session := some ⟨session, n⟩ }, storage }) := by
  simp only [login, Program.exec_bind, Program.exec_attempt, hscope, mapFault_ok, hsession,
    World.exec_onStorage, Program.exec_mapError, hcount, World.exec_setSession]
  exact ⟨_, rfl⟩

/-- A dump that prints anything begins with the scope of the session, and lists with its key. -/
theorem dumpMemories_eq_ok {cfg : SessionConfig} {lines : List String} {s s' : σ}
    (h : (dumpMemories m C E connect hexDecode (some cfg)).exec s = (.ok lines, s'))
    (hne : lines ≠ []) : ∃ session reader readKey entries,
      buildSessionFromConfig hexDecode cfg = some session ∧ session.readKey C E = .ok readKey ∧
        (reader.list m readKey).exec s = (.ok entries, s') ∧
          lines.head? = some (dumpHeader entries.length session.scope) ∧
            session.memoryReader C E connect = .ok reader := by
  rw [dumpMemories, okOr_some, Program.exec_attempt_bind] at h
  simp only at h
  split_ifs at h with hauto
  · obtain ⟨h, _⟩ := Prod.mk.inj h
    exact absurd (Except.ok.inj h).symm hne
  · simp only [Program.exec_bind_eq_ok_iff, Program.exec_attempt_eq_ok_iff, okOr_eq_ok_iff,
      Program.exec_mapError, Prod.mk.injEq, mapFault_eq_ok_iff] at h
    obtain ⟨session, _, ⟨hbuild, rfl⟩, reader, _, ⟨hreader, rfl⟩, readKey, _, ⟨hkey, rfl⟩, entries, _,
      ⟨hlist, rfl⟩, h⟩ := h
    split_ifs at h with hempty
    · obtain ⟨h, _⟩ := Prod.mk.inj h
      exact absurd (Except.ok.inj h).symm hne
    · obtain ⟨hlines, rfl⟩ := Prod.mk.inj h
      refine ⟨session, reader, readKey, entries, hbuild, hkey, Prod.ext hlist rfl, ?_, hreader⟩
      rw [← Except.ok.inj hlines]
      rfl

end Tools

end ReadOnlyKeys
