import ReadOnlyKeys.Encoding
import ReadOnlyKeys.Memory
import ReadOnlyKeys.ScopeValues

/-!
# Sessions of the tool server

An owner's session holds the spend seed, an agent's a delegated read key and the
public half of the spend key, both as text. The keys are loaded from the
credentials by every request that needs them.
-/
namespace ReadOnlyKeys
open Outcome Wire

variable {σ : Type}

/-- An error that the tool server answers with. -/
inductive McpError where
  | invalidParams (message : String)
  | internalError (message : String)
  deriving DecidableEq, Repr

/-- What a session may do. -/
inductive Role where
  /-- Reads, writes and grants. -/
  | owner
  /-- Reads and proposes. -/
  | agent
  deriving DecidableEq, Repr

structure Credentials where
  fileverseUrl : String
  apiKey : String
  spendSeed : Option (Vector UInt8 32)
  readKeyEncoded : Option String
  spendPublicEncoded : Option String

/-- An active session. -/
structure Session where
  role : Role
  scope : Scope
  credentials : Credentials

namespace Session

def newOwner (spendSeed : Vector UInt8 32) (scope : Scope) (fileverseUrl apiKey : String) :
    Session where
  role := .owner
  scope := scope
  credentials := ⟨fileverseUrl, apiKey, some spendSeed, none, none⟩

def newAgent (readKeyEncoded spendPublicEncoded : String) (scope : Scope)
    (fileverseUrl apiKey : String) : Session where
  role := .agent
  scope := scope
  credentials := ⟨fileverseUrl, apiKey, none, some readKeyEncoded, some spendPublicEncoded⟩

section Keys

variable (C : Crypto (Vector UInt8)) (E : KeyText) (self : Session)

/-- Load the spend key, which only an owner has. -/
def spendKey : Except (Fault String) (SpendKeyPair C) := do
  let seed ← okOr self.credentials.spendSeed "no spend seed — session is agent role"
  return SpendKeyPair.fromSeed C seed

/-- Load the read key of an agent, or derive that of an owner. -/
def readKey : Except (Fault String) (ReadKeyPair C) :=
  match self.role with
  | .owner => do
    let spend ← self.spendKey C
    let root := spend.deriveRootReadKey
    if self.scope = Scope.root then return root
    else mapFault (root.deriveChild self.scope) RokError.display
  | .agent => do
    let encoded ← okOr self.credentials.readKeyEncoded "no read key in agent session"
    let exported ← mapFault (Encoding.decodeExportedReadKey E encoded) RokError.display
    mapFault (ReadKeyPair.importKey C exported) RokError.display

/-- The key that checks signatures. -/
def spendVerifyingKey : Except (Fault String) C.VerifyingKey :=
  match self.role with
  | .owner => do
    let spend ← self.spendKey C
    return spend.verifyingKey
  | .agent => do
    let encoded ← okOr self.credentials.spendPublicEncoded "no spend public in agent session"
    mapFault (Encoding.decodeSpendPublic C E encoded) RokError.display

/-- A backend for a server address and the key of its interface. -/
abbrev Connect (σ : Type) := (fileverseUrl apiKey : String) → StorageBackend σ

def backend (connect : Connect σ) : StorageBackend σ :=
  connect self.credentials.fileverseUrl self.credentials.apiKey

def memoryStore (connect : Connect σ) : Except (Fault String) (MemoryStore C σ) := do
  let spend ← self.spendKey C
  return ⟨spend, self.backend connect⟩

def memoryReader (connect : Connect σ) : Except (Fault String) (MemoryReader C σ) := do
  let vk ← self.spendVerifyingKey C E
  return ⟨vk, self.backend connect⟩

/-- The reader and the read key, which a request loads in this order. -/
def loadReader (connect : Connect σ) :
    Except (Fault McpError) (MemoryReader C σ × ReadKeyPair C) := do
  let reader ← mapFault (self.memoryReader C E connect) McpError.internalError
  let readKey ← mapFault (self.readKey C E) McpError.internalError
  return (reader, readKey)

end Keys

variable {C : Crypto (Vector UInt8)} {E : KeyText} {connect : Connect σ}

theorem memoryStore_newOwner (seed : Vector UInt8 32) (scope : Scope) (url apiKey : String) :
    (newOwner seed scope url apiKey).memoryStore C connect =
      .ok ⟨SpendKeyPair.fromSeed C seed, connect url apiKey⟩ := rfl

/-- The read key of an owner is its key for the scope of the session. -/
theorem readKey_newOwner (seed : Vector UInt8 32) (scope : Scope) (url apiKey : String) :
    (newOwner seed scope url apiKey).readKey C E =
      mapFault (if scope = Scope.root then .ok (SpendKeyPair.fromSeed C seed).deriveRootReadKey
        else (SpendKeyPair.fromSeed C seed).deriveRootReadKey.deriveChild scope)
          RokError.display := by
  by_cases hroot : scope = Scope.root
  · rw [if_pos hroot]
    exact if_pos hroot
  · rw [if_neg hroot]
    exact if_neg hroot

/-- The read key of an agent is the one in its text, whatever the scope of the session. -/
theorem readKey_newAgent {rk : String} {exported : ExportedReadKey (Vector UInt8)}
    {k : ReadKeyPair C} (hdecode : Encoding.decodeExportedReadKey E rk = .ok exported)
    (himport : ReadKeyPair.importKey C exported = .ok k) (sp : String) (scope : Scope)
    (url apiKey : String) : (newAgent rk sp scope url apiKey).readKey C E = .ok k := by
  simp only [readKey, newAgent, okOr_some, ok_bind, hdecode, mapFault_ok, himport]

theorem memoryReader_newAgent {sp : String} {vk : C.VerifyingKey}
    (hdecode : Encoding.decodeSpendPublic C E sp = .ok vk) (connect : Connect σ) (rk : String)
    (scope : Scope) (url apiKey : String) :
    (newAgent rk sp scope url apiKey).memoryReader C E connect = .ok ⟨vk, connect url apiKey⟩ := by
  simp only [memoryReader, spendVerifyingKey, newAgent, okOr_some, ok_bind, hdecode, mapFault_ok]
  rfl

theorem spendKey_ne_panic (self : Session) : self.spendKey C ≠ .error .panic := by
  intro h
  rw [spendKey, bind_eq_panic_iff] at h
  rcases h with h | ⟨_, _, h⟩
  · exact okOr_ne_panic _ _ h
  · cases h

/-- Loading a reader never panics. -/
theorem memoryReader_ne_panic (self : Session) :
    self.memoryReader C E connect ≠ .error .panic := by
  intro h
  rw [memoryReader, bind_eq_panic_iff] at h
  rcases h with h | ⟨_, _, h⟩
  · unfold spendVerifyingKey at h
    cases hrole : self.role with
    | owner =>
      simp only [hrole, bind_eq_panic_iff, spendKey_ne_panic, false_or] at h
      obtain ⟨_, _, h⟩ := h
      cases h
    | agent =>
      simp only [hrole, bind_eq_panic_iff, okOr_ne_panic, mapFault_eq_panic_iff,
        Encoding.decodeSpendPublic_ne_panic, false_or, and_false, exists_false] at h
  · cases h

/-- Loading the read key of a session with a valid scope never panics. -/
theorem readKey_ne_panic {self : Session} (hv : self.scope.Valid) :
    self.readKey C E ≠ .error .panic := by
  intro h
  unfold readKey at h
  cases hrole : self.role with
  | owner =>
    simp only [hrole, bind_eq_panic_iff, spendKey_ne_panic, false_or] at h
    obtain ⟨spend, _, h⟩ := h
    split_ifs at h with hroot
    · cases h
    · rw [mapFault_eq_panic_iff, ReadKeyPair.deriveChild, bind_eq_panic_iff] at h
      simp only [require_ne_panic, bind_eq_panic_iff, false_or] at h
      rcases h with ⟨_, _, h | ⟨_, _, h⟩⟩
      · exact (Scope.root_valid.derivesRight C hv).returns _ h
      · cases h
  | agent =>
    simp only [hrole, bind_eq_panic_iff, okOr_ne_panic, mapFault_eq_panic_iff,
      Encoding.decodeExportedReadKey_ne_panic, ReadKeyPair.importKey_ne_panic, false_or, and_false,
      exists_false] at h

/-- An owner's session loads a genuine key of its scope. -/
theorem loadReader_newOwner (hR : C.StaticRoundtrip) (E : KeyText) (connect : Connect σ)
    (seed : Vector UInt8 32) {scope : Scope} (hv : scope.Valid) (url apiKey : String) :
    ∃ k : ReadKeyPair C, k.Genuine (SpendKeyPair.fromSeed C seed) ∧ k.scope = scope ∧
      (newOwner seed scope url apiKey).loadReader C E connect =
        .ok (⟨(SpendKeyPair.fromSeed C seed).verifyingKey, connect url apiKey⟩, k) := by
  obtain ⟨k, hk⟩ := ReadKeyPair.exists_scopeKey (SpendKeyPair.fromSeed C seed) hv.sliceable
  obtain ⟨hgenuine, hscope⟩ := ReadKeyPair.genuine_of_scopeKey hR hk
  refine ⟨k, hgenuine, hscope, ?_⟩
  rw [loadReader, readKey_newOwner, hk]
  rfl

/-- What an agent's session loads reads its backend, and has a valid scope. -/
theorem loadReader_newAgent {readKeyEncoded spendPublicEncoded url apiKey : String} {scope : Scope}
    {reader : MemoryReader C σ} {k : ReadKeyPair C}
    (h : (newAgent readKeyEncoded spendPublicEncoded scope url apiKey).loadReader C E connect =
      .ok (reader, k)) : reader.backend = connect url apiKey ∧ k.scope.Valid := by
  simp only [loadReader, bind_eq_ok_iff, mapFault_eq_ok_iff] at h
  obtain ⟨r, hr, k', hk, h⟩ := h
  obtain ⟨rfl, rfl⟩ := Prod.mk.inj (Except.ok.inj h)
  constructor
  · rw [memoryReader, bind_eq_ok_iff] at hr
    obtain ⟨vk, _, hr⟩ := hr
    rw [← Except.ok.inj hr]
    rfl
  · simp only [readKey, newAgent, okOr_some, ok_bind, bind_eq_ok_iff, mapFault_eq_ok_iff] at hk
    obtain ⟨exported, hdecode, himport⟩ := hk
    obtain ⟨_, rfl⟩ := (ReadKeyPair.importKey_eq_ok_iff _ _).mp himport
    exact Encoding.scope_valid_of_decodeExportedReadKey hdecode

end Session

end ReadOnlyKeys
