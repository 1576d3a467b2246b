import ReadOnlyKeys.Session
import ReadOnlyKeys.Lib.Utf8

/-!
# Memories as resources

A memory is advertised under an address made of its scope and its key, and a
reader of the address splits it at the last slash. The owner may store under any
key, also under one with a slash or an empty one.
-/
namespace ReadOnlyKeys
open Outcome Wire

variable {σ ρ : Type}

/-- `rok://memory`. -/
def uriHead : List Char := ['r', 'o', 'k', ':', '/', '/', 'm', 'e', 'm', 'o', 'r', 'y']

/-- Build a resource URI for a memory entry. -/
def memoryUri (entry : MemoryEntry) : List Char := uriHead ++ (entry.scope.path ++ '/' :: entry.key)

structure Resource where
  uri : List Char
  name : List Char
  description : String
  mimeType : String

/-- The description of a memory as a resource. -/
def memoryToResource (entry : MemoryEntry) : Resource where
  uri := memoryUri entry
  name := entry.scope.path ++ '/' :: entry.key
  description :=
    s!"Encrypted memory at scope {entry.scope.display} ({entry.data.length} bytes)"
  mimeType := "text/plain"

structure ResourceContents where
  text : List Char
  uri : List Char
  deriving DecidableEq

/-- The refusal of an address without a key. -/
def malformedUri (uri : List Char) : McpError :=
  .invalidParams
    s!"URI must be rok://memory/\x7bscope\x7d/\x7bkey\x7d, got: {String.ofList uri}"

/-- The scope and the key that an address names. -/
def parseUri (uri : List Char) : Except (Fault McpError) (List Char × List Char) := do
  let path ← okOr (uri.dropPrefix? uriHead) (.invalidParams s!"invalid URI: {String.ofList uri}")
  match rsplitOnce '/' path with
  | some (scopeStr, key) => do
    require (key ≠ []) (malformedUri uri)
    return (if scopeStr = [] then ['/'] else scopeStr, key)
  | none => .error (.err (malformedUri uri))

section Tools

variable (m : Overflow) (C : Crypto (Vector UInt8)) (E : KeyText) (connect : Session.Connect σ)

/-- Read the memory at a scope and key, as the contents of the resource at `uri`. -/
def Session.readContents (self : Session) (scope : Scope) (key uri : List Char) :
    Program McpError σ ResourceContents := do
  let (reader, readKey) ← Program.attempt (self.loadReader C E connect)
  let data ← (reader.read m readKey scope key).mapError fun e => .internalError e.display
  return ⟨fromUtf8Lossy data, uri⟩

/-- Advertise every memory that the session's key opens. -/
def listResources (session : Option Session) : Program McpError σ (List Resource) :=
  match session with
  | none => return []
  | some session => do
    let (reader, readKey) ← Program.attempt (session.loadReader C E connect)
    let entries ← (reader.list m readKey).mapError fun e => .internalError e.display
    return entries.map memoryToResource

def readResource (session : Option Session) (uri : List Char) :
    Program McpError σ ResourceContents := do
  let (scopeStr, key) ← Program.attempt (parseUri uri)
  let session ← Program.attempt (okOr session (.internalError "no active session"))
  let scope ← Program.attempt (mapFault (Scope.new scopeStr) fun e =>
    .invalidParams s!"invalid scope: {e.display}")
  session.readContents m C E connect scope key uri

structure WriteParams where
  scope : List Char
  key : List Char
  content : List Char

/-- The tool `rok_memory:write`. `r` is the state of the thread's generator. -/
def writeTool (rng : CryptoRng (Vector UInt8) ρ) (r : ρ) (session : Option Session)
    (params : WriteParams) : Program McpError σ String := do
  let session ← Program.attempt (okOr session
    (.invalidParams "no active session — call rok_memory:login first"))
  Program.attempt (require (session.role = .owner) (.invalidParams
    "write requires owner role — use rok_memory:propose to stage changes as agent"))
  let scope ← Program.attempt (mapFault (Scope.new params.scope) fun e =>
    .invalidParams s!"invalid scope: {e.display}")
  let store ← Program.attempt (mapFault (session.memoryStore C connect) .internalError)
  let id ← (store.write rng r scope params.key (toUtf8 params.content)).mapError fun e =>
    .internalError s!"write failed: {e.display}"
  return s!"stored {String.ofList params.scope}:{String.ofList params.key} (id: {String.ofList id.id})"

end Tools

/-- The key can stand behind the last slash of an address. -/
def Addressable (key : List Char) : Prop := key ≠ [] ∧ '/' ∉ key

instance (key : List Char) : Decidable (Addressable key) := inferInstanceAs (Decidable (_ ∧ _))

theorem parseUri_memoryUri {e : MemoryEntry} (hscope : e.scope.path ≠ [])
    (hkey : Addressable e.key) : parseUri (memoryUri e) = .ok (e.scope.path, e.key) := by
  have hprefix : (memoryUri e).dropPrefix? uriHead = some (e.scope.path ++ '/' :: e.key) :=
    List.dropPrefix?_eq_some_iff.mpr ⟨uriHead, rfl, by decide⟩
  rw [parseUri, hprefix, okOr_some, ok_bind]
  simp only [rsplitOnce_append_cons '/' _ hkey.2, require_of _ _ hkey.1, ok_bind, if_neg hscope]
  rfl

/-- Only a key of this form is ever read out of an address. -/
theorem addressable_of_parseUri {uri scopeStr key : List Char}
    (h : parseUri uri = .ok (scopeStr, key)) : Addressable key := by
  rw [parseUri, bind_eq_ok_iff] at h
  obtain ⟨path, _, h⟩ := h
  cases hsplit : rsplitOnce '/' path with
  | none =>
    rw [hsplit] at h
    cases h
  | some parts =>
    simp only [hsplit, bind_eq_ok_iff, require_eq_ok_iff] at h
    obtain ⟨_, hne, h⟩ := h
    obtain ⟨_, rfl⟩ := Prod.mk.inj (Except.ok.inj h)
    exact ⟨hne, notMem_of_rsplitOnce hsplit⟩

/-- The address of a memory tells its scope and its key, if the key has the form. -/
theorem eq_of_memoryUri_eq {e e' : MemoryEntry} (he : Addressable e.key)
    (he' : Addressable e'.key) (h : memoryUri e = memoryUri e') :
    e.scope = e'.scope ∧ e.key = e'.key := by
  have htail := List.append_cancel_left h
  obtain ⟨hscope, hkey⟩ := append_cons_inj_of_notMem_right he.2 he'.2 htail
  exact ⟨Scope.ext hscope, hkey⟩

section Reads

variable {m : Overflow} {C : Crypto (Vector UInt8)} {E : KeyText}

/-- An address with a valid scope is read as the scope and the key it names. -/
theorem readResource_exec {connect : Session.Connect σ} {session : Session} {uri : List Char}
    {scope : Scope} {key : List Char} (hparse : parseUri uri = .ok (scope.path, key))
    (hv : scope.Valid) (s : σ) : (readResource m C E connect (some session) uri).exec s =
      (session.readContents m C E connect scope key uri).exec s := by
  unfold readResource
  rw [Program.exec_attempt_bind, hparse]
  simp only [okOr_some, Program.exec_attempt_bind, Encoding.new_of_valid hv, mapFault_ok]

/-- A backend that holds nothing and remembers what was asked for. -/
def recordingBackend : StorageBackend (Option (List Char × List Char)) where
  put scope _ _ := Program.attempt (fail (MemoryStorage.notFound ⟨scope⟩))
  get id := Program.attempt (fail (MemoryStorage.notFound id))
  getByKey scope key := Program.effect fun _ =>
    (fail (MemoryStorage.notFound ⟨scope⟩), some (scope, key))
  list _ := Program.attempt (.ok [])
  delete id := Program.attempt (fail (MemoryStorage.notFound id))

/-- The session of an owner at the root. -/
def rootSession : Session := Session.newOwner (zeros 32) Scope.root "" ""

/-- The owner's request for a memory reaches the backend. -/
theorem readContents_recorded (scope : Scope) (key uri : List Char) :
    ((rootSession.readContents m C E (fun _ _ => recordingBackend) scope key uri).exec none).2 =
      some (scope.path, key) := rfl

/-- Only keys of the form are ever asked for. -/
theorem addressable_of_recorded {uri path key : List Char}
    (h : ((readResource m C E (fun _ _ => recordingBackend) (some rootSession) uri).exec none).2 =
      some (path, key)) : Addressable key := by
  unfold readResource at h
  rw [Program.exec_attempt_bind] at h
  cases hparse : parseUri uri with
  | error fault =>
    rw [hparse] at h
    cases h
  | ok parts =>
    obtain ⟨scopeStr, k⟩ := parts
    simp only [hparse, okOr_some, Program.exec_attempt_bind] at h
    cases hnew : Scope.new scopeStr with
    | error fault =>
      rw [hnew] at h
      cases h
    | ok scope =>
      simp only [hnew, mapFault_ok, readContents_recorded] at h
      obtain ⟨_, rfl⟩ := Prod.mk.inj (Option.some.inj h)
      exact addressable_of_parseUri hparse

/-- Reading the address of a memory is reading at its scope and key exactly when the key is not
empty and has no slash. Two memories with such keys have different addresses. -/
theorem uri_reads_entry_iff (m : Overflow) (C : Crypto (Vector UInt8)) (E : KeyText)
    {e : MemoryEntry} (hv : e.scope.Valid) :
    ((∀ (σ : Type) (connect : Session.Connect σ) (session : Session) (s : σ),
        (readResource m C E connect (some session) (memoryUri e)).exec s =
          (session.readContents m C E connect e.scope e.key (memoryUri e)).exec s) ↔
      Addressable e.key) ∧
    (Addressable e.key → ∀ e' : MemoryEntry, Addressable e'.key → memoryUri e' = memoryUri e →
      e'.scope = e.scope ∧ e'.key = e.key) := by
  have hne : e.scope.path ≠ [] := hv.sliceable.path_ne_nil
  refine ⟨⟨fun h => ?_, fun hkey σ connect session s => ?_⟩, fun hkey e' hkey' h => ?_⟩
  · have hrecorded := congrArg Prod.snd (h _ (fun _ _ => recordingBackend) rootSession none)
    rw [readContents_recorded] at hrecorded
    exact addressable_of_recorded hrecorded
  · exact readResource_exec (parseUri_memoryUri hne hkey) hv s
  · exact eq_of_memoryUri_eq hkey' hkey h

end Reads

/-- The note `x` at `/a`. -/
def note : MemoryEntry := ⟨⟨['/', 'a']⟩, ['x'], [0x31]⟩

theorem uri_reads_entry_iff_note :
    memoryUri note = uriHead ++ ['/', 'a', '/', 'x'] ∧
      ((readResource .wrapping base58Arrays base58Text (fun _ _ => recordingBackend)
        (some rootSession) (memoryUri note)).exec none).2 = some (['/', 'a'], ['x']) := by
  have h := uri_reads_entry_iff .wrapping base58Arrays base58Text (e := note)
    (show Scope.Valid ⟨['/', 'a']⟩ by decide)
  refine ⟨rfl, ?_⟩
  rw [h.1.mpr (by decide) _ (fun _ _ => recordingBackend) rootSession none]
  rfl

/-- The key `x/y` at `/a`, and the key `y` at `/a/x`. -/
def slashed : MemoryEntry := ⟨⟨['/', 'a']⟩, ['x', '/', 'y'], [0x31]⟩

def nested : MemoryEntry := ⟨⟨['/', 'a', '/', 'x']⟩, ['y'], [0x32]⟩

/-- The owner writes both. -/
def writeBoth : Program McpError (AList fun _ : List Char × List Char => Bytes) String := do
  let _ ← writeTool base58Arrays (fun _ _ => pairBackend) (Transparent.rng packArray) 0
    (some rootSession) ⟨slashed.scope.path, slashed.key, ['1']⟩
  writeTool base58Arrays (fun _ _ => pairBackend) (Transparent.rng packArray) 0
    (some rootSession) ⟨nested.scope.path, nested.key, ['2']⟩

/-- Both memories are advertised under one address, which is read as the second. -/
theorem slash_shares_uri :
    ∃ s, writeBoth.exec ∅ = (.ok "stored /a/x:y (id: /a/x y)", s) ∧
      ((listResources .wrapping base58Arrays base58Text (fun _ _ => pairBackend)
        (some rootSession)).exec s).1.map (List.map Resource.uri) =
          .ok [memoryUri nested, memoryUri slashed] ∧
      memoryUri slashed = memoryUri nested ∧ slashed.key ≠ nested.key ∧
      ((readResource .wrapping base58Arrays base58Text (fun _ _ => pairBackend)
        (some rootSession) (memoryUri slashed)).exec s).1 = .ok ⟨['2'], memoryUri slashed⟩ := by
  obtain ⟨r, hr, htext, hlist, hread⟩ : ∃ r, writeBoth.exec ∅ = r ∧
      r.1 = .ok "stored /a/x:y (id: /a/x y)" ∧
      ((listResources .wrapping base58Arrays base58Text (fun _ _ => pairBackend)
        (some rootSession)).exec r.2).1.map (List.map Resource.uri) =
          .ok [memoryUri nested, memoryUri slashed] ∧
      ((readResource .wrapping base58Arrays base58Text (fun _ _ => pairBackend)
        (some rootSession) (memoryUri slashed)).exec r.2).1 = .ok ⟨['2'], memoryUri slashed⟩ :=
    ⟨_, rfl, by decide +kernel, by decide +kernel, by decide +kernel⟩
  exact ⟨r.2, by rw [hr, ← htext], hlist, by decide, by decide, hread⟩

end ReadOnlyKeys
