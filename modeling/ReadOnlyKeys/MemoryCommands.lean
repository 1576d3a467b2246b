import ReadOnlyKeys.FileCommands
import ReadOnlyKeys.Preview
import ReadOnlyKeys.StoreRuns

/-!
# The commands on memories

`memory write` and `memory propose` take the owner's seed, `memory read` and
`memory list` the text of a read key, which `memory grant` prints. What passes
from one command to the next is texts, files and what the server holds.
-/
namespace ReadOnlyKeys
open Outcome Wire Answers

variable {ρ σ τ : Type} {C : Crypto (Vector UInt8)}

structure MemoryWriteArgs where
  scope : List Char
  key : List Char
  spendSeed : String
  data : Option (List Char)
  file : Option (List Char)

structure MemoryReadArgs where
  scope : List Char
  name : List Char
  key : String
  spendPublic : String
  output : Option (List Char)

structure MemoryListArgs where
  key : String
  spendPublic : String

structure MemoryGrantArgs where
  scope : List Char
  spendSeed : String

structure MemoryProposeArgs where
  scope : List Char
  key : List Char
  agentId : String
  spendSeed : String
  data : Option (List Char)
  file : Option (List Char)

inductive MemoryAction where
  | write (a : MemoryWriteArgs)
  | read (a : MemoryReadArgs)
  | list (a : MemoryListArgs)
  | grant (a : MemoryGrantArgs)
  | propose (a : MemoryProposeArgs)

structure MemoryArgs where
  action : MemoryAction
  fileverseUrl : String
  apiKey : String

/-- What the commands print. -/
inductive MemoryReport where
  | stored (scope key : List Char) (id : StorageId)
  | decrypted (scope name output : List Char) (size : ℕ)
  | text (text : List Char)
  | listed (lines : List String)
  | granted (scope : List Char) (exportedKey spendPublic : String)
  | accepted (agentId : String) (scope key : List Char) (id : StorageId)

/-- A call to the file system. -/
def toFiles {α : Type} (p : Program CliError σ α) : Program CommandError (σ × τ) α :=
  Program.onFst (onFiles p)

/-- A call to the backend. -/
def toBackend {α : Type} (p : Program RokError τ α) : Program CommandError (σ × τ) α :=
  Program.within Prod.snd (fun t s => (s.1, t)) (p.mapError fun e => .cli (.rok e))

lemma exec_toFiles {α : Type} (p : Program CliError σ α) (s : σ × τ) :
    (toFiles p).exec s = (mapFault (p.exec s.1).1 .cli, ((p.exec s.1).2, s.2)) := rfl

lemma exec_toBackend {α : Type} (p : Program RokError τ α) (s : σ × τ) :
    (toBackend p).exec s = (orStop (p.exec s.2).1, (s.1, (p.exec s.2).2)) := rfl

section Run

variable (C) (E : KeyText) (hexDecode : String → Except String Bytes) (m : Overflow)
  (rng : CryptoRng (Vector UInt8) ρ) (r : ρ) (fs : FileSystem σ) (backend : StorageBackend τ)

/-- What is to be stored: the bytes of a file, or the text. -/
def memoryContent (file data : Option (List Char)) : Program CliError σ Bytes :=
  match file with
  | some file => fs.read file
  | none => pure (toUtf8 (data.getD []))

def loadReadKey (encoded : String) : Except (Fault CommandError) (ReadKeyPair C) := do
  let exported ← orStop (Encoding.decodeExportedReadKey E encoded)
  orStop (ReadKeyPair.importKey C exported)

def MemoryWriteArgs.run (a : MemoryWriteArgs) : Program CommandError (σ × τ) MemoryReport := do
  let spend ← Program.attempt (spendOfSeed C hexDecode a.spendSeed)
  let store : MemoryStore C τ := ⟨spend, backend⟩
  let scope ← Program.attempt (orStop (Scope.new a.scope))
  let content ← toFiles (memoryContent fs a.file a.data)
  let id ← toBackend (store.write rng r scope a.key content)
  return .stored a.scope a.key id

def MemoryReadArgs.run (a : MemoryReadArgs) : Program CommandError (σ × τ) MemoryReport := do
  let spendVk ← Program.attempt (orStop (Encoding.decodeSpendPublic C E a.spendPublic))
  let reader : MemoryReader C τ := ⟨spendVk, backend⟩
  let scope ← Program.attempt (orStop (Scope.new a.scope))
  let readKey ← Program.attempt (loadReadKey C E a.key)
  let data ← toBackend (reader.read m readKey scope a.name)
  match a.output with
  | some outputPath => do
    toFiles (fs.write outputPath data)
    return .decrypted a.scope a.name outputPath data.length
  | none => return .text (fromUtf8Lossy data)

def MemoryListArgs.run (a : MemoryListArgs) : Program CommandError (σ × τ) MemoryReport := do
  let spendVk ← Program.attempt (orStop (Encoding.decodeSpendPublic C E a.spendPublic))
  let reader : MemoryReader C τ := ⟨spendVk, backend⟩
  let readKey ← Program.attempt (loadReadKey C E a.key)
  let memories ← toBackend (reader.list m readKey)
  let lines ← Program.attempt (orStop (listCommand readKey.scope memories))
  return .listed lines

def MemoryGrantArgs.run (a : MemoryGrantArgs) : Program CommandError (σ × τ) MemoryReport := do
  let spend ← Program.attempt (spendOfSeed C hexDecode a.spendSeed)
  let spendPublic := Encoding.encodeSpendPublic C E spend.verifyingKey
  let store : MemoryStore C τ := ⟨spend, backend⟩
  let scope ← Program.attempt (orStop (Scope.new a.scope))
  let exported ← Program.attempt (orStop (store.grantAccess scope))
  return .granted a.scope (Encoding.encodeExportedReadKey C E exported) spendPublic

def MemoryProposeArgs.run (a : MemoryProposeArgs) :
    Program CommandError (σ × τ) MemoryReport := do
  let spend ← Program.attempt (spendOfSeed C hexDecode a.spendSeed)
  let store : MemoryStore C τ := ⟨spend, backend⟩
  let scope ← Program.attempt (orStop (Scope.new a.scope))
  let content ← toFiles (memoryContent fs a.file a.data)
  let id ← toBackend (store.acceptProposal rng r ⟨scope, a.key, content, a.agentId⟩)
  return .accepted a.agentId a.scope a.key id

def MemoryAction.run : MemoryAction → Program CommandError (σ × τ) MemoryReport
  | .write a => a.run C hexDecode rng r fs backend
  | .read a => a.run C E m fs backend
  | .list a => a.run C E m backend
  | .grant a => a.run C E hexDecode backend
  | .propose a => a.run C hexDecode rng r fs backend

/-- `rok memory`. `connect` makes the backend of a URL and a key. -/
def MemoryArgs.run (connect : String → String → StorageBackend τ) (args : MemoryArgs) :
    Program CommandError (σ × τ) MemoryReport :=
  if args.apiKey.isEmpty then Program.attempt (.error (.err (.text (
    "Fileverse API key required: " ++ "set FILEVERSE_API_KEY env var or pass --api-key"))))
  else args.action.run C E hexDecode m rng r fs (connect args.fileverseUrl args.apiKey)

end Run

/-- A command, with the state of the generator that it meets. -/
structure MemoryCall (ρ : Type) where
  r : ρ
  args : MemoryArgs

/-- The outcome of a command, and the files before it and after. -/
structure Shown (σ : Type) where
  result : Except (Fault CommandError) MemoryReport
  before : σ
  after : σ

/-- A command fails and leaves the files. -/
def Shown.Refused (v : Shown σ) : Prop :=
  (∃ err : RokError, v.result = .error (.err (.cli (.rok err)))) ∧ v.after = v.before

/-- What is read goes to a file, or is shown. -/
def MemoryReadArgs.present (fs : FileSystem σ) (a : MemoryReadArgs) (data : Bytes) :
    Program CliError σ MemoryReport :=
  match a.output with
  | some outputPath => do
    fs.write outputPath data
    return .decrypted a.scope a.name outputPath data.length
  | none => return .text (fromUtf8Lossy data)

section Spec

variable (E : KeyText) (fs : FileSystem σ) (spend : SpendKeyPair C) (contents : Contents)

/-- What the arguments give is what the place holds from now on. A command that fails stores
nothing. -/
def Stores (scope key : List Char) (file data : Option (List Char))
    (report : StorageId → MemoryReport) (v : Shown σ) (contents' : Contents) : Prop :=
  (∃ id content, Scope.Valid ⟨scope⟩ ∧
    (memoryContent fs file data).exec v.before = (.ok content, v.after) ∧
    v.result = .ok (report id) ∧
    contents' = Function.update contents (scope, key) (some content)) ∨
  ∃ fault, v.result = .error fault ∧ contents' = contents

/-- The text of a key that the owner's root key was delegated to. -/
def Carries (text : String) (k : ReadKeyPair C) : Prop :=
  Relation.ReflTransGen ReadKeyPair.Delegates spend.deriveRootReadKey k ∧ k.scope.Valid ∧
    text = Encoding.encodeExportedReadKey C E k.exportKey

/-- The outcome of a command where these are the contents, and the contents after it. -/
def MemoryAction.Spec : MemoryAction → Shown σ → Contents → Prop
  | .write a, v, contents' =>
      Stores fs contents a.scope a.key a.file a.data (.stored a.scope a.key) v contents'
  | .propose a, v, contents' =>
      Stores fs contents a.scope a.key a.file a.data (.accepted a.agentId a.scope a.key) v contents'
  | .read a, v, contents' => contents' = contents ∧ ∃ k, Carries E spend a.key k ∧
      match contents (a.scope, a.name) with
      | some data =>
          if Scope.Valid ⟨a.scope⟩ ∧ k.scope.isAncestorOf ⟨a.scope⟩ = true then
            (v.result, v.after) = (onFiles (a.present fs data)).exec v.before
          else v.Refused
      | none => v.Refused
  | .list a, v, contents' => contents' = contents ∧ v.after = v.before ∧
      ∃ k, Carries E spend a.key k ∧ ∃ memories, StoreCall.Lists k contents (.ok memories) ∧
        v.result = (orStop (listCommand k.scope memories)).map .listed
  | .grant a, v, contents' => contents' = contents ∧
      if Scope.Valid ⟨a.scope⟩ then v.after = v.before ∧ ∃ k : ReadKeyPair C,
        Relation.ReflTransGen ReadKeyPair.Delegates spend.deriveRootReadKey k ∧
        k.scope = ⟨a.scope⟩ ∧ v.result = .ok (.granted a.scope
          (Encoding.encodeExportedReadKey C E k.exportKey)
          (Encoding.encodeSpendPublic C E spend.verifyingKey))
      else v.Refused

/-- The owner's commands have the owner's seed and a place that passes the test. The others have
the texts of the owner's public key and of a delegated key. -/
def MemoryAction.Meets (hexDecode : String → Except String Bytes) (P : Spot → Prop)
    (lists : Prop) : MemoryAction → Prop
  | .write a => spendOfSeed C hexDecode a.spendSeed = .ok spend ∧
      (Scope.Valid ⟨a.scope⟩ → (toUtf8 a.scope).length ≤ 65535 ∧ P (a.scope, a.key))
  | .propose a => spendOfSeed C hexDecode a.spendSeed = .ok spend ∧
      (Scope.Valid ⟨a.scope⟩ → (toUtf8 a.scope).length ≤ 65535 ∧ P (a.scope, a.key))
  | .read a => a.spendPublic = Encoding.encodeSpendPublic C E spend.verifyingKey ∧
      (∃ k, Carries E spend a.key k) ∧ (Scope.Valid ⟨a.scope⟩ → P (a.scope, a.name))
  | .list a => a.spendPublic = Encoding.encodeSpendPublic C E spend.verifyingKey ∧
      (∃ k, Carries E spend a.key k) ∧ lists
  | .grant a => spendOfSeed C hexDecode a.spendSeed = .ok spend

end Spec

section Steps

variable {E : KeyText} {hexDecode : String → Except String Bytes} {m : Overflow}
  {rng : CryptoRng (Vector UInt8) ρ} {r : ρ} {fs : FileSystem σ} {backend : StorageBackend τ}
  {spend : SpendKeyPair C} {P : Spot → Prop} {I small : τ → Prop} {shelf : τ → Shelf}
  {s : σ × τ} {contents : Contents}

/-- The commands that store, by what they hand to the store and what they print. -/
def storing (C : Crypto (Vector UInt8)) (hexDecode : String → Except String Bytes)
    (rng : CryptoRng (Vector UInt8) ρ) (fs : FileSystem σ) (backend : StorageBackend τ)
    (spendSeed : String) (scope : List Char) (file data : Option (List Char))
    (op : Scope → Bytes → MemoryStore.Op ρ) (report : StorageId → MemoryReport) :
    Program CommandError (σ × τ) MemoryReport := do
  let spend ← Program.attempt (spendOfSeed C hexDecode spendSeed)
  let store : MemoryStore C τ := ⟨spend, backend⟩
  let scope ← Program.attempt (orStop (Scope.new scope))
  let content ← toFiles (memoryContent fs file data)
  let id ← toBackend (store.program rng (op scope content))
  return report id

lemma MemoryWriteArgs.run_eq (a : MemoryWriteArgs) : a.run C hexDecode rng r fs backend =
    storing C hexDecode rng fs backend a.spendSeed a.scope a.file a.data
      (fun scope content => .write r scope a.key content) (.stored a.scope a.key) := rfl

lemma MemoryProposeArgs.run_eq (a : MemoryProposeArgs) : a.run C hexDecode rng r fs backend =
    storing C hexDecode rng fs backend a.spendSeed a.scope a.file a.data
      (fun scope content => .acceptProposal r ⟨scope, a.key, content, a.agentId⟩)
      (.accepted a.agentId a.scope a.key) := rfl

/-- A path that is no scope is an error. -/
lemma new_of_not_valid {path : List Char} (h : ¬ Scope.Valid ⟨path⟩) :
    ∃ err, Scope.new path = fail err := by
  cases hnew : Scope.new path with
  | error fault =>
    cases fault with
    | err err => exact ⟨err, rfl⟩
    | panic => exact absurd hnew (Scope.new_ne_panic path)
  | ok scope =>
    obtain ⟨rfl, hv⟩ := (Scope.new_eq_ok_iff _ _).mp hnew
    exact absurd hv h

lemma new_of_valid {path : List Char} (h : Scope.Valid ⟨path⟩) : Scope.new path = .ok ⟨path⟩ :=
  (Scope.new_eq_ok_iff _ _).mpr ⟨rfl, h⟩

/-- A command that stores, and what the backend mirrors after it. -/
theorem storing_step (hC : C.Correct) (hR : C.StaticRoundtrip) (hT : C.aes256GcmSiv.Tagged)
    (hB : MapOn backend P I small shelf)
    (h : MemoryStore.Keeps spend m I shelf s.2 contents) {spendSeed : String}
    {scope key : List Char} {file data : Option (List Char)}
    {op : Scope → Bytes → MemoryStore.Op ρ} {report : StorageId → MemoryReport}
    (hspend : spendOfSeed C hexDecode spendSeed = .ok spend)
    (hplace : Scope.Valid ⟨scope⟩ → (toUtf8 scope).length ≤ 65535 ∧ P (scope, key))
    (hop : ∀ scope content, (op scope content).scope = scope ∧ (op scope content).key = key ∧
      (op scope content).content = content)
    {out : Except (Fault CommandError) MemoryReport × σ × τ}
    (hout : (storing C hexDecode rng fs backend spendSeed scope file data op report).exec s = out) :
    ∃ contents', Stores fs contents scope key file data report ⟨out.1, s.1, out.2.1⟩ contents' ∧
      MemoryStore.Keeps spend m I shelf out.2.2 contents' := by
  rw [storing, hspend, Program.exec_attempt_bind] at hout
  simp only [Program.exec_bind, Program.exec_attempt, exec_toFiles, exec_toBackend] at hout
  by_cases hv : Scope.Valid ⟨scope⟩
  · obtain ⟨hlength, hP⟩ := hplace hv
    rw [new_of_valid hv] at hout
    simp only [orStop, mapFault_ok] at hout
    cases hread : (memoryContent fs file data).exec s.1 with
    | mk content mid =>
      rw [hread] at hout
      cases content with
      | error fault =>
        obtain rfl := hout
        exact ⟨contents, .inr ⟨_, rfl, rfl⟩, h⟩
      | ok content =>
        obtain ⟨hscope, hkey, hcontent⟩ := hop ⟨scope⟩ content
        have hadmissible : (op ⟨scope⟩ content).Admissible := by
          rw [MemoryStore.Op.Admissible, hscope]
          exact ⟨hv, hlength⟩
        have hsame : P ((op ⟨scope⟩ content).scope.path, (op ⟨scope⟩ content).key) := by
          rw [hscope, hkey]
          exact hP
        obtain ⟨hok, hkeeps⟩ := MemoryStore.write_mapOn ⟨spend, backend⟩ rng hC hR hT hB h
          hadmissible hsame
        simp only [mapFault_ok] at hout
        cases hput : (MemoryStore.program ⟨spend, backend⟩ rng (op ⟨scope⟩ content)).exec s.2 with
        | mk id t =>
          rw [hput] at hout hok hkeeps
          cases id with
          | error fault =>
            obtain rfl := hout
            have hnone : false = (MemoryStore.Op.written spend rng (op ⟨scope⟩ content)).isOk := hok
            simp only [MemoryStore.next, ← hnone, Bool.false_eq_true, if_false] at hkeeps
            exact ⟨contents, .inr ⟨_, rfl, rfl⟩, hkeeps⟩
          | ok id =>
            obtain rfl := hout
            have hsome : true = (MemoryStore.Op.written spend rng (op ⟨scope⟩ content)).isOk := hok
            simp only [MemoryStore.next, ← hsome, if_true, hscope, hkey, hcontent] at hkeeps
            exact ⟨_, .inl ⟨id, content, hv, hread, rfl, rfl⟩, hkeeps⟩
  · obtain ⟨err, herr⟩ := new_of_not_valid hv
    rw [herr] at hout
    obtain rfl := hout
    exact ⟨contents, .inr ⟨_, rfl, rfl⟩, h⟩

/-- The text of a key is read as the key. -/
lemma Carries.loadReadKey_eq (hR : C.StaticRoundtrip) (hS : C.StaticOfBytes) (hE : E.Inverts C)
    {text : String} {k : ReadKeyPair C} (h : Carries E spend text k) :
    loadReadKey C E text = .ok k := by
  obtain ⟨-, hv, rfl⟩ := h
  have hscope : k.exportKey.scope.Valid := hv
  rw [loadReadKey, Encoding.decodeExportedReadKey_encode hE hscope, orStop, mapFault_ok, ok_bind,
    k.importKey_exportKey hR hS, orStop, mapFault_ok]

/-- Presenting goes on beside the backend. -/
lemma exec_present (a : MemoryReadArgs) (data : Bytes) (s : σ × τ) :
    (match a.output with
      | some outputPath => do
        toFiles (fs.write outputPath data)
        return .decrypted a.scope a.name outputPath data.length
      | none => return .text (fromUtf8Lossy data) :
      Program CommandError (σ × τ) MemoryReport).exec s =
    (((onFiles (a.present fs data)).exec s.1).1, ((onFiles (a.present fs data)).exec s.1).2,
      s.2) := by
  rw [MemoryReadArgs.present, onFiles]
  cases a.output with
  | none => rfl
  | some outputPath =>
    simp only [Program.exec_mapError, Program.exec_bind, exec_toFiles]
    cases (fs.write outputPath data).exec s.1 with
    | mk res files => cases res <;> rfl

/-- `memory read`, by what the backend mirrors. -/
theorem MemoryReadArgs.step (hR : C.StaticRoundtrip) (hS : C.StaticOfBytes) (hE : E.Inverts C)
    (hV : ∀ vk, C.verifyingFromBytes (C.verifyingAsBytes vk) = some vk)
    (hB : MapOn backend P I small shelf) (h : MemoryStore.Keeps spend m I shelf s.2 contents)
    {a : MemoryReadArgs} (hmeets : (MemoryAction.read a).Meets E spend hexDecode P (small s.2))
    {out : Except (Fault CommandError) MemoryReport × σ × τ}
    (hout : (a.run C E m fs backend).exec s = out) :
    (MemoryAction.read a).Spec E fs spend contents ⟨out.1, s.1, out.2.1⟩ contents ∧
      MemoryStore.Keeps spend m I shelf out.2.2 contents := by
  obtain ⟨hpublic, ⟨k, hk⟩, hplace⟩ := hmeets
  rw [run, hpublic, Encoding.decodeSpendPublic_encode hE hV, orStop, mapFault_ok,
    Program.exec_attempt_bind] at hout
  simp only [Program.exec_bind, Program.exec_attempt, exec_toBackend] at hout
  rw [MemoryAction.Spec]
  by_cases hv : Scope.Valid ⟨a.scope⟩
  · rw [new_of_valid hv, hk.loadReadKey_eq hR hS hE] at hout
    simp only [orStop, mapFault_ok] at hout
    obtain ⟨hreads, hkeeps⟩ := MemoryStore.readMemory_mapOn ⟨spend, backend⟩ hB h
      (ReadKeyPair.genuine_of_delegated hR hk.1) ⟨a.scope⟩ (hplace hv)
    rw [MemoryReader.read] at hout
    cases hexec : (readMemory m spend.verifyingKey k backend ⟨a.scope⟩ a.name).exec s.2 with
    | mk res t =>
      rw [hexec] at hout hreads hkeeps
      unfold StoreCall.Reads at hreads
      cases hcontent : contents (a.scope, a.name) with
      | none =>
        simp only [hcontent] at hreads
        obtain ⟨err, rfl⟩ := hreads
        obtain rfl := hout
        exact ⟨⟨rfl, k, hk, ⟨err, rfl⟩, rfl⟩, hkeeps⟩
      | some data =>
        simp only [hcontent] at hreads
        subst hreads
        by_cases hanc : k.scope.isAncestorOf ⟨a.scope⟩ = true
        · rw [if_pos hanc] at hout
          simp only [mapFault_ok, exec_present] at hout
          obtain rfl := hout
          exact ⟨⟨rfl, k, hk, (if_pos ⟨hv, hanc⟩).mpr rfl⟩, hkeeps⟩
        · rw [if_neg hanc] at hout
          obtain rfl := hout
          exact ⟨⟨rfl, k, hk, (if_neg fun h => hanc h.2).mpr ⟨⟨_, rfl⟩, rfl⟩⟩, hkeeps⟩
  · obtain ⟨err, herr⟩ := new_of_not_valid hv
    rw [herr] at hout
    obtain rfl := hout
    refine ⟨⟨rfl, k, hk, ?_⟩, h⟩
    cases contents (a.scope, a.name) with
    | none => exact ⟨⟨err, rfl⟩, rfl⟩
    | some data => exact (if_neg fun h => hv h.1).mpr ⟨⟨err, rfl⟩, rfl⟩

/-- `memory list`, by what the backend mirrors. -/
theorem MemoryListArgs.step (hR : C.StaticRoundtrip) (hS : C.StaticOfBytes) (hE : E.Inverts C)
    (hV : ∀ vk, C.verifyingFromBytes (C.verifyingAsBytes vk) = some vk)
    (hB : MapOn backend P I small shelf) (h : MemoryStore.Keeps spend m I shelf s.2 contents)
    {a : MemoryListArgs} (hmeets : (MemoryAction.list a).Meets E spend hexDecode P (small s.2))
    {out : Except (Fault CommandError) MemoryReport × σ × τ}
    (hout : (a.run C E m backend).exec s = out) :
    (MemoryAction.list a).Spec E fs spend contents ⟨out.1, s.1, out.2.1⟩ contents ∧
      MemoryStore.Keeps spend m I shelf out.2.2 contents := by
  obtain ⟨hpublic, ⟨k, hk⟩, hsmall⟩ := hmeets
  rw [run, hpublic, Encoding.decodeSpendPublic_encode hE hV, orStop, mapFault_ok,
    Program.exec_attempt_bind] at hout
  simp only [Program.exec_bind, Program.exec_attempt, exec_toBackend,
    hk.loadReadKey_eq hR hS hE] at hout
  obtain ⟨hlists, hkeeps⟩ := MemoryStore.listMemories_mapOn ⟨spend, backend⟩ hB h
    (ReadKeyPair.genuine_of_delegated hR hk.1) hsmall
  rw [MemoryReader.list] at hout
  cases hexec : (listMemories m spend.verifyingKey k backend).exec s.2 with
  | mk res t =>
    rw [hexec] at hout hlists hkeeps
    obtain ⟨memories, rfl, hmemories⟩ := hlists
    simp only [orStop, mapFault_ok] at hout
    rw [MemoryAction.Spec]
    cases hlines : listCommand k.scope memories with
    | ok lines =>
      rw [hlines] at hout
      obtain rfl := hout
      exact ⟨⟨rfl, rfl, k, hk, memories, ⟨memories, rfl, hmemories⟩, by rw [hlines]; rfl⟩, hkeeps⟩
    | error fault =>
      rw [hlines] at hout
      obtain rfl := hout
      exact ⟨⟨rfl, rfl, k, hk, memories, ⟨memories, rfl, hmemories⟩, by rw [hlines]; rfl⟩, hkeeps⟩

/-- The owner has a key to give out for every scope. -/
lemma exists_granted (backend : StorageBackend τ) (spend : SpendKeyPair C) {scope : Scope}
    (hv : scope.Valid) : ∃ k : ReadKeyPair C,
    MemoryStore.grantAccess ⟨spend, backend⟩ scope = .ok k.exportKey ∧
      Relation.ReflTransGen ReadKeyPair.Delegates spend.deriveRootReadKey k ∧ k.scope = scope := by
  obtain ⟨k, hk⟩ := ReadKeyPair.exists_scopeKey spend hv.sliceable
  rw [MemoryStore.grantAccess]
  split_ifs at hk ⊢ with hroot
  · obtain rfl := Except.ok.inj hk
    exact ⟨_, rfl, .refl, hroot.symm⟩
  · obtain ⟨_, hmade⟩ := (ReadKeyPair.deriveChild_eq_ok_iff _ _ _).mp hk
    refine ⟨k, ?_, .single (.derive (.child scope hk)), congrArg ReadKeyPair.scope hmade⟩
    simp only [hk, ok_bind]
    rfl

/-- `memory grant` prints a delegated key for every scope. -/
theorem MemoryGrantArgs.step (h : MemoryStore.Keeps spend m I shelf s.2 contents)
    {a : MemoryGrantArgs} (hspend : spendOfSeed C hexDecode a.spendSeed = .ok spend)
    {out : Except (Fault CommandError) MemoryReport × σ × τ}
    (hout : (a.run C E hexDecode backend).exec s = out) :
    (MemoryAction.grant a).Spec E fs spend contents ⟨out.1, s.1, out.2.1⟩ contents ∧
      MemoryStore.Keeps spend m I shelf out.2.2 contents := by
  rw [run, hspend, Program.exec_attempt_bind] at hout
  simp only [Program.exec_bind, Program.exec_attempt] at hout
  rw [MemoryAction.Spec]
  by_cases hv : Scope.Valid ⟨a.scope⟩
  · obtain ⟨k, hgranted, hdelegates, hscope⟩ := exists_granted backend spend hv
    rw [new_of_valid hv] at hout
    simp only [orStop, mapFault_ok, hgranted] at hout
    obtain rfl := hout
    exact ⟨⟨rfl, (if_pos hv).mpr ⟨rfl, k, hdelegates, hscope, rfl⟩⟩, h⟩
  · obtain ⟨err, herr⟩ := new_of_not_valid hv
    rw [herr] at hout
    obtain rfl := hout
    exact ⟨⟨rfl, (if_neg hv).mpr ⟨⟨err, rfl⟩, rfl⟩⟩, h⟩

variable (E hexDecode m rng fs)

/-- A command, its outcome and the state after it. -/
def MemoryCall.answer (C : Crypto (Vector UInt8)) (connect : String → String → StorageBackend τ)
    (s : σ × τ) (call : MemoryCall ρ) : Shown σ × σ × τ :=
  let out := (call.args.run C E hexDecode m rng call.r fs connect).exec s
  (⟨out.1, s.1, out.2.1⟩, out.2)

variable {E hexDecode m rng fs} {connect : String → String → StorageBackend τ}

/-- One command, by what the backend mirrors. -/
theorem MemoryCall.step (hC : C.Correct) (hR : C.StaticRoundtrip) (hS : C.StaticOfBytes)
    (hT : C.aes256GcmSiv.Tagged) (hE : E.Inverts C)
    (hV : ∀ vk, C.verifyingFromBytes (C.verifyingAsBytes vk) = some vk)
    (hB : MapOn backend P I small shelf) (h : MemoryStore.Keeps spend m I shelf s.2 contents)
    {call : MemoryCall ρ} (hkey : call.args.apiKey.isEmpty = false)
    (hconnect : connect call.args.fileverseUrl call.args.apiKey = backend)
    (hmeets : call.args.action.Meets E spend hexDecode P (small s.2)) :
    let out := call.answer E hexDecode m rng fs C connect s
    ∃ contents', call.args.action.Spec E fs spend contents out.1 contents' ∧
      MemoryStore.Keeps spend m I shelf out.2.2 contents' := by
  obtain ⟨r, ⟨action, url, key⟩⟩ := call
  obtain rfl := hconnect
  have hrun : MemoryArgs.run C E hexDecode m rng r fs connect ⟨action, url, key⟩ =
      action.run C E hexDecode m rng r fs (connect url key) :=
    if_neg (by rw [show key.isEmpty = false from hkey]; decide)
  simp only [answer, hrun]
  cases action with
  | write a =>
    obtain ⟨hspend, hplace⟩ := hmeets
    exact storing_step hC hR hT hB h hspend hplace (fun _ _ => ⟨rfl, rfl, rfl⟩)
      (congrArg (fun p => Program.exec p s) a.run_eq.symm)
  | propose a =>
    obtain ⟨hspend, hplace⟩ := hmeets
    exact storing_step hC hR hT hB h hspend hplace (fun _ _ => ⟨rfl, rfl, rfl⟩)
      (congrArg (fun p => Program.exec p s) a.run_eq.symm)
  | read a => exact ⟨contents, MemoryReadArgs.step hR hS hE hV hB h hmeets rfl⟩
  | list a => exact ⟨contents, MemoryListArgs.step hR hS hE hV hB h hmeets rfl⟩
  | grant a => exact ⟨contents, MemoryGrantArgs.step h hmeets rfl⟩

/-- In every run of `rok memory` with one owner's texts, over a server that is a shelf at the
places in use, every command shows what was stored last: to the texts that `grant` printed and to
those derived from them, in a file or as text, and nothing outside their scopes. A command that
fails stores nothing. -/
theorem memory_commands_show_last (hC : C.Correct) (hR : C.StaticRoundtrip) (hS : C.StaticOfBytes)
    (hT : C.aes256GcmSiv.Tagged) (hE : E.Inverts C)
    (hV : ∀ vk, C.verifyingFromBytes (C.verifyingAsBytes vk) = some vk)
    (hB : MapOn backend P I small shelf) (s₀ : σ × τ) (h₀ : I s₀.2)
    (hempty : ∀ q, (shelf s₀.2).contents q = none) {calls : List (MemoryCall ρ)}
    (hcalls : Runs.Meets (fun s call => (call.answer E hexDecode m rng fs C connect s).2)
      (fun s call => call.args.apiKey.isEmpty = false ∧
        connect call.args.fileverseUrl call.args.apiKey = backend ∧
        call.args.action.Meets E spend hexDecode P (small s.2)) s₀ calls) :
    ∃ contents, Allows (fun contents call v contents' =>
        call.args.action.Spec E fs spend contents v contents') (fun _ => none)
      (history (fun s call => call.answer E hexDecode m rng fs C connect s) s₀ calls)
      contents := by
  obtain ⟨contents, hallows, -⟩ := exists_allows
    (fun s contents => MemoryStore.Keeps spend m I shelf s.2 contents)
    (fun s contents call hcall h => MemoryCall.step hC hR hS hT hE hV hB h hcall.1 hcall.2.1
      hcall.2.2) (MemoryStore.Keeps.init h₀ hempty spend m) hcalls
  exact ⟨contents, hallows⟩

end Steps

section Documents
open FileverseBackend

/-- The arguments of a command, with the default URL. -/
def memoryCall (action : MemoryAction) : MemoryCall ℕ := ⟨0, action, "http://127.0.0.1:8001", "key"⟩

def rootText : String :=
  Encoding.encodeExportedReadKey base58Arrays base58Text fileOwner.deriveRootReadKey.exportKey

def ownerText : String := Encoding.encodeSpendPublic base58Arrays base58Text fileOwner.verifyingKey

/-- There is nothing to list, then the owner stores a memory, and it is read. -/
def memoryCalls : List (MemoryCall ℕ) :=
  [memoryCall (.list ⟨rootText, ownerText⟩),
    memoryCall (.write ⟨['/', 'a'], ['x'], ownerSeed, some ['h', 'i'], none⟩),
    memoryCall (.grant ⟨['/', 'a'], ownerSeed⟩),
    memoryCall (.read ⟨['/', 'a'], ['x'], rootText, ownerText, none⟩)]

theorem memory_commands_show_last_documents : ∃ contents,
    Allows (fun contents (call : MemoryCall ℕ) v contents' =>
        call.args.action.Spec base58Text pathFiles fileOwner contents v contents') (fun _ => none)
      (history (fun s call => call.answer base58Text Hex.decode .wrapping
        (Transparent.rng packArray) pathFiles base58Arrays
          (fun _ _ => client textServer standard) s)
        ((fun _ => none), ([], fun _ => answered)) memoryCalls) contents := by
  have hB : MapOn (client textServer standard) Fits _ _ _ :=
    client_mapOn textServer fun query doc h => decide_eq_true h.isInfix
  have hroot : ∃ k, Carries base58Text fileOwner rootText k :=
    ⟨fileOwner.deriveRootReadKey, .refl, Scope.root_valid, rfl⟩
  have hplace : (toUtf8 ['/', 'a']).length ≤ 65535 ∧ Fits (['/', 'a'], ['x']) := by decide
  have hlisted : ([] : List DDoc).length ≤ 1000 := by decide
  exact memory_commands_show_last base58Arrays_correct (fun _ => rfl) (fun s => ⟨s, rfl⟩)
    Transparent.aead_tagged base58Text_inverts (fun _ => rfl) hB
    ((fun _ => none), ([], fun _ => answered)) ⟨shelved_nil standard, fun _ => rfl⟩
    (docsView_nil standard)
    ⟨⟨by decide, rfl, rfl, hroot, hlisted⟩,
      ⟨by decide, rfl, spendOfSeed_ownerSeed, fun _ => hplace⟩,
      ⟨by decide, rfl, spendOfSeed_ownerSeed⟩, ⟨by decide, rfl, rfl, hroot, fun _ => hplace.2⟩,
      trivial⟩

end Documents

end ReadOnlyKeys
