import ReadOnlyKeys.DecryptSections
import ReadOnlyKeys.Service
import ReadOnlyKeys.Lib.Json

/-!
# Setup

The setup tool makes a session of the given credentials, writes them to the
configuration file, adds the tools to the permissions of the project, counts the
memories and installs the session. The file is written before the steps that
find out whether the credentials work.
-/
namespace ReadOnlyKeys
open Outcome Wire

variable {σ : Type}

/-- The texts that the JSON crate reads and writes. -/
structure SerdeJson where
  fromStr : List Char → Except String Json
  toStringPretty : Json → Except String (List Char)

/-- What the operating system answers during one call. A write that fails leaves the file as it
may be. -/
structure Os where
  home : Option (List Char)
  createDirAll : List Char → Except String Unit
  readToString : List Char → Except String Unit
  write : List Char → Bytes → Except (String × Option Bytes) Unit

namespace Os

variable (self : Os)

/-- `fs::create_dir_all`. -/
def createDir (path : List Char) : Program String Disk Unit :=
  Program.attempt (mapErr (self.createDirAll path) id)

/-- What a write leaves of a file. -/
def leaves (path : List Char) (data : Bytes) : Option Bytes :=
  match self.write path data with
  | .ok _ => some data
  | .error (_, left) => left

/-- `fs::write`. -/
def writeFile (path : List Char) (data : Bytes) : Program String Disk Unit :=
  Program.effect fun disk =>
    (mapErr (self.write path data) Prod.fst, Function.update disk path (self.leaves path data))

/-- `fs::read_to_string`, for a file that exists. -/
def readFile (path : List Char) (data : Bytes) : Program String Disk (List Char) := do
  Program.attempt (mapErr (self.readToString path) id)
  Program.attempt (okOr (fromUtf8 data) "stream did not contain valid UTF-8")

end Os

section Permissions

/-- The permissions for the tools. -/
def rokPermissions : List String :=
  ["mcp__rok-memory__rok_memory:setup", "mcp__rok-memory__rok_memory:login",
    "mcp__rok-memory__rok_memory:logout", "mcp__rok-memory__rok_memory:status",
    "mcp__rok-memory__rok_memory:list", "mcp__rok-memory__rok_memory:read",
    "mcp__rok-memory__rok_memory:write", "mcp__rok-memory__rok_memory:grant",
    "mcp__rok-memory__rok_memory:propose", "mcp__rok-memory__rok_memory:sync"]

def settingsDir : List Char := ['.', 'c', 'l', 'a', 'u', 'd', 'e']

def settingsPath : List Char := joinPath settingsDir "settings.local.json".toList

/-- Allow a tool if it is not allowed. -/
def allowTool (items : List Json) (perm : String) : List Json :=
  if items.any (Json.isString perm) then items else items ++ [.string perm]

/-- `as_object_mut`, `entry` and `or_insert_with`, and a change of the value. -/
def changeMember (notObject key : String) (default : Json)
    (f : Json → Except (Fault String) Json) (v : Json) : Except (Fault String) Json := do
  let members ← okOr v.members? notObject
  let value ← f ((Json.member? key members).getD default)
  return .object (Json.put key value members)

def allowTools (allow : Json) : Except (Fault String) Json := do
  let items ← okOr allow.items? "allow is not an array"
  return .array (rokPermissions.foldl allowTool items)

/-- The settings with all tools allowed. -/
def withPermissions : Json → Except (Fault String) Json :=
  changeMember "settings is not an object" "permissions" (.object [])
    (changeMember "permissions is not an object" "allow" (.array []) allowTools)

theorem changeMember_eq_ok_iff {notObject key : String} {default : Json}
    {f : Json → Except (Fault String) Json} {v v' : Json} :
    changeMember notObject key default f v = .ok v' ↔ ∃ members value, v = .object members ∧
      f ((Json.member? key members).getD default) = .ok value ∧
      v' = .object (Json.put key value members) := by
  simp only [changeMember, bind_eq_ok_iff, okOr_eq_ok_iff, Json.members?_eq_some_iff]
  constructor
  · intro h
    obtain ⟨members, hv, value, hf, h⟩ := h
    exact ⟨members, value, hv, hf, (Except.ok.inj h).symm⟩
  · intro h
    obtain ⟨members, value, hv, hf, rfl⟩ := h
    exact ⟨members, hv, value, hf, rfl⟩

/-- Where the default can be changed, an object can exactly when its member is absent or can. -/
lemma exists_changeMember_iff {notObject key : String} {default : Json}
    {f : Json → Except (Fault String) Json} (hdefault : ∃ value, f default = .ok value) (v : Json) :
    (∃ v', changeMember notObject key default f v = .ok v') ↔
      v.HasEntry key fun x => ∃ value, f x = .ok value := by
  simp only [changeMember_eq_ok_iff, Json.HasEntry]
  constructor
  · intro h
    obtain ⟨_, members, value, hv, hf, _⟩ := h
    refine ⟨members, hv, fun x hx => ⟨value, ?_⟩⟩
    rwa [hx, Option.getD_some] at hf
  · intro h
    obtain ⟨members, hv, hmember⟩ := h
    cases hx : Json.member? key members with
    | none =>
      obtain ⟨value, hf⟩ := hdefault
      exact ⟨_, members, value, hv, by rwa [hx], rfl⟩
    | some x =>
      obtain ⟨value, hf⟩ := hmember x hx
      exact ⟨_, members, value, hv, by rwa [hx], rfl⟩

theorem changeMember_ne_panic {notObject key : String} {default : Json}
    {f : Json → Except (Fault String) Json} (hf : ∀ x, f x ≠ .error .panic) (v : Json) :
    changeMember notObject key default f v ≠ .error .panic := by
  intro h
  simp only [changeMember, bind_eq_panic_iff, okOr_ne_panic, hf, false_or] at h
  obtain ⟨_, _, _, _, h⟩ := h
  cases h

theorem allowTools_ne_panic (allow : Json) : allowTools allow ≠ .error .panic := by
  intro h
  simp only [allowTools, bind_eq_panic_iff, okOr_ne_panic, false_or] at h
  obtain ⟨_, _, h⟩ := h
  cases h

theorem exists_allowTools_iff (allow : Json) :
    (∃ v, allowTools allow = .ok v) ↔ ∃ items, allow = .array items := by
  simp only [allowTools, bind_eq_ok_iff, okOr_eq_ok_iff, Json.items?_eq_some_iff]
  constructor
  · intro h
    obtain ⟨_, items, hitems, _⟩ := h
    exact ⟨items, hitems⟩
  · intro h
    obtain ⟨items, hitems⟩ := h
    exact ⟨_, items, hitems, rfl⟩

/-- The shape of settings that permissions can be added to. -/
def TakesPermissions (settings : Json) : Prop :=
  settings.HasEntry "permissions" (Json.HasEntry "allow" fun allow => ∃ items, allow = .array items)

theorem exists_withPermissions_iff (settings : Json) :
    (∃ v, withPermissions settings = .ok v) ↔ TakesPermissions settings := by
  have hallow : ∀ v, (∃ v', changeMember "permissions is not an object" "allow" (.array [])
      allowTools v = .ok v') ↔ v.HasEntry "allow" fun x => ∃ value, allowTools x = .ok value :=
    exists_changeMember_iff ((exists_allowTools_iff (.array [])).mpr ⟨[], rfl⟩)
  have hdefault : (Json.object []).HasEntry "allow" fun x => ∃ value, allowTools x = .ok value :=
    ⟨[], rfl, by simp [Json.member?]⟩
  rw [withPermissions, exists_changeMember_iff ((hallow _).mpr hdefault)]
  simp only [hallow, exists_allowTools_iff, TakesPermissions]

variable (serde : SerdeJson) (os : Os)

/-- The settings of the project, which are empty where the file is absent. -/
def currentSettings : Program String Disk Json := do
  let disk ← get
  match disk settingsPath with
  | some data => do
    let contents ← os.readFile settingsPath data
    Program.attempt (mapErr (serde.fromStr contents) id)
  | none => do
    os.createDir settingsDir
    return .object []

def ensurePermissions : Program String Disk Unit := do
  let settings ← currentSettings serde os
  let settings ← Program.attempt (withPermissions settings)
  let json ← Program.attempt (mapErr (serde.toStringPretty settings) id)
  os.writeFile settingsPath (toUtf8 json)

theorem allowTool_isPrefix (items : List Json) (perm : String) : items <+: allowTool items perm := by
  unfold allowTool
  split_ifs
  · exact List.prefix_rfl
  · exact List.prefix_append _ _

lemma string_mem_allowTool (items : List Json) (perm : String) :
    .string perm ∈ allowTool items perm := by
  unfold allowTool
  split_ifs with h
  · obtain ⟨v, hv, hs⟩ := List.any_eq_true.mp h
    rw [Json.isString_iff] at hs
    exact hs ▸ hv
  · exact List.mem_append_right _ (List.mem_singleton_self _)

/-- Every tool of a list is allowed, and nothing is taken back. -/
theorem foldl_allowTool (perms : List String) (items : List Json) :
    items <+: perms.foldl allowTool items ∧
      ∀ perm ∈ perms, Json.string perm ∈ perms.foldl allowTool items := by
  induction perms generalizing items with
  | nil => exact ⟨List.prefix_rfl, fun _ h => absurd h List.not_mem_nil⟩
  | cons p perms ih =>
    obtain ⟨hpre, hmem⟩ := ih (allowTool items p)
    refine ⟨(allowTool_isPrefix items p).trans hpre, fun perm hperm => ?_⟩
    rcases List.mem_cons.mp hperm with rfl | hperm
    · exact hpre.subset (string_mem_allowTool items perm)
    · exact hmem perm hperm

/-- The list of what the settings allow. -/
def AllowList (settings : Json) (items : List Json) : Prop :=
  ∃ members inner, settings = .object members ∧
    Json.member? "permissions" members = some (.object inner) ∧
      Json.member? "allow" inner = some (.array items)

/-- The settings that are written allow every tool and all that was allowed, and are otherwise as
they were. -/
theorem withPermissions_allows {settings v : Json} (h : withPermissions settings = .ok v) :
    ∃ items, AllowList v items ∧ (∀ perm ∈ rokPermissions, Json.string perm ∈ items) ∧
      (∀ old, AllowList settings old → old <+: items) ∧
      ∃ members members', settings = .object members ∧ v = .object members' ∧
        ∀ key, key ≠ "permissions" → Json.member? key members' = Json.member? key members := by
  obtain ⟨members, value, rfl, hpermissions, rfl⟩ := changeMember_eq_ok_iff.mp h
  obtain ⟨inner, value', hinner, hallow, rfl⟩ := changeMember_eq_ok_iff.mp hpermissions
  simp only [allowTools, bind_eq_ok_iff, okOr_eq_ok_iff, Json.items?_eq_some_iff] at hallow
  obtain ⟨items, hitems, hvalue⟩ := hallow
  obtain rfl := Except.ok.inj hvalue
  obtain ⟨hpre, hmem⟩ := foldl_allowTool rokPermissions items
  refine ⟨_, ⟨_, _, rfl, Json.member?_put_self _ _ _, Json.member?_put_self _ _ _⟩, hmem,
    fun old hold => ?_, members, _, rfl, rfl, fun key hkey => Json.member?_put_ne hkey _ _⟩
  obtain ⟨members', inner', hmembers, hinner', hold⟩ := hold
  obtain rfl := Json.object.inj hmembers
  rw [hinner', Option.getD_some] at hinner
  obtain rfl := Json.object.inj hinner
  rw [hold, Option.getD_some] at hitems
  rw [Json.array.inj hitems]
  exact hpre

/-- The settings that the contents of their file stand for, or its absence. -/
def ReadsSettings (serde : SerdeJson) (os : Os) (file : Option Bytes) (settings : Json) : Prop :=
  match file with
  | some data => os.readToString settingsPath = .ok () ∧
      ∃ contents, fromUtf8 data = some contents ∧ serde.fromStr contents = .ok settings
  | none => os.createDirAll settingsDir = .ok () ∧ settings = .object []

/-- The settings can be read, have the shape, and can be written. -/
def Permits (serde : SerdeJson) (os : Os) (file : Option Bytes) : Prop :=
  ∃ settings, ReadsSettings serde os file settings ∧ TakesPermissions settings ∧
    ∀ v, withPermissions settings = .ok v → ∃ json, serde.toStringPretty v = .ok json ∧
      os.write settingsPath (toUtf8 json) = .ok ()

variable {serde os}

theorem currentSettings_exec (serde : SerdeJson) (os : Os) (disk : Disk) : ∃ result,
    (currentSettings serde os).exec disk = (result, disk) ∧ result ≠ .error .panic ∧
      ∀ settings, result = .ok settings ↔ ReadsSettings serde os (disk settingsPath) settings := by
  unfold currentSettings
  rw [Program.exec_bind, Program.exec_get]
  simp only
  cases hfile : disk settingsPath with
  | none =>
    simp only [Os.createDir, Program.exec_attempt_bind, ReadsSettings]
    cases hdir : os.createDirAll settingsDir with
    | error e => exact ⟨_, rfl, by simp, by simp⟩
    | ok _ => exact ⟨_, rfl, by simp, by simp [eq_comm]⟩
  | some data =>
    simp only [Os.readFile, bind_assoc, Program.exec_attempt_bind, ReadsSettings]
    cases hread : os.readToString settingsPath with
    | error e => exact ⟨_, rfl, by simp, by simp⟩
    | ok _ =>
      cases hutf8 : fromUtf8 data with
      | none => exact ⟨_, rfl, by simp, by simp⟩
      | some contents =>
        refine ⟨_, rfl, mapErr_ne_panic _ _, ?_⟩
        simp

theorem withPermissions_ne_panic (settings : Json) : withPermissions settings ≠ .error .panic :=
  changeMember_ne_panic (changeMember_ne_panic allowTools_ne_panic) settings

/-- Extending the settings touches no other file, and never panics. -/
theorem ensurePermissions_frame {disk disk' : Disk} {r : Except (Fault String) Unit}
    (h : (ensurePermissions serde os).exec disk = (r, disk')) :
    r ≠ .error .panic ∧ ∀ path, path ≠ settingsPath → disk' path = disk path := by
  obtain ⟨current, hcurrent, hnp, _⟩ := currentSettings_exec serde os disk
  unfold ensurePermissions at h
  obtain ⟨settings, _, h⟩ | ⟨e, he, rfl, rfl⟩ := Program.exec_bind_cases h
  · rw [hcurrent] at h
    obtain ⟨v, _, h⟩ | ⟨e, he, rfl, rfl⟩ := Program.exec_bind_cases h
    · obtain ⟨json, _, h⟩ | ⟨e, he, rfl, rfl⟩ := Program.exec_bind_cases h
      · obtain ⟨rfl, rfl⟩ := Prod.mk.inj h
        exact ⟨mapErr_ne_panic _ _, fun path hpath => Function.update_of_ne hpath _ _⟩
      · refine ⟨fun hp => ?_, fun _ _ => rfl⟩
        obtain rfl := Except.error.inj hp
        exact mapErr_ne_panic _ _ he
    · refine ⟨fun hp => ?_, fun _ _ => rfl⟩
      obtain rfl := Except.error.inj hp
      exact withPermissions_ne_panic settings he
  · rw [hcurrent] at he
    refine ⟨fun hp => ?_, fun _ _ => by rw [hcurrent]⟩
    obtain rfl := Except.error.inj hp
    exact hnp he

/-- Extending the settings succeeds exactly where they permit it. -/
theorem ensurePermissions_ok_iff (disk : Disk) :
    ((ensurePermissions serde os).exec disk).1 = .ok () ↔ Permits serde os (disk settingsPath) := by
  obtain ⟨current, hcurrent, _, hok⟩ := currentSettings_exec serde os disk
  have hexec : ((ensurePermissions serde os).exec disk).1 = .ok () ↔
      ∃ disk', (ensurePermissions serde os).exec disk = (.ok (), disk') := by
    simp [Prod.ext_iff]
  rw [hexec]
  simp only [ensurePermissions, Program.exec_bind_eq_ok_iff, Program.exec_attempt_eq_ok_iff,
    hcurrent, Prod.mk.injEq, mapErr_eq_ok_iff, Os.writeFile, Program.exec_effect]
  constructor
  · intro h
    obtain ⟨_, settings, _, ⟨hcur, rfl⟩, v, _, ⟨hwith, rfl⟩, json, _, ⟨hjson, rfl⟩, hwrite, _⟩ := h
    refine ⟨settings, (hok settings).mp hcur, (exists_withPermissions_iff settings).mp ⟨v, hwith⟩,
      fun v' hv' => ⟨json, ?_, hwrite⟩⟩
    rw [← Except.ok.inj (hwith.symm.trans hv')]
    exact hjson
  · intro h
    obtain ⟨settings, hreads, htakes, hwritten⟩ := h
    obtain ⟨v, hwith⟩ := (exists_withPermissions_iff settings).mpr htakes
    obtain ⟨json, hjson, hwrite⟩ := hwritten v hwith
    exact ⟨_, settings, disk, ⟨(hok settings).mpr hreads, rfl⟩, v, disk, ⟨hwith, rfl⟩, json, disk,
      ⟨hjson, rfl⟩, hwrite, rfl⟩

end Permissions

structure SetupParams where
  apiKey : String
  fileverseUrl : String
  spendSeed : Option String
  readKey : Option String
  spendPublic : Option String
  autoLoad : Option Bool

def SetupParams.config (self : SetupParams) : SessionConfig where
  apiKey := some self.apiKey
  fileverseUrl := some self.fileverseUrl
  spendSeed := self.spendSeed
  readKey := self.readKey
  spendPublic := self.spendPublic
  autoLoad := self.autoLoad

/-- The derived `Serialize`, with the names in camel case. -/
def SessionConfig.toJson (self : SessionConfig) : Json :=
  let text (s : Option String) : Json := s.elim .null .string
  .object [("apiKey", text self.apiKey), ("fileverseUrl", text self.fileverseUrl),
    ("spendSeed", text self.spendSeed), ("readKey", text self.readKey),
    ("spendPublic", text self.spendPublic), ("autoLoad", self.autoLoad.elim .null .bool)]

def rokDir (home : List Char) : List Char := joinPath home ".rok".toList

def configPath (home : List Char) : List Char := joinPath (rokDir home) "session.json".toList

section Setup

variable (m : Overflow) (C : Crypto (Vector UInt8)) (E : KeyText) (connect : Session.Connect σ)
  (hexDecode : String → Except String Bytes) (serde : SerdeJson) (os : Os)

/-- The part of setup that writes the configuration and activates the session. -/
def activate (session : Session) (path : List Char) (data : Bytes) (autoLoad : Option Bool) :
    Program McpError (World σ) String := do
  World.onDisk ((os.writeFile path data).mapError fun e => .internalError s!"write failed: {e}")
  -- the outcome of `set_permissions` is dropped, and contents are not touched
  World.onDisk ((ensurePermissions serde os).mapError fun e =>
    .internalError s!"permissions setup: {e}")
  let count ← World.onStorage ((countMemories m C E connect session).mapError fun e =>
    .internalError s!"connect failed: {e}")
  World.setSession (some ⟨session, count⟩)
  let autoStr := if autoLoad.getD false then
    "\n  auto_load: true (memories load on conversation start)" else ""
  return s!"rok-memory configured\n  config: ~/.rok/session.json\n  permissions: .claude/settings.local.json\n  role: {session.role.display}\n  memories: {count}{autoStr}"

/-- The part of setup before the write, which changes no contents: the session of the credentials,
the path of the configuration and its text. -/
def SetupParams.prepare (self : SetupParams) :
    Except (Fault McpError) (Session × List Char × Bytes) := do
  let config := self.config
  let session ← okOr (buildSessionFromConfig hexDecode config) (.invalidParams
    "invalid credentials: provide spend_seed (owner) or read_key + spend_public (agent)")
  let home ← okOr os.home (.internalError "HOME not set")
  mapErr (os.createDirAll (rokDir home)) fun e => .internalError s!"mkdir failed: {e}"
  let json ← mapErr (serde.toStringPretty config.toJson) fun e => .internalError s!"json error: {e}"
  return (session, configPath home, toUtf8 json)

/-- The tool `rok_memory:setup`. -/
def setup (params : SetupParams) : Program McpError (World σ) String := do
  let (session, path, data) ← Program.attempt (params.prepare hexDecode serde os)
  activate m C E connect serde os session path data params.autoLoad

variable {m C E connect hexDecode serde os}

theorem SetupParams.prepare_eq_ok {params : SetupParams} {session : Session} {path : List Char}
    {data : Bytes} (h : params.prepare hexDecode serde os = .ok (session, path, data)) :
    buildSessionFromConfig hexDecode params.config = some session ∧
      ∃ home, os.home = some home ∧ path = configPath home := by
  simp only [SetupParams.prepare, bind_eq_ok_iff, okOr_eq_ok_iff] at h
  obtain ⟨_, hbuild, home, hhome, _, _, _, _, h⟩ := h
  obtain ⟨rfl, hrest⟩ := Prod.mk.inj (Except.ok.inj h)
  exact ⟨hbuild, home, hhome, (Prod.mk.inj hrest).1.symm⟩

/-- A call that fails before the write changes nothing. -/
theorem setup_of_prepare_error {params : SetupParams} {fault : Fault McpError}
    (h : params.prepare hexDecode serde os = .error fault) (w : World σ) :
    (setup m C E connect hexDecode serde os params).exec w = (.error fault, w) := by
  rw [setup, Program.exec_attempt_bind, h]

theorem setup_of_prepare_ok {params : SetupParams} {session : Session} {path : List Char}
    {data : Bytes} (h : params.prepare hexDecode serde os = .ok (session, path, data))
    (w : World σ) : (setup m C E connect hexDecode serde os params).exec w =
      (activate m C E connect serde os session path data params.autoLoad).exec w := by
  rw [setup, Program.exec_attempt_bind, h]

theorem settingsPath_ne_configPath (home : List Char) : settingsPath ≠ configPath home := by
  have hsuffix : "session.json".toList <:+ configPath home := by
    have hname : "session.json".toList.head? ≠ some '/' := by decide
    rw [configPath, joinPath, if_neg hname]
    split_ifs
    · exact List.suffix_append _ _
    · exact ⟨rokDir home ++ ['/'], by simp⟩
  intro h
  rw [← h] at hsuffix
  exact absurd hsuffix (by decide)

/-- Whatever becomes of the call after its write, the write stays, and a session is installed
only by a call that succeeds. -/
theorem activate_frame {session : Session} {path : List Char} {data : Bytes}
    {autoLoad : Option Bool} {w w' : World σ} {r : Except (Fault McpError) String}
    (hpath : path ≠ settingsPath)
    (h : (activate m C E connect serde os session path data autoLoad).exec w = (r, w')) :
    w'.disk path = os.leaves path data ∧ ((∀ text, r ≠ .ok text) → w'.service = w.service) ∧
      ∀ text, r = .ok text → ∃ count, w'.service.session = some ⟨session, count⟩ := by
  have hkept : ((ensurePermissions serde os).exec
      (Function.update w.disk path (os.leaves path data))).2 path = os.leaves path data :=
    ((ensurePermissions_frame rfl).2 path hpath).trans (Function.update_self _ _ _)
  unfold activate at h
  obtain ⟨_, _, h⟩ | ⟨e, _, rfl, rfl⟩ := Program.exec_bind_cases h
  · obtain ⟨_, _, h⟩ | ⟨e, _, rfl, rfl⟩ := Program.exec_bind_cases h
    · obtain ⟨count, _, h⟩ | ⟨e, _, rfl, rfl⟩ := Program.exec_bind_cases h
      · obtain ⟨rfl, rfl⟩ := Prod.mk.inj h
        exact ⟨hkept, fun hr => absurd rfl (hr _), fun _ _ => ⟨count, rfl⟩⟩
      · exact ⟨hkept, fun _ => rfl, nofun⟩
    · exact ⟨hkept, fun _ => rfl, nofun⟩
  · exact ⟨Function.update_self _ _ _, fun _ => rfl, nofun⟩

/-- A setup that succeeds installs the session of its configuration. Another leaves the service as
it was. -/
theorem setup_frame {params : SetupParams} {w w' : World σ} {r : Except (Fault McpError) String}
    (h : (setup m C E connect hexDecode serde os params).exec w = (r, w')) :
    ((∀ text, r ≠ .ok text) → w'.service = w.service) ∧
      ∀ text, r = .ok text → ∃ session count,
        buildSessionFromConfig hexDecode params.config = some session ∧
          w'.service.session = some ⟨session, count⟩ := by
  cases hprepare : params.prepare hexDecode serde os with
  | error fault =>
    rw [setup_of_prepare_error hprepare] at h
    obtain ⟨rfl, rfl⟩ := Prod.mk.inj h
    exact ⟨fun _ => rfl, nofun⟩
  | ok prepared =>
    obtain ⟨session, path, data⟩ := prepared
    obtain ⟨hbuild, home, _, rfl⟩ := SetupParams.prepare_eq_ok hprepare
    rw [setup_of_prepare_ok hprepare] at h
    obtain ⟨_, hkept, hinstalled⟩ := activate_frame (settingsPath_ne_configPath home).symm h
    refine ⟨hkept, fun text hr => ?_⟩
    obtain ⟨count, hcount⟩ := hinstalled text hr
    exact ⟨session, count, hbuild, hcount⟩

/-- What goes well in a call that gets to the write: the write, the extension of the settings, the
loading of the keys and the listing. -/
@[mk_iff] structure Completes (m : Overflow) (C : Crypto (Vector UInt8)) (E : KeyText)
    (connect : Session.Connect σ) (serde : SerdeJson) (os : Os) (session : Session)
    (path : List Char) (data : Bytes) (w : World σ) : Prop where
  written : os.write path data = .ok ()
  permits : Permits serde os (w.disk settingsPath)
  counts : session.Counts m C E connect w.storage

/-- Such a call reports an error exactly where one of these fails. -/
theorem activate_isErr_iff {session : Session} (hv : session.scope.Valid) {path : List Char}
    {data : Bytes} (autoLoad : Option Bool) (hpath : path ≠ settingsPath) (w : World σ) :
    IsErr ((activate m C E connect serde os session path data autoLoad).exec w).1 ↔
      ¬ Completes m C E connect serde os session path data w := by
  have hother : (Function.update w.disk path (os.leaves path data)) settingsPath =
      w.disk settingsPath := Function.update_of_ne hpath.symm _ _
  have hwrite : IsErr (mapErr (os.write path data) Prod.fst) ↔ ¬ os.write path data = .ok () := by
    rw [isErr_iff_of_ne_panic (mapErr_ne_panic _ _), Unique.forall_iff, Ne, mapErr_eq_ok_iff]
  have hpermits : ∀ disk : Disk, IsErr ((ensurePermissions serde os).exec disk).1 ↔
      ¬ Permits serde os (disk settingsPath) := by
    intro disk
    have hne : ((ensurePermissions serde os).exec disk).1 ≠ .error .panic :=
      (ensurePermissions_frame rfl).1
    rw [isErr_iff_of_ne_panic hne, Unique.forall_iff, ← ensurePermissions_ok_iff]
  simp only [activate, Program.isErr_exec_bind_iff, World.exec_onDisk, World.exec_onStorage,
    Program.exec_mapError, isErr_mapFault_iff, countMemories_isErr_iff _ _ _ _ hv, Os.writeFile,
    Program.exec_effect, Prod.mk.injEq, hwrite, hpermits, mapFault_eq_ok_iff, mapErr_eq_ok_iff,
    Unique.exists_iff, and_assoc, exists_and_left, exists_eq_left', PUnit.default_eq_unit,
    ensurePermissions_ok_iff, hother, World.exec_setSession, Program.exec_pure, not_isErr_ok,
    and_false, exists_false, or_false, completes_iff]
  by_cases hw : os.write path data = .ok ()
  · by_cases hp : Permits serde os (w.disk settingsPath)
    · simp [hw, hp]
    · simp [hp, hw]
  · simp [hw]

/-- From the write on, a call that reports an error leaves the file and the service as they were,
exactly where the write changes nothing or nothing fails. -/
theorem activate_untouched_iff {session : Session} (hv : session.scope.Valid) {path : List Char}
    {data : Bytes} (autoLoad : Option Bool) (hpath : path ≠ settingsPath) (w : World σ) :
    (∀ e w', (activate m C E connect serde os session path data autoLoad).exec w =
      (.error (.err e), w') → w'.service = w.service ∧ w'.disk path = w.disk path) ↔
    os.leaves path data = w.disk path ∨ Completes m C E connect serde os session path data w := by
  constructor
  · intro h
    by_contra hno
    rw [not_or, ← activate_isErr_iff hv autoLoad hpath] at hno
    obtain ⟨hleaves, e, he⟩ := hno
    have hkept := h e _ (Prod.ext he rfl)
    exact hleaves ((activate_frame hpath rfl).1.symm.trans hkept.2)
  · intro h e w' hexec
    obtain ⟨hwritten, hkept, _⟩ := activate_frame hpath hexec
    have hfails := (activate_isErr_iff hv autoLoad hpath w).mp ⟨e, congrArg Prod.fst hexec⟩
    exact ⟨hkept nofun, hwritten.trans (h.resolve_right hfails)⟩

/-- What the call that fails must not touch: the service, and the configuration in the home
directory. -/
structure Untouched (os : Os) (w w' : World σ) : Prop where
  service : w'.service = w.service
  config : ∀ home, os.home = some home → w'.disk (configPath home) = w.disk (configPath home)

/-- Setup leaves the configuration and the session in force whenever it reports an error, exactly
where it fails before the write, the write leaves the file as it was, or all goes well after it. -/
theorem failed_setup_untouched_iff (m : Overflow) (C : Crypto (Vector UInt8)) (E : KeyText)
    (connect : Session.Connect σ) (hexDecode : String → Except String Bytes) (serde : SerdeJson)
    (os : Os) (params : SetupParams) (w : World σ) :
    (∀ e w', (setup m C E connect hexDecode serde os params).exec w = (.error (.err e), w') →
      Untouched os w w') ↔
    ∀ session path data, params.prepare hexDecode serde os = .ok (session, path, data) →
      os.leaves path data = w.disk path ∨
        Completes m C E connect serde os session path data w := by
  constructor
  · intro h session path data hprepare
    obtain ⟨hbuild, home, hhome, rfl⟩ := SetupParams.prepare_eq_ok hprepare
    have hv : session.scope.Valid := buildSessionFromConfig_scope hbuild ▸ Scope.root_valid
    refine (activate_untouched_iff hv params.autoLoad (settingsPath_ne_configPath home).symm w).mp
      fun e w' hexec => ?_
    have huntouched := h e w' ((setup_of_prepare_ok hprepare w).trans hexec)
    exact ⟨huntouched.service, huntouched.config home hhome⟩
  · intro h e w' hexec
    cases hprepare : params.prepare hexDecode serde os with
    | error fault =>
      rw [setup_of_prepare_error hprepare] at hexec
      obtain ⟨_, rfl⟩ := Prod.mk.inj hexec
      exact ⟨rfl, fun _ _ => rfl⟩
    | ok prepared =>
      obtain ⟨session, path, data⟩ := prepared
      obtain ⟨hbuild, home, hhome, rfl⟩ := SetupParams.prepare_eq_ok hprepare
      have hv : session.scope.Valid := buildSessionFromConfig_scope hbuild ▸ Scope.root_valid
      rw [setup_of_prepare_ok hprepare] at hexec
      obtain ⟨hservice, hfile⟩ := (activate_untouched_iff hv params.autoLoad
        (settingsPath_ne_configPath home).symm w).mpr (h _ _ _ hprepare) e w' hexec
      refine ⟨hservice, fun home' hhome' => ?_⟩
      obtain rfl := Option.some.inj (hhome.symm.trans hhome')
      exact hfile

end Setup

/-- A text in quotes. Only quotes and backslashes are escaped. -/
def quoteText (s : String) : List Char :=
  '"' :: (s.toList.flatMap fun c => if c = '"' ∨ c = '\\' then ['\\', c] else [c]) ++ ['"']

def newline (depth : ℕ) : List Char := '\n' :: List.replicate (2 * depth) ' '

mutual

/-- A value over several lines, indented by two blanks. -/
def prettyValue (depth : ℕ) : Json → List Char
  | .null => "null".toList
  | .bool b => if b then "true".toList else "false".toList
  | .number literal => literal.toList
  | .string s => quoteText s
  | .array [] => ['[', ']']
  | .array (v :: rest) => '[' :: newline (depth + 1) ++ prettyValue (depth + 1) v ++
      prettyItems (depth + 1) rest ++ newline depth ++ [']']
  | .object [] => ['\x7b', '\x7d']
  | .object (m :: rest) => '\x7b' :: newline (depth + 1) ++ prettyMember (depth + 1) m ++
      prettyMembers (depth + 1) rest ++ newline depth ++ ['\x7d']

def prettyItems (depth : ℕ) : List Json → List Char
  | [] => []
  | v :: rest => ',' :: newline depth ++ prettyValue depth v ++ prettyItems depth rest

def prettyMember (depth : ℕ) : String × Json → List Char
  | (key, v) => quoteText key ++ [':', ' '] ++ prettyValue depth v

def prettyMembers (depth : ℕ) : List (String × Json) → List Char
  | [] => []
  | m :: rest => ',' :: newline depth ++ prettyMember depth m ++ prettyMembers depth rest

end

/-- A writer of indented texts. It reads none. -/
def prettySerde : SerdeJson where
  fromStr _ := .error "EOF while parsing a value at line 1 column 0"
  toStringPretty v := .ok (prettyValue 0 v)

example : prettyValue 0 (.object [("a", .array [.null]), ("b", .object [])]) =
    "\x7b\n  \"a\": [\n    null\n  ],\n  \"b\": \x7b\x7d\n\x7d".toList := by decide

/-- An operating system on which every call succeeds. -/
def willingOs : Os where
  home := some "/home/u".toList
  createDirAll _ := .ok ()
  readToString _ := .ok ()
  write _ _ := .ok ()

/-- The configuration of an owner. -/
def ownerConfig : SessionConfig where
  apiKey := some "k"
  fileverseUrl := some defaultFileverseUrl
  spendSeed := some (String.ofList (List.replicate 64 '0'))
  readKey := none
  spendPublic := none
  autoLoad := none

/-- The owner's session is active, and its configuration stored. -/
def ownerWorld : World (AList fun _ : List Char × List Char => Bytes) where
  service := ⟨some ⟨Session.newOwner (zeros 32) Scope.root defaultFileverseUrl "k", 0⟩, false⟩
  storage := ∅
  disk := Function.update (fun _ => none) (configPath "/home/u".toList)
    (some (toUtf8 (prettyValue 0 ownerConfig.toJson)))

/-- The credentials of an agent, with keys that are no keys. -/
def mistyped : SetupParams where
  apiKey := "k"
  fileverseUrl := defaultFileverseUrl
  spendSeed := none
  readKey := some "abc"
  spendPublic := some "abc"
  autoLoad := none

/-- The setup fails, and the credentials that do not work stand in the place of the seed. -/
theorem setup_replaces_seed :
    ((setup .wrapping base58Arrays base58Text (fun _ _ => pairBackend)
        (fun _ => .error "Odd number of digits") prettySerde willingOs mistyped).exec
          ownerWorld).1 =
        .error (.err (.internalError "connect failed: encoding error: encoded data too short")) ∧
      ownerWorld.disk (configPath "/home/u".toList) =
        some (toUtf8 (prettyValue 0 ownerConfig.toJson)) ∧
      ((setup .wrapping base58Arrays base58Text (fun _ _ => pairBackend)
        (fun _ => .error "Odd number of digits") prettySerde willingOs mistyped).exec
          ownerWorld).2.disk (configPath "/home/u".toList) =
        some (toUtf8 (prettyValue 0 mistyped.config.toJson)) ∧
      prettyValue 0 mistyped.config.toJson ≠ prettyValue 0 ownerConfig.toJson := by
  refine ⟨by decide +kernel, rfl, by decide +kernel, by decide +kernel⟩

end ReadOnlyKeys
