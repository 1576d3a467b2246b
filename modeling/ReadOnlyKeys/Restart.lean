import ReadOnlyKeys.ToolRuns

/-!
# Starting again from the configuration

A server that starts reads the configuration file. What a setup has written there
is read back as it was, however many requests and failed setups come between.
-/
namespace ReadOnlyKeys
open Outcome Wire

variable {σ ρ : Type}

section Load

/-- The `Deserialize` of an optional text. -/
def optionText : Json → Option (Option String)
  | .null => some none
  | .string s => some (some s)
  | _ => none

/-- The `Deserialize` of an optional flag. -/
def optionBool : Json → Option (Option Bool)
  | .null => some none
  | .bool b => some (some b)
  | _ => none

/-- A field of an object. It is absent by default, and may not stand there twice. -/
def field {α : Type} (read : Json → Option (Option α)) (key : String)
    (members : List (String × Json)) : Option (Option α) :=
  match members.filter fun m => m.1 = key with
  | [] => some none
  | [m] => read m.2
  | _ => none

/-- A field by its position in an array. -/
def item {α : Type} (read : Json → Option (Option α)) (i : ℕ) (items : List Json) :
    Option (Option α) := (items[i]?).elim (some none) read

/-- The derived `Deserialize`, which ignores other members and takes the fields in order from an
array. -/
def SessionConfig.fromJson : Json → Option SessionConfig
  | .object members => do
    let apiKey ← field optionText "apiKey" members
    let fileverseUrl ← field optionText "fileverseUrl" members
    let spendSeed ← field optionText "spendSeed" members
    let readKey ← field optionText "readKey" members
    let spendPublic ← field optionText "spendPublic" members
    let autoLoad ← field optionBool "autoLoad" members
    return ⟨apiKey, fileverseUrl, spendSeed, readKey, spendPublic, autoLoad⟩
  | .array items => do
    let apiKey ← item optionText 0 items
    let fileverseUrl ← item optionText 1 items
    let spendSeed ← item optionText 2 items
    let readKey ← item optionText 3 items
    let spendPublic ← item optionText 4 items
    let autoLoad ← item optionBool 5 items
    if items.length ≤ 6 then
      return ⟨apiKey, fileverseUrl, spendSeed, readKey, spendPublic, autoLoad⟩
    else none
  | _ => none

/-- Load the configuration. `readTree` is the parser of the JSON crate, which keeps members of one
name. -/
def SessionConfig.load (readTree : List Char → Except String Json) (os : Os) (disk : Disk) :
    Option SessionConfig := do
  let home ← os.home
  let path := joinPath home ".rok/session.json".toList
  let data ← disk path
  let _ ← (os.readToString path).toOption
  let contents ← fromUtf8 data
  let v ← (readTree contents).toOption
  SessionConfig.fromJson v

@[simp] theorem optionText_elim (s : Option String) :
    optionText (s.elim .null .string) = some s := by
  cases s <;> rfl

@[simp] theorem optionBool_elim (b : Option Bool) : optionBool (b.elim .null .bool) = some b := by
  cases b <;> rfl

/-- What is serialized is read back. -/
theorem SessionConfig.fromJson_toJson (self : SessionConfig) :
    SessionConfig.fromJson self.toJson = some self := by
  simp [SessionConfig.toJson, SessionConfig.fromJson, field]

/-- The two spellings of the path. -/
theorem configPath_eq (home : List Char) :
    joinPath home ".rok/session.json".toList = configPath home := by
  have hfull : ".rok/session.json".toList.head? ≠ some '/' := by decide
  have hdir : ".rok".toList.head? ≠ some '/' := by decide
  have hname : "session.json".toList.head? ≠ some '/' := by decide
  have hsplit : ".rok/session.json".toList = ".rok".toList ++ '/' :: "session.json".toList := by
    decide
  -- The directory ends with a letter, so that the name is joined to it with a slash.
  have hlast (front : List Char) : ¬ (front ++ ".rok".toList = [] ∨
      (front ++ ".rok".toList).getLast? = some '/') := by
    rw [List.getLast?_append_of_ne_nil _ (by decide)]
    simp
  simp only [configPath, rokDir, joinPath, if_neg hfull, if_neg hdir, if_neg hname]
  by_cases hhome : home = [] ∨ home.getLast? = some '/'
  · rw [if_pos hhome, if_pos hhome, if_neg (hlast home), hsplit, List.append_assoc]
  · have hslash : ¬ (home ++ '/' :: ".rok".toList = [] ∨
        (home ++ '/' :: ".rok".toList).getLast? = some '/') := by
      have h := hlast (home ++ ['/'])
      rwa [List.append_assoc] at h
    rw [if_neg hhome, if_neg hhome, if_neg hslash, hsplit, List.append_assoc]
    rfl

end Load

section Restart

variable {C : Crypto (Vector UInt8)} {self : Server C σ ρ}
  {readTree : List Char → Except String Json}

/-- Reading what the writer has written of a value gives the value back. -/
def SerdeJson.ReadBack (serde : SerdeJson) (readTree : List Char → Except String Json) (v : Json) :
    Prop := ∀ json, serde.toStringPretty v = .ok json → readTree json = .ok v

/-- The file of a configuration is loaded as it. -/
theorem SessionConfig.load_of_file {serde : SerdeJson} {cfg : SessionConfig}
    (hread : serde.ReadBack readTree cfg.toJson) {os : Os} {home : List Char}
    (hhome : os.home = some home) {disk : Disk} {json : List Char}
    (hjson : serde.toStringPretty cfg.toJson = .ok json)
    (hfile : disk (configPath home) = some (toUtf8 json))
    (hreadable : os.readToString (configPath home) = .ok ()) :
    SessionConfig.load readTree os disk = some cfg := by
  simp only [SessionConfig.load, hhome, configPath_eq, hfile, hreadable, hread json hjson,
    Option.bind_eq_bind, Option.bind_some, Except.toOption, fromUtf8_toUtf8,
    SessionConfig.fromJson_toJson]

/-- The request is no setup, or a setup that fails before it writes. -/
def ToolCall.KeepsConfig (server : Server C σ ρ) : ToolCall ρ → Prop
  | .setup os params => ∃ fault, params.prepare server.hexDecode server.serde os = .error fault
  | _ => True

namespace Server

/-- Such a request leaves the files. -/
theorem disk_step {op : ToolCall ρ} (hop : op.KeepsConfig self) (w : World σ) :
    (self.step w op).disk = w.disk := by
  cases op with
  | setup os params =>
    obtain ⟨fault, hfault⟩ := hop
    simp only [step, exec_call, handler, Program.exec_map, setup_of_prepare_error hfault]
  | login params =>
    have hlogin : (login self.m C self.keyText self.connect self.hexDecode params).Moves
        (Program.Same World.disk) :=
      .attempt_bind fun _ _ => .attempt_bind fun _ _ => Program.Moves.bind (fun _ => rfl)
        fun _ => Program.Moves.bind (fun _ => rfl) fun _ => Program.moves_pure _
    exact hlogin.map _ w
  | logout =>
    have hlogout : (logout : Program McpError (World σ) String).Moves
        (Program.Same World.disk) :=
      Program.moves_get.bind fun _ => .attempt_bind fun _ _ =>
        Program.Moves.bind (fun _ => rfl) fun _ => Program.moves_pure _
    exact hlogout.map _ w
  | _ => rfl

/-- A server that starts with what is on the disk. -/
def restart (self : Server C σ ρ) (readTree : List Char → Except String Json) (os : Os)
    (w : World σ) : World σ :=
  ⟨newWithConfig self.hexDecode (SessionConfig.load readTree os w.disk), w.storage, w.disk⟩

/-- Once a setup has written its configuration, a server that starts later makes its session of
it, whatever else the setup reports and whatever requests come between, short of another setup
that writes. If the setup succeeds, it is the session that it installs. -/
theorem restart_restores_setup (self : Server C σ ρ) (os : Os) (params : SetupParams)
    (hread : self.serde.ReadBack readTree params.config.toJson) {session : Session}
    {path : List Char} {data : Bytes}
    (hprepare : params.prepare self.hexDecode self.serde os = .ok (session, path, data))
    (hwrite : os.write path data = .ok ()) (w : World σ) (ops : List (ToolCall ρ))
    (hops : ∀ op ∈ ops, op.KeepsConfig self) (os' : Os) (hhome : os'.home = os.home)
    (hreadable : os'.readToString path = .ok ()) :
    ∀ w', Runs.run self.step w (.setup os params :: ops) = w' →
      SessionConfig.load readTree os' w'.disk = some params.config ∧
      (self.restart readTree os' w').service =
        ⟨some ⟨session, 0⟩, params.autoLoad.getD false⟩ ∧
      (self.restart readTree os' w').storage = w'.storage ∧
      ∀ text, self.answer w (.setup os params) = .ok text →
        (self.step w (.setup os params)).activeSession = some session ∧
          (self.restart readTree os' w').activeSession = some session := by
  intro w' hrun
  have hbuild := (SetupParams.prepare_eq_ok hprepare).1
  obtain ⟨home, hos, hpath, json, hjson, hdata⟩ : ∃ home, os.home = some home ∧
      path = configPath home ∧ ∃ json, self.serde.toStringPretty params.config.toJson = .ok json ∧
        data = toUtf8 json := by
    simp only [SetupParams.prepare, bind_eq_ok_iff, okOr_eq_ok_iff, mapErr_eq_ok_iff] at hprepare
    obtain ⟨_, _, home, hos, _, _, json, hjson, h⟩ := hprepare
    obtain ⟨_, hrest⟩ := Prod.mk.inj (Except.ok.inj h)
    obtain ⟨hpath, hdata⟩ := Prod.mk.inj hrest
    exact ⟨home, hos, hpath.symm, json, hjson, hdata.symm⟩
  subst hpath hdata
  have hfile : (self.step w (.setup os params)).disk (configPath home) = some (toUtf8 json) := by
    simp only [step, exec_call, handler, Program.exec_map, setup_of_prepare_ok hprepare]
    cases hexec : (activate self.m C self.keyText self.connect self.serde os session
        (configPath home) (toUtf8 json) params.autoLoad).exec w with
    | mk r w₁ =>
      rw [(activate_frame (settingsPath_ne_configPath home).symm hexec).1, Os.leaves, hwrite]
  have hdisk : w'.disk = (self.step w (.setup os params)).disk := by
    rw [← hrun, Runs.run_cons]
    exact Runs.run_invariant (fun w₁ => w₁.disk = (self.step w (.setup os params)).disk) ops
      (fun op hop w₁ h => (disk_step (hops op hop) w₁).trans h) rfl
  have hload : SessionConfig.load readTree os' w'.disk = some params.config :=
    SessionConfig.load_of_file hread (hhome.trans hos) hjson (by rw [hdisk, hfile]) hreadable
  have hservice : (self.restart readTree os' w').service =
      ⟨some ⟨session, 0⟩, params.autoLoad.getD false⟩ := by
    simp only [restart, hload, newWithConfig, Option.bind_some, hbuild, Option.map_some,
      Option.isSome_some, Bool.and_true]
    rfl
  refine ⟨hload, hservice, rfl, fun text hanswer => ⟨?_, ?_⟩⟩
  · simp only [answer, step, exec_call, handler, Program.exec_map] at hanswer ⊢
    cases hexec : (setup self.m C self.keyText self.connect self.hexDecode self.serde os
        params).exec w with
    | mk r w₁ =>
      rw [hexec] at hanswer
      cases r with
      | error fault => cases hanswer
      | ok answer =>
        obtain ⟨session', count, hbuild', hw₁⟩ := (setup_frame hexec).2 answer rfl
        obtain rfl := Option.some.inj (hbuild.symm.trans hbuild')
        rw [World.activeSession, hw₁]
        rfl
  · rw [World.activeSession, hservice]
    rfl

end Server

end Restart

/-- The setup of the zero seed's owner. -/
def ownerSetup : SetupParams where
  apiKey := "k"
  fileverseUrl := defaultFileverseUrl
  spendSeed := some (String.ofList (List.replicate 64 '0'))
  readKey := none
  spendPublic := none
  autoLoad := some true

/-- A parser as far as the configuration of the setup needs it. -/
def ownerTree (contents : List Char) : Except String Json :=
  if contents = prettyValue 0 ownerSetup.config.toJson then .ok ownerSetup.config.toJson
  else .error "EOF while parsing a value at line 1 column 0"

/-- The owner sets up the server, writes two memories and logs out. The server that starts then has
the owner's session again. -/
theorem restart_restores_setup_owner : ∃ session w', session.role = .owner ∧
    Runs.run clientServer.step agentWorld (.setup willingOs ownerSetup :: twoMemories ++ [.logout]) =
      w' ∧ (clientServer.restart ownerTree willingOs w').activeSession = some session := by
  obtain ⟨session, data, hprepare⟩ : ∃ session data, ownerSetup.prepare clientServer.hexDecode
      clientServer.serde willingOs = .ok (session, configPath "/home/u".toList, data) := ⟨_, _, rfl⟩
  have hread : clientServer.serde.ReadBack ownerTree ownerSetup.config.toJson := by
    intro json hjson
    rw [← Except.ok.inj hjson]
    exact if_pos rfl
  have hrole : session.role = .owner := by
    have hbuild := (SetupParams.prepare_eq_ok hprepare).1
    rcases buildSessionFromConfig_cases hbuild with ⟨_, _, _, _, rfl⟩ | ⟨hseed, _⟩
    · rfl
    · cases hseed
  have hops : ∀ op ∈ twoMemories ++ [.logout], op.KeepsConfig clientServer := by
    intro op hop
    simp only [twoMemories, List.cons_append, List.nil_append, List.mem_cons, List.not_mem_nil,
      or_false] at hop
    rcases hop with rfl | rfl | rfl <;> trivial
  have h := Server.restart_restores_setup clientServer willingOs ownerSetup hread hprepare rfl
    agentWorld (twoMemories ++ [.logout]) hops willingOs rfl rfl _ rfl
  refine ⟨session, _, hrole, rfl, ?_⟩
  rw [World.activeSession]
  exact congrArg (fun service => service.session.map ActiveSession.toSession) h.2.1

end ReadOnlyKeys
