import ReadOnlyKeys.Setup
import ReadOnlyKeys.Lib.Runs

/-!
# The scope of a session

A session has the scope that it was made with. Its key has that scope if it is
derived from the seed of an owner. The key of an agent has the scope that is
written in its text, which the tools do not compare with the other.
-/
namespace ReadOnlyKeys
open Outcome Wire

variable {σ : Type} {m : Overflow} {C : Crypto (Vector UInt8)} {E : KeyText}
  {connect : Session.Connect σ} {hexDecode : String → Except String Bytes} {serde : SerdeJson}

/-- An owner's key has the scope of the session, and an agent's exactly if its text has. -/
theorem Session.readKey_scope_iff {self : Session} {k : ReadKeyPair C}
    (h : self.readKey C E = .ok k) : k.scope = self.scope ↔ self.role = .owner ∨
      ∃ x, self.credentials.readKeyEncoded = some x ∧
        Encoding.scopeBytes E x = some (toUtf8 self.scope.path) := by
  unfold readKey at h
  cases hrole : self.role with
  | owner =>
    refine iff_of_true ?_ (.inl rfl)
    simp only [hrole, bind_eq_ok_iff] at h
    obtain ⟨spend, _, h⟩ := h
    split_ifs at h with hroot
    · rw [← Except.ok.inj h, hroot]
      rfl
    · rw [mapFault_eq_ok_iff, ReadKeyPair.deriveChild_eq_ok_iff] at h
      rw [h.2]
      rfl
  | agent =>
    simp only [hrole, bind_eq_ok_iff, okOr_eq_ok_iff, mapFault_eq_ok_iff] at h
    obtain ⟨x, hx, exported, hdecode, himport⟩ := h
    obtain ⟨_, rfl⟩ := (ReadKeyPair.importKey_eq_ok_iff _ _).mp himport
    simp only [hx, Option.some.injEq, exists_eq_left', Encoding.scopeBytes_of_decode hdecode,
      toUtf8_injective.eq_iff, Scope.ext_iff, reduceCtorEq, false_or]

/-- The key that the session loads, if it loads one, has the scope of the session. -/
def Session.Agrees (C : Crypto (Vector UInt8)) (E : KeyText) (self : Session) : Prop :=
  ∀ k, self.readKey C E = .ok k → k.scope = self.scope

/-- The configuration has a seed, or the root is the scope in the text of the read key. -/
def SessionConfig.Fits (E : KeyText) (self : SessionConfig) : Prop :=
  self.spendSeed ≠ none ∨
    ∃ x, self.readKey = some x ∧ Encoding.scopeBytes E x = some (toUtf8 Scope.root.path)

/-- The parameters have a seed, or their scope is the one in the text of the read key. -/
def LoginParams.Fits (E : KeyText) (self : LoginParams) : Prop :=
  self.spendSeed ≠ none ∨
    ∃ x, self.readKey = some x ∧ Encoding.scopeBytes E x = some (toUtf8 self.scope)

theorem SessionConfig.scope_eq_iff {cfg : SessionConfig} {session : Session} {k : ReadKeyPair C}
    (h : buildSessionFromConfig hexDecode cfg = some session) (hk : session.readKey C E = .ok k) :
    k.scope = session.scope ↔ cfg.Fits E := by
  rw [Session.readKey_scope_iff hk, SessionConfig.Fits]
  rcases buildSessionFromConfig_cases h with ⟨hseed, _, _, _, rfl⟩ | ⟨hseed, rk, _, _, _, hrk, rfl⟩
  · exact iff_of_true (.inl rfl) (.inl hseed)
  · simp [hseed, hrk, Session.newAgent]

theorem LoginParams.scope_eq_iff {params : LoginParams} {scope : Scope} {session : Session}
    {k : ReadKeyPair C} (hscope : scope.path = params.scope)
    (h : params.session hexDecode scope = .ok session) (hk : session.readKey C E = .ok k) :
    k.scope = session.scope ↔ params.Fits E := by
  rw [Session.readKey_scope_iff hk, LoginParams.Fits]
  rcases LoginParams.session_cases h with ⟨hseed, _, _, _, rfl⟩ | ⟨hseed, rk, _, _, _, hrk, rfl⟩
  · exact iff_of_true (.inl rfl) (.inl hseed)
  · simp [hseed, hrk, Session.newAgent, hscope]

/-- What happens to the server: calls of the tools, and changes of the storage and of the files
by others. -/
inductive ServerOp (σ : Type) where
  | login (params : LoginParams)
  | setup (os : Os) (params : SetupParams)
  | logout
  | outside (storage : σ) (disk : Disk)

namespace ServerOp

def step (m : Overflow) (C : Crypto (Vector UInt8)) (E : KeyText) (connect : Session.Connect σ)
    (hexDecode : String → Except String Bytes) (serde : SerdeJson) (w : World σ) :
    ServerOp σ → World σ
  | login params => ((ReadOnlyKeys.login m C E connect hexDecode params).exec w).2
  | setup os params => ((ReadOnlyKeys.setup m C E connect hexDecode serde os params).exec w).2
  | logout => (ReadOnlyKeys.logout.exec w).2
  | outside storage disk => { w with storage, disk }

/-- The session that the call asks for would have the scope of its key. -/
def Fits (E : KeyText) : ServerOp σ → Prop
  | login params => params.Fits E
  | setup _ params => params.config.Fits E
  | logout => True
  | outside _ _ => True

end ServerOp

/-- The active session has the scope of its key. -/
def World.Agrees (C : Crypto (Vector UInt8)) (E : KeyText) (w : World σ) : Prop :=
  ∀ active, w.service.session = some active → active.Agrees C E

lemma World.Agrees.of_service_eq {w w' : World σ} (h : w.Agrees C E)
    (hservice : w'.service = w.service) : w'.Agrees C E := by
  intro active hactive
  rw [hservice] at hactive
  exact h active hactive

theorem login_agrees {params : LoginParams} (hfits : params.Fits E) {w : World σ}
    (h : w.Agrees C E) : ((login m C E connect hexDecode params).exec w).2.Agrees C E := by
  cases hexec : (login m C E connect hexDecode params).exec w with
  | mk r w' =>
    obtain ⟨hkept, hinstalled⟩ := login_frame hexec
    cases r with
    | ok text =>
      obtain ⟨scope, session, count, hscope, hsession, hw'⟩ := hinstalled text rfl
      intro active hactive k hk
      obtain rfl := Option.some.inj (hw'.symm.trans hactive)
      exact (LoginParams.scope_eq_iff hscope hsession hk).mpr hfits
    | error fault => exact h.of_service_eq (hkept nofun)

theorem setup_agrees {params : SetupParams} (hfits : params.config.Fits E) (os : Os) {w : World σ}
    (h : w.Agrees C E) :
    ((setup m C E connect hexDecode serde os params).exec w).2.Agrees C E := by
  cases hexec : (setup m C E connect hexDecode serde os params).exec w with
  | mk r w' =>
    obtain ⟨hkept, hinstalled⟩ := setup_frame hexec
    cases r with
    | ok text =>
      obtain ⟨session, count, hbuild, hw'⟩ := hinstalled text rfl
      intro active hactive k hk
      obtain rfl := Option.some.inj (hw'.symm.trans hactive)
      exact (SessionConfig.scope_eq_iff hbuild hk).mpr hfits
    | error fault => exact h.of_service_eq (hkept nofun)

theorem logout_agrees {w : World σ} (h : w.Agrees C E) : (logout.exec w).2.Agrees C E := by
  unfold logout
  rw [Program.exec_bind, Program.exec_get]
  simp only [Program.exec_attempt_bind]
  cases hactive : require (w.service.session.isSome = true)
      (McpError.invalidParams "no active session") with
  | error fault => exact h
  | ok _ =>
    intro active hactive
    cases hactive

/-- Every call that fits keeps the agreement. -/
theorem ServerOp.step_agrees {op : ServerOp σ} (hfits : op.Fits E) {w : World σ}
    (h : w.Agrees C E) : (op.step m C E connect hexDecode serde w).Agrees C E := by
  cases op with
  | login params => exact login_agrees hfits h
  | setup os params => exact setup_agrees hfits os h
  | logout => exact logout_agrees h
  | outside storage disk => exact h.of_service_eq rfl

/-- A service that starts with a configuration that fits agrees. -/
theorem newWithConfig_agrees {config : Option SessionConfig}
    (hfits : ∀ cfg, config = some cfg → cfg.Fits E) (storage : σ) (disk : Disk) :
    World.Agrees C E ⟨newWithConfig hexDecode config, storage, disk⟩ := by
  intro active hactive k hk
  simp only [newWithConfig, Option.map_eq_some_iff, Option.bind_eq_some_iff] at hactive
  obtain ⟨session, ⟨cfg, hcfg, hbuild⟩, rfl⟩ := hactive
  exact (SessionConfig.scope_eq_iff hbuild hk).mpr (hfits cfg hcfg)

/-- A session of a configuration or of a login has the scope of its key exactly when it is an
owner's, or its scope is the one in the text of the key. Where all sessions are asked for so, the
status and the dump name the scope of the key that lists and reads. -/
theorem session_scope_iff (m : Overflow) (C : Crypto (Vector UInt8)) (E : KeyText)
    (connect : Session.Connect σ) (hexDecode : String → Except String Bytes) (serde : SerdeJson) :
    (∀ (cfg : SessionConfig) (session : Session),
      buildSessionFromConfig hexDecode cfg = some session →
      ∀ k : ReadKeyPair C, session.readKey C E = .ok k → (k.scope = session.scope ↔ cfg.Fits E)) ∧
    (∀ (params : LoginParams) (w w' : World σ) (text : String),
      (login m C E connect hexDecode params).exec w = (.ok text, w') →
      ∃ active, w'.service.session = some active ∧
        ∀ k, active.readKey C E = .ok k → (k.scope = active.scope ↔ params.Fits E)) ∧
    (∀ (config : Option SessionConfig) (storage : σ) (disk : Disk) (ops : List (ServerOp σ))
      (w' : World σ), (∀ cfg, config = some cfg → cfg.Fits E) →
      (∀ op ∈ ops, op.Fits E) →
      Runs.Reached (ServerOp.step m C E connect hexDecode serde)
        ⟨newWithConfig hexDecode config, storage, disk⟩ ops w' →
      ∀ active, w'.service.session = some active → ∀ k, active.readKey C E = .ok k →
        k.scope = active.scope ∧
          status w'.service = statusText active.role k.scope active.memoryCount) ∧
    ∀ (cfg : SessionConfig) (lines : List String) (s s' : σ), cfg.Fits E →
      (dumpMemories m C E connect hexDecode (some cfg)).exec s = (.ok lines, s') → lines ≠ [] →
      ∃ (session : Session) (reader : MemoryReader C σ) (k : ReadKeyPair C)
        (entries : List MemoryEntry), buildSessionFromConfig hexDecode cfg = some session ∧
        session.readKey C E = .ok k ∧ (reader.list m k).exec s = (.ok entries, s') ∧
        lines.head? = some (dumpHeader entries.length k.scope) := by
  refine ⟨fun cfg session h k hk => SessionConfig.scope_eq_iff h hk, fun params w w' text h => ?_,
    fun config storage disk ops w' hconfig hops hreached active hactive k hk => ?_,
    fun cfg lines s s' hfits h hne => ?_⟩
  · obtain ⟨scope, session, count, hscope, hsession, hw'⟩ := (login_frame h).2 text rfl
    exact ⟨_, hw', fun k hk => LoginParams.scope_eq_iff hscope hsession hk⟩
  · have hagrees : w'.Agrees C E := hreached.invariant
      (fun op hop w hw => ServerOp.step_agrees (hops op hop) hw)
      (newWithConfig_agrees hconfig storage disk)
    have hscope := hagrees active hactive k hk
    refine ⟨hscope, ?_⟩
    rw [status, hactive, hscope]
  · obtain ⟨session, reader, k, entries, hbuild, hk, hlist, hhead, _⟩ := dumpMemories_eq_ok h hne
    refine ⟨session, reader, k, entries, hbuild, hk, hlist, ?_⟩
    rw [hhead, (SessionConfig.scope_eq_iff hbuild hk).mpr hfits]

/-- The session of an agent whose key is at `/a`. -/
def delegatedSession (scope : Scope) : Session :=
  .newAgent (Encoding.encodeExportedReadKey base58Arrays base58Text delegatedKey.exportKey)
    (Encoding.encodeSpendPublic base58Arrays base58Text
      (SpendKeyPair.fromSeed base58Arrays (zeros 32)).verifyingKey) scope defaultFileverseUrl "k"

/-- A login that asks for it. -/
def delegatedLogin (scope : Scope) : LoginParams where
  apiKey := "k"
  fileverseUrl := defaultFileverseUrl
  spendSeed := none
  readKey := (delegatedSession scope).credentials.readKeyEncoded
  spendPublic := (delegatedSession scope).credentials.spendPublicEncoded
  scope := scope.path

/-- A configuration that asks for it, at the root. -/
def delegatedConfig : SessionConfig where
  apiKey := some "k"
  fileverseUrl := none
  spendSeed := none
  readKey := (delegatedSession Scope.root).credentials.readKeyEncoded
  spendPublic := (delegatedSession Scope.root).credentials.spendPublicEncoded
  autoLoad := some true

/-- No session, no memories and no files. -/
def emptyWorld : World (AList fun _ : List Char × List Char => Bytes) :=
  ⟨⟨none, false⟩, ∅, fun _ => none⟩

lemma decode_delegatedKey : Encoding.decodeExportedReadKey base58Text
    (Encoding.encodeExportedReadKey base58Arrays base58Text delegatedKey.exportKey) =
      .ok delegatedKey.exportKey :=
  Encoding.decodeExportedReadKey_encode base58Text_inverts (show Scope.Valid ⟨['/', 'a']⟩ by decide)

/-- The session has the key at `/a`, whatever its scope. -/
lemma readKey_delegated (scope : Scope) :
    (delegatedSession scope).readKey base58Arrays base58Text = .ok delegatedKey := by
  have himport : ReadKeyPair.importKey base58Arrays delegatedKey.exportKey = .ok delegatedKey :=
    ReadKeyPair.importKey_exportKey (fun _ => rfl) (fun s => ⟨s, rfl⟩) delegatedKey
  exact Session.readKey_newAgent decode_delegatedKey himport _ _ _ _

lemma memoryReader_delegated (scope : Scope) : (delegatedSession scope).memoryReader base58Arrays
    base58Text (fun _ _ => pairBackend) =
      .ok ⟨(SpendKeyPair.fromSeed base58Arrays (zeros 32)).verifyingKey, pairBackend⟩ :=
  Session.memoryReader_newAgent (Encoding.decodeSpendPublic_encode base58Text_inverts
    (fun _ => rfl) _) _ _ _ _ _

/-- The agent logs in with every valid scope. -/
lemma login_delegated {scope : Scope} (hv : scope.Valid) :
    ∃ text, (login .wrapping base58Arrays base58Text (fun _ _ => pairBackend)
      (fun _ => .error "Odd number of digits") (delegatedLogin scope)).exec emptyWorld =
        (.ok text, { emptyWorld with service := ⟨some ⟨delegatedSession scope, 0⟩, false⟩ }) := by
  have hscope : Scope.new (delegatedLogin scope).scope = .ok scope :=
    (Scope.new_eq_ok_iff ..).mpr ⟨rfl, hv⟩
  have hlist : ((MemoryReader.mk (SpendKeyPair.fromSeed base58Arrays (zeros 32)).verifyingKey
      pairBackend).list .wrapping delegatedKey).exec emptyWorld.storage = (.ok [], ∅) := rfl
  exact login_of_countMemories hscope rfl (countMemories_of_list (memoryReader_delegated scope)
    (readKey_delegated scope) hlist)

/-- An agent that logs in with the scope of its key is shown that scope. -/
theorem session_scope_iff_agent : (delegatedLogin delegatedKey.scope).Fits base58Text ∧
    ∃ text w' active, (login .wrapping base58Arrays base58Text (fun _ _ => pairBackend)
        (fun _ => .error "Odd number of digits") (delegatedLogin delegatedKey.scope)).exec
          emptyWorld = (.ok text, w') ∧ w'.service.session = some active ∧
      active.readKey base58Arrays base58Text = .ok delegatedKey ∧
      delegatedKey.scope = active.scope := by
  have hfits : (delegatedLogin delegatedKey.scope).Fits base58Text :=
    .inr ⟨_, rfl, Encoding.scopeBytes_of_decode decode_delegatedKey⟩
  have hv : delegatedKey.scope.Valid := by decide
  obtain ⟨text, hlogin⟩ := login_delegated hv
  obtain ⟨active, hactive, hscope⟩ := (session_scope_iff .wrapping base58Arrays base58Text
    (fun _ _ => pairBackend) (fun _ => .error "Odd number of digits") prettySerde).2.1 _ _ _ _ hlogin
  have hkey : active.readKey base58Arrays base58Text = .ok delegatedKey := by
    rw [← Option.some.inj hactive]
    exact readKey_delegated delegatedKey.scope
  exact ⟨hfits, text, _, active, hlogin, hactive, hkey, (hscope _ hkey).mpr hfits⟩

/-- The login with the scope that stands for an absent one, and the configuration, make a session
at the root, whose key lists and reads at `/a`. -/
theorem agent_scope_differs :
    (∃ text w' active, (login .wrapping base58Arrays base58Text (fun _ _ => pairBackend)
        (fun _ => .error "Odd number of digits") (delegatedLogin ⟨defaultScope⟩)).exec emptyWorld =
          (.ok text, w') ∧ w'.service.session = some active ∧
      active.readKey base58Arrays base58Text = .ok delegatedKey ∧
      delegatedKey.scope ≠ active.scope ∧ status w'.service = statusText .agent Scope.root 0) ∧
    ∃ session, buildSessionFromConfig (fun _ => .error "Odd number of digits") delegatedConfig =
        some session ∧ session.readKey base58Arrays base58Text = .ok delegatedKey ∧
      delegatedKey.scope ≠ session.scope := by
  obtain ⟨text, hlogin⟩ := login_delegated Scope.root_valid
  exact ⟨⟨text, _, _, hlogin, rfl, readKey_delegated _, by decide, rfl⟩,
    delegatedSession Scope.root, rfl, readKey_delegated _, by decide⟩

end ReadOnlyKeys
