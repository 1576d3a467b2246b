import ReadOnlyKeys.Memory

/-!
# Listings with bad entries

A listing skips the entries that do not decrypt. An entry that does not parse,
or decrypts at a scope that is none, ends the whole listing instead.
-/
namespace ReadOnlyKeys
open Outcome Wire

variable {σ : Type} {C : Crypto (Vector UInt8)} (m : Overflow) (vk : C.VerifyingKey)
  (readKey : ReadKeyPair C)

/-- The memory in an entry that parses, verifies, decrypts and has a valid scope. -/
def goodEntry (entry : StorageEntry) : Option MemoryEntry :=
  match entry.envelope m with
  | .error _ => none
  | .ok envelope =>
      match decrypt envelope readKey vk with
      | .error _ => none
      | .ok data => if Scope.Valid ⟨entry.scope⟩ then some ⟨⟨entry.scope⟩, entry.key, data⟩ else none

/-- The entry parses, and has a valid scope if it decrypts. -/
structure Harmless (entry : StorageEntry) : Prop where
  parses : (entry.envelope m).isOk = true
  returns : ∀ e, entry.envelope m = .ok e → decrypt e readKey vk ≠ .error .panic
  scope : ∀ e data, entry.envelope m = .ok e → decrypt e readKey vk = .ok data →
    Scope.Valid ⟨entry.scope⟩

variable {m vk readKey} {entry : StorageEntry}

/-- A harmless entry is reported if it is good, and skipped otherwise. -/
theorem Harmless.visitEntry_eq (h : Harmless m vk readKey entry) :
    visitEntry m vk readKey entry = .ok (goodEntry m vk readKey entry) := by
  have hparses := h.parses
  cases henv : entry.envelope m with
  | error f =>
    rw [henv] at hparses
    cases hparses
  | ok e =>
    cases hd : decrypt e readKey vk with
    | ok data =>
      have hv := h.scope e data henv hd
      rw [visitEntry_of_decrypt henv hd hv, goodEntry, henv]
      simp only [hd, if_pos hv]
    | error f =>
      cases f with
      | panic => exact absurd hd (h.returns e henv)
      | err err =>
        simp only [visitEntry, goodEntry, henv, ok_bind, hd]
        rfl

/-- An entry that a listing gets past is harmless. -/
theorem harmless_of_visitEntry {x : Option MemoryEntry}
    (h : visitEntry m vk readKey entry = .ok x) : Harmless m vk readKey entry := by
  rw [visitEntry, bind_eq_ok_iff] at h
  obtain ⟨e, henv, h⟩ := h
  refine ⟨by rw [henv]; rfl, fun e' he' hpanic => ?_, fun e' data he' hd => ?_⟩
  · obtain rfl := Except.ok.inj (henv.symm.trans he')
    rw [hpanic] at h
    cases h
  · obtain rfl := Except.ok.inj (henv.symm.trans he')
    simp only [hd, bind_eq_ok_iff, mapFault_eq_ok_iff, Scope.new_eq_ok_iff] at h
    obtain ⟨_, ⟨rfl, hv⟩, _⟩ := h
    exact hv

/-- A listing returns the good entries exactly when no entry ends it. -/
theorem listMemories_good_iff {backend : StorageBackend σ} {entries : List StorageEntry}
    {s s' : σ} (hlist : (backend.list readKey.scope.path).exec s = (.ok entries, s')) :
    (listMemories m vk readKey backend).exec s =
        (.ok (entries.filterMap (goodEntry m vk readKey)), s') ↔
      ∀ entry ∈ entries, Harmless m vk readKey entry := by
  have hexec : (listMemories m vk readKey backend).exec s =
      ((entries.mapM (visitEntry m vk readKey)).map List.reduceOption, s') := by
    rw [listMemories, Program.exec_bind, hlist]
    simp only [Program.exec_attempt_bind]
    cases entries.mapM (visitEntry m vk readKey) <;> rfl
  rw [hexec]
  constructor
  · intro h entry hentry
    obtain ⟨h, _⟩ := Prod.mk.inj h
    cases hvisit : entries.mapM (visitEntry m vk readKey) with
    | error f =>
      rw [hvisit] at h
      cases h
    | ok visited =>
      obtain ⟨x, hx⟩ := forall_of_mapM_eq_ok hvisit hentry
      exact harmless_of_visitEntry hx
  · intro h
    rw [mapM_eq_ok fun entry hentry => (h entry hentry).visitEntry_eq]
    simp [Except.map, List.reduceOption, List.filterMap_map]

/-- Store and reader list exactly the good entries when every entry of the backend's answer is
harmless, and only then. -/
theorem list_good_iff {backend : StorageBackend σ} {entries : List StorageEntry} {s s' : σ}
    (hlist : (backend.list readKey.scope.path).exec s = (.ok entries, s'))
    (spendKey : SpendKeyPair C) (spendVk : C.VerifyingKey) :
    ((MemoryStore.list ⟨spendKey, backend⟩ m readKey).exec s =
        (.ok (entries.filterMap (goodEntry m spendKey.verifyingKey readKey)), s') ↔
      ∀ entry ∈ entries, Harmless m spendKey.verifyingKey readKey entry) ∧
    ((MemoryReader.list ⟨spendVk, backend⟩ m readKey).exec s =
        (.ok (entries.filterMap (goodEntry m spendVk readKey)), s') ↔
      ∀ entry ∈ entries, Harmless m spendVk readKey entry) :=
  ⟨listMemories_good_iff hlist, listMemories_good_iff hlist⟩

/-- A backend that answers every listing with the same entries. -/
def answeringBackend (entries : List StorageEntry) : StorageBackend Unit where
  put _ _ _ := Program.attempt (fail (.storageError "read only"))
  get id := Program.attempt (okOr (entries.find? fun e => e.id = id) (MemoryStorage.notFound id))
  getByKey scope key := Program.attempt
    (okOr (entries.find? fun e => e.scope = scope ∧ e.key = key) (.storageError "entry not found"))
  list _ := pure entries
  delete _ := Program.attempt (fail (.storageError "read only"))

/-- An owner's memory at `/a`. -/
def zeroMemory : StorageEntry where
  id := ⟨['1']⟩
  scope := ['/', 'a']
  key := ['x']
  data := match ((zeroBuilder packArray ['/', 'a']).setScopeBased.encrypt
      (Transparent.rng packArray) [1, 2]).run 0 with
    | .ok (e, _) => e.toBytes
    | .error _ => []
  createdAt := 0
  updatedAt := 0

/-- The root key of the zero seed finds the memory. -/
theorem exists_envelope_zeroMemory : ∃ e, zeroMemory.envelope .wrapping = .ok e ∧
    decrypt e zeroRoot (zeroSpend packArray).verifyingKey = .ok [1, 2] := by
  have h : (zeroMemory.envelope .wrapping >>= fun e =>
      decrypt e zeroRoot (zeroSpend packArray).verifyingKey) = .ok [1, 2] := by
    decide +kernel
  exact (bind_eq_ok_iff _ _ _).mp h

/-- An entry without data. -/
def emptyEntry : StorageEntry := ⟨⟨['2']⟩, ['/', 'b'], ['y'], [], 0, 0⟩

theorem harmless_zeroMemory :
    Harmless .wrapping (zeroSpend packArray).verifyingKey zeroRoot zeroMemory := by
  obtain ⟨e, henv, hd⟩ := exists_envelope_zeroMemory
  refine harmless_of_visitEntry (visitEntry_of_decrypt henv hd ?_)
  decide

/-- Beside an entry that does not parse, the owner's memory is listed no longer. -/
theorem list_fails_malformed :
    (MemoryStore.list ⟨zeroSpend packArray, answeringBackend [zeroMemory]⟩ .wrapping
        zeroRoot).exec () = (.ok [⟨⟨['/', 'a']⟩, ['x'], [1, 2]⟩], ()) ∧
      (MemoryStore.list ⟨zeroSpend packArray, answeringBackend [zeroMemory, emptyEntry]⟩ .wrapping
        zeroRoot).exec () = (fail (.serializationError "unexpected end of data"), ()) ∧
      (MemoryReader.list ⟨(zeroSpend packArray).verifyingKey,
        answeringBackend [zeroMemory, emptyEntry]⟩ .wrapping zeroRoot).exec () =
          (fail (.serializationError "unexpected end of data"), ()) := by
  have hbad : (listMemories .wrapping (zeroSpend packArray).verifyingKey zeroRoot
      (answeringBackend [zeroMemory, emptyEntry])).exec () =
        (fail (.serializationError "unexpected end of data"), ()) := by
    decide +kernel
  exact ⟨by decide +kernel, hbad, hbad⟩

theorem list_good_iff_zeroMemory :
    (MemoryStore.list ⟨zeroSpend packArray, answeringBackend [zeroMemory]⟩ .wrapping
        zeroRoot).exec () = (.ok [⟨⟨['/', 'a']⟩, ['x'], [1, 2]⟩], ()) := by
  have hlist : ((answeringBackend [zeroMemory]).list zeroRoot.scope.path).exec () =
      (.ok [zeroMemory], ()) := rfl
  have hgood : [zeroMemory].filterMap
      (goodEntry .wrapping (zeroSpend packArray).verifyingKey zeroRoot) =
        [⟨⟨['/', 'a']⟩, ['x'], [1, 2]⟩] := by
    decide +kernel
  rw [← hgood]
  refine (list_good_iff hlist (zeroSpend packArray) (zeroSpend packArray).verifyingKey).1.mpr ?_
  intro entry hentry
  obtain rfl := List.mem_singleton.mp hentry
  exact harmless_zeroMemory

end ReadOnlyKeys
