import ReadOnlyKeys.Hierarchy
import ReadOnlyKeys.Lib.Runs
import Mathlib.Data.List.AList

/-!
# The in-memory keyring

Spend keys by label and read keys by identifier. A revoked read key can no
longer be loaded. The mark lives in the stored entry, so that storing the key
once more clears it.
-/
namespace ReadOnlyKeys
open Outcome Wire

variable {A : ℕ → Type} [ByteArrays A]

/-- Metadata about a stored read key. -/
structure ReadKeyInfo (A : ℕ → Type) where
  keyId : KeyId A
  scope : Scope
  parentKeyId : Option (KeyId A)
  createdAt : ℕ
  revoked : Bool
  label : Option String

structure SpendKeySeed (A : ℕ → Type) where
  seed : A 32

structure ReadKeyEntry (A : ℕ → Type) where
  exported : ExportedReadKey A
  info : ReadKeyInfo A

/-- The keyring. The maps have no order that an operation promises. -/
structure MemoryKeyring (A : ℕ → Type) where
  spendKeys : AList fun _ : String => SpendKeySeed A
  readKeys : AList fun _ : A 8 => ReadKeyEntry A

namespace MemoryKeyring

variable (C : Crypto A)

def new : MemoryKeyring A := ⟨∅, ∅⟩

def storeSpendKey (self : MemoryKeyring A) (label : String) (key : SpendKeyPair C) :
    Result Unit × MemoryKeyring A :=
  (.ok (), { self with
    spendKeys := self.spendKeys.insert label ⟨C.signingToBytes key.signingKey⟩ })

def loadSpendKey (self : MemoryKeyring A) (label : String) : Result (SpendKeyPair C) := do
  let entry ← okOr (self.spendKeys.lookup label) (.keyNotFound label)
  return SpendKeyPair.fromSeed C entry.seed

/-- Store a read key pair at the time `now`. -/
def storeReadKey (self : MemoryKeyring A) (now : ℕ) (key : ReadKeyPair C) :
    Result Unit × MemoryKeyring A :=
  let info : ReadKeyInfo A :=
    { keyId := key.keyId
      scope := key.scope
      parentKeyId := key.parentKeyId
      createdAt := now
      revoked := false
      label := none }
  (.ok (), { self with
    readKeys := self.readKeys.insert key.keyId.bytes ⟨key.exportKey, info⟩ })

def loadReadKey (self : MemoryKeyring A) (keyId : KeyId A) : Result (ReadKeyPair C) := do
  let entry ← okOr (self.readKeys.lookup keyId.bytes) (.keyNotFound (keyId.toBase58 C))
  require (entry.info.revoked = false) (.keyRevoked (keyId.toBase58 C))
  ReadKeyPair.importKey C entry.exported

def listReadKeys (self : MemoryKeyring A) : Result (List (ReadKeyInfo A)) :=
  .ok (self.readKeys.entries.map fun e => e.2.info)

/-- Mark a key as revoked. -/
def revokeKey (self : MemoryKeyring A) (keyId : KeyId A) : Result Unit × MemoryKeyring A :=
  match self.readKeys.lookup keyId.bytes with
  | none => (fail (.keyNotFound (keyId.toBase58 C)), self)
  | some entry =>
    (.ok (), { self with
      readKeys := self.readKeys.insert keyId.bytes
        { entry with info := { entry.info with revoked := true } } })

def isRevoked (self : MemoryKeyring A) (keyId : KeyId A) : Result Bool := do
  let entry ← okOr (self.readKeys.lookup keyId.bytes) (.keyNotFound (keyId.toBase58 C))
  return entry.info.revoked

def deleteKey (self : MemoryKeyring A) (keyId : KeyId A) : Result Unit × MemoryKeyring A :=
  match self.readKeys.lookup keyId.bytes with
  | none => (fail (.keyNotFound (keyId.toBase58 C)), self)
  | some _ => (.ok (), { self with readKeys := self.readKeys.erase keyId.bytes })

/-- A call of the key store interface. -/
inductive Op (C : Crypto A) where
  | storeSpendKey (label : String) (key : SpendKeyPair C)
  | loadSpendKey (label : String)
  | storeReadKey (now : ℕ) (key : ReadKeyPair C)
  | loadReadKey (keyId : KeyId A)
  | listReadKeys
  | revokeKey (keyId : KeyId A)
  | isRevoked (keyId : KeyId A)
  | deleteKey (keyId : KeyId A)

/-- The keyring after a call. -/
def step (self : MemoryKeyring A) : Op C → MemoryKeyring A
  | .storeSpendKey label key => (self.storeSpendKey C label key).2
  | .storeReadKey now key => (self.storeReadKey C now key).2
  | .revokeKey keyId => (self.revokeKey C keyId).2
  | .deleteKey keyId => (self.deleteKey C keyId).2
  | .loadSpendKey _ | .loadReadKey _ | .listReadKeys | .isRevoked _ => self

/-- What revocation promises of a key: it cannot be loaded and is reported as revoked. -/
def Revoked (self : MemoryKeyring A) (keyId : KeyId A) : Prop :=
  (∃ e, self.loadReadKey C keyId = fail e) ∧ self.isRevoked C keyId = .ok true

/-- The stored entry carries the mark. -/
def Marked (self : MemoryKeyring A) (keyId : KeyId A) : Prop :=
  ∃ entry, self.readKeys.lookup keyId.bytes = some entry ∧ entry.info.revoked = true

theorem isRevoked_eq_ok_iff (self : MemoryKeyring A) (keyId : KeyId A) (b : Bool) :
    self.isRevoked C keyId = .ok b ↔
      ∃ entry, self.readKeys.lookup keyId.bytes = some entry ∧ entry.info.revoked = b := by
  unfold isRevoked
  rw [bind_eq_ok_iff]
  constructor
  · intro h
    obtain ⟨entry, he, hb⟩ := h
    exact ⟨entry, (okOr_eq_ok_iff _ _ _).mp he, Except.ok.inj hb⟩
  · intro h
    obtain ⟨entry, he, hb⟩ := h
    exact ⟨entry, (okOr_eq_ok_iff _ _ _).mpr he, congrArg Except.ok hb⟩

/-- A marked key cannot be loaded, and the error names it. -/
theorem loadReadKey_of_marked {self : MemoryKeyring A} {keyId : KeyId A}
    (h : self.Marked keyId) :
    self.loadReadKey C keyId = fail (.keyRevoked (keyId.toBase58 C)) := by
  obtain ⟨entry, he, hr⟩ := h
  unfold loadReadKey
  rw [he, okOr_some, ok_bind, hr]
  rfl

theorem revoked_iff_marked (self : MemoryKeyring A) (keyId : KeyId A) :
    self.Revoked C keyId ↔ self.Marked keyId := by
  constructor
  · intro h
    exact (isRevoked_eq_ok_iff C self keyId true).mp h.2
  · intro h
    exact ⟨⟨_, loadReadKey_of_marked C h⟩, (isRevoked_eq_ok_iff C self keyId true).mpr h⟩

theorem marked_of_revokeKey {self self' : MemoryKeyring A} {keyId : KeyId A}
    (h : self.revokeKey C keyId = (.ok (), self')) : self'.Marked keyId := by
  unfold revokeKey at h
  cases hl : self.readKeys.lookup keyId.bytes with
  | none =>
    rw [hl] at h
    cases h
  | some entry =>
    rw [hl] at h
    obtain rfl := (Prod.mk.inj h).2
    exact ⟨_, AList.lookup_insert _, rfl⟩

/-- Revoking one key keeps the mark of every other, and its own. -/
lemma Marked.revokeKey {self : MemoryKeyring A} {keyId : KeyId A} (h : self.Marked keyId)
    (other : KeyId A) : (self.revokeKey C other).2.Marked keyId := by
  unfold MemoryKeyring.revokeKey
  cases hl : self.readKeys.lookup other.bytes with
  | none => exact h
  | some entry =>
    by_cases hk : keyId.bytes = other.bytes
    · rw [KeyId.ext hk]
      exact ⟨_, AList.lookup_insert _, rfl⟩
    · obtain ⟨e, he, hr⟩ := h
      exact ⟨e, by rw [AList.lookup_insert_ne hk, he], hr⟩

lemma Marked.deleteKey {self : MemoryKeyring A} {keyId : KeyId A} (h : self.Marked keyId)
    {other : KeyId A} (hne : other ≠ keyId) : (self.deleteKey C other).2.Marked keyId := by
  unfold MemoryKeyring.deleteKey
  cases hl : self.readKeys.lookup other.bytes with
  | none => exact h
  | some entry =>
    have hk : keyId.bytes ≠ other.bytes := fun hk => hne (KeyId.ext hk.symm)
    obtain ⟨e, he, hr⟩ := h
    exact ⟨e, by rw [AList.lookup_erase_ne hk, he], hr⟩

/-- A store replaces the entry of its key, mark and all, and no other entry. -/
theorem marked_storeReadKey_iff (self : MemoryKeyring A) (keyId : KeyId A) (now : ℕ)
    (key : ReadKeyPair C) :
    (self.storeReadKey C now key).2.Marked keyId ↔ key.keyId ≠ keyId ∧ self.Marked keyId := by
  unfold storeReadKey Marked
  by_cases hk : key.keyId = keyId
  · subst hk
    simp only [AList.lookup_insert, Option.some.injEq, exists_eq_left', Bool.false_eq_true,
      ne_eq, not_true_eq_false, false_and]
  · have hb : keyId.bytes ≠ key.keyId.bytes := fun hb => hk (KeyId.ext hb.symm)
    simp only [AList.lookup_insert_ne hb, ne_eq, hk, not_false_eq_true, true_and]

/-- The operations that keep a mark are all but a store and a deletion of its key. -/
theorem Marked.step {self : MemoryKeyring A} {keyId : KeyId A} (h : self.Marked keyId)
    (op : Op C) (hdelete : op ≠ .deleteKey keyId)
    (hstore : ∀ now key, op = .storeReadKey now key → key.keyId ≠ keyId) :
    (self.step C op).Marked keyId := by
  cases op with
  | storeSpendKey label key => exact h
  | loadSpendKey label => exact h
  | storeReadKey now key =>
    exact (marked_storeReadKey_iff C self keyId now key).mpr ⟨hstore now key rfl, h⟩
  | loadReadKey other => exact h
  | listReadKeys => exact h
  | revokeKey other => exact h.revokeKey C other
  | isRevoked other => exact h
  | deleteKey other => exact h.deleteKey C fun hk => hdelete (by rw [hk])

/-- After a revocation, runs that delete nothing of the key keep it revoked in every
state exactly when they never store a key with its identifier. -/
theorem revocation_permanent_iff (self self' : MemoryKeyring A) (keyId : KeyId A)
    (hrevoke : self.revokeKey C keyId = (.ok (), self')) (ops : List (Op C))
    (hdelete : .deleteKey keyId ∉ ops) :
    (∀ s, Runs.Reached (step C) self' ops s → s.Revoked C keyId) ↔
      ∀ now key, .storeReadKey now key ∈ ops → key.keyId ≠ keyId := by
  constructor
  · intro h now key hm
    obtain ⟨s, _, hs⟩ := Runs.exists_reached_of_mem (step C) self' hm
    have hmark := (revoked_iff_marked C _ keyId).mp (h _ hs)
    exact ((marked_storeReadKey_iff C s keyId now key).mp hmark).1
  · intro h s hs
    rw [revoked_iff_marked]
    apply hs.invariant (I := fun s => s.Marked keyId) _ (marked_of_revokeKey C hrevoke)
    intro op hop t ht
    apply ht.step C op
    · intro he
      exact hdelete (he ▸ hop)
    · intro now key he
      exact h now key (he ▸ hop)

end MemoryKeyring

/-- A keyring that holds one root key. -/
def zeroKeyring : MemoryKeyring (Vector UInt8) :=
  (MemoryKeyring.new.storeReadKey Transparent.arrays 0 zeroRoot).2

theorem revocation_permanent_without_store :
    ∃ self', zeroKeyring.revokeKey Transparent.arrays zeroRoot.keyId = (.ok (), self') ∧
      (Runs.run (MemoryKeyring.step Transparent.arrays) self'
        [.loadReadKey zeroRoot.keyId, .revokeKey zeroRoot.keyId]).Revoked Transparent.arrays
          zeroRoot.keyId := by
  refine ⟨_, rfl, ?_⟩
  have h := (MemoryKeyring.revocation_permanent_iff Transparent.arrays zeroKeyring _
    zeroRoot.keyId rfl [.loadReadKey zeroRoot.keyId, .revokeKey zeroRoot.keyId] (by simp)).mpr
      (by simp)
  exact h _ (Runs.reached_run _ _ _)

/-- Storing the revoked key once more makes it loadable again. -/
theorem store_clears_revocation :
    ∃ self' : MemoryKeyring (Vector UInt8),
      zeroKeyring.revokeKey Transparent.arrays zeroRoot.keyId = (.ok (), self') ∧
      self'.isRevoked Transparent.arrays zeroRoot.keyId = .ok true ∧
      (self'.step Transparent.arrays (.storeReadKey 1 zeroRoot)).isRevoked Transparent.arrays
        zeroRoot.keyId = .ok false ∧
      ∃ k, (self'.step Transparent.arrays (.storeReadKey 1 zeroRoot)).loadReadKey
        Transparent.arrays zeroRoot.keyId = .ok k :=
  ⟨_, rfl, rfl, rfl, _, rfl⟩

end ReadOnlyKeys
