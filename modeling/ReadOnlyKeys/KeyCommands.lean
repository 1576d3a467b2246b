import ReadOnlyKeys.FileCommands
import ReadOnlyKeys.KeyringRuns
import ReadOnlyKeys.PolicyCodec

/-!
# The commands on keys

`keygen`, `derive` and `grant` print texts of keys. The keyring of the commands
is made anew on every run, from the seed and the scopes that the arguments give.
-/
namespace ReadOnlyKeys
open Outcome Wire

variable {ρ : Type} {C : Crypto (Vector UInt8)}

/-- What is printed of a read key. -/
structure KeyTexts where
  scope : List Char
  keyId : String
  publicKey : String
  exportedKey : String

structure KeygenReport where
  label : String
  seed : String
  publicKey : String
  keyId : String
  root : KeyTexts

structure DeriveArgs where
  scope : List Char
  spendSeed : String

structure GrantArgs where
  scope : List Char
  spendSeed : String

structure KeyringListArgs where
  spendSeed : String
  scopes : List (List Char)

structure KeyringExportArgs where
  keyId : String
  spendSeed : String
  scope : Option (List Char)

structure KeyringImportArgs where
  exportedKey : String

structure KeyringDeleteArgs where
  keyId : String
  spendSeed : Option String
  scope : Option (List Char)

structure RevokeArgs where
  keyId : String
  spendSeed : String
  scope : Option (List Char)

structure KeyringListReport where
  spendKeyId : String
  readKeys : List (ReadKeyInfo (Vector UInt8))

structure KeyringImportReport where
  keyId : String
  scope : String
  parentKeyId : Option String

namespace SpendKeyPair

/-- Generate a new random spend key pair. -/
def generate (C : Crypto (Vector UInt8)) (rng : CryptoRng (Vector UInt8) ρ) :
    StateT ρ Result (SpendKeyPair C) := do
  let secretBytes ← rng.fill 32
  return ⟨C.signingFromBytes secretBytes⟩

/-- The seed bytes. -/
def seed (self : SpendKeyPair C) : Vector UInt8 32 := C.signingToBytes self.signingKey

def keyId (self : SpendKeyPair C) : KeyId (Vector UInt8) :=
  KeyId.fromPublicBytes C (asBytes (C.verifyingAsBytes self.verifyingKey))

end SpendKeyPair

section Texts

variable (C) (E : KeyText) (hexDecode : String → Except String Bytes)

def KeyTexts.of (scope : List Char) (key : ReadKeyPair C) : KeyTexts where
  scope := scope
  keyId := key.keyId.toBase58 C
  publicKey := Encoding.encodeReadPublic C E key.publicKey key.scope
  exportedKey := Encoding.encodeExportedReadKey C E key.exportKey

/-- The key that the root key of a seed derives for a scope. -/
def derivedKey (scope : List Char) (spendSeed : String) :
    Except (Fault CommandError) (ReadKeyPair C) := do
  let spend ← spendOfSeed C hexDecode spendSeed
  let root := spend.deriveRootReadKey
  let scope ← orStop (Scope.new scope)
  orStop (root.deriveChild scope)

/-- `rok derive`. -/
def DeriveArgs.run (args : DeriveArgs) : Except (Fault CommandError) KeyTexts := do
  let derived ← derivedKey C hexDecode args.scope args.spendSeed
  return KeyTexts.of C E args.scope derived

/-- `rok grant`. -/
def GrantArgs.run (args : GrantArgs) : Except (Fault CommandError) KeyTexts := do
  let derived ← derivedKey C hexDecode args.scope args.spendSeed
  return KeyTexts.of C E args.scope derived

/-- `rok keygen`. -/
def keygen (hexEncode : Bytes → String) (rng : CryptoRng (Vector UInt8) ρ) (label : String) :
    StateT ρ Result KeygenReport := do
  let spend ← SpendKeyPair.generate C rng
  let rootRead := spend.deriveRootReadKey
  return {
    label := label
    seed := hexEncode (asBytes spend.seed)
    publicKey := Encoding.encodeSpendPublic C E spend.verifyingKey
    keyId := spend.keyId.toBase58 C
    root := KeyTexts.of C E ['/'] rootRead }

end Texts

section Keyring

variable (C) (E : KeyText) (hexDecode : String → Except String Bytes)

/-- Derive the keys of scopes and store them, at the times of the clock. -/
def storeScopes (root : ReadKeyPair C) (clock : ℕ → ℕ) :
    ℕ → List (List Char) → MemoryKeyring (Vector UInt8) →
      Except (Fault CommandError) (MemoryKeyring (Vector UInt8))
  | _, [], keyring => return keyring
  | n, scopeStr :: scopes, keyring => do
    let scope ← orStop (Scope.new scopeStr)
    let derived ← orStop (root.deriveChild scope)
    storeScopes root clock (n + 1) scopes (keyring.storeReadKey C (clock n) derived).2

/-- The keyring with the root key and the keys of the scopes. -/
def populate (root : ReadKeyPair C) (clock : ℕ → ℕ) (scopes : List (List Char))
    (keyring : MemoryKeyring (Vector UInt8)) :
    Except (Fault CommandError) (MemoryKeyring (Vector UInt8)) :=
  storeScopes C root clock 1 scopes (keyring.storeReadKey C (clock 0) root).2

/-- `rok keyring list`. -/
def KeyringListArgs.run (clock : ℕ → ℕ) (args : KeyringListArgs) :
    Except (Fault CommandError) KeyringListReport := do
  let spend ← spendOfSeed C hexDecode args.spendSeed
  let root := spend.deriveRootReadKey
  let keyring ← populate C root clock args.scopes
    (MemoryKeyring.new.storeSpendKey C "default" spend).2
  let readKeys ← orStop keyring.listReadKeys
  return ⟨spend.keyId.toBase58 C, readKeys⟩

/-- `rok keyring export`. -/
def KeyringExportArgs.run (args : KeyringExportArgs) : Except (Fault CommandError) KeyTexts := do
  let spend ← spendOfSeed C hexDecode args.spendSeed
  let root := spend.deriveRootReadKey
  let keyId ← orStop (KeyId.fromBase58 E args.keyId)
  let key ← (if root.keyId = keyId then .ok root
    else match args.scope with
      | some scopeStr => do
        let scope ← orStop (Scope.new scopeStr)
        let derived ← orStop (root.deriveChild scope)
        require (derived.keyId = keyId) (.text (s!"derived key at scope {String.ofList scopeStr}" ++
          s!" has key_id {derived.keyId.toBase58 C}, not {keyId.toBase58 C}"))
        return derived
      | none => .error (.err (.text (s!"key_id {keyId.toBase58 C} not found. " ++
          "Provide --scope to derive the matching key."))) :
    Except (Fault CommandError) (ReadKeyPair C))
  return KeyTexts.of C E key.scope.path key

/-- `rok keyring import`. -/
def KeyringImportArgs.run (clock : ℕ → ℕ) (args : KeyringImportArgs) :
    Except (Fault CommandError) KeyringImportReport := do
  let exported ← orStop (Encoding.decodeExportedReadKey E args.exportedKey)
  let imported ← orStop (ReadKeyPair.importKey C exported)
  let _ ← orStop (MemoryKeyring.new.storeReadKey C (clock 0) imported).1
  return ⟨imported.keyId.toBase58 C, imported.scope.display,
    imported.parentKeyId.map fun parent => parent.toBase58 C⟩

/-- `rok keyring delete`. Without a seed the keyring stays empty. -/
def KeyringDeleteArgs.run (clock : ℕ → ℕ) (args : KeyringDeleteArgs) :
    Except (Fault CommandError) Unit := do
  let keyId ← orStop (KeyId.fromBase58 E args.keyId)
  let keyring ← (match args.spendSeed with
    | some spendSeed => do
      let spend ← spendOfSeed C hexDecode spendSeed
      populate C spend.deriveRootReadKey clock args.scope.toList .new
    | none => .ok .new : Except (Fault CommandError) (MemoryKeyring (Vector UInt8)))
  mapFault (keyring.deleteKey C keyId).1 fun e => .text s!"Failed to delete key: {e.display}"

/-- `rok revoke`. -/
def RevokeArgs.run (clock : ℕ → ℕ) (args : RevokeArgs) : Except (Fault CommandError) Unit := do
  let keyId ← orStop (KeyId.fromBase58 E args.keyId)
  let spend ← spendOfSeed C hexDecode args.spendSeed
  let keyring ← populate C spend.deriveRootReadKey clock args.scope.toList .new
  mapFault (keyring.revokeKey C keyId).1 fun e => .text s!"Failed to revoke key: {e.display}"

end Keyring

/-- A scope below the root. -/
def Grantable (path : List Char) : Prop := (⟨path⟩ : Scope).Valid ∧ path ≠ ['/']

namespace SpendKeyPair

/-- The root key derives the key for a path. -/
def DerivesAt (self : SpendKeyPair C) (path : List Char) (key : ReadKeyPair C) : Prop :=
  (⟨path⟩ : Scope).Valid ∧ self.deriveRootReadKey.deriveChild ⟨path⟩ = .ok key

/-- The identifier is the root key's or that of a key for one of the paths. -/
def Holds (self : SpendKeyPair C) (paths : List (List Char)) (keyId : KeyId (Vector UInt8)) :
    Prop :=
  self.deriveRootReadKey.keyId = keyId ∨
    ∃ path ∈ paths, ∃ key, self.DerivesAt path key ∧ key.keyId = keyId

variable {self : SpendKeyPair C} {path : List Char} {key : ReadKeyPair C}

theorem DerivesAt.delegates (h : self.DerivesAt path key) :
    Relation.ReflTransGen ReadKeyPair.Delegates self.deriveRootReadKey key :=
  .single (.derive (.child ⟨path⟩ h.2))

theorem DerivesAt.eq_fromSecretBytes (h : self.DerivesAt path key) : ∃ secretBytes,
    key = ReadKeyPair.fromSecretBytes C secretBytes ⟨path⟩ (some self.deriveRootReadKey.keyId) :=
  ⟨_, ((ReadKeyPair.deriveChild_eq_ok_iff _ _ _).mp h.2).2⟩

/-- There is a key for exactly the scopes below the root. -/
theorem exists_derivesAt_iff (self : SpendKeyPair C) (path : List Char) :
    (∃ key, self.DerivesAt path key) ↔ Grantable path := by
  constructor
  · intro h
    obtain ⟨key, hv, hkey⟩ := h
    obtain ⟨hd, _⟩ := (ReadKeyPair.deriveChild_eq_ok_iff _ _ _).mp hkey
    exact ⟨hv, fun hroot => hd.ne (congrArg Scope.mk hroot).symm⟩
  · intro h
    obtain ⟨hv, hroot⟩ := h
    have hbelow : Scope.root.isAncestorOf ⟨path⟩ = true :=
      (Scope.isAncestorOf_iff Scope.root_valid hv).mpr List.nil_prefix
    have hne : Scope.root ≠ ⟨path⟩ := fun he => hroot (congrArg Scope.path he).symm
    exact ⟨_, hv, (ReadKeyPair.deriveChild_eq_ok_iff _ _ _).mpr
      ⟨Scope.Derivable.of_valid Scope.root_valid hv hbelow hne, rfl⟩⟩

end SpendKeyPair

section Stores

/-- Deriving and storing keys of scopes, as calls of the keyring. -/
def stores (clock : ℕ → ℕ) : ℕ → List (ReadKeyPair C) → List (MemoryKeyring.Op C)
  | _, [] => []
  | n, key :: keys => .storeReadKey (clock n) key :: stores clock (n + 1) keys

variable {spend : SpendKeyPair C} {clock : ℕ → ℕ}

lemma eq_of_mem_stores {op : MemoryKeyring.Op C} {n : ℕ} {keys : List (ReadKeyPair C)} :
    op ∈ stores clock n keys → ∃ now, ∃ key ∈ keys, op = .storeReadKey now key := by
  induction keys generalizing n with
  | nil => simp [stores]
  | cons key keys ih =>
    intro h
    rcases List.mem_cons.mp h with rfl | h
    · exact ⟨_, key, List.mem_cons_self, rfl⟩
    · obtain ⟨now, key', hkey', rfl⟩ := ih h
      exact ⟨now, key', List.mem_cons_of_mem _ hkey', rfl⟩

lemma exists_stores_of_mem (clock : ℕ → ℕ) (n : ℕ) {keys : List (ReadKeyPair C)}
    {key : ReadKeyPair C} (h : key ∈ keys) :
    ∃ now, .storeReadKey now key ∈ stores clock n keys := by
  induction keys generalizing n with
  | nil => cases h
  | cons first keys ih =>
    rcases List.mem_cons.mp h with rfl | h
    · exact ⟨_, List.mem_cons_self⟩
    · obtain ⟨now, hmem⟩ := ih (n + 1) h
      exact ⟨now, List.mem_cons_of_mem _ hmem⟩

/-- The loop over the scopes is a run of stores. -/
theorem storeScopes_eq_ok_iff {n : ℕ} {scopes : List (List Char)}
    {keyring keyring' : MemoryKeyring (Vector UInt8)} :
    storeScopes C spend.deriveRootReadKey clock n scopes keyring = .ok keyring' ↔
      ∃ keys, List.Forall₂ spend.DerivesAt scopes keys ∧
        keyring' = Runs.run (MemoryKeyring.step C) keyring (stores clock n keys) := by
  induction scopes generalizing n keyring with
  | nil =>
    constructor
    · intro h
      exact ⟨[], .nil, (Except.ok.inj h).symm⟩
    · intro h
      obtain ⟨keys, hkeys, rfl⟩ := h
      cases hkeys
      rfl
  | cons path scopes ih =>
    simp only [storeScopes, bind_eq_ok_iff, orStop, mapFault_eq_ok_iff, Scope.new_eq_ok_iff, ih]
    constructor
    · intro h
      obtain ⟨scope, ⟨rfl, hv⟩, key, hkey, keys, hkeys, rfl⟩ := h
      exact ⟨key :: keys, .cons ⟨hv, hkey⟩ hkeys, rfl⟩
    · intro h
      obtain ⟨keys, hkeys, rfl⟩ := h
      cases hkeys with
      | @cons _ key _ keys hkey hkeys => exact ⟨_, ⟨rfl, hkey.1⟩, key, hkey.2, keys, hkeys, rfl⟩

/-- The keyring of the commands: the root key and the keys of the scopes. -/
theorem populate_eq_ok_iff {scopes : List (List Char)}
    {keyring keyring' : MemoryKeyring (Vector UInt8)} :
    populate C spend.deriveRootReadKey clock scopes keyring = .ok keyring' ↔
      ∃ keys, List.Forall₂ spend.DerivesAt scopes keys ∧ keyring' =
        Runs.run (MemoryKeyring.step C) keyring
          (stores clock 0 (spend.deriveRootReadKey :: keys)) := storeScopes_eq_ok_iff

lemma onlyStores_stores (clock : ℕ → ℕ) (n : ℕ) (keys : List (ReadKeyPair C)) :
    MemoryKeyring.OnlyStores (stores clock n keys) := by
  intro op hop _ _
  obtain ⟨now, key, _, rfl⟩ := eq_of_mem_stores hop
  exact ⟨now, key, rfl⟩

/-- A spend key among the calls changes nothing of that. -/
lemma onlyStores_cons_spend (spend : SpendKeyPair C) {ops : List (MemoryKeyring.Op C)}
    (h : MemoryKeyring.OnlyStores ops) :
    MemoryKeyring.OnlyStores (.storeSpendKey "default" spend :: ops) := by
  intro op hop keyId hmarks
  rcases List.mem_cons.mp hop with rfl | hop
  · cases hmarks
  · exact h op hop keyId hmarks

/-- An identifier was stored when it is the root key's or a derived key's. -/
theorem stored_iff_holds (clock : ℕ → ℕ) {scopes : List (List Char)} {keys : List (ReadKeyPair C)}
    (hkeys : List.Forall₂ spend.DerivesAt scopes keys) (keyId : KeyId (Vector UInt8)) :
    (∃ now key, key.keyId = keyId ∧
      .storeReadKey now key ∈ stores clock 0 (spend.deriveRootReadKey :: keys)) ↔
    spend.Holds scopes keyId := by
  constructor
  · intro h
    obtain ⟨now, key, rfl, hmem⟩ := h
    obtain ⟨_, key', hkey, he⟩ := eq_of_mem_stores hmem
    obtain ⟨-, rfl⟩ := MemoryKeyring.Op.storeReadKey.inj he
    rcases List.mem_cons.mp hkey with rfl | hkey
    · exact .inl rfl
    · obtain ⟨path, hpath, hderives⟩ := exists_mem_of_forall₂ hkeys hkey
      exact .inr ⟨path, hpath, _, hderives, rfl⟩
  · intro h
    rcases h with rfl | ⟨path, hpath, key, hderives, rfl⟩
    · exact ⟨clock 0, _, rfl, List.mem_cons_self⟩
    · obtain ⟨key', hkey', hderives'⟩ := exists_mem_of_forall₂ hkeys.flip hpath
      obtain rfl := Except.ok.inj (hderives.2.symm.trans hderives'.2)
      obtain ⟨now, hmem⟩ := exists_stores_of_mem clock 0
        (List.mem_cons_of_mem spend.deriveRootReadKey hkey')
      exact ⟨now, key, rfl, hmem⟩

/-- The scopes can be stored exactly when they are below the root. -/
theorem exists_forall₂_derivesAt_iff (spend : SpendKeyPair C) (scopes : List (List Char)) :
    (∃ keys, List.Forall₂ spend.DerivesAt scopes keys) ↔ ∀ path ∈ scopes, Grantable path := by
  constructor
  · intro h path hpath
    obtain ⟨keys, hkeys⟩ := h
    obtain ⟨key, _, hkey⟩ := exists_mem_of_forall₂ hkeys.flip hpath
    exact (spend.exists_derivesAt_iff path).mp ⟨key, hkey⟩
  · intro h
    induction scopes with
    | nil => exact ⟨[], .nil⟩
    | cons path scopes ih =>
      obtain ⟨key, hkey⟩ := (spend.exists_derivesAt_iff path).mpr (h path List.mem_cons_self)
      obtain ⟨keys, hkeys⟩ := ih fun path hpath => h path (List.mem_cons_of_mem _ hpath)
      exact ⟨key :: keys, .cons hkey hkeys⟩

/-- What a command that looks up an identifier in the keyring can find. -/
theorem exists_populate_iff (clock : ℕ → ℕ) {scopes : List (List Char)}
    {keyId : KeyId (Vector UInt8)}
    {P : MemoryKeyring (Vector UInt8) → Prop}
    (hP : ∀ ops : List (MemoryKeyring.Op C), P (MemoryKeyring.after C ops) ↔
      ∃ now key, key.keyId = keyId ∧ MemoryKeyring.Kept ops now key) :
    (∃ keyring, populate C spend.deriveRootReadKey clock scopes .new = .ok keyring ∧ P keyring) ↔
      (∀ path ∈ scopes, Grantable path) ∧ spend.Holds scopes keyId := by
  simp only [populate_eq_ok_iff, ← exists_forall₂_derivesAt_iff spend scopes]
  constructor
  · intro h
    obtain ⟨_, ⟨keys, hkeys, rfl⟩, h⟩ := h
    have hkept := (hP _).mp h
    rw [(onlyStores_stores _ _ _).exists_kept_iff, stored_iff_holds _ hkeys] at hkept
    exact ⟨⟨keys, hkeys⟩, hkept⟩
  · intro h
    obtain ⟨⟨keys, hkeys⟩, hholds⟩ := h
    refine ⟨_, ⟨keys, hkeys, rfl⟩, (hP _).mpr ?_⟩
    rw [(onlyStores_stores _ _ _).exists_kept_iff, stored_iff_holds _ hkeys]
    exact hholds

end Stores

section Commands

variable {E : KeyText} {hexDecode : String → Except String Bytes} {clock : ℕ → ℕ}

/-- When there is a key to derive, and which. -/
theorem derivedKey_eq_ok_iff {scope : List Char} {spendSeed : String} {key : ReadKeyPair C} :
    derivedKey C hexDecode scope spendSeed = .ok key ↔
      ∃ spend, spendOfSeed C hexDecode spendSeed = .ok spend ∧ spend.DerivesAt scope key := by
  simp only [derivedKey, bind_eq_ok_iff, orStop, mapFault_eq_ok_iff, Scope.new_eq_ok_iff]
  constructor
  · intro h
    obtain ⟨spend, hspend, _, ⟨rfl, hv⟩, hkey⟩ := h
    exact ⟨spend, hspend, hv, hkey⟩
  · intro h
    obtain ⟨spend, hspend, hv, hkey⟩ := h
    exact ⟨spend, hspend, _, ⟨rfl, hv⟩, hkey⟩

theorem RevokeArgs.run_eq_ok_iff {args : RevokeArgs} :
    args.run C E hexDecode clock = .ok () ↔ ∃ spend keyId,
      spendOfSeed C hexDecode args.spendSeed = .ok spend ∧
      KeyId.fromBase58 E args.keyId = .ok keyId ∧
      (∀ path ∈ args.scope.toList, Grantable path) ∧ spend.Holds args.scope.toList keyId := by
  simp only [run, bind_eq_ok_iff, orStop, mapFault_eq_ok_iff]
  constructor
  · intro h
    obtain ⟨keyId, hid, spend, hspend, hkeyring⟩ := h
    exact ⟨spend, keyId, hspend, hid, (exists_populate_iff clock (P := fun keyring =>
      (keyring.revokeKey C keyId).1 = .ok ()) fun ops =>
        (MemoryKeyring.recalls_after ops).revokeKey_ok_iff keyId).mp hkeyring⟩
  · intro h
    obtain ⟨spend, keyId, hspend, hid, hheld⟩ := h
    exact ⟨keyId, hid, spend, hspend, (exists_populate_iff clock (P := fun keyring =>
      (keyring.revokeKey C keyId).1 = .ok ()) fun ops =>
        (MemoryKeyring.recalls_after ops).revokeKey_ok_iff keyId).mpr hheld⟩

theorem KeyringDeleteArgs.run_eq_ok_iff {args : KeyringDeleteArgs} :
    args.run C E hexDecode clock = .ok () ↔ ∃ spendSeed spend keyId,
      args.spendSeed = some spendSeed ∧ spendOfSeed C hexDecode spendSeed = .ok spend ∧
      KeyId.fromBase58 E args.keyId = .ok keyId ∧
      (∀ path ∈ args.scope.toList, Grantable path) ∧ spend.Holds args.scope.toList keyId := by
  obtain ⟨keyIdText, spendSeed, scope⟩ := args
  cases spendSeed with
  | none =>
    simp only [run, bind_eq_ok_iff, orStop, mapFault_eq_ok_iff]
    constructor
    · intro h
      obtain ⟨keyId, _, _, hnew, hdelete⟩ := h
      obtain rfl := Except.ok.inj hnew
      have hkept := ((MemoryKeyring.recalls_after (C := C) []).deleteKey_ok_iff keyId).mp hdelete
      obtain ⟨_, _, _, hkept⟩ := hkept
      cases hkept
    · intro h
      obtain ⟨_, _, _, hnone, _⟩ := h
      cases hnone
  | some spendSeed =>
    simp only [run, bind_eq_ok_iff, orStop, mapFault_eq_ok_iff]
    constructor
    · intro h
      obtain ⟨keyId, hid, keyring, ⟨spend, hspend, hkeyring⟩, hdelete⟩ := h
      exact ⟨spendSeed, spend, keyId, rfl, hspend, hid,
        (exists_populate_iff clock (P := fun keyring => (keyring.deleteKey C keyId).1 = .ok ())
          fun ops => (MemoryKeyring.recalls_after ops).deleteKey_ok_iff keyId).mp
            ⟨keyring, hkeyring, hdelete⟩⟩
    · intro h
      obtain ⟨_, spend, keyId, hsome, hspend, hid, hheld⟩ := h
      obtain rfl := Option.some.inj hsome
      obtain ⟨keyring, hkeyring, hdelete⟩ := (exists_populate_iff clock
        (P := fun keyring => (keyring.deleteKey C keyId).1 = .ok ()) fun ops =>
          (MemoryKeyring.recalls_after ops).deleteKey_ok_iff keyId).mpr hheld
      exact ⟨keyId, hid, keyring, ⟨spend, hspend, hkeyring⟩, hdelete⟩

/-- The export prints the root key, or the key of the scope that it is given. -/
theorem KeyringExportArgs.run_eq_ok_iff {args : KeyringExportArgs} {texts : KeyTexts} :
    args.run C E hexDecode = .ok texts ↔ ∃ spend keyId key,
      spendOfSeed C hexDecode args.spendSeed = .ok spend ∧
      KeyId.fromBase58 E args.keyId = .ok keyId ∧
      key.keyId = keyId ∧ texts = KeyTexts.of C E key.scope.path key ∧
      (key = spend.deriveRootReadKey ∨ spend.deriveRootReadKey.keyId ≠ keyId ∧
        ∃ path ∈ args.scope, spend.DerivesAt path key) := by
  simp only [run, bind_eq_ok_iff, orStop, mapFault_eq_ok_iff]
  constructor
  · intro h
    obtain ⟨spend, hspend, keyId, hid, key, hkey, htexts⟩ := h
    obtain rfl := Except.ok.inj htexts
    split_ifs at hkey with hroot
    · obtain rfl := Except.ok.inj hkey
      exact ⟨spend, keyId, _, hspend, hid, hroot, rfl, .inl rfl⟩
    · cases hscope : args.scope with
      | none =>
        rw [hscope] at hkey
        cases hkey
      | some path =>
        simp only [hscope, bind_eq_ok_iff, mapFault_eq_ok_iff, Scope.new_eq_ok_iff,
          require_eq_ok_iff] at hkey
        obtain ⟨_, ⟨rfl, hv⟩, derived, hderived, _, hmatch, hkey⟩ := hkey
        obtain rfl := Except.ok.inj hkey
        exact ⟨spend, keyId, _, hspend, hid, hmatch, rfl, .inr ⟨hroot, path, rfl, hv, hderived⟩⟩
  · intro h
    obtain ⟨spend, keyId, key, hspend, hid, hkey, rfl, hcase⟩ := h
    refine ⟨spend, hspend, keyId, hid, key, ?_, rfl⟩
    rcases hcase with rfl | ⟨hroot, path, hscope, hv, hderived⟩
    · rw [if_pos hkey]
    · obtain hscope : args.scope = some path := hscope
      simp only [if_neg hroot, hscope, bind_eq_ok_iff, mapFault_eq_ok_iff, Scope.new_eq_ok_iff,
        require_eq_ok_iff]
      exact ⟨_, ⟨rfl, hv⟩, key, hderived, (), hkey, rfl⟩

/-- The texts of a key are read back as the key. -/
theorem KeyTexts.read (hR : C.StaticRoundtrip) (hS : C.StaticOfBytes) (hE : E.Inverts C)
    {key : ReadKeyPair C} (hv : key.scope.Valid) (scope : List Char) :
    (Encoding.decodeExportedReadKey E (KeyTexts.of C E scope key).exportedKey >>=
        ReadKeyPair.importKey C) = .ok key ∧
      Encoding.decodeReadPublic E (KeyTexts.of C E scope key).publicKey =
        .ok (key.publicKey, key.scope) ∧
      KeyId.fromBase58 E (KeyTexts.of C E scope key).keyId = .ok key.keyId := by
  have hexported : key.exportKey.scope.Valid := hv
  refine ⟨?_, Encoding.decodeReadPublic_encode hE _ hv, KeyId.fromBase58_toBase58 hE _⟩
  rw [KeyTexts.of, Encoding.decodeExportedReadKey_encode hE hexported, ok_bind,
    key.importKey_exportKey hR hS]

/-- `grant` gives out a key for every scope below the root, and for no other. The texts it prints
are read back as the key that every delegation from the owner to this scope ends in: an import
shows them, and an export by their identifier prints them once more, unless the identifier is
also the root key's. -/
theorem grant_texts (hR : C.StaticRoundtrip) (hS : C.StaticOfBytes) (hE : E.Inverts C)
    (args : GrantArgs) :
    ((∃ texts, args.run C E hexDecode = .ok texts) ↔
      (∃ spend, spendOfSeed C hexDecode args.spendSeed = .ok spend) ∧ Grantable args.scope) ∧
    ∀ texts, args.run C E hexDecode = .ok texts → ∃ (spend : SpendKeyPair C) (key : ReadKeyPair C),
      spendOfSeed C hexDecode args.spendSeed = .ok spend ∧
      key.scope = ⟨args.scope⟩ ∧ key.parentKeyId = some spend.deriveRootReadKey.keyId ∧
      (∀ key', Relation.ReflTransGen ReadKeyPair.Delegates spend.deriveRootReadKey key' →
        key'.scope = key.scope → key'.publicKey = key.publicKey) ∧
      (Encoding.decodeExportedReadKey E texts.exportedKey >>= ReadKeyPair.importKey C) = .ok key ∧
      Encoding.decodeReadPublic E texts.publicKey = .ok (key.publicKey, key.scope) ∧
      KeyId.fromBase58 E texts.keyId = .ok key.keyId ∧
      (∀ clock, KeyringImportArgs.run C E clock ⟨texts.exportedKey⟩ = .ok
        ⟨texts.keyId, key.scope.display, some (spend.deriveRootReadKey.keyId.toBase58 C)⟩) ∧
      (KeyringExportArgs.run C E hexDecode ⟨texts.keyId, args.spendSeed, some args.scope⟩ =
        .ok texts ↔ spend.deriveRootReadKey.keyId ≠ key.keyId) := by
  have hrun : ∀ texts, args.run C E hexDecode = .ok texts ↔ ∃ spend key,
      spendOfSeed C hexDecode args.spendSeed = .ok spend ∧ spend.DerivesAt args.scope key ∧
        texts = KeyTexts.of C E args.scope key := by
    intro texts
    simp only [GrantArgs.run, bind_eq_ok_iff, derivedKey_eq_ok_iff]
    constructor
    · intro h
      obtain ⟨key, ⟨spend, hspend, hkey⟩, htexts⟩ := h
      exact ⟨spend, key, hspend, hkey, (Except.ok.inj htexts).symm⟩
    · intro h
      obtain ⟨spend, key, hspend, hkey, rfl⟩ := h
      exact ⟨key, ⟨spend, hspend, hkey⟩, rfl⟩
  constructor
  · simp only [hrun]
    constructor
    · intro h
      obtain ⟨_, spend, key, hspend, hkey, _⟩ := h
      exact ⟨⟨spend, hspend⟩, (spend.exists_derivesAt_iff _).mp ⟨key, hkey⟩⟩
    · intro h
      obtain ⟨⟨spend, hspend⟩, hscope⟩ := h
      obtain ⟨key, hkey⟩ := (spend.exists_derivesAt_iff _).mpr hscope
      exact ⟨_, spend, key, hspend, hkey, rfl⟩
  · intro texts htexts
    obtain ⟨spend, key, hspend, hkey, rfl⟩ := (hrun texts).mp htexts
    obtain ⟨secretBytes, hmade⟩ := hkey.eq_fromSecretBytes
    have hscope : key.scope = ⟨args.scope⟩ := congrArg ReadKeyPair.scope hmade
    have hparent : key.parentKeyId = some spend.deriveRootReadKey.keyId :=
      congrArg ReadKeyPair.parentKeyId hmade
    have hgrantable := (spend.exists_derivesAt_iff _).mp ⟨key, hkey⟩
    obtain ⟨hexported, hpublic, hid⟩ :=
      KeyTexts.read hR hS hE (hscope ▸ hkey.1 : key.scope.Valid) args.scope
    refine ⟨spend, key, hspend, hscope, hparent, fun key' hdelegates hsame => ?_, hexported,
      hpublic, hid, fun clock => ?_, ?_⟩
    · exact (ReadKeyPair.genuine_of_delegated hR hdelegates).publicKey_eq
        (ReadKeyPair.genuine_of_delegated hR hkey.delegates) hsame
    · rw [bind_eq_ok_iff] at hexported
      obtain ⟨exported, hdecode, himport⟩ := hexported
      simp only [KeyringImportArgs.run, hdecode, orStop, mapFault_ok, ok_bind, himport, hparent]
      rfl
    · rw [KeyringExportArgs.run_eq_ok_iff]
      constructor
      · intro h hroot
        obtain ⟨spend', keyId, key', hspend', hid', _, hprinted, hcase⟩ := h
        obtain rfl := Except.ok.inj (hspend.symm.trans hspend')
        obtain rfl := Except.ok.inj (hid.symm.trans hid')
        rcases hcase with rfl | ⟨hne, _⟩
        · exact hgrantable.2 (congrArg KeyTexts.scope hprinted)
        · exact hne hroot
      · intro hroot
        refine ⟨spend, key.keyId, key, hspend, hid, rfl, ?_, .inr ⟨hroot, args.scope, rfl, hkey⟩⟩
        rw [hscope]

/-- The owner grants `/a`. -/
theorem grant_texts_owner : ∃ texts key,
    GrantArgs.run base58Arrays base58Text Hex.decode ⟨['/', 'a'], ownerSeed⟩ = .ok texts ∧
    (Encoding.decodeExportedReadKey base58Text texts.exportedKey >>=
      ReadKeyPair.importKey base58Arrays) = .ok key ∧ key.scope = ⟨['/', 'a']⟩ := by
  have hgranted : ∃ texts,
      GrantArgs.run base58Arrays base58Text Hex.decode ⟨['/', 'a'], ownerSeed⟩ = .ok texts :=
    (grant_texts (fun _ => rfl) (fun s => ⟨s, rfl⟩) base58Text_inverts _).1.mpr
      ⟨⟨fileOwner, spendOfSeed_ownerSeed⟩, by decide, by decide⟩
  obtain ⟨texts, htexts⟩ := hgranted
  obtain ⟨_, key, _, hscope, _, _, hexported, _⟩ :=
    (grant_texts (fun _ => rfl) (fun s => ⟨s, rfl⟩) base58Text_inverts _).2 texts htexts
  exact ⟨texts, key, htexts, hexported, hscope⟩

/-- The commands on the keyring agree on an identifier. The export finds it when it is the root
key's or that of the scope, and prints a key with it that the owner delegates. Revoking and
deleting succeed where the export does and the scope is below the root. Without a seed there is
nothing to delete. -/
theorem keyring_commands_agree (hR : C.StaticRoundtrip) (hS : C.StaticOfBytes) (hE : E.Inverts C)
    (clock : ℕ → ℕ) (keyId seed : String) (scope : Option (List Char)) :
    ((∃ texts, KeyringExportArgs.run C E hexDecode ⟨keyId, seed, scope⟩ = .ok texts) ↔
      ∃ spend id, spendOfSeed C hexDecode seed = .ok spend ∧ KeyId.fromBase58 E keyId = .ok id ∧
        spend.Holds scope.toList id) ∧
    (∀ texts, KeyringExportArgs.run C E hexDecode ⟨keyId, seed, scope⟩ = .ok texts →
      ∃ (spend : SpendKeyPair C) (key : ReadKeyPair C), spendOfSeed C hexDecode seed = .ok spend ∧
        Relation.ReflTransGen ReadKeyPair.Delegates spend.deriveRootReadKey key ∧
        KeyId.fromBase58 E keyId = .ok key.keyId ∧
        (Encoding.decodeExportedReadKey E texts.exportedKey >>= ReadKeyPair.importKey C) =
          .ok key) ∧
    (RevokeArgs.run C E hexDecode clock ⟨keyId, seed, scope⟩ = .ok () ↔
      (∃ texts, KeyringExportArgs.run C E hexDecode ⟨keyId, seed, scope⟩ = .ok texts) ∧
        ∀ path ∈ scope, Grantable path) ∧
    (KeyringDeleteArgs.run C E hexDecode clock ⟨keyId, some seed, scope⟩ = .ok () ↔
      RevokeArgs.run C E hexDecode clock ⟨keyId, seed, scope⟩ = .ok ()) ∧
    KeyringDeleteArgs.run C E hexDecode clock ⟨keyId, none, scope⟩ ≠ .ok () := by
  have hexport : (∃ texts, KeyringExportArgs.run C E hexDecode ⟨keyId, seed, scope⟩ = .ok texts) ↔
      ∃ spend id, spendOfSeed C hexDecode seed = .ok spend ∧ KeyId.fromBase58 E keyId = .ok id ∧
        spend.Holds scope.toList id := by
    simp only [KeyringExportArgs.run_eq_ok_iff]
    constructor
    · intro h
      obtain ⟨_, spend, id, key, hspend, hid, rfl, _, rfl | ⟨_, path, hpath, hkey⟩⟩ := h
      · exact ⟨spend, _, hspend, hid, .inl rfl⟩
      · exact ⟨spend, _, hspend, hid, .inr ⟨path, Option.mem_toList.mpr hpath, key, hkey, rfl⟩⟩
    · intro h
      obtain ⟨spend, id, hspend, hid, hholds⟩ := h
      by_cases hroot : spend.deriveRootReadKey.keyId = id
      · exact ⟨_, spend, id, _, hspend, hid, hroot, rfl, .inl rfl⟩
      · obtain ⟨path, hpath, key, hkey, hsame⟩ := hholds.resolve_left hroot
        exact ⟨_, spend, id, key, hspend, hid, hsame, rfl,
          .inr ⟨hroot, path, Option.mem_toList.mp hpath, hkey⟩⟩
  refine ⟨hexport, fun texts htexts => ?_, ?_, ?_, ?_⟩
  · obtain ⟨spend, id, key, hspend, hid, rfl, rfl, hcase⟩ :=
      KeyringExportArgs.run_eq_ok_iff.mp htexts
    rcases hcase with rfl | ⟨_, path, _, hkey⟩
    · exact ⟨spend, _, hspend, .refl, hid, (KeyTexts.read hR hS hE Scope.root_valid _).1⟩
    · obtain ⟨_, hmade⟩ := hkey.eq_fromSecretBytes
      have hscope : key.scope = ⟨path⟩ := congrArg ReadKeyPair.scope hmade
      exact ⟨spend, key, hspend, hkey.delegates, hid,
        (KeyTexts.read hR hS hE (hscope ▸ hkey.1 : key.scope.Valid) _).1⟩
  · simp only [RevokeArgs.run_eq_ok_iff, hexport, Option.mem_toList]
    constructor
    · intro h
      obtain ⟨spend, id, hspend, hid, hscope, hholds⟩ := h
      exact ⟨⟨spend, id, hspend, hid, hholds⟩, hscope⟩
    · intro h
      obtain ⟨⟨spend, id, hspend, hid, hholds⟩, hscope⟩ := h
      exact ⟨spend, id, hspend, hid, hscope, hholds⟩
  · simp only [RevokeArgs.run_eq_ok_iff, KeyringDeleteArgs.run_eq_ok_iff, Option.some.injEq]
    constructor
    · intro h
      obtain ⟨_, spend, id, rfl, h⟩ := h
      exact ⟨spend, id, h⟩
    · intro h
      obtain ⟨spend, id, h⟩ := h
      exact ⟨_, spend, id, rfl, h⟩
  · rw [Ne, KeyringDeleteArgs.run_eq_ok_iff]
    intro h
    obtain ⟨_, _, _, hnone, _⟩ := h
    cases hnone

/-- The owner revokes the root key, with a key for `/a` in the keyring. -/
theorem keyring_commands_agree_owner : RevokeArgs.run base58Arrays base58Text Hex.decode id
    ⟨fileOwner.deriveRootReadKey.keyId.toBase58 base58Arrays, ownerSeed, some ['/', 'a']⟩ =
      .ok () := by
  refine (keyring_commands_agree (fun _ => rfl) (fun s => ⟨s, rfl⟩) base58Text_inverts _ _ _
    _).2.2.1.mpr ⟨?_, fun path hpath => ?_⟩
  · exact (keyring_commands_agree (fun _ => rfl) (fun s => ⟨s, rfl⟩) base58Text_inverts id _ _
      _).1.mpr ⟨fileOwner, _, spendOfSeed_ownerSeed, KeyId.fromBase58_toBase58 base58Text_inverts _,
        .inl rfl⟩
  · obtain rfl := Option.mem_some_iff.mp hpath
    exact ⟨by decide, by decide⟩

/-- `keyring list` succeeds for exactly the scopes below the root. It lists, once each, the
identifiers of the root key and of the keys for the scopes, and every entry describes one of these
keys and is not revoked. -/
theorem keyring_list_exact (args : KeyringListArgs) :
    ((∃ report, args.run C hexDecode clock = .ok report) ↔
      (∃ spend, spendOfSeed C hexDecode args.spendSeed = .ok spend) ∧
        ∀ path ∈ args.scopes, Grantable path) ∧
    ∀ report, args.run C hexDecode clock = .ok report → ∃ spend,
      spendOfSeed C hexDecode args.spendSeed = .ok spend ∧
      report.spendKeyId = spend.keyId.toBase58 C ∧
      (report.readKeys.map ReadKeyInfo.keyId).Nodup ∧
      (∀ keyId, keyId ∈ report.readKeys.map ReadKeyInfo.keyId ↔ spend.Holds args.scopes keyId) ∧
      ∀ info ∈ report.readKeys, info.revoked = false ∧ ∃ key : ReadKeyPair C,
        (key = spend.deriveRootReadKey ∨ ∃ path ∈ args.scopes, spend.DerivesAt path key) ∧
        info.keyId = key.keyId ∧ info.scope = key.scope ∧ info.parentKeyId = key.parentKeyId := by
  have hrun : ∀ report, args.run C hexDecode clock = .ok report ↔ ∃ spend keys,
      spendOfSeed C hexDecode args.spendSeed = .ok spend ∧
      List.Forall₂ spend.DerivesAt args.scopes keys ∧
      report.spendKeyId = spend.keyId.toBase58 C ∧
      (MemoryKeyring.after C (.storeSpendKey "default" spend ::
        stores clock 0 (spend.deriveRootReadKey :: keys))).listReadKeys = .ok report.readKeys := by
    intro report
    simp only [KeyringListArgs.run, bind_eq_ok_iff, populate_eq_ok_iff, orStop, mapFault_eq_ok_iff]
    constructor
    · intro h
      obtain ⟨spend, hspend, _, ⟨keys, hkeys, rfl⟩, infos, hinfos, hreport⟩ := h
      obtain rfl := Except.ok.inj hreport
      exact ⟨spend, keys, hspend, hkeys, rfl, hinfos⟩
    · intro h
      obtain ⟨spend, keys, hspend, hkeys, hid, hinfos⟩ := h
      refine ⟨spend, hspend, _, ⟨keys, hkeys, rfl⟩, report.readKeys, hinfos, ?_⟩
      rw [← hid]
      rfl
  constructor
  · constructor
    · intro h
      obtain ⟨report, hreport⟩ := h
      obtain ⟨spend, keys, hspend, hkeys, _⟩ := (hrun report).mp hreport
      exact ⟨⟨spend, hspend⟩, (exists_forall₂_derivesAt_iff spend _).mp ⟨keys, hkeys⟩⟩
    · intro h
      obtain ⟨⟨spend, hspend⟩, hscopes⟩ := h
      obtain ⟨keys, hkeys⟩ := (exists_forall₂_derivesAt_iff spend _).mpr hscopes
      exact ⟨⟨_, _⟩, (hrun _).mpr ⟨spend, keys, hspend, hkeys, rfl, rfl⟩⟩
  · intro report hreport
    obtain ⟨spend, keys, hspend, hkeys, hid, hlist⟩ := (hrun report).mp hreport
    obtain ⟨infos, hinfos, hnodup, hmem⟩ := (MemoryKeyring.recalls_after (C := C)
      (.storeSpendKey "default" spend ::
        stores clock 0 (spend.deriveRootReadKey :: keys))).listReadKeys
    obtain rfl := Except.ok.inj (hlist.symm.trans hinfos)
    have hstores := onlyStores_cons_spend spend (onlyStores_stores clock 0
      (spend.deriveRootReadKey :: keys))
    refine ⟨spend, hspend, hid, hnodup, fun keyId => ?_, fun info hinfo => ?_⟩
    · rw [← stored_iff_holds clock hkeys, List.mem_map]
      constructor
      · intro h
        obtain ⟨info, hinfo, rfl⟩ := h
        obtain ⟨now, key, hkept, hdescribes⟩ := (hmem info).mp hinfo
        rcases List.mem_cons.mp (Runs.mem_of_latest hkept).1 with hspend | hstore
        · cases hspend
        · exact ⟨now, key, hdescribes.keyId.symm, hstore⟩
      · intro h
        obtain ⟨now, key, hsame, hstore⟩ := h
        obtain ⟨now', key', hsame', hkept⟩ := (hstores.exists_kept_iff keyId).mpr
          ⟨now, key, hsame, List.mem_cons_of_mem _ hstore⟩
        exact ⟨⟨key'.keyId, key'.scope, key'.parentKeyId, now', false, none⟩,
          (hmem _).mpr ⟨now', key', hkept, rfl, rfl, rfl, rfl,
            iff_of_false Bool.false_ne_true (hstores.not_barred _), rfl⟩, hsame'⟩
    · obtain ⟨now, key, hkept, hdescribes⟩ := (hmem info).mp hinfo
      refine ⟨Bool.eq_false_iff.mpr fun hr => hstores.not_barred _ (hdescribes.revoked.mp hr),
        key, ?_, hdescribes.keyId, hdescribes.scope, hdescribes.parentKeyId⟩
      rcases List.mem_cons.mp (Runs.mem_of_latest hkept).1 with hspend | hstore
      · cases hspend
      · obtain ⟨_, key', hkey', he⟩ := eq_of_mem_stores hstore
        obtain ⟨-, rfl⟩ := MemoryKeyring.Op.storeReadKey.inj he
        rcases List.mem_cons.mp hkey' with rfl | hkey'
        · exact .inl rfl
        · obtain ⟨path, hpath, hderives⟩ := exists_mem_of_forall₂ hkeys hkey'
          exact .inr ⟨path, hpath, hderives⟩

end Commands

end ReadOnlyKeys
