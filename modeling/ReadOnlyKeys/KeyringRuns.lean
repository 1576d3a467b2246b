import ReadOnlyKeys.Keyring
import ReadOnlyKeys.Encoding

/-!
# Runs of the keyring

After any calls on a new keyring, what it answers on a key is decided by the last
store or deletion of the key and by the last call that sets or clears its mark.
-/
namespace ReadOnlyKeys
open Outcome Wire

variable {A : ℕ → Type} [ByteArrays A] {C : Crypto A}

/-- Every signing key is made again from its bytes. -/
def Crypto.SigningRoundtrip {A : ℕ → Type} (C : Crypto A) : Prop :=
  ∀ key, C.signingFromBytes (C.signingToBytes key) = key

namespace MemoryKeyring

namespace Op

/-- Does the call store or delete the key? -/
def writes (keyId : KeyId A) : Op C → Bool
  | storeReadKey _ key => decide (key.keyId = keyId)
  | deleteKey other => decide (other = keyId)
  | _ => false

/-- Does the call store, delete or revoke the key? -/
def marks (keyId : KeyId A) : Op C → Bool
  | revokeKey other => decide (other = keyId)
  | op => op.writes keyId

/-- Does the call store a spend key under the label? -/
def labels (label : String) : Op C → Bool
  | storeSpendKey other _ => decide (other = label)
  | _ => false

end Op

/-- The last write of the key's identifier stored the key, at the time `now`. -/
def Kept (ops : List (Op C)) (now : ℕ) (key : ReadKeyPair C) : Prop :=
  Runs.latest (Op.writes key.keyId) ops = some (.storeReadKey now key)

/-- The identifier was revoked, and not stored or deleted since. -/
def Barred (ops : List (Op C)) (keyId : KeyId A) : Prop :=
  Runs.latest (Op.marks keyId) ops = some (.revokeKey keyId)

/-- What is listed of a key that was stored. -/
structure Describes (ops : List (Op C)) (now : ℕ) (key : ReadKeyPair C) (info : ReadKeyInfo A) :
    Prop where
  keyId : info.keyId = key.keyId
  scope : info.scope = key.scope
  parentKeyId : info.parentKeyId = key.parentKeyId
  createdAt : info.createdAt = now
  revoked : info.revoked = true ↔ Barred ops key.keyId
  label : info.label = none

/-- The maps hold what the calls wrote last. -/
structure Recalls (keyring : MemoryKeyring A) (ops : List (Op C)) : Prop where
  readKeys : ∀ keyId entry, keyring.readKeys.lookup keyId.bytes = some entry ↔
    ∃ now key, key.keyId = keyId ∧ Kept ops now key ∧ entry.exported = key.exportKey ∧
      Describes ops now key entry.info
  spendKeys : ∀ label entry, keyring.spendKeys.lookup label = some entry ↔
    ∃ key, Runs.latest (Op.labels label) ops = some (.storeSpendKey label key) ∧
      entry.seed = C.signingToBytes key.signingKey

section Step

variable {self : MemoryKeyring A} {ops : List (Op C)}

/-- A call that writes nothing of a key leaves what was kept of it. -/
lemma kept_concat_of_not_writes {op : Op C} {key : ReadKeyPair C}
    (h : op.writes key.keyId = false) (now : ℕ) :
    Kept (ops ++ [op]) now key ↔ Kept ops now key := by
  rw [Kept, Runs.latest_concat, h, Kept]
  rfl

lemma barred_concat_of_not_marks {op : Op C} {keyId : KeyId A} (h : op.marks keyId = false) :
    Barred (ops ++ [op]) keyId ↔ Barred ops keyId := by
  rw [Barred, Runs.latest_concat, h, Barred]
  rfl

lemma describes_concat_of_not_marks {op : Op C} {key : ReadKeyPair C} {now : ℕ}
    {info : ReadKeyInfo A} (h : op.marks key.keyId = false) :
    Describes (ops ++ [op]) now key info ↔ Describes ops now key info := by
  constructor <;> intro hd
  · exact ⟨hd.keyId, hd.scope, hd.parentKeyId, hd.createdAt,
      hd.revoked.trans (barred_concat_of_not_marks h), hd.label⟩
  · exact ⟨hd.keyId, hd.scope, hd.parentKeyId, hd.createdAt,
      hd.revoked.trans (barred_concat_of_not_marks h).symm, hd.label⟩

lemma writes_eq_false_of_marks {op : Op C} {keyId : KeyId A} (h : op.marks keyId = false) :
    op.writes keyId = false := by
  cases op <;> simp_all [Op.marks, Op.writes]

/-- A call that marks nothing of a key leaves its entry to the calls before. -/
lemma entry_concat_of_not_marks {op : Op C} {keyId : KeyId A} (h : op.marks keyId = false)
    (entry : ReadKeyEntry A) :
    (∃ now key, key.keyId = keyId ∧ Kept (ops ++ [op]) now key ∧ entry.exported = key.exportKey ∧
      Describes (ops ++ [op]) now key entry.info) ↔
    ∃ now key, key.keyId = keyId ∧ Kept ops now key ∧ entry.exported = key.exportKey ∧
      Describes ops now key entry.info := by
  refine exists_congr fun now => exists_congr fun key => and_congr_right fun hk => ?_
  subst hk
  rw [kept_concat_of_not_writes (writes_eq_false_of_marks h), describes_concat_of_not_marks h]

/-- The entry of a key right after it was stored. -/
lemma entry_concat_store (now : ℕ) (key : ReadKeyPair C) (entry : ReadKeyEntry A) :
    (∃ now' key', key'.keyId = key.keyId ∧ Kept (ops ++ [.storeReadKey now key]) now' key' ∧
      entry.exported = key'.exportKey ∧
      Describes (ops ++ [.storeReadKey now key]) now' key' entry.info) ↔
    (⟨key.exportKey, key.keyId, key.scope, key.parentKeyId, now, false, none⟩ :
      ReadKeyEntry A) = entry := by
  have hwrites : Op.writes key.keyId (.storeReadKey now key) = true := decide_eq_true rfl
  have hopen : ¬ Barred (ops ++ [.storeReadKey now key]) key.keyId := by
    intro hbarred
    have hmarks : Op.marks key.keyId (.storeReadKey now key) = true := hwrites
    rw [Barred, Runs.latest_concat, hmarks, if_pos rfl, Option.some.injEq] at hbarred
    cases hbarred
  constructor
  · intro h
    obtain ⟨now', key', hid, hkept, hexported, hinfo⟩ := h
    rw [Kept, hid, Runs.latest_concat, hwrites, if_pos rfl, Option.some.injEq] at hkept
    obtain ⟨rfl, rfl⟩ := Op.storeReadKey.inj hkept
    have hrevoked : entry.info.revoked = false :=
      Bool.eq_false_iff.mpr fun hr => hopen (hinfo.revoked.mp hr)
    obtain ⟨exported, keyId, scope, parentKeyId, createdAt, revoked, label⟩ := entry
    obtain ⟨rfl, rfl, rfl, rfl, _, rfl⟩ := hinfo
    obtain rfl := hexported
    obtain rfl := hrevoked
    rfl
  · intro h
    obtain rfl := h
    refine ⟨now, key, rfl, ?_, rfl, rfl, rfl, rfl, rfl, ?_, rfl⟩
    · rw [Kept, Runs.latest_concat, hwrites, if_pos rfl]
    · exact iff_of_false Bool.false_ne_true hopen

/-- A key that was deleted is kept no more. -/
lemma not_kept_concat_delete {keyId : KeyId A} {now : ℕ} {key : ReadKeyPair C}
    (hid : key.keyId = keyId) : ¬ Kept (ops ++ [.deleteKey keyId]) now key := by
  intro hkept
  have hwrites : Op.writes key.keyId (.deleteKey keyId : Op C) = true := decide_eq_true hid.symm
  rw [Kept, Runs.latest_concat, hwrites, if_pos rfl, Option.some.injEq] at hkept
  cases hkept

/-- Two keys that are kept under one identifier are one. -/
lemma Kept.unique {now now' : ℕ} {key key' : ReadKeyPair C} (h : Kept ops now key)
    (h' : Kept ops now' key') (hid : key'.keyId = key.keyId) : now = now' ∧ key = key' := by
  rw [Kept, hid] at h'
  exact Op.storeReadKey.inj (Option.some.inj (h.symm.trans h'))

lemma barred_concat_revoke (ops : List (Op C)) (keyId : KeyId A) :
    Barred (ops ++ [(.revokeKey keyId : Op C)]) keyId := by
  have hmarks : Op.marks keyId (.revokeKey keyId : Op C) = true := decide_eq_true rfl
  rw [Barred, Runs.latest_concat, hmarks, if_pos rfl]

lemma spendKeys_revokeKey (self : MemoryKeyring A) (keyId : KeyId A) :
    (self.revokeKey C keyId).2.spendKeys = self.spendKeys := by
  unfold MemoryKeyring.revokeKey
  cases self.readKeys.lookup keyId.bytes <;> rfl

lemma spendKeys_deleteKey (self : MemoryKeyring A) (keyId : KeyId A) :
    (self.deleteKey C keyId).2.spendKeys = self.spendKeys := by
  unfold MemoryKeyring.deleteKey
  cases self.readKeys.lookup keyId.bytes <;> rfl

/-- There is an entry for what is kept. -/
theorem Recalls.exists_entry_iff (h : self.Recalls ops) (keyId : KeyId A) :
    (∃ entry, self.readKeys.lookup keyId.bytes = some entry) ↔
      ∃ now key, key.keyId = keyId ∧ Kept ops now key := by
  constructor
  · intro hentry
    obtain ⟨entry, hentry⟩ := hentry
    obtain ⟨now, key, hid, hkept, _⟩ := (h.readKeys keyId entry).mp hentry
    exact ⟨now, key, hid, hkept⟩
  · intro hkept
    obtain ⟨now, key, hid, hkept⟩ := hkept
    obtain ⟨revoked, hrevoked⟩ : ∃ b : Bool, b = true ↔ Barred ops key.keyId := by
      by_cases hb : Barred ops key.keyId
      · exact ⟨true, iff_of_true rfl hb⟩
      · exact ⟨false, iff_of_false Bool.false_ne_true hb⟩
    have hinfo : Describes ops now key
        ⟨key.keyId, key.scope, key.parentKeyId, now, revoked, none⟩ :=
      ⟨rfl, rfl, rfl, rfl, hrevoked, rfl⟩
    exact ⟨⟨key.exportKey, _⟩, (h.readKeys keyId _).mpr ⟨now, key, hid, hkept, rfl, hinfo⟩⟩

/-- A revocation sets the mark of the entry that is there, and makes none. -/
lemma Recalls.revokeKey (h : self.Recalls ops) (keyId : KeyId A) (entry : ReadKeyEntry A) :
    (self.revokeKey C keyId).2.readKeys.lookup keyId.bytes = some entry ↔
      ∃ now key, key.keyId = keyId ∧ Kept (ops ++ [.revokeKey keyId]) now key ∧
        entry.exported = key.exportKey ∧
        Describes (ops ++ [.revokeKey keyId]) now key entry.info := by
  have hkept : ∀ now (key : ReadKeyPair C),
      Kept (ops ++ [.revokeKey keyId]) now key ↔ Kept ops now key :=
    fun now key => kept_concat_of_not_writes rfl now
  simp only [hkept]
  unfold MemoryKeyring.revokeKey
  cases hl : self.readKeys.lookup keyId.bytes with
  | none =>
    simp only [hl, reduceCtorEq, false_iff]
    intro hstored
    obtain ⟨now, key, hid, hkey, _⟩ := hstored
    obtain ⟨old, hold⟩ := (h.exists_entry_iff keyId).mpr ⟨now, key, hid, hkey⟩
    rw [hl] at hold
    cases hold
  | some old =>
    obtain ⟨now, key, rfl, hkey, hexported, hinfo⟩ := (h.readKeys keyId old).mp hl
    have hbarred := barred_concat_revoke ops key.keyId
    rw [AList.lookup_insert, Option.some.injEq]
    constructor
    · intro he
      obtain rfl := he
      exact ⟨now, key, rfl, hkey, hexported, hinfo.keyId, hinfo.scope, hinfo.parentKeyId,
        hinfo.createdAt, iff_of_true rfl hbarred, hinfo.label⟩
    · intro he
      obtain ⟨now', key', hid, hkey', hexported', hinfo'⟩ := he
      obtain ⟨rfl, rfl⟩ := hkey.unique hkey' hid
      have hrevoked : entry.info.revoked = true := hinfo'.revoked.mpr hbarred
      obtain ⟨_, _, _, _, _, _, _⟩ := old
      obtain ⟨_, _, _, _, _, _, _⟩ := entry
      obtain ⟨rfl, rfl, rfl, rfl, _, rfl⟩ := hinfo
      obtain ⟨rfl, rfl, rfl, rfl, _, rfl⟩ := hinfo'
      obtain rfl := hexported
      obtain rfl := hexported'
      obtain rfl := hrevoked
      rfl

/-- The spend keys that a call leaves are those it had. -/
lemma Recalls.spendKeys_concat (h : self.Recalls ops) {op : Op C}
    (hlabel : ∀ label, op.labels label = false) (label : String) (entry : SpendKeySeed A) :
    self.spendKeys.lookup label = some entry ↔
      ∃ key, Runs.latest (Op.labels label) (ops ++ [op]) = some (.storeSpendKey label key) ∧
        entry.seed = C.signingToBytes key.signingKey := by
  rw [h.spendKeys, Runs.latest_concat, hlabel]
  rfl

/-- The read keys that a call leaves are those it had. -/
lemma Recalls.readKeys_concat (h : self.Recalls ops) {op : Op C}
    (hmarks : ∀ keyId, op.marks keyId = false) (keyId : KeyId A) (entry : ReadKeyEntry A) :
    self.readKeys.lookup keyId.bytes = some entry ↔
      ∃ now key, key.keyId = keyId ∧ Kept (ops ++ [op]) now key ∧ entry.exported = key.exportKey ∧
        Describes (ops ++ [op]) now key entry.info := by
  rw [h.readKeys, entry_concat_of_not_marks (hmarks keyId)]

/-- Every call keeps the relation to the calls so far. -/
theorem Recalls.step (h : self.Recalls ops) (op : Op C) :
    (self.step C op).Recalls (ops ++ [op]) := by
  cases op with
  | storeSpendKey label key =>
    refine ⟨h.readKeys_concat fun _ => rfl, fun label' entry => ?_⟩
    by_cases hlabel : label = label'
    · subst hlabel
      have hlabels : Op.labels label (.storeSpendKey label key) = true := decide_eq_true rfl
      simp only [MemoryKeyring.step, storeSpendKey, AList.lookup_insert, Runs.latest_concat,
        hlabels, if_true, Option.some.injEq, Op.storeSpendKey.injEq, true_and, exists_eq_left']
      obtain ⟨seed⟩ := entry
      exact ⟨fun he => (SpendKeySeed.mk.inj he).symm, fun he => congrArg _ he.symm⟩
    · have hlabels : Op.labels label' (.storeSpendKey label key) = false :=
        decide_eq_false hlabel
      simp only [MemoryKeyring.step, storeSpendKey, Runs.latest_concat, hlabels,
        AList.lookup_insert_ne (Ne.symm hlabel), h.spendKeys]
      rfl
  | storeReadKey now key =>
    refine ⟨fun keyId entry => ?_, h.spendKeys_concat fun _ => rfl⟩
    by_cases hid : key.keyId = keyId
    · subst hid
      rw [entry_concat_store, MemoryKeyring.step, storeReadKey, AList.lookup_insert,
        Option.some.injEq]
    · have hbytes : keyId.bytes ≠ key.keyId.bytes := fun hb => hid (KeyId.ext hb.symm)
      have hmarks : Op.marks keyId (.storeReadKey now key) = false := decide_eq_false hid
      rw [entry_concat_of_not_marks hmarks, MemoryKeyring.step, storeReadKey,
        AList.lookup_insert_ne hbytes, h.readKeys]
  | revokeKey other =>
    refine ⟨fun keyId entry => ?_, ?_⟩
    · by_cases hid : other = keyId
      · subst hid
        exact h.revokeKey other entry
      · have hbytes : keyId.bytes ≠ other.bytes := fun hb => hid (KeyId.ext hb.symm)
        have hmarks : Op.marks keyId (.revokeKey other : Op C) = false := decide_eq_false hid
        rw [entry_concat_of_not_marks hmarks, ← h.readKeys, MemoryKeyring.step,
          MemoryKeyring.revokeKey]
        cases self.readKeys.lookup other.bytes with
        | none => rfl
        | some old => simp only [AList.lookup_insert_ne hbytes]
    · rw [MemoryKeyring.step, spendKeys_revokeKey]
      exact h.spendKeys_concat fun _ => rfl
  | deleteKey other =>
    refine ⟨fun keyId entry => ?_, ?_⟩
    · by_cases hid : other = keyId
      · subst hid
        have hgone : (self.deleteKey C other).2.readKeys.lookup other.bytes = none := by
          unfold MemoryKeyring.deleteKey
          cases hl : self.readKeys.lookup other.bytes with
          | none => exact hl
          | some old => exact AList.lookup_erase _ _
        rw [MemoryKeyring.step, hgone]
        refine iff_of_false (by simp) fun hkept => ?_
        obtain ⟨now, key, hid, hkey, _⟩ := hkept
        exact not_kept_concat_delete hid hkey
      · have hbytes : keyId.bytes ≠ other.bytes := fun hb => hid (KeyId.ext hb.symm)
        have hmarks : Op.marks keyId (.deleteKey other : Op C) = false := decide_eq_false hid
        rw [entry_concat_of_not_marks hmarks, ← h.readKeys, MemoryKeyring.step,
          MemoryKeyring.deleteKey]
        cases self.readKeys.lookup other.bytes with
        | none => rfl
        | some old => simp only [AList.lookup_erase_ne hbytes]
    · rw [MemoryKeyring.step, spendKeys_deleteKey]
      exact h.spendKeys_concat fun _ => rfl
  | loadSpendKey label => exact ⟨h.readKeys_concat fun _ => rfl, h.spendKeys_concat fun _ => rfl⟩
  | loadReadKey keyId => exact ⟨h.readKeys_concat fun _ => rfl, h.spendKeys_concat fun _ => rfl⟩
  | listReadKeys => exact ⟨h.readKeys_concat fun _ => rfl, h.spendKeys_concat fun _ => rfl⟩
  | isRevoked keyId => exact ⟨h.readKeys_concat fun _ => rfl, h.spendKeys_concat fun _ => rfl⟩

end Step

/-- The keyring after calls on a new one. -/
def after (C : Crypto A) (ops : List (Op C)) : MemoryKeyring A := Runs.run (step C) new ops

/-- So it holds what was written last. -/
theorem recalls_after (ops : List (Op C)) : (after C ops).Recalls ops := by
  refine Runs.run_history Recalls
    (fun _ _ op h => h.step op) ⟨fun keyId entry => ?_, fun label entry => ?_⟩ ops
  · simp [new, Kept]
  · simp [new]

section Stores

variable {ops : List (Op C)}

/-- No call revokes or deletes a read key. -/
def OnlyStores (ops : List (Op C)) : Prop :=
  ∀ op ∈ ops, ∀ keyId, op.marks keyId = true → ∃ now key, op = .storeReadKey now key

lemma OnlyStores.not_barred (h : OnlyStores ops) (keyId : KeyId A) : ¬ Barred ops keyId := by
  intro hbarred
  obtain ⟨hmem, hmarks⟩ := Runs.mem_of_latest hbarred
  obtain ⟨now, key, he⟩ := h _ hmem keyId hmarks
  cases he

/-- Then a key is kept under each identifier that was stored. -/
lemma OnlyStores.exists_kept_iff (hops : OnlyStores ops) (keyId : KeyId A) :
    (∃ now key, key.keyId = keyId ∧ Kept ops now key) ↔
      ∃ now key, key.keyId = keyId ∧ .storeReadKey now key ∈ ops := by
  constructor
  · intro h
    obtain ⟨now, key, hid, hkept⟩ := h
    exact ⟨now, key, hid, (Runs.mem_of_latest hkept).1⟩
  · intro h
    obtain ⟨now, key, rfl, hmem⟩ := h
    have hwrites : Op.writes key.keyId (.storeReadKey now key) = true := decide_eq_true rfl
    obtain ⟨op, hop⟩ := Runs.exists_latest hmem hwrites
    obtain ⟨hmem', hwrites'⟩ := Runs.mem_of_latest hop
    have hmarks : op.marks key.keyId = true := by
      by_contra hn
      rw [writes_eq_false_of_marks (Bool.eq_false_iff.mpr hn)] at hwrites'
      cases hwrites'
    obtain ⟨now', key', rfl⟩ := hops op hmem' key.keyId hmarks
    have hid : key'.keyId = key.keyId := of_decide_eq_true hwrites'
    refine ⟨now', key', hid, ?_⟩
    rw [Kept, hid]
    exact hop

end Stores

section Answers

variable {self : MemoryKeyring A} {ops : List (Op C)}

/-- A load gives back what is kept and not barred. -/
theorem Recalls.loadReadKey_eq_ok_iff (hR : C.StaticRoundtrip) (hS : C.StaticOfBytes)
    (h : self.Recalls ops) (keyId : KeyId A) (key : ReadKeyPair C) :
    self.loadReadKey C keyId = .ok key ↔
      key.keyId = keyId ∧ (∃ now, Kept ops now key) ∧ ¬ Barred ops keyId := by
  unfold loadReadKey
  simp only [bind_eq_ok_iff, okOr_eq_ok_iff, require_eq_ok_iff, exists_const]
  constructor
  · intro hload
    obtain ⟨entry, hentry, hopen, himport⟩ := hload
    obtain ⟨now, key', rfl, hkept, hexported, hinfo⟩ := (h.readKeys keyId entry).mp hentry
    rw [hexported, key'.importKey_exportKey hR hS] at himport
    obtain rfl := Except.ok.inj himport
    exact ⟨rfl, ⟨now, hkept⟩, fun hbarred => by simp [hinfo.revoked.mpr hbarred] at hopen⟩
  · intro hkept
    obtain ⟨rfl, ⟨now, hkept⟩, hopen⟩ := hkept
    have hinfo : Describes ops now key ⟨key.keyId, key.scope, key.parentKeyId, now, false, none⟩ :=
      ⟨rfl, rfl, rfl, rfl, iff_of_false Bool.false_ne_true hopen, rfl⟩
    exact ⟨⟨key.exportKey, _⟩, (h.readKeys _ _).mpr ⟨now, key, rfl, hkept, rfl, hinfo⟩, rfl,
      key.importKey_exportKey hR hS⟩

theorem Recalls.isRevoked_eq_ok_iff (h : self.Recalls ops) (keyId : KeyId A) (b : Bool) :
    self.isRevoked C keyId = .ok b ↔
      (∃ now key, key.keyId = keyId ∧ Kept ops now key) ∧ (b = true ↔ Barred ops keyId) := by
  rw [MemoryKeyring.isRevoked_eq_ok_iff]
  constructor
  · intro hentry
    obtain ⟨entry, hentry, rfl⟩ := hentry
    obtain ⟨now, key, rfl, hkept, _, hinfo⟩ := (h.readKeys keyId entry).mp hentry
    exact ⟨⟨now, key, rfl, hkept⟩, hinfo.revoked⟩
  · intro hkept
    obtain ⟨hkept, hb⟩ := hkept
    obtain ⟨entry, hentry⟩ := (h.exists_entry_iff keyId).mpr hkept
    obtain ⟨now, key, rfl, _, _, hinfo⟩ := (h.readKeys keyId entry).mp hentry
    exact ⟨entry, hentry, Bool.eq_iff_iff.mpr (hinfo.revoked.trans hb.symm)⟩

/-- The listing has one description of every key that is kept. -/
theorem Recalls.listReadKeys (h : self.Recalls ops) : ∃ infos, self.listReadKeys = .ok infos ∧
    (infos.map ReadKeyInfo.keyId).Nodup ∧
    ∀ info, info ∈ infos ↔ ∃ now key, Kept ops now key ∧ Describes ops now key info := by
  have hmem : ∀ (id : A 8) entry, (⟨id, entry⟩ : Sigma fun _ => ReadKeyEntry A) ∈
      self.readKeys.entries ↔ ∃ now key, key.keyId = ⟨id⟩ ∧ Kept ops now key ∧
        entry.exported = key.exportKey ∧ Describes ops now key entry.info := by
    intro id entry
    rw [← h.readKeys ⟨id⟩ entry]
    exact AList.mem_lookup_iff.symm
  refine ⟨_, rfl, ?_, fun info => ?_⟩
  · have hkeys : (self.readKeys.entries.map fun e => e.2.info).map ReadKeyInfo.keyId =
        self.readKeys.keys.map KeyId.mk := by
      rw [List.map_map, AList.keys, List.keys, List.map_map]
      refine List.map_congr_left fun e he => ?_
      obtain ⟨now, key, hid, _, _, hinfo⟩ := (hmem e.1 e.2).mp he
      exact hinfo.keyId.trans hid
    rw [hkeys]
    exact self.readKeys.keys_nodup.map fun _ _ heq => KeyId.mk.inj heq
  · rw [List.mem_map]
    constructor
    · intro he
      obtain ⟨e, he, rfl⟩ := he
      obtain ⟨now, key, _, hkept, _, hinfo⟩ := (hmem e.1 e.2).mp he
      exact ⟨now, key, hkept, hinfo⟩
    · intro hkept
      obtain ⟨now, key, hkept, hinfo⟩ := hkept
      exact ⟨⟨key.keyId.bytes, key.exportKey, info⟩,
        (hmem _ _).mpr ⟨now, key, rfl, hkept, rfl, hinfo⟩, rfl⟩

theorem Recalls.loadSpendKey_eq_ok_iff (hG : C.SigningRoundtrip) (h : self.Recalls ops)
    (label : String) (key : SpendKeyPair C) : self.loadSpendKey C label = .ok key ↔
      Runs.latest (Op.labels label) ops = some (.storeSpendKey label key) := by
  have hseed : ∀ key : SpendKeyPair C,
      SpendKeyPair.fromSeed C (C.signingToBytes key.signingKey) = key := by
    intro key
    rw [SpendKeyPair.fromSeed, hG]
  unfold loadSpendKey
  simp only [bind_eq_ok_iff, okOr_eq_ok_iff, h.spendKeys]
  constructor
  · intro hload
    obtain ⟨entry, ⟨key', hlast, hentry⟩, hload⟩ := hload
    rw [hentry, hseed] at hload
    obtain rfl := Except.ok.inj hload
    exact hlast
  · intro hlast
    exact ⟨⟨C.signingToBytes key.signingKey⟩, ⟨key, hlast, rfl⟩, congrArg Except.ok (hseed key)⟩

/-- A key can be revoked, or deleted, when one is kept. -/
theorem Recalls.revokeKey_ok_iff (h : self.Recalls ops) (keyId : KeyId A) :
    (self.revokeKey C keyId).1 = .ok () ↔ ∃ now key, key.keyId = keyId ∧ Kept ops now key := by
  rw [← h.exists_entry_iff, MemoryKeyring.revokeKey]
  cases self.readKeys.lookup keyId.bytes <;> simp

theorem Recalls.deleteKey_ok_iff (h : self.Recalls ops) (keyId : KeyId A) :
    (self.deleteKey C keyId).1 = .ok () ↔ ∃ now key, key.keyId = keyId ∧ Kept ops now key := by
  rw [← h.exists_entry_iff, MemoryKeyring.deleteKey]
  cases self.readKeys.lookup keyId.bytes <;> simp

end Answers

/-- After any calls, a load gives back exactly the key that the last write of its identifier stored,
unless the identifier was revoked since. The marks and the listing tell the same, and a label
gives the spend key that was stored last. -/
theorem keyring_answers_last_calls (hR : C.StaticRoundtrip) (hS : C.StaticOfBytes)
    (hG : C.SigningRoundtrip) (ops : List (Op C)) :
    (∀ keyId key, (after C ops).loadReadKey C keyId = .ok key ↔
      key.keyId = keyId ∧ (∃ now, Kept ops now key) ∧ ¬ Barred ops keyId) ∧
    (∀ keyId b, (after C ops).isRevoked C keyId = .ok b ↔
      (∃ now key, key.keyId = keyId ∧ Kept ops now key) ∧ (b = true ↔ Barred ops keyId)) ∧
    (∃ infos, (after C ops).listReadKeys = .ok infos ∧ (infos.map ReadKeyInfo.keyId).Nodup ∧
      ∀ info, info ∈ infos ↔ ∃ now key, Kept ops now key ∧ Describes ops now key info) ∧
    ∀ label key, (after C ops).loadSpendKey C label = .ok key ↔
      Runs.latest (Op.labels label) ops = some (.storeSpendKey label key) := by
  have h := recalls_after ops
  exact ⟨h.loadReadKey_eq_ok_iff hR hS, h.isRevoked_eq_ok_iff, h.listReadKeys,
    h.loadSpendKey_eq_ok_iff hG⟩

/-- A root key that is stored, revoked and stored again is loaded, and one that is stored and
revoked is not. -/
theorem keyring_answers_last_calls_root :
    (after Transparent.arrays [.storeReadKey 0 zeroRoot, .revokeKey zeroRoot.keyId,
      .storeReadKey 1 zeroRoot]).loadReadKey Transparent.arrays zeroRoot.keyId = .ok zeroRoot ∧
    (after Transparent.arrays [.storeReadKey 0 zeroRoot,
      .revokeKey zeroRoot.keyId]).loadReadKey Transparent.arrays zeroRoot.keyId ≠ .ok zeroRoot := by
  have h := keyring_answers_last_calls (Transparent.crypto_staticRoundtrip packArray)
    (fun s => ⟨s, rfl⟩) (fun _ => rfl)
  constructor
  · refine ((h _).1 _ _).mpr ⟨rfl, ⟨1, rfl⟩, fun hbarred => ?_⟩
    cases hbarred
  · intro hload
    exact (((h _).1 _ _).mp hload).2.2 rfl

end MemoryKeyring

end ReadOnlyKeys
