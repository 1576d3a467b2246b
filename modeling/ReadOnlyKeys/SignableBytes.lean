import ReadOnlyKeys.EnvelopeCodec
import ReadOnlyKeys.Lib.PrefixCode

/-!
# What the signature covers

Every field of the signed bytes is of fixed width or carries its length, except
the scope. Two envelopes with the same signed bytes are therefore equal up to
the signature unless one scope is a proper prefix of the other as a string, and
then bytes can move between the scope and the fields behind it.
-/
namespace ReadOnlyKeys
open Outcome Wire

namespace EncryptedEnvelope

/-- Lengths the signed bytes can express. No vector is longer than the address space. -/
structure SignLimits (e : EncryptedEnvelope (Vector UInt8)) : Prop where
  mlkem : MlkemFits e.ephemeralMlkemCiphertext
  entries : e.accessEntries.length < 256 ^ 4
  wrapped : ∀ entry ∈ e.accessEntries, entry.wrappedDataKey.length < 256 ^ 4
  ciphertext : e.ciphertext.length < 256 ^ 8

/-- The signed bytes in front of the scope. -/
def signablePrefix (e : EncryptedEnvelope (Vector UInt8)) : Bytes :=
  leBytes 4 e.version.toNat ++ ([e.algorithm.toU8] ++ [e.accessMode.toU8])

/-- The signed bytes after the scope. -/
def signableSuffix (e : EncryptedEnvelope (Vector UInt8)) : Bytes :=
  asBytes e.ephemeralX25519Public ++ (mlkemBytes e.ephemeralMlkemCiphertext ++
    ((leBytes 4 e.accessEntries.length ++ e.accessEntries.flatMap (AccessEntry.toBytes 4)) ++
      (asBytes e.nonce ++ ((leBytes 8 e.ciphertext.length ++ e.ciphertext) ++
        (asBytes e.tag ++ asBytes e.spendPublicKey)))))

theorem signableBytes_eq (e : EncryptedEnvelope (Vector UInt8)) :
    e.signableBytes = e.signablePrefix ++ (toUtf8 e.scope.path ++ e.signableSuffix) := by
  simp only [signableBytes, signablePrefix, signableSuffix, List.append_assoc]

theorem asBytes_prefixCode (n : ℕ) :
    PrefixCode (fun _ => True) (asBytes : Vector UInt8 n → Bytes) :=
  PrefixCode.of_length n (by simp) (asBytes_injective n)

theorem version_prefixCode :
    PrefixCode (fun _ => True) fun v : UInt32 => leBytes 4 v.toNat :=
  PrefixCode.of_length 4 (by simp) fun v w h =>
    UInt32.toNat_inj.mp (leBytes_injective 4 v.toNat_lt w.toNat_lt h)

theorem algorithm_prefixCode : PrefixCode (fun _ => True) fun a : Algorithm => [a.toU8] :=
  PrefixCode.of_length 1 (by simp) fun a b h => by cases a <;> cases b <;> simp_all [Algorithm.toU8]

theorem accessMode_prefixCode : PrefixCode (fun _ => True) fun a : AccessMode => [a.toU8] :=
  PrefixCode.of_length 1 (by simp) fun a b h => by cases a <;> cases b <;> simp_all [AccessMode.toU8]

theorem mlkemBytes_prefixCode : PrefixCode MlkemFits mlkemBytes := by
  have heq : ∀ ct? : Option Bytes,
      mlkemBytes ct? = leBytes 4 (ct?.getD []).length ++ ct?.getD [] := by
    intro ct?
    cases ct? <;> simp [mlkemBytes]
  have hlt : ∀ ct?, MlkemFits ct? → (ct?.getD []).length < 256 ^ 4 := by
    intro ct? h
    cases ct? with
    | none => decide
    | some ct => exact (h ct rfl).2
  intro a b xs ys ha hb h
  rw [heq, heq] at h
  obtain ⟨hab, hxy⟩ := PrefixCode.counted 4 _ _ _ _ (hlt a ha) (hlt b hb) h
  refine ⟨?_, hxy⟩
  -- the length zero is kept for none
  cases a with
  | none =>
    cases b with
    | none => rfl
    | some ct =>
      have hct := (hb ct rfl).1
      rw [show ct = [] from hab.symm] at hct
      exact absurd hct (lt_irrefl 0)
  | some ct =>
    cases b with
    | none =>
      have hct := (ha ct rfl).1
      rw [show ct = [] from hab] at hct
      exact absurd hct (lt_irrefl 0)
    | some ct' => exact congrArg some hab

theorem entry_prefixCode : PrefixCode
    (fun entry : AccessEntry (Vector UInt8) => entry.wrappedDataKey.length < 256 ^ 4)
    (AccessEntry.toBytes 4) := by
  intro a b xs ys ha hb h
  simp only [AccessEntry.toBytes, List.append_assoc] at h
  obtain ⟨hid, h⟩ := asBytes_prefixCode 8 _ _ _ _ trivial trivial h
  rw [← List.append_assoc, ← List.append_assoc (leBytes 4 b.wrappedDataKey.length)] at h
  obtain ⟨hkey, h⟩ := PrefixCode.counted 4 _ _ _ _ ha hb h
  obtain ⟨hnonce, h⟩ := asBytes_prefixCode 12 _ _ _ _ trivial trivial h
  exact ⟨AccessEntry.ext (KeyId.ext hid) hkey hnonce, h⟩

/-- The fields after the scope are determined by their bytes. -/
theorem signableSuffix_inj {a b : EncryptedEnvelope (Vector UInt8)} (ha : a.SignLimits)
    (hb : b.SignLimits) (h : a.signableSuffix = b.signableSuffix) :
    a.ephemeralX25519Public = b.ephemeralX25519Public ∧
      a.ephemeralMlkemCiphertext = b.ephemeralMlkemCiphertext ∧
      a.accessEntries = b.accessEntries ∧ a.nonce = b.nonce ∧ a.ciphertext = b.ciphertext ∧
      a.tag = b.tag ∧ a.spendPublicKey = b.spendPublicKey := by
  obtain ⟨heph, h⟩ := asBytes_prefixCode 32 _ _ _ _ trivial trivial h
  obtain ⟨hmlkem, h⟩ := mlkemBytes_prefixCode _ _ _ _ ha.mlkem hb.mlkem h
  obtain ⟨hentries, h⟩ := entry_prefixCode.countedList 4 _ _ _ _ ⟨ha.entries, ha.wrapped⟩
    ⟨hb.entries, hb.wrapped⟩ h
  obtain ⟨hnonce, h⟩ := asBytes_prefixCode 12 _ _ _ _ trivial trivial h
  obtain ⟨hct, h⟩ := PrefixCode.counted 8 _ _ _ _ ha.ciphertext hb.ciphertext h
  obtain ⟨htag, h⟩ := asBytes_prefixCode 16 _ _ _ _ trivial trivial h
  exact ⟨heph, hmlkem, hentries, hnonce, hct, htag, asBytes_injective 32 h⟩

/-- Same signed bytes and same scope: the same envelope, up to the signature. -/
theorem eq_of_signableBytes_eq {a b : EncryptedEnvelope (Vector UInt8)} (ha : a.SignLimits)
    (hb : b.SignLimits) (hs : a.scope = b.scope) (h : a.signableBytes = b.signableBytes) :
    a = { b with signature := a.signature } := by
  rw [signableBytes_eq, signableBytes_eq, signablePrefix, signablePrefix, List.append_assoc,
    List.append_assoc, List.append_assoc, List.append_assoc] at h
  obtain ⟨hversion, h⟩ := version_prefixCode _ _ _ _ trivial trivial h
  obtain ⟨halg, h⟩ := algorithm_prefixCode _ _ _ _ trivial trivial h
  obtain ⟨hmode, h⟩ := accessMode_prefixCode _ _ _ _ trivial trivial h
  rw [hs] at h
  obtain ⟨heph, hmlkem, hentries, hnonce, hct, htag, hspk⟩ :=
    signableSuffix_inj ha hb (List.append_cancel_left h)
  exact EncryptedEnvelope.ext hversion halg hs heph hmlkem hentries hnonce hct htag rfl hspk hmode

/-- Envelopes at scopes `s` and `t` with the same signed bytes agree in everything signed. -/
def Determines (s t : Scope) : Prop :=
  ∀ a b : EncryptedEnvelope (Vector UInt8), a.scope = s → b.scope = t → a.SignLimits →
    b.SignLimits → a.signableBytes = b.signableBytes → a = { b with signature := a.signature }

/-- Neither path is a proper prefix of the other. -/
def NoProperPrefix (s t : Scope) : Prop := s.path <+: t.path ∨ t.path <+: s.path → s = t

instance (s t : Scope) : Decidable (NoProperPrefix s t) :=
  inferInstanceAs (Decidable (s.path <+: t.path ∨ t.path <+: s.path → s = t))

theorem determines_of_noProperPrefix {s t : Scope} (hs : s.Valid) (ht : t.Valid)
    (h : NoProperPrefix s t) : Determines s t := by
  intro a b rfl rfl ha hb hab
  refine eq_of_signableBytes_eq ha hb (h ?_) hab
  have hlen : a.signablePrefix.length = b.signablePrefix.length := by simp [signablePrefix]
  rw [signableBytes_eq, signableBytes_eq] at hab
  obtain ⟨_, htail⟩ := List.append_inj hab hlen
  -- both paths start the same byte string, so one starts the other
  have hpre := List.prefix_or_prefix_of_prefix (List.prefix_append _ _)
    (htail ▸ List.prefix_append (toUtf8 a.scope.path) a.signableSuffix)
  rcases hpre with hp | hp
  · exact .inr (prefix_of_toUtf8 (fun c hc => (ht.char_range c hc).2)
      (fun c hc => (hs.char_range c hc).2) hp)
  · exact .inl (prefix_of_toUtf8 (fun c hc => (hs.char_range c hc).2)
      (fun c hc => (ht.char_range c hc).2) hp)

section Collision

variable (s t : Scope) (w : Bytes)

/-- The bytes that one envelope reads as the end of its scope, an ephemeral key and an empty
ML-KEM field, and the other as an ephemeral key and the start of an ML-KEM field. -/
def shared : Bytes := w ++ List.replicate 32 0xff ++ leBytes 4 0

/-- The length that the second reading finds for its ML-KEM ciphertext. -/
def sharedLength : ℕ := leNat (((shared w).drop 32).take 4)

/-- No entries, a nonce of zeros, and a length of the ciphertext. -/
def zeroFields (ctLen : ℕ) : Bytes :=
  leBytes 4 0 ++ asBytes (zeros 12 : Vector UInt8 12) ++ leBytes 8 ctLen

/-- A tag and a spend public key of zeros. -/
def zeroEnd : Bytes := asBytes (zeros 16 : Vector UInt8 16) ++ asBytes (zeros 32 : Vector UInt8 32)

def padding : Bytes := List.replicate (sharedLength w - (w.length + 24)) 0

/-- The ML-KEM ciphertext of the second reading. -/
def swallowed : Bytes :=
  (shared w).drop 36 ++ zeroFields (sharedLength w - w.length) ++ padding w

/-- The envelope at the shorter scope: an ML-KEM ciphertext swallows the fields of the other. -/
def collisionShort : EncryptedEnvelope (Vector UInt8) where
  version := 2
  algorithm := .eciesX25519ChaCha20
  scope := s
  ephemeralX25519Public := ⟨((shared w).take 32).toArray, by simp [shared]⟩
  ephemeralMlkemCiphertext := some (swallowed w)
  accessEntries := []
  nonce := zeros 12
  ciphertext := []
  tag := zeros 16
  signature := zeros 64
  spendPublicKey := zeros 32
  accessMode := .recipient

/-- The envelope at the longer scope: its ciphertext ends with the fields of the other. -/
def collisionLong : EncryptedEnvelope (Vector UInt8) where
  version := 2
  algorithm := .eciesX25519ChaCha20
  scope := t
  ephemeralX25519Public := Vector.replicate 32 0xff
  ephemeralMlkemCiphertext := none
  accessEntries := []
  nonce := zeros 12
  ciphertext := padding w ++ zeroFields 0
  tag := zeros 16
  signature := zeros 64
  spendPublicKey := zeros 32
  accessMode := .recipient

variable {s t w}

theorem sharedLength_lt : sharedLength w < 256 ^ 4 := by
  have h := leNat_lt (((shared w).drop 32).take 4)
  exact lt_of_lt_of_le h (Nat.pow_le_pow_right (by omega) (List.length_take_le _ _))

/-- Scope characters and the ephemeral key make the length large enough. -/
theorem add_le_sharedLength (hne : w ≠ []) (hlen : w.length < 2 ^ 29)
    (hw : ∀ b ∈ w, 0x2d ≤ b.toNat) : w.length + 24 ≤ sharedLength w := by
  have hpos := List.length_pos_iff.mpr hne
  have hget : ∀ i, i < 4 → i < w.length → 0x2d * 256 ^ i ≤ sharedLength w := by
    intro i hi hiw
    have hhead : (w ++ List.replicate 32 (0xff : UInt8)).length = w.length + 32 := by simp
    have hlt : 32 + i < (w ++ List.replicate 32 (0xff : UInt8)).length := by omega
    have hget : (((shared w).drop 32).take 4)[i]? =
        some ((w ++ List.replicate 32 (0xff : UInt8))[32 + i]) := by
      rw [List.getElem?_take_of_lt hi, List.getElem?_drop, shared,
        List.getElem?_append_left hlt, List.getElem?_eq_getElem hlt]
    have hb : 0x2d ≤ ((w ++ List.replicate 32 (0xff : UInt8))[32 + i]).toNat := by
      rcases List.mem_append.mp (List.getElem_mem hlt) with hm | hm
      · exact hw _ hm
      · rw [List.eq_of_mem_replicate hm]
        decide
    exact (Nat.mul_le_mul_right _ hb).trans (getElem?_mul_le_leNat _ i _ hget)
  by_cases hk : 3 < w.length
  · have h3 := hget 3 (by decide) hk
    omega
  · have h0 := hget 0 (by decide) hpos
    omega

theorem shared_length : (shared w).length = w.length + 36 := by simp [shared]

theorem shared_split : shared w = (shared w).take 32 ++ (leBytes 4 (sharedLength w) ++
    (shared w).drop 36) := by
  have hlen : (((shared w).drop 32).take 4).length = 4 := by
    rw [List.length_take, List.length_drop, shared_length]
    omega
  have hle : leBytes 4 (sharedLength w) = ((shared w).drop 32).take 4 := by
    rw [sharedLength]
    have hb := leBytes_leNat (((shared w).drop 32).take 4)
    rwa [hlen] at hb
  have hdrop : (shared w).drop 36 = ((shared w).drop 32).drop 4 := by rw [List.drop_drop]
  rw [hle, hdrop, List.take_append_drop, List.take_append_drop]

theorem swallowed_length (hM : w.length + 24 ≤ sharedLength w) :
    (swallowed w).length = sharedLength w := by
  have hz : (asBytes (zeros 12 : Vector UInt8 12)).length = 12 := rfl
  simp only [swallowed, List.length_append, List.length_drop, shared_length, zeroFields,
    leBytes_length, List.length_replicate, padding, hz]
  omega

theorem collisionLong_ciphertext_length (hM : w.length + 24 ≤ sharedLength w) :
    (padding w ++ zeroFields 0).length = sharedLength w - w.length := by
  have hz : (asBytes (zeros 12 : Vector UInt8 12)).length = 12 := rfl
  simp only [List.length_append, zeroFields, leBytes_length, List.length_replicate, padding, hz]
  omega

theorem collisionShort_suffix (hM : w.length + 24 ≤ sharedLength w) :
    (collisionShort s w).signableSuffix =
      (shared w).take 32 ++ (leBytes 4 (sharedLength w) ++ (shared w).drop 36) ++
        (zeroFields (sharedLength w - w.length) ++ padding w ++ zeroFields 0 ++ zeroEnd) := by
  have heph : asBytes (collisionShort s w).ephemeralX25519Public = (shared w).take 32 := rfl
  have hmlkem : mlkemBytes (collisionShort s w).ephemeralMlkemCiphertext =
      leBytes 4 (swallowed w).length ++ swallowed w := rfl
  have hrest : zeroFields 0 ++ zeroEnd = (leBytes 4 (collisionShort s w).accessEntries.length ++
      (collisionShort s w).accessEntries.flatMap (AccessEntry.toBytes 4)) ++
      (asBytes (collisionShort s w).nonce ++ ((leBytes 8 (collisionShort s w).ciphertext.length ++
        (collisionShort s w).ciphertext) ++ (asBytes (collisionShort s w).tag ++
          asBytes (collisionShort s w).spendPublicKey))) := rfl
  rw [signableSuffix, heph, hmlkem, ← hrest, swallowed_length hM, swallowed]
  simp only [List.append_assoc]

theorem collisionLong_suffix (hM : w.length + 24 ≤ sharedLength w) :
    w ++ (collisionLong t w).signableSuffix = shared w ++
      (zeroFields (sharedLength w - w.length) ++ padding w ++ zeroFields 0 ++ zeroEnd) := by
  have hfront : (collisionLong t w).signableSuffix = List.replicate 32 0xff ++ (leBytes 4 0 ++
      (leBytes 4 0 ++ (asBytes (zeros 12 : Vector UInt8 12) ++
        ((leBytes 8 (padding w ++ zeroFields 0).length ++ (padding w ++ zeroFields 0)) ++
          zeroEnd)))) := rfl
  rw [hfront, collisionLong_ciphertext_length hM, shared]
  simp only [zeroFields, List.append_assoc]

/-- The two readings are of one byte string. -/
theorem collision_signableBytes (hM : w.length + 24 ≤ sharedLength w)
    (hpath : toUtf8 t.path = toUtf8 s.path ++ w) :
    (collisionShort s w).signableBytes = (collisionLong t w).signableBytes := by
  have hpreamble : (collisionShort s w).signablePrefix = (collisionLong t w).signablePrefix := rfl
  have hs : (collisionShort s w).scope = s := rfl
  have ht : (collisionLong t w).scope = t := rfl
  rw [signableBytes_eq, signableBytes_eq, hpreamble, hs, ht, hpath, List.append_assoc,
    collisionLong_suffix hM, collisionShort_suffix hM, ← shared_split]

theorem collisionShort_limits (hM : w.length + 24 ≤ sharedLength w) :
    (collisionShort s w).SignLimits where
  mlkem ct hct := by
    obtain rfl := Option.some.inj hct
    rw [swallowed_length hM]
    exact ⟨by omega, sharedLength_lt⟩
  entries := by simp [collisionShort]
  wrapped := by simp [collisionShort]
  ciphertext := by simp [collisionShort]

theorem collisionLong_limits (hM : w.length + 24 ≤ sharedLength w) :
    (collisionLong t w).SignLimits where
  mlkem := by simp [collisionLong, MlkemFits]
  entries := by simp [collisionLong]
  wrapped := by simp [collisionLong]
  ciphertext := by
    have hlt : sharedLength w < 256 ^ 4 := sharedLength_lt
    simp only [collisionLong, collisionLong_ciphertext_length hM]
    omega

end Collision

/-- Extending a valid scope string to another valid one by less than half a gibibyte makes the
signed bytes ambiguous. -/
theorem not_determines_of_properPrefix {s t : Scope} (ht : t.Valid) (hp : s.path <+: t.path)
    (hne : s ≠ t) (hlen : t.path.length < s.path.length + 2 ^ 29) : ¬ Determines s t := by
  obtain ⟨r, hr⟩ := hp
  have hrange : ∀ c ∈ r, 0x2d ≤ c.toNat ∧ c.toNat < 128 := fun c hc =>
    ht.char_range c (hr ▸ List.mem_append_right _ hc)
  have hascii := toUtf8_ascii r fun c hc => (hrange c hc).2
  have hrne : r ≠ [] := by
    intro h
    rw [h, List.append_nil] at hr
    exact hne (Scope.ext hr)
  have hw : ∀ b ∈ toUtf8 r, 0x2d ≤ b.toNat := by
    intro b hb
    rw [hascii] at hb
    obtain ⟨c, hc, rfl⟩ := List.mem_map.mp hb
    have hcr := hrange c hc
    rw [UInt8.toNat_ofNat', Nat.mod_eq_of_lt (by omega)]
    exact hcr.1
  have hrl : (toUtf8 r).length = r.length := by rw [hascii, List.length_map]
  have hM : (toUtf8 r).length + 24 ≤ sharedLength (toUtf8 r) := by
    refine add_le_sharedLength (fun h => hrne (toUtf8_injective h)) ?_ hw
    rw [← hr, List.length_append] at hlen
    omega
  intro hdet
  have hsame := hdet (collisionShort s (toUtf8 r)) (collisionLong t (toUtf8 r)) rfl rfl
    (collisionShort_limits hM) (collisionLong_limits hM)
    (collision_signableBytes hM (by rw [← hr, toUtf8_append]))
  exact hne (congrArg EncryptedEnvelope.scope hsame)

theorem Determines.symm {s t : Scope} (h : Determines s t) : Determines t s := by
  intro a b ha hb hla hlb hab
  rw [h b a hb ha hlb hla hab.symm]

/-- The signed bytes determine the envelope when neither scope string properly extends the other,
and only then, as far as scope strings whose lengths differ by less than half a gibibyte go. -/
theorem signableBytes_determine_iff {s t : Scope} (hs : s.Valid) (ht : t.Valid) :
    (NoProperPrefix s t → Determines s t) ∧
    (s.path.length < t.path.length + 2 ^ 29 → t.path.length < s.path.length + 2 ^ 29 →
      Determines s t → NoProperPrefix s t) := by
  refine ⟨determines_of_noProperPrefix hs ht, fun hst hts hdet hpre => ?_⟩
  by_contra hne
  rcases hpre with hp | hp
  · exact not_determines_of_properPrefix ht hp hne hts hdet
  · exact not_determines_of_properPrefix hs hp (Ne.symm hne) hst hdet.symm

theorem signableBytes_determine_iff_siblings :
    Determines ⟨['/', 'a']⟩ ⟨['/', 'b']⟩ ∧ ¬ Determines ⟨['/', 'a']⟩ ⟨['/', 'a', 'b']⟩ := by
  have hb := signableBytes_determine_iff (s := ⟨['/', 'a']⟩) (t := ⟨['/', 'b']⟩) (by decide)
    (by decide)
  have hab := signableBytes_determine_iff (s := ⟨['/', 'a']⟩) (t := ⟨['/', 'a', 'b']⟩) (by decide)
    (by decide)
  refine ⟨hb.1 (by decide), fun h => ?_⟩
  exact absurd (hab.2 (by decide) (by decide) h) (by decide)

/-- One byte moves from the scope `/ab` into the ephemeral key at the scope `/a`. -/
theorem signableBytes_collide :
    ∃ a b : EncryptedEnvelope (Vector UInt8), a.scope = ⟨['/', 'a']⟩ ∧ b.scope = ⟨['/', 'a', 'b']⟩ ∧
      a.scope.Valid ∧ b.scope.Valid ∧ a.SignLimits ∧ b.SignLimits ∧
      a.signableBytes = b.signableBytes ∧ a ≠ { b with signature := a.signature } :=
  ⟨collisionShort ⟨['/', 'a']⟩ [0x62], collisionLong ⟨['/', 'a', 'b']⟩ [0x62], rfl, rfl, by decide,
    by decide, collisionShort_limits (by decide), collisionLong_limits (by decide),
    collision_signableBytes (by decide) (by decide), fun h => absurd (congrArg scope h) (by decide)⟩

end EncryptedEnvelope

end ReadOnlyKeys
