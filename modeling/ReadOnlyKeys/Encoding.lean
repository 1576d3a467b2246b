import ReadOnlyKeys.Proto
import ReadOnlyKeys.ScopeValues

/-!
# Keys as text

A key is written as a type tag, a payload and a checksum, in Base58. A public
read key carries its scope as the rest of the payload, and a delegated read key
the identifier of its parent in front of the scope, if it has one.
-/
namespace ReadOnlyKeys
open Outcome Wire

/-- The decoder of the text form and the hash of the checksum, from other crates. -/
structure KeyText where
  base58Decode : String → Except String Bytes
  sha256 : Bytes → Vector UInt8 32

/-- Decoding inverts the encoder. -/
def KeyText.Inverts (E : KeyText) (C : Crypto (Vector UInt8)) : Prop :=
  ∀ bs, E.base58Decode (C.base58 bs) = .ok bs

/-- Encoding inverts decoding, so that there is one text for each byte string. -/
def KeyText.Canonical (E : KeyText) (C : Crypto (Vector UInt8)) : Prop :=
  ∀ s bs, E.base58Decode s = .ok bs → C.base58 bs = s

namespace Encoding

def tagSpendPublic : UInt8 := 0x01
def tagReadPublic : UInt8 := 0x02
def tagReadSecret : UInt8 := 0x03

section Text

variable (C : Crypto (Vector UInt8)) (E : KeyText)

/-- The first 4 bytes of SHA-256 of SHA-256. -/
def checksum (data : Bytes) : Bytes := (asBytes (E.sha256 (asBytes (E.sha256 data)))).take 4

/-- Encode raw bytes with a type tag and checksum. -/
def encodeWithTag (tag : UInt8) (payload : Bytes) : String :=
  C.base58 (tag :: payload ++ checksum E (tag :: payload))

/-- Verify tag and checksum, return the payload. -/
def decodeWithTag (encoded : String) (expectedTag : UInt8) : Result Bytes := do
  let data ← mapErr (E.base58Decode encoded) fun e => .encodingError s!"invalid base58: {e}"
  require (¬ data.length < 5) (.encodingError "encoded data too short")
  let tag ← unwrap data.head?
  require (tag = expectedTag) (.invalidTypeTag expectedTag tag)
  let content := data.take (data.length - 4)
  require (data.drop (data.length - 4) = checksum E content) .invalidChecksum
  return content.drop 1

/-- `copy_from_slice` of a range of `n` bytes into an array of that length. -/
def copyArray (n : ℕ) (bytes : Bytes) : Result (Vector UInt8 n) := unwrap (ofSlice n (bytes.take n))

def encodeSpendPublic (key : C.VerifyingKey) : String :=
  encodeWithTag C E tagSpendPublic (asBytes (C.verifyingAsBytes key))

def decodeSpendPublic (encoded : String) : Result C.VerifyingKey := do
  let bytes ← decodeWithTag E encoded tagSpendPublic
  require (bytes.length = 32) (.encodingError s!"expected 32 bytes, got {bytes.length}")
  let arr ← copyArray 32 bytes
  okOr (C.verifyingFromBytes arr) .invalidKeyMaterial

/-- A public read key with its scope. -/
def encodeReadPublic (key : Vector UInt8 32) (scope : Scope) : String :=
  encodeWithTag C E tagReadPublic (asBytes key ++ toUtf8 scope.path)

def decodeReadPublic (encoded : String) : Result (Vector UInt8 32 × Scope) := do
  let bytes ← decodeWithTag E encoded tagReadPublic
  require (¬ bytes.length < 33) (.encodingError "read public key too short")
  let key ← copyArray 32 bytes
  let scopeStr ← okOr (fromUtf8 (bytes.drop 32)) (.encodingError "invalid scope utf8")
  let scope ← Scope.new scopeStr
  return (key, scope)

/-- A flag byte, and the parent's identifier if there is one. -/
def parentBytes : Option (KeyId (Vector UInt8)) → Bytes
  | some parentId => 1 :: asBytes parentId.bytes
  | none => [0]

/-- An exported read key, with its secret. -/
def encodeExportedReadKey (exported : ExportedReadKey (Vector UInt8)) : String :=
  encodeWithTag C E tagReadSecret (asBytes exported.secretBytes ++ asBytes exported.publicBytes ++
    parentBytes exported.parentKeyId ++ toUtf8 exported.scope.path)

/-- The parent's identifier and where the scope starts. Every flag other than 1 means none. -/
def decodeParent (bytes : Bytes) (hasParent : UInt8) :
    Result (Option (KeyId (Vector UInt8)) × ℕ) :=
  if hasParent = 1 then do
    require (¬ bytes.length < 73) (.encodingError "missing parent key id")
    let parentBytes ← copyArray 8 (bytes.drop 65)
    return (some ⟨parentBytes⟩, 73)
  else return (none, 65)

def decodeExportedReadKey (encoded : String) : Result (ExportedReadKey (Vector UInt8)) := do
  let bytes ← decodeWithTag E encoded tagReadSecret
  require (¬ bytes.length < 65) (.encodingError "exported read key too short")
  let secretBytes ← copyArray 32 bytes
  let publicBytes ← copyArray 32 (bytes.drop 32)
  let hasParent ← unwrap bytes[64]?
  let (parentKeyId, scopeStart) ← decodeParent bytes hasParent
  let scopeStr ← okOr (fromUtf8 (bytes.drop scopeStart)) (.encodingError "invalid scope utf8")
  let scope ← Scope.new scopeStr
  return ⟨secretBytes, publicBytes, scope, parentKeyId⟩

variable {C E}

lemma copyArray_append {n : ℕ} (a : Vector UInt8 n) (bs : Bytes) :
    copyArray n (asBytes a ++ bs) = .ok a := by
  have hl : (asBytes a).length = n := by simp
  rw [copyArray, List.take_left' hl, ofSlice_asBytes]
  rfl

lemma copyArray_asBytes {n : ℕ} (a : Vector UInt8 n) : copyArray n (asBytes a) = .ok a := by
  have h := copyArray_append a []
  rwa [List.append_nil] at h

lemma checksum_length (data : Bytes) : (checksum E data).length = 4 := by
  simp [checksum]

/-- A decoder reads the payload under its own tag and refuses any other tag. -/
theorem decodeWithTag_encodeWithTag (hE : E.Inverts C) (tag expectedTag : UInt8)
    (payload : Bytes) : decodeWithTag E (encodeWithTag C E tag payload) expectedTag =
      if tag = expectedTag then .ok payload else fail (.invalidTypeTag expectedTag tag) := by
  have hlen : (tag :: payload ++ checksum E (tag :: payload)).length =
      (tag :: payload).length + 4 := by
    rw [List.length_append, checksum_length]
  have hlong : ¬ (tag :: payload ++ checksum E (tag :: payload)).length < 5 := by
    rw [hlen, List.length_cons]
    omega
  have hcut : (tag :: payload ++ checksum E (tag :: payload)).length - 4 =
      (tag :: payload).length := by
    rw [hlen]
    omega
  have hhead : (unwrap (tag :: payload ++ checksum E (tag :: payload)).head? : Result UInt8) =
      .ok tag := rfl
  rw [decodeWithTag, encodeWithTag, hE, mapErr_ok, ok_bind, require_of _ _ hlong, ok_bind, hhead,
    ok_bind]
  split_ifs with htag
  · rw [require_of _ _ htag, ok_bind, hcut, List.take_left, List.drop_left]
    simp only [require_of]
    rfl
  · rw [require_eq_fail htag, error_bind]

theorem decodeSpendPublic_encode (hE : E.Inverts C)
    (hV : ∀ vk, C.verifyingFromBytes (C.verifyingAsBytes vk) = some vk) (key : C.VerifyingKey) :
    decodeSpendPublic C E (encodeSpendPublic C E key) = .ok key := by
  rw [decodeSpendPublic, encodeSpendPublic, decodeWithTag_encodeWithTag hE, if_pos rfl, ok_bind,
    require_of _ _ (by simp), ok_bind, copyArray_asBytes, ok_bind, hV, okOr_some]

lemma new_of_valid {scope : Scope} (hv : scope.Valid) : Scope.new scope.path = .ok scope :=
  (Scope.new_eq_ok_iff _ _).mpr ⟨rfl, hv⟩

lemma toUtf8_path_length_pos {scope : Scope} (hv : scope.Valid) :
    0 < (toUtf8 scope.path).length := by
  obtain ⟨r, hr⟩ := hv.exists_cons
  rw [hr, toUtf8_cons, List.length_append, String.length_utf8EncodeChar]
  exact Nat.add_pos_left (Char.utf8Size_pos _) _

theorem decodeReadPublic_encode (hE : E.Inverts C) (key : Vector UInt8 32) {scope : Scope}
    (hv : scope.Valid) :
    decodeReadPublic E (encodeReadPublic C E key scope) = .ok (key, scope) := by
  have hpos := toUtf8_path_length_pos hv
  have hkey : (asBytes key).length = 32 := by simp
  have hlong : ¬ (asBytes key ++ toUtf8 scope.path).length < 33 := by
    rw [List.length_append, hkey]
    omega
  rw [decodeReadPublic, encodeReadPublic, decodeWithTag_encodeWithTag hE, if_pos rfl, ok_bind,
    require_of _ _ hlong, ok_bind, copyArray_append, ok_bind, List.drop_left' hkey,
    fromUtf8_toUtf8, okOr_some, ok_bind, new_of_valid hv, ok_bind]
  rfl

/-- The flag byte and the identifier behind it are read back, and the scope is what follows. -/
lemma decodeParent_parentBytes {front : Bytes} (hfront : front.length = 64)
    (parent : Option (KeyId (Vector UInt8))) (rest : Bytes) :
    ((unwrap (front ++ (parentBytes parent ++ rest))[64]? : Result UInt8) >>=
      decodeParent (front ++ (parentBytes parent ++ rest))) =
        .ok (parent, 64 + (parentBytes parent).length) := by
  cases parent with
  | none =>
    have hflag : (front ++ (parentBytes none ++ rest))[64]? = some 0 := by
      rw [List.getElem?_append_right (by omega), hfront]
      rfl
    rw [hflag]
    rfl
  | some parentId =>
    have hid : (asBytes parentId.bytes).length = 8 := by simp
    have hflag : (front ++ (parentBytes (some parentId) ++ rest))[64]? = some 1 := by
      rw [List.getElem?_append_right (by omega), hfront]
      rfl
    have hlong : ¬ (front ++ (parentBytes (some parentId) ++ rest)).length < 73 := by
      simp only [parentBytes, List.length_append, List.length_cons, hfront, hid]
      omega
    have hdrop : (front ++ (parentBytes (some parentId) ++ rest)).drop 65 =
        asBytes parentId.bytes ++ rest := by
      rw [show 65 = 64 + 1 by rfl, ← List.drop_drop, List.drop_left' hfront]
      rfl
    have hunwrap : (unwrap (some 1) : Result UInt8) = .ok 1 := rfl
    rw [hflag, hunwrap, ok_bind, decodeParent, if_pos rfl, require_of _ _ hlong, ok_bind, hdrop,
      copyArray_append, ok_bind, parentBytes, List.length_cons, hid]
    rfl

theorem decodeExportedReadKey_encode (hE : E.Inverts C) {k : ExportedReadKey (Vector UInt8)}
    (hv : k.scope.Valid) :
    decodeExportedReadKey E (encodeExportedReadKey C E k) = .ok k := by
  have hpos := toUtf8_path_length_pos hv
  have hs : (asBytes k.secretBytes).length = 32 := by simp
  have hfront : (asBytes k.secretBytes ++ asBytes k.publicBytes).length = 64 := by simp
  have hparent := decodeParent_parentBytes hfront k.parentKeyId (toUtf8 k.scope.path)
  have hlong : ¬ (asBytes k.secretBytes ++ asBytes k.publicBytes ++
      (parentBytes k.parentKeyId ++ toUtf8 k.scope.path)).length < 65 := by
    simp only [List.length_append] at hfront ⊢
    omega
  have hscope : (asBytes k.secretBytes ++ asBytes k.publicBytes ++
      (parentBytes k.parentKeyId ++ toUtf8 k.scope.path)).drop
        (64 + (parentBytes k.parentKeyId).length) = toUtf8 k.scope.path := by
    rw [← List.drop_drop, List.drop_left' hfront, List.drop_left]
  have hsecret : copyArray 32 (asBytes k.secretBytes ++ asBytes k.publicBytes ++
      (parentBytes k.parentKeyId ++ toUtf8 k.scope.path)) = .ok k.secretBytes := by
    rw [List.append_assoc, copyArray_append]
  have hpublic : copyArray 32 ((asBytes k.secretBytes ++ asBytes k.publicBytes ++
      (parentBytes k.parentKeyId ++ toUtf8 k.scope.path)).drop 32) = .ok k.publicBytes := by
    rw [List.append_assoc, List.drop_left' hs, copyArray_append]
  rw [decodeExportedReadKey, encodeExportedReadKey, decodeWithTag_encodeWithTag hE, if_pos rfl,
    ok_bind, List.append_assoc _ (parentBytes _), require_of _ _ hlong, ok_bind, hsecret, ok_bind,
    hpublic, ok_bind, ← bind_assoc, hparent, ok_bind]
  simp only [hscope, fromUtf8_toUtf8, okOr_some, ok_bind, new_of_valid hv]
  rfl

lemma copyArray_eq_ok {n : ℕ} {bytes : Bytes} {a : Vector UInt8 n} (h : copyArray n bytes = .ok a) :
    bytes.take n = asBytes a := by
  rw [copyArray, unwrap_eq_ok_iff] at h
  exact (asBytes_ofSlice h).symm

/-- What decodes under a tag is the tag, the payload and its checksum. -/
theorem decodeWithTag_eq_ok {x : String} {tag : UInt8} {payload : Bytes}
    (h : decodeWithTag E x tag = .ok payload) :
    E.base58Decode x = .ok (tag :: payload ++ checksum E (tag :: payload)) := by
  simp only [decodeWithTag, bind_eq_ok_iff, mapErr_eq_ok_iff, require_eq_ok_iff,
    unwrap_eq_ok_iff] at h
  obtain ⟨data, hdata, _, hlong, head, hhead, _, rfl, _, hsum, h⟩ := h
  obtain ⟨rest, rfl⟩ := List.head?_eq_some_iff.mp hhead
  have hcut : (head :: rest).length - 4 = (rest.length - 4) + 1 := by
    rw [List.length_cons] at hlong ⊢
    omega
  rw [hcut, List.take_succ_cons] at hsum
  have hpayload : payload = rest.take (rest.length - 4) := by
    rw [hcut, List.take_succ_cons] at h
    exact (Except.ok.inj h).symm
  rw [hdata, hpayload, ← hsum, List.drop_succ_cons, List.cons_append, List.take_append_drop]

/-- The flag byte in the text of an exported read key, behind the tag and both halves. -/
def flagByte (E : KeyText) (x : String) : Option UInt8 :=
  (E.base58Decode x).toOption.bind fun data => data[65]?

/-- A flag byte, and an identifier behind it if there is one. -/
def flaggedBytes (flag : UInt8) (parent : Option (KeyId (Vector UInt8))) : Bytes :=
  flag :: parent.elim [] fun parentId => asBytes parentId.bytes

lemma parentBytes_eq (parent : Option (KeyId (Vector UInt8))) :
    parentBytes parent = flaggedBytes (if parent.isSome then 1 else 0) parent := by
  cases parent <;> rfl

/-- The parent that was decoded stands between the flag and the scope. -/
lemma decodeParent_eq_ok {bytes : Bytes} {flag : UInt8} {parent : Option (KeyId (Vector UInt8))}
    {scopeStart : ℕ} (h : decodeParent bytes flag = .ok (parent, scopeStart)) :
    (flag = 1 ↔ parent.isSome = true) ∧
      bytes.drop 65 = (parent.elim [] fun p => asBytes p.bytes) ++ bytes.drop scopeStart := by
  unfold decodeParent at h
  split_ifs at h with hflag
  · simp only [bind_eq_ok_iff, require_eq_ok_iff] at h
    obtain ⟨_, _, id, hid, h⟩ := h
    obtain ⟨rfl, rfl⟩ := Prod.mk.inj (Except.ok.inj h)
    refine ⟨by simp [hflag], ?_⟩
    rw [Option.elim_some, ← copyArray_eq_ok hid, show 73 = 65 + 8 from rfl, ← List.drop_drop,
      List.take_append_drop]
  · obtain ⟨rfl, rfl⟩ := Prod.mk.inj (Except.ok.inj h)
    exact ⟨by simp [hflag], rfl⟩

/-- What decodes to an exported read key is laid out as the encoder does it, but for the flag. -/
theorem decodeExportedReadKey_eq_ok {x : String} {k : ExportedReadKey (Vector UInt8)}
    (h : decodeExportedReadKey E x = .ok k) :
    ∃ flag, (flag = 1 ↔ k.parentKeyId.isSome = true) ∧
      decodeWithTag E x tagReadSecret = .ok (asBytes k.secretBytes ++ asBytes k.publicBytes ++
        flaggedBytes flag k.parentKeyId ++ toUtf8 k.scope.path) := by
  simp only [decodeExportedReadKey, bind_eq_ok_iff, require_eq_ok_iff, unwrap_eq_ok_iff,
    okOr_eq_ok_iff] at h
  obtain ⟨bytes, hbytes, _, hlong, secret, hsecret, pub, hpub, flag, hflag, ⟨parent, scopeStart⟩,
    hparent, scopeStr, hstr, scope, hscope, h⟩ := h
  obtain rfl := Except.ok.inj h
  obtain ⟨hsome, hrest⟩ := decodeParent_eq_ok hparent
  refine ⟨flag, hsome, ?_⟩
  have hpath : toUtf8 scope.path = bytes.drop scopeStart := by
    rw [((Scope.new_eq_ok_iff _ _).mp hscope).1]
    exact toUtf8_of_fromUtf8 hstr
  have hfront : bytes.take 64 = asBytes secret ++ asBytes pub := by
    rw [← copyArray_eq_ok hsecret, ← copyArray_eq_ok hpub, show 64 = 32 + 32 from rfl, List.take_add]
  have hat : bytes.drop 64 = flag :: bytes.drop 65 := by
    rw [List.drop_eq_getElem?_toList_append, hflag]
    rfl
  rw [hbytes, ← List.take_append_drop 64 bytes, hfront, hat, hrest, hpath]
  simp only [flaggedBytes, List.append_assoc, List.cons_append]

/-- The flag byte of such a text is the flag of the layout. -/
lemma flagByte_of_layout {x : String} {k : ExportedReadKey (Vector UInt8)} {flag : UInt8}
    (h : decodeWithTag E x tagReadSecret = .ok (asBytes k.secretBytes ++ asBytes k.publicBytes ++
      flaggedBytes flag k.parentKeyId ++ toUtf8 k.scope.path)) : flagByte E x = some flag := by
  have hfront : (asBytes k.secretBytes ++ asBytes k.publicBytes).length = 64 := by simp
  rw [flagByte, decodeWithTag_eq_ok h]
  simp only [Except.toOption, Option.bind_some, flaggedBytes, List.cons_append,
    List.append_assoc, List.getElem?_cons_succ]
  rw [← List.append_assoc, List.getElem?_append_right (by omega), hfront]
  rfl

/-- The bytes of the scope in the text of an exported read key: what stands behind the tag, both
halves, the flag byte and the identifier that it announces, up to the checksum. -/
def scopeBytes (E : KeyText) (x : String) : Option Bytes :=
  (E.base58Decode x).toOption.map fun data =>
    (data.take (data.length - 4)).drop (if data[65]? = some 1 then 74 else 66)

/-- The scope of a key that decodes is the one in its text. -/
theorem scopeBytes_of_decode {x : String} {k : ExportedReadKey (Vector UInt8)}
    (h : decodeExportedReadKey E x = .ok k) : scopeBytes E x = some (toUtf8 k.scope.path) := by
  obtain ⟨flag, hflag, hpayload⟩ := decodeExportedReadKey_eq_ok h
  have hdata := decodeWithTag_eq_ok hpayload
  have hat := flagByte_of_layout hpayload
  rw [flagByte, hdata] at hat
  simp only [Except.toOption, Option.bind_some] at hat
  rw [scopeBytes, hdata]
  simp only [Except.toOption, Option.map_some, hat, Option.some.injEq]
  have hcut : ∀ head : Bytes, (head ++ checksum E head).take
      ((head ++ checksum E head).length - 4) = head := by
    intro head
    rw [List.length_append, checksum_length, Nat.add_sub_cancel, List.take_left]
  rw [hcut]
  cases hp : k.parentKeyId with
  | none =>
    have hne : flag ≠ 1 := fun h1 => by simpa [hp] using hflag.mp h1
    rw [if_neg hne, List.drop_succ_cons, List.drop_left']
    simp [flaggedBytes]
  | some id =>
    have heq : flag = 1 := hflag.mpr (by rw [hp]; rfl)
    rw [if_pos heq, List.drop_succ_cons, List.drop_left']
    simp [flaggedBytes]

/-- The encoder writes such a text exactly when it writes this flag. -/
lemma encodeExportedReadKey_eq_iff (hE : E.Inverts C) (hcan : E.Canonical C) {x : String}
    {k : ExportedReadKey (Vector UInt8)} {flag : UInt8}
    (h : decodeWithTag E x tagReadSecret = .ok (asBytes k.secretBytes ++ asBytes k.publicBytes ++
      flaggedBytes flag k.parentKeyId ++ toUtf8 k.scope.path)) :
    encodeExportedReadKey C E k = x ↔ (if k.parentKeyId.isSome then 1 else 0) = flag := by
  rw [← hcan _ _ (decodeWithTag_eq_ok h), encodeExportedReadKey, parentBytes_eq]
  constructor
  · intro hx
    have hbytes := congrArg E.base58Decode hx
    rw [encodeWithTag, hE, hE] at hbytes
    have hpay := List.append_inj_left' (Except.ok.inj hbytes) (by simp [checksum_length])
    simp only [List.cons.injEq, true_and, List.append_assoc] at hpay
    have hmid := List.append_cancel_left (List.append_cancel_left hpay)
    exact (List.cons.inj hmid).1
  · intro hf
    rw [hf, encodeWithTag]

theorem scope_valid_of_decodeExportedReadKey {x : String} {k : ExportedReadKey (Vector UInt8)}
    (h : decodeExportedReadKey E x = .ok k) : k.scope.Valid := by
  simp only [decodeExportedReadKey, bind_eq_ok_iff] at h
  obtain ⟨_, _, _, _, _, _, _, _, _, _, _, _, _, _, scope, hscope, h⟩ := h
  obtain rfl := Except.ok.inj h
  exact ((Scope.new_eq_ok_iff _ _).mp hscope).2

lemma copyArray_ne_panic {n : ℕ} {bytes : Bytes} (h : n ≤ bytes.length) :
    copyArray n bytes ≠ .error .panic := by
  rw [copyArray, Ne, unwrap_eq_panic_iff, ofSlice_vector_eq_none_iff, List.length_take]
  omega

/-- No text makes a decoder panic. -/
theorem decodeWithTag_ne_panic (x : String) (expectedTag : UInt8) :
    decodeWithTag E x expectedTag ≠ .error .panic := by
  intro h
  simp only [decodeWithTag, bind_eq_panic_iff, mapErr_ne_panic, mapErr_eq_ok_iff, require_eq_ok_iff,
    require_ne_panic, unwrap_eq_panic_iff, unwrap_eq_ok_iff, false_or] at h
  obtain ⟨data, _, _, hlong, h⟩ := h
  rcases h with hnil | ⟨_, _, _, _, _, _, h⟩
  · rw [List.head?_eq_none_iff.mp hnil] at hlong
    exact hlong (by decide)
  · cases h

theorem decodeSpendPublic_ne_panic (x : String) :
    decodeSpendPublic C E x ≠ .error .panic := by
  intro h
  simp only [decodeSpendPublic, bind_eq_panic_iff, decodeWithTag_ne_panic, require_eq_ok_iff,
    require_ne_panic, okOr_ne_panic, false_or, and_false, exists_false, or_false] at h
  obtain ⟨bytes, _, _, hlength, h⟩ := h
  exact copyArray_ne_panic hlength.ge h

lemma decodeParent_ne_panic (bytes : Bytes) (flag : UInt8) :
    decodeParent bytes flag ≠ .error .panic := by
  intro h
  unfold decodeParent at h
  split_ifs at h
  · simp only [bind_eq_panic_iff, require_eq_ok_iff, require_ne_panic, false_or] at h
    obtain ⟨_, hlong, h⟩ := h
    rcases h with h | ⟨_, _, h⟩
    · exact copyArray_ne_panic (by rw [List.length_drop]; omega) h
    · cases h
  · cases h

theorem decodeExportedReadKey_ne_panic (x : String) :
    decodeExportedReadKey E x ≠ .error .panic := by
  intro h
  simp only [decodeExportedReadKey, bind_eq_panic_iff, decodeWithTag_ne_panic, require_eq_ok_iff,
    require_ne_panic, decodeParent_ne_panic, okOr_ne_panic, Scope.new_ne_panic,
    unwrap_eq_panic_iff, false_or] at h
  obtain ⟨bytes, _, _, hlong, h⟩ := h
  rcases h with h | ⟨_, _, h | ⟨_, _, hflag | ⟨_, _, _, _, _, _, _, _, h⟩⟩⟩
  · exact copyArray_ne_panic (by omega) h
  · exact copyArray_ne_panic (by rw [List.length_drop]; omega) h
  · exact hlong (by rw [List.getElem?_eq_none_iff] at hflag; omega)
  · cases h
end Text

end Encoding

/-- An import takes an export back as it was. -/
theorem ReadKeyPair.importKey_exportKey {A : ℕ → Type} [ByteArrays A] {C : Crypto A}
    (hR : C.StaticRoundtrip) (hS : C.StaticOfBytes) (k : ReadKeyPair C) :
    importKey C k.exportKey = .ok k := by
  obtain ⟨secret, publicKey, scope, parent, rfl⟩ := k
  have hsecret := hR.staticFrom_staticToBytes hS secret
  simp only [importKey, exportKey, secretBytes, hsecret, require_of, ok_bind]
  rfl

theorem ReadKeyPair.importKey_ne_panic {A : ℕ → Type} [ByteArrays A] (C : Crypto A)
    (exported : ExportedReadKey A) : importKey C exported ≠ .error .panic := by
  intro h
  simp only [importKey, bind_eq_panic_iff, require_ne_panic, false_or] at h
  obtain ⟨_, _, h⟩ := h
  cases h

section Delegation
open Encoding

/-- A delegated key survives both of its encodings, public keys survive theirs, and no decoder
takes the text of another kind of key. -/
theorem delegation_lossless (C : Crypto (Vector UInt8)) (E : KeyText) (hE : E.Inverts C)
    (hR : C.StaticRoundtrip) (hS : C.StaticOfBytes)
    (hV : ∀ vk, C.verifyingFromBytes (C.verifyingAsBytes vk) = some vk) :
    (∀ k : ReadKeyPair C, k.scope.Valid →
      (decodeExportedReadKey E (encodeExportedReadKey C E k.exportKey) >>=
        ReadKeyPair.importKey C) = .ok k ∧
      (ExportedReadKey.tryFromProto k.exportKey.toProto >>= ReadKeyPair.importKey C) = .ok k) ∧
    (∀ key scope, scope.Valid →
      decodeReadPublic E (encodeReadPublic C E key scope) = .ok (key, scope)) ∧
    (∀ vk, decodeSpendPublic C E (encodeSpendPublic C E vk) = .ok vk) ∧
    (∀ vk,
      decodeReadPublic E (encodeSpendPublic C E vk) =
        fail (.invalidTypeTag tagReadPublic tagSpendPublic) ∧
      decodeExportedReadKey E (encodeSpendPublic C E vk) =
        fail (.invalidTypeTag tagReadSecret tagSpendPublic)) ∧
    (∀ key scope,
      decodeSpendPublic C E (encodeReadPublic C E key scope) =
        fail (.invalidTypeTag tagSpendPublic tagReadPublic) ∧
      decodeExportedReadKey E (encodeReadPublic C E key scope) =
        fail (.invalidTypeTag tagReadSecret tagReadPublic)) ∧
    ∀ exported,
      decodeSpendPublic C E (encodeExportedReadKey C E exported) =
        fail (.invalidTypeTag tagSpendPublic tagReadSecret) ∧
      decodeReadPublic E (encodeExportedReadKey C E exported) =
        fail (.invalidTypeTag tagReadPublic tagReadSecret) := by
  have hother : ∀ tag expectedTag payload, tag ≠ expectedTag →
      decodeWithTag E (encodeWithTag C E tag payload) expectedTag =
        fail (.invalidTypeTag expectedTag tag) := by
    intro tag expectedTag payload htag
    rw [decodeWithTag_encodeWithTag hE, if_neg htag]
  refine ⟨fun k hv => ⟨?_, ?_⟩, fun key scope hv => decodeReadPublic_encode hE key hv,
    decodeSpendPublic_encode hE hV, fun vk => ⟨?_, ?_⟩, fun key scope => ⟨?_, ?_⟩,
    fun exported => ⟨?_, ?_⟩⟩
  · have hscope : k.exportKey.scope.Valid := hv
    rw [decodeExportedReadKey_encode hE hscope, ok_bind, k.importKey_exportKey hR hS]
  · have hscope : k.exportKey.scope.Valid := hv
    rw [ExportedReadKey.tryFromProto_toProto hscope, ok_bind, k.importKey_exportKey hR hS]
  · rw [decodeReadPublic, encodeSpendPublic, hother _ _ _ (by decide), error_bind]
  · rw [decodeExportedReadKey, encodeSpendPublic, hother _ _ _ (by decide), error_bind]
  · rw [decodeSpendPublic, encodeReadPublic, hother _ _ _ (by decide), error_bind]
  · rw [decodeExportedReadKey, encodeReadPublic, hother _ _ _ (by decide), error_bind]
  · rw [decodeSpendPublic, encodeExportedReadKey, hother _ _ _ (by decide), error_bind]
  · rw [decodeReadPublic, encodeExportedReadKey, hother _ _ _ (by decide), error_bind]

/-- A text that decodes to an exported read key is the one that the encoder writes exactly when
its flag byte is one that the encoder writes. Such texts differ where their keys do. -/
theorem exported_canonical_iff (C : Crypto (Vector UInt8)) (E : KeyText) (hE : E.Inverts C)
    (hcan : E.Canonical C) {x : String} {k : ExportedReadKey (Vector UInt8)}
    (h : decodeExportedReadKey E x = .ok k) :
    (encodeExportedReadKey C E k = x ↔ flagByte E x = some 0 ∨ flagByte E x = some 1) ∧
    ((flagByte E x = some 0 ∨ flagByte E x = some 1) → ∀ x', decodeExportedReadKey E x' = .ok k →
      (flagByte E x' = some 0 ∨ flagByte E x' = some 1) → x' = x) := by
  have hiff : ∀ y, decodeExportedReadKey E y = .ok k →
      (encodeExportedReadKey C E k = y ↔ flagByte E y = some 0 ∨ flagByte E y = some 1) := by
    intro y hy
    obtain ⟨flag, hflag, hpayload⟩ := decodeExportedReadKey_eq_ok hy
    rw [encodeExportedReadKey_eq_iff hE hcan hpayload, flagByte_of_layout hpayload,
      Option.some.injEq, Option.some.injEq]
    cases hp : k.parentKeyId.isSome with
    | true =>
      have h1 : flag = 1 := hflag.mpr hp
      simp [h1]
    | false =>
      have h1 : flag ≠ 1 := fun h1 => by simp [hflag.mp h1] at hp
      simp [h1, eq_comm]
  refine ⟨hiff x h, fun hx x' h' hx' => ?_⟩
  rw [← (hiff x' h').mpr hx', ← (hiff x h).mpr hx]

end Delegation

/-- Base58, and a hash that copies. -/
def base58Text : KeyText where
  base58Decode s := (Base58.decode s.toList).elim (.error "invalid character") .ok
  sha256 bs := packArray 32 bs

lemma base58Text_inverts : base58Text.Inverts base58Arrays := by
  intro bs
  have hdecode : Base58.decode (base58Arrays.base58 bs).toList = some bs := by
    rw [base58Arrays, String.toList_ofList, Base58.decode_encode]
  simp only [base58Text, hdecode]
  rfl

/-- A key at `/a` with a parent. -/
def delegatedKey : ReadKeyPair base58Arrays :=
  .fromSecretBytes _ (zeros 32) ⟨['/', 'a']⟩ (some ⟨zeros 8⟩)

theorem delegation_lossless_with_parent :
    (Encoding.decodeExportedReadKey base58Text
      (Encoding.encodeExportedReadKey base58Arrays base58Text delegatedKey.exportKey) >>=
        ReadKeyPair.importKey base58Arrays) = .ok delegatedKey ∧
    (ExportedReadKey.tryFromProto delegatedKey.exportKey.toProto >>=
      ReadKeyPair.importKey base58Arrays) = .ok delegatedKey :=
  (delegation_lossless base58Arrays base58Text base58Text_inverts (fun _ => rfl)
    (fun s => ⟨s, rfl⟩) (fun _ => rfl)).1 delegatedKey
      (show Scope.Valid ⟨['/', 'a']⟩ by decide)

/-- A key whose scope was deserialised from a string that is no path. -/
def unscopedKey : ReadKeyPair base58Arrays :=
  .fromSecretBytes _ (zeros 32) (Scope.deserialize ['x']) none

/-- Such a key is imported and exported, but its export is refused in either form, and so is the
public key at its scope. -/
theorem deserialized_scope_not_delegated :
    Scope.Made (fun _ => True) unscopedKey.scope ∧
    ReadKeyPair.importKey base58Arrays unscopedKey.exportKey = .ok unscopedKey ∧
    (Encoding.decodeExportedReadKey base58Text
      (Encoding.encodeExportedReadKey base58Arrays base58Text unscopedKey.exportKey) >>=
        ReadKeyPair.importKey base58Arrays) =
          fail (.invalidScope "scope must start with '/'") ∧
    (ExportedReadKey.tryFromProto unscopedKey.exportKey.toProto >>=
      ReadKeyPair.importKey base58Arrays) = fail (.invalidScope "scope must start with '/'") ∧
    Encoding.decodeReadPublic base58Text
      (Encoding.encodeReadPublic base58Arrays base58Text (zeros 32) unscopedKey.scope) =
        fail (.invalidScope "scope must start with '/'") := by
  refine ⟨.deserialize trivial, rfl, ?_, rfl, ?_⟩
  · rw [Encoding.decodeExportedReadKey, Encoding.encodeExportedReadKey,
      Encoding.decodeWithTag_encodeWithTag base58Text_inverts, if_pos rfl]
    rfl
  · rw [Encoding.decodeReadPublic, Encoding.encodeReadPublic,
      Encoding.decodeWithTag_encodeWithTag base58Text_inverts, if_pos rfl]
    rfl

lemma base58Text_canonical : base58Text.Canonical base58Arrays := by
  intro s bs h
  have hdecode : Base58.decode s.toList = some bs := by
    cases hd : Base58.decode s.toList with
    | none =>
      simp only [base58Text, hd] at h
      cases h
    | some cs =>
      simp only [base58Text, hd] at h
      rw [Except.ok.inj h]
  show String.ofList (Base58.encode bs) = s
  rw [Base58.encode_decode hdecode, String.ofList_toList]

theorem exported_canonical_iff_with_parent :
    ∃ x, Encoding.decodeExportedReadKey base58Text x = .ok delegatedKey.exportKey ∧
      (Encoding.flagByte base58Text x = some 0 ∨ Encoding.flagByte base58Text x = some 1) :=
  have hdecode := Encoding.decodeExportedReadKey_encode (k := delegatedKey.exportKey)
    base58Text_inverts (show Scope.Valid ⟨['/', 'a']⟩ by decide)
  ⟨_, hdecode, (exported_canonical_iff base58Arrays base58Text base58Text_inverts
    base58Text_canonical hdecode).1.mp rfl⟩

/-- A key at the root with zero halves and the flag byte 2. -/
def flaggedTwo : Bytes := List.replicate 64 0 ++ [2, 0x2f]

/-- With the flag byte 2, the text is accepted as one of the key without a parent, whose own text
is another one. -/
theorem flag_two_accepted :
    ∃ x k, Encoding.decodeExportedReadKey base58Text x = .ok k ∧
      Encoding.encodeExportedReadKey base58Arrays base58Text k ≠ x ∧
      Encoding.decodeExportedReadKey base58Text
        (Encoding.encodeExportedReadKey base58Arrays base58Text k) = .ok k := by
  have htag := Encoding.decodeWithTag_encodeWithTag base58Text_inverts Encoding.tagReadSecret
    Encoding.tagReadSecret flaggedTwo
  rw [if_pos rfl] at htag
  have hdecode : Encoding.decodeExportedReadKey base58Text
      (Encoding.encodeWithTag base58Arrays base58Text Encoding.tagReadSecret flaggedTwo) =
        .ok ⟨zeros 32, zeros 32, Scope.root, none⟩ := by
    rw [Encoding.decodeExportedReadKey, htag]
    rfl
  refine ⟨_, _, hdecode, fun hx => ?_,
    Encoding.decodeExportedReadKey_encode base58Text_inverts Scope.root_valid⟩
  have hbytes := congrArg base58Text.base58Decode hx
  rw [Encoding.encodeExportedReadKey, Encoding.encodeWithTag, Encoding.encodeWithTag,
    base58Text_inverts, base58Text_inverts] at hbytes
  exact absurd (Except.ok.inj hbytes) (by decide +kernel)

end ReadOnlyKeys
