import ReadOnlyKeys.Encoding
import ReadOnlyKeys.Policy
import ReadOnlyKeys.Prost

/-!
# Policies on the wire

A stored policy has the bytes of the key identifiers where a policy in memory has
their text, and it writes an expiry of 0 for none. So a rule that expired at time
0 comes back as one that never does, and a stored policy can have rules that no
sequence of grants makes, such as two for one scope.
-/
namespace ReadOnlyKeys
open Outcome Wire

/-- No text is empty but that of no bytes. -/
def Crypto.SpellsOut (C : Crypto (Vector UInt8)) : Prop := ∀ bs, C.base58 bs = "" → bs = []

lemma KeyText.Inverts.injective {E : KeyText} {C : Crypto (Vector UInt8)} (h : E.Inverts C) :
    Function.Injective C.base58 := by
  intro bs cs hbs
  have hd := h bs
  rw [hbs, h cs] at hd
  exact (Except.ok.inj hd).symm

namespace KeyId

/-- Decode from a Base58 string. -/
def fromBase58 (E : KeyText) (s : String) : Result (KeyId (Vector UInt8)) := do
  let bytes ← mapErr (E.base58Decode s) fun e => .encodingError s!"invalid base58: {e}"
  require (bytes.length = 8) (.encodingError s!"expected 8 bytes for KeyId, got {bytes.length}")
  let id ← unwrap (ofSlice 8 bytes)
  return ⟨id⟩

theorem fromBase58_toBase58 {E : KeyText} {C : Crypto (Vector UInt8)} (hE : E.Inverts C)
    (k : KeyId (Vector UInt8)) : fromBase58 E (k.toBase58 C) = .ok k := by
  rw [fromBase58, toBase58, hE, mapErr_ok, ok_bind, require_of _ _ (by simp), ok_bind,
    ofSlice_asBytes]
  rfl

end KeyId

namespace AccessRule

/-- An identifier that does not decode is stored as no bytes. -/
def toProto (E : KeyText) (self : AccessRule) : ProtoAccessRule where
  scope := self.scope
  recipientKeyIds := self.recipientKeyIds.map fun kidB58 =>
    ((KeyId.fromBase58 E kidB58).map fun kid => asBytes kid.bytes).toOption.getD []
  expiresAt := UInt64.ofNat (self.expiresAt.getD 0)

/-- Identifiers that are not 8 bytes long are dropped. -/
def fromProto (C : Crypto (Vector UInt8)) (rule : ProtoAccessRule) : AccessRule where
  scope := rule.scope
  recipientKeyIds := (rule.recipientKeyIds.map fun bytes =>
    match (ofSlice 8 bytes : Option (Vector UInt8 8)) with
    | some arr => KeyId.toBase58 C ⟨arr⟩
    | none => "").filter (· ≠ "")
  expiresAt := if rule.expiresAt = 0 then none else some rule.expiresAt.toNat

/-- What is left of a rule that is stored and loaded. -/
def reloaded (self : AccessRule) : AccessRule :=
  { self with expiresAt := self.expiresAt.filter (· ≠ 0) }

theorem reloaded_expired_eq_false_iff (self : AccessRule) (now : ℕ) :
    self.reloaded.expired now = false ↔ self.expired now = false ∨ self.expiresAt = some 0 := by
  rw [expired_eq_false_iff, expired_eq_false_iff, reloaded]
  cases self.expiresAt with
  | none => simp
  | some t => by_cases ht : t = 0 <;> simp [ht]

/-- A rule that has not expired had not expired before. -/
lemma expired_mono {self : AccessRule} {now later : ℕ} (hle : now ≤ later)
    (h : self.expired later = false) : self.expired now = false := by
  rw [expired_eq_false_iff] at h ⊢
  intro t ht
  exact hle.trans (h t ht)

/-- The expiry fits its field, and every key is listed by the text of its identifier. -/
structure Storable (C : Crypto (Vector UInt8)) (rule : AccessRule) : Prop where
  expiresAt : ∀ t ∈ rule.expiresAt, t < 2 ^ 64
  keyIds : ∀ s ∈ rule.recipientKeyIds, ∃ k : KeyId (Vector UInt8), s = k.toBase58 C

lemma expiry_roundtrip {e : Option ℕ} (h : ∀ t ∈ e, t < 2 ^ 64) :
    (if UInt64.ofNat (e.getD 0) = 0 then none else some (UInt64.ofNat (e.getD 0)).toNat) =
      e.filter (· ≠ 0) := by
  cases e with
  | none => rfl
  | some t =>
    have ht : (UInt64.ofNat t).toNat = t := UInt64.toNat_ofNat_of_lt' (h t rfl)
    have hz : UInt64.ofNat t = 0 ↔ t = 0 := by
      rw [← UInt64.toNat_inj, ht]
      rfl
    simp only [Option.getD_some, hz, ht]
    by_cases h0 : t = 0 <;> simp [h0, Option.filter]

theorem fromProto_toProto {E : KeyText} {C : Crypto (Vector UInt8)} (hE : E.Inverts C)
    (hS : C.SpellsOut) {self : AccessRule} (h : self.Storable C) :
    fromProto C (self.toProto E) = self.reloaded := by
  have hid : ∀ s ∈ self.recipientKeyIds, ((fun bytes =>
      match (ofSlice 8 bytes : Option (Vector UInt8 8)) with
      | some arr => KeyId.toBase58 C ⟨arr⟩
      | none => "") ∘ fun kidB58 =>
        ((KeyId.fromBase58 E kidB58).map fun kid => asBytes kid.bytes).toOption.getD []) s =
          id s := by
    intro s hs
    obtain ⟨k, rfl⟩ := h.keyIds s hs
    simp only [Function.comp_apply, KeyId.fromBase58_toBase58 hE, Except.map, Except.toOption,
      Option.getD_some, ofSlice_asBytes]
    rfl
  have hne : ∀ s ∈ self.recipientKeyIds, decide (s ≠ "") = true := by
    intro s hs
    obtain ⟨k, rfl⟩ := h.keyIds s hs
    rw [decide_eq_true_eq]
    intro hempty
    have hlen := congrArg List.length (hS _ hempty)
    simp at hlen
  rw [fromProto, toProto, reloaded, List.map_map, List.map_congr_left hid, List.map_id,
    List.filter_eq_self.mpr hne]
  exact congrArg (AccessRule.mk self.scope self.recipientKeyIds) (expiry_roundtrip h.expiresAt)

end AccessRule

namespace AccessPolicy

def toProto (E : KeyText) (self : AccessPolicy) : ProtoAccessPolicy :=
  ⟨self.rules.map (AccessRule.toProto E)⟩

def fromProto (C : Crypto (Vector UInt8)) (proto : ProtoAccessPolicy) : AccessPolicy :=
  ⟨proto.rules.map (AccessRule.fromProto C)⟩

/-- Serialize with the generated encoder `encode`. -/
def toProtoBytes (E : KeyText) (encode : ProtoAccessPolicy → Bytes) (self : AccessPolicy) : Bytes :=
  encode (self.toProto E)

/-- Deserialize with the generated decoder `decode`. -/
def fromProtoBytes (C : Crypto (Vector UInt8)) (decode : Bytes → Except String ProtoAccessPolicy)
    (bytes : Bytes) : Result AccessPolicy := do
  let proto ← mapErr (decode bytes) fun e => .serializationError s!"protobuf decode: {e}"
  return fromProto C proto

/-- What is left of a policy that is stored and loaded. -/
def reloaded (self : AccessPolicy) : AccessPolicy := ⟨self.rules.map AccessRule.reloaded⟩

section Reload

variable {C : Crypto (Vector UInt8)} {E : KeyText}

theorem fromProtoBytes_toProtoBytes (hE : E.Inverts C) (hS : C.SpellsOut)
    {encode : ProtoAccessPolicy → Bytes} {decode : Bytes → Except String ProtoAccessPolicy}
    (hdecode : ∀ p, decode (encode p) = .ok p) {self : AccessPolicy}
    (h : ∀ rule ∈ self.rules, rule.Storable C) :
    fromProtoBytes C decode (self.toProtoBytes E encode) = .ok self.reloaded := by
  have hrules : ∀ rule ∈ self.rules,
      (AccessRule.fromProto C ∘ AccessRule.toProto E) rule = rule.reloaded :=
    fun rule hr => AccessRule.fromProto_toProto hE hS (h rule hr)
  rw [fromProtoBytes, toProtoBytes, hdecode, mapErr_ok, ok_bind, fromProto, toProto, List.map_map,
    List.map_congr_left hrules]
  rfl

/-- A policy that was built by calls can be stored as it is. -/
theorem storable_run (hb : Function.Injective C.base58) {ops : List (Op (Vector UInt8))}
    (hu64 : ∀ u k e, .grant u k (some e) ∈ ops → e < 2 ^ 64) :
    ∀ rule ∈ (Runs.run (step C) new ops).rules, rule.Storable C := by
  intro rule hr
  have h := tracks_run hb ops
  have ht := h.rule ⟨rule.scope⟩
  rw [(h.wellFormed.ruleAt_eq_some_iff _ rule).mpr ⟨hr, rfl⟩] at ht
  constructor
  · intro t hexp
    obtain ⟨k, hk⟩ := exists_mem_of_firstExpiry (ht.1.trans (congrArg some hexp))
    exact hu64 _ k t hk
  · intro s hs
    obtain ⟨k, hk, _⟩ := (ht.2 s).mp hs
    exact ⟨k, hk⟩

end Reload

/-- Every key in a rule that expired at time 0, at a valid scope, also stands in a rule there or
above that never expires. -/
def ZeroCovered (self : AccessPolicy) : Prop :=
  ∀ rule ∈ self.rules, Scope.Valid ⟨rule.scope⟩ → rule.expiresAt = some 0 →
    ∀ key ∈ rule.recipientKeyIds, ∃ cover ∈ self.rules, Scope.Valid ⟨cover.scope⟩ ∧
      Scope.isAncestorOf ⟨cover.scope⟩ ⟨rule.scope⟩ = true ∧
      cover.expired endOfTime = false ∧ key ∈ cover.recipientKeyIds

/-- After a reload, the keys of rules that expired at time 0 are reported too. -/
lemma mem_keyIdsForScope_reloaded (self : AccessPolicy) (now : ℕ) (T : Scope) (s : String) :
    s ∈ self.reloaded.keyIdsForScope now T ↔ s ∈ self.keyIdsForScope now T ∨
      ∃ rule ∈ self.rules, Scope.Valid ⟨rule.scope⟩ ∧ Scope.isAncestorOf ⟨rule.scope⟩ T = true ∧
        rule.expiresAt = some 0 ∧ s ∈ rule.recipientKeyIds := by
  rw [mem_keyIdsForScope, mem_keyIdsForScope]
  constructor
  · intro h
    obtain ⟨_, hr, hv, ha, he, hs⟩ := h
    obtain ⟨rule, hrule, rfl⟩ := List.mem_map.mp hr
    rcases (rule.reloaded_expired_eq_false_iff now).mp he with he | he
    · exact .inl ⟨rule, hrule, hv, ha, he, hs⟩
    · exact .inr ⟨rule, hrule, hv, ha, he, hs⟩
  · intro h
    rcases h with ⟨rule, hr, hv, ha, he, hs⟩ | ⟨rule, hr, hv, ha, he, hs⟩
    · exact ⟨rule.reloaded, List.mem_map_of_mem hr, hv, ha,
        (rule.reloaded_expired_eq_false_iff now).mpr (.inl he), hs⟩
    · exact ⟨rule.reloaded, List.mem_map_of_mem hr, hv, ha,
        (rule.reloaded_expired_eq_false_iff now).mpr (.inr he), hs⟩

/-- A reload leaves all reports as they are exactly when every key of a rule that expired at
time 0 has access for good by another. -/
theorem reloaded_same_iff (self : AccessPolicy) :
    (∀ (T : Scope) (now : ℕ), now < 2 ^ 64 →
      self.reloaded.keyIdsForScope now T = self.keyIdsForScope now T) ↔ self.ZeroCovered := by
  constructor
  · intro h rule hr hv he key hkey
    have hmem : key ∈ self.reloaded.keyIdsForScope endOfTime ⟨rule.scope⟩ :=
      (mem_keyIdsForScope_reloaded self endOfTime _ key).mpr
        (.inr ⟨rule, hr, hv, Scope.isAncestorOf_self _, he, hkey⟩)
    rw [h _ endOfTime (by decide)] at hmem
    exact (mem_keyIdsForScope self endOfTime _ key).mp hmem
  · intro h T now hnow
    apply (keyIdsForScope_sorted _ now T).eq_of_mem_iff (keyIdsForScope_sorted _ now T)
    intro s
    rw [mem_keyIdsForScope_reloaded]
    constructor
    · intro hs
      rcases hs with hs | ⟨rule, hr, hv, ha, he, hs⟩
      · exact hs
      · obtain ⟨cover, hcover, hcv, hcr, hend, hkey⟩ := h rule hr hv he s hs
        have hle : now ≤ endOfTime := Nat.le_sub_one_of_lt hnow
        have hne : cover.scope ≠ [] := Scope.Sliceable.path_ne_nil hcv.sliceable
        exact (mem_keyIdsForScope self now T s).mpr
          ⟨cover, hcover, hcv, Scope.isAncestorOf_trans hcr ha hne,
            AccessRule.expired_mono hle hend, hkey⟩
    · exact .inl

/-- A run that makes no rule with the expiry 0 ends in a policy without one. -/
lemma zeroCovered_run {C : Crypto (Vector UInt8)} (hb : Function.Injective C.base58)
    {ops : List (Op (Vector UInt8))} (h : ∀ u k, .grant u k (some 0) ∉ ops) :
    (Runs.run (step C) new ops).ZeroCovered := by
  intro rule hr _ he
  have ht := (tracks_run hb ops).rule ⟨rule.scope⟩
  rw [((tracks_run hb ops).wellFormed.ruleAt_eq_some_iff _ rule).mpr ⟨hr, rfl⟩] at ht
  obtain ⟨k, hk⟩ := exists_mem_of_firstExpiry (ht.1.trans (congrArg some he))
  exact absurd hk (h _ k)

/-- A policy that was built by calls is loaded again, and reports the same keys everywhere and
always exactly when each key of a rule that expired at time 0 also has access for good, or the
rule is at no valid scope. That is so if no call asks for the expiry 0. -/
theorem reload_reports_iff (C : Crypto (Vector UInt8)) (E : KeyText) (hE : E.Inverts C)
    (hS : C.SpellsOut) (encode : ProtoAccessPolicy → Bytes)
    (decode : Bytes → Except String ProtoAccessPolicy) (hdecode : ∀ p, decode (encode p) = .ok p)
    (ops : List (Op (Vector UInt8)))
    (hu64 : ∀ u k e, .grant u k (some e) ∈ ops → e < 2 ^ 64) :
    ∃ policy, fromProtoBytes C decode
        ((Runs.run (step C) new ops).toProtoBytes E encode) = .ok policy ∧
      ((∀ (T : Scope) (now : ℕ), now < 2 ^ 64 → policy.keyIdsForScope now T =
          (Runs.run (step C) new ops).keyIdsForScope now T) ↔
        (Runs.run (step C) new ops).ZeroCovered) ∧
      ((∀ u k, .grant u k (some 0) ∉ ops) → (Runs.run (step C) new ops).ZeroCovered) :=
  ⟨_, fromProtoBytes_toProtoBytes hE hS hdecode (storable_run hE.injective hu64),
    reloaded_same_iff _, zeroCovered_run hE.injective⟩

section Revoke

variable (C : Crypto (Vector UInt8))

/-- No rule of a scope lists a key, and the key is reported there only through a rule of a proper
ancestor. -/
structure Removed (policy : AccessPolicy) (u : Scope) (k : KeyId (Vector UInt8)) : Prop where
  unlisted : ∀ rule ∈ policy.rules, rule.scope = u.path → k.toBase58 C ∉ rule.recipientKeyIds
  above : ∀ now, k.toBase58 C ∈ policy.keyIdsForScope now u →
    ∃ rule ∈ policy.rules, ∃ v : Scope, rule.scope = v.path ∧ v ≠ u ∧
      v.isAncestorOf u = true ∧ k.toBase58 C ∈ rule.recipientKeyIds

/-- The rules for a scope, in the order in which they are looked at. -/
def rulesFor (self : AccessPolicy) (u : Scope) : List AccessRule :=
  self.rules.filter (·.scope = u.path)

/-- What is not listed at a scope can only come from above. -/
lemma removed_iff (policy : AccessPolicy) (u : Scope) (k : KeyId (Vector UInt8)) :
    Removed C policy u k ↔ ∀ rule ∈ policy.rulesFor u, k.toBase58 C ∉ rule.recipientKeyIds := by
  simp only [rulesFor, List.mem_filter, decide_eq_true_eq, and_imp]
  constructor
  · intro h
    exact h.unlisted
  · intro h
    refine ⟨h, fun now hmem => ?_⟩
    obtain ⟨rule, hr, _, ha, _, hs⟩ := (mem_keyIdsForScope policy now u _).mp hmem
    refine ⟨rule, hr, ⟨rule.scope⟩, rfl, fun hvu => ?_, ha, hs⟩
    exact h rule hr (congrArg Scope.path hvu) hs

/-- Only the first of the rules for a scope is changed. -/
lemma filter_modifyRule {scope : List Char} {f : AccessRule → AccessRule}
    (hf : ∀ r, (f r).scope = r.scope) {rules rules' : List AccessRule}
    (h : modifyRule scope f rules = some rules') :
    rules'.filter (·.scope = scope) = (rules.filter (·.scope = scope)).modifyHead f := by
  induction rules generalizing rules' with
  | nil => cases h
  | cons r rules ih =>
    unfold modifyRule at h
    split_ifs at h with hr
    · obtain rfl := Option.some.inj h
      simp [hf, hr]
    · obtain ⟨tail, ht, rfl⟩ := Option.map_eq_some_iff.mp h
      simp [hr, ih ht]

lemma rulesFor_revoke (self : AccessPolicy) (u : Scope) (k : KeyId (Vector UInt8)) :
    (self.revoke C u k).rulesFor u =
      (self.rulesFor u).modifyHead (AccessRule.removeKey (k.toBase58 C)) := by
  cases hm : modifyRule u.path (AccessRule.removeKey (k.toBase58 C)) self.rules with
  | none =>
    have hempty : self.rulesFor u = [] := by
      rw [rulesFor, List.filter_eq_nil_iff]
      intro r hr
      simpa using modifyRule_eq_none hm r hr
    rw [revoke_of_none C hm, hempty]
    rfl
  | some rules =>
    rw [revoke_of_some C hm]
    exact filter_modifyRule (AccessRule.removeKey_scope _) hm

/-- Where scopes are not repeated, there is no second rule. -/
lemma WellFormed.tail_rulesFor {self : AccessPolicy} (h : self.WellFormed) (u : Scope) :
    (self.rulesFor u).tail = [] := by
  have hnodup : ((self.rulesFor u).map (·.scope)).Nodup :=
    h.nodup.sublist (List.filter_sublist.map _)
  have hscope : ∀ r ∈ self.rulesFor u, r.scope = u.path := by
    intro r hr
    simpa using (List.mem_filter.mp hr).2
  match hrules : self.rulesFor u with
  | [] => rfl
  | [r] => rfl
  | r :: r' :: rest =>
    rw [hrules] at hnodup hscope
    have hne := (List.nodup_cons.mp hnodup).1
    have hr : r.scope = r'.scope := by
      rw [hscope r (by simp), hscope r' (by simp)]
    exact absurd (by simp [hr]) hne

theorem wellFormed_run (ops : List (Op (Vector UInt8))) :
    (Runs.run (step C) new ops).WellFormed := by
  apply Runs.run_invariant WellFormed
  · intro op _ policy h
    cases op with
    | grant u k e => exact h.grant C u k e
    | revoke u k => exact h.revoke C u k
  · exact ⟨List.nodup_nil⟩

/-- A revocation removes the grant exactly when no rule for the scope after the first lists the
key, and always does for a policy that was built by calls. -/
theorem revoke_removes_iff (policy : AccessPolicy) (u : Scope) (k : KeyId (Vector UInt8)) :
    (Removed C (policy.revoke C u k) u k ↔
      ∀ rule ∈ (policy.rulesFor u).tail, k.toBase58 C ∉ rule.recipientKeyIds) ∧
    ∀ ops, policy = Runs.run (step C) new ops → Removed C (policy.revoke C u k) u k := by
  have hiff : Removed C (policy.revoke C u k) u k ↔
      ∀ rule ∈ (policy.rulesFor u).tail, k.toBase58 C ∉ rule.recipientKeyIds := by
    rw [removed_iff, rulesFor_revoke]
    cases policy.rulesFor u with
    | nil => simp
    | cons r rest => simp [AccessRule.mem_removeKey]
  refine ⟨hiff, fun ops hops => hiff.mpr ?_⟩
  rw [hops, (wellFormed_run C ops).tail_rulesFor]
  simp

end Revoke

end AccessPolicy

lemma base58Arrays_spellsOut : base58Arrays.SpellsOut := by
  intro bs h
  apply base58Arrays_injective
  rw [h]
  rfl

/-- A permanent grant at the root and an expired one at `/a`. -/
def coveredGrants : List (AccessPolicy.Op (Vector UInt8)) :=
  [.grant .root zeroKeyId none, .grant aScope zeroKeyId (some 3)]

theorem reload_reports_covered :
    ∃ policy, AccessPolicy.fromProtoBytes base58Arrays Prost.decodePolicy
        ((Runs.run (AccessPolicy.step base58Arrays) AccessPolicy.new coveredGrants).toProtoBytes
          base58Text Prost.encodePolicy) = .ok policy ∧
      ∀ (T : Scope) (now : ℕ), now < 2 ^ 64 → policy.keyIdsForScope now T =
        (Runs.run (AccessPolicy.step base58Arrays) AccessPolicy.new
          coveredGrants).keyIdsForScope now T :=
  have hu64 : ∀ u k e, .grant u k (some e) ∈ coveredGrants → e < 2 ^ 64 := by
    intro u k e h
    simp only [coveredGrants, List.mem_cons, AccessPolicy.Op.grant.injEq, List.not_mem_nil,
      reduceCtorEq, and_false, Option.some.injEq, or_false, false_or] at h
    omega
  have hzero : ∀ u k, .grant u k (some 0) ∉ coveredGrants := by
    intro u k h
    simp [coveredGrants] at h
  have h := AccessPolicy.reload_reports_iff base58Arrays base58Text base58Text_inverts
    base58Arrays_spellsOut Prost.encodePolicy Prost.decodePolicy Prost.decodePolicy_encode
    coveredGrants hu64
  ⟨h.choose, h.choose_spec.1, h.choose_spec.2.1.mpr (h.choose_spec.2.2 hzero)⟩

/-- A grant that expires at time 0 is over at time 1, and holds again after a reload. -/
theorem zero_expiry_reload :
    ∃ policy, AccessPolicy.fromProtoBytes base58Arrays Prost.decodePolicy
        ((AccessPolicy.new.grant base58Arrays aScope zeroKeyId (some 0)).toProtoBytes
          base58Text Prost.encodePolicy) = .ok policy ∧
      zeroKeyId.toBase58 base58Arrays ∈ policy.keyIdsForScope 1 aScope ∧
      zeroKeyId.toBase58 base58Arrays ∉
        (AccessPolicy.new.grant base58Arrays aScope zeroKeyId (some 0)).keyIdsForScope 1
          aScope := by
  have hu64 : ∀ u k e, .grant u k (some e) ∈ [AccessPolicy.Op.grant aScope zeroKeyId (some 0)] →
      e < 2 ^ 64 := by
    intro u k e h
    simp only [List.mem_singleton, AccessPolicy.Op.grant.injEq, Option.some.injEq] at h
    omega
  have hstorable := AccessPolicy.storable_run base58Arrays_injective hu64
  refine ⟨_, AccessPolicy.fromProtoBytes_toProtoBytes base58Text_inverts base58Arrays_spellsOut
    Prost.decodePolicy_encode hstorable, ?_, fun h => ?_⟩
  · exact (AccessPolicy.mem_keyIdsForScope_reloaded _ 1 aScope _).mpr
      (.inr ⟨_, List.mem_singleton_self _, (by decide), aScope.isAncestorOf_self, rfl, by simp⟩)
  · obtain ⟨rule, hr, _, _, he, _⟩ := (AccessPolicy.mem_keyIdsForScope _ 1 aScope _).mp h
    obtain rfl := List.mem_singleton.mp hr
    exact absurd he (by decide)

/-- Two rules for `/a`, both for the same key. -/
def twiceListed : ProtoAccessPolicy :=
  ⟨[⟨['/', 'a'], [List.replicate 8 0], 0⟩, ⟨['/', 'a'], [List.replicate 8 0], 0⟩]⟩

/-- A stored policy with two rules for a scope is accepted, and a revocation there leaves the key in
the second. -/
theorem second_rule_survives_revoke :
    ∃ policy, AccessPolicy.fromProtoBytes base58Arrays Prost.decodePolicy
        (Prost.encodePolicy twiceListed) = .ok policy ∧
      zeroKeyId.toBase58 base58Arrays ∈
        (policy.revoke base58Arrays aScope zeroKeyId).keyIdsForScope 0 aScope ∧
      ¬ AccessPolicy.Removed base58Arrays (policy.revoke base58Arrays aScope zeroKeyId) aScope
        zeroKeyId := by
  have hload : AccessPolicy.fromProtoBytes base58Arrays Prost.decodePolicy
      (Prost.encodePolicy twiceListed) = .ok (AccessPolicy.fromProto base58Arrays twiceListed) := by
    rw [AccessPolicy.fromProtoBytes, Prost.decodePolicy_encode]
    rfl
  have hrules : ((AccessPolicy.fromProto base58Arrays twiceListed).revoke base58Arrays aScope
      zeroKeyId).rules = [⟨['/', 'a'], [], none⟩,
        ⟨['/', 'a'], [zeroKeyId.toBase58 base58Arrays], none⟩] := by
    decide +kernel
  refine ⟨_, hload, ?_, fun h => ?_⟩
  · rw [AccessPolicy.mem_keyIdsForScope, hrules]
    exact ⟨_, List.mem_of_getElem? (i := 1) rfl, (by decide), aScope.isAncestorOf_self, rfl, by simp⟩
  · have hun := h.unlisted
    rw [hrules] at hun
    exact hun _ (List.mem_of_getElem? (i := 1) rfl) rfl (by simp)

end ReadOnlyKeys
