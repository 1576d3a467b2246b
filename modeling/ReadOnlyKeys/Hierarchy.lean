import ReadOnlyKeys.Keys
import ReadOnlyKeys.Transparent
import Mathlib.Logic.Relation

/-!
# The hierarchy of read keys

The derivation loop is a walk in the tree of scopes, so the secret at a scope is
a function of the root secret and the path alone. Keys that were derived,
delegated and imported honestly hold exactly the secret of their scope.
-/
namespace ReadOnlyKeys
open Outcome Wire SeparatedPath

variable {A : ℕ → Type} [ByteArrays A]

namespace Scope

/-- A derivation from `P` to `T` can run: `T` is strictly below and both paths can be split. -/
structure Derivable (P T : Scope) : Prop where
  ancestor : P.isAncestorOf T = true
  ne : P ≠ T
  source : P.Sliceable
  target : T.Sliceable

theorem Derivable.of_valid {P T : Scope} (hP : P.Valid) (hT : T.Valid)
    (h : P.isAncestorOf T = true) (hne : P ≠ T) : Derivable P T :=
  ⟨h, hne, hP.sliceable, hT.sliceable⟩

theorem Derivable.prefix_segments {P T : Scope} (h : Derivable P T) : P.segments <+: T.segments :=
  prefix_segments_of_isAncestorOf h.ancestor h.source.path_ne_nil

theorem Derivable.length_lt {P T : Scope} (h : Derivable P T) :
    P.segments.length < T.segments.length :=
  length_segments_lt h.ancestor h.source.path_ne_nil h.ne

theorem Derivable.trans {P M T : Scope} (h : Derivable P M) (h' : Derivable M T) :
    Derivable P T := by
  refine ⟨isAncestorOf_trans h.ancestor h'.ancestor h.source.path_ne_nil, ?_, h.source, h'.target⟩
  intro he
  have hlt := h.length_lt
  have hlt' := h'.length_lt
  rw [he] at hlt
  omega

end Scope

section Secrets

variable (C : Crypto A)

/-- One level of the derivation, labelled with the path of the level. -/
def levelSecret (path : List (List Char)) (key : A 32) : A 32 :=
  C.hkdf domainReadChild (asBytes key) (toUtf8 (render '/' path))

/-- The secret that the hierarchy below a root secret assigns to a path. -/
def hierarchySecret (rootSecret : A 32) (path : List (List Char)) : A 32 :=
  KeyTree.walk (levelSecret C) [] path rootSecret

lemma cons_intercalate_eq_render (gs : List (List Char)) :
    '/' :: ['/'].intercalate gs = render '/' gs := by
  cases gs <;> rfl

/-- The loop of the source, on the components of a scope and an ancestor. -/
lemma foldl_levels_eq_walk (ps ts : List (List Char)) (h : ps <+: ts) (s : A 32) :
    (List.range' ps.length (ts.length - ps.length)).foldl (fun currentSecret i =>
      C.hkdf domainReadChild (asBytes currentSecret)
        (toUtf8 ('/' :: ['/'].intercalate (ts.take (i + 1))))) s =
      KeyTree.walk (levelSecret C) ps (ts.drop ps.length) s := by
  obtain ⟨gs, rfl⟩ := h
  rw [List.length_append, Nat.add_sub_cancel_left, List.drop_left,
    ← KeyTree.foldl_take_eq_walk (levelSecret C) ps gs s]
  simp only [levelSecret, cons_intercalate_eq_render]

/-- When the derivation succeeds, and what it returns. -/
theorem deriveChildReadSecret_eq_ok_iff (s r : A 32) (P T : Scope) :
    deriveChildReadSecret C s P T = .ok r ↔ Scope.Derivable P T ∧
      r = KeyTree.walk (levelSecret C) P.segments (T.segments.drop P.segments.length) s := by
  simp only [deriveChildReadSecret, bind_eq_ok_iff, require_eq_ok_iff]
  constructor
  · intro h
    obtain ⟨_, hanc, _, hne, ps, hps, ts, hts, h⟩ := h
    have hPT : Scope.Derivable P T := ⟨hanc, hne, ⟨ps, hps⟩, ⟨ts, hts⟩⟩
    rw [(Scope.components_eq_ok hps).1, (Scope.components_eq_ok hts).1,
      foldl_levels_eq_walk C _ _ hPT.prefix_segments] at h
    exact ⟨hPT, (Except.ok.inj h).symm⟩
  · intro h
    obtain ⟨hPT, rfl⟩ := h
    refine ⟨(), hPT.ancestor, (), hPT.ne, P.segments, hPT.source.components, T.segments,
      hPT.target.components, ?_⟩
    rw [foldl_levels_eq_walk C _ _ hPT.prefix_segments]
    rfl

/-- Walking on from the hierarchy's secret at an ancestor stays in the hierarchy. -/
theorem walk_hierarchySecret (root : A 32) {ps ts : List (List Char)} (h : ps <+: ts) :
    KeyTree.walk (levelSecret C) ps (ts.drop ps.length) (hierarchySecret C root ps) =
      hierarchySecret C root ts :=
  KeyTree.walk_drop (levelSecret C) List.nil_prefix h root

end Secrets

namespace ReadKeyPair

variable {C : Crypto A}

theorem deriveChild_eq_ok_iff (k d : ReadKeyPair C) (T : Scope) :
    k.deriveChild T = .ok d ↔ Scope.Derivable k.scope T ∧
        d = fromSecretBytes C (KeyTree.walk (levelSecret C) k.scope.segments
          (T.segments.drop k.scope.segments.length) k.secretBytes) T (some k.keyId) := by
  simp only [deriveChild, bind_eq_ok_iff, require_eq_ok_iff, deriveChildReadSecret_eq_ok_iff]
  constructor
  · intro h
    obtain ⟨_, _, _, ⟨hT, rfl⟩, h⟩ := h
    exact ⟨hT, (Except.ok.inj h).symm⟩
  · intro h
    obtain ⟨hT, rfl⟩ := h
    exact ⟨(), ⟨hT.ancestor, hT.ne⟩, _, ⟨hT, rfl⟩, rfl⟩

theorem importKey_eq_ok_iff (x : ExportedReadKey A) (k : ReadKeyPair C) :
    importKey C x = .ok k ↔ C.publicFrom (C.staticFrom x.secretBytes) = x.publicBytes ∧
      k = ⟨C.staticFrom x.secretBytes, C.publicFrom (C.staticFrom x.secretBytes), x.scope,
        x.parentKeyId, rfl⟩ := by
  simp only [importKey, bind_eq_ok_iff, require_eq_ok_iff]
  constructor
  · intro h
    obtain ⟨_, hp, h⟩ := h
    exact ⟨hp, (Except.ok.inj h).symm⟩
  · intro h
    obtain ⟨hp, rfl⟩ := h
    exact ⟨(), hp, rfl⟩

/-- One derivation step, to a scope or by a segment. -/
inductive Derives : ReadKeyPair C → ReadKeyPair C → Prop where
  | child {k k' : ReadKeyPair C} (T : Scope) (h : k.deriveChild T = .ok k') : Derives k k'
  | segment {k k' : ReadKeyPair C} (g : List Char) (h : k.deriveChildSegment g = .ok k') :
      Derives k k'

/-- A segment step is a step to some scope. -/
theorem Derives.exists_deriveChild {k k' : ReadKeyPair C} (h : Derives k k') :
    ∃ T, k.deriveChild T = .ok k' := by
  cases h with
  | child T h => exact ⟨T, h⟩
  | segment g h =>
    rw [deriveChildSegment, bind_eq_ok_iff] at h
    obtain ⟨T, _, h⟩ := h
    exact ⟨T, h⟩

/-- What two keys share when one was derived in a single call. -/
structure SameKey (d k : ReadKeyPair C) : Prop where
  secret : d.secret = k.secret
  publicKey : d.publicKey = k.publicKey
  keyId : d.keyId = k.keyId
  scope : d.scope = k.scope

theorem SameKey.of_secret {d k : ReadKeyPair C} (hs : d.secret = k.secret)
    (hp : d.scope = k.scope) : SameKey d k := by
  have hk : d.publicKey = k.publicKey := by rw [d.public_eq, k.public_eq, hs]
  exact ⟨hs, hk, by rw [ReadKeyPair.keyId, ReadKeyPair.keyId, hk], hp⟩

/-- A single derivation after a chain of derivations is one derivation from the start. -/
theorem deriveChild_trans (hC : C.StaticRoundtrip) {k m t d : ReadKeyPair C} {T : Scope}
    (hd : k.deriveChild m.scope = .ok d) (hm : SameKey d m) (ht : m.deriveChild T = .ok t) :
    ∃ d', k.deriveChild T = .ok d' ∧ SameKey d' t := by
  rw [deriveChild_eq_ok_iff] at hd ht
  obtain ⟨hkm, rfl⟩ := hd
  obtain ⟨hmT, rfl⟩ := ht
  refine ⟨_, (deriveChild_eq_ok_iff _ _ _).mpr ⟨hkm.trans hmT, rfl⟩, SameKey.of_secret ?_ rfl⟩
  -- the secret of `m` is the walk from `k`, and the two walks compose
  have hms : m.secretBytes = KeyTree.walk (levelSecret C) k.scope.segments
      (m.scope.segments.drop k.scope.segments.length) k.secretBytes := by
    rw [secretBytes, ← hm.secret]
    exact hC _
  simp only [fromSecretBytes]
  rw [hms, KeyTree.walk_drop (levelSecret C) hkm.prefix_segments hmT.prefix_segments]

/-- Any chain of derivations ends in the key of one derivation. -/
theorem exists_deriveChild_of_transGen (hC : C.StaticRoundtrip) {k t : ReadKeyPair C}
    (h : Relation.TransGen Derives k t) : ∃ d, k.deriveChild t.scope = .ok d ∧ SameKey d t := by
  induction h with
  | single h =>
    obtain ⟨T, hT⟩ := h.exists_deriveChild
    obtain ⟨_, rfl⟩ := (deriveChild_eq_ok_iff _ _ _).mp hT
    exact ⟨_, hT, SameKey.of_secret rfl rfl⟩
  | tail _ h ih =>
    obtain ⟨d, hd, hm⟩ := ih
    obtain ⟨T, hT⟩ := h.exists_deriveChild
    obtain ⟨_, rfl⟩ := (deriveChild_eq_ok_iff _ _ _).mp hT
    exact deriveChild_trans hC hd hm hT

end ReadKeyPair

/-- The root secret of a spend key's hierarchy. -/
def SpendKeyPair.rootSecret {C : Crypto A} (sk : SpendKeyPair C) : A 32 :=
  deriveRootReadSecret C (C.signingToBytes sk.signingKey)

namespace ReadKeyPair

variable {C : Crypto A}

/-- One way to hand on a key: derive from it, or export and import it. -/
inductive Delegates : ReadKeyPair C → ReadKeyPair C → Prop where
  | derive {k k' : ReadKeyPair C} (h : Derives k k') : Delegates k k'
  | transfer {k k' : ReadKeyPair C} (h : importKey C k.exportKey = .ok k') : Delegates k k'

/-- The key holds the secret that the hierarchy of `sk` assigns to its scope. -/
structure Genuine (sk : SpendKeyPair C) (k : ReadKeyPair C) : Prop where
  sliceable : k.scope.Sliceable
  secret_eq : k.secret = C.staticFrom (hierarchySecret C sk.rootSecret k.scope.segments)

theorem genuine_root (sk : SpendKeyPair C) : Genuine sk sk.deriveRootReadKey :=
  ⟨⟨[], rfl⟩, rfl⟩

theorem Genuine.secretBytes_eq (hC : C.StaticRoundtrip) {sk : SpendKeyPair C} {k : ReadKeyPair C}
    (h : Genuine sk k) :
    k.secretBytes = hierarchySecret C sk.rootSecret k.scope.segments := by
  rw [secretBytes, h.secret_eq, hC]

theorem Genuine.deriveChild (hC : C.StaticRoundtrip) {sk : SpendKeyPair C} {k d : ReadKeyPair C}
    {T : Scope} (h : Genuine sk k) (hd : k.deriveChild T = .ok d) : Genuine sk d ∧ d.scope = T := by
  rw [deriveChild_eq_ok_iff] at hd
  obtain ⟨hkT, rfl⟩ := hd
  refine ⟨⟨hkT.target, ?_⟩, rfl⟩
  simp only [fromSecretBytes]
  rw [h.secretBytes_eq hC, walk_hierarchySecret C _ hkT.prefix_segments]

/-- Every step of a delegation keeps a key genuine. -/
theorem Genuine.delegates (hC : C.StaticRoundtrip) {sk : SpendKeyPair C} {k k' : ReadKeyPair C}
    (h : Genuine sk k) (hs : Delegates k k') : Genuine sk k' := by
  cases hs with
  | derive hd =>
    obtain ⟨T, hT⟩ := hd.exists_deriveChild
    exact (h.deriveChild hC hT).1
  | transfer hi =>
    rw [importKey_eq_ok_iff] at hi
    obtain ⟨_, rfl⟩ := hi
    refine ⟨h.sliceable, ?_⟩
    simp only [exportKey]
    rw [h.secretBytes_eq hC]

/-- Every key delegated from the root, in any number of steps, is genuine. -/
theorem genuine_of_delegated (hC : C.StaticRoundtrip) {sk : SpendKeyPair C} {k : ReadKeyPair C}
    (h : Relation.ReflTransGen Delegates sk.deriveRootReadKey k) : Genuine sk k := by
  induction h with
  | refl => exact genuine_root sk
  | tail _ hs ih => exact ih.delegates hC hs

/-- Keys that are genuine at one scope have one public key. -/
theorem Genuine.publicKey_eq {sk : SpendKeyPair C} {k k' : ReadKeyPair C} (h : Genuine sk k)
    (h' : Genuine sk k') (hs : k.scope = k'.scope) : k.publicKey = k'.publicKey := by
  rw [k.public_eq, k'.public_eq, h.secret_eq, h'.secret_eq, hs]

end ReadKeyPair

/-- Deriving through intermediate scopes, in any number of steps, is deriving directly. -/
theorem derivation_path_independent (C : Crypto A) (hC : C.StaticRoundtrip) :
    (∀ (s : A 32) (P M T : Scope), P.Valid → M.Valid → T.Valid →
      P.isAncestorOf M = true → P ≠ M → M.isAncestorOf T = true → M ≠ T →
      ∃ m t, deriveChildReadSecret C s P M = .ok m ∧ deriveChildReadSecret C m M T = .ok t ∧
        deriveChildReadSecret C s P T = .ok t) ∧
    ∀ k t : ReadKeyPair C, Relation.TransGen ReadKeyPair.Derives k t →
      ∃ d, k.deriveChild t.scope = .ok d ∧ ReadKeyPair.SameKey d t := by
  constructor
  · intro s P M T hP hM hT hPM hne hMT hne'
    have hdPM := Scope.Derivable.of_valid hP hM hPM hne
    have hdMT := Scope.Derivable.of_valid hM hT hMT hne'
    exact ⟨_, _, (deriveChildReadSecret_eq_ok_iff C s _ P M).mpr ⟨hdPM, rfl⟩,
      (deriveChildReadSecret_eq_ok_iff C _ _ M T).mpr ⟨hdMT, rfl⟩,
      (deriveChildReadSecret_eq_ok_iff C s _ P T).mpr ⟨hdPM.trans hdMT,
        KeyTree.walk_drop (levelSecret C) hdPM.prefix_segments hdMT.prefix_segments s⟩⟩
  · intro k t h
    exact ReadKeyPair.exists_deriveChild_of_transGen hC h

/-- The spend key of a seed of zeros, with transparent primitives. -/
def zeroSpend (pack : Packing A) : SpendKeyPair (Transparent.crypto pack) :=
  SpendKeyPair.fromSeed _ (zeros 32)

/-- Its root read key on arrays. -/
def zeroRoot : ReadKeyPair Transparent.arrays := (zeroSpend packArray).deriveRootReadKey

theorem derivation_path_independent_two_segments :
    (∃ m t, deriveChildReadSecret Transparent.arrays (zeros 32) Scope.root ⟨['/', 'a']⟩ = .ok m ∧
      deriveChildReadSecret Transparent.arrays m ⟨['/', 'a']⟩ ⟨['/', 'a', '/', 'b']⟩ = .ok t ∧
      deriveChildReadSecret Transparent.arrays (zeros 32) Scope.root ⟨['/', 'a', '/', 'b']⟩ = .ok t) ∧
    ∃ a t d, zeroRoot.deriveChildSegment ['a'] = .ok a ∧ a.deriveChildSegment ['b'] = .ok t ∧
      t.scope = ⟨['/', 'a', '/', 'b']⟩ ∧ zeroRoot.deriveChild t.scope = .ok d ∧
      ReadKeyPair.SameKey d t := by
  have h := derivation_path_independent _ (Transparent.crypto_staticRoundtrip packArray)
  constructor
  · exact h.1 (zeros 32) Scope.root ⟨['/', 'a']⟩ ⟨['/', 'a', '/', 'b']⟩ (by decide) (by decide)
      (by decide) (by decide) (by decide) (by decide) (by decide)
  · obtain ⟨d, hd, hs⟩ :=
      h.2 zeroRoot _ (.tail (.single (.segment ['a'] rfl)) (.segment ['b'] rfl))
    exact ⟨_, _, d, rfl, rfl, rfl, hd, hs⟩

end ReadOnlyKeys
