import ReadOnlyKeys.Memory
import ReadOnlyKeys.Lib.Answers

/-!
# Backends that are maps at some places

Callers see a shelf: what is stored at each place, and which place an id names. A
backend may mix up places that it spells alike. At places it keeps apart it is a
shelf, in every state that calls at such places lead to.
-/
namespace ReadOnlyKeys
open Outcome Wire Answers

variable {σ : Type}

/-- A scope and a key. -/
abbrev Spot := List Char × List Char

/-- What callers of a storage see. -/
@[ext] structure Shelf where
  contents : Contents
  ids : StorageId → Option Spot

/-- The entry is what the shelf has at a place. -/
structure Shelf.Has (a : Shelf) (q : Spot) (e : StorageEntry) : Prop where
  place : (e.scope, e.key) = q
  data : a.contents q = some e.data
  id : a.ids e.id = some q

/-- A call of the storage interface. -/
inductive StorageOp where
  | put (scope key : List Char) (data : Bytes)
  | get (id : StorageId)
  | getByKey (scope key : List Char)
  | list (scopePrefix : List Char)
  | delete (id : StorageId)

namespace StorageOp

/-- What a call returns. -/
abbrev Value : StorageOp → Type
  | put _ _ _ => StorageId
  | get _ | getByKey _ _ => StorageEntry
  | list _ => List StorageEntry
  | delete _ => Unit

def program (backend : StorageBackend σ) : (op : StorageOp) → Program RokError σ op.Value
  | put scope key data => backend.put scope key data
  | get id => backend.get id
  | getByKey scope key => backend.getByKey scope key
  | list scopePrefix => backend.list scopePrefix
  | delete id => backend.delete id

def exec (backend : StorageBackend σ) (s : σ) (op : StorageOp) : Result op.Value × σ :=
  (op.program backend).exec s

/-- The answer of a shelf to a call, and the shelf after it. The id of a put is not determined. -/
def Spec (a : Shelf) : (op : StorageOp) → Result op.Value → Shelf → Prop
  | put scope key data, r, a' => ∃ id, r = .ok id ∧
      a' = ⟨Function.update a.contents (scope, key) (some data),
        Function.update a.ids id (some (scope, key))⟩
  | get id, r, a' => a' = a ∧
      match a.ids id with
      | some q => ∃ e, r = .ok e ∧ e.id = id ∧ a.Has q e
      | none => ∃ err, r = fail err
  | getByKey scope key, r, a' => a' = a ∧
      match a.contents (scope, key) with
      | some _ => ∃ e, r = .ok e ∧ a.Has (scope, key) e
      | none => ∃ err, r = fail err
  | list scopePrefix, r, a' => a' = a ∧ ∃ es, r = .ok es ∧
      (es.map fun e => (e.scope, e.key)).Nodup ∧ (∀ e ∈ es, a.Has (e.scope, e.key) e) ∧
      ∀ q, (∃ e ∈ es, (e.scope, e.key) = q) ↔
        Scope.isAncestorOf ⟨scopePrefix⟩ ⟨q.1⟩ = true ∧ (a.contents q).isSome = true
  | delete id, r, a' =>
      match a.ids id with
      | some q => r = .ok () ∧
          a' = ⟨Function.update a.contents q none, Function.update a.ids id none⟩
      | none => (∃ err, r = fail err) ∧ a' = a

/-- The call is at a place that passes the test, or a listing that the state allows. -/
def Meets (P : Spot → Prop) (lists : Prop) : StorageOp → Prop
  | put scope key _ => P (scope, key)
  | getByKey scope key => P (scope, key)
  | list _ => lists
  | get _ | delete _ => True

instance {P : Spot → Prop} [DecidablePred P] {lists : Prop} [Decidable lists] :
    DecidablePred (Meets P lists)
  | put scope key _ => inferInstanceAs (Decidable (P (scope, key)))
  | getByKey scope key => inferInstanceAs (Decidable (P (scope, key)))
  | list _ => inferInstanceAs (Decidable lists)
  | get _ => .isTrue trivial
  | delete _ => .isTrue trivial

end StorageOp

/-- A backend is a shelf at the places that pass a test, in the states of an invariant. A
listing needs a state that is small enough, and leaves one. -/
structure MapOn (backend : StorageBackend σ) (P : Spot → Prop) (I small : σ → Prop)
    (shelf : σ → Shelf) : Prop where
  places : ∀ {s} {q : Spot} {data}, I s → (shelf s).contents q = some data → P q
  step : ∀ {s} (op : StorageOp), I s → op.Meets P (small s) → I (op.exec backend s).2 ∧
    op.Spec (shelf s) (op.exec backend s).1 (shelf (op.exec backend s).2)
  list_small : ∀ {s} scopePrefix, I s → small s → small ((backend.list scopePrefix).exec s).2

/-- The answers of a run are those of a shelf. -/
theorem MapOn.run {backend : StorageBackend σ} {P : Spot → Prop} {I small : σ → Prop}
    {shelf : σ → Shelf} (h : MapOn backend P I small shelf) {s : σ} (hs : I s)
    {ops : List StorageOp}
    (hops : Runs.Meets (fun s op => (op.exec backend s).2) (fun s op => op.Meets P (small s)) s
      ops) :
    let final := Runs.run (fun s op => (StorageOp.exec backend s op).2) s ops
    Allows StorageOp.Spec (shelf s) (history (StorageOp.exec backend) s ops) (shelf final) ∧
      I final := by
  have hstep : ∀ s a (op : StorageOp), op.Meets P (small s) → a = shelf s ∧ I s →
      ∃ a', op.Spec a (op.exec backend s).1 a' ∧ a' = shelf (op.exec backend s).2 ∧
        I (op.exec backend s).2 := by
    intro s a op hop hs
    obtain ⟨rfl, hs⟩ := hs
    obtain ⟨hs', hspec⟩ := h.step op hs hop
    exact ⟨_, hspec, rfl, hs'⟩
  obtain ⟨a', hallows, rfl, hfinal⟩ := exists_allows (fun s a => a = shelf s ∧ I s) hstep
    ⟨rfl, hs⟩ hops
  exact ⟨hallows, hfinal⟩

/-- From a good state to a good one, in which at most these places have changed. -/
def Stays (I : σ → Prop) (view : σ → Contents) (W : Set Spot) (s s' : σ) : Prop :=
  I s → I s' ∧ ∀ q ∉ W, view s' q = view s q

instance (I : σ → Prop) (view : σ → Contents) (W : Set Spot) : IsPreorder σ (Stays I view W) where
  refl _ hs := ⟨hs, fun _ _ => rfl⟩
  trans _ _ _ h h' hs := by
    obtain ⟨hs₁, hview⟩ := h hs
    obtain ⟨hs₂, hview'⟩ := h' hs₁
    exact ⟨hs₂, fun q hq => (hview' q hq).trans (hview q hq)⟩

theorem Stays.mono {I : σ → Prop} {view : σ → Contents} {W W' : Set Spot} (hW : W ⊆ W') (s s' : σ)
    (h : Stays I view W s s') : Stays I view W' s s' := fun hs =>
  ⟨(h hs).1, fun q hq => (h hs).2 q fun hmem => hq (hW hmem)⟩

/-- A put at a place that passes a test changes at most that place. A lookup at such a place and a
listing of a state that is small enough change nothing. -/
structure LocalPuts (backend : StorageBackend σ) (P : Spot → Prop) (I small : σ → Prop)
    (view : σ → Contents) : Prop where
  put : ∀ scope key data, P (scope, key) →
    (backend.put scope key data).Moves (Stays I view {(scope, key)})
  getByKey : ∀ scope key, P (scope, key) → (backend.getByKey scope key).Moves (Stays I view ∅)
  list : ∀ scopePrefix, (backend.list scopePrefix).Moves (Stays (fun s => I s ∧ small s) view ∅)

theorem MapOn.localPuts {backend : StorageBackend σ} {P : Spot → Prop} {I small : σ → Prop}
    {shelf : σ → Shelf} (h : MapOn backend P I small shelf) :
    LocalPuts backend P I small fun s => (shelf s).contents where
  put scope key data hP s hs := by
    obtain ⟨hs', id, _, hshelf⟩ := h.step (.put scope key data) hs hP
    refine ⟨hs', fun q hq => ?_⟩
    have hcontents := congrFun (congrArg Shelf.contents hshelf) q
    exact hcontents.trans (Function.update_of_ne hq _ _)
  getByKey scope key hP s hs := by
    obtain ⟨hs', hshelf, _⟩ := h.step (.getByKey scope key) hs hP
    exact ⟨hs', fun q _ => congrFun (congrArg Shelf.contents hshelf) q⟩
  list scopePrefix s hs := by
    obtain ⟨hs', hshelf, _⟩ := h.step (.list scopePrefix) hs.1 hs.2
    exact ⟨⟨hs', h.list_small scopePrefix hs.1 hs.2⟩,
      fun q _ => congrFun (congrArg Shelf.contents hshelf) q⟩

namespace MemoryStorage

/-- The in-memory storage, with the times of the next calls. -/
def backend : StorageBackend (MemoryStorage × (ℕ → ℕ)) where
  put scope key data := Program.effect fun s =>
    let r := s.1.put (s.2 0) scope key data
    (r.1, (r.2, fun n => s.2 (n + 1)))
  get id := Program.effect fun s => (s.1.get id, s)
  getByKey scope key := Program.effect fun s => (s.1.getByKey scope key, s)
  list scopePrefix := Program.effect fun s => (s.1.list scopePrefix, s)
  delete id := Program.effect fun s => ((s.1.delete id).1, ((s.1.delete id).2, s.2))

/-- The key has no slash. -/
def Flat (q : Spot) : Prop := '/' ∉ q.2

instance : DecidablePred Flat := fun _ => inferInstanceAs (Decidable (_ ∉ _))

/-- Every entry is filed under its id, which is the string of its place. -/
structure Flats (s : MemoryStorage) : Prop where
  filed : s.Filed
  id_eq : ∀ c e, s.entries.lookup c = some e → e.id = ⟨c⟩
  flat : ∀ c e, s.entries.lookup c = some e → Flat (e.scope, e.key)

def view (s : MemoryStorage) (q : Spot) : Option Bytes :=
  if Flat q then (s.entries.lookup (compositeKey q.1 q.2)).map StorageEntry.data else none

def ids (s : MemoryStorage) (id : StorageId) : Option Spot :=
  (s.entries.lookup id.id).map fun e => (e.scope, e.key)

def shelf (s : MemoryStorage) : Shelf := ⟨s.view, s.ids⟩

theorem Flat.eq_of_compositeKey {p q : Spot} (hp : Flat p) (hq : Flat q)
    (h : compositeKey p.1 p.2 = compositeKey q.1 q.2) : p = q := by
  obtain ⟨hscope, hkey⟩ := append_cons_inj_of_notMem_right hp hq h
  exact Prod.ext hscope hkey

variable {s : MemoryStorage}

theorem Flats.has (h : s.Flats) {c : List Char} {e : StorageEntry}
    (he : s.entries.lookup c = some e) : s.shelf.Has (e.scope, e.key) e where
  place := rfl
  data := by
    have hview : s.view (e.scope, e.key) = (s.entries.lookup c).map StorageEntry.data := by
      rw [← h.filed c e he]
      exact if_pos (h.flat c e he)
    rw [he] at hview
    exact hview
  id := by
    have hids : s.ids e.id = (s.entries.lookup c).map fun e => (e.scope, e.key) := by
      rw [h.id_eq c e he]
      rfl
    rw [he] at hids
    exact hids

theorem flats_new : new.Flats := ⟨filed_new, fun _ _ h => (by cases h), fun _ _ h => (by cases h)⟩

theorem view_new (q : Spot) : new.view q = none := ite_self _

/-- The entry filed for a flat place is the one of the place. -/
theorem Flats.lookup_place (h : s.Flats) {q : Spot} (hq : Flat q) {e : StorageEntry}
    (he : s.entries.lookup (compositeKey q.1 q.2) = some e) : (e.scope, e.key) = q :=
  (h.flat _ e he).eq_of_compositeKey hq (h.filed _ e he)

theorem Flats.put (h : s.Flats) {scope key : List Char} (hq : Flat (scope, key)) (now : ℕ)
    (data : Bytes) : (s.put now scope key data).2.Flats ∧
      (s.put now scope key data).2.shelf =
        ⟨Function.update s.view (scope, key) (some data),
          Function.update s.ids ⟨compositeKey scope key⟩ (some (scope, key))⟩ := by
  have hlookup : ∀ c, ∃ e : StorageEntry, e.id = ⟨compositeKey scope key⟩ ∧ e.scope = scope ∧
      e.key = key ∧ e.data = data ∧ (s.put now scope key data).2.entries.lookup c =
        if c = compositeKey scope key then some e else s.entries.lookup c := by
    intro c
    let createdAt := (s.entries.lookup (compositeKey scope key)).elim now StorageEntry.createdAt
    refine ⟨⟨⟨compositeKey scope key⟩, scope, key, data, createdAt, now⟩, rfl, rfl, rfl, rfl, ?_⟩
    split_ifs with hc
    · rw [hc]
      exact AList.lookup_insert _
    · exact AList.lookup_insert_ne hc
  have hcases : ∀ c e, (s.put now scope key data).2.entries.lookup c = some e →
      (c = compositeKey scope key ∧ e.id = ⟨c⟩ ∧ (e.scope, e.key) = (scope, key)) ∨
        s.entries.lookup c = some e := by
    intro c e he
    obtain ⟨e', hid, hscope, hkey, _, hc⟩ := hlookup c
    rw [hc] at he
    split_ifs at he with hcomposite
    · obtain rfl := Option.some.inj he
      exact .inl ⟨hcomposite, hcomposite ▸ hid, by rw [hscope, hkey]⟩
    · exact .inr he
  have hview : (s.put now scope key data).2.view =
      Function.update s.view (scope, key) (some data) := by
    funext q
    obtain ⟨e, _, _, _, hdata, hc⟩ := hlookup (compositeKey q.1 q.2)
    rw [Function.update_apply, view, view, hc]
    split_ifs with hflat hcomposite hp hp hp
    · rw [Option.map_some, hdata]
    · exact absurd (hflat.eq_of_compositeKey hq hcomposite) hp
    · exact absurd (by rw [hp]) hcomposite
    · rfl
    · exact absurd (hp ▸ hq) hflat
    · rfl
  have hids : (s.put now scope key data).2.ids =
      Function.update s.ids ⟨compositeKey scope key⟩ (some (scope, key)) := by
    funext id
    obtain ⟨e, _, hscope, hkey, _, hc⟩ := hlookup id.id
    rw [Function.update_apply, ids, hc]
    split_ifs with hcomposite hid hid
    · rw [Option.map_some, hscope, hkey]
    · exact absurd (StorageId.ext hcomposite) hid
    · exact absurd (by rw [hid]) hcomposite
    · rfl
  refine ⟨⟨fun c e he => ?_, fun c e he => ?_, fun c e he => ?_⟩, Shelf.ext hview hids⟩
  · rcases hcases c e he with ⟨rfl, _, hpair⟩ | he
    · obtain ⟨rfl, rfl⟩ := Prod.mk.inj hpair
      rfl
    · exact h.filed c e he
  · rcases hcases c e he with ⟨_, hid, _⟩ | he
    · exact hid
    · exact h.id_eq c e he
  · rcases hcases c e he with ⟨_, _, hpair⟩ | he
    · rwa [hpair]
    · exact h.flat c e he

theorem Flats.delete (h : s.Flats) {id : StorageId} {e : StorageEntry}
    (he : s.entries.lookup id.id = some e) :
    Flats ⟨s.entries.erase id.id⟩ ∧ shelf ⟨s.entries.erase id.id⟩ =
      ⟨Function.update s.view (e.scope, e.key) none, Function.update s.ids id none⟩ := by
  have hlookup : ∀ c, (s.entries.erase id.id).lookup c =
      if c = id.id then none else s.entries.lookup c := by
    intro c
    split_ifs with hc
    · rw [hc, AList.lookup_erase]
    · exact AList.lookup_erase_ne hc
  have hold : ∀ c e', (s.entries.erase id.id).lookup c = some e' →
      s.entries.lookup c = some e' := by
    intro c e' he'
    rw [hlookup, Option.ite_none_left_eq_some] at he'
    exact he'.2
  have hcomposite : ∀ q, Flat q → (compositeKey q.1 q.2 = id.id ↔ q = (e.scope, e.key)) := by
    intro q hq
    constructor
    · intro hc
      exact (h.lookup_place hq (hc.symm ▸ he)).symm
    · intro hp
      rw [hp]
      exact h.filed _ e he
  have hview : view ⟨s.entries.erase id.id⟩ = Function.update s.view (e.scope, e.key) none := by
    funext q
    rw [Function.update_apply, view, view, hlookup]
    split_ifs with hflat hc hp hp hp
    · rfl
    · exact absurd ((hcomposite q hflat).mp hc) hp
    · exact absurd ((hcomposite q hflat).mpr hp) hc
    · rfl
    · rfl
    · rfl
  have hids : ids ⟨s.entries.erase id.id⟩ = Function.update s.ids id none := by
    funext id'
    rw [Function.update_apply, ids, hlookup]
    split_ifs with hc hid hid
    · rfl
    · exact absurd (StorageId.ext hc) hid
    · exact absurd (by rw [hid]) hc
    · rfl
  exact ⟨⟨fun c e' he' => h.filed c e' (hold c e' he'),
    fun c e' he' => h.id_eq c e' (hold c e' he'),
    fun c e' he' => h.flat c e' (hold c e' he')⟩, Shelf.ext hview hids⟩

/-- A listing has the entries at the prefix and below. -/
theorem Flats.list (h : s.Flats) (scopePrefix : List Char) : ∃ es, s.list scopePrefix = .ok es ∧
    (es.map fun e => (e.scope, e.key)).Nodup ∧ (∀ e ∈ es, s.shelf.Has (e.scope, e.key) e) ∧
    ∀ q, (∃ e ∈ es, (e.scope, e.key) = q) ↔
      Scope.isAncestorOf ⟨scopePrefix⟩ ⟨q.1⟩ = true ∧ (s.view q).isSome = true := by
  refine ⟨_, rfl, ?_, fun e he => ?_, fun q => ?_⟩
  · have hkeys : (s.entries.entries.map Sigma.snd).map (fun e => compositeKey e.scope e.key) =
        s.entries.keys := by
      rw [List.map_map]
      exact List.map_congr_left fun x hx => h.filed x.1 x.2 (AList.mem_lookup_iff.mpr hx)
    have hnodup : ((s.entries.entries.map Sigma.snd).map
        fun e => compositeKey e.scope e.key).Nodup := hkeys ▸ s.entries.keys_nodup
    have hmap := List.map_map (f := fun e : StorageEntry => (e.scope, e.key))
      (g := fun q : Spot => compositeKey q.1 q.2) (l := s.entries.entries.map Sigma.snd)
    have hpairs := List.Nodup.of_map _ (hmap ▸ hnodup)
    exact hpairs.sublist (List.filter_sublist.map _)
  · obtain ⟨x, hx, rfl⟩ := List.mem_map.mp (List.mem_filter.mp he).1
    exact h.has (AList.mem_lookup_iff.mpr hx)
  · simp only [List.mem_filter, listed_iff ⟨scopePrefix⟩]
    constructor
    · intro hmem
      obtain ⟨e, ⟨he, ha⟩, rfl⟩ := hmem
      obtain ⟨x, hx, rfl⟩ := List.mem_map.mp he
      exact ⟨ha, Option.isSome_iff_exists.mpr ⟨_, (h.has (AList.mem_lookup_iff.mpr hx)).data⟩⟩
    · intro hview
      obtain ⟨ha, hview⟩ := hview
      obtain ⟨data, hdata⟩ := Option.isSome_iff_exists.mp hview
      rw [view, Option.ite_none_right_eq_some, Option.map_eq_some_iff] at hdata
      obtain ⟨hflat, e, he, _⟩ := hdata
      obtain rfl := h.lookup_place hflat he
      exact ⟨e, ⟨List.mem_map.mpr ⟨⟨_, e⟩, AList.mem_lookup_iff.mp he, rfl⟩, ha⟩, rfl⟩

/-- The in-memory storage is a shelf at keys without a slash. -/
theorem backend_mapOn : MapOn backend Flat (fun s => s.1.Flats) (fun _ => True)
    (fun s => s.1.shelf) where
  places hs hview := (Option.ite_none_right_eq_some.mp hview).1
  list_small _ _ _ := trivial
  step {s} op hs hop := by
    cases op with
    | put scope key data =>
      obtain ⟨hs', hshelf⟩ := hs.put hop (s.2 0) data
      exact ⟨hs', _, rfl, hshelf⟩
    | get id =>
      refine ⟨hs, rfl, ?_⟩
      show match s.1.ids id with
        | some q => ∃ e, s.1.get id = .ok e ∧ e.id = id ∧ s.1.shelf.Has q e
        | none => ∃ err, s.1.get id = fail err
      rw [ids, MemoryStorage.get]
      cases he : s.1.entries.lookup id.id with
      | none => exact ⟨_, rfl⟩
      | some e => exact ⟨e, rfl, hs.id_eq _ e he, hs.has he⟩
    | getByKey scope key =>
      refine ⟨hs, rfl, ?_⟩
      show match s.1.view (scope, key) with
        | some _ => ∃ e, s.1.getByKey scope key = .ok e ∧ s.1.shelf.Has (scope, key) e
        | none => ∃ err, s.1.getByKey scope key = fail err
      have hflat : Flat (scope, key) := hop
      rw [view, if_pos hflat, MemoryStorage.getByKey, MemoryStorage.get]
      cases he : s.1.entries.lookup (compositeKey scope key) with
      | none => exact ⟨_, rfl⟩
      | some e => exact ⟨e, rfl, hs.lookup_place hflat he ▸ hs.has he⟩
    | list scopePrefix =>
      obtain ⟨es, hlist, hes⟩ := hs.list scopePrefix
      exact ⟨hs, rfl, es, hlist, hes⟩
    | delete id =>
      show (s.1.delete id).2.Flats ∧ match s.1.ids id with
        | some q => (s.1.delete id).1 = .ok () ∧ (s.1.delete id).2.shelf =
            ⟨Function.update s.1.view q none, Function.update s.1.ids id none⟩
        | none => (∃ err, (s.1.delete id).1 = fail err) ∧ (s.1.delete id).2.shelf = s.1.shelf
      cases he : s.1.entries.lookup id.id with
      | none =>
        simp only [MemoryStorage.delete, ids, he]
        exact ⟨hs, ⟨_, rfl⟩, trivial⟩
      | some e =>
        obtain ⟨hs', hshelf⟩ := hs.delete he
        have hids : s.1.ids id = some (e.scope, e.key) := by
          rw [ids, he]
          rfl
        rw [hids]
        simp only [MemoryStorage.delete, he]
        exact ⟨hs', trivial, hshelf⟩

end MemoryStorage

end ReadOnlyKeys
