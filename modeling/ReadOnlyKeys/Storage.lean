import ReadOnlyKeys.ScopeTree
import ReadOnlyKeys.Lib.Runs
import Mathlib.Data.List.AList

/-!
# The in-memory storage

Entries are filed under one string made of scope and key. The map of pairs that
callers see is refined as long as no two of their pairs spell the same string.
-/
namespace ReadOnlyKeys
open Outcome Wire SeparatedPath

@[ext] structure StorageId where
  id : List Char
  deriving DecidableEq

/-- A single entry in a storage backend. -/
structure StorageEntry where
  id : StorageId
  scope : List Char
  key : List Char
  data : Bytes
  createdAt : ℕ
  updatedAt : ℕ
  deriving DecidableEq

/-- The operations of a storage with states in `σ`. Each may fail and each may touch the
state. -/
structure StorageBackend (σ : Type) where
  put : (scope key : List Char) → Bytes → Program RokError σ StorageId
  get : StorageId → Program RokError σ StorageEntry
  getByKey : (scope key : List Char) → Program RokError σ StorageEntry
  list : (scopePrefix : List Char) → Program RokError σ (List StorageEntry)
  delete : StorageId → Program RokError σ Unit

/-- A backend that is a map from scopes and keys to data, read off its state by `view`. A
failed `put` changes nothing. -/
structure ExactMap {σ : Type} (backend : StorageBackend σ)
    (view : σ → List Char × List Char → Option Bytes) : Prop where
  put : ∀ scope key data s r s', (backend.put scope key data).exec s = (r, s') →
    view s' = match r with
      | .ok _ => Function.update (view s) (scope, key) (some data)
      | .error _ => view s
  getByKey : ∀ scope key s, match view s (scope, key) with
    | some data => ∃ e s', (backend.getByKey scope key).exec s = (.ok e, s') ∧ e.data = data
    | none => ∃ err s', (backend.getByKey scope key).exec s = (fail err, s')
  list : ∀ scopePrefix s, ∃ es s', (backend.list scopePrefix).exec s = (.ok es, s') ∧
    (es.map fun e => (e.scope, e.key)).Nodup ∧
    ∀ scope key data, (∃ e ∈ es, e.scope = scope ∧ e.key = key ∧ e.data = data) ↔
      Scope.isAncestorOf ⟨scopePrefix⟩ ⟨scope⟩ = true ∧ view s (scope, key) = some data

/-- An exact map that takes whatever is put and is not changed by a lookup. -/
structure SteadyMap {σ : Type} (backend : StorageBackend σ)
    (view : σ → List Char × List Char → Option Bytes) : Prop extends ExactMap backend view where
  put_ok : ∀ scope key data s, ∃ id s', (backend.put scope key data).exec s = (.ok id, s')
  getByKey_view : ∀ scope key s, view ((backend.getByKey scope key).exec s).2 = view s

/-- The in-memory backend. Its map has no order that an operation promises. -/
structure MemoryStorage where
  entries : AList fun _ : List Char => StorageEntry

namespace MemoryStorage

def new : MemoryStorage := ⟨∅⟩

def compositeKey (scope key : List Char) : List Char := scope ++ '/' :: key

/-- Store data at the time `now`. -/
def put (self : MemoryStorage) (now : ℕ) (scope key : List Char) (data : Bytes) :
    Result StorageId × MemoryStorage :=
  let composite := compositeKey scope key
  let createdAt := (self.entries.lookup composite).elim now StorageEntry.createdAt
  (.ok ⟨composite⟩, ⟨self.entries.insert composite
    { id := ⟨composite⟩
      scope := scope
      key := key
      data := data
      createdAt := createdAt
      updatedAt := now }⟩)

def notFound (id : StorageId) : RokError := .storageError s!"entry not found: {String.ofList id.id}"

def get (self : MemoryStorage) (id : StorageId) : Result StorageEntry :=
  okOr (self.entries.lookup id.id) (notFound id)

def getByKey (self : MemoryStorage) (scope key : List Char) : Result StorageEntry :=
  self.get ⟨compositeKey scope key⟩

/-- The entries at a scope and below. -/
def list (self : MemoryStorage) (scopePrefix : List Char) : Result (List StorageEntry) :=
  .ok ((self.entries.entries.map Sigma.snd).filter fun entry =>
    entry.scope = scopePrefix || (scopePrefix ++ ['/']).isPrefixOf entry.scope ||
      scopePrefix = ['/'])

def delete (self : MemoryStorage) (id : StorageId) : Result Unit × MemoryStorage :=
  match self.entries.lookup id.id with
  | none => (fail (notFound id), self)
  | some _ => (.ok (), ⟨self.entries.erase id.id⟩)

/-- What a caller stores under: a scope and a name in it. -/
@[ext] structure Pair where
  scope : ValidScope
  key : List Char
  deriving DecidableEq

namespace Pair

def composite (q : Pair) : List Char := compositeKey q.scope.scope.path q.key

/-- The entry is one that was put for the pair. -/
def Owns (q : Pair) (e : StorageEntry) : Prop := e.scope = q.scope.scope.path ∧ e.key = q.key

instance (q : Pair) (e : StorageEntry) : Decidable (q.Owns e) :=
  inferInstanceAs (Decidable (_ ∧ _))

theorem ext_of_owns {p q : Pair} {e : StorageEntry} (hp : p.Owns e) (hq : q.Owns e) : p = q := by
  ext1
  · exact ValidScope.ext (Scope.ext (hp.1.symm.trans hq.1))
  · exact hp.2.symm.trans hq.2

end Pair

/-- A call of the storage interface. -/
inductive Op where
  | put (now : ℕ) (pair : Pair) (data : Bytes)
  | get (id : StorageId)
  | getByKey (pair : Pair)
  | list (scopePrefix : ValidScope)
  | delete (id : StorageId)

/-- The storage after a call. -/
def step (self : MemoryStorage) : Op → MemoryStorage
  | .put now pair data => (self.put now pair.scope.scope.path pair.key data).2
  | .delete id => (self.delete id).2
  | .get _ | .getByKey _ | .list _ => self

/-- The map that callers see: what was last put for a pair, unless deleted since. -/
def latest (m : Pair → Option Bytes) : Op → Pair → Option Bytes
  | .put _ pair data, q => if pair = q then some data else m q
  | .delete id, q => if id.id = q.composite then none else m q
  | .get _, q | .getByKey _, q | .list _, q => m q

/-- What the storage says about a pair: the answer to `get_by_key`, and the entries
of the pair in the listing of each scope. -/
def report (self : MemoryStorage) (q : Pair) :
    Result StorageEntry × (ValidScope → Result (List StorageEntry)) :=
  (self.getByKey q.scope.scope.path q.key, fun u =>
    (self.list u.scope.path).map fun es => es.filter fun e => q.Owns e)

/-- The storage says about a pair what the map does. -/
structure Reports (s : MemoryStorage) (q : Pair) (value : Option Bytes) : Prop where
  getByKey : match value with
    | some data => ∃ e, s.getByKey q.scope.scope.path q.key = .ok e ∧ q.Owns e ∧ e.data = data
    | none => ∃ err, s.getByKey q.scope.scope.path q.key = fail err
  list : ∀ u : ValidScope, ((s.report q).2 u).map (List.map StorageEntry.data) =
    .ok (if u.scope.isAncestorOf q.scope.scope then value.toList else [])

/-- In a map, at most one value passes a test that only the value at `c` can pass. -/
lemma filter_values {β : Type} (m : AList fun _ : List Char => β) (c : List Char) (P : β → Bool)
    (h : ∀ x ∈ m.entries, P x.2 = true → x.1 = c) :
    (m.entries.map Sigma.snd).filter P = (m.lookup c).toList.filter P := by
  obtain ⟨l, hl⟩ := m
  unfold AList.lookup
  simp only at h ⊢
  induction l with
  | nil => rfl
  | cons x l ih =>
    obtain ⟨a, b⟩ := x
    rw [List.nodupKeys_cons] at hl
    have hrest : ∀ x ∈ l, P x.2 = true → x.1 = c :=
      fun x hx => h x (List.mem_cons_of_mem _ hx)
    rw [List.map_cons, List.filter_cons]
    by_cases hac : a = c
    · subst hac
      have hnone : (l.map Sigma.snd).filter P = [] := by
        rw [List.filter_eq_nil_iff]
        intro v hv hP
        obtain ⟨x, hx, rfl⟩ := List.mem_map.mp hv
        have hm := List.mem_keys_of_mem hx
        rw [hrest x hx hP] at hm
        exact hl.1 hm
      rw [List.dlookup_cons_eq, hnone, Option.toList_some, List.filter_cons, List.filter_nil]
    · have hb : ¬ P b = true := fun hb => hac (h ⟨a, b⟩ List.mem_cons_self hb)
      rw [List.dlookup_cons_ne _ _ (Ne.symm hac), if_neg hb]
      exact ih hl.2 hrest

/-- Every entry is filed under its own scope and key. -/
def Filed (self : MemoryStorage) : Prop :=
  ∀ c e, self.entries.lookup c = some e → compositeKey e.scope e.key = c

theorem filed_new : new.Filed := by
  intro c e h
  cases h

theorem Filed.step {self : MemoryStorage} (h : self.Filed) (op : Op) : (self.step op).Filed := by
  cases op with
  | put now p data =>
    intro c e he
    by_cases hc : c = compositeKey p.scope.scope.path p.key
    · subst hc
      simp only [MemoryStorage.step, put, AList.lookup_insert, Option.some.injEq] at he
      rw [← he]
    · apply h c e
      simpa only [MemoryStorage.step, put, AList.lookup_insert_ne hc] using he
  | delete id =>
    simp only [MemoryStorage.step, delete]
    cases hl : self.entries.lookup id.id with
    | none => exact h
    | some _ =>
      intro c e he
      by_cases hc : c = id.id
      · rw [hc, AList.lookup_erase] at he
        cases he
      · exact h c e (by rwa [AList.lookup_erase_ne hc] at he)
  | get id => exact h
  | getByKey p => exact h
  | list u => exact h

/-- The prefix test of the listing is ancestry. -/
lemma listed_iff (u : Scope) (path : List Char) :
    (path = u.path || (u.path ++ ['/']).isPrefixOf path || u.path = ['/']) =
      u.isAncestorOf ⟨path⟩ := by
  rw [Bool.eq_iff_iff, Scope.isAncestorOf_iff_isAncestor]
  simp only [Bool.or_eq_true, decide_eq_true_eq, List.isPrefixOf_iff_prefix, IsAncestor]
  have hp : u.path ++ ['/'] <+: path ↔ ∃ r, path = u.path ++ '/' :: r := by
    constructor
    · intro h
      obtain ⟨r, hr⟩ := h
      exact ⟨r, by rw [← hr, List.append_assoc]; rfl⟩
    · intro h
      obtain ⟨r, hr⟩ := h
      exact ⟨r, by rw [hr, List.append_assoc]; rfl⟩
  rw [hp, eq_comm (a := path)]
  tauto

/-- What is listed of a pair depends on the entry at its string alone. -/
theorem report_list {self : MemoryStorage} (h : self.Filed) (q : Pair) (u : ValidScope) :
    (self.report q).2 u = .ok ((self.entries.lookup q.composite).toList.filter fun e =>
      q.Owns e && u.scope.isAncestorOf ⟨e.scope⟩) := by
  have hkey : ∀ x ∈ self.entries.entries,
      (decide (q.Owns x.2) && u.scope.isAncestorOf ⟨x.2.scope⟩) = true → x.1 = q.composite := by
    intro x hx ho
    simp only [Bool.and_eq_true, decide_eq_true_eq] at ho
    have hc := h x.1 x.2 (AList.mem_lookup_iff.mpr hx)
    rw [← hc, ho.1.1, ho.1.2]
    rfl
  have hl := filter_values self.entries q.composite
    (fun e => decide (q.Owns e) && u.scope.isAncestorOf ⟨e.scope⟩) hkey
  simp only [report, MemoryStorage.list, listed_iff]
  rw [← hl, ← List.filter_filter]
  rfl

/-- The entry at the string of a pair is what the map holds for the pair. -/
def Agrees (self : MemoryStorage) (q : Pair) (value : Option Bytes) : Prop :=
  match self.entries.lookup q.composite with
  | none => value = none
  | some e => q.Owns e ∧ value = some e.data

theorem Agrees.reports {self : MemoryStorage} {q : Pair} {value : Option Bytes}
    (h : self.Agrees q value) (hf : self.Filed) : self.Reports q value := by
  have hl := report_list hf q
  have hg : self.getByKey q.scope.scope.path q.key =
      okOr (self.entries.lookup q.composite) (notFound ⟨q.composite⟩) := rfl
  unfold Agrees at h
  cases he : self.entries.lookup q.composite with
  | none =>
    rw [he] at h hg
    subst h
    refine ⟨⟨_, hg⟩, fun u => ?_⟩
    rw [hl u, he]
    simp only [Option.toList_none, List.filter_nil, ite_self]
    rfl
  | some e =>
    rw [he] at h hg
    obtain ⟨ho, rfl⟩ := h
    refine ⟨⟨e, hg, ho, rfl⟩, fun u => ?_⟩
    have hs : (⟨e.scope⟩ : Scope) = q.scope.scope := Scope.ext ho.1
    rw [hl u, he]
    by_cases hu : u.scope.isAncestorOf q.scope.scope = true
    · simp [hs, hu, ho, Except.map]
    · simp [hs, hu, Except.map]

/-- The operations that are about a pair. -/
def Op.Concerns (q : Pair) : Op → Prop
  | .put _ p _ => p = q
  | .delete id => id.id = q.composite
  | .get _ | .getByKey _ | .list _ => False

/-- No other pair is put at the string of `q`. -/
def Op.Spares (q : Pair) : Op → Prop
  | .put _ p _ => p.composite = q.composite → p = q
  | .get _ | .getByKey _ | .list _ | .delete _ => True

/-- Operations about other pairs leave the entry of `q` alone. -/
lemma lookup_step {q : Pair} {op : Op} (hs : op.Spares q) (hc : ¬ op.Concerns q)
    (self : MemoryStorage) :
    (self.step op).entries.lookup q.composite = self.entries.lookup q.composite := by
  cases op with
  | put now p data =>
    have hne : q.composite ≠ p.composite := fun he => hc (hs he.symm)
    simp only [step, put]
    exact AList.lookup_insert_ne hne
  | delete id =>
    have hne : q.composite ≠ id.id := fun he => hc he.symm
    simp only [step, delete]
    cases self.entries.lookup id.id with
    | none => rfl
    | some _ => exact AList.lookup_erase_ne hne
  | get id => rfl
  | getByKey p => rfl
  | list u => rfl

lemma latest_of_not_concerns {q : Pair} {op : Op} (hc : ¬ op.Concerns q)
    (m : Pair → Option Bytes) : latest m op q = m q := by
  cases op with
  | put now p data => exact if_neg hc
  | delete id => exact if_neg hc
  | get id => rfl
  | getByKey p => rfl
  | list u => rfl

/-- The entry of a pair and the map of pairs change together. -/
theorem Agrees.step {self : MemoryStorage} {q : Pair} {m : Pair → Option Bytes}
    (h : self.Agrees q (m q)) {op : Op} (hs : op.Spares q) :
    (self.step op).Agrees q (latest m op q) := by
  by_cases hc : op.Concerns q
  · unfold Agrees
    cases op with
    | put now p data =>
      have hp : p = q := hc
      subst hp
      have hl : ((self.step (.put now p data)).entries.lookup p.composite) = some _ :=
        AList.lookup_insert _
      rw [hl]
      exact ⟨⟨rfl, rfl⟩, if_pos rfl⟩
    | delete id =>
      obtain ⟨i⟩ := id
      have hi : i = q.composite := hc
      subst hi
      have hl : (self.step (.delete ⟨q.composite⟩)).entries.lookup q.composite = none := by
        simp only [MemoryStorage.step, delete]
        cases hn : self.entries.lookup q.composite with
        | none => exact hn
        | some _ => exact AList.lookup_erase _ _
      rw [hl]
      exact if_pos rfl
    | get id => exact hc.elim
    | getByKey p => exact hc.elim
    | list u => exact hc.elim
  · unfold Agrees
    rw [lookup_step hs hc, latest_of_not_concerns hc]
    exact h

/-- After every run that spares the pair, the storage agrees with the map. -/
theorem agrees_run {ops : List Op} {q : Pair} (h : ∀ op ∈ ops, op.Spares q) :
    (Runs.run step new ops).Filed ∧
      (Runs.run step new ops).Agrees q (Runs.run latest (fun _ => none) ops q) := by
  apply Runs.run_simulation
    (fun (s : MemoryStorage) (m : Pair → Option Bytes) => s.Filed ∧ s.Agrees q (m q)) ops
  · intro op hop s m hsm
    exact ⟨hsm.1.step op, hsm.2.step (h op hop)⟩
  · exact ⟨filed_new, rfl⟩

/-- A storage that reports `q` rightly after a put at its string was put `q` itself. -/
theorem Reports.eq_of_put {self : MemoryStorage} {p q : Pair} {now : ℕ} {data : Bytes}
    {value : Option Bytes} (h : (self.step (.put now p data)).Reports q value)
    (hc : p.composite = q.composite) : p = q := by
  have hg := h.getByKey
  have hp : (self.step (.put now p data)).getByKey q.scope.scope.path q.key =
      okOr ((self.step (.put now p data)).entries.lookup p.composite)
        (notFound ⟨q.composite⟩) := by
    rw [hc]
    rfl
  have hl : (self.step (.put now p data)).entries.lookup p.composite = some _ :=
    AList.lookup_insert _
  rw [hp, hl] at hg
  cases value with
  | none =>
    obtain ⟨err, he⟩ := hg
    cases he
  | some d =>
    obtain ⟨e, he, ho, _⟩ := hg
    have hown : p.Owns e := by
      rw [← Except.ok.inj he]
      exact ⟨rfl, rfl⟩
    exact Pair.ext_of_owns hown ho

/-- Operations about other pairs leave the report of `q` alone. -/
theorem report_step {self : MemoryStorage} (hf : self.Filed) {q : Pair} {op : Op}
    (hs : op.Spares q) (hc : ¬ op.Concerns q) : (self.step op).report q = self.report q := by
  have hl := lookup_step hs hc self
  have hr := report_list (hf.step op) q
  simp only [hl, ← report_list hf q] at hr
  refine Prod.ext ?_ (funext hr)
  show okOr _ _ = okOr _ _
  rw [show compositeKey q.scope.scope.path q.key = q.composite from rfl, hl]

/-- For one pair the storage behaves as the map of pairs in every run, and is
untouched by the operations about other pairs, exactly when no other pair put in
the run spells the same string. -/
theorem refines_map_iff (ops : List Op) (q : Pair) :
    ((∀ before, before <+: ops →
        (Runs.run step new before).Reports q (Runs.run latest (fun _ => none) before q)) ∧
      ∀ before op, before ++ [op] <+: ops → ¬ op.Concerns q →
        (Runs.run step new (before ++ [op])).report q = (Runs.run step new before).report q) ↔
      ∀ now p data, .put now p data ∈ ops → p.composite = q.composite → p = q := by
  constructor
  · intro h now p data hm hc
    obtain ⟨s, _, before, hb, hs⟩ := Runs.exists_reached_of_mem step new hm
    have hput := h.1 before hb
    rw [hs] at hput
    exact hput.eq_of_put hc
  · intro h
    have hs : ∀ op ∈ ops, op.Spares q := by
      intro op hop
      cases op with
      | put now p data => exact h now p data hop
      | get id => trivial
      | getByKey p => trivial
      | list u => trivial
      | delete id => trivial
    constructor
    · intro before hb
      obtain ⟨hf, ha⟩ := agrees_run fun op hop => hs op (hb.subset hop)
      exact ha.reports hf
    · intro before op hb hc
      have hop : op ∈ ops := hb.subset (by simp)
      have hpre : before <+: ops := (List.prefix_append before [op]).trans hb
      obtain ⟨hf, _⟩ := agrees_run fun o ho => hs o (hpre.subset ho)
      rw [Runs.run_concat]
      exact report_step hf (hs op hop) hc

/-- The key `b/c` at `/a` and the key `c` at `/a/b` are filed under one string. -/
theorem put_replaces_other_pair :
    ∃ p q : Pair, p ≠ q ∧
      Runs.run latest (fun _ => none) [.put 0 p [1], .put 1 q [2]] p = some [1] ∧
      ∃ e, (Runs.run step new [.put 0 p [1], .put 1 q [2]]).getByKey p.scope.scope.path p.key =
          .ok e ∧ e.data = [2] ∧ e.scope ≠ p.scope.scope.path ∧ e.key ≠ p.key :=
  ⟨⟨.ofValid ⟨['/', 'a']⟩ (by decide), ['b', '/', 'c']⟩,
    ⟨.ofValid ⟨['/', 'a', '/', 'b']⟩ (by decide), ['c']⟩,
    by decide, by decide, _, rfl, rfl, by decide, by decide⟩

/-- Keys without a slash never meet. -/
theorem Pair.eq_of_composite_eq {p q : Pair} (hp : '/' ∉ p.key) (hq : '/' ∉ q.key)
    (h : p.composite = q.composite) : p = q := by
  obtain ⟨hscope, hkey⟩ := append_cons_inj_of_notMem_right hp hq h
  exact Pair.ext (ValidScope.ext (Scope.ext hscope)) hkey

end MemoryStorage

end ReadOnlyKeys
