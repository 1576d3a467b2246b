import ReadOnlyKeys.Keys
import ReadOnlyKeys.Storage
import ReadOnlyKeys.Transparent
import ReadOnlyKeys.Lib.Base64
import ReadOnlyKeys.Lib.Requests

/-!
# The Fileverse storage

A memory is a document titled with its scope and key. The backend is a client of
a document server that other clients use too. Each of its operations is a few
requests, and any of them may fail.
-/
namespace ReadOnlyKeys
open Outcome Wire Requests

/-- The base64 crate's standard engine. The text of a decoding error is its own. -/
structure Base64Engine where
  encode : Bytes → List Char
  decode : List Char → Except String Bytes
  decode_encode : ∀ data, decode (encode data) = .ok data

/-- A document as the server sends it. -/
structure DDoc where
  ddocId : List Char
  title : List Char
  content : List Char
  createdAt : List Char
  updatedAt : List Char
  deriving DecidableEq

namespace FileverseBackend

/-- `str::parse::<u64>`. -/
def parseU64 (s : List Char) : Option ℕ :=
  let digits := if s.head? = some '+' then s.tail else s
  let n := digits.foldl (fun n c => 10 * n + (c.toNat - 48)) 0
  if digits ≠ [] ∧ digits.all Char.isDigit ∧ n < 2 ^ 64 then some n else none

def parseTimestamp (s : List Char) : ℕ := (parseU64 s).getD 0

def mapErr (e : String) : RokError := .storageError s!"fileverse HTTP error: {e}"

def title (scope key : List Char) : List Char := ['r', 'o', 'k', ':'] ++ (scope ++ ':' :: key)

/-- Parse title "rok:{scope}:{key}" into (scope, key). -/
def parseTitle (title : List Char) : Result (Option (List Char × List Char)) :=
  match title.dropPrefix? ['r', 'o', 'k', ':'] with
  | none => return none
  | some rest =>
    match rfind ':' rest with
    | none => return none
    | some colonPos => do
      let scope ← sliceTo rest colonPos
      let key ← sliceFrom rest (colonPos + 1)
      return if scope = [] ∨ key = [] then none else some (scope, key)

def ddocToEntry (base64 : Base64Engine) (doc : DDoc) : Result StorageEntry := do
  let data ← Outcome.mapErr (base64.decode doc.content) fun e =>
    .storageError s!"base64 decode: {e}"
  let (scope, key) := (← parseTitle doc.title).getD ("unknown".toList, doc.ddocId)
  return {
    id := ⟨doc.ddocId⟩
    scope := scope
    key := key
    data := data
    createdAt := parseTimestamp doc.createdAt
    updatedAt := parseTimestamp doc.updatedAt }

/-- The requests to the server, each by its method and path. -/
inductive Request where
  /-- `GET /api/search`. -/
  | search (query : List Char) (limit : Option ℕ)
  /-- `POST /api/ddocs`. -/
  | create (title content : List Char)
  /-- `PUT /api/ddocs/{id}`. -/
  | update (id title content : List Char)
  /-- `GET /api/ddocs/{id}`. -/
  | fetch (id : List Char)
  /-- `GET /api/ddocs`. -/
  | browse (limit : ℕ)
  /-- `DELETE /api/ddocs/{id}`. -/
  | delete (id : List Char)

/-- What the body of a successful response says. -/
abbrev Body : Request → Type
  | .search _ _ | .browse _ => List DDoc
  | .create _ _ => List Char
  | .fetch _ => DDoc
  | .update _ _ _ | .delete _ => Unit

/-- A request is not answered, or answered with a status that is no success, or with a body
that is JSON of the expected form or not. -/
inductive Response (β : Type) where
  | sendError (e : String)
  | status (status text : String)
  | success (json : Except String β)

abbrev Reply (q : Request) := Response (Body q)

/-- A call of the backend, as the requests it sends. -/
abbrev Http := ExceptT (Fault RokError) (Dialog Reply)

def send (q : Request) : Http (Reply q) := ExceptT.lift (Dialog.request q)

/-- The body of a successful response. -/
def checked {β : Type} (action : String) : Response β → Result (Except String β)
  | .sendError e => fail (mapErr e)
  | .status status text => fail (.storageError s!"fileverse {action} failed ({status}): {text}")
  | .success json => .ok json

/-- The value in the body of a successful response. -/
def parsed {β : Type} (action : String) (response : Response β) : Result β := do
  Outcome.mapErr (← checked action response) mapErr

/-- The document that a search for a title found. -/
def found (base64 : Base64Engine) (scope key : List Char) (response : Response (List DDoc)) :
    Result StorageEntry := do
  let nodes ← parsed "search" response
  let doc ← okOr (nodes.find? fun d => d.title = title scope key)
    (.storageError s!"not found: {String.ofList scope}:{String.ofList key}")
  ddocToEntry base64 doc

def getByKey (base64 : Base64Engine) (scope key : List Char) : Http StorageEntry := do
  let response ← send (.search (title scope key) none)
  found base64 scope key response

/-- Update an existing document. -/
def updateDoc (id : StorageId) (title content : List Char) : Http StorageId := do
  let response ← send (.update id.id title content)
  -- the body is not read
  let _ ← checked "PUT update" response
  return id

/-- Create a new document. -/
def createDoc (title content : List Char) : Http StorageId := do
  let response ← send (.create title content)
  return ⟨← parsed "PUT create" response⟩

def put (base64 : Base64Engine) (scope key : List Char) (data : Bytes) : Http StorageId := do
  let encoded := base64.encode data
  match ← ok? (← ExceptT.lift (getByKey base64 scope key).run) with
  | some existing => updateDoc existing.id (title scope key) encoded
  | none => createDoc (title scope key) encoded

def get (base64 : Base64Engine) (id : StorageId) : Http StorageEntry := do
  let response ← send (.fetch id.id)
  ddocToEntry base64 (← parsed "GET" response)

/-- The entry of a document whose scope is the prefix or below it, if its content decodes. -/
def listedEntry (base64 : Base64Engine) (scopePrefix : List Char) (doc : DDoc) :
    Result (Option StorageEntry) := do
  match ← parseTitle doc.title with
  | some (scope, _) =>
    if scope = scopePrefix || (scopePrefix ++ ['/']).isPrefixOf scope || scopePrefix = ['/'] then
      ok? (ddocToEntry base64 doc)
    else return none
  | none => return none

/-- The loop over the documents of a reply. -/
def listed (base64 : Base64Engine) (scopePrefix : List Char) (docs : List DDoc) :
    Result (List StorageEntry) := do
  return (← docs.mapM (listedEntry base64 scopePrefix)).reduceOption

/-- Fallback: list all documents and filter by scope prefix. -/
def listAllAndFilter (base64 : Base64Engine) (scopePrefix : List Char) :
    Http (List StorageEntry) := do
  let response ← send (.browse 1000)
  listed base64 scopePrefix (← parsed "list" response)

def list (base64 : Base64Engine) (scopePrefix : List Char) : Http (List StorageEntry) := do
  match ← send (.search (['r', 'o', 'k', ':'] ++ scopePrefix) (some 1000)) with
  | .sendError e => throw (.err (mapErr e))
  | .status _ _ => listAllAndFilter base64 scopePrefix
  | .success json => do
    let docs ← Outcome.mapErr json mapErr
    listed base64 scopePrefix docs

def delete (id : StorageId) : Http Unit := do
  let response ← send (.delete id.id)
  let _ ← checked "DELETE" response
  return ()

section Programs

theorem run_send_bind {α : Type} (q : Request) (f : Reply q → Http α) :
    (send q >>= f).run = .ask q fun response => (f response).run := rfl

theorem run_updateDoc (id : StorageId) (title content : List Char) :
    (updateDoc id title content).run = .ask (.update id.id title content) fun response =>
      .done ((checked "PUT update" response).map fun _ => id) := by
  rw [updateDoc, run_send_bind]
  congr 1
  funext response
  cases checked "PUT update" response <;> rfl

theorem run_createDoc (title content : List Char) :
    (createDoc title content).run = .ask (.create title content) fun response =>
      .done ((parsed "PUT create" response).map StorageId.mk) := by
  rw [createDoc, run_send_bind]
  congr 1
  funext response
  cases parsed "PUT create" response <;> rfl

/-- How `put` goes on from the reply to its search. -/
def afterSearch (base64 : Base64Engine) (scope key : List Char) (data : Bytes)
    (response : Response (List DDoc)) : Dialog Reply (Result StorageId) :=
  match ok? (found base64 scope key response) with
  | .ok (some existing) => (updateDoc existing.id (title scope key) (base64.encode data)).run
  | .ok none => (createDoc (title scope key) (base64.encode data)).run
  | .error f => .done (.error f)

theorem run_put (base64 : Base64Engine) (scope key : List Char) (data : Bytes) :
    (put base64 scope key data).run =
      .ask (.search (title scope key) none) (afterSearch base64 scope key data) := by
  have hlift : (ExceptT.lift (getByKey base64 scope key).run : Http (Result StorageEntry)) =
      send (.search (title scope key) none) >>= fun response =>
        pure (found base64 scope key response) := rfl
  rw [put, hlift, bind_assoc, run_send_bind]
  congr 1
  funext response
  rw [pure_bind, afterSearch]
  cases found base64 scope key response with
  | ok existing => rfl
  | error f => cases f <;> rfl

theorem run_list (base64 : Base64Engine) (scopePrefix : List Char) :
    (list base64 scopePrefix).run =
      .ask (.search (['r', 'o', 'k', ':'] ++ scopePrefix) (some 1000)) fun response =>
        match response with
        | .sendError e => .done (fail (mapErr e))
        | .status _ _ => (listAllAndFilter base64 scopePrefix).run
        | .success json => .done (Outcome.mapErr json mapErr >>= listed base64 scopePrefix) := by
  rw [list, run_send_bind]
  congr 1
  funext response
  cases response with
  | sendError e => rfl
  | status status text => rfl
  | success json => cases json <;> rfl

end Programs

/-!
## Titles
-/

/-- A title is split at its last colon. -/
theorem parseTitle_title (scope : List Char) {key : List Char} (h : ':' ∉ key) :
    parseTitle (title scope key) =
      .ok (if scope = [] ∨ key = [] then none else some (scope, key)) := by
  have hprefix : (title scope key).dropPrefix? ['r', 'o', 'k', ':'] = some (scope ++ ':' :: key) :=
    List.dropPrefix?_eq_some_iff.mpr ⟨['r', 'o', 'k', ':'], rfl, by decide⟩
  have hafter : (toUtf8 scope).length + 1 = (toUtf8 (scope ++ [':'])).length := by
    rw [toUtf8_append, List.length_append]
    rfl
  have hsplit : scope ++ ':' :: key = (scope ++ [':']) ++ key := by simp
  simp only [parseTitle, hprefix, rfind_append_cons ':' scope key h, sliceTo_append, ok_bind]
  rw [hafter, hsplit, sliceFrom_append]
  rfl

/-- Parsing a title never panics: it has the form of a title or it is none. -/
theorem parseTitle_cases (t : List Char) :
    parseTitle t = .ok none ∨
      ∃ scope key, t = title scope key ∧ ':' ∉ key ∧ scope ≠ [] ∧ key ≠ [] ∧
        parseTitle t = .ok (some (scope, key)) := by
  cases hprefix : t.dropPrefix? ['r', 'o', 'k', ':'] with
  | none =>
    left
    simp only [parseTitle, hprefix]
    rfl
  | some rest =>
    obtain ⟨start, ht, hstart⟩ := List.dropPrefix?_eq_some_iff.mp hprefix
    rw [beq_iff_eq.mp hstart] at ht
    by_cases hc : ':' ∈ rest
    · obtain ⟨scope, key, rfl, hkey⟩ := exists_last_of_mem hc
      have hp := parseTitle_title scope hkey
      rw [title, ← ht] at hp
      by_cases hempty : scope = [] ∨ key = []
      · rw [if_pos hempty] at hp
        exact .inl hp
      · rw [if_neg hempty] at hp
        rw [not_or] at hempty
        exact .inr ⟨scope, key, ht, hkey, hempty.1, hempty.2, hp⟩
    · left
      simp only [parseTitle, hprefix, rfind_eq_none hc]
      rfl

theorem parseTitle_eq_some_iff (t scope key : List Char) :
    parseTitle t = .ok (some (scope, key)) ↔
      t = title scope key ∧ ':' ∉ key ∧ scope ≠ [] ∧ key ≠ [] := by
  constructor
  · intro h
    rcases parseTitle_cases t with hn | ⟨scope', key', ht, hkey, hs, hk, hp⟩
    · rw [hn] at h
      cases h
    · rw [hp] at h
      obtain ⟨rfl, rfl⟩ := Prod.mk.inj (Option.some.inj (Except.ok.inj h))
      exact ⟨ht, hkey, hs, hk⟩
  · rintro ⟨rfl, hkey, hs, hk⟩
    rw [parseTitle_title scope hkey, if_neg (not_or.mpr ⟨hs, hk⟩)]

theorem exists_parseTitle (t : List Char) : ∃ o, parseTitle t = .ok o := by
  rcases parseTitle_cases t with h | ⟨_, _, _, _, _, _, h⟩
  · exact ⟨_, h⟩
  · exact ⟨_, h⟩

section Entries
variable {base64 : Base64Engine} {doc : DDoc} {data : Bytes}

theorem ddocToEntry_of_parse {o : Option (List Char × List Char)}
    (hd : base64.decode doc.content = .ok data) (ho : parseTitle doc.title = .ok o) :
    ddocToEntry base64 doc = .ok
      { id := ⟨doc.ddocId⟩
        scope := (o.getD ("unknown".toList, doc.ddocId)).1
        key := (o.getD ("unknown".toList, doc.ddocId)).2
        data := data
        createdAt := parseTimestamp doc.createdAt
        updatedAt := parseTimestamp doc.updatedAt } := by
  simp only [ddocToEntry, hd, ho]
  rfl

theorem ddocToEntry_of_undecoded {e : String} (hd : base64.decode doc.content = .error e) :
    ddocToEntry base64 doc = fail (.storageError s!"base64 decode: {e}") := by
  simp only [ddocToEntry, hd]
  rfl

/-- The data of a document depends on its content alone. -/
theorem exists_ddocToEntry (hd : base64.decode doc.content = .ok data) :
    ∃ e, ddocToEntry base64 doc = .ok e ∧ e.id = ⟨doc.ddocId⟩ ∧ e.data = data := by
  obtain ⟨o, ho⟩ := exists_parseTitle doc.title
  exact ⟨_, ddocToEntry_of_parse hd ho, rfl, rfl⟩

theorem exists_ok?_ddocToEntry (base64 : Base64Engine) (doc : DDoc) :
    ∃ o, ok? (ddocToEntry base64 doc) = .ok o := by
  cases hd : base64.decode doc.content with
  | error e => exact ⟨none, by rw [ddocToEntry_of_undecoded hd]; rfl⟩
  | ok data =>
    obtain ⟨e, he, _⟩ := exists_ddocToEntry hd
    exact ⟨some e, by rw [he]; rfl⟩

theorem exists_listedEntry (base64 : Base64Engine) (scopePrefix : List Char) (doc : DDoc) :
    ∃ o, listedEntry base64 scopePrefix doc = .ok o := by
  obtain ⟨o, ho⟩ := exists_parseTitle doc.title
  simp only [listedEntry, ho, ok_bind]
  cases o with
  | none => exact ⟨none, rfl⟩
  | some pair =>
    dsimp only
    split_ifs
    · exact exists_ok?_ddocToEntry base64 doc
    · exact ⟨none, rfl⟩

/-- A listing treats every document by itself and never fails. -/
theorem listed_eq (base64 : Base64Engine) (scopePrefix : List Char) :
    ∃ entry : DDoc → Option StorageEntry,
      (∀ doc, listedEntry base64 scopePrefix doc = .ok (entry doc)) ∧
        ∀ docs, listed base64 scopePrefix docs = .ok (docs.filterMap entry) := by
  choose entry hentry using exists_listedEntry base64 scopePrefix
  refine ⟨entry, hentry, fun docs => ?_⟩
  rw [listed, mapM_eq_ok fun doc _ => hentry doc, ok_bind]
  show Except.ok ((docs.map entry).filterMap id) = _
  rw [List.filterMap_map]
  rfl

/-- A document is listed at the scope of its title. -/
theorem listedEntry_title {scope key : List Char} (hd : base64.decode doc.content = .ok data)
    (ht : parseTitle doc.title = .ok (some (scope, key))) (u : Scope) :
    listedEntry base64 u.path doc = .ok (if u.isAncestorOf ⟨scope⟩ then
      some { id := ⟨doc.ddocId⟩
             scope := scope
             key := key
             data := data
             createdAt := parseTimestamp doc.createdAt
             updatedAt := parseTimestamp doc.updatedAt } else none) := by
  simp only [listedEntry, ht, ok_bind, MemoryStorage.listed_iff, ddocToEntry_of_parse hd ht]
  split_ifs <;> rfl

end Entries

/-- The server sends the documents for a listing: it finds them, or it cannot search and has
no others. -/
def Sends (replies : (q : Request) → Reply q) (scopePrefix : List Char)
    (docs : List DDoc) : Prop :=
  let query := ['r', 'o', 'k', ':'] ++ scopePrefix
  replies (.search query (some 1000)) = .success (.ok docs) ∨
    (∃ status text, replies (.search query (some 1000)) = .status status text) ∧
      replies (.browse 1000) = .success (.ok docs)

theorem list_sends {base64 : Base64Engine} {scopePrefix : List Char} {docs : List DDoc}
    {replies : (q : Request) → Reply q} (h : Sends replies scopePrefix docs) :
    (list base64 scopePrefix).run.answeredBy replies = listed base64 scopePrefix docs := by
  rw [run_list, Dialog.answeredBy]
  rcases h with h | ⟨⟨status, text, h⟩, hb⟩
  · rw [h]
    rfl
  · rw [h]
    show (listAllAndFilter base64 scopePrefix).run.answeredBy replies = _
    rw [listAllAndFilter, run_send_bind, Dialog.answeredBy, hb]
    rfl

/-- The title of a pair parses to the pair, and listings have its documents at the prefixes
that are its scope or an ancestor, under the pair. -/
structure ReadsBack (base64 : Base64Engine) (scope : Scope) (key : List Char) : Prop where
  parse : parseTitle (title scope.path key) = .ok (some (scope.path, key))
  listing : ∀ (doc : DDoc) (data : Bytes), doc.title = title scope.path key →
    base64.decode doc.content = .ok data → ∀ (u : Scope) (before after : List DDoc),
      ∃ es es', listed base64 u.path before = .ok es ∧ listed base64 u.path after = .ok es' ∧
        ∀ replies, Sends replies u.path (before ++ doc :: after) →
          (list base64 u.path).run.answeredBy replies = .ok (es ++
            (if u.isAncestorOf scope then
              [{ id := ⟨doc.ddocId⟩
                 scope := scope.path
                 key := key
                 data := data
                 createdAt := parseTimestamp doc.createdAt
                 updatedAt := parseTimestamp doc.updatedAt }] else []) ++ es')

/-- A title reads back exactly when the key has no colon. -/
theorem readsBack_iff (base64 : Base64Engine) (scope : ValidScope) (key : List Char)
    (hkey : key ≠ []) : ReadsBack base64 scope.scope key ↔ ':' ∉ key := by
  constructor
  · intro h
    exact ((parseTitle_eq_some_iff _ _ _).mp h.parse).2.1
  · intro hc
    have hparse := (parseTitle_eq_some_iff _ _ _).mpr
      ⟨rfl, hc, scope.valid.sliceable.path_ne_nil, hkey⟩
    refine ⟨hparse, fun doc data ht hd u before after => ?_⟩
    obtain ⟨entry, hentry, hlisted⟩ := listed_eq base64 u.path
    refine ⟨_, _, hlisted before, hlisted after, fun replies hreplies => ?_⟩
    have hdoc := hentry doc
    rw [listedEntry_title hd (ht ▸ hparse)] at hdoc
    rw [list_sends hreplies, hlisted, List.filterMap_append, List.filterMap_cons,
      ← Except.ok.inj hdoc]
    split_ifs with hu
    · simp
    · simp

/-- The engine of the base64 crate, but for the texts of its errors. -/
def standard : Base64Engine where
  encode := Base64.encode
  decode s := (Base64.decode s).elim (.error "Invalid input") .ok
  decode_encode data := by rw [Base64.decode_encode]; rfl

/-- The key `report` at `/finance`. -/
theorem readsBack_iff_report : ReadsBack standard ⟨['/', 'f', 'i', 'n', 'a', 'n', 'c', 'e']⟩
    ['r', 'e', 'p', 'o', 'r', 't'] :=
  (readsBack_iff standard (.ofValid ⟨['/', 'f', 'i', 'n', 'a', 'n', 'c', 'e']⟩ (by decide))
    ['r', 'e', 'p', 'o', 'r', 't'] (by decide)).mpr (by decide)

/-- The key `a:b` at `/finance` is read back as the key `b` at a scope that is none, and is not
listed at `/finance`. -/
theorem colon_key_not_readsBack :
    parseTitle (title ['/', 'f', 'i', 'n', 'a', 'n', 'c', 'e'] ['a', ':', 'b']) =
      .ok (some (['/', 'f', 'i', 'n', 'a', 'n', 'c', 'e', ':', 'a'], ['b'])) ∧
    ¬ Scope.Valid ⟨['/', 'f', 'i', 'n', 'a', 'n', 'c', 'e', ':', 'a']⟩ ∧
    listed standard ['/', 'f', 'i', 'n', 'a', 'n', 'c', 'e']
      [⟨['1'], title ['/', 'f', 'i', 'n', 'a', 'n', 'c', 'e'] ['a', ':', 'b'],
        ['A', 'Q', '=', '='], [], []⟩] = .ok [] ∧
    ¬ ReadsBack standard ⟨['/', 'f', 'i', 'n', 'a', 'n', 'c', 'e']⟩ ['a', ':', 'b'] := by
  have hparse : parseTitle (title ['/', 'f', 'i', 'n', 'a', 'n', 'c', 'e'] ['a', ':', 'b']) =
      .ok (some (['/', 'f', 'i', 'n', 'a', 'n', 'c', 'e', ':', 'a'], ['b'])) := by
    decide +kernel
  refine ⟨hparse, by decide +kernel, by decide +kernel, fun h => ?_⟩
  have hp := h.parse
  rw [hparse] at hp
  exact absurd hp (by decide)

/-- The entry of a document at a scope that passes a test, if its content decodes. -/
def entryAt (base64 : Base64Engine) (test : Scope → Bool) (doc : DDoc) : Option StorageEntry :=
  match parseTitle doc.title with
  | .ok (some (scope, _)) => if test ⟨scope⟩ then (ddocToEntry base64 doc).toOption else none
  | _ => none

/-- The test of a listing is access. -/
theorem listed_eq_entryAt (base64 : Base64Engine) (u : Scope) (docs : List DDoc) :
    listed base64 u.path docs = .ok (docs.filterMap (entryAt base64 u.isAncestorOf)) := by
  obtain ⟨entry, hentry, hlisted⟩ := listed_eq base64 u.path
  have heq : ∀ doc, entry doc = entryAt base64 u.isAncestorOf doc := by
    intro doc
    have hdoc := hentry doc
    obtain ⟨o, ho⟩ := exists_parseTitle doc.title
    simp only [listedEntry, ho, ok_bind] at hdoc
    rw [entryAt, ho]
    cases o with
    | none => exact (Except.ok.inj hdoc).symm
    | some pair =>
      obtain ⟨scope, key⟩ := pair
      simp only [MemoryStorage.listed_iff] at hdoc ⊢
      split_ifs at hdoc ⊢
      · cases hd : ddocToEntry base64 doc with
        | ok e =>
          rw [hd] at hdoc
          exact (Except.ok.inj hdoc).symm
        | error f =>
          rw [hd] at hdoc
          cases f with
          | err e => exact (Except.ok.inj hdoc).symm
          | panic => cases hdoc
      · exact (Except.ok.inj hdoc).symm
  rw [hlisted, funext heq]

end FileverseBackend

/-- The listings of the storages select by access: their test on paths is ancestry, and at the
scope of a key each returns the entries that the key can access, once each. -/
theorem listings_select_accessible {A : ℕ → Type} [ByteArrays A] {C : Crypto A}
    (k : ReadKeyPair C) :
    (∀ p s : ValidScope,
      (s.scope.path = p.scope.path || (p.scope.path ++ ['/']).isPrefixOf s.scope.path ||
        p.scope.path = ['/']) = true ↔ p.scope.isAncestorOf s.scope = true) ∧
    (∀ self : MemoryStorage, ∃ es : List (Σ _ : List Char, StorageEntry), es.Nodup ∧
      self.list k.scope.path = .ok (es.map Sigma.snd) ∧
      ∀ x, x ∈ es ↔ x ∈ self.entries.entries ∧ k.canAccess ⟨x.2.scope⟩ = true) ∧
    ∀ (base64 : Base64Engine) (docs : List DDoc)
      (replies : (q : FileverseBackend.Request) → FileverseBackend.Reply q),
      (FileverseBackend.Sends replies k.scope.path docs →
        (FileverseBackend.list base64 k.scope.path).run.answeredBy replies =
          .ok (docs.filterMap (FileverseBackend.entryAt base64 k.canAccess))) ∧
      (replies (.browse 1000) = .success (.ok docs) →
        (FileverseBackend.listAllAndFilter base64 k.scope.path).run.answeredBy replies =
          .ok (docs.filterMap (FileverseBackend.entryAt base64 k.canAccess))) := by
  refine ⟨fun p s => ?_, fun self => ?_, fun base64 docs replies => ⟨fun h => ?_, fun h => ?_⟩⟩
  · rw [MemoryStorage.listed_iff]
  · refine ⟨self.entries.entries.filter fun x => k.canAccess ⟨x.2.scope⟩, ?_, ?_, fun x => ?_⟩
    · exact (List.NodupKeys.nodup self.entries.nodupKeys).filter _
    · simp only [MemoryStorage.list, MemoryStorage.listed_iff]
      rw [List.filter_map]
      rfl
    · rw [List.mem_filter]
  · rw [FileverseBackend.list_sends h]
    exact FileverseBackend.listed_eq_entryAt base64 k.scope docs
  · rw [FileverseBackend.listAllAndFilter, FileverseBackend.run_send_bind, Dialog.answeredBy, h]
    exact FileverseBackend.listed_eq_entryAt base64 k.scope docs

/-- A document at `/a` and one at a scope whose name only starts like it. -/
def siblingDocs : List DDoc :=
  [⟨['1'], FileverseBackend.title ['/', 'a'] ['x'], ['A', 'Q', '=', '='], [], []⟩,
    ⟨['2'], FileverseBackend.title ['/', 'a', 'b'] ['y'], ['A', 'g', '=', '='], [], []⟩]

/-- A server that finds both. -/
def siblingReplies : (q : FileverseBackend.Request) → FileverseBackend.Reply q
  | .search _ _ | .browse _ => .success (.ok siblingDocs)
  | .create _ _ | .update _ _ _ | .fetch _ | .delete _ => .sendError "read only"

theorem listings_select_accessible_siblings :
    (FileverseBackend.list FileverseBackend.standard ['/', 'a']).run.answeredBy siblingReplies =
        .ok [⟨⟨['1']⟩, ['/', 'a'], ['x'], [1], 0, 0⟩] ∧
      (FileverseBackend.listAllAndFilter FileverseBackend.standard ['/', 'a']).run.answeredBy
        siblingReplies = .ok [⟨⟨['1']⟩, ['/', 'a'], ['x'], [1], 0, 0⟩] := by
  have h := (listings_select_accessible (.fromSecretBytes Transparent.arrays (zeros 32)
    ⟨['/', 'a']⟩ none)).2.2 FileverseBackend.standard siblingDocs siblingReplies
  have hentries : siblingDocs.filterMap (FileverseBackend.entryAt FileverseBackend.standard
      (Scope.isAncestorOf ⟨['/', 'a']⟩)) = [⟨⟨['1']⟩, ['/', 'a'], ['x'], [1], 0, 0⟩] := by
    decide +kernel
  exact ⟨(h.1 (.inl rfl)).trans (congrArg Except.ok hentries),
    (h.2 rfl).trans (congrArg Except.ok hentries)⟩

end ReadOnlyKeys
