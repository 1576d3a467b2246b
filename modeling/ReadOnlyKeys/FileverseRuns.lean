import ReadOnlyKeys.Fileverse
import Mathlib.Algebra.Order.BigOperators.Group.List

/-!
# Clients of one Fileverse server

Several clients put memories at once and any request may fail. A put searches
and then writes, so it may miss a document, or write what another put has
superseded. Where neither happens, one document carries each title and holds
what was put last.
-/
namespace ReadOnlyKeys
open Outcome Wire Requests
namespace FileverseBackend

/-- What a server does of its own. Documents are kept in the order they were created. -/
structure DocumentServer where
  hits : (query : List Char) → DDoc → Bool
  hits_title : ∀ doc, hits doc.title doc = true
  freshId : List DDoc → List Char
  freshId_notMem : ∀ docs, freshId docs ∉ docs.map DDoc.ddocId

/-- The reason a client has no answer. -/
inductive Failure where
  | sendError (e : String)
  | status (status text : String)

def Failure.response {β : Type} : Failure → Response β
  | sendError e => .sendError e
  | status s text => .status s text

def Response.garble {β : Type} (e : String) : Response β → Response β
  | .success _ => .success (.error e)
  | .sendError e => .sendError e
  | .status s text => .status s text

/-- What becomes of a request: it is answered, fails without effect, or has its effect and
then the client gets no answer or one it cannot parse. -/
inductive Fate where
  | answered
  | refused (why : Failure)
  | lost (why : Failure)
  | garbled (e : String)

instance : DecidablePred fun fate : Fate => fate = .answered
  | .answered => .isTrue rfl
  | .refused _ | .lost _ | .garbled _ => .isFalse (by intro h; cases h)

/-- The time at the server, and what becomes of the request served then. -/
structure Turn where
  now : List Char
  fate : Fate

/-- The document after an update of the one with this id. -/
def updated (id title content now : List Char) (doc : DDoc) : DDoc :=
  if doc.ddocId = id then { doc with title := title, content := content, updatedAt := now }
  else doc

namespace DocumentServer
variable (server : DocumentServer)

def answer (now : List Char) : (q : Request) → List DDoc → Reply q × List DDoc
  | .search query limit, docs =>
    let nodes := docs.filter (server.hits query)
    (.success (.ok (limit.elim nodes nodes.take)), docs)
  | .create title content, docs =>
    let id := server.freshId docs
    (.success (.ok id), docs ++ [⟨id, title, content, now, now⟩])
  | .update id title content, docs =>
    if id ∈ docs.map DDoc.ddocId then
      (.success (.ok ()), docs.map (updated id title content now))
    else (.status "404 Not Found" "", docs)
  | .fetch id, docs =>
    let doc := docs.find? fun doc => doc.ddocId = id
    (doc.elim (.status "404 Not Found" "") fun doc => .success (.ok doc), docs)
  | .browse limit, docs => (.success (.ok (docs.take limit)), docs)
  | .delete id, docs =>
    if id ∈ docs.map DDoc.ddocId then
      (.success (.ok ()), docs.filter fun doc => doc.ddocId ≠ id)
    else (.status "404 Not Found" "", docs)

def serve (turn : Turn) (q : Request) (docs : List DDoc) : Reply q × List DDoc :=
  let answered := server.answer turn.now q docs
  match turn.fate with
  | .answered => answered
  | .refused why => (why.response, docs)
  | .lost why => (why.response, answered.2)
  | .garbled e => (answered.1.garble e, answered.2)

end DocumentServer

/-- The documents that carry a title. -/
def carrying (title : List Char) (docs : List DDoc) : List DDoc :=
  docs.filter fun doc => doc.title = title

/-- A call of `put`. -/
structure PutCall where
  scope : List Char
  key : List Char
  data : Bytes

def PutCall.title (op : PutCall) : List Char := FileverseBackend.title op.scope op.key

def PutCall.program (base64 : Base64Engine) (op : PutCall) :
    Dialog Reply (Result StorageId) :=
  (put base64 op.scope op.key op.data).run

/-- A server with the `put` calls of its clients. -/
abbrev Puts := System Reply PutCall (Result StorageId) (List DDoc)

abbrev PutInFlight := Call Reply PutCall (Result StorageId)

/-- Two calls put the same memory. -/
def PutCall.SamePair (a b : PutCall) : Prop := a.scope = b.scope ∧ a.key = b.key

instance (a b : PutCall) : Decidable (a.SamePair b) := inferInstanceAs (Decidable (_ ∧ _))

/-- At valid scopes a title belongs to one pair, since no valid scope has a colon. -/
theorem samePair_of_title_eq {a b : PutCall} (ha : Scope.Valid ⟨a.scope⟩)
    (hb : Scope.Valid ⟨b.scope⟩) (h : a.title = b.title) : a.SamePair b := by
  have hcolon : ∀ path : List Char, Scope.Valid ⟨path⟩ → ':' ∉ path := by
    intro path hv hmem
    obtain ⟨r, rfl⟩ := hv.exists_cons
    rcases List.mem_cons.mp hmem with hc | hc
    · cases hc
    · exact absurd (hv.chars ':' hc) (by decide)
  exact append_cons_inj_of_notMem (hcolon a.scope ha) (hcolon b.scope hb)
    (List.append_cancel_left h)

def Request.isCreate : Request → Bool
  | .create _ _ => true
  | _ => false

/-- The call is about to create a document. -/
def Creates (c : PutInFlight) : Prop :=
  c.rest.request?.any Request.isCreate = true

/-- The call has returned `Ok`. -/
def Succeeded (c : PutInFlight) : Prop :=
  c.rest.value?.any Except.isOk = true

instance : DecidablePred Creates := fun _ => inferInstanceAs (Decidable (_ = true))

instance : DecidablePred Succeeded := fun _ => inferInstanceAs (Decidable (_ = true))

/-- A search sees the document with the title if there is one, and otherwise no other put is about
to create one. An update does not reach a document in which a put that began later has
succeeded. -/
def MayServe (base64 : Base64Engine) (s : Puts) (i : ℕ) (turn : Turn) (op : PutCall) :
    Request → Prop
  | .search _ _ =>
    (∀ doc ∈ s.server, doc.title = op.title →
      turn.fate = .answered ∧ (base64.decode doc.content).isOk = true) ∧
    ((∀ doc ∈ s.server, doc.title ≠ op.title) →
      ∀ c ∈ s.calls, c.op.title = op.title → ¬ Creates c)
  | .update _ _ _ => ∀ c ∈ s.calls.drop (i + 1), c.op.title = op.title → ¬ Succeeded c
  | _ => True

instance (base64 : Base64Engine) (s : Puts) (i : ℕ) (turn : Turn) (op : PutCall) :
    DecidablePred (MayServe base64 s i turn op)
  | .search _ _ => inferInstanceAs (Decidable (_ ∧ (_ → _)))
  | .update _ _ _ => inferInstanceAs (Decidable (∀ _ ∈ _, _))
  | .create _ _ | .fetch _ | .browse _ | .delete _ => .isTrue trivial

/-- No call begins on the title of another pair, and each request is served when it may be. -/
def Orderly (base64 : Base64Engine) (s : Puts) : Event PutCall Turn → Prop
  | .start op => ∀ b ∈ s.ops, b.title = op.title → b.SamePair op
  | .serve i turn => ∀ p ∈ s.pending i, MayServe base64 s i turn p.1 p.2

instance (base64 : Base64Engine) (s : Puts) : DecidablePred (Orderly base64 s)
  | .start _ => inferInstanceAs (Decidable (∀ _ ∈ _, _ → _))
  | .serve _ _ => inferInstanceAs (Decidable (∀ _ ∈ _, _))

/-!
## What a request does
-/

section Server
variable (server : DocumentServer) (base64 : Base64Engine) (turn : Turn) (docs : List DDoc)

theorem serve_search_docs (query : List Char) (limit : Option ℕ) :
    (server.serve turn (.search query limit) docs).2 = docs := by
  unfold DocumentServer.serve
  cases turn.fate <;> rfl

/-- A client that does not get the answer to its search gets an error. -/
theorem parsed_serve_search (query : List Char) :
    turn.fate = .answered ∧ parsed "search" (server.serve turn (.search query none) docs).1 =
        .ok (docs.filter (server.hits query)) ∨
      turn.fate ≠ .answered ∧
        ∃ err, parsed "search" (server.serve turn (.search query none) docs).1 = fail err := by
  unfold DocumentServer.serve
  cases turn.fate with
  | answered => exact .inl ⟨rfl, rfl⟩
  | refused why => cases why <;> exact .inr ⟨by rintro ⟨⟩, _, rfl⟩
  | lost why => cases why <;> exact .inr ⟨by rintro ⟨⟩, _, rfl⟩
  | garbled e => exact .inr ⟨by rintro ⟨⟩, _, rfl⟩

/-- The first of the hits that has the title is the first document that carries it. -/
lemma find?_hits (title : List Char) :
    ((docs.filter (server.hits title)).find? fun d => d.title = title) =
      (carrying title docs).head? := by
  rw [List.find?_filter, carrying, List.head?_filter]
  congr 1
  funext d
  by_cases h : d.title = title
  · simp [← h, server.hits_title]
  · simp [h]

/-- `get_by_key` returns the first document with the title if the search is answered and the
document decodes, and fails otherwise. -/
theorem found_cases (scope key : List Char) :
    (∃ doc data e, turn.fate = .answered ∧
      (carrying (title scope key) docs).head? = some doc ∧
      base64.decode doc.content = .ok data ∧ e.id = ⟨doc.ddocId⟩ ∧ e.data = data ∧
      found base64 scope key (server.serve turn (.search (title scope key) none) docs).1 =
        .ok e) ∨
    ((turn.fate = .answered → ∀ doc, (carrying (title scope key) docs).head? = some doc →
        (base64.decode doc.content).isOk = false) ∧
      ∃ err, found base64 scope key (server.serve turn (.search (title scope key) none) docs).1 =
        fail err) := by
  rcases parsed_serve_search server turn docs (title scope key) with ⟨hfate, hp⟩ | ⟨hfate, err, hp⟩
  · simp only [found, hp, ok_bind, find?_hits]
    cases hdoc : (carrying (title scope key) docs).head? with
    | none =>
      refine .inr ⟨fun _ doc h => ?_, _, rfl⟩
      cases h
    | some doc =>
      simp only [okOr_some, ok_bind]
      cases hd : base64.decode doc.content with
      | ok data =>
        obtain ⟨e, he, hid, hdata⟩ := exists_ddocToEntry hd
        exact .inl ⟨doc, data, e, hfate, rfl, hd, hid, hdata, he⟩
      | error msg =>
        refine .inr ⟨fun _ doc' h => ?_, _, ddocToEntry_of_undecoded hd⟩
        rw [← Option.some.inj h, hd]
        rfl
  · right
    refine ⟨fun h => absurd h hfate, err, ?_⟩
    simp only [found, hp]
    rfl

/-- A creation appends a document, or leaves the documents alone and fails. -/
theorem serve_create_cases (title content : List Char) :
    ∃ doc : DDoc, doc.ddocId = server.freshId docs ∧ doc.title = title ∧ doc.content = content ∧
      ((server.serve turn (.create title content) docs).2 = docs ++ [doc] ∨
        (server.serve turn (.create title content) docs).2 = docs ∧
          ∃ err, parsed "PUT create" (server.serve turn (.create title content) docs).1 =
            fail err) := by
  refine ⟨⟨server.freshId docs, title, content, turn.now, turn.now⟩, rfl, rfl, rfl, ?_⟩
  unfold DocumentServer.serve
  cases turn.fate with
  | answered => exact .inl rfl
  | refused why => cases why <;> exact .inr ⟨rfl, _, rfl⟩
  | lost why => exact .inl rfl
  | garbled e => exact .inl rfl

/-- An update of a document that is there replaces it, or leaves the documents alone and fails. -/
theorem serve_update_cases {docs : List DDoc} {id : List Char} (hid : id ∈ docs.map DDoc.ddocId)
    (title content : List Char) :
    (server.serve turn (.update id title content) docs).2 =
        docs.map (updated id title content turn.now) ∨
      (server.serve turn (.update id title content) docs).2 = docs ∧
        ∃ err, checked "PUT update" (server.serve turn (.update id title content) docs).1 =
          fail err := by
  unfold DocumentServer.serve
  cases turn.fate with
  | answered => exact .inl (by simp only [DocumentServer.answer, if_pos hid])
  | refused why => cases why <;> exact .inr ⟨rfl, _, rfl⟩
  | lost why => exact .inl (by simp only [DocumentServer.answer, if_pos hid])
  | garbled e => exact .inl (by simp only [DocumentServer.answer, if_pos hid])

end Server

/-!
## Documents that carry a title
-/

/-- One document for each id and one for each title. -/
structure Tidy (docs : List DDoc) : Prop where
  ids : (docs.map DDoc.ddocId).Nodup
  titles : ∀ t, (carrying t docs).length ≤ 1

section Documents
variable {docs : List DDoc} {doc : DDoc} {t content now : List Char}

theorem mem_of_carrying (h : carrying t docs = [doc]) : doc ∈ docs ∧ doc.title = t := by
  have hm : doc ∈ carrying t docs := by simp [h]
  simpa only [carrying, List.mem_filter, decide_eq_true_eq] using hm

theorem Tidy.carrying_eq (h : Tidy docs) (hdoc : (carrying t docs).head? = some doc) :
    carrying t docs = [doc] := by
  have hlen := h.titles t
  cases hc : carrying t docs with
  | nil =>
    rw [hc] at hdoc
    cases hdoc
  | cons d rest =>
    rw [hc] at hdoc hlen
    rw [List.head?_cons, Option.some.injEq] at hdoc
    have hrest : rest = [] := List.length_eq_zero_iff.mp (by simpa using hlen)
    rw [hdoc, hrest]

theorem carrying_append (t : List Char) (docs : List DDoc) (doc : DDoc) :
    carrying t (docs ++ [doc]) = carrying t docs ++ if doc.title = t then [doc] else [] := by
  rw [carrying, List.filter_append, List.filter_singleton]
  by_cases h : doc.title = t
  · simp [h, carrying]
  · simp [h, carrying]

theorem Tidy.append (h : Tidy docs) (hid : doc.ddocId ∉ docs.map DDoc.ddocId)
    (ht : carrying doc.title docs = []) : Tidy (docs ++ [doc]) where
  ids := by
    rw [List.map_append, List.map_singleton, List.nodup_append]
    refine ⟨h.ids, List.nodup_singleton _, fun a ha b hb hab => ?_⟩
    rw [hab, List.mem_singleton.mp hb] at ha
    exact hid ha
  titles t := by
    rw [carrying_append]
    by_cases heq : doc.title = t
    · rw [← heq, ht]
      simp
    · simpa [heq] using h.titles t

/-- An update at the id of a document under its own title is one of that document alone. -/
theorem updated_of_mem (h : Tidy docs) (hc : carrying t docs = [doc]) {d : DDoc} (hd : d ∈ docs) :
    updated doc.ddocId t content now d =
      if d = doc then { doc with content := content, updatedAt := now } else d := by
  obtain ⟨hmem, rfl⟩ := mem_of_carrying hc
  by_cases heq : d = doc
  · rw [heq, updated, if_pos rfl, if_pos rfl]
  · have hne : d.ddocId ≠ doc.ddocId := fun hid =>
      heq (List.inj_on_of_nodup_map h.ids hd hmem hid)
    rw [updated, if_neg hne, if_neg heq]

theorem carrying_updated (h : Tidy docs) (hc : carrying t docs = [doc]) (u : List Char) :
    carrying u (docs.map (updated doc.ddocId t content now)) =
      if u = t then [{ doc with content := content, updatedAt := now }] else carrying u docs := by
  have hmap : docs.map (updated doc.ddocId t content now) =
      docs.map fun d => if d = doc then { doc with content := content, updatedAt := now } else d :=
    List.map_congr_left fun d hd => updated_of_mem h hc hd
  have htitle : ∀ d : DDoc, (if d = doc then { doc with content := content, updatedAt := now }
      else d).title = d.title := by
    intro d
    split_ifs with heq
    · rw [heq]
    · rfl
  rw [hmap, carrying, List.filter_map]
  simp only [Function.comp_def, htitle]
  show (carrying u docs).map _ = _
  by_cases hu : u = t
  · rw [hu, hc, if_pos rfl]
    simp
  · rw [if_neg hu]
    refine (List.map_congr_left fun d hd => ?_).trans (List.map_id _)
    have hd' : d.title = u := by simpa [carrying] using (List.mem_filter.mp hd).2
    refine if_neg fun heq => hu ?_
    rw [← hd', heq, (mem_of_carrying hc).2]

theorem Tidy.updated (h : Tidy docs) (hc : carrying t docs = [doc]) :
    Tidy (docs.map (updated doc.ddocId t content now)) where
  ids := by
    have hid : DDoc.ddocId ∘ FileverseBackend.updated doc.ddocId t content now = DDoc.ddocId := by
      funext d
      simp only [Function.comp, FileverseBackend.updated]
      split_ifs <;> rfl
    rw [List.map_map, hid]
    exact h.ids
  titles u := by
    rw [carrying_updated h hc]
    split_ifs
    · exact le_refl 1
    · exact h.titles u

end Documents

/-!
## Puts that interleave
-/

/-- Where a put is, by the documents that carry its title. -/
inductive Stage (base64 : Base64Engine) (op : PutCall)
    (rest : Dialog Reply (Result StorageId)) (docs : List DDoc) : Prop where
  | searching (h : rest = op.program base64)
  | updating (doc : DDoc) (hdocs : docs = [doc])
      (h : rest = (updateDoc ⟨doc.ddocId⟩ op.title (base64.encode op.data)).run)
  | creating (hdocs : docs = [])
      (h : rest = (createDoc op.title (base64.encode op.data)).run)
  | ended (r : Result StorageId) (h : rest = .done r)

/-- One document has the title and the data of the put. -/
def Stored (base64 : Base64Engine) (op : PutCall) (docs : List DDoc) : Prop :=
  ∃ doc, carrying op.title docs = [doc] ∧ doc.content = base64.encode op.data

/-- The invariant of one put among the others. -/
structure Placed (base64 : Base64Engine) (s : Puts) (i : ℕ)
    (c : PutInFlight) : Prop where
  stage : Stage base64 c.op c.rest (carrying c.op.title s.server)
  alone : Creates c → ∀ j d, s.calls[j]? = some d → d.op.title = c.op.title → Creates d → j = i
  last : Succeeded c → (∀ b ∈ s.ops.drop (i + 1), b.title ≠ c.op.title) →
    Stored base64 c.op s.server

section Steps
variable (server : DocumentServer) (turn : Turn) {base64 : Base64Engine} {docs : List DDoc}
  {op : PutCall}

/-- What an update of the one document with the title does. -/
theorem serve_update_carrying {doc : DDoc} (h : Tidy docs) (hdoc : carrying op.title docs = [doc])
    (content : List Char) :
    let served := server.serve turn (.update doc.ddocId op.title content) docs
    Tidy served.2 ∧ (∀ t, t ≠ op.title → carrying t served.2 = carrying t docs) ∧
      ((∃ doc', doc'.ddocId = doc.ddocId ∧ doc'.content = content ∧
          carrying op.title served.2 = [doc']) ∨
        served.2 = docs ∧ ∃ err, checked "PUT update" served.1 = fail err) := by
  intro served
  have hid : doc.ddocId ∈ docs.map DDoc.ddocId :=
    List.mem_map_of_mem (mem_of_carrying hdoc).1
  rcases serve_update_cases server turn hid op.title content with
    hdocs | ⟨hdocs, herr⟩
  · refine ⟨hdocs ▸ h.updated hdoc, fun t ht => ?_,
      .inl ⟨{ doc with content := content, updatedAt := turn.now }, rfl, rfl, ?_⟩⟩
    · exact (congrArg (carrying t) hdocs).trans
        ((carrying_updated h hdoc t).trans (if_neg ht))
    · exact (congrArg (carrying op.title) hdocs).trans
        ((carrying_updated h hdoc op.title).trans (if_pos rfl))
  · exact ⟨hdocs ▸ h, fun t _ => congrArg (carrying t) hdocs, .inr ⟨hdocs, herr⟩⟩

/-- What a creation does where no document has the title. -/
theorem serve_create_carrying (h : Tidy docs) (hnone : carrying op.title docs = [])
    (content : List Char) :
    let served := server.serve turn (.create op.title content) docs
    Tidy served.2 ∧ (∀ t, t ≠ op.title → carrying t served.2 = carrying t docs) ∧
      ((∃ doc, doc.content = content ∧ carrying op.title served.2 = [doc]) ∨
        served.2 = docs ∧ ∃ err, parsed "PUT create" served.1 = fail err) := by
  intro served
  obtain ⟨doc, hid, htitle, hcontent, hserved⟩ := serve_create_cases server turn docs op.title
    content
  rcases hserved with hdocs | ⟨hdocs, herr⟩
  · have hfresh : doc.ddocId ∉ docs.map DDoc.ddocId := hid ▸ server.freshId_notMem docs
    rw [show served.2 = docs ++ [doc] from hdocs]
    refine ⟨h.append hfresh (htitle ▸ hnone), fun t ht => ?_, .inl ⟨doc, hcontent, ?_⟩⟩
    · rw [carrying_append, htitle, if_neg (Ne.symm ht), List.append_nil]
    · rw [carrying_append, hnone, if_pos htitle, List.nil_append]
  · exact ⟨hdocs ▸ h, fun t _ => congrArg (carrying t) hdocs, .inr ⟨hdocs, herr⟩⟩

/-- What one step keeps. -/
structure Kept (base64 : Base64Engine) (s : Puts) : Prop where
  tidy : Tidy s.server
  apart : ∀ a ∈ s.ops, ∀ b ∈ s.ops, a.title = b.title → a.SamePair b
  placed : System.ForallCalls (Placed base64) s

/-- A put keeps its place while another is served, if that leaves its stage and its data. -/
theorem Placed.other {s : Puts} {i k : ℕ} {c : PutInFlight} {d d' : Dialog Reply (Result StorageId)}
    (h : Placed base64 s k c) (hi : s.calls[i]? = some ⟨op, d⟩) (hki : k ≠ i) {docs' : List DDoc}
    (hstage : Stage base64 c.op c.rest (carrying c.op.title docs'))
    (hcreates : Creates ⟨op, d'⟩ → op.title = c.op.title → ¬ Creates c)
    (hstored : Succeeded c → (∀ b ∈ s.ops.drop (k + 1), b.title ≠ c.op.title) →
      Stored base64 c.op docs') :
    Placed base64 ⟨docs', s.calls.set i ⟨op, d'⟩⟩ k c := by
  have hops := System.ops_set hi d' docs'
  refine ⟨hstage, fun hc j b hb hbc hcb => ?_, fun hc hlater => hstored hc (hops ▸ hlater)⟩
  by_cases hj : j = i
  · subst hj
    rw [List.getElem?_set_self (List.getElem?_eq_some_iff.mp hi).1] at hb
    obtain rfl := Option.some.inj hb
    exact absurd hc (hcreates hcb hbc)
  · rw [List.getElem?_set_ne (Ne.symm hj)] at hb
    exact h.alone hc j b hb hbc hcb

/-- The end of another put does not move a put whose documents stay as they are. -/
theorem Placed.other_same {s : Puts} {i k : ℕ} {c : PutInFlight}
    {d : Dialog Reply (Result StorageId)}
    (h : Placed base64 s k c) (hi : s.calls[i]? = some ⟨op, d⟩) (hki : k ≠ i) {docs' : List DDoc}
    (hview : carrying c.op.title docs' = carrying c.op.title s.server) (r : Result StorageId) :
    Placed base64 ⟨docs', s.calls.set i ⟨op, .done r⟩⟩ k c := by
  refine h.other hi hki (hview ▸ h.stage) (by rintro ⟨⟩) fun hc hlater => ?_
  obtain ⟨doc, hdoc, hcontent⟩ := h.last hc hlater
  exact ⟨doc, hview.trans hdoc, hcontent⟩

/-- With these documents and this rest of the call at `i`, all calls are in their places. -/
structure Replaces (base64 : Base64Engine) (s : Puts) (i : ℕ) (op : PutCall) (docs' : List DDoc)
    (rest' : Dialog Reply (Result StorageId)) : Prop where
  tidy : Tidy docs'
  own : Placed base64 ⟨docs', s.calls.set i ⟨op, rest'⟩⟩ i ⟨op, rest'⟩
  others : ∀ k c, k ≠ i → s.calls[k]? = some c → Placed base64 s k c →
    Placed base64 ⟨docs', s.calls.set i ⟨op, rest'⟩⟩ k c

/-- A search that sees what is there decides rightly between an update and a creation. -/
theorem afterSearch_cases (h : Tidy docs) (hseen : ∀ doc ∈ docs, doc.title = op.title →
      turn.fate = .answered ∧ (base64.decode doc.content).isOk = true) :
    let rest := afterSearch base64 op.scope op.key op.data
      (server.serve turn (.search op.title none) docs).1
    (∃ doc, carrying op.title docs = [doc] ∧
        rest = (updateDoc ⟨doc.ddocId⟩ op.title (base64.encode op.data)).run) ∨
      carrying op.title docs = [] ∧
        rest = (createDoc op.title (base64.encode op.data)).run := by
  intro rest
  rcases found_cases server base64 turn docs op.scope op.key with
    ⟨doc, data, e, _, hdoc, _, hid, _, hfound⟩ | ⟨hnone, err, hfound⟩
  · refine .inl ⟨doc, h.carrying_eq hdoc, ?_⟩
    simp only [rest, afterSearch, PutCall.title, hfound, ← hid]
    rfl
  · refine .inr ⟨?_, ?_⟩
    · cases hc : carrying op.title docs with
      | nil => rfl
      | cons doc others =>
        -- the document would have been seen
        have hm : doc ∈ carrying op.title docs := by simp [hc]
        obtain ⟨hmem, ht⟩ := List.mem_filter.mp hm
        obtain ⟨hfate, hok⟩ := hseen doc hmem (of_decide_eq_true ht)
        have hbad := hnone hfate doc (by rw [← PutCall.title, hc]; rfl)
        rw [hok] at hbad
        cases hbad
    · simp only [rest, afterSearch, PutCall.title, hfound]
      rfl

theorem Kept.search {s : Puts} {i : ℕ} {d : Dialog Reply (Result StorageId)}
    (h : Kept base64 s) (hi : s.calls[i]? = some ⟨op, d⟩)
    (hseen : ∀ doc ∈ s.server, doc.title = op.title →
      turn.fate = .answered ∧ (base64.decode doc.content).isOk = true)
    (hcreate : (∀ doc ∈ s.server, doc.title ≠ op.title) →
      ∀ c ∈ s.calls, c.op.title = op.title → ¬ Creates c) :
    Replaces base64 s i op s.server (afterSearch base64 op.scope op.key op.data
      (server.serve turn (.search op.title none) s.server).1) := by
  rcases afterSearch_cases server turn h.tidy hseen with ⟨doc, hdoc, hrest⟩ | ⟨hempty, hrest⟩
  · rw [hrest]
    refine ⟨h.tidy, ⟨.updating doc hdoc rfl, by rintro ⟨⟩, by rintro ⟨⟩⟩, ?_⟩
    intro k c hki hc hk
    exact hk.other hi hki hk.stage (by rintro ⟨⟩) hk.last
  · have hfree : ∀ doc ∈ s.server, doc.title ≠ op.title := fun doc hdoc ht =>
      List.filter_eq_nil_iff.mp hempty doc hdoc (decide_eq_true ht)
    rw [hrest]
    refine ⟨h.tidy, ⟨.creating hempty rfl, ?_, by rintro ⟨⟩⟩, ?_⟩
    · intro _ j b hb hbop hcreates
      by_contra hji
      rw [List.getElem?_set_ne (Ne.symm hji)] at hb
      exact hcreate hfree b (List.mem_of_getElem? hb) hbop hcreates
    · intro k c hki hc hk
      exact hk.other hi hki hk.stage
        (fun _ ht => hcreate hfree c (List.mem_of_getElem? hc) ht.symm) hk.last

theorem Kept.failed {s : Puts} {i : ℕ} {d : Dialog Reply (Result StorageId)}
    (h : Kept base64 s) (hi : s.calls[i]? = some ⟨op, d⟩) (f : Fault RokError) :
    Replaces base64 s i op s.server (.done (.error f)) := by
  refine ⟨h.tidy, ⟨.ended _ rfl, by rintro ⟨⟩, by rintro ⟨⟩⟩, fun k c hki _ hk => ?_⟩
  exact hk.other_same hi hki rfl _

/-- A put that has its data stored leaves it to the other puts on the title to keep their
places. -/
theorem replaces_of_stored {s : Puts} {i : ℕ} {d : Dialog Reply (Result StorageId)}
    (hi : s.calls[i]? = some ⟨op, d⟩) {docs' : List DDoc} (htidy : Tidy docs')
    (hframe : ∀ t, t ≠ op.title → carrying t docs' = carrying t s.server)
    (hstored : Stored base64 op docs') (r : Result StorageId)
    (hothers : ∀ k c, k ≠ i → s.calls[k]? = some c → Placed base64 s k c →
      c.op.title = op.title → Stage base64 c.op c.rest (carrying op.title docs') ∧
        (Succeeded c → (∀ b ∈ s.ops.drop (k + 1), b.title ≠ c.op.title) →
          Stored base64 c.op docs')) :
    Replaces base64 s i op docs' (.done r) := by
  refine ⟨htidy, ⟨.ended _ rfl, by rintro ⟨⟩, fun _ _ => hstored⟩, fun k c hki hc hk => ?_⟩
  by_cases ht : c.op.title = op.title
  · obtain ⟨hstage, hlast⟩ := hothers k c hki hc hk ht
    rw [← ht] at hstage
    exact hk.other hi hki hstage (by rintro ⟨⟩) hlast
  · exact hk.other_same hi hki (hframe _ ht) _

/-- An update moves no put off its place unless a put that began later had succeeded. -/
theorem Kept.update {s : Puts} {i : ℕ} {d : Dialog Reply (Result StorageId)} {doc : DDoc}
    (h : Kept base64 s) (hi : s.calls[i]? = some ⟨op, d⟩)
    (hdoc : carrying op.title s.server = [doc])
    (hlater : ∀ c ∈ s.calls.drop (i + 1), c.op.title = op.title → ¬ Succeeded c) :
    let served := server.serve turn (.update doc.ddocId op.title (base64.encode op.data)) s.server
    Replaces base64 s i op served.2
      (.done ((checked "PUT update" served.1).map fun _ => ⟨doc.ddocId⟩)) := by
  intro served
  obtain ⟨htidy, hframe, hown⟩ := serve_update_carrying server turn h.tidy hdoc
    (base64.encode op.data)
  rcases hown with ⟨doc', hid, hcontent, hdoc'⟩ | ⟨hdocs, err, herr⟩
  · refine replaces_of_stored hi htidy hframe ⟨doc', hdoc', hcontent⟩ _ ?_
    intro k c hki hc hk ht
    constructor
    · rw [hdoc']
      cases hk.stage with
      | searching hrest => exact .searching hrest
      | updating doc₂ hdocs hrest =>
        rw [ht, hdoc] at hdocs
        refine .updating doc' rfl ?_
        rw [hrest, hid, (List.cons.inj hdocs).1]
      | creating hdocs hrest =>
        rw [ht, hdoc] at hdocs
        cases hdocs
      | ended r hrest => exact .ended r hrest
    · intro hsucceeded hlast
      rcases lt_or_gt_of_ne hki with hlt | hgt
      · exact absurd ht.symm (hlast _ (System.mem_ops_drop hi hlt))
      · exact absurd hsucceeded (hlater c (System.mem_drop_of_getElem? hc hgt) ht)
  · have hdone : (checked "PUT update" served.1).map (fun _ => (⟨doc.ddocId⟩ : StorageId)) =
        fail err := by
      rw [herr]
      rfl
    rw [hdone, show served.2 = s.server from hdocs]
    exact h.failed hi _

/-- A creation moves no put off its place. -/
theorem Kept.create {s : Puts} {i : ℕ} {d : Dialog Reply (Result StorageId)}
    (h : Kept base64 s) (hi : s.calls[i]? = some ⟨op, d⟩) (hcreates : Creates ⟨op, d⟩)
    (hnone : carrying op.title s.server = []) :
    let served := server.serve turn (.create op.title (base64.encode op.data)) s.server
    Replaces base64 s i op served.2
      (.done ((parsed "PUT create" served.1).map StorageId.mk)) := by
  intro served
  obtain ⟨htidy, hframe, hown⟩ := serve_create_carrying server turn h.tidy hnone
    (base64.encode op.data)
  rcases hown with ⟨doc', hcontent, hdoc'⟩ | ⟨hdocs, err, herr⟩
  · refine replaces_of_stored hi htidy hframe ⟨doc', hdoc', hcontent⟩ _ ?_
    intro k c hki hc hk ht
    constructor
    · rw [hdoc']
      cases hk.stage with
      | searching hrest => exact .searching hrest
      | updating doc₂ hdocs hrest =>
        rw [ht, hnone] at hdocs
        cases hdocs
      | creating hdocs hrest =>
        -- only one put at a time is about to create
        have hck : Creates c := by
          unfold Creates
          rw [hrest]
          rfl
        exact absurd ((h.placed i _ hi).alone hcreates k c hc ht hck) hki
      | ended r hrest => exact .ended r hrest
    · intro hsucceeded hlast
      obtain ⟨doc, hdoc, _⟩ := hk.last hsucceeded hlast
      rw [ht, hnone] at hdoc
      cases hdoc
  · have hdone : (parsed "PUT create" served.1).map StorageId.mk = fail err := by
      rw [herr]
      rfl
    rw [hdone, show served.2 = s.server from hdocs]
    exact h.failed hi _

theorem PutCall.program_eq (base64 : Base64Engine) (op : PutCall) :
    op.program base64 =
      .ask (.search op.title none) (afterSearch base64 op.scope op.key op.data) :=
  run_put base64 op.scope op.key op.data

/-- Serving any request of a put in an orderly way keeps every put in its place. -/
theorem Kept.serve {s : Puts} {i : ℕ} {q : Request}
    {next : Response (Body q) → Dialog Reply (Result StorageId)}
    (h : Kept base64 s) (hi : s.calls[i]? = some ⟨op, .ask q next⟩)
    (hturn : Orderly base64 s (.serve i turn)) :
    Replaces base64 s i op (server.serve turn q s.server).2
      (next (server.serve turn q s.server).1) := by
  have hpending : (op, q) ∈ s.pending i := by
    rw [System.pending, hi]
    rfl
  have hmay := hturn (op, q) hpending
  have hstage : Stage base64 op (.ask q next) (carrying op.title s.server) :=
    (h.placed i _ hi).stage
  cases hstage with
  | searching hrest =>
    rw [PutCall.program_eq] at hrest
    cases hrest
    rw [serve_search_docs]
    exact h.search server turn hi hmay.1 hmay.2
  | updating doc hdocs hrest =>
    rw [run_updateDoc] at hrest
    cases hrest
    exact h.update server turn hi hdocs hmay
  | creating hdocs hrest =>
    rw [run_createDoc] at hrest
    cases hrest
    exact h.create server turn hi rfl hdocs
  | ended r hrest => cases hrest

theorem Placed.start {s : Puts} {k : ℕ} {c : PutInFlight}
    (h : Placed base64 s k c) (hk : s.calls[k]? = some c) (op : PutCall) :
    Placed base64 { s with calls := s.calls ++ [⟨op, op.program base64⟩] } k c := by
  have hlt : k < s.calls.length := (List.getElem?_eq_some_iff.mp hk).1
  refine ⟨h.stage, fun hc j b hb hbc hcb => ?_, fun hc hlater => h.last hc fun b hb => ?_⟩
  · rcases System.getElem?_concat_cases hb with hb | ⟨_, rfl⟩
    · exact h.alone hc j b hb hbc hcb
    · rw [PutCall.program_eq] at hcb
      cases hcb
  · apply hlater b
    rw [System.ops, List.map_append, List.drop_append_of_le_length (by rw [List.length_map]; omega)]
    exact List.mem_append_left _ hb

/-- Pairs stay apart when a call on another title, or on its own pair, is added. -/
lemma apart_concat {ops : List PutCall}
    (h : ∀ a ∈ ops, ∀ b ∈ ops, a.title = b.title → a.SamePair b)
    (hop : ∀ b ∈ ops, b.title = op.title → b.SamePair op) :
    ∀ a ∈ ops ++ [op], ∀ b ∈ ops ++ [op], a.title = b.title → a.SamePair b := by
  intro a ha b hb hab
  rw [List.mem_append, List.mem_singleton] at ha hb
  rcases ha with ha | rfl
  · rcases hb with hb | rfl
    · exact h a ha b hb hab
    · exact hop a ha hab
  · rcases hb with hb | rfl
    · obtain ⟨hscope, hkey⟩ := hop b hb hab.symm
      exact ⟨hscope.symm, hkey.symm⟩
    · exact ⟨rfl, rfl⟩

theorem Kept.step {s : Puts} {e : Event PutCall Turn} (h : Kept base64 s)
    (he : Orderly base64 s e) : Kept base64 (s.step (PutCall.program base64) server.serve e) where
  tidy := by
    rcases s.step_cases (PutCall.program base64) server.serve e with
      ⟨op, rfl, hs⟩ | ⟨i, turn, op, q, next, rfl, hi, hs⟩ | hs
    · rw [hs]
      exact h.tidy
    · rw [hs]
      exact (h.serve server turn hi he).tidy
    · rw [hs]
      exact h.tidy
  apart := by
    rcases s.ops_step (PutCall.program base64) server.serve e with ⟨op, rfl, hops⟩ | hops
    · rw [hops]
      exact apart_concat h.apart he
    · rw [hops]
      exact h.apart
  placed := by
    refine h.placed.step (fun op hop => ?_) fun i turn op q next hserve hi => ?_
    · refine ⟨⟨.searching rfl, ?_, ?_⟩, fun k c hk hc => hc.start hk op⟩
      · rw [PutCall.program_eq]
        rintro ⟨⟩
      · rw [PutCall.program_eq]
        rintro ⟨⟩
    · subst hserve
      have hserved := h.serve server turn hi he
      exact ⟨hserved.own, hserved.others⟩

end Steps

/-- A server that searches its titles for a text. -/
def textServer : DocumentServer where
  hits query doc := decide (query <:+: doc.title)
  hits_title doc := by simp
  freshId docs := List.replicate ((docs.map fun doc => doc.ddocId.length).sum + 1) 'd'
  freshId_notMem docs h := by
    obtain ⟨doc, hdoc, hid⟩ := List.mem_map.mp h
    have hle := List.le_sum_of_mem (List.mem_map_of_mem (f := fun doc => doc.ddocId.length) hdoc)
    rw [hid, List.length_replicate] at hle
    omega

def answered : Turn := ⟨[], .answered⟩

end FileverseBackend
end ReadOnlyKeys
