import ReadOnlyKeys.Backends
import ReadOnlyKeys.FileverseRuns

/-!
# One client of a Fileverse server

Where a server answers every request of its one client, the client sees a shelf: the
documents are what is stored at the pairs that their titles read back.
-/
namespace ReadOnlyKeys
open Outcome Wire Requests Answers
namespace FileverseBackend

/-- The title of the pair reads back. -/
def Fits (q : Spot) : Prop := Scope.Valid ⟨q.1⟩ ∧ q.2 ≠ [] ∧ ':' ∉ q.2

instance (q : Spot) : Decidable (Fits q) := inferInstanceAs (Decidable (_ ∧ _))

/-- The documents of a server, and what becomes of the next requests. -/
abbrev ClientState := List DDoc × (ℕ → Turn)

/-- A call that has the server to itself. It sends two requests at most. -/
def onServer {α : Type} (server : DocumentServer) (p : Http α) : Program RokError ClientState α :=
  Program.effect fun s =>
    let r := p.run.alone server.serve s.2 s.1
    (r.1, (r.2, fun n => s.2 (n + 2)))

/-- The backend as the one client of a server. -/
def client (server : DocumentServer) (base64 : Base64Engine) : StorageBackend ClientState where
  put scope key data := onServer server (put base64 scope key data)
  get id := onServer server (get base64 id)
  getByKey scope key := onServer server (getByKey base64 scope key)
  list scopePrefix := onServer server (list base64 scopePrefix)
  delete id := onServer server (delete id)

/-- Every document is one that a put made, and no other has its id or its title. -/
structure Shelved (base64 : Base64Engine) (docs : List DDoc) : Prop where
  tidy : Tidy docs
  titled : ∀ doc ∈ docs, ∃ q, Fits q ∧ doc.title = title q.1 q.2
  decodes : ∀ doc ∈ docs, ∃ data, base64.decode doc.content = .ok data

/-- The data of the document with the title of a pair. -/
def docsView (base64 : Base64Engine) (docs : List DDoc) (q : Spot) : Option Bytes :=
  if Fits q then
    (carrying (title q.1 q.2) docs).head?.bind fun doc => (base64.decode doc.content).toOption
  else none

/-- The pair in the title of the document with an id. -/
def docsIds (docs : List DDoc) (id : StorageId) : Option Spot :=
  (docs.find? fun doc => doc.ddocId = id.id).bind fun doc =>
    (parseTitle doc.title).toOption.bind fun pair => pair

def shelf (base64 : Base64Engine) (docs : List DDoc) : Shelf := ⟨docsView base64 docs, docsIds docs⟩

section Titles

variable {q q' : Spot}

theorem Fits.parse (h : Fits q) : parseTitle (title q.1 q.2) = .ok (some q) :=
  (parseTitle_eq_some_iff _ _ _).mpr ⟨rfl, h.2.2, h.1.sliceable.path_ne_nil, h.2.1⟩

theorem Fits.title_inj (h : Fits q) (h' : Fits q') (ht : title q.1 q.2 = title q'.1 q'.2) :
    q = q' := by
  have hparse := h.parse
  rw [ht, h'.parse] at hparse
  exact (Option.some.inj (Except.ok.inj hparse)).symm

end Titles

section Documents

variable {base64 : Base64Engine} {docs docs' : List DDoc} {doc : DDoc} {q : Spot}

lemma mem_carrying (hdoc : doc ∈ docs) : doc ∈ carrying doc.title docs :=
  List.mem_filter.mpr ⟨hdoc, decide_eq_true rfl⟩

lemma Tidy.carrying_mem (h : Tidy docs) (hdoc : doc ∈ docs) : carrying doc.title docs = [doc] := by
  have hm := mem_carrying hdoc
  cases hc : carrying doc.title docs with
  | nil =>
    rw [hc] at hm
    cases hm
  | cons d rest =>
    have hlen := h.titles doc.title
    rw [hc, List.length_cons] at hlen
    obtain rfl : rest = [] := List.length_eq_zero_iff.mp (by omega)
    rw [hc, List.mem_singleton] at hm
    rw [hm]

lemma Tidy.find?_mem (h : Tidy docs) (hdoc : doc ∈ docs) :
    (docs.find? fun d => d.ddocId = doc.ddocId) = some doc := by
  cases hf : docs.find? fun d => d.ddocId = doc.ddocId with
  | none =>
    have hno := List.find?_eq_none.mp hf doc hdoc
    simp at hno
  | some d =>
    have hd : d.ddocId = doc.ddocId := by simpa using List.find?_some hf
    rw [List.inj_on_of_nodup_map h.ids (List.mem_of_find?_eq_some hf) hdoc hd]

lemma find?_of_notMem {id : List Char} (h : id ∉ docs.map DDoc.ddocId) :
    (docs.find? fun doc => doc.ddocId = id) = none := by
  refine List.find?_eq_none.mpr fun doc hdoc => ?_
  simp only [decide_eq_true_eq]
  exact fun he => h (List.mem_map.mpr ⟨doc, hdoc, he⟩)

lemma map_filterMap_sublist {α β γ : Type} {f : α → Option β} (g : β → γ) {h : α → γ}
    {l : List α} (hf : ∀ a ∈ l, ∀ b, f a = some b → g b = h a) :
    ((l.filterMap f).map g).Sublist (l.map h) := by
  induction l with
  | nil => exact .slnil
  | cons a l ih =>
    have ih := ih fun a' ha' => hf a' (List.mem_cons_of_mem _ ha')
    rw [List.filterMap_cons, List.map_cons]
    cases hfa : f a with
    | none => exact ih.cons _
    | some b =>
      rw [List.map_cons, hf a List.mem_cons_self b hfa]
      exact ih.cons_cons _

/-- The titles of tidy documents are distinct. -/
lemma Tidy.nodup_titles (h : Tidy docs) : (docs.map DDoc.title).Nodup := by
  refine List.nodup_iff_count_le_one.mpr fun t => ?_
  rw [List.count_eq_countP, List.countP_map, List.countP_eq_length_filter]
  have hfilter : docs.filter ((fun a => a == t) ∘ DDoc.title) = carrying t docs :=
    List.filter_congr fun doc _ => beq_eq_decide _ _
  rw [hfilter]
  exact h.titles t

/-- An id names the pair in the title of its document. -/
theorem Shelved.docsIds_eq_some_iff (h : Shelved base64 docs) (id : StorageId) :
    docsIds docs id = some q ↔
      Fits q ∧ ∃ doc ∈ docs, doc.ddocId = id.id ∧ doc.title = title q.1 q.2 := by
  constructor
  · intro hids
    obtain ⟨doc, hfind, hparse⟩ := Option.bind_eq_some_iff.mp hids
    have hmem := List.mem_of_find?_eq_some hfind
    have hid : doc.ddocId = id.id := by simpa using List.find?_some hfind
    obtain ⟨q', hq', ht⟩ := h.titled doc hmem
    rw [ht, hq'.parse] at hparse
    obtain rfl := Option.some.inj hparse
    exact ⟨hq', doc, hmem, hid, ht⟩
  · intro hids
    obtain ⟨hq, doc, hdoc, hid, ht⟩ := hids
    rw [docsIds, ← hid, h.tidy.find?_mem hdoc, Option.bind_some, ht, hq.parse]
    rfl

/-- What is seen at a pair is the data of a document. -/
theorem Shelved.docsView_eq_some_iff (h : Shelved base64 docs) (data : Bytes) :
    docsView base64 docs q = some data ↔ Fits q ∧ ∃ doc ∈ docs, doc.title = title q.1 q.2 ∧
      base64.decode doc.content = .ok data := by
  unfold docsView
  split_ifs with hq
  · constructor
    · intro hv
      obtain ⟨doc, hhead, hd⟩ := Option.bind_eq_some_iff.mp hv
      obtain ⟨hmem, ht⟩ := mem_of_carrying (h.tidy.carrying_eq hhead)
      obtain ⟨data', hdata⟩ := h.decodes doc hmem
      rw [hdata] at hd
      obtain rfl := Option.some.inj hd
      exact ⟨hq, doc, hmem, ht, hdata⟩
    · intro hv
      obtain ⟨_, doc, hmem, ht, hd⟩ := hv
      rw [← ht, h.tidy.carrying_mem hmem, List.head?_cons, Option.bind_some, hd]
      rfl
  · constructor
    · intro hv
      cases hv
    · intro hv
      exact absurd hv.1 hq

/-- A change of the document of one pair. -/
theorem Shelved.change (h : Shelved base64 docs) (hq : Fits q) (htidy : Tidy docs')
    (hframe : ∀ t, t ≠ title q.1 q.2 → carrying t docs' = carrying t docs) {data : Bytes}
    (hown : carrying (title q.1 q.2) docs' = [doc]) (hd : base64.decode doc.content = .ok data)
    (hid : ∀ d ∈ docs, d.title = title q.1 q.2 → d.ddocId = doc.ddocId) :
    Shelved base64 docs' ∧ shelf base64 docs' =
      ⟨Function.update (docsView base64 docs) q (some data),
        Function.update (docsIds docs) ⟨doc.ddocId⟩ (some q)⟩ := by
  obtain ⟨hmem, ht⟩ := mem_of_carrying hown
  have hdocs : ∀ d, d.title ≠ title q.1 q.2 → (d ∈ docs' ↔ d ∈ docs) := by
    intro d hdt
    have hc := hframe _ hdt
    constructor
    · intro hd'
      have hm := mem_carrying hd'
      exact (List.mem_filter.mp (hc ▸ hm)).1
    · intro hd'
      have hm := mem_carrying hd'
      exact (List.mem_filter.mp (hc.symm ▸ hm)).1
  have hsame : ∀ d ∈ docs', d.title = title q.1 q.2 → d = doc := by
    intro d hd' hdt
    have hc := htidy.carrying_mem hd'
    rw [hdt, hown] at hc
    exact (List.cons.inj hc).1.symm
  have hcases : ∀ d ∈ docs', d = doc ∨ d ∈ docs := by
    intro d hd'
    by_cases hdt : d.title = title q.1 q.2
    · exact .inl (hsame d hd' hdt)
    · exact .inr ((hdocs d hdt).mp hd')
  have hshelved : Shelved base64 docs' := by
    refine ⟨htidy, fun d hd' => ?_, fun d hd' => ?_⟩
    · rcases hcases d hd' with rfl | hd'
      · exact ⟨q, hq, ht⟩
      · exact h.titled d hd'
    · rcases hcases d hd' with rfl | hd'
      · exact ⟨data, hd⟩
      · exact h.decodes d hd'
  have hview : docsView base64 docs' = Function.update (docsView base64 docs) q (some data) := by
    funext p
    rw [Function.update_apply]
    split_ifs with hp
    · subst hp
      exact (hshelved.docsView_eq_some_iff data).mpr ⟨hq, doc, hmem, ht, hd⟩
    · unfold docsView
      split_ifs with hfits
      · rw [hframe _ fun htitle => hp (hfits.title_inj hq htitle)]
      · rfl
  have hids : docsIds docs' = Function.update (docsIds docs) ⟨doc.ddocId⟩ (some q) := by
    funext i
    rw [Function.update_apply]
    split_ifs with hi
    · subst hi
      exact (hshelved.docsIds_eq_some_iff _).mpr ⟨hq, doc, hmem, rfl, ht⟩
    · refine Option.ext fun p => ?_
      rw [hshelved.docsIds_eq_some_iff, h.docsIds_eq_some_iff]
      refine and_congr_right fun _ => exists_congr fun d => ?_
      by_cases hdt : d.title = title q.1 q.2
      · refine iff_of_false (fun hd' => ?_) fun hd' => ?_
        · exact hi (StorageId.ext (hd'.2.1.symm.trans (hsame d hd'.1 hdt ▸ rfl)))
        · exact hi (StorageId.ext (hd'.2.1.symm.trans (hid d hd'.1 hdt)))
      · rw [hdocs d hdt]
  exact ⟨hshelved, Shelf.ext hview hids⟩

/-- The removal of a document. -/
theorem Shelved.remove (h : Shelved base64 docs) (hdoc : doc ∈ docs) (hq : Fits q)
    (ht : doc.title = title q.1 q.2) :
    Shelved base64 (docs.filter fun d => d.ddocId ≠ doc.ddocId) ∧
      shelf base64 (docs.filter fun d => d.ddocId ≠ doc.ddocId) =
        ⟨Function.update (docsView base64 docs) q none,
          Function.update (docsIds docs) ⟨doc.ddocId⟩ none⟩ := by
  have hsub : (docs.filter fun d => d.ddocId ≠ doc.ddocId).Sublist docs := List.filter_sublist
  have hshelved : Shelved base64 (docs.filter fun d => d.ddocId ≠ doc.ddocId) := by
    refine ⟨⟨h.tidy.ids.sublist (hsub.map _), fun t => ?_⟩, fun d hd => ?_, fun d hd => ?_⟩
    · exact (hsub.filter _).length_le.trans (h.tidy.titles t)
    · exact h.titled d (hsub.subset hd)
    · exact h.decodes d (hsub.subset hd)
  have hmem : ∀ d, d ∈ docs.filter (fun d => d.ddocId ≠ doc.ddocId) ↔
      d ∈ docs ∧ d.title ≠ title q.1 q.2 := by
    intro d
    rw [List.mem_filter, decide_eq_true_eq]
    refine and_congr_right fun hd => not_congr ⟨fun hid => ?_, fun hdt => ?_⟩
    · rw [List.inj_on_of_nodup_map h.tidy.ids hd hdoc hid, ht]
    · have hc := h.tidy.carrying_mem hd
      rw [hdt, ← ht, h.tidy.carrying_mem hdoc] at hc
      rw [(List.cons.inj hc).1]
  have hne : ∀ (p : Spot) (d : DDoc), Fits p → d.title = title p.1 p.2 →
      (d.title ≠ title q.1 q.2 ↔ p ≠ q) := by
    intro p d hp hd
    rw [hd]
    exact not_congr ⟨hp.title_inj hq, fun he => by rw [he]⟩
  have hview : docsView base64 (docs.filter fun d => d.ddocId ≠ doc.ddocId) =
      Function.update (docsView base64 docs) q none := by
    refine funext fun p => Option.ext fun data => ?_
    rw [hshelved.docsView_eq_some_iff, Function.update_apply]
    split_ifs with hp
    · subst hp
      refine iff_of_false (fun hno => ?_) nofun
      obtain ⟨_, d, hd, hdt, _⟩ := hno
      exact ((hmem d).mp hd).2 hdt
    · rw [h.docsView_eq_some_iff]
      refine and_congr_right fun hfits => exists_congr fun d => ?_
      rw [hmem]
      refine ⟨fun hd => ⟨hd.1.1, hd.2⟩, fun hd => ⟨⟨hd.1, ?_⟩, hd.2⟩⟩
      exact (hne p d hfits hd.2.1).mpr hp
  have hids : docsIds (docs.filter fun d => d.ddocId ≠ doc.ddocId) =
      Function.update (docsIds docs) ⟨doc.ddocId⟩ none := by
    refine funext fun i => Option.ext fun p => ?_
    rw [hshelved.docsIds_eq_some_iff, Function.update_apply]
    split_ifs with hi
    · subst hi
      refine iff_of_false (fun hno => ?_) nofun
      obtain ⟨_, d, hd, hid, _⟩ := hno
      have hd := List.mem_filter.mp hd
      simp [hid] at hd
    · rw [h.docsIds_eq_some_iff]
      refine and_congr_right fun hfits => exists_congr fun d => ?_
      rw [List.mem_filter, and_assoc]
      refine and_congr_right fun _ => and_iff_right_of_imp fun hd => ?_
      rw [decide_eq_true_eq, hd.1]
      exact fun he => hi (StorageId.ext he)
  exact ⟨hshelved, Shelf.ext hview hids⟩

end Documents

theorem shelved_nil (base64 : Base64Engine) : Shelved base64 [] :=
  ⟨⟨List.nodup_nil, fun _ => Nat.zero_le 1⟩, nofun, nofun⟩

theorem docsView_nil (base64 : Base64Engine) (q : Spot) : docsView base64 [] q = none := ite_self _

section Calls

variable (server : DocumentServer) {base64 : Base64Engine} {docs : List DDoc} {env : ℕ → Turn}

lemma serve_answered {turn : Turn} (h : turn.fate = .answered) (q : Request) :
    server.serve turn q docs = server.answer turn.now q docs := by
  rw [DocumentServer.serve, h]

/-- The entry of a document, at its pair. -/
theorem Shelved.entry (h : Shelved base64 docs) {doc : DDoc} (hdoc : doc ∈ docs) {q : Spot}
    (hq : Fits q) (ht : doc.title = title q.1 q.2) :
    ∃ e, ddocToEntry base64 doc = .ok e ∧ e.id = ⟨doc.ddocId⟩ ∧ (shelf base64 docs).Has q e := by
  obtain ⟨data, hd⟩ := h.decodes doc hdoc
  exact ⟨_, ddocToEntry_of_parse hd (ht ▸ hq.parse), rfl, rfl,
    (h.docsView_eq_some_iff data).mpr ⟨hq, doc, hdoc, ht, hd⟩,
    (h.docsIds_eq_some_iff _).mpr ⟨hq, doc, hdoc, rfl, ht⟩⟩

/-- A search for a title that is answered finds its document. -/
theorem found_answered (h : Shelved base64 docs) {turn : Turn} (hturn : turn.fate = .answered)
    {scope key : List Char} (hq : Fits (scope, key)) :
    (∃ doc e, carrying (title scope key) docs = [doc] ∧
      found base64 scope key (server.serve turn (.search (title scope key) none) docs).1 = .ok e ∧
      e.id = ⟨doc.ddocId⟩ ∧ (shelf base64 docs).Has (scope, key) e) ∨
    carrying (title scope key) docs = [] ∧ ∃ err,
      found base64 scope key (server.serve turn (.search (title scope key) none) docs).1 =
        fail err := by
  have hparsed : parsed "search" (server.serve turn (.search (title scope key) none) docs).1 =
      .ok (docs.filter (server.hits (title scope key))) := by
    rw [serve_answered server hturn]
    rfl
  simp only [found, hparsed, ok_bind, find?_hits]
  cases hc : carrying (title scope key) docs with
  | nil => exact .inr ⟨rfl, _, rfl⟩
  | cons doc rest =>
    have hhead : (carrying (title scope key) docs).head? = some doc := by rw [hc, List.head?_cons]
    have hc' := h.tidy.carrying_eq hhead
    obtain ⟨hdoc, ht⟩ := mem_of_carrying hc'
    obtain ⟨e, he, hid, hhas⟩ := h.entry hdoc hq ht
    exact .inl ⟨doc, e, hc.symm.trans hc', he, hid, hhas⟩

/-- A put that is answered stores its data under its pair. -/
theorem put_answered (h : Shelved base64 docs) (henv : ∀ n, (env n).fate = .answered)
    {scope key : List Char} (hq : Fits (scope, key)) (data : Bytes) : ∃ id docs',
    (put base64 scope key data).run.alone server.serve env docs = (.ok id, docs') ∧
      Shelved base64 docs' ∧ shelf base64 docs' =
        ⟨Function.update (docsView base64 docs) (scope, key) (some data),
          Function.update (docsIds docs) id (some (scope, key))⟩ := by
  have hdecode := base64.decode_encode data
  rw [run_put, Dialog.alone, serve_search_docs, afterSearch]
  rcases found_answered server h (henv 0) hq with
    ⟨doc, e, hdoc, hfound, hid, _⟩ | ⟨hnone, _, hfound⟩
  · have hmem : doc.ddocId ∈ docs.map DDoc.ddocId :=
      List.mem_map_of_mem (mem_of_carrying hdoc).1
    let doc' : DDoc := { doc with content := base64.encode data, updatedAt := (env 1).now }
    have hown : carrying (title scope key) (docs.map (updated doc.ddocId (title scope key)
        (base64.encode data) (env 1).now)) = [doc'] :=
      (carrying_updated h.tidy hdoc _).trans (if_pos rfl)
    have hid' : ∀ d ∈ docs, d.title = title scope key → d.ddocId = doc.ddocId := by
      intro d hd ht
      have hc := h.tidy.carrying_mem hd
      rw [ht, hdoc] at hc
      rw [(List.cons.inj hc).1]
    have hchange := h.change hq (h.tidy.updated hdoc)
      (fun t ht => (carrying_updated h.tidy hdoc t).trans (if_neg ht)) hown hdecode hid'
    refine ⟨⟨doc.ddocId⟩, _, ?_, hchange⟩
    simp only [hfound, ok?, hid, run_updateDoc, Dialog.alone, serve_answered server (henv 1),
      DocumentServer.answer, if_pos hmem, checked]
    rfl
  · let doc : DDoc := ⟨server.freshId docs, title scope key, base64.encode data, (env 1).now,
      (env 1).now⟩
    have hown : carrying (title scope key) (docs ++ [doc]) = [doc] := by
      rw [carrying_append, hnone, if_pos rfl, List.nil_append]
    have hframe : ∀ t, t ≠ title scope key → carrying t (docs ++ [doc]) = carrying t docs := by
      intro t ht
      rw [carrying_append, if_neg (Ne.symm ht), List.append_nil]
    have hnew : ∀ d ∈ docs, d.title = title scope key → d.ddocId = doc.ddocId := by
      intro d hd ht
      have hc := mem_carrying hd
      rw [ht, hnone] at hc
      cases hc
    have hchange := h.change hq (h.tidy.append (server.freshId_notMem docs) hnone) hframe hown
      hdecode hnew
    refine ⟨⟨doc.ddocId⟩, _, ?_, hchange⟩
    simp only [hfound, ok?, run_createDoc, Dialog.alone, serve_answered server (henv 1),
      DocumentServer.answer, parsed, checked]
    rfl

theorem getByKey_answered (h : Shelved base64 docs) (henv : (env 0).fate = .answered)
    {scope key : List Char} (hq : Fits (scope, key)) : ∃ r,
    (getByKey base64 scope key).run.alone server.serve env docs = (r, docs) ∧
      match docsView base64 docs (scope, key) with
      | some _ => ∃ e, r = .ok e ∧ (shelf base64 docs).Has (scope, key) e
      | none => ∃ err, r = fail err := by
  have halone : (getByKey base64 scope key).run.alone server.serve env docs =
      (found base64 scope key (server.serve (env 0) (.search (title scope key) none) docs).1,
        docs) := by
    have hserve := serve_search_docs server (env 0) docs (title scope key) none
    rw [getByKey, run_send_bind, Dialog.alone, hserve]
    rfl
  refine ⟨_, halone, ?_⟩
  rcases found_answered server h henv hq with ⟨doc, e, _, hfound, _, hhas⟩ | ⟨hnone, err, hfound⟩
  · have hview : docsView base64 docs (scope, key) = some e.data := hhas.data
    rw [hview]
    exact ⟨e, hfound, hhas⟩
  · have hview : docsView base64 docs (scope, key) = none := by
      rw [docsView, if_pos hq, hnone]
      rfl
    rw [hview]
    exact ⟨err, hfound⟩

/-- An id is that of a document with a pair, or of none. -/
theorem Shelved.docsIds_cases (h : Shelved base64 docs) (id : StorageId) :
    (∃ doc ∈ docs, ∃ q, doc.ddocId = id.id ∧ Fits q ∧ doc.title = title q.1 q.2 ∧
      docsIds docs id = some q) ∨ id.id ∉ docs.map DDoc.ddocId ∧ docsIds docs id = none := by
  by_cases hid : id.id ∈ docs.map DDoc.ddocId
  · obtain ⟨doc, hdoc, hid⟩ := List.mem_map.mp hid
    obtain ⟨q, hq, ht⟩ := h.titled doc hdoc
    exact .inl ⟨doc, hdoc, q, hid, hq, ht,
      (h.docsIds_eq_some_iff id).mpr ⟨hq, doc, hdoc, hid, ht⟩⟩
  · refine .inr ⟨hid, ?_⟩
    rw [docsIds, find?_of_notMem hid]
    rfl

theorem get_answered (h : Shelved base64 docs) (henv : (env 0).fate = .answered)
    (id : StorageId) : ∃ r, (get base64 id).run.alone server.serve env docs = (r, docs) ∧
      match docsIds docs id with
      | some q => ∃ e, r = .ok e ∧ e.id = id ∧ (shelf base64 docs).Has q e
      | none => ∃ err, r = fail err := by
  have halone : (get base64 id).run.alone server.serve env docs =
      (parsed "GET" (server.answer (env 0).now (.fetch id.id) docs).1 >>= ddocToEntry base64,
        docs) := by
    rw [get, run_send_bind, Dialog.alone, serve_answered server henv]
    cases parsed "GET" (server.answer (env 0).now (.fetch id.id) docs).1 <;> rfl
  refine ⟨_, halone, ?_⟩
  rcases h.docsIds_cases id with ⟨doc, hdoc, q, hid, hq, ht, hids⟩ | ⟨hid, hids⟩
  · obtain ⟨e, he, heid, hhas⟩ := h.entry hdoc hq ht
    rw [hids]
    refine ⟨e, ?_, heid.trans (StorageId.ext hid), hhas⟩
    simp only [DocumentServer.answer, ← hid, h.tidy.find?_mem hdoc]
    exact he
  · rw [hids]
    simp only [DocumentServer.answer, find?_of_notMem hid]
    exact ⟨_, rfl⟩

theorem delete_answered (h : Shelved base64 docs) (henv : (env 0).fate = .answered)
    (id : StorageId) : ∃ r docs', (delete id).run.alone server.serve env docs = (r, docs') ∧
      Shelved base64 docs' ∧ match docsIds docs id with
      | some q => r = .ok () ∧ shelf base64 docs' =
          ⟨Function.update (docsView base64 docs) q none, Function.update (docsIds docs) id none⟩
      | none => (∃ err, r = fail err) ∧ shelf base64 docs' = shelf base64 docs := by
  have halone : (delete id).run.alone server.serve env docs =
      ((checked "DELETE" (server.answer (env 0).now (.delete id.id) docs).1).map fun _ => (),
        (server.answer (env 0).now (.delete id.id) docs).2) := by
    rw [delete, run_send_bind, Dialog.alone, serve_answered server henv]
    cases checked "DELETE" (server.answer (env 0).now (.delete id.id) docs).1 <;> rfl
  refine ⟨_, _, halone, ?_⟩
  rcases h.docsIds_cases id with ⟨doc, hdoc, q, hid, hq, ht, hids⟩ | ⟨hid, hids⟩
  · obtain rfl : (⟨doc.ddocId⟩ : StorageId) = id := StorageId.ext hid
    obtain ⟨hshelved, hshelf⟩ := h.remove hdoc hq ht
    have hmem : doc.ddocId ∈ docs.map DDoc.ddocId := List.mem_map_of_mem hdoc
    rw [hids]
    simp only [DocumentServer.answer, if_pos hmem]
    exact ⟨hshelved, rfl, hshelf⟩
  · rw [hids]
    simp only [DocumentServer.answer, if_neg hid]
    exact ⟨h, ⟨_, rfl⟩, trivial⟩

/-- The titles at a scope and below start with the query of its listing. -/
lemma query_prefix {u : Scope} {q : Spot} (hq : Fits q) (ha : u.isAncestorOf ⟨q.1⟩ = true) :
    ['r', 'o', 'k', ':'] ++ u.path <+: title q.1 q.2 := by
  have hpath : u.path <+: q.1 := by
    rcases (Scope.isAncestorOf_iff_isAncestor _ _).mp ha with hroot | he | ⟨r, hr⟩
    · obtain ⟨r, hr⟩ := hq.1.exists_cons
      exact ⟨r, by rw [hroot]; exact hr.symm⟩
    · exact he ▸ List.prefix_rfl
    · exact ⟨'/' :: r, hr.symm⟩
  rw [title]
  exact (List.prefix_append_right_inj _).mpr (hpath.trans (List.prefix_append _ _))

theorem list_answered (h : Shelved base64 docs) (henv : (env 0).fate = .answered)
    (hstarts : ∀ query doc, query <+: doc.title → server.hits query doc = true)
    (hsmall : docs.length ≤ 1000) (u : Scope) : ∃ es,
    (list base64 u.path).run.alone server.serve env docs = (.ok es, docs) ∧
      (es.map fun e => (e.scope, e.key)).Nodup ∧
      (∀ e ∈ es, (shelf base64 docs).Has (e.scope, e.key) e) ∧
      ∀ q : Spot, (∃ e ∈ es, (e.scope, e.key) = q) ↔
        u.isAncestorOf ⟨q.1⟩ = true ∧ (docsView base64 docs q).isSome = true := by
  let query := ['r', 'o', 'k', ':'] ++ u.path
  let entry := entryAt base64 u.isAncestorOf
  have hlen : (docs.filter (server.hits query)).length ≤ 1000 :=
    (List.length_filter_le _ _).trans hsmall
  have halone : (list base64 u.path).run.alone server.serve env docs =
      (.ok ((docs.filter (server.hits query)).filterMap entry), docs) := by
    rw [run_list, Dialog.alone, serve_answered server henv]
    show (listed base64 u.path ((docs.filter (server.hits query)).take 1000), docs) = _
    rw [List.take_of_length_le hlen, listed_eq_entryAt]
  have hentry : ∀ doc ∈ docs, ∃ q e, Fits q ∧ doc.title = title q.1 q.2 ∧
      (shelf base64 docs).Has q e ∧
      entry doc = if u.isAncestorOf ⟨q.1⟩ then some e else none := by
    intro doc hdoc
    obtain ⟨q, hq, ht⟩ := h.titled doc hdoc
    obtain ⟨e, he, _, hhas⟩ := h.entry hdoc hq ht
    refine ⟨q, e, hq, ht, hhas, ?_⟩
    simp only [entry, entryAt, ht, hq.parse, he]
    rfl
  -- an entry that is listed is that of a document, whose title it has
  have hlisted : ∀ doc ∈ docs.filter (server.hits query), ∀ e, entry doc = some e →
      title e.scope e.key = doc.title ∧ u.isAncestorOf ⟨e.scope⟩ = true ∧
        (shelf base64 docs).Has (e.scope, e.key) e := by
    intro doc hdoc e he
    obtain ⟨q, e', _, ht, hhas, heq⟩ := hentry doc (List.mem_filter.mp hdoc).1
    rw [heq, Option.ite_none_right_eq_some] at he
    obtain ⟨ha, he⟩ := he
    obtain rfl := Option.some.inj he
    obtain rfl := hhas.place
    exact ⟨ht.symm, ha, hhas⟩
  refine ⟨_, halone, ?_, fun e he => ?_, fun q => ?_⟩
  · have hsub := map_filterMap_sublist (fun e : StorageEntry => title e.scope e.key)
      fun doc hdoc e he => (hlisted doc hdoc e he).1
    have hnodup := h.tidy.nodup_titles.sublist (hsub.trans (List.filter_sublist.map _))
    have hmap := List.map_map (f := fun e : StorageEntry => (e.scope, e.key))
      (g := fun q : Spot => title q.1 q.2)
      (l := (docs.filter (server.hits query)).filterMap entry)
    exact List.Nodup.of_map _ (hmap ▸ hnodup)
  · obtain ⟨doc, hdoc, hsome⟩ := List.mem_filterMap.mp he
    exact (hlisted doc hdoc e hsome).2.2
  · constructor
    · intro hmem
      obtain ⟨e, he, rfl⟩ := hmem
      obtain ⟨doc, hdoc, hsome⟩ := List.mem_filterMap.mp he
      obtain ⟨_, ha, hhas⟩ := hlisted doc hdoc e hsome
      exact ⟨ha, Option.isSome_iff_exists.mpr ⟨_, hhas.data⟩⟩
    · intro hview
      obtain ⟨ha, hview⟩ := hview
      obtain ⟨data, hview⟩ := Option.isSome_iff_exists.mp hview
      obtain ⟨hq, doc, hdoc, ht, hd⟩ := (h.docsView_eq_some_iff data).mp hview
      obtain ⟨q', e, hfits, ht', hhas, heq⟩ := hentry doc hdoc
      obtain rfl := hfits.title_inj hq (ht'.symm.trans ht)
      rw [if_pos ha] at heq
      refine ⟨e, List.mem_filterMap.mpr ⟨doc, List.mem_filter.mpr ⟨hdoc, ?_⟩, heq⟩, hhas.place⟩
      exact hstarts _ _ (ht ▸ query_prefix hq ha)

theorem exec_onServer {α : Type} (p : Http α) (s : ClientState) :
    (onServer server p).exec s = ((p.run.alone server.serve s.2 s.1).1,
      ((p.run.alone server.serve s.2 s.1).2, fun n => s.2 (n + 2))) := rfl

/-- The client of a server that answers every request, and finds titles by how they start, is a
shelf at the pairs whose titles read back. -/
theorem client_mapOn (hstarts : ∀ query doc, query <+: doc.title → server.hits query doc = true) :
    MapOn (client server base64) Fits
      (fun s => Shelved base64 s.1 ∧ ∀ n, (s.2 n).fate = .answered) (fun s => s.1.length ≤ 1000)
      (fun s => shelf base64 s.1) where
  places hs hview := ((hs.1.docsView_eq_some_iff _).mp hview).1
  list_small {s} scopePrefix hs hsmall := by
    obtain ⟨es, halone, _⟩ := list_answered server hs.1 (hs.2 0) hstarts hsmall ⟨scopePrefix⟩
    simp only [client, exec_onServer, halone]
    exact hsmall
  step {s} op hs hop := by
    have henv : ∀ n, (s.2 (n + 2)).fate = .answered := fun n => hs.2 _
    cases op with
    | put scope key data =>
      obtain ⟨id, docs', halone, hshelved, hshelf⟩ := put_answered server hs.1 hs.2 hop data
      simp only [StorageOp.exec, StorageOp.program, client, exec_onServer, halone]
      exact ⟨⟨hshelved, henv⟩, id, rfl, hshelf⟩
    | getByKey scope key =>
      obtain ⟨r, halone, hr⟩ := getByKey_answered server hs.1 (hs.2 0) hop
      simp only [StorageOp.exec, StorageOp.program, client, exec_onServer, halone]
      exact ⟨⟨hs.1, henv⟩, rfl, hr⟩
    | get id =>
      obtain ⟨r, halone, hr⟩ := get_answered server hs.1 (hs.2 0) id
      simp only [StorageOp.exec, StorageOp.program, client, exec_onServer, halone]
      exact ⟨⟨hs.1, henv⟩, rfl, hr⟩
    | list scopePrefix =>
      obtain ⟨es, halone, hes⟩ := list_answered server hs.1 (hs.2 0) hstarts hop ⟨scopePrefix⟩
      simp only [StorageOp.exec, StorageOp.program, client, exec_onServer, halone]
      exact ⟨⟨hs.1, henv⟩, rfl, es, rfl, hes⟩
    | delete id =>
      obtain ⟨r, docs', halone, hshelved, hr⟩ := delete_answered server hs.1 (hs.2 0) id
      simp only [StorageOp.exec, StorageOp.program, client, exec_onServer, halone]
      exact ⟨⟨hshelved, henv⟩, hr⟩

end Calls

end FileverseBackend
end ReadOnlyKeys
