import ReadOnlyKeys.Vault
import Mathlib.Data.List.TakeWhile

/-!
# Runs of the vault

A table says what the owner keeps under each name and for whom. A store writes a
row. A rekeying changes the readers of the rows at its scope, one after the
other, up to the first that its key does not read. The vault follows the table
through every run of both.
-/
namespace ReadOnlyKeys
open Outcome Wire

variable {ρ : Type} {C : Crypto (Vector UInt8)}

namespace Vault

/-- The key is among the readers of a document. -/
def Document.ReadBy (d : Document) (k : ReadKeyPair C) : Prop :=
  k.publicKey ∈ d.recipients.map Recipient.readPublicKey

instance (d : Document) (k : ReadKeyPair C) : Decidable (d.ReadBy k) :=
  inferInstanceAs (Decidable (_ ∈ _))

/-- A call that changes the vault, in some state of the thread's generator. -/
inductive Op (C : Crypto (Vector UInt8)) (ρ : Type) where
  | store (call : StoreCall ρ)
  | rekey (rootReadKey : ReadKeyPair C) (newRecipients : List (Recipient (Vector UInt8)))
      (order : List (List Char)) (scope : Scope) (r : ρ)

/-- The vault after a call, that has succeeded or not. -/
def step (rng : CryptoRng (Vector UInt8) ρ) (self : Vault C) : Op C ρ → Vault C
  | .store c => ((store rng c.name c.document.scope c.document.data
      c.document.recipients).exec (self, c.r)).2.1
  | .rekey rootReadKey newRecipients order scope r =>
      ((rekey rng rootReadKey newRecipients order scope).exec (self, r)).2.1

namespace Documents

/-- The documents at a scope or below, in the order given. -/
def below (docs : Documents) (order : List (List Char)) (scope : Scope) : List (List Char) :=
  order.filter fun name => (docs name).any fun d => scope.isAncestorOf d.scope

/-- Those that a rekeying gets to: up to the first that its key does not read. -/
def done (docs : Documents) (rootReadKey : ReadKeyPair C)
    (newRecipients : List (Recipient (Vector UInt8))) (order : List (List Char)) (scope : Scope) :
    List (List Char) :=
  if newRecipients = [] then []
  else (docs.below order scope).takeWhile fun name => (docs name).any fun d => d.ReadBy rootReadKey

/-- Documents get new readers. -/
def handOver (docs : Documents) (newRecipients : List (Recipient (Vector UInt8)))
    (names : List (List Char)) : Documents := fun name =>
  if names.contains name then (docs name).map fun d => { d with recipients := newRecipients }
  else docs name

/-- The table after a call. -/
def step (docs : Documents) : Op C ρ → Documents
  | .store c => if c.document.recipients = [] then docs
      else Function.update docs c.name (some c.document)
  | .rekey rootReadKey newRecipients order scope _ =>
      docs.handOver newRecipients (docs.done rootReadKey newRecipients order scope)

/-- What a reader gets of a document. -/
def retrieve (docs : Documents) (name : List Char) (q : ReadKeyPair C) : Result Bytes :=
  match docs name with
  | none => fail (.keyNotFound s!"document '{String.ofList name}' not found")
  | some d => if d.ReadBy q then .ok d.data
      else fail (.noMatchingAccessEntry (q.keyId.toBase58 C))

/-- What is listed of the documents. -/
def list (docs : Documents) (order : List (List Char)) (scopeFilter : Option Scope) :
    List VaultEntry :=
  (order.filter fun name => scopeFilter.all fun scope =>
    (docs name).any fun d => scope.isAncestorOf d.scope).filterMap fun name =>
      (docs name).map fun d => ⟨name, d.scope, d.data.length, d.recipients.length⟩

end Documents

/-- The recipients are named honestly, the data is of a length that the cipher takes, the map visits
no name twice, and no reader of a document is mistaken for the caller. -/
def Allowed (docs : Documents) : Op C ρ → Prop
  | .store c => Honest C c.document.recipients ∧
      C.chacha20Poly1305.Accepts c.document.data.length
  | .rekey rootReadKey newRecipients order _ _ => Honest C newRecipients ∧ order.Nodup ∧
      ∀ name d, docs name = some d → NoCollision rootReadKey d.recipients

/-- The vault beside the table. -/
def both (rng : CryptoRng (Vector UInt8) ρ) (s : Vault C × Documents) (op : Op C ρ) :
    Vault C × Documents := (s.1.step rng op, s.2.step op)

/-- The vault holds what the table says, for honestly named readers. -/
structure Follows (spendKey : SpendKeyPair C) (v : Vault C) (docs : Documents) : Prop where
  keeps : Keeps spendKey v docs
  honest : ∀ name d, docs name = some d → Honest C d.recipients

section Rows

variable {spendKey : SpendKeyPair C} {v v' : Vault C} {docs : Documents} {d : Document}
  {name : List Char} {q k : ReadKeyPair C} {newRecipients : List (Recipient (Vector UInt8))}
  {order : List (List Char)} {scope : Scope}

/-- A row and its envelope. -/
lemma Keeps.cases (h : Keeps spendKey v docs) (name : List Char) :
    (docs name = none ∧ v.documents.lookup name = none) ∨
    ∃ d e listed, docs name = some d ∧ v.documents.lookup name = some e ∧
      Encrypted (builder spendKey d.scope d.recipients) d.data spendKey listed e := by
  have hrel := h.documents name
  cases hd : docs name with
  | none =>
    rw [hd] at hrel
    cases hl : v.documents.lookup name with
    | none => exact .inl ⟨rfl, rfl⟩
    | some e =>
      rw [hl] at hrel
      cases hrel
  | some d =>
    obtain ⟨e, listed, hname, henc⟩ := h.exists_encrypted hd
    exact .inr ⟨d, e, listed, rfl, hname, henc⟩

/-- The vault and the table select the same documents. -/
theorem Keeps.selects_eq (h : Keeps spendKey v docs) (scope : Scope) (name : List Char) :
    v.selects scope name = (docs name).any fun d => scope.isAncestorOf d.scope := by
  rw [selects]
  rcases h.cases name with ⟨hd, hl⟩ | ⟨d, e, listed, hd, hl, henc⟩
  · rw [hd, hl]
    rfl
  · rw [hd, hl, Option.any_some, Option.any_some, henc.scope]
    rfl

theorem Follows.decrypt_eq (h : Follows spendKey v docs) (hC : C.Correct)
    (hd : docs name = some d) (hn : NoCollision q d.recipients) :
    ∃ e, v.documents.lookup name = some e ∧ decrypt e q v.verifyingKey =
      if d.ReadBy q then .ok d.data else fail (.noMatchingAccessEntry (q.keyId.toBase58 C)) := by
  obtain ⟨e, listed, hname, henc⟩ := h.keeps.exists_encrypted hd
  refine ⟨e, hname, ?_⟩
  have hsk : v.spendKey = spendKey := h.keeps.spendKey_eq
  rw [verifyingKey, hsk]
  have hopen := henc.decrypt_recipientMode hC rfl (h.honest name d hd) q hn
  by_cases hread : d.ReadBy q
  · rw [if_pos hread]
    exact hopen.trans (if_pos hread)
  · rw [if_neg hread]
    exact hopen.trans (if_neg hread)

/-- What a rekeying has done to the vault it has done to the table. -/
theorem Keeps.handOver {done : List (List Char)} (h : Keeps spendKey v docs)
    (hprog : Progress v k newRecipients done v')
    (hdata : ∀ name ∈ done, ∀ e p, v.documents.lookup name = some e →
      decrypt e k v.verifyingKey = .ok p → ∀ d, docs name = some d → d.data = p) :
    Keeps spendKey v' (docs.handOver newRecipients done) where
  spendKey_eq := hprog.spendKey.trans h.spendKey_eq
  documents name := by
    simp only [Documents.handOver, List.contains_iff_mem]
    by_cases hmem : name ∈ done
    · obtain ⟨e, p, e', listed', hname, hdec, hname', henc'⟩ := hprog.rekeyed name hmem
      rcases h.cases name with ⟨_, hl⟩ | ⟨d, e₀, listed, hd, hl, henc⟩
      · rw [hname] at hl
        cases hl
      · obtain rfl := Option.some.inj (hname.symm.trans hl)
        obtain rfl := hdata name hmem e p hname hdec d hd
        rw [if_pos hmem, hname', hd, Option.map_some]
        rw [h.spendKey_eq, henc.scope] at henc'
        exact .some ⟨listed', henc'⟩
    · rw [if_neg hmem, hprog.kept name hmem]
      exact h.documents name

/-- A rekeying does the documents that the table says, and succeeds when these are all. -/
theorem Follows.rekey_exec (h : Follows spendKey v docs) (hC : C.Correct)
    (hA : C.aes256GcmSiv.Accepts 32) (hT : C.chacha20Poly1305.Tagged)
    (hE : C.chacha20Poly1305.Reencrypts) (rng : CryptoRng (Vector UInt8) ρ)
    (newRecipients : List (Recipient (Vector UInt8))) (horder : order.Nodup)
    (hn : ∀ name d, docs name = some d → NoCollision k d.recipients) (scope : Scope) (r : ρ) :
    ∃ res v' r', (rekey rng k newRecipients order scope).exec (v, r) = (res, (v', r')) ∧
      Progress v k newRecipients (docs.done k newRecipients order scope) v' ∧
      ∀ n, res = .ok n ↔ n = (docs.below order scope).length ∧
        docs.done k newRecipients order scope = docs.below order scope := by
  have hbelow : order.filter (v.selects scope) = docs.below order scope :=
    List.filter_congr fun name _ => h.keeps.selects_eq scope name
  have hnodup : (docs.below order scope).Nodup := horder.filter _
  rw [Vault.rekey_exec, hbelow]
  by_cases hR : newRecipients = []
  · -- The first encryption fails for want of recipients.
    subst hR
    rw [Documents.done, if_pos rfl]
    cases docs.below order scope with
    | nil => exact ⟨.ok 0, v, r, rfl, Progress.refl, by simp [eq_comm]⟩
    | cons name rest =>
      obtain ⟨f, hf⟩ : ∃ f, (rekeyDocument rng k [] name).exec (v, r) = (.error f, (v, r)) :=
        rekeyDocument_nil
      exact ⟨.error f, v, r, by simp only [Program.exec_forM_cons, hf], Progress.refl, by simp⟩
  · rw [Documents.done, if_neg hR]
    have hrow : ∀ name ∈ docs.below order scope, ∃ d e, docs name = some d ∧
        v.documents.lookup name = some e ∧ decrypt e k v.verifyingKey =
          if d.ReadBy k then .ok d.data
          else fail (.noMatchingAccessEntry (k.keyId.toBase58 C)) := by
      intro name hname
      obtain ⟨d, hd, _⟩ := Option.any_eq_true _ _ |>.mp (List.mem_filter.mp hname).2
      obtain ⟨e, hl, hdec⟩ := h.decrypt_eq hC hd (hn name d hd)
      exact ⟨d, e, hd, hl, hdec⟩
    generalize hread : (fun name => (docs name).any fun d => decide (d.ReadBy k)) = P
    have hopens : ∀ name ∈ (docs.below order scope).takeWhile P, Opens k v name := by
      intro name hname
      obtain ⟨d, e, hd, hl, hdec⟩ := hrow name ((List.takeWhile_prefix P).subset hname)
      have hP : P name = true := List.mem_takeWhile_imp hname
      rw [← hread] at hP
      simp only [hd, Option.any_some, decide_eq_true_eq] at hP
      exact ⟨e, d.data, hl, by rw [hdec, if_pos hP]⟩
    have hsplit := List.takeWhile_append_dropWhile (p := P) (l := docs.below order scope)
    cases hdrop : (docs.below order scope).dropWhile P with
    | nil =>
      rw [hdrop, List.append_nil] at hsplit
      rw [hsplit] at hopens ⊢
      obtain ⟨v', r', hexec, hprog⟩ := exists_rekeyLoop hA hT hE rng hR hnodup hopens r
      exact ⟨_, v', r', by rw [hexec], hprog, by simp [eq_comm]⟩
    | cons name after =>
      rw [hdrop] at hsplit
      have hmem : name ∈ docs.below order scope := by
        rw [← hsplit]
        exact List.mem_append_right _ List.mem_cons_self
      obtain ⟨d, e, hd, hl, hdec⟩ := hrow name hmem
      have hP : P name = false := by
        have hhead := List.head?_dropWhile_not P (docs.below order scope)
        simpa [hdrop] using hhead
      rw [← hread] at hP
      simp only [hd, Option.any_some, decide_eq_false_iff_not] at hP
      rw [if_neg hP] at hdec
      rw [← hsplit] at hnodup
      obtain ⟨v', r', hexec, hprog⟩ :=
        exists_rekeyLoop_fault hA hT hE rng hR hnodup hopens hl hdec r
      rw [hsplit] at hexec
      refine ⟨_, v', r', by rw [hexec], hprog, fun n => iff_of_false (by simp) fun hall => ?_⟩
      have hlength := congrArg List.length (hall.2.trans hsplit.symm)
      simp at hlength

/-- A store succeeds when it names a reader. -/
theorem Follows.store_exec (h : Follows spendKey v docs) (hA : C.aes256GcmSiv.Accepts 32)
    (hT : C.chacha20Poly1305.Tagged) (rng : CryptoRng (Vector UInt8) ρ) {c : StoreCall ρ}
    (hc : C.chacha20Poly1305.Accepts c.document.data.length) :
    (c.document.recipients = [] ∧ ∃ f, (store rng c.name c.document.scope c.document.data
      c.document.recipients).exec (v, c.r) = (.error f, (v, c.r))) ∨
    (c.document.recipients ≠ [] ∧ ∃ e r' listed, (store rng c.name c.document.scope c.document.data
        c.document.recipients).exec (v, c.r) = (.ok ⟨⟩, (v.insert c.name e, r')) ∧
      Encrypted (builder spendKey c.document.scope c.document.recipients) c.document.data spendKey
        listed e) := by
  have hsk : v.spendKey = spendKey := h.keeps.spendKey_eq
  rw [Vault.store_exec, hsk]
  by_cases hR : c.document.recipients = []
  · left
    refine ⟨hR, ?_⟩
    cases he : ((builder spendKey c.document.scope c.document.recipients).encrypt rng
        c.document.data).run c.r with
    | error f => exact ⟨f, rfl⟩
    | ok x =>
      obtain ⟨sk, listed, henc⟩ := EncryptBuilder.encrypt_run he
      have hresolve := henc.resolve_eq
      rw [hR] at hresolve
      cases hresolve
  · right
    obtain ⟨e, r', he⟩ := EncryptBuilder.encrypt_exists hA hT rng
      (b := builder spendKey c.document.scope c.document.recipients) rfl rfl hR
      (fun key nonce => hc key nonce _ rfl) c.r
    obtain ⟨sk, listed, henc⟩ := EncryptBuilder.encrypt_run he
    obtain rfl : spendKey = sk := Option.some.inj henc.spendKey_eq
    exact ⟨hR, e, r', listed, by rw [he], henc⟩

/-- Every allowed call keeps the vault in step with the table. -/
theorem Follows.step (h : Follows spendKey v docs) (hC : C.Correct)
    (hA : C.aes256GcmSiv.Accepts 32) (hT : C.chacha20Poly1305.Tagged)
    (hE : C.chacha20Poly1305.Reencrypts) (rng : CryptoRng (Vector UInt8) ρ) {op : Op C ρ}
    (hop : Allowed docs op) : Follows spendKey (v.step rng op) (docs.step op) := by
  cases op with
  | store c =>
    obtain ⟨hh, hc⟩ := hop
    rcases h.store_exec hA hT rng hc with ⟨hR, f, hexec⟩ | ⟨hR, e, r', listed, hexec, henc⟩
    · simp only [Vault.step, Documents.step, hexec, if_pos hR]
      exact h
    · simp only [Vault.step, Documents.step, hexec, if_neg hR]
      refine ⟨h.keeps.insert henc c.name, fun name d hd => ?_⟩
      by_cases hname : name = c.name
      · subst hname
        rw [Function.update_self] at hd
        exact Option.some.inj hd ▸ hh
      · rw [Function.update_of_ne hname] at hd
        exact h.honest name d hd
  | rekey k newRecipients order scope r =>
    obtain ⟨hh, horder, hn⟩ := hop
    obtain ⟨res, v', r', hexec, hprog, _⟩ :=
      h.rekey_exec hC hA hT hE rng newRecipients horder hn scope r
    simp only [Vault.step, Documents.step, hexec]
    refine ⟨h.keeps.handOver hprog fun name hmem e p hname hdec d hd => ?_, fun name d hd => ?_⟩
    · obtain ⟨e', hname', hdec'⟩ := h.decrypt_eq hC hd (hn name d hd)
      obtain rfl := Option.some.inj (hname.symm.trans hname')
      rw [hdec] at hdec'
      by_cases hread : d.ReadBy k
      · rw [if_pos hread] at hdec'
        exact (Except.ok.inj hdec').symm
      · rw [if_neg hread] at hdec'
        cases hdec'
    · unfold Documents.handOver at hd
      split_ifs at hd with hmem
      · obtain ⟨d', _, rfl⟩ := Option.map_eq_some_iff.mp hd
        exact hh
      · exact h.honest name d hd

/-- A reader gets what the table says. -/
theorem Follows.retrieve_eq (h : Follows spendKey v docs) (hC : C.Correct) (name : List Char)
    (hn : ∀ d, docs name = some d → NoCollision q d.recipients) :
    v.retrieve name q = docs.retrieve name q := by
  rw [Documents.retrieve]
  rcases h.keeps.cases name with ⟨hd, hl⟩ | ⟨d, _, _, hd, _, _⟩
  · rw [hd, retrieve, hl]
    rfl
  · obtain ⟨e, hl, hdec⟩ := h.decrypt_eq hC hd (hn d hd)
    rw [hd, retrieve_of_lookup hl, hdec]

/-- And a listing shows what the table says. -/
theorem Follows.list_eq (h : Follows spendKey v docs) (hT : C.chacha20Poly1305.Tagged)
    (order : List (List Char)) (scopeFilter : Option Scope) :
    v.list order scopeFilter = docs.list order scopeFilter := by
  rw [list, Documents.list]
  have hfilter : order.filter (fun name => scopeFilter.all fun scope => v.selects scope name) =
      order.filter fun name => scopeFilter.all fun scope =>
        (docs name).any fun d => scope.isAncestorOf d.scope :=
    List.filter_congr fun name _ => by simp only [h.keeps.selects_eq]
  rw [hfilter]
  refine List.filterMap_congr fun name _ => ?_
  rcases h.keeps.cases name with ⟨hd, hl⟩ | ⟨d, e, listed, hd, hl, henc⟩
  · rw [hd, hl]
    rfl
  · obtain ⟨rfl, _⟩ := henc.recipientMode rfl
    obtain ⟨ephemeral, dataKey, hs⟩ := henc.sealed
    have hsize : e.ciphertext.length = d.data.length := by
      have hlength := hT _ _ _ _ hs.payload
      simp only [List.length_append, asBytes_vector, Vector.length_toList] at hlength
      omega
    rw [hd, hl, Option.map_some, Option.map_some, henc.scope, hsize, ← hs.entries.length_eq]
    rfl

end Rows

/-- In every state that stores and rekeyings reach, whichever of them failed or stopped half-way,
the vault answers as the table does: what a reader gets, what is listed, and which calls succeed.
So a rekeying takes a document from its readers and keeps its data, or leaves it as it was. -/
theorem vault_follows_documents (hC : C.Correct) (hA : C.aes256GcmSiv.Accepts 32)
    (hT : C.chacha20Poly1305.Tagged) (hE : C.chacha20Poly1305.Reencrypts)
    (rng : CryptoRng (Vector UInt8) ρ) (spendKey : SpendKeyPair C) (ops : List (Op C ρ))
    (hops : Runs.Meets (both rng) (fun s op => Allowed s.2 op) (new spendKey, fun _ => none) ops)
    {v : Vault C} {docs : Documents}
    (hreached : Runs.Reached (both rng) (new spendKey, fun _ => none) ops (v, docs)) :
    (∀ name (q : ReadKeyPair C), (∀ d, docs name = some d → NoCollision q d.recipients) →
      v.retrieve name q = docs.retrieve name q) ∧
    (∀ order scopeFilter, v.list order scopeFilter = docs.list order scopeFilter) ∧
    (∀ c : StoreCall ρ, Allowed docs (.store c : Op C ρ) →
      (((store rng c.name c.document.scope c.document.data c.document.recipients).exec
        (v, c.r)).1 = .ok ⟨⟩ ↔ c.document.recipients ≠ [])) ∧
    ∀ k newRecipients order scope (r : ρ), Allowed docs (.rekey k newRecipients order scope r) →
      ∀ n, ((rekey rng k newRecipients order scope).exec (v, r)).1 = .ok n ↔
        n = (docs.below order scope).length ∧
          docs.done k newRecipients order scope = docs.below order scope := by
  have h : Follows spendKey v docs := by
    refine hreached.invariant_of_meets (I := fun s => Follows spendKey s.1 s.2) hops
      (fun s op hop hs => hs.step hC hA hT hE rng hop) ⟨⟨rfl, fun _ => .none⟩, fun _ _ hd => ?_⟩
    cases hd
  refine ⟨fun name q => h.retrieve_eq hC name, h.list_eq hT, fun c hc => ?_,
    fun k newRecipients order scope r hop n => ?_⟩
  · rcases h.store_exec hA hT rng hc.2 with ⟨hR, f, hexec⟩ | ⟨hR, e, r', listed, hexec, _⟩
    · rw [hexec]
      exact iff_of_false (by simp) (not_not_intro hR)
    · rw [hexec]
      exact iff_of_true rfl hR
  · obtain ⟨_, horder, hn⟩ := hop
    obtain ⟨res, v', r', hexec, _, hres⟩ :=
      h.rekey_exec hC hA hT hE rng newRecipients horder hn scope r
    rw [hexec]
    exact hres n

lemma honest_singleton (k : ReadKeyPair C) : Honest C [k.recipient] := by
  intro r hr
  rw [List.mem_singleton.mp hr]
  rfl

lemma noCollision_singleton {k k' : ReadKeyPair C}
    (h : k'.keyId = k.keyId → k'.publicKey = k.publicKey) : NoCollision k [k'.recipient] := by
  intro r hr hid
  rw [List.mem_singleton.mp hr] at hid ⊢
  exact h hid

/-- The root's document is handed over to the child. -/
def handover : List (Op Transparent.arrays ℕ) :=
  [.store ⟨['a'], ⟨⟨['/', 'a']⟩, [1, 2], [zeroRoot.recipient]⟩, 0⟩,
    .rekey zeroRoot [zeroChild.recipient] [['a']] ⟨['/']⟩ 3]

theorem vault_follows_documents_handover :
    ∃ v docs, Runs.run (both (Transparent.rng packArray)) (new (zeroSpend packArray), fun _ => none)
        handover = (v, docs) ∧
      v.retrieve ['a'] zeroChild = .ok [1, 2] ∧
      v.retrieve ['a'] zeroRoot =
        fail (.noMatchingAccessEntry (zeroRoot.keyId.toBase58 Transparent.arrays)) := by
  have hops : Runs.Meets (both (Transparent.rng packArray)) (fun s op => Allowed s.2 op)
      (new (zeroSpend packArray), fun _ => none) handover := by
    refine ⟨⟨honest_singleton zeroRoot, Transparent.aead_accepts _⟩,
      ⟨honest_singleton zeroChild, by decide, ?_⟩, trivial⟩
    intro name d hd
    have hd : Function.update (fun _ : List Char => (none : Option Document)) ['a']
        (some ⟨⟨['/', 'a']⟩, [1, 2], [zeroRoot.recipient]⟩) name = some d := hd
    by_cases hname : name = ['a']
    · rw [hname, Function.update_self] at hd
      obtain rfl := Option.some.inj hd
      exact noCollision_singleton fun _ => rfl
    · rw [Function.update_of_ne hname] at hd
      cases hd
  obtain ⟨v, docs, hrun, hdocs⟩ : ∃ v docs, Runs.run (both (Transparent.rng packArray))
      (new (zeroSpend packArray), fun _ => none) handover = (v, docs) ∧
      docs ['a'] = some ⟨⟨['/', 'a']⟩, [1, 2], [zeroChild.recipient]⟩ := ⟨_, _, rfl, rfl⟩
  have h := vault_follows_documents (Transparent.crypto_correct packArray)
    (Transparent.aead_accepts 32) Transparent.aead_tagged Transparent.aead_reencrypts
    (Transparent.rng packArray)
    (zeroSpend packArray) handover hops (hrun ▸ Runs.reached_run _ _ _)
  have hread : ∀ k : ReadKeyPair Transparent.arrays,
      (zeroChild.keyId = k.keyId → zeroChild.publicKey = k.publicKey) →
      v.retrieve ['a'] k = docs.retrieve ['a'] k := by
    intro k hk
    refine h.1 ['a'] k fun d hd => ?_
    obtain rfl := Option.some.inj (hdocs.symm.trans hd)
    exact noCollision_singleton hk
  refine ⟨v, docs, hrun, (hread zeroChild fun _ => rfl).trans ?_, (hread zeroRoot ?_).trans ?_⟩
  · simp only [Documents.retrieve, hdocs]
    exact if_pos List.mem_cons_self
  · decide +kernel
  · simp only [Documents.retrieve, hdocs]
    exact if_neg (by decide +kernel)

end Vault

end ReadOnlyKeys
