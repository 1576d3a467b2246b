import ReadOnlyKeys.VaultRuns
import ReadOnlyKeys.SectionNames

/-!
# Runs of rekeyings on a container

The rows of a table say which sections a container has and who reads them. A
rekeying of a name hands over the first section of that name, and the container
follows the table through every run of rekeyings.
-/
namespace ReadOnlyKeys
open Outcome Wire

variable {ρ : Type} {C : Crypto (Vector UInt8)}

namespace SectionedEnvelope

/-- What the owner knows of a section. -/
structure Row where
  name : List Char
  document : Vault.Document

/-- A section as its owner made it for its readers. -/
structure Made (spendKey : SpendKeyPair C) (row : Row) (sec : Section (Vector UInt8)) : Prop where
  name : sec.name = row.name
  honest : Honest C row.document.recipients
  encrypted : ∃ listed,
    Encrypted (Vault.builder spendKey row.document.scope row.document.recipients)
      row.document.data spendKey listed sec.envelope

/-- A section that the owner signed, sealed for the readers of its row. -/
structure Holds (spendKey : SpendKeyPair C) (row : Row) (sec : Section (Vector UInt8)) : Prop where
  name : sec.name = row.name
  scope : sec.envelope.scope = row.document.scope
  mode : sec.envelope.accessMode = .recipient
  spendPublicKey : sec.envelope.spendPublicKey = C.verifyingAsBytes spendKey.verifyingKey
  signature : sec.envelope.signature = C.sign spendKey.signingKey sec.envelope.signableBytes
  honest : Honest C row.document.recipients
  sealed : ∃ ephemeral dataKey,
    SealedWith C ephemeral dataKey row.document.recipients row.document.data sec.envelope

/-- The call has new readers and its key reads the row. -/
def RekeyCall.Fits (c : RekeyCall C ρ) (row : Row) : Prop :=
  c.newRecipients ≠ [] ∧ row.document.ReadBy c.authorizedKey

instance (c : RekeyCall C ρ) (row : Row) : Decidable (c.Fits row) :=
  inferInstanceAs (Decidable (_ ∧ _))

/-- The rows after a call. -/
def handOver (c : RekeyCall C ρ) : List Row → List Row
  | [] => []
  | row :: rest =>
      if row.name = c.sectionName then
        (if c.Fits row then
          { row with document := { row.document with recipients := c.newRecipients } }
        else row) :: rest
      else row :: handOver c rest

/-- The first section of the name is one that the call fits. -/
def RekeyCall.Succeeds (c : RekeyCall C ρ) (rows : List Row) : Prop :=
  ∃ row, rows.find? (fun row => row.name = c.sectionName) = some row ∧ c.Fits row

/-- The owner signs, the new readers are honest, and none of the present ones is mistaken for the
caller. -/
def RekeyCall.Allowed (c : RekeyCall C ρ) (spendKey : SpendKeyPair C) (rows : List Row) : Prop :=
  c.spendKey = spendKey ∧ Honest C c.newRecipients ∧
    ∀ row ∈ rows, NoCollision c.authorizedKey row.document.recipients

/-- The container beside the table. -/
def both (rng : CryptoRng (Vector UInt8) ρ) (s : SectionedEnvelope (Vector UInt8) × List Row)
    (c : RekeyCall C ρ) : SectionedEnvelope (Vector UInt8) × List Row :=
  (afterRekey rng s.1 c, handOver c s.2)

section Step

variable {rng : CryptoRng (Vector UInt8) ρ} {spendKey : SpendKeyPair C} {row : Row}
  {rows : List Row} {sec : Section (Vector UInt8)} {sections : List (Section (Vector UInt8))}
  {c : RekeyCall C ρ}

lemma ne_nil_of_rekeyRecipients {e e' : EncryptedEnvelope (Vector UInt8)} {k : ReadKeyPair C}
    {newRecipients : List (Recipient (Vector UInt8))} {r r' : ρ}
    (h : (ReadOnlyKeys.rekeyRecipients rng e k newRecipients spendKey).run r = .ok (e', r')) :
    newRecipients ≠ [] := by
  simp only [ReadOnlyKeys.rekeyRecipients, run_bind_eq_ok_iff, call_run_eq_ok_iff,
    require_eq_ok_iff] at h
  obtain ⟨_, _, _, _, _, ⟨hne, _⟩, _⟩ := h
  simpa using hne

theorem Made.holds (h : Made spendKey row sec) : Holds spendKey row sec := by
  obtain ⟨listed, henc⟩ := h.encrypted
  obtain ⟨rfl, hmode⟩ := henc.recipientMode rfl
  exact ⟨h.name, henc.scope, hmode, henc.spendPublicKey, henc.signature, h.honest, henc.sealed⟩

/-- The readers of the row read the section, and no one else. -/
theorem Holds.decrypt_eq (h : Holds spendKey row sec) (hC : C.Correct) {q : ReadKeyPair C}
    (hn : NoCollision q row.document.recipients) :
    decrypt sec.envelope q spendKey.verifyingKey = if row.document.ReadBy q then
      .ok row.document.data else fail (.noMatchingAccessEntry (q.keyId.toBase58 C)) := by
  obtain ⟨ephemeral, dataKey, hs⟩ := h.sealed
  have hver : C.verify spendKey.verifyingKey sec.envelope.signableBytes sec.envelope.signature =
      true := by
    rw [h.signature]
    exact hC.verify_sign _ _
  rw [decrypt, require_of _ _ hver, ok_bind, decryptKeyFor_recipient q h.mode, ok_bind]
  split_ifs with hq
  · rw [unwrapFor_of_mem hC hs.wrapped h.honest hn hq, ok_bind,
      decryptPayload_of_encrypt hC hs.payload]
  · rw [unwrapFor_of_notMem hs.wrapped h.honest hn hq, error_bind]

/-- A rekeying succeeds for a reader with a list of new ones, and it hands the section over. -/
theorem Holds.rekeyRecipients (h : Holds spendKey row sec) (hC : C.Correct) (hB : C.KeyBytes)
    (hA : C.aes256GcmSiv.Accepts 32) (hh : Honest C c.newRecipients)
    (hn : NoCollision c.authorizedKey row.document.recipients) (r : ρ) :
    (c.Fits row ∧ ∃ e' r', (ReadOnlyKeys.rekeyRecipients rng sec.envelope c.authorizedKey
        c.newRecipients spendKey).run r = .ok (e', r') ∧
      Holds spendKey { row with document := { row.document with recipients := c.newRecipients } }
        { sec with envelope := e' }) ∨
    (¬ c.Fits row ∧ ∃ f, (ReadOnlyKeys.rekeyRecipients rng sec.envelope c.authorizedKey
      c.newRecipients spendKey).run r = .error f) := by
  obtain ⟨ephemeral, dataKey, hs⟩ := h.sealed
  by_cases hfits : c.Fits row
  · have hun := unwrapFor_of_mem hC hs.wrapped h.honest hn hfits.2
    have hvk : C.verifyingFromBytes sec.envelope.spendPublicKey = some spendKey.verifyingKey := by
      rw [h.spendPublicKey, hB.fromBytes_asBytes]
    have hver : C.verify spendKey.verifyingKey sec.envelope.signableBytes sec.envelope.signature =
        true := by
      rw [h.signature]
      exact hC.verify_sign _ _
    obtain ⟨e', r', hrun⟩ := rekeyRecipients_exists hA rng h.mode hfits.1 hvk hver hun spendKey r
    have hre := rekeyRecipients_run hrun
    obtain ⟨dataKey', ephemeral', hkey, hpublic, hwraps⟩ := hre.rewrapped
    obtain rfl := asBytes_injective 32 (Except.ok.inj (hkey.symm.trans hun))
    refine .inl ⟨hfits, e', r', hrun, h.name, hre.scope.trans h.scope, hre.new_mode,
      hre.spendPublicKey, hre.signature, hh, ephemeral', dataKey', hpublic, ?_, hwraps⟩
    rw [hre.nonce, hre.ciphertext, hre.tag]
    exact hs.payload
  · refine .inr ⟨hfits, ?_⟩
    cases hrun : (ReadOnlyKeys.rekeyRecipients rng sec.envelope c.authorizedKey c.newRecipients
        spendKey).run r with
    | error f => exact ⟨f, rfl⟩
    | ok x =>
      -- Past its checks the call had readers, and a key that opened an entry.
      have hlist := ne_nil_of_rekeyRecipients hrun
      obtain ⟨dataKey', ephemeral', hkey, _⟩ := (rekeyRecipients_run hrun).rewrapped
      have hread : ¬ row.document.ReadBy c.authorizedKey := fun hread => hfits ⟨hlist, hread⟩
      rw [unwrapFor_of_notMem hs.wrapped h.honest hn hread] at hkey
      cases hkey

/-- The loop over the sections hands over the first of the name, or fails. -/
theorem rekeyFirst_follows (hC : C.Correct) (hB : C.KeyBytes) (hA : C.aes256GcmSiv.Accepts 32)
    (h : List.Forall₂ (Holds spendKey) rows sections) (hc : c.Allowed spendKey rows) (r : ρ) :
    (c.Succeeds rows ∧ ∃ sections' r', (rekeyFirst rng c.sectionName c.authorizedKey c.newRecipients
        spendKey sections).run r = .ok (sections', r') ∧
      List.Forall₂ (Holds spendKey) (handOver c rows) sections') ∨
    (¬ c.Succeeds rows ∧ handOver c rows = rows ∧ ∃ f, (rekeyFirst rng c.sectionName c.authorizedKey
      c.newRecipients spendKey sections).run r = .error f) := by
  obtain ⟨-, hh, hn⟩ := hc
  induction h with
  | nil => exact .inr ⟨by simp [RekeyCall.Succeeds], rfl, _, rfl⟩
  | @cons row sec rows sections hrow hrest ih =>
    rw [rekeyFirst, handOver]
    by_cases hname : row.name = c.sectionName
    · have hfind : c.Succeeds (row :: rows) ↔ c.Fits row := by
        simp [RekeyCall.Succeeds, hname]
      rw [hfind, if_pos (hrow.name.trans hname), if_pos hname]
      rcases hrow.rekeyRecipients hC hB hA hh (hn row List.mem_cons_self) r with
        ⟨hfits, e', r', hrun, hnew⟩ | ⟨hfits, f, hrun⟩
      · refine .inl ⟨hfits, { sec with envelope := e' } :: sections, r', ?_, ?_⟩
        · rw [run_bind_eq_ok_iff]
          exact ⟨e', r', hrun, rfl⟩
        · rw [if_pos hfits]
          exact .cons hnew hrest
      · refine .inr ⟨hfits, by rw [if_neg hfits], f, ?_⟩
        rw [StateT.run_bind, hrun]
        rfl
    · have hfind : c.Succeeds (row :: rows) ↔ c.Succeeds rows := by
        simp [RekeyCall.Succeeds, hname]
      rw [hfind, if_neg (hrow.name ▸ hname), if_neg hname]
      rcases ih fun row hrow => hn row (List.mem_cons_of_mem _ hrow) with
        ⟨hsucceeds, sections', r', hrun, hnew⟩ | ⟨hfails, hsame, f, hrun⟩
      · refine .inl ⟨hsucceeds, sec :: sections', r', ?_, .cons hrow hnew⟩
        rw [run_bind_eq_ok_iff]
        exact ⟨sections', r', hrun, rfl⟩
      · refine .inr ⟨hfails, by rw [hsame], f, ?_⟩
        rw [StateT.run_bind, hrun]
        rfl

theorem rekeySection_follows (hC : C.Correct) (hB : C.KeyBytes) (hA : C.aes256GcmSiv.Accepts 32)
    {self : SectionedEnvelope (Vector UInt8)} (h : List.Forall₂ (Holds spendKey) rows self.sections)
    (hc : c.Allowed spendKey rows) :
    (c.Succeeds rows ∧ ∃ sections' r', (rekeySection rng c.sectionName c.authorizedKey
        c.newRecipients c.spendKey self).run c.r = .ok (⟨self.version, sections'⟩, r') ∧
      List.Forall₂ (Holds spendKey) (handOver c rows) sections') ∨
    (¬ c.Succeeds rows ∧ handOver c rows = rows ∧ ∃ f, (rekeySection rng c.sectionName
      c.authorizedKey c.newRecipients c.spendKey self).run c.r = .error f) := by
  rw [rekeySection, hc.1]
  rcases rekeyFirst_follows hC hB hA h hc c.r with
    ⟨hsucceeds, sections', r', hrun, hnew⟩ | ⟨hfails, hsame, f, hrun⟩
  · refine .inl ⟨hsucceeds, sections', r', ?_, hnew⟩
    rw [run_bind_eq_ok_iff]
    exact ⟨sections', r', hrun, rfl⟩
  · refine .inr ⟨hfails, hsame, f, ?_⟩
    rw [StateT.run_bind, hrun]
    rfl

/-- So a call keeps the container in step with the table. -/
theorem afterRekey_follows (hC : C.Correct) (hB : C.KeyBytes) (hA : C.aes256GcmSiv.Accepts 32)
    {self : SectionedEnvelope (Vector UInt8)} (h : List.Forall₂ (Holds spendKey) rows self.sections)
    (hc : c.Allowed spendKey rows) : (afterRekey rng self c).version = self.version ∧
      List.Forall₂ (Holds spendKey) (handOver c rows) (afterRekey rng self c).sections := by
  unfold afterRekey
  rcases rekeySection_follows hC hB hA h hc with
    ⟨_, sections', r', hrun, hnew⟩ | ⟨_, hsame, f, hrun⟩
  · rw [hrun]
    exact ⟨rfl, hnew⟩
  · rw [hrun, hsame]
    exact ⟨rfl, h⟩

/-- What a row keeps when its section is handed over. -/
lemma map_handOver {α : Type} (g : Row → α) (hg : ∀ row recipients,
    g { row with document := { row.document with recipients := recipients } } = g row)
    (c : RekeyCall C ρ) (rows : List Row) : (handOver c rows).map g = rows.map g := by
  induction rows with
  | nil => rfl
  | cons row rest ih =>
    rw [handOver]
    split_ifs with hname hfits
    · rw [List.map_cons, hg, List.map_cons]
    · rfl
    · rw [List.map_cons, ih, List.map_cons]

end Step

/-- Through any run of rekeyings of sections, of which some fail, a container keeps its version and
its sections with their names, scopes and data, and a section is read by exactly those that the last
successful rekeying of its name lists, the first of the name before any other. A rekeying succeeds
when there are new readers and its key is one of the present ones. -/
theorem sections_follow_rows (hC : C.Correct) (hB : C.KeyBytes) (hA : C.aes256GcmSiv.Accepts 32)
    (rng : CryptoRng (Vector UInt8) ρ) (spendKey : SpendKeyPair C)
    (self : SectionedEnvelope (Vector UInt8)) {rows : List Row}
    (hmade : List.Forall₂ (Made spendKey) rows self.sections) (calls : List (RekeyCall C ρ))
    (hcalls : Runs.Meets (both rng) (fun s c => c.Allowed spendKey s.2) (self, rows) calls)
    {self' : SectionedEnvelope (Vector UInt8)} {rows' : List Row}
    (hreached : Runs.Reached (both rng) (self, rows) calls (self', rows')) :
    self'.version = self.version ∧
    rows'.map (fun row => (row.name, row.document.scope, row.document.data)) =
      rows.map (fun row => (row.name, row.document.scope, row.document.data)) ∧
    List.Forall₂ (fun row sec => sec.name = row.name ∧ sec.envelope.scope = row.document.scope ∧
      ∀ q : ReadKeyPair C, NoCollision q row.document.recipients →
        decrypt sec.envelope q spendKey.verifyingKey = if row.document.ReadBy q then
          .ok row.document.data else fail (.noMatchingAccessEntry (q.keyId.toBase58 C)))
      rows' self'.sections ∧
    ∀ c : RekeyCall C ρ, c.Allowed spendKey rows' →
      ((∃ x, (rekeySection rng c.sectionName c.authorizedKey c.newRecipients c.spendKey self').run
        c.r = .ok x) ↔ c.Succeeds rows') := by
  have hinit : List.Forall₂ (Holds spendKey) rows self.sections := hmade.imp fun _ _ h => h.holds
  have hinv : self'.version = self.version ∧
      rows'.map (fun row => (row.name, row.document.scope, row.document.data)) =
        rows.map (fun row => (row.name, row.document.scope, row.document.data)) ∧
      List.Forall₂ (Holds spendKey) rows' self'.sections := by
    refine hreached.invariant_of_meets (I := fun s => s.1.version = self.version ∧
      s.2.map (fun row => (row.name, row.document.scope, row.document.data)) =
        rows.map (fun row => (row.name, row.document.scope, row.document.data)) ∧
      List.Forall₂ (Holds spendKey) s.2 s.1.sections) hcalls (fun s c hc hs => ?_)
      ⟨rfl, rfl, hinit⟩
    obtain ⟨hversion, hrows, hholds⟩ := hs
    obtain ⟨hkept, hnew⟩ := afterRekey_follows hC hB hA hholds hc
    exact ⟨hkept.trans hversion, (map_handOver _ (fun _ _ => rfl) c s.2).trans hrows, hnew⟩
  obtain ⟨hversion, hrows, hholds⟩ := hinv
  refine ⟨hversion, hrows, hholds.imp fun row sec h => ⟨h.name, h.scope, fun q => h.decrypt_eq hC⟩,
    fun c hc => ?_⟩
  rcases rekeySection_follows hC hB hA hholds hc with
    ⟨hsucceeds, sections', r', hrun, _⟩ | ⟨hfails, _, f, hrun⟩
  · exact iff_of_true ⟨_, hrun⟩ hsucceeds
  · exact iff_of_false (by simp [hrun]) hfails

/-- The root's section is handed over to the child. -/
theorem sections_follow_rows_handover : ∃ e s self' rows',
    ((Vault.builder (zeroSpend packArray) ⟨['/', 'a']⟩ [zeroRoot.recipient]).encrypt
      (Transparent.rng packArray) [1, 2]).run 0 = .ok (e, s) ∧
    Runs.run (both (Transparent.rng packArray))
      (⟨1, [⟨['n'], e⟩]⟩, [⟨['n'], ⟨⟨['/', 'a']⟩, [1, 2], [zeroRoot.recipient]⟩⟩])
      [⟨['n'], zeroRoot, [zeroChild.recipient], zeroSpend packArray, 9⟩] = (self', rows') ∧
    ∀ sec ∈ self'.sections, decrypt sec.envelope zeroChild (zeroSpend packArray).verifyingKey =
      .ok [1, 2] := by
  obtain ⟨e, s, he⟩ := EncryptBuilder.encrypt_exists (Transparent.aead_accepts 32)
    Transparent.aead_tagged (Transparent.rng packArray)
    (b := Vault.builder (zeroSpend packArray) ⟨['/', 'a']⟩ [zeroRoot.recipient]) rfl rfl
    (List.cons_ne_nil _ _) (fun k n => Transparent.aead_accepts _ k n _ rfl) 0
  obtain ⟨sk, listed, henc⟩ := EncryptBuilder.encrypt_run he
  obtain rfl : zeroSpend packArray = sk := Option.some.inj henc.spendKey_eq
  have hmade : List.Forall₂ (Made (zeroSpend packArray))
      [⟨['n'], ⟨⟨['/', 'a']⟩, [1, 2], [zeroRoot.recipient]⟩⟩] [⟨['n'], e⟩] :=
    .cons ⟨rfl, Vault.honest_singleton zeroRoot, listed, henc⟩ .nil
  obtain ⟨self', hrun⟩ : ∃ self', Runs.run (both (Transparent.rng packArray))
      (⟨1, [⟨['n'], e⟩]⟩, [⟨['n'], ⟨⟨['/', 'a']⟩, [1, 2], [zeroRoot.recipient]⟩⟩])
      [⟨['n'], zeroRoot, [zeroChild.recipient], zeroSpend packArray, 9⟩] =
        (self', [⟨['n'], ⟨⟨['/', 'a']⟩, [1, 2], [zeroChild.recipient]⟩⟩]) := ⟨_, rfl⟩
  have h := sections_follow_rows (Transparent.crypto_correct packArray)
    (Transparent.crypto_keyBytes packArray) (Transparent.aead_accepts 32)
    (Transparent.rng packArray) (zeroSpend packArray)
    ⟨1, [⟨['n'], e⟩]⟩ hmade [⟨['n'], zeroRoot, [zeroChild.recipient], zeroSpend packArray, 9⟩]
    ⟨⟨rfl, Vault.honest_singleton zeroChild, ?_⟩, trivial⟩ (hrun ▸ Runs.reached_run _ _ _)
  · refine ⟨e, s, self', _, he, hrun, fun sec hsec => ?_⟩
    obtain ⟨row, hrow, _, _, hread⟩ := exists_mem_of_forall₂ h.2.2.1 hsec
    obtain rfl := List.mem_singleton.mp hrow
    exact (hread zeroChild (Vault.noCollision_singleton fun _ => rfl)).trans
      (if_pos List.mem_cons_self)
  · intro row hrow
    obtain rfl := List.mem_singleton.mp hrow
    exact Vault.noCollision_singleton fun _ => rfl

end SectionedEnvelope

end ReadOnlyKeys
