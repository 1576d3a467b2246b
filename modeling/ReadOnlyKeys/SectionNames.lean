import ReadOnlyKeys.SectionedProto
import ReadOnlyKeys.Lib.Runs

/-!
# Section names

The builder refuses a name that is already used and a container without sections.
The decoders do not: the names in the headers of a file are the names of the
container, whatever they are, and rekeying keeps them.
-/
namespace ReadOnlyKeys
open Outcome Wire

variable {ρ : Type} {C : Crypto (Vector UInt8)}

namespace SectionedEnvelopeBuilder

/-- The builder after a call of `add_section`, which a call that fails leaves alone. -/
def afterAdd (self : SectionedEnvelopeBuilder (Vector UInt8))
    (call : List Char × EncryptedEnvelope (Vector UInt8)) :
    SectionedEnvelopeBuilder (Vector UInt8) :=
  match self.addSection call.1 call.2 with
  | .ok self' => self'
  | .error _ => self

theorem afterAdd_names_nodup {self : SectionedEnvelopeBuilder (Vector UInt8)}
    (h : (self.sections.map Section.name).Nodup)
    (call : List Char × EncryptedEnvelope (Vector UInt8)) :
    ((self.afterAdd call).sections.map Section.name).Nodup := by
  unfold afterAdd
  cases hadd : self.addSection call.1 call.2 with
  | error f => exact h
  | ok self' =>
    rw [addSection, bind_eq_ok_iff] at hadd
    obtain ⟨_, hnew, hadd⟩ := hadd
    obtain rfl := Except.ok.inj hadd
    rw [require_eq_ok_iff] at hnew
    have hnot : call.1 ∉ self.sections.map Section.name := by
      intro hmem
      obtain ⟨x, hx, hname⟩ := List.mem_map.mp hmem
      exact hnew (List.any_eq_true.mpr ⟨x, hx, decide_eq_true hname⟩)
    simpa [List.nodup_append] using ⟨h, fun x hx hname =>
      hnot (List.mem_map.mpr ⟨x, hx, hname⟩)⟩

end SectionedEnvelopeBuilder

namespace SectionedEnvelope

/-- There is a section, and no two have one name. -/
structure WellNamed (s : SectionedEnvelope (Vector UInt8)) : Prop where
  nonempty : s.sections ≠ []
  distinct : (s.sections.map Section.name).Nodup

/-- A call of `rekey_section`, in some state of the generator. -/
structure RekeyCall (C : Crypto (Vector UInt8)) (ρ : Type) where
  sectionName : List Char
  authorizedKey : ReadKeyPair C
  newRecipients : List (Recipient (Vector UInt8))
  spendKey : SpendKeyPair C
  r : ρ

/-- The container after a call, which a call that fails leaves alone. -/
def afterRekey (rng : CryptoRng (Vector UInt8) ρ) (self : SectionedEnvelope (Vector UInt8))
    (c : RekeyCall C ρ) : SectionedEnvelope (Vector UInt8) :=
  match (rekeySection rng c.sectionName c.authorizedKey c.newRecipients c.spendKey self).run c.r with
  | .ok (self', _) => self'
  | .error _ => self

theorem afterRekey_names (rng : CryptoRng (Vector UInt8) ρ)
    (self : SectionedEnvelope (Vector UInt8)) (c : RekeyCall C ρ) :
    (self.afterRekey rng c).sections.map Section.name = self.sections.map Section.name := by
  unfold afterRekey
  cases hrun : (rekeySection rng c.sectionName c.authorizedKey c.newRecipients c.spendKey
      self).run c.r with
  | error f => rfl
  | ok x =>
    obtain ⟨before, sec, envelope, after, heq, _, _, _, hself'⟩ := rekeySection_run rng
      c.sectionName c.authorizedKey c.newRecipients c.spendKey hrun
    simp only [hself', heq, List.map_append, List.map_cons]

/-- Rekeying neither makes nor mends a defect of the names. -/
theorem reached_wellNamed_iff (rng : CryptoRng (Vector UInt8) ρ)
    {s : SectionedEnvelope (Vector UInt8)} :
    (∀ (calls : List (RekeyCall C ρ)) s', Runs.Reached (afterRekey rng) s calls s' →
      s'.WellNamed) ↔ s.WellNamed := by
  constructor
  · intro h
    exact h [] s (Runs.reached_run _ _ _)
  · intro h calls s' hreached
    have hnames : s'.sections.map Section.name = s.sections.map Section.name :=
      hreached.invariant (I := fun x => x.sections.map Section.name = s.sections.map Section.name)
        (fun c _ x hx => (afterRekey_names rng x c).trans hx) rfl
    refine ⟨fun hnil => h.nonempty ?_, by rw [hnames]; exact h.distinct⟩
    rw [hnil] at hnames
    exact List.map_eq_nil_iff.mp hnames.symm

/-- In a well-named container a rekeying acts on the only section of its name. -/
theorem WellNamed.rekeySection_only {rng : CryptoRng (Vector UInt8) ρ} {sectionName : List Char}
    {authorizedKey : ReadKeyPair C} {newRecipients : List (Recipient (Vector UInt8))}
    {spendKey : SpendKeyPair C} {self self' : SectionedEnvelope (Vector UInt8)} {r r' : ρ}
    (h : self.WellNamed)
    (hrun : (rekeySection rng sectionName authorizedKey newRecipients spendKey self).run r =
      .ok (self', r')) :
    ∃ before sec envelope after, self.sections = before ++ sec :: after ∧
      (∀ x ∈ self.sections, x.name = sectionName ↔ x = sec) ∧
      self'.sections = before ++ { sec with envelope := envelope } :: after := by
  obtain ⟨before, sec, envelope, after, heq, hname, _, _, rfl⟩ := rekeySection_run rng
    sectionName authorizedKey newRecipients spendKey hrun
  have hsec : sec ∈ self.sections := by
    rw [heq]
    exact List.mem_append_right _ List.mem_cons_self
  refine ⟨before, sec, envelope, after, heq, fun x hx => ⟨fun hxn => ?_, fun hxs => ?_⟩, rfl⟩
  · exact List.inj_on_of_nodup_map h.distinct hx hsec (hxn.trans hname.symm)
  · rw [hxs, hname]

/-- The number of sections that the bytes of a file announce. -/
def announcedCount (bytes : Bytes) : ℕ := leNat ((bytes.drop 8).take 2)

/-- The names in the next `n` section headers. The envelopes are skipped by their announced
lengths. -/
def announcedNames : ℕ → Bytes → List Bytes
  | 0, _ => []
  | n + 1, bytes =>
      let nameLen := leNat (bytes.take 2)
      let rest := bytes.drop (2 + nameLen)
      (bytes.drop 2).take nameLen ::
        announcedNames n (rest.drop (4 + leNat (rest.take 4)))

theorem announcedNames_cons {name inner : Bytes} (hname : name.length < 256 ^ 2)
    (hinner : inner.length < 256 ^ 4) (n : ℕ) (rest : Bytes) :
    announcedNames (n + 1) (leBytes 2 name.length ++ (name ++ (leBytes 4 inner.length ++
      (inner ++ rest)))) = name :: announcedNames n rest := by
  have hhead : (leBytes 2 name.length ++ name).length = 2 + name.length := by simp
  have hskip : (leBytes 4 inner.length ++ inner).length = 4 + inner.length := by simp
  simp only [announcedNames, List.take_left' (leBytes_length 2 name.length),
    List.drop_left' (leBytes_length 2 name.length), leNat_leBytes _ _ hname]
  rw [List.take_left' rfl, ← List.append_assoc, List.drop_left' hhead,
    List.take_left' (leBytes_length 4 inner.length), leNat_leBytes _ _ hinner,
    ← List.append_assoc, List.drop_left' hskip]

/-- The headers of sections that were read hold their names. -/
theorem announcedNames_of_layout {sections : List (Section (Vector UInt8))} {parts : List Bytes}
    (h : List.Forall₂ SectionLayout sections parts) (tail : Bytes) :
    announcedNames sections.length (parts.flatten ++ tail) =
      sections.map fun s => toUtf8 s.name := by
  induction h with
  | nil => rfl
  | @cons s part sections parts hs _ ih =>
    obtain ⟨inner, hname, hinner, _, _, rfl⟩ := hs
    simp only [List.flatten_cons, List.append_assoc, List.length_cons, List.map_cons]
    rw [announcedNames_cons hname hinner, ih]

/-- The bytes announce at least one section, and no name twice. -/
def NamesApart (bytes : Bytes) : Prop :=
  announcedCount bytes ≠ 0 ∧ (announcedNames (announcedCount bytes) (bytes.drop 10)).Nodup

/-- A container that was read is named as its bytes announce. -/
theorem fromBytes_wellNamed_iff {m : Overflow} {data : Slice}
    {s : SectionedEnvelope (Vector UInt8)} (h : fromBytes m data = .ok s) :
    s.WellNamed ↔ NamesApart data.bytes := by
  rw [fromBytes, (readSections_reads m data).run_zero] at h
  obtain ⟨_, ⟨hcount, parts, hparts, rfl⟩, tail, hdata⟩ := h
  have hhead : (magicBytes ++ leBytes 4 s.version.toNat).length = 8 := by simp [magicBytes]
  have hfile : data.bytes = (magicBytes ++ leBytes 4 s.version.toNat) ++
      (leBytes 2 s.sections.length ++ (parts.flatten ++ tail)) := by
    rw [← hdata]
    simp only [List.append_assoc]
  have hc : announcedCount data.bytes = s.sections.length := by
    rw [announcedCount, hfile, List.drop_left' hhead, List.take_left' (leBytes_length 2 _),
      leNat_leBytes _ _ hcount]
  have hn : announcedNames s.sections.length (data.bytes.drop 10) =
      (s.sections.map Section.name).map toUtf8 := by
    have hbody : data.bytes.drop 10 = parts.flatten ++ tail := by
      rw [show 10 = 8 + 2 from rfl, ← List.drop_drop, hfile, List.drop_left' hhead,
        List.drop_left' (leBytes_length 2 _)]
    rw [hbody, announcedNames_of_layout hparts, List.map_map]
    rfl
  rw [NamesApart, hc, hn, List.nodup_map_iff toUtf8_injective, ne_eq, List.length_eq_zero_iff]
  exact ⟨fun hw => ⟨hw.nonempty, hw.distinct⟩, fun hw => ⟨hw.1, hw.2⟩⟩

theorem mapM_tryFromProto_names {protos : List ProtoSection}
    {sections : List (Section (Vector UInt8))}
    (h : protos.mapM Section.tryFromProto = .ok sections) :
    sections.map Section.name = protos.map ProtoSection.name := by
  induction protos generalizing sections with
  | nil =>
    obtain rfl := Except.ok.inj h
    rfl
  | cons proto protos ih =>
    simp only [List.mapM_cons, bind_eq_ok_iff] at h
    obtain ⟨sec, hsec, rest, hrest, h⟩ := h
    obtain rfl := Except.ok.inj h
    simp only [Section.tryFromProto, bind_eq_ok_iff] at hsec
    obtain ⟨_, _, envelope, _, hsec⟩ := hsec
    obtain rfl := Except.ok.inj hsec
    rw [List.map_cons, List.map_cons, ih hrest]

/-- A container that was decoded is named as its message. -/
theorem fromProtoBytes_wellNamed_iff {decode : Bytes → Except String ProtoSectionedEnvelope}
    {bytes : Bytes} {msg : ProtoSectionedEnvelope} (hmsg : decode bytes = .ok msg)
    {s : SectionedEnvelope (Vector UInt8)} (h : fromProtoBytes decode bytes = .ok s) :
    s.WellNamed ↔ msg.sections ≠ [] ∧ (msg.sections.map ProtoSection.name).Nodup := by
  rw [fromProtoBytes, hmsg, mapErr_ok, ok_bind, tryFromProto, bind_eq_ok_iff] at h
  obtain ⟨sections, hsections, h⟩ := h
  obtain rfl := Except.ok.inj h
  have hnames := mapM_tryFromProto_names hsections
  have hnil : sections = [] ↔ msg.sections = [] := by
    rw [← List.map_eq_nil_iff (f := Section.name), hnames, List.map_eq_nil_iff]
  rw [← hnames, ne_eq, ← hnil]
  exact ⟨fun hw => ⟨hw.nonempty, hw.distinct⟩, fun hw => ⟨hw.1, hw.2⟩⟩

end SectionedEnvelope

/-- Calls of `add_section` and then `build` give a well-named container or none. -/
theorem SectionedEnvelopeBuilder.build_wellNamed
    {calls : List (List Char × EncryptedEnvelope (Vector UInt8))}
    {s : SectionedEnvelope (Vector UInt8)}
    (h : (Runs.run SectionedEnvelopeBuilder.afterAdd .new calls).build = .ok s) :
    s.WellNamed := by
  have hnodup := Runs.run_invariant
    (fun b : SectionedEnvelopeBuilder (Vector UInt8) => (b.sections.map Section.name).Nodup) calls
    (fun c _ b hb => afterAdd_names_nodup hb c) (s := .new) List.nodup_nil
  rw [build, bind_eq_ok_iff] at h
  obtain ⟨_, hne, h⟩ := h
  obtain rfl := Except.ok.inj h
  rw [require_eq_ok_iff] at hne
  exact ⟨by simpa using hne, hnodup⟩

/-- Where a container comes from. -/
inductive ContainerSource where
  | built (calls : List (List Char × EncryptedEnvelope (Vector UInt8)))
  | binary (m : Overflow) (data : Slice)
  | proto (bytes : Bytes)

namespace ContainerSource

variable (decode : Bytes → Except String ProtoSectionedEnvelope)

def container : ContainerSource → Result (SectionedEnvelope (Vector UInt8))
  | built calls => (Runs.run SectionedEnvelopeBuilder.afterAdd .new calls).build
  | binary m data => SectionedEnvelope.fromBytes m data
  | proto bytes => SectionedEnvelope.fromProtoBytes decode bytes

/-- What is read announces at least one section, and no name twice. -/
def NamesApart : ContainerSource → Prop
  | built _ => True
  | binary _ data => SectionedEnvelope.NamesApart data.bytes
  | proto bytes => ∀ msg, decode bytes = .ok msg →
      msg.sections ≠ [] ∧ (msg.sections.map ProtoSection.name).Nodup

end ContainerSource

/-- A container stays well named through every run of rekeyings exactly when what it was read
from is. -/
theorem wellNamed_iff (decode : Bytes → Except String ProtoSectionedEnvelope)
    (source : ContainerSource) {s : SectionedEnvelope (Vector UInt8)}
    (h : source.container decode = .ok s) (rng : CryptoRng (Vector UInt8) ρ) :
    (∀ (calls : List (SectionedEnvelope.RekeyCall C ρ)) s',
        Runs.Reached (SectionedEnvelope.afterRekey rng) s calls s' → s'.WellNamed) ↔
      source.NamesApart decode := by
  rw [SectionedEnvelope.reached_wellNamed_iff]
  cases source with
  | built calls => exact iff_of_true (SectionedEnvelopeBuilder.build_wellNamed h) trivial
  | binary m data => exact SectionedEnvelope.fromBytes_wellNamed_iff h
  | proto bytes =>
    cases hmsg : decode bytes with
    | error e =>
      simp only [ContainerSource.container, SectionedEnvelope.fromProtoBytes, hmsg] at h
      cases h
    | ok msg =>
      rw [SectionedEnvelope.fromProtoBytes_wellNamed_iff hmsg h]
      simp [ContainerSource.NamesApart, hmsg]

theorem wellNamed_iff_twoSections :
    ∃ data : Slice, SectionedEnvelope.fromBytes .wrapping data = .ok twoSections ∧
      ∀ (calls : List (SectionedEnvelope.RekeyCall Transparent.arrays ℕ)) s',
        Runs.Reached (SectionedEnvelope.afterRekey (Transparent.rng packArray)) twoSections calls s' →
          s'.WellNamed := by
  have hlen := SectionedEnvelope.toBytes_length_le (by decide) twoSections_fits
  have hread : SectionedEnvelope.fromBytes .wrapping ⟨twoSections.toBytes, hlen⟩ =
      .ok twoSections :=
    (SectionedEnvelope.fromBytes_toBytes_iff .wrapping rfl).mpr ⟨by decide, twoSections_fits⟩
  refine ⟨_, hread, (wellNamed_iff Prost.decode (.binary .wrapping _) hread _).mpr ?_⟩
  show SectionedEnvelope.NamesApart twoSections.toBytes
  exact ⟨by decide +kernel, by decide +kernel⟩

/-- A file of no sections, and one with two sections of one name. Rekeying that name leaves the
second open to the reader who was removed. -/
theorem badly_named_accepted :
    (Slice.ofBytes (SectionedEnvelope.magicBytes ++ leBytes 4 1 ++ leBytes 2 0) >>=
        SectionedEnvelope.fromBytes .wrapping) = .ok ⟨1, []⟩ ∧
      ∃ e s, (((zeroBuilder packArray ['/', 'a']).addRecipient zeroRoot.recipient).encrypt
          (Transparent.rng packArray) [1, 2]).run 0 = .ok (e, s) ∧
        (Slice.ofBytes (SectionedEnvelope.mk 1 [⟨['x'], e⟩, ⟨['x'], e⟩]).toBytes >>=
          SectionedEnvelope.fromBytes .wrapping) = .ok ⟨1, [⟨['x'], e⟩, ⟨['x'], e⟩]⟩ ∧
        ∃ self' s', (SectionedEnvelope.rekeySection (Transparent.rng packArray) ['x'] zeroRoot
            [zeroChild.recipient] (zeroSpend packArray) ⟨1, [⟨['x'], e⟩, ⟨['x'], e⟩]⟩).run s =
              .ok (self', s') ∧
          ∃ x ∈ self'.sections, x.name = ['x'] ∧
            decrypt x.envelope zeroRoot (zeroSpend packArray).verifyingKey = .ok [1, 2] := by
  refine ⟨by decide +kernel, ?_⟩
  obtain ⟨⟨e, s⟩, he, hread, hd, self', s', hrun, hlast⟩ :
      ∃ r, (((zeroBuilder packArray ['/', 'a']).addRecipient zeroRoot.recipient).encrypt
        (Transparent.rng packArray) [1, 2]).run 0 = .ok r ∧
      (Slice.ofBytes (SectionedEnvelope.mk 1 [⟨['x'], r.1⟩, ⟨['x'], r.1⟩]).toBytes >>=
        SectionedEnvelope.fromBytes .wrapping) = .ok ⟨1, [⟨['x'], r.1⟩, ⟨['x'], r.1⟩]⟩ ∧
      decrypt r.1 zeroRoot (zeroSpend packArray).verifyingKey = .ok [1, 2] ∧
      ∃ self' s', (SectionedEnvelope.rekeySection (Transparent.rng packArray) ['x'] zeroRoot
        [zeroChild.recipient] (zeroSpend packArray) ⟨1, [⟨['x'], r.1⟩, ⟨['x'], r.1⟩]⟩).run r.2 =
          .ok (self', s') ∧ (⟨['x'], r.1⟩ : Section (Vector UInt8)) ∈ self'.sections :=
    ⟨_, rfl, by decide +kernel, by decide +kernel, _, _, rfl, List.mem_cons_of_mem _
      List.mem_cons_self⟩
  exact ⟨e, s, he, hread, self', s', hrun, _, hlast, rfl, hd⟩

end ReadOnlyKeys
