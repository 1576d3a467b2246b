import ReadOnlyKeys.FileCommands
import ReadOnlyKeys.Lib.Json

/-!
# The commands on sectioned files

`encrypt-sections` reads the files that its flags or its manifest name and
writes one container. `decrypt-sections` writes those of its sections that the
key may read.
-/
namespace ReadOnlyKeys
open Outcome Wire

variable {ρ σ : Type} {C : Crypto (Vector UInt8)}

/-- A parsed section definition. -/
structure SectionDef where
  name : List Char
  scope : List Char
  file : List Char

structure EncryptSectionsArgs where
  sections : List (List Char)
  manifest : Option (List Char)
  spendSeed : String
  scopeBased : Bool
  algorithm : AlgorithmChoice
  format : Format
  output : Option (List Char)

/-- What stands before the first colon, and what stands behind it. -/
def splitColon : List Char → Option (List Char × List Char)
  | [] => none
  | c :: text =>
    if c = ':' then some ([], text) else (splitColon text).map fun p => (c :: p.1, p.2)

/-- A `--section` flag. `splitn(3, ':')` gives three parts where there are two colons. -/
def parseSectionFlag (flag : List Char) : Except (Fault CommandError) SectionDef := do
  let invalid : CommandError :=
    .text s!"invalid --section format '{String.ofList flag}': expected name:scope:file"
  let (name, rest) ← okOr (splitColon flag) invalid
  let (scope, file) ← okOr (splitColon rest) invalid
  return ⟨name, scope, file⟩

/-- The text is cut at its first colon. -/
lemma splitColon_eq_some_iff {text before rest : List Char} :
    splitColon text = some (before, rest) ↔ text = before ++ ':' :: rest ∧ ':' ∉ before := by
  induction text generalizing before with
  | nil => simp [splitColon]
  | cons c text ih =>
    rw [splitColon]
    by_cases hc : c = ':'
    · subst hc
      rw [if_pos rfl]
      cases before with
      | nil => simp [eq_comm]
      | cons x before => grind
    · rw [if_neg hc, Option.map_eq_some_iff]
      cases before with
      | nil => simp [hc]
      | cons x before =>
        constructor
        · intro h
          obtain ⟨p, hp, hcut⟩ := h
          obtain ⟨hcons, rfl⟩ := Prod.mk.inj hcut
          obtain ⟨rfl, rfl⟩ := List.cons.inj hcons
          obtain ⟨rfl, hbefore⟩ := ih.mp hp
          exact ⟨rfl, by simp [Ne.symm hc, hbefore]⟩
        · intro h
          obtain ⟨htext, hbefore⟩ := h
          obtain ⟨rfl, rfl⟩ := List.cons.inj htext
          refine ⟨(before, rest), ih.mpr ⟨rfl, ?_⟩, rfl⟩
          exact fun hmem => hbefore (List.mem_cons_of_mem _ hmem)

/-- A flag is a name, a scope and a file with colons between. Only the file may hold more. -/
theorem parseSectionFlag_eq_ok_iff {flag : List Char} {d : SectionDef} :
    parseSectionFlag flag = .ok d ↔ flag = d.name ++ ':' :: (d.scope ++ ':' :: d.file) ∧
      ':' ∉ d.name ∧ ':' ∉ d.scope := by
  simp only [parseSectionFlag, bind_eq_ok_iff, okOr_eq_ok_iff, Prod.exists, splitColon_eq_some_iff]
  constructor
  · intro h
    obtain ⟨name, rest, ⟨rfl, hname⟩, scope, file, ⟨rfl, hscope⟩, h⟩ := h
    obtain rfl := Except.ok.inj h
    exact ⟨rfl, hname, hscope⟩
  · intro h
    obtain ⟨hflag, hname, hscope⟩ := h
    exact ⟨d.name, _, ⟨hflag, hname⟩, d.scope, d.file, ⟨rfl, hscope⟩, rfl⟩

def parseSectionFlags (flags : List (List Char)) : Except (Fault CommandError) (List SectionDef) :=
  flags.mapM parseSectionFlag

/-- `entry[key].as_str()`. -/
def entryText (entry : Json) (key : String) : Option (List Char) :=
  match entry.members?.bind (Json.member? key) with
  | some (.string s) => some s.toList
  | _ => none

def parseEntry (entry : Json) : Except (Fault CommandError) SectionDef := do
  let name ← okOr (entryText entry "name") (.text "manifest entry missing 'name'")
  let scope ← okOr (entryText entry "scope") (.text "manifest entry missing 'scope'")
  let file ← okOr (entryText entry "file") (.text "manifest entry missing 'file'")
  return ⟨name, scope, file⟩

/-- The manifest. `readValues` is the JSON crate's reading of a list of values. -/
def parseManifest (readValues : List Char → Except String (List Json)) (fs : FileSystem σ)
    (path : List Char) : Program CommandError σ (List SectionDef) := do
  let bytes ← onFiles (fs.read path)
  let data ← Program.attempt (okOr (fromUtf8 bytes)
    (.cli (.io "stream did not contain valid UTF-8")))
  let entries ← Program.attempt (mapErr (readValues data) .text)
  Program.attempt (entries.mapM parseEntry)

/-- The bytes of a container. -/
def Format.sectionedBytes (encode : ProtoSectionedEnvelope → Bytes) (self : Format)
    (sectioned : SectionedEnvelope (Vector UInt8)) : Except (Fault CommandError) Bytes :=
  match self with
  | .binary => do
    let slice ← Slice.ofBytes sectioned.toBytes
    return slice.bytes
  | .proto => .ok (sectioned.toProtoBytes encode)

/-- The container of bytes. -/
def Format.sectioned (m : Overflow) (decode : Bytes → Except String ProtoSectionedEnvelope)
    (self : Format) (data : Bytes) : Result (SectionedEnvelope (Vector UInt8)) :=
  match self with
  | .binary => Slice.ofBytes data >>= SectionedEnvelope.fromBytes m
  | .proto => SectionedEnvelope.fromProtoBytes decode data

def AlgorithmChoice.label : AlgorithmChoice → String
  | .classical => "classical"
  | .hybrid => "hybrid"

/-- What `encrypt-sections` prints. -/
structure SectionsReport where
  output : List Char
  sections : List (List Char × List Char)
  algorithm : String
  format : String
  size : ℕ

namespace EncryptSectionsArgs

/-- Where the container is written. -/
def outputPath (self : EncryptSectionsArgs) : List Char := self.output.getD "output.roks".toList

/-- What a run reports. -/
def report (self : EncryptSectionsArgs) (sectionDefs : List SectionDef) (size : ℕ) :
    SectionsReport where
  output := self.outputPath
  sections := sectionDefs.map fun sectionDef => (sectionDef.name, sectionDef.scope)
  algorithm := self.algorithm.label
  format := self.format.label
  size := size

section Run

variable (K : MlKem768 (Vector UInt8) ρ) (rng : CryptoRng (Vector UInt8) ρ)
  (readValues : List Char → Except String (List Json)) (fs : FileSystem σ)
  (args : EncryptSectionsArgs)

def sectionDefs : Program CommandError σ (List SectionDef) :=
  match args.manifest with
  | some manifestPath => parseManifest readValues fs manifestPath
  | none =>
    if args.sections.isEmpty = false then Program.attempt (parseSectionFlags args.sections)
    else Program.attempt (.error (.err (.text "provide --section flags or --manifest")))

/-- The envelope of one section. -/
def envelope (spend : SpendKeyPair C) (scope : Scope) (plaintext : Bytes) :
    StateT ρ Result (EncryptedEnvelope (Vector UInt8)) :=
  match args.algorithm with
  | .hybrid => hybridEncrypt K rng plaintext scope spend
  | .classical =>
    let eb := (EncryptBuilder.new C .eciesX25519ChaCha20 scope).setSpendKey spend
    (if args.scopeBased then eb.setScopeBased else eb).encrypt rng plaintext

/-- One round of the loop over the definitions, with the generator's state. -/
def addDef (spend : SpendKeyPair C) (acc : SectionedEnvelopeBuilder (Vector UInt8) × ρ)
    (sectionDef : SectionDef) :
    Program CommandError σ (SectionedEnvelopeBuilder (Vector UInt8) × ρ) := do
  let plaintext ← onFiles (fs.read sectionDef.file)
  let scope ← Program.attempt (orStop (Scope.new sectionDef.scope))
  let (envelope, r) ← Program.attempt
    (orStop ((args.envelope K rng spend scope plaintext).run acc.2))
  let builder ← Program.attempt (orStop (acc.1.addSection sectionDef.name envelope))
  return (builder, r)

/-- `rok encrypt-sections`. -/
def run (C : Crypto (Vector UInt8)) (hexDecode : String → Except String Bytes)
    (encode : ProtoSectionedEnvelope → Bytes) (r : ρ) :
    Program CommandError σ SectionsReport := do
  let spend ← Program.attempt (spendOfSeed C hexDecode args.spendSeed)
  let sectionDefs ← args.sectionDefs readValues fs
  Program.attempt (require (sectionDefs.isEmpty = false)
    (.text "at least one section is required"))
  let (builder, _) ← sectionDefs.foldlM (args.addDef K rng fs spend) (.new, r)
  let sectioned ← Program.attempt (orStop builder.build)
  let bytes ← Program.attempt (args.format.sectionedBytes encode sectioned)
  onFiles (fs.write args.outputPath bytes)
  return args.report sectionDefs bytes.length

end Run

end EncryptSectionsArgs

/-- A section with its plaintext. -/
structure SectionContent where
  name : List Char
  scope : Scope
  plaintext : Bytes

/-- What a definition and the bytes of its file say. -/
def SectionDef.content (self : SectionDef) (plaintext : Bytes) : SectionContent :=
  ⟨self.name, ⟨self.scope⟩, plaintext⟩

namespace SectionMaker

variable {maker : SectionMaker C} {k : ReadKeyPair C}

end SectionMaker

/-- A section that the owner made for its scope. -/
def OwnSection.content {K : MlKem768 (Vector UInt8) ρ} {spendKey : SpendKeyPair C}
    (self : OwnSection K spendKey) : SectionContent :=
  ⟨self.sec.name, self.maker.scope, self.maker.plaintext⟩

/-- It is made for its scope, which is a scope. -/
structure OwnSection.ForScope {K : MlKem768 (Vector UInt8) ρ} {spendKey : SpendKeyPair C}
    (x : OwnSection K spendKey) : Prop where
  scopeBased : x.maker.scopeBased = true
  valid : x.maker.scope.Valid

/-- The binary format can carry what was made for a scope that it can carry. -/
lemma OwnSection.ForScope.fits {K : MlKem768 (Vector UInt8) ρ} {spendKey : SpendKeyPair C}
    {x : OwnSection K spendKey} (h : x.ForScope)
    (hlength : (toUtf8 x.maker.scope.path).length ≤ 65535) : x.maker.Fits := by
  have hbased := h.scopeBased
  revert hlength hbased
  cases x.maker with
  | classical b plaintext => exact fun hlength hbased => ⟨hlength, .inl hbased⟩
  | hybrid scope plaintext => exact fun hlength _ => hlength

namespace EncryptSectionsArgs

variable {K : MlKem768 (Vector UInt8) ρ} {rng : CryptoRng (Vector UInt8) ρ} {fs : FileSystem σ}
  {args : EncryptSectionsArgs} {spend : SpendKeyPair C}

/-- Only the scope decides who may read a section: a builder without recipients fails. -/
theorem exists_maker {scope : Scope} {plaintext : Bytes} {e : EncryptedEnvelope (Vector UInt8)}
    {r r' : ρ} (h : (args.envelope K rng spend scope plaintext).run r = .ok (e, r')) :
    ∃ maker : SectionMaker C, maker.Makes K spend e ∧ maker.scopeBased = true ∧
      maker.scope = scope ∧ maker.plaintext = plaintext ∧
      maker.algorithm = args.algorithm.algorithm := by
  unfold envelope at h
  cases halg : args.algorithm with
  | hybrid =>
    rw [halg] at h
    exact ⟨.hybrid scope plaintext, ⟨rng, r, r', h⟩, rfl, rfl, rfl, rfl⟩
  | classical =>
    rw [halg] at h
    cases hb : args.scopeBased with
    | true =>
      simp only [hb, if_true] at h
      exact ⟨.classical _ plaintext, ⟨rfl, rfl, (fun hfalse => by cases hfalse), ρ, rng, r, r', h⟩,
        rfl, rfl, rfl, rfl⟩
    | false =>
      simp only [hb, Bool.false_eq_true, if_false] at h
      obtain ⟨sk, recipients, henc⟩ := EncryptBuilder.encrypt_run h
      cases henc.resolve_eq

/-- One round reads a file and adds a section for its scope. -/
theorem addDef_eq_ok {b b' : SectionedEnvelopeBuilder (Vector UInt8)} {r r' : ρ} {d : SectionDef}
    {s s' : σ} (h : (args.addDef K rng fs spend (b, r) d).exec s = (.ok (b', r'), s')) :
    ∃ plaintext, (fs.read d.file).exec s = (.ok plaintext, s') ∧ ∃ x : OwnSection K spend,
      (x.ForScope ∧ x.maker.algorithm = args.algorithm.algorithm) ∧
      x.content = d.content plaintext ∧ b'.sections = b.sections ++ [x.sec] := by
  simp only [addDef, Program.exec_bind_eq_ok_iff, Program.exec_attempt_eq_ok_iff,
    exec_onFiles_eq_ok_iff, Program.exec_pure, Prod.mk.injEq, Except.ok.injEq, orStop,
    mapFault_eq_ok_iff] at h
  obtain ⟨plaintext, _, hread, scope, _, ⟨hscope, rfl⟩, ⟨e, r₁⟩, _, ⟨he, rfl⟩, b₁, _, ⟨hadd, rfl⟩,
    ⟨rfl, rfl⟩, rfl⟩ := h
  obtain ⟨rfl, hv⟩ := (Scope.new_eq_ok_iff _ _).mp hscope
  obtain ⟨maker, hmakes, hbased, hmaker, hplain, halg⟩ := exists_maker he
  rw [SectionedEnvelopeBuilder.addSection, bind_eq_ok_iff] at hadd
  obtain ⟨_, _, hadd⟩ := hadd
  obtain rfl := Except.ok.inj hadd
  refine ⟨plaintext, hread, ⟨⟨d.name, e⟩, maker, hmakes⟩, ⟨⟨hbased, hmaker ▸ hv⟩, halg⟩, ?_, rfl⟩
  rw [OwnSection.content, hmaker, hplain]
  rfl

/-- The loop reads the files in order and adds a section for each. -/
theorem foldlM_addDef_eq_ok {b b' : SectionedEnvelopeBuilder (Vector UInt8)} {r r' : ρ}
    {defs : List SectionDef} {s s' : σ}
    (h : (defs.foldlM (args.addDef K rng fs spend) (b, r)).exec s = (.ok (b', r'), s')) :
    ∃ plaintexts, (defs.mapM fun d => fs.read d.file).exec s = (.ok plaintexts, s') ∧
      ∃ own : List (OwnSection K spend),
        (∀ x ∈ own, x.ForScope ∧ x.maker.algorithm = args.algorithm.algorithm) ∧
        own.map OwnSection.content = defs.zipWith SectionDef.content plaintexts ∧
        b'.sections = b.sections ++ own.map OwnSection.sec := by
  induction defs generalizing b r s with
  | nil =>
    obtain ⟨hb, rfl⟩ := Prod.mk.inj h
    obtain ⟨rfl, rfl⟩ := Prod.mk.inj (Except.ok.inj hb)
    exact ⟨[], rfl, [], by simp, rfl, by simp⟩
  | cons d defs ih =>
    rw [List.foldlM_cons, Program.exec_bind_eq_ok_iff] at h
    obtain ⟨⟨b₁, r₁⟩, s₁, hadd, hrest⟩ := h
    obtain ⟨plaintext, hread, x, hx, hcontent, hb₁⟩ := addDef_eq_ok hadd
    obtain ⟨plaintexts, hreads, own, hown, hcontents, hb'⟩ := ih hrest
    refine ⟨plaintext :: plaintexts, ?_, x :: own, by simpa using ⟨hx, hown⟩, ?_, ?_⟩
    · rw [List.mapM_cons, Program.exec_bind_eq_ok_iff]
      refine ⟨plaintext, s₁, hread, ?_⟩
      rw [Program.exec_bind_eq_ok_iff]
      exact ⟨plaintexts, s', hreads, rfl⟩
    · rw [List.map_cons, List.zipWith_cons_cons, hcontent, hcontents]
    · rw [hb', hb₁, List.map_cons, List.append_assoc, List.singleton_append]

/-- The lengths of the definitions, and of the container, are within the widths of the format. -/
def Fits (args : EncryptSectionsArgs) (defs : List SectionDef) (data : Bytes) : Prop :=
  args.format = .binary → defs.length ≤ 65535 ∧
    (∀ d ∈ defs, (toUtf8 d.name).length ≤ 65535 ∧ (toUtf8 d.scope).length ≤ 65535) ∧
    data.length < 2 ^ 32

end EncryptSectionsArgs

section Reread

variable {K : MlKem768 (Vector UInt8) ρ} {spend : SpendKeyPair C}

/-- An envelope is no longer than the container that it is in. -/
lemma encodedSize_le_toBytes {sectioned : SectionedEnvelope (Vector UInt8)}
    {x : Section (Vector UInt8)} (hx : x ∈ sectioned.sections) :
    x.envelope.encodedSize ≤ sectioned.toBytes.length := by
  have hsum : (SectionedEnvelope.sectionBytes x).length ≤
      (sectioned.sections.map fun x => (SectionedEnvelope.sectionBytes x).length).sum :=
    List.le_sum_of_mem (List.mem_map_of_mem hx)
  simp only [SectionedEnvelope.toBytes, List.length_append, List.length_flatMap]
  rw [← EncryptedEnvelope.toBytes_length]
  simp only [SectionedEnvelope.sectionBytes, List.length_append] at hsum ⊢
  omega

/-- A container of such sections is read back from its bytes, in both formats. -/
theorem sectioned_reread (hT : C.aes256GcmSiv.Tagged) {encode : ProtoSectionedEnvelope → Bytes}
    {decode : Bytes → Except String ProtoSectionedEnvelope} (hP : DecodeInverts encode decode)
    (m : Overflow) {own : List (OwnSection K spend)} (hown : ∀ x ∈ own, x.ForScope)
    {args : EncryptSectionsArgs} {defs : List SectionDef} {plaintexts : List Bytes} {data : Bytes}
    (hcontents : own.map OwnSection.content = defs.zipWith SectionDef.content plaintexts)
    (hdata : args.format.sectionedBytes encode ⟨1, own.map OwnSection.sec⟩ = .ok data)
    (hfits : args.Fits defs data) :
    args.format.sectioned m decode data = .ok ⟨1, own.map OwnSection.sec⟩ := by
  have hscope : ∀ x ∈ own, x.sec.envelope.scope.Valid := by
    intro x hx
    rw [x.made.scope_eq]
    exact (hown x hx).valid
  unfold Format.sectioned
  cases hf : args.format with
  | binary =>
    obtain ⟨hcount, hlengths, hsize⟩ := hfits hf
    rw [hf, Format.sectionedBytes, bind_eq_ok_iff] at hdata
    obtain ⟨slice, hslice, hdata⟩ := hdata
    obtain rfl := Except.ok.inj hdata
    unfold Slice.ofBytes at hslice
    split_ifs at hslice with hmax
    obtain rfl := Except.ok.inj hslice
    simp only [Slice.ofBytes, dif_pos hmax, ok_bind]
    rw [SectionedEnvelope.fromBytes_toBytes_iff m rfl]
    constructor
    · have hlength := congrArg List.length hcontents
      simp only [List.length_map, List.length_zipWith] at hlength ⊢
      omega
    · intro sec hsec
      obtain ⟨x, hx, rfl⟩ := List.mem_map.mp hsec
      have hin : x.content ∈ defs.zipWith SectionDef.content plaintexts :=
        hcontents ▸ List.mem_map_of_mem hx
      rw [← List.map_uncurry_zip_eq_zipWith] at hin
      obtain ⟨⟨d, p⟩, hd, hcontent⟩ := List.mem_map.mp hin
      obtain ⟨hname, hpath⟩ := hlengths d (List.of_mem_zip hd).1
      obtain ⟨hsame, hfor, _⟩ := SectionContent.mk.inj hcontent
      have hmade := (x.made.limits hT (hown x hx).valid).1.mpr
        ((hown x hx).fits (hfor ▸ hpath))
      exact ⟨hsame ▸ hname, hmade.1, hmade.2, (encodedSize_le_toBytes hsec).trans_lt hsize⟩
  | proto =>
    rw [hf] at hdata
    obtain rfl := Except.ok.inj hdata
    rw [SectionedEnvelope.fromProtoBytes, SectionedEnvelope.toProtoBytes,
      hP _ (SectionedEnvelope.toProto_typed _), mapErr_ok, ok_bind]
    refine SectionedEnvelope.tryFromProto_toProto fun x hx => ?_
    obtain ⟨y, hy, rfl⟩ := List.mem_map.mp hx
    exact ⟨hscope y hy, (y.made.limits hT (hown y hy).valid).2⟩

end Reread

section Pipeline

variable {E : KeyText} {K : MlKem768 (Vector UInt8) ρ} {hexDecode : String → Except String Bytes}
  {readValues : List Char → Except String (List Json)} {encode : ProtoSectionedEnvelope → Bytes}
  {decode : Bytes → Except String ProtoSectionedEnvelope} {m : Overflow}
  {rng : CryptoRng (Vector UInt8) ρ} {r : ρ} {fs : FileSystem σ} {s s₁ : σ}
  {spend : SpendKeyPair C} {k : ReadKeyPair C} {names : List (List Char)}

/-- What a run of `encrypt-sections` that succeeds has done. -/
theorem EncryptSectionsArgs.run_eq_ok {args : EncryptSectionsArgs} {report : SectionsReport}
    (h : (args.run K rng readValues fs C hexDecode encode r).exec s = (.ok report, s₁)) :
    ∃ spend defs plaintexts data s₀ mid, spendOfSeed C hexDecode args.spendSeed = .ok spend ∧
      (args.sectionDefs readValues fs).exec s = (.ok defs, s₀) ∧
      (defs.mapM fun d => fs.read d.file).exec s₀ = (.ok plaintexts, mid) ∧
      (fs.write report.output data).exec mid = (.ok ⟨⟩, s₁) ∧
      report = args.report defs data.length ∧ ∃ own : List (OwnSection K spend),
        (∀ x ∈ own, x.ForScope ∧ x.maker.algorithm = args.algorithm.algorithm) ∧
        own.map OwnSection.content = defs.zipWith SectionDef.content plaintexts ∧ own ≠ [] ∧
        args.format.sectionedBytes encode ⟨1, own.map OwnSection.sec⟩ = .ok data := by
  simp only [run, Program.exec_bind_eq_ok_iff, Program.exec_attempt_eq_ok_iff,
    exec_onFiles_eq_ok_iff, Program.exec_pure, Prod.mk.injEq, Except.ok.injEq, orStop,
    mapFault_eq_ok_iff] at h
  obtain ⟨spend, _, ⟨hspend, rfl⟩, defs, s₀, hdefs, _, _, ⟨_, rfl⟩, ⟨builder, r'⟩, mid, hloop,
    sectioned, _, ⟨hbuild, rfl⟩, data, _, ⟨hdata, rfl⟩, _, _, hwrite, rfl, rfl⟩ := h
  obtain ⟨plaintexts, hreads, own, hown, hcontents, hsections⟩ := foldlM_addDef_eq_ok hloop
  rw [SectionedEnvelopeBuilder.build, bind_eq_ok_iff] at hbuild
  obtain ⟨_, hne, hbuild⟩ := hbuild
  obtain rfl := Except.ok.inj hbuild
  rw [hsections] at hdata
  have hsome : own ≠ [] := by
    rintro rfl
    rw [require_eq_ok_iff, hsections] at hne
    cases hne
  exact ⟨spend, defs, plaintexts, data, s₀, mid, hspend, hdefs, hreads, hwrite, rfl, own,
    hown, hcontents, hsome, hdata⟩

/-- Two sections, at `/x` and at `/y`. -/
def twoFlags : EncryptSectionsArgs where
  sections := ["a:/x:f".toList, "b:/y:g".toList]
  manifest := none
  spendSeed := ownerSeed
  scopeBased := true
  algorithm := .classical
  format := .proto
  output := none

/-- The files that they name. -/
def twoFiles : List Char → Option Bytes :=
  Function.update (Function.update (fun _ => none) ['f'] (some [1])) ['g'] (some [2])

/-- A round goes through where its parts do. -/
lemma addDef_exec {args : EncryptSectionsArgs} {b b' : SectionedEnvelopeBuilder (Vector UInt8)}
    {r r' : ρ} {d : SectionDef} {plaintext : Bytes} {scope : Scope}
    {e : EncryptedEnvelope (Vector UInt8)} (hread : (fs.read d.file).exec s = (.ok plaintext, s₁))
    (hscope : Scope.new d.scope = .ok scope)
    (he : (args.envelope K rng spend scope plaintext).run r = .ok (e, r'))
    (hadd : b.addSection d.name e = .ok b') :
    (args.addDef K rng fs spend (b, r) d).exec s = (.ok (b', r'), s₁) := by
  simp only [EncryptSectionsArgs.addDef, Program.exec_bind_eq_ok_iff,
    Program.exec_attempt_eq_ok_iff, exec_onFiles_eq_ok_iff, orStop, mapFault_eq_ok_iff]
  exact ⟨plaintext, s₁, hread, scope, s₁, ⟨hscope, rfl⟩, (e, r'), s₁, ⟨he, rfl⟩, b', s₁,
    ⟨hadd, rfl⟩, rfl⟩

lemma exists_twoFlags : ∃ report files,
    (twoFlags.run (Transparent.mlKem packArray) (Transparent.rng packArray)
      (fun _ => .error "") pathFiles base58Arrays
      Hex.decode Prost.encode 0).exec twoFiles =
        (.ok report, files) := by
  obtain ⟨e₁, r₁, e₂, r₂, h₁, h₂⟩ : ∃ e₁ r₁ e₂ r₂,
      (twoFlags.envelope (Transparent.mlKem packArray) (Transparent.rng packArray) fileOwner
        ⟨['/', 'x']⟩ [1]).run 0 = .ok (e₁, r₁) ∧
      (twoFlags.envelope (Transparent.mlKem packArray) (Transparent.rng packArray) fileOwner
        ⟨['/', 'y']⟩ [2]).run r₁ = .ok (e₂, r₂) := ⟨_, _, _, _, rfl, rfl⟩
  have hdefs : (twoFlags.sectionDefs (fun _ => .error "") pathFiles).exec twoFiles =
      (.ok [⟨['a'], ['/', 'x'], ['f']⟩, ⟨['b'], ['/', 'y'], ['g']⟩], twoFiles) := rfl
  have hloop : (([⟨['a'], ['/', 'x'], ['f']⟩, ⟨['b'], ['/', 'y'], ['g']⟩] : List SectionDef).foldlM
      (twoFlags.addDef (Transparent.mlKem packArray) (Transparent.rng packArray) pathFiles
        fileOwner) (.new, 0)).exec twoFiles = (.ok (⟨[⟨['a'], e₁⟩, ⟨['b'], e₂⟩]⟩, r₂), twoFiles) := by
    rw [List.foldlM_cons, Program.exec_bind_eq_ok_iff]
    refine ⟨(⟨[⟨['a'], e₁⟩]⟩, r₁), twoFiles, addDef_exec rfl (by decide) h₁ rfl, ?_⟩
    rw [List.foldlM_cons, Program.exec_bind_eq_ok_iff]
    exact ⟨(⟨[⟨['a'], e₁⟩, ⟨['b'], e₂⟩]⟩, r₂), twoFiles, addDef_exec rfl (by decide) h₂ rfl, rfl⟩
  let data := Prost.encode (SectionedEnvelope.toProto ⟨1, [⟨['a'], e₁⟩, ⟨['b'], e₂⟩]⟩)
  refine ⟨twoFlags.report [⟨['a'], ['/', 'x'], ['f']⟩, ⟨['b'], ['/', 'y'], ['g']⟩] data.length,
    Function.update twoFiles twoFlags.outputPath (some data), ?_⟩
  simp only [EncryptSectionsArgs.run, Program.exec_bind_eq_ok_iff, Program.exec_attempt_eq_ok_iff,
    exec_onFiles_eq_ok_iff, orStop, mapFault_eq_ok_iff]
  exact ⟨fileOwner, _, ⟨spendOfSeed_ownerSeed, rfl⟩, _, _, hdefs, _, _, ⟨rfl, rfl⟩, _, _, hloop,
    _, _, ⟨rfl, rfl⟩, data, _, ⟨rfl, rfl⟩, _, _, rfl, rfl⟩

end Pipeline

end ReadOnlyKeys
