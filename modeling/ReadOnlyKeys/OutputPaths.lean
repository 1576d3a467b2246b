import ReadOnlyKeys.DecryptSections
import ReadOnlyKeys.Encoding
import ReadOnlyKeys.SectionedProto
import ReadOnlyKeys.Lib.LexicalPath

/-!
# Where decrypted sections are written

The `decrypt-sections` command joins the name of a section to the output
directory. Names come from the file and are not signed, and neither decoder
restricts them, so where a file is written is for the name to say.
-/
namespace ReadOnlyKeys
open Outcome Wire LexicalPath

variable {ρ σ : Type} {C : Crypto (Vector UInt8)}

/-- The calls to the file system that the command makes. -/
structure FileSystem (σ : Type) where
  read : List Char → Program CliError σ Bytes
  createDirAll : List Char → Program CliError σ PUnit
  write : List Char → Bytes → Program CliError σ PUnit

/-- The same calls, with a log of the paths that are written to. -/
def FileSystem.logged (fs : FileSystem σ) : FileSystem (σ × List (List Char)) where
  read path := Program.onFst (fs.read path)
  createDirAll path := Program.onFst (fs.createDirAll path)
  write path data := Program.effect fun s =>
    let (result, s') := (fs.write path data).exec s.1
    (result, (s', s.2 ++ [path]))

inductive Format where
  | binary
  | proto

structure DecryptSectionsArgs where
  file : List Char
  key : String
  spendPublic : String
  outputDir : Option (List Char)
  format : Format
  sections : List (List Char)

namespace DecryptSectionsArgs

/-- An error of the crates ends the command. -/
def orFail {α : Type} (x : Result α) : Program CliError σ α := Program.attempt (mapFault x .rok)

section Run

variable (C) (E : KeyText) (K : MlKem768 (Vector UInt8) ρ) (m : Overflow)
  (decode : Bytes → Except String ProtoSectionedEnvelope)

/-- The container in a file. -/
def sectioned (self : DecryptSectionsArgs) (data : Bytes) :
    Result (SectionedEnvelope (Vector UInt8)) :=
  match self.format with
  | .binary => Slice.ofBytes data >>= SectionedEnvelope.fromBytes m
  | .proto => SectionedEnvelope.fromProtoBytes decode data

def run (fs : FileSystem σ) (args : DecryptSectionsArgs) : Program CliError σ SectionCounts := do
  let exported ← orFail (Encoding.decodeExportedReadKey E args.key)
  let readKey ← orFail (ReadKeyPair.importKey C exported)
  let spendVk ← orFail (Encoding.decodeSpendPublic C E args.spendPublic)
  let data ← fs.read args.file
  let sectioned ← orFail (args.sectioned m decode data)
  let outputDir := args.outputDir.getD ['o', 'u', 't']
  fs.createDirAll outputDir
  decryptSections K readKey spendVk outputDir args.sections fs.write sectioned.sections

/-- The paths that a run writes to, in order. -/
def written (fs : FileSystem σ) (s : σ) (args : DecryptSectionsArgs) : List (List Char) :=
  ((run C E K m decode fs.logged args).exec (s, [])).2.2

end Run

end DecryptSectionsArgs

/-- The names of the sections that a run opens: those asked for that decrypt, until one fails
otherwise than for want of access. -/
def openedNames (K : MlKem768 (Vector UInt8) ρ) (readKey : ReadKeyPair C)
    (spendVk : C.VerifyingKey) (names : List (List Char)) :
    List (Section (Vector UInt8)) → List (List Char)
  | [] => []
  | sec :: rest =>
    if selectedSection names sec.name = false then openedNames K readKey spendVk names rest
    else match decryptByAlgorithm K sec.envelope readKey spendVk with
      | .ok _ => sec.name :: openedNames K readKey spendVk names rest
      | .error (.err e) => if e.noAccess then openedNames K readKey spendVk names rest else []
      | .error .panic => []

section Loop

variable {K : MlKem768 (Vector UInt8) ρ} {readKey : ReadKeyPair C} {spendVk : C.VerifyingKey}
  {outputDir : List Char} {names : List (List Char)} {fs : FileSystem σ}

/-- All writes succeed. -/
def FileSystem.Writes (fs : FileSystem σ) : Prop :=
  ∀ path data s, ∃ s', (fs.write path data).exec s = (.ok ⟨⟩, s')

/-- The loop writes to the names it opens, joined to the directory, until a write fails. -/
theorem exists_written_loop (sections : List (Section (Vector UInt8))) (counts : SectionCounts)
    (s : σ) (log : List (List Char)) : ∃ paths,
      ((sections.foldlM (decryptSection K readKey spendVk outputDir names fs.logged.write)
        counts).exec (s, log)).2.2 = log ++ paths ∧
      paths <+: (openedNames K readKey spendVk names sections).map (joinPath outputDir) ∧
      (fs.Writes → paths = (openedNames K readKey spendVk names sections).map (joinPath outputDir)) := by
  induction sections generalizing counts s log with
  | nil => exact ⟨[], (List.append_nil log).symm, List.prefix_rfl, fun _ => rfl⟩
  | cons sec rest ih =>
    rw [List.foldlM_cons, Program.exec_bind]
    unfold decryptSection openedNames
    by_cases hsel : selectedSection names sec.name = false
    · rw [if_pos hsel, if_pos hsel]
      exact ih counts s log
    · rw [if_neg hsel, if_neg hsel]
      cases hd : decryptByAlgorithm K sec.envelope readKey spendVk with
      | ok plaintext =>
        rw [List.map_cons]
        rcases hw : (fs.write (joinPath outputDir sec.name) plaintext).exec s with ⟨result, s'⟩
        have hexec : (fs.logged.write (joinPath outputDir sec.name) plaintext).exec (s, log) =
            (result, (s', log ++ [joinPath outputDir sec.name])) := by
          rw [FileSystem.logged, Program.exec_effect, hw]
        simp only [Program.exec_bind, hexec]
        cases result with
        | ok _ =>
          obtain ⟨paths, hlog, hpre, hall⟩ := ih ⟨counts.decrypted + 1, counts.skipped⟩ s'
            (log ++ [joinPath outputDir sec.name])
          refine ⟨joinPath outputDir sec.name :: paths, ?_, ?_, fun hwrites => ?_⟩
          · rw [List.append_assoc] at hlog
            exact hlog
          · exact (List.prefix_cons_inj _).mpr hpre
          · rw [hall hwrites]
        | error fault =>
          refine ⟨[joinPath outputDir sec.name], rfl, ?_, fun hwrites => ?_⟩
          · exact (List.prefix_cons_inj _).mpr (List.nil_prefix)
          · obtain ⟨s'', hs''⟩ := hwrites (joinPath outputDir sec.name) plaintext s
            rw [hw] at hs''
            cases hs''
      | error fault =>
        cases fault with
        | panic => exact ⟨[], (List.append_nil log).symm, List.prefix_rfl, fun _ => rfl⟩
        | err e =>
          by_cases he : e.noAccess = true
          · simp only [if_pos he]
            exact ih _ s log
          · simp only [if_neg he]
            exact ⟨[], (List.append_nil log).symm, List.prefix_rfl, fun _ => rfl⟩

end Loop

/-- A relative name is followed from the directory. -/
theorem resolve_joinPath (dir : List Char) {name : List Char} (h : name.head? ≠ some '/') :
    resolve (joinPath dir name) = (resolve dir).follow name := by
  unfold joinPath
  rw [if_neg h]
  by_cases hdir : dir = []
  · subst hdir
    rw [if_pos (.inl rfl), List.nil_append, resolve_of_relative h]
    rfl
  · have hhead : ∀ rest, (dir ++ rest).head? = dir.head? := fun rest =>
      List.head?_append_of_ne_nil _ hdir
    by_cases hlast : dir.getLast? = some '/'
    · obtain ⟨d, rfl⟩ := List.getLast?_eq_some_iff.mp hlast
      have hsplit : d ++ ['/'] ++ name = d ++ '/' :: name := by simp
      rw [if_pos (.inr hlast), resolve, resolve, hhead, hsplit, Place.follow_append,
        Place.follow_append, Place.follow_nil]
    · rw [if_neg (by simp [hdir, hlast]), resolve, resolve, hhead, Place.follow_append]

/-- The paths lead to different places strictly inside the directory. -/
structure Confined (dir : List Char) (paths : List (List Char)) : Prop where
  inside : ∀ path ∈ paths, (resolve dir).Inside (resolve path)
  distinct : (paths.map resolve).Nodup

/-- The names stay below where they start, and lead to different places there. -/
structure Confining (names : List (List Char)) : Prop where
  below : ∀ name ∈ names, StaysBelow name
  distinct : (names.map resolve).Nodup

lemma resolve_joinPath_of_staysBelow {name : List Char} (h : StaysBelow name) (dir : List Char) :
    resolve (joinPath dir name) = (resolve dir).below (resolve name) := by
  have hups := h.ups
  rw [resolve_of_relative h.relative] at hups ⊢
  rw [resolve_joinPath dir h.relative, Place.follow_below _ hups]

/-- Names that stay below their start are written inside every directory. -/
theorem Confining.confined {names : List (List Char)} (h : Confining names) (dir : List Char) :
    Confined dir (names.map (joinPath dir)) := by
  constructor
  · intro path hpath
    obtain ⟨name, hname, rfl⟩ := List.mem_map.mp hpath
    rw [resolve_joinPath_of_staysBelow (h.below name hname)]
    exact Place.inside_below _ (h.below name hname).names
  · rw [List.map_map, List.nodup_map_iff_inj_on h.distinct.of_map]
    intro n hn n' hn' heq
    rw [Function.comp_apply, Function.comp_apply, resolve_joinPath_of_staysBelow (h.below n hn),
      resolve_joinPath_of_staysBelow (h.below n' hn')] at heq
    apply (List.nodup_map_iff_inj_on h.distinct.of_map).mp h.distinct n hn n' hn'
    rw [(h.below n hn).resolve_eq, (h.below n' hn').resolve_eq, Place.below_inj heq]

lemma Confined.of_isPrefix {dir : List Char} {paths all : List (List Char)} (h : Confined dir all)
    (hp : paths <+: all) : Confined dir paths :=
  ⟨fun path hpath => h.inside path (hp.subset hpath), h.distinct.sublist (hp.sublist.map _)⟩

lemma joinPath_dot_absolute {name : List Char} (h : name.head? = some '/') :
    (resolve (joinPath ['.'] name)).absolute = true := by
  rw [resolve_absolute, joinPath, if_pos h, h]
  rfl

/-- Names that are written inside the directory where the command runs stay below their start. -/
theorem confining_of_confined_dot {names : List (List Char)}
    (h : Confined ['.'] (names.map (joinPath ['.']))) : Confining names := by
  have hdot : resolve ['.'] = Place.here := by decide
  have hname : ∀ name ∈ names, name.head? ≠ some '/' ∧
      resolve (joinPath ['.'] name) = resolve name := by
    intro name hn
    obtain ⟨habs, _⟩ := h.inside _ (List.mem_map_of_mem hn)
    have hrel : name.head? ≠ some '/' := by
      intro hslash
      rw [joinPath_dot_absolute hslash, hdot] at habs
      cases habs
    rw [resolve_joinPath _ hrel, hdot, resolve_of_relative hrel]
    exact ⟨hrel, rfl⟩
  constructor
  · intro name hn
    obtain ⟨hrel, hres⟩ := hname name hn
    obtain ⟨_, hups, rest, hrest, hnames⟩ := h.inside _ (List.mem_map_of_mem hn)
    rw [hres, hdot] at hups hnames
    refine ⟨hrel, hups, ?_⟩
    rw [hnames]
    exact hrest
  · have hsame : (names.map (joinPath ['.'])).map resolve = names.map resolve := by
      rw [List.map_map]
      exact List.map_congr_left fun name hn => (hname name hn).2
    rw [← hsame]
    exact h.distinct

section Writes

variable {E : KeyText} {K : MlKem768 (Vector UInt8) ρ} {m : Overflow}
  {decode : Bytes → Except String ProtoSectionedEnvelope} {args : DecryptSectionsArgs}
  {exported : ExportedReadKey (Vector UInt8)} {readKey : ReadKeyPair C} {spendVk : C.VerifyingKey}
  {data : Bytes} {sectioned : SectionedEnvelope (Vector UInt8)}

/-- What a run hands to the loop: the keys that its arguments say, and the sections of a file that
is accepted. -/
structure Supplies (C : Crypto (Vector UInt8)) (E : KeyText) (m : Overflow)
    (decode : Bytes → Except String ProtoSectionedEnvelope) (args : DecryptSectionsArgs)
    (data : Bytes) (readKey : ReadKeyPair C) (spendVk : C.VerifyingKey)
    (sectioned : SectionedEnvelope (Vector UInt8)) : Prop where
  readKey : (Encoding.decodeExportedReadKey E args.key >>= ReadKeyPair.importKey C) = .ok readKey
  spendVk : Encoding.decodeSpendPublic C E args.spendPublic = .ok spendVk
  accepted : args.sectioned m decode data = .ok sectioned

/-- A run goes on to the loop, unless the directory is not made. -/
lemma run_exec (h : Supplies C E m decode args data readKey spendVk sectioned) {fs : FileSystem σ}
    {s s₁ s₂ : σ} {made : Except (Fault CliError) PUnit}
    (hread : (fs.read args.file).exec s = (.ok data, s₁))
    (hdir : (fs.createDirAll (args.outputDir.getD ['o', 'u', 't'])).exec s₁ = (made, s₂)) :
    (args.run C E K m decode fs).exec s = match made with
      | .ok _ => (decryptSections K readKey spendVk (args.outputDir.getD ['o', 'u', 't'])
          args.sections fs.write sectioned.sections).exec s₂
      | .error fault => (.error fault, s₂) := by
  obtain ⟨exported, hkey, himport⟩ := (bind_eq_ok_iff _ _ _).mp h.readKey
  simp only [DecryptSectionsArgs.run, DecryptSectionsArgs.orFail, hkey, himport, h.spendVk,
    h.accepted, mapFault_ok, Program.exec_bind, Program.exec_attempt, hread, hdir]
  cases made <;> rfl

/-- A run writes as its loop does, if it gets there. -/
theorem written_isPrefix (h : Supplies C E m decode args data readKey spendVk sectioned)
    {fs : FileSystem σ} {s s₁ : σ} (hread : (fs.read args.file).exec s = (.ok data, s₁)) :
    args.written C E K m decode fs s <+:
      (openedNames K readKey spendVk args.sections sectioned.sections).map
        (joinPath (args.outputDir.getD ['o', 'u', 't'])) ∧
    ((∀ path s, ∃ s', (fs.createDirAll path).exec s = (.ok ⟨⟩, s')) → fs.Writes →
      args.written C E K m decode fs s =
        (openedNames K readKey spendVk args.sections sectioned.sections).map
          (joinPath (args.outputDir.getD ['o', 'u', 't']))) := by
  have hread' : (fs.logged.read args.file).exec (s, []) = (.ok data, (s₁, [])) := by
    rw [FileSystem.logged, Program.exec_onFst, hread]
  rcases hdir : (fs.createDirAll (args.outputDir.getD ['o', 'u', 't'])).exec s₁ with ⟨made, s₂⟩
  have hdir' : (fs.logged.createDirAll (args.outputDir.getD ['o', 'u', 't'])).exec (s₁, []) =
      (made, (s₂, [])) := by
    rw [FileSystem.logged, Program.exec_onFst, hdir]
  rw [DecryptSectionsArgs.written, run_exec h hread' hdir']
  cases made with
  | ok _ =>
    obtain ⟨paths, hlog, hpre, hall⟩ := exists_written_loop sectioned.sections ⟨0, 0⟩ s₂ []
    rw [List.nil_append] at hlog
    simp only [decryptSections]
    rw [hlog]
    exact ⟨hpre, fun _ hwrites => hall hwrites⟩
  | error fault =>
    refine ⟨List.nil_prefix, fun hmakes _ => ?_⟩
    obtain ⟨s', hs'⟩ := hmakes (args.outputDir.getD ['o', 'u', 't']) s₁
    rw [hdir] at hs'
    cases hs'

/-- A file system with one file, where every call succeeds. -/
def oneFile (data : Bytes) : FileSystem Unit where
  read _ := return data
  createDirAll _ := return
  write _ _ := return

/-- Whatever the file system and the output directory, a run on a file writes to different places
strictly inside the directory, exactly when the names of the sections that it opens stay below
where they start and lead to different places there. -/
theorem writes_confined_iff (h : Supplies C E m decode args data readKey spendVk sectioned) :
    (∀ (σ : Type) (fs : FileSystem σ) (s s₁ : σ) (outputDir : Option (List Char)),
      (fs.read args.file).exec s = (.ok data, s₁) →
        Confined (outputDir.getD ['o', 'u', 't'])
          ({ args with outputDir := outputDir }.written C E K m decode fs s)) ↔
    Confining (openedNames K readKey spendVk args.sections sectioned.sections) := by
  have hdir : ∀ outputDir, Supplies C E m decode { args with outputDir := outputDir } data readKey
      spendVk sectioned := fun outputDir => ⟨h.readKey, h.spendVk, h.accepted⟩
  constructor
  · intro hall
    have hdot := hall Unit (oneFile data) () () (some ['.']) rfl
    rw [(written_isPrefix (hdir (some ['.'])) rfl).2 (fun _ _ => ⟨(), rfl⟩)
      fun _ _ _ => ⟨(), rfl⟩] at hdot
    exact confining_of_confined_dot hdot
  · intro hnames σ fs s s₁ outputDir hread
    exact (hnames.confined _).of_isPrefix (written_isPrefix (hdir outputDir) hread).1

end Writes

/-- The owner of the zero seed. -/
def fileOwner : SpendKeyPair base58Arrays := .fromSeed _ (zeros 32)

/-- An envelope that the owner's root key opens. -/
lemma exists_rootEnvelope : ∃ e : EncryptedEnvelope (Vector UInt8), e.scope.Valid ∧
    e.ephemeralMlkemCiphertext = none ∧ decryptByAlgorithm (Transparent.mlKem packArray) e
      fileOwner.deriveRootReadKey fileOwner.verifyingKey = .ok [1, 2] := by
  obtain ⟨⟨e, s'⟩, he, hopen⟩ : ∃ r, (((EncryptBuilder.new base58Arrays .eciesX25519ChaCha20
      Scope.root).setSpendKey fileOwner).setScopeBased.encrypt (Transparent.rng packArray)
        [1, 2]).run 0 = .ok r ∧ decryptByAlgorithm (Transparent.mlKem packArray) r.1
          fileOwner.deriveRootReadKey fileOwner.verifyingKey = .ok [1, 2] :=
    ⟨_, rfl, by decide +kernel⟩
  obtain ⟨_, _, henc⟩ := EncryptBuilder.encrypt_run he
  exact ⟨e, henc.scope ▸ Scope.root_valid, henc.mlkem, hopen⟩

/-- The arguments that name the owner's root key. -/
def rootArgs : DecryptSectionsArgs where
  file := ['f']
  key := Encoding.encodeExportedReadKey base58Arrays base58Text fileOwner.deriveRootReadKey.exportKey
  spendPublic := Encoding.encodeSpendPublic base58Arrays base58Text fileOwner.verifyingKey
  outputDir := none
  format := .proto
  sections := []

lemma openedNames_map {K : MlKem768 (Vector UInt8) ρ} {readKey : ReadKeyPair C}
    {spendVk : C.VerifyingKey} {e : EncryptedEnvelope (Vector UInt8)} {plaintext : Bytes}
    (h : decryptByAlgorithm K e readKey spendVk = .ok plaintext) (names : List (List Char)) :
    openedNames K readKey spendVk [] (names.map fun name => ⟨name, e⟩) = names := by
  induction names with
  | nil => rfl
  | cons name names ih =>
    rw [List.map_cons, openedNames, if_neg (by simp [selectedSection]), h, ih]

/-- There is a file with sections of any names, all of which open. -/
lemma exists_namedFile (names : List (List Char)) : ∃ data sectioned,
    Supplies base58Arrays base58Text .wrapping Prost.decode rootArgs data
      fileOwner.deriveRootReadKey fileOwner.verifyingKey sectioned ∧
    openedNames (Transparent.mlKem packArray) fileOwner.deriveRootReadKey fileOwner.verifyingKey []
      sectioned.sections = names := by
  obtain ⟨e, hv, hmlkem, hopen⟩ := exists_rootEnvelope
  have hfile : SectionedEnvelope.fromProtoBytes Prost.decode (SectionedEnvelope.toProtoBytes
      Prost.encode ⟨1, names.map fun name => ⟨name, e⟩⟩) = .ok ⟨1, names.map fun name => ⟨name, e⟩⟩ := by
    rw [SectionedEnvelope.fromProtoBytes, SectionedEnvelope.toProtoBytes,
      Prost.decode_encode (SectionedEnvelope.toProto_typed _), mapErr_ok, ok_bind]
    refine SectionedEnvelope.tryFromProto_toProto fun x hx => ?_
    obtain ⟨name, _, rfl⟩ := List.mem_map.mp hx
    exact ⟨hv, by simp [hmlkem]⟩
  refine ⟨_, _, ⟨?_, ?_, hfile⟩, ?_⟩
  · show (Encoding.decodeExportedReadKey base58Text (Encoding.encodeExportedReadKey base58Arrays
      base58Text fileOwner.deriveRootReadKey.exportKey) >>= ReadKeyPair.importKey base58Arrays) = _
    have hscope : fileOwner.deriveRootReadKey.exportKey.scope.Valid := Scope.root_valid
    rw [Encoding.decodeExportedReadKey_encode base58Text_inverts hscope, ok_bind,
      ReadKeyPair.importKey_exportKey (fun _ => rfl) fun s => ⟨s, rfl⟩]
  · exact Encoding.decodeSpendPublic_encode base58Text_inverts (fun _ => rfl) _
  · exact openedNames_map hopen names

theorem writes_confined_two_names :
    ∃ data sectioned, rootArgs.sectioned .wrapping Prost.decode data = .ok sectioned ∧
      ∀ (σ : Type) (fs : FileSystem σ) (s s₁ : σ) (outputDir : Option (List Char)),
        (fs.read rootArgs.file).exec s = (.ok data, s₁) →
          Confined (outputDir.getD ['o', 'u', 't'])
            ({ rootArgs with outputDir := outputDir }.written base58Arrays base58Text
              (Transparent.mlKem packArray) .wrapping Prost.decode fs s) := by
  obtain ⟨data, sectioned, hsupplies, hnames⟩ := exists_namedFile [['a'], ['b', '/', 'a']]
  have hconfining : Confining [['a'], ['b', '/', 'a']] := by
    refine ⟨fun name hname => ?_, by decide⟩
    simp only [List.mem_cons, List.not_mem_nil, or_false] at hname
    rcases hname with rfl | rfl
    · exact ⟨by decide, by decide, by decide⟩
    · exact ⟨by decide, by decide, by decide⟩
  refine ⟨data, sectioned, hsupplies.accepted, (writes_confined_iff hsupplies).mpr ?_⟩
  rw [show rootArgs.sections = [] from rfl, hnames]
  exact hconfining

/-- A section called `../x` is written beside the output directory, and two that are called `x` and
`./x` are written to one place. -/
theorem names_leave_directory :
    (∃ data sectioned, rootArgs.sectioned .wrapping Prost.decode data = .ok sectioned ∧
      rootArgs.written base58Arrays base58Text (Transparent.mlKem packArray) .wrapping Prost.decode
        (oneFile data) () = [['o', 'u', 't', '/', '.', '.', '/', 'x']]) ∧
    ¬ (resolve ['o', 'u', 't']).Inside (resolve ['o', 'u', 't', '/', '.', '.', '/', 'x']) ∧
    (∃ data sectioned, rootArgs.sectioned .wrapping Prost.decode data = .ok sectioned ∧
      rootArgs.written base58Arrays base58Text (Transparent.mlKem packArray) .wrapping Prost.decode
        (oneFile data) () = [['o', 'u', 't', '/', 'x'], ['o', 'u', 't', '/', '.', '/', 'x']]) ∧
    resolve ['o', 'u', 't', '/', 'x'] = resolve ['o', 'u', 't', '/', '.', '/', 'x'] := by
  have hwritten : ∀ names : List (List Char), ∃ data sectioned,
      rootArgs.sectioned .wrapping Prost.decode data = .ok sectioned ∧
      rootArgs.written base58Arrays base58Text (Transparent.mlKem packArray) .wrapping Prost.decode
        (oneFile data) () = names.map (joinPath ['o', 'u', 't']) := by
    intro names
    obtain ⟨data, sectioned, hsupplies, hnames⟩ := exists_namedFile names
    have hread : ((oneFile data).read rootArgs.file).exec () = (.ok data, ()) := rfl
    have hall := (written_isPrefix (K := Transparent.mlKem packArray) hsupplies hread).2
      (fun _ _ => ⟨(), rfl⟩) fun _ _ _ => ⟨(), rfl⟩
    rw [show rootArgs.sections = [] from rfl, hnames] at hall
    exact ⟨data, sectioned, hsupplies.accepted, hall⟩
  refine ⟨hwritten [['.', '.', '/', 'x']], fun h => ?_, hwritten [['x'], ['.', '/', 'x']], by decide⟩
  obtain ⟨_, _, rest, _, hnames⟩ := h
  have hout : (resolve ['o', 'u', 't']).names = [['o', 'u', 't']] := by decide
  have hx : (resolve ['o', 'u', 't', '/', '.', '.', '/', 'x']).names = [['x']] := by decide
  rw [hout, hx] at hnames
  simp at hnames

end ReadOnlyKeys
