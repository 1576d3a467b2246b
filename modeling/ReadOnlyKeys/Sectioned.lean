import ReadOnlyKeys.EnvelopeCodec
import ReadOnlyKeys.Rekey

/-!
# Sectioned envelopes

A container of named sections, each a complete encrypted envelope, with its own
binary format around the format of envelopes.
-/
namespace ReadOnlyKeys
open Outcome Wire

variable {A : ℕ → Type} [ByteArrays A] {ρ : Type}

/-- A named section containing a complete encrypted envelope. -/
@[ext] structure Section (A : ℕ → Type) where
  name : List Char
  envelope : EncryptedEnvelope A

/-- A container of multiple independently encrypted sections. -/
@[ext] structure SectionedEnvelope (A : ℕ → Type) where
  version : UInt32
  sections : List (Section A)

instance : DecidableEq (Section A) := fun _ _ => decidable_of_iff _ Section.ext_iff.symm

instance : DecidableEq (SectionedEnvelope A) :=
  fun _ _ => decidable_of_iff _ SectionedEnvelope.ext_iff.symm

namespace SectionedEnvelope

/-- "ROKS". -/
def magicBytes : Bytes := [0x52, 0x4f, 0x4b, 0x53]

def eof : RokError := .serializationError "unexpected end of sectioned data"

section Rekey

variable {C : Crypto A} (rng : CryptoRng A ρ) (sectionName : List Char)
  (authorizedKey : ReadKeyPair C) (newRecipients : List (Recipient A)) (spendKey : SpendKeyPair C)

/-- Rekey the first section of the given name. -/
def rekeyFirst : List (Section A) → StateT ρ Result (List (Section A))
  | [] => call (fail (.serializationError s!"section not found: {String.ofList sectionName}"))
  | s :: rest =>
      if s.name = sectionName then do
        let envelope ← rekeyRecipients rng s.envelope authorizedKey newRecipients spendKey
        return { s with envelope := envelope } :: rest
      else do
        let rest ← rekeyFirst rest
        return s :: rest

/-- Rekey a named section's recipients without re-encrypting the payload. -/
def rekeySection (self : SectionedEnvelope A) : StateT ρ Result (SectionedEnvelope A) := do
  let sections ← rekeyFirst rng sectionName authorizedKey newRecipients spendKey self.sections
  return { self with sections := sections }

/-- Only the first section of the name is touched, and that one is rekeyed. -/
theorem rekeyFirst_run {sections sections' : List (Section A)} {s s' : ρ}
    (h : (rekeyFirst rng sectionName authorizedKey newRecipients spendKey sections).run s =
      .ok (sections', s')) :
    ∃ before sec envelope after, sections = before ++ sec :: after ∧ sec.name = sectionName ∧
      (∀ x ∈ before, x.name ≠ sectionName) ∧
      Rekeyed sec.envelope authorizedKey newRecipients spendKey envelope ∧
      sections' = before ++ { sec with envelope := envelope } :: after := by
  induction sections generalizing s s' sections' with
  | nil => cases h
  | cons sec rest ih =>
    rw [rekeyFirst] at h
    split_ifs at h with hname
    · rw [run_bind_eq_ok_iff] at h
      obtain ⟨envelope, _, henv, h⟩ := h
      obtain ⟨rfl, _⟩ := (run_pure_eq_ok_iff _ _ _ _).mp h
      exact ⟨[], sec, envelope, rest, rfl, hname, by simp, rekeyRecipients_run henv, rfl⟩
    · rw [run_bind_eq_ok_iff] at h
      obtain ⟨rest', _, hrest, h⟩ := h
      obtain ⟨rfl, _⟩ := (run_pure_eq_ok_iff _ _ _ _).mp h
      obtain ⟨before, x, envelope, after, rfl, hx, hbefore, hre, rfl⟩ := ih hrest
      refine ⟨sec :: before, x, envelope, after, rfl, hx, ?_, hre, rfl⟩
      intro y hy
      rcases List.mem_cons.mp hy with rfl | hy
      · exact hname
      · exact hbefore y hy

/-- Rekeying a section keeps the version, every other section and the name. -/
theorem rekeySection_run {self self' : SectionedEnvelope A} {s s' : ρ}
    (h : (rekeySection rng sectionName authorizedKey newRecipients spendKey self).run s =
      .ok (self', s')) :
    ∃ before sec envelope after, self.sections = before ++ sec :: after ∧
      sec.name = sectionName ∧ (∀ x ∈ before, x.name ≠ sectionName) ∧
      Rekeyed sec.envelope authorizedKey newRecipients spendKey envelope ∧
      self' = ⟨self.version, before ++ { sec with envelope := envelope } :: after⟩ := by
  rw [rekeySection, run_bind_eq_ok_iff] at h
  obtain ⟨sections, _, hsections, h⟩ := h
  obtain ⟨rfl, _⟩ := (run_pure_eq_ok_iff _ _ _ _).mp h
  obtain ⟨before, sec, envelope, after, heq, hname, hbefore, hre, rfl⟩ := rekeyFirst_run rng
    sectionName authorizedKey newRecipients spendKey hsections
  exact ⟨before, sec, envelope, after, heq, hname, hbefore, hre, rfl⟩

end Rekey

/-- One section: a counted name and a counted envelope. -/
def sectionBytes (s : Section A) : Bytes :=
  leBytes 2 (toUtf8 s.name).length ++ toUtf8 s.name ++ leBytes 4 s.envelope.toBytes.length ++
    s.envelope.toBytes

/-- Serialize to binary format. -/
def toBytes (self : SectionedEnvelope A) : Bytes :=
  magicBytes ++ leBytes 4 self.version.toNat ++ leBytes 2 self.sections.length ++
    self.sections.flatMap sectionBytes

section Decode

variable (m : Overflow) (data : Slice)

def readSection : Cursor RokError (Section (Vector UInt8)) := do
  let name ← readString m data eof (.serializationError "invalid section name utf8")
  let envelopeLen ← readLe m data eof 4
  let envelopeBytes ← readBytes m data eof envelopeLen
  let envelopeSlice ← call (Slice.ofBytes envelopeBytes)
  let envelope ← call (EncryptedEnvelope.fromBytes m envelopeSlice)
  return ⟨name, envelope⟩

def readSections : Cursor RokError (SectionedEnvelope (Vector UInt8)) := do
  readMagic m data eof magicBytes
    (.serializationError "invalid sectioned magic bytes (expected ROKS)")
  let version ← readU32 m data eof
  let sectionCount ← readLe m data eof 2
  let sections ← readMany (readSection m data) sectionCount
  return ⟨version, sections⟩

/-- Deserialize from binary format. -/
def fromBytes : Result (SectionedEnvelope (Vector UInt8)) := (readSections m data).run' 0

end Decode

end SectionedEnvelope

/-- Builder for sectioned envelopes. -/
structure SectionedEnvelopeBuilder (A : ℕ → Type) where
  sections : List (Section A)

namespace SectionedEnvelopeBuilder

variable {A : ℕ → Type}

def sectionedVersion : UInt32 := 1

def new : SectionedEnvelopeBuilder A := ⟨[]⟩

/-- Add a named section, unless the name is already used. -/
def addSection (self : SectionedEnvelopeBuilder A) (name : List Char)
    (envelope : EncryptedEnvelope A) : Result (SectionedEnvelopeBuilder A) := do
  require (¬ self.sections.any fun s => s.name = name)
    (.serializationError s!"duplicate section name: {String.ofList name}")
  return ⟨self.sections ++ [⟨name, envelope⟩]⟩

def build (self : SectionedEnvelopeBuilder A) : Result (SectionedEnvelope A) := do
  require (self.sections.isEmpty = false)
    (.serializationError "sectioned envelope must have at least one section")
  return ⟨sectionedVersion, self.sections⟩

end SectionedEnvelopeBuilder

end ReadOnlyKeys
