import ReadOnlyKeys.Memory
import ReadOnlyKeys.Lib.Utf8

/-!
# Previews of memories

The tool and the command that list memories show the first bytes of each as
text. They cut the text at a fixed byte and not at a character.
-/
namespace ReadOnlyKeys
open Outcome Wire

/-- The text of a memory as far as a byte and a mark behind it, or all of it if it is not longer. -/
def preview (limit : ℕ) (mark : List Char) (data : Bytes) : Result (List Char) :=
  let text := fromUtf8Lossy data
  if (toUtf8 text).length > limit then do
    let head ← sliceTo text limit
    return head ++ mark
  else return text

/-- The lines of a listing, one for each memory. -/
def listLines (limit : ℕ) (mark : List Char) (entries : List MemoryEntry) :
    Result (List String) :=
  entries.mapM fun e => do
    let text ← preview limit mark e.data
    return s!"  [{e.scope.display}] {String.ofList e.key} = {String.ofList text}"

/-- What the tool `rok_memory:list` answers for the memories it has decrypted. -/
def listTool (entries : List MemoryEntry) : Result String :=
  if entries.isEmpty then return "no memories found"
  else do
    let lines ← listLines 120 ['…'] entries
    return "\n".intercalate (s!"memories ({entries.length}):" :: lines)

/-- What the command `memory list` prints for the memories it has decrypted. -/
def listCommand (keyScope : Scope) (memories : List MemoryEntry) : Result (List String) :=
  if memories.isEmpty then return [s!"No memories found at scope {keyScope.display}"]
  else do
    let lines ← listLines 80 ['.', '.', '.'] memories
    return s!"Memories accessible from scope {keyScope.display}:" :: lines ++
      [s!"\nTotal: {memories.length} memories"]

lemma preview_ne_err (limit : ℕ) (mark : List Char) (data : Bytes) (e : RokError) :
    preview limit mark data ≠ fail e := by
  unfold preview
  simp only
  split_ifs
  · rw [Ne, bind_pure_eq_error_iff]
    exact sliceTo_ne_err _ _ e
  · intro h
    cases h

/-- A preview fails exactly where a character lies across the limit. -/
theorem preview_eq_panic_iff (limit : ℕ) (mark : List Char) (data : Bytes) :
    preview limit mark data = .error .panic ↔ Straddles limit (fromUtf8Lossy data) := by
  unfold preview
  simp only
  split_ifs with h
  · rw [bind_pure_eq_error_iff, sliceTo_eq_panic_iff (Nat.le_of_lt h)]
  · have hs := not_straddles_of_length_le (Nat.le_of_not_gt h)
    simp [hs, pure, Except.pure]

/-- A listing fails exactly where the preview of one of its memories does. -/
theorem listLines_eq_panic_iff (limit : ℕ) (mark : List Char) (entries : List MemoryEntry) :
    listLines limit mark entries = .error .panic ↔
      ∃ e ∈ entries, Straddles limit (fromUtf8Lossy e.data) := by
  unfold listLines
  rw [mapM_eq_panic_iff]
  · simp only [bind_pure_eq_error_iff, preview_eq_panic_iff]
  · intro e _ err
    rw [Ne, bind_pure_eq_error_iff]
    exact preview_ne_err limit mark e.data err

lemma listTool_eq_panic_iff (entries : List MemoryEntry) :
    listTool entries = .error .panic ↔ ∃ e ∈ entries, Straddles 120 (fromUtf8Lossy e.data) := by
  unfold listTool
  split_ifs with h
  · rw [List.isEmpty_iff.mp h]
    simp [pure, Except.pure]
  · rw [bind_pure_eq_error_iff, listLines_eq_panic_iff]

lemma listCommand_eq_panic_iff (keyScope : Scope) (memories : List MemoryEntry) :
    listCommand keyScope memories = .error .panic ↔
      ∃ e ∈ memories, Straddles 80 (fromUtf8Lossy e.data) := by
  unfold listCommand
  split_ifs with h
  · rw [List.isEmpty_iff.mp h]
    simp [pure, Except.pure]
  · rw [bind_pure_eq_error_iff, listLines_eq_panic_iff]

/-- Neither listing panics exactly when no character of a memory's text lies across byte 120, for
the tool, or byte 80, for the command. -/
theorem listings_never_panic_iff (keyScope : Scope) (memories : List MemoryEntry) :
    (listTool memories ≠ .error .panic ↔
      ∀ e ∈ memories, ¬ Straddles 120 (fromUtf8Lossy e.data)) ∧
    (listCommand keyScope memories ≠ .error .panic ↔
      ∀ e ∈ memories, ¬ Straddles 80 (fromUtf8Lossy e.data)) := by
  rw [Ne, Ne, listTool_eq_panic_iff, listCommand_eq_panic_iff]
  simp only [not_exists, not_and, and_self]

/-- A memory of one `a` and 60 times `é`. -/
def accents : MemoryEntry := ⟨Scope.root, [], toUtf8 ('a' :: List.replicate 60 'é')⟩

/-- After the `a`, every `é` starts at an odd byte and ends at the next odd one. -/
theorem accents_panic : listTool [accents] = .error .panic ∧
    listCommand Scope.root [accents] = .error .panic := by
  have htext : fromUtf8Lossy accents.data = 'a' :: List.replicate 60 'é' := fromUtf8Lossy_toUtf8 _
  rw [listTool_eq_panic_iff, listCommand_eq_panic_iff]
  refine ⟨⟨accents, List.mem_singleton_self _, ?_⟩, ⟨accents, List.mem_singleton_self _, ?_⟩⟩
  · rw [htext]
    exact ⟨'a' :: List.replicate 59 'é', 'é', [], by decide, by decide, by decide⟩
  · rw [htext]
    exact ⟨'a' :: List.replicate 39 'é', 'é', List.replicate 20 'é', by decide, by decide, by decide⟩

end ReadOnlyKeys
