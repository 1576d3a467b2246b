import ReadOnlyKeys.Lib.Bytes

/-!
# Prefix codes

An encoding is a prefix code on the values it is used for when two encodings,
each followed by anything, are equal only if the values and what follows are. A
record written field by field in prefix codes is determined by its bytes.
-/
namespace Wire

variable {α : Type}

/-- `f` can be split off the front of any byte string, for values that satisfy `P`. -/
def PrefixCode (P : α → Prop) (f : α → Bytes) : Prop :=
  ∀ a b xs ys, P a → P b → f a ++ xs = f b ++ ys → a = b ∧ xs = ys

namespace PrefixCode

/-- An injective encoding of constant width. -/
theorem of_length {f : α → Bytes} (n : ℕ) (hn : ∀ a, (f a).length = n)
    (hf : Function.Injective f) : PrefixCode (fun _ => True) f := by
  intro a b xs ys _ _ h
  obtain ⟨hab, hxy⟩ := List.append_inj h (by rw [hn, hn])
  exact ⟨hf hab, hxy⟩

/-- A number below `256 ^ k` in `k` bytes. -/
theorem leBytes (k : ℕ) : PrefixCode (· < 256 ^ k) (leBytes k) := by
  intro a b xs ys ha hb h
  obtain ⟨hab, hxy⟩ := List.append_inj h (by simp)
  exact ⟨leBytes_injective k ha hb hab, hxy⟩

/-- Bytes behind their length. -/
theorem counted (k : ℕ) :
    PrefixCode (fun bs : Bytes => bs.length < 256 ^ k) fun bs => Wire.leBytes k bs.length ++ bs := by
  intro a b xs ys ha hb h
  rw [List.append_assoc, List.append_assoc] at h
  obtain ⟨hlen, h⟩ := leBytes k _ _ _ _ ha hb h
  exact List.append_inj h hlen

variable {P : α → Prop} {f : α → Bytes}

/-- As many encodings in a row. -/
theorem flatMap (hf : PrefixCode P f) {as bs : List α} (hlen : as.length = bs.length)
    (ha : ∀ a ∈ as, P a) (hb : ∀ b ∈ bs, P b) {xs ys : Bytes}
    (h : as.flatMap f ++ xs = bs.flatMap f ++ ys) : as = bs ∧ xs = ys := by
  induction as generalizing bs with
  | nil =>
    obtain rfl := List.length_eq_zero_iff.mp hlen.symm
    exact ⟨rfl, h⟩
  | cons a as ih =>
    cases bs with
    | nil => simp at hlen
    | cons b bs =>
      rw [List.flatMap_cons, List.flatMap_cons, List.append_assoc, List.append_assoc] at h
      obtain ⟨hab, hrest⟩ := hf a b _ _ (ha a List.mem_cons_self) (hb b List.mem_cons_self) h
      obtain ⟨hasbs, hxy⟩ := ih (by simpa using hlen) (fun x hx => ha x (List.mem_cons_of_mem _ hx))
        (fun x hx => hb x (List.mem_cons_of_mem _ hx)) hrest
      exact ⟨by rw [hab, hasbs], hxy⟩

/-- A list behind its length. -/
theorem countedList (hf : PrefixCode P f) (k : ℕ) :
    PrefixCode (fun as : List α => as.length < 256 ^ k ∧ ∀ a ∈ as, P a)
      fun as => Wire.leBytes k as.length ++ as.flatMap f := by
  intro as bs xs ys ha hb h
  rw [List.append_assoc, List.append_assoc] at h
  obtain ⟨hlen, h⟩ := leBytes k _ _ _ _ ha.1 hb.1 h
  exact hf.flatMap hlen ha.2 hb.2 h

end PrefixCode

end Wire
