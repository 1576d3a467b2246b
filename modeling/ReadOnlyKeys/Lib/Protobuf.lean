import ReadOnlyKeys.Lib.Bytes

/-!
# The proto3 wire format

A message is a sequence of numbered fields, each a varint or counted bytes.
Writers leave out fields that hold their default, readers take the last value
of a singular field and all values of a repeated one.
-/
namespace Protobuf
open Wire

/-- Groups of seven bits, lowest first, with at most `k` groups before the last. -/
def varintGroups : ℕ → ℕ → Bytes
  | 0, n => [UInt8.ofNat n]
  | k + 1, n =>
      if n < 128 then [UInt8.ofNat n] else UInt8.ofNat (n % 128 + 128) :: varintGroups k (n / 128)

/-- A number takes fewer groups than its value. -/
def varint (n : ℕ) : Bytes := varintGroups n n

/-- A number and the bytes after it. -/
def readVarint : Bytes → Option (ℕ × Bytes)
  | [] => none
  | b :: bs =>
      if b.toNat < 128 then some (b.toNat, bs)
      else (readVarint bs).map fun p => (b.toNat - 128 + 128 * p.1, p.2)

lemma toNat_ofNat_of_lt {n : ℕ} (h : n < 256) : (UInt8.ofNat n).toNat = n := by
  rw [UInt8.toNat_ofNat']
  omega

theorem readVarint_varintGroups (k n : ℕ) (h : n < 128 ^ (k + 1)) (rest : Bytes) :
    readVarint (varintGroups k n ++ rest) = some (n, rest) := by
  have hsmall : ∀ n, n < 128 → readVarint (UInt8.ofNat n :: rest) = some (n, rest) := by
    intro n hn
    have hb : (UInt8.ofNat n).toNat = n := toNat_ofNat_of_lt (by omega)
    rw [readVarint, hb, if_pos hn]
  induction k generalizing n with
  | zero => exact hsmall n (by simpa using h)
  | succ k ih =>
    rw [varintGroups]
    split_ifs with hn
    · exact hsmall n hn
    · have hb : (UInt8.ofNat (n % 128 + 128)).toNat = n % 128 + 128 :=
        toNat_ofNat_of_lt (by omega)
      have hdiv : n / 128 < 128 ^ (k + 1) := by
        rw [pow_succ] at h
        exact Nat.div_lt_of_lt_mul (by omega)
      rw [List.cons_append, readVarint, hb, if_neg (by omega), ih _ hdiv]
      simp only [Option.map_some, Option.some.injEq, Prod.mk.injEq, and_true]
      omega

theorem readVarint_varint (n : ℕ) (rest : Bytes) :
    readVarint (varint n ++ rest) = some (n, rest) := by
  refine readVarint_varintGroups n n ?_ rest
  calc n < 128 ^ n := Nat.lt_pow_self (by omega)
    _ ≤ 128 ^ (n + 1) := Nat.pow_le_pow_right (by omega) (by omega)

lemma varint_ne_nil (n : ℕ) : varint n ≠ [] := by
  intro h
  have hr := readVarint_varint n []
  rw [h] at hr
  cases hr

/-- What a field holds. -/
inductive Value where
  | varint (n : ℕ)
  | len (bytes : Bytes)
  deriving DecidableEq

structure Field where
  number : ℕ
  value : Value
  deriving DecidableEq

/-- A key with the number and the wire type, and then the value. -/
def Field.toBytes : Field → Bytes
  | ⟨number, .varint n⟩ => Protobuf.varint (number * 8) ++ Protobuf.varint n
  | ⟨number, .len bytes⟩ =>
      Protobuf.varint (number * 8 + 2) ++ (Protobuf.varint bytes.length ++ bytes)

/-- Other wire types are refused. -/
def readField (bs : Bytes) : Option (Field × Bytes) := do
  let (key, bs) ← readVarint bs
  if key % 8 = 0 then
    let (n, bs) ← readVarint bs
    return (⟨key / 8, .varint n⟩, bs)
  else if key % 8 = 2 then
    let (len, bs) ← readVarint bs
    if len ≤ bs.length then some (⟨key / 8, .len (bs.take len)⟩, bs.drop len) else none
  else none

theorem readField_toBytes (f : Field) (rest : Bytes) :
    readField (f.toBytes ++ rest) = some (f, rest) := by
  obtain ⟨number, value⟩ := f
  cases value with
  | varint n =>
    have hmod : number * 8 % 8 = 0 := by omega
    have hdiv : number * 8 / 8 = number := by omega
    rw [Field.toBytes, List.append_assoc, readField, readVarint_varint]
    simp only [Option.bind_eq_bind, Option.bind_some, if_pos hmod, readVarint_varint, hdiv]
    rfl
  | len bytes =>
    have hmod : (number * 8 + 2) % 8 = 2 := by omega
    have hdiv : (number * 8 + 2) / 8 = number := by omega
    have hle : bytes.length ≤ (bytes ++ rest).length := by
      rw [List.length_append]
      omega
    rw [Field.toBytes, List.append_assoc, List.append_assoc, readField, readVarint_varint]
    have hne : ¬ (number * 8 + 2) % 8 = 0 := by omega
    simp only [Option.bind_eq_bind, Option.bind_some, if_neg hne, if_pos hmod, readVarint_varint,
      if_pos hle, hdiv, List.take_left, List.drop_left]

/-- A message as bytes. -/
def write (fields : List Field) : Bytes := fields.flatMap Field.toBytes

/-- At most `k` fields. -/
def readFields : ℕ → Bytes → Option (List Field)
  | _, [] => some []
  | 0, _ :: _ => none
  | k + 1, b :: bs => do
      let (f, rest) ← readField (b :: bs)
      let fields ← readFields k rest
      return f :: fields

/-- Each field takes a byte at least. -/
def read (bs : Bytes) : Option (List Field) := readFields bs.length bs

lemma toBytes_ne_nil (f : Field) : f.toBytes ≠ [] := by
  obtain ⟨number, value⟩ := f
  cases value with
  | varint n => simp [Field.toBytes, varint_ne_nil]
  | len bytes => simp [Field.toBytes, varint_ne_nil]

lemma length_le_write (fields : List Field) : fields.length ≤ (write fields).length := by
  induction fields with
  | nil => simp [write]
  | cons f fields ih =>
    have hf := List.length_pos_iff.mpr (toBytes_ne_nil f)
    simp only [write, List.flatMap_cons, List.length_append, List.length_cons] at ih ⊢
    omega

theorem readFields_write (fields : List Field) (k : ℕ) (hk : fields.length ≤ k) :
    readFields k (write fields) = some fields := by
  induction fields generalizing k with
  | nil => cases k <;> rfl
  | cons f fields ih =>
    cases k with
    | zero => simp at hk
    | succ k =>
      have hne : write (f :: fields) ≠ [] := by simp [write, toBytes_ne_nil]
      obtain ⟨b, bs, hbs⟩ := List.exists_cons_of_ne_nil hne
      have hwrite : b :: bs = f.toBytes ++ write fields := by
        rw [← hbs]
        rfl
      have hlen : fields.length ≤ k := by simpa using hk
      rw [hbs, readFields, hwrite, readField_toBytes]
      simp only [Option.bind_eq_bind, Option.bind_some, ih k hlen]
      rfl

theorem read_write (fields : List Field) : read (write fields) = some fields :=
  readFields_write fields _ (length_le_write fields)

section Singular

/-- A `bytes` or `string` field, left out when it is empty. -/
def bytesField (number : ℕ) (bytes : Bytes) : List Field :=
  if bytes = [] then [] else [⟨number, .len bytes⟩]

/-- A numeric field, left out when it is zero. -/
def numberField (number : ℕ) (n : ℕ) : List Field :=
  if n = 0 then [] else [⟨number, .varint n⟩]

/-- A repeated field of messages. -/
def messages {α : Type} (number : ℕ) (encode : α → Bytes) (xs : List α) : List Field :=
  xs.map fun x => ⟨number, .len (encode x)⟩

/-- All counted values of a field, in order. -/
def lens (number : ℕ) (fields : List Field) : List Bytes :=
  fields.filterMap fun
    | ⟨k, .len bytes⟩ => if k = number then some bytes else none
    | ⟨_, .varint _⟩ => none

/-- All numbers of a field, in order. -/
def numbers (number : ℕ) (fields : List Field) : List ℕ :=
  fields.filterMap fun
    | ⟨k, .varint n⟩ => if k = number then some n else none
    | ⟨_, .len _⟩ => none

def lastBytes (number : ℕ) (fields : List Field) : Bytes :=
  (lens number fields).getLast?.getD []

def lastNumber (number : ℕ) (fields : List Field) : ℕ :=
  (numbers number fields).getLast?.getD 0

variable (k number : ℕ)

@[simp] theorem lens_append (xs ys : List Field) : lens k (xs ++ ys) = lens k xs ++ lens k ys :=
  List.filterMap_append

@[simp] theorem numbers_append (xs ys : List Field) :
    numbers k (xs ++ ys) = numbers k xs ++ numbers k ys := List.filterMap_append

@[simp] theorem lens_bytesField (bytes : Bytes) :
    lens k (bytesField number bytes) = if number = k ∧ bytes ≠ [] then [bytes] else [] := by
  unfold bytesField
  by_cases hb : bytes = [] <;> by_cases hk : number = k <;> simp [lens, hb, hk]

@[simp] theorem lens_numberField (n : ℕ) : lens k (numberField number n) = [] := by
  unfold numberField
  split_ifs <;> rfl

@[simp] theorem numbers_bytesField (bytes : Bytes) : numbers k (bytesField number bytes) = [] := by
  unfold bytesField
  split_ifs <;> rfl

@[simp] theorem numbers_numberField (n : ℕ) :
    numbers k (numberField number n) = if number = k ∧ n ≠ 0 then [n] else [] := by
  unfold numberField
  by_cases hn : n = 0 <;> by_cases hk : number = k <;> simp [numbers, hn, hk]

@[simp] theorem lens_messages {α : Type} (encode : α → Bytes) (xs : List α) :
    lens k (messages number encode xs) = if number = k then xs.map encode else [] := by
  induction xs with
  | nil => simp [messages, lens]
  | cons x xs ih =>
    by_cases hk : number = k <;> simp_all [messages, lens]

@[simp] theorem numbers_messages {α : Type} (encode : α → Bytes) (xs : List α) :
    numbers k (messages number encode xs) = [] := by
  induction xs with
  | nil => rfl
  | cons x xs ih => simp [messages, numbers]

@[simp] lemma getLast?_bytes (bytes : Bytes) :
    (if bytes = [] then [] else [bytes]).getLast?.getD [] = bytes := by
  by_cases h : bytes = [] <;> simp [h]

@[simp] lemma getLast?_number (n : ℕ) : (if n = 0 then [] else [n]).getLast?.getD 0 = n := by
  by_cases h : n = 0 <;> simp [h]

end Singular

end Protobuf
