import Mathlib.Data.List.Basic

/-!
# JSON values

Values as a parser returns them. The members of an object are looked up by their
first occurrence. Putting a member replaces that occurrence or adds one, so
every other member is looked up as before.
-/

inductive Json where
  | null
  | bool (b : Bool)
  | number (literal : String)
  | string (s : String)
  | array (items : List Json)
  | object (members : List (String × Json))

namespace Json

/-- The members of an object. -/
def members? : Json → Option (List (String × Json))
  | object members => some members
  | _ => none

/-- The items of an array. -/
def items? : Json → Option (List Json)
  | array items => some items
  | _ => none

/-- The value is this string. -/
def isString (s : String) : Json → Bool
  | string t => t = s
  | _ => false

/-- The value of a member. -/
def member? (key : String) : List (String × Json) → Option Json
  | [] => none
  | (k, v) :: rest => if k = key then some v else member? key rest

/-- Give a member a value. -/
def put (key : String) (value : Json) : List (String × Json) → List (String × Json)
  | [] => [(key, value)]
  | (k, v) :: rest => if k = key then (k, value) :: rest else (k, v) :: put key value rest

/-- An object in which the member, if it is there, has the property. -/
def HasEntry (key : String) (P : Json → Prop) (v : Json) : Prop :=
  ∃ members, v = object members ∧ ∀ x, member? key members = some x → P x

@[simp] theorem members?_eq_some_iff (v : Json) (members : List (String × Json)) :
    v.members? = some members ↔ v = object members := by
  cases v <;> simp [members?]

@[simp] theorem items?_eq_some_iff (v : Json) (items : List Json) :
    v.items? = some items ↔ v = array items := by
  cases v <;> simp [items?]

@[simp] theorem isString_iff (s : String) (v : Json) : v.isString s = true ↔ v = string s := by
  cases v <;> simp [isString]

theorem member?_put_self (key : String) (value : Json) (members : List (String × Json)) :
    member? key (put key value members) = some value := by
  induction members with
  | nil => simp [put, member?]
  | cons m members ih =>
    obtain ⟨k, v⟩ := m
    by_cases hk : k = key
    · simp [put, member?, hk]
    · simp [put, member?, hk, ih]

theorem member?_put_ne {key key' : String} (h : key' ≠ key) (value : Json)
    (members : List (String × Json)) :
    member? key' (put key value members) = member? key' members := by
  induction members with
  | nil => simp [put, member?, h.symm]
  | cons m members ih =>
    obtain ⟨k, v⟩ := m
    by_cases hk : k = key
    · simp [put, member?, hk, h.symm]
    · by_cases hk' : k = key'
      · rw [put, if_neg hk, member?, member?, if_pos hk', if_pos hk']
      · rw [put, if_neg hk, member?, member?, if_neg hk', if_neg hk', ih]

end Json
