import MarketCache.Text.Utf8

/-!
# JSON values

The values of the JSON data format. Whole numbers that fit 64 bits, signed or unsigned, are
kept exactly; all other numbers are doubles. The members of an object are a list, which is
written in its own order; a value that was read has them in canonical form: sorted by key,
no key twice.

Main definitions:
* `Json`, `Json.Integer`: the values.
* `Json.setMember`: adds a member to a canonical list; the last value of a key wins.
* `Json.Canonical`: all objects inside a value are in canonical form.
* `Json.depth`: how many arrays and objects lie inside each other.
-/

namespace MarketCache

/-- A whole number that fits 64 bits, signed or unsigned. -/
structure Json.Integer where
  val : Int
  lower : -9223372036854775808 ≤ val
  upper : val < 18446744073709551616
deriving DecidableEq, Repr

/-- A JSON value. -/
inductive Json where
  | null
  | bool (b : Bool)
  | int (z : Json.Integer)
  | float (x : Float)
  | string (s : String)
  | array (items : List Json)
  | object (members : List (String × Json))
deriving Repr, BEq, Inhabited

namespace Json

/-- The integer `z`, if it fits. -/
def Integer.ofInt? (z : Int) : Option Integer :=
  if h : -9223372036854775808 ≤ z ∧ z < 18446744073709551616 then some ⟨z, h.1, h.2⟩ else none

/-- An unsigned word as an integer. -/
def Integer.ofUInt64 (n : UInt64) : Integer :=
  ⟨n.toNat, by omega, by have := n.toNat_lt; omega⟩

/-- A word as a value. -/
def word (n : UInt64) : Json := .int (.ofUInt64 n)

/-- A count as a value; counts are kept modulo `2 ^ 64`. -/
def count (n : Nat) : Json := word (UInt64.ofNat n)

/-- Sets the value of a key in a list of members sorted by key. -/
def setMember (key : String) (value : Json) : List (String × Json) → List (String × Json)
  | [] => [(key, value)]
  | (k, v) :: rest =>
    match compare key k with
    | .lt => (key, value) :: (k, v) :: rest
    | .eq => (key, value) :: rest
    | .gt => (k, v) :: setMember key value rest

/-- The value of a key in a list of members. -/
def member? (key : String) : List (String × Json) → Option Json := List.lookup key

mutual

/-- How many arrays and objects lie inside each other. -/
def depth : Json → Nat
  | .array items => depthOfItems items + 1
  | .object members => depthOfMembers members + 1
  | _ => 0

/-- The greatest depth among some values. -/
def depthOfItems : List Json → Nat
  | [] => 0
  | v :: rest => max v.depth (depthOfItems rest)

/-- The greatest depth among the values of some members. -/
def depthOfMembers : List (String × Json) → Nat
  | [] => 0
  | (_, v) :: rest => max v.depth (depthOfMembers rest)

end

mutual

/-- Whether no number in a value is a double. -/
def floatFree : Json → Bool
  | .float _ => false
  | .array items => itemsFloatFree items
  | .object members => membersFloatFree members
  | _ => true

/-- Whether no number in some values is a double. -/
def itemsFloatFree : List Json → Bool
  | [] => true
  | v :: rest => v.floatFree && itemsFloatFree rest

/-- Whether no number in the values of some members is a double. -/
def membersFloatFree : List (String × Json) → Bool
  | [] => true
  | (_, v) :: rest => v.floatFree && membersFloatFree rest

end

/-- Whether keys stand in strictly increasing order. -/
def sortedKeys : List (String × Json) → Bool
  | [] => true
  | [_] => true
  | (k, _) :: (k', v) :: rest => k < k' && sortedKeys ((k', v) :: rest)

mutual

/-- Whether all objects in a value have their keys in strictly increasing order. -/
def canonical : Json → Bool
  | .array items => itemsCanonical items
  | .object members => sortedKeys members && membersCanonical members
  | _ => true

/-- Whether all objects in some values are in canonical form. -/
def itemsCanonical : List Json → Bool
  | [] => true
  | v :: rest => v.canonical && itemsCanonical rest

/-- Whether all objects in the values of some members are in canonical form. -/
def membersCanonical : List (String × Json) → Bool
  | [] => true
  | (_, v) :: rest => v.canonical && membersCanonical rest

end

end Json

end MarketCache
