import MarketCache.Json.Number
import MarketCache.Json.Text

/-!
# Writing JSON

JSON text without white space, members in the order of their list.

Main definitions: `Json.text` and its UTF-8 bytes `Json.bytes`.
-/

namespace MarketCache.Json

mutual

/-- A value as JSON text. -/
def text : Json → List Char
  | .null => ['n', 'u', 'l', 'l']
  | .bool true => ['t', 'r', 'u', 'e']
  | .bool false => ['f', 'a', 'l', 's', 'e']
  | .int z => Text.signedDecimal z.val
  | .float x => floatText x
  | .string s => quoted s
  | .array [] => ['[', ']']
  | .array (v :: rest) => '[' :: (v.text ++ moreItems rest)
  | .object [] => ['{', '}']
  | .object ((k, v) :: rest) => '{' :: (quoted k ++ ':' :: (v.text ++ moreMembers rest))

/-- The rest of an array after an item. -/
def moreItems : List Json → List Char
  | [] => [']']
  | v :: rest => ',' :: (v.text ++ moreItems rest)

/-- The rest of an object after a member. -/
def moreMembers : List (String × Json) → List Char
  | [] => ['}']
  | (k, v) :: rest => ',' :: (quoted k ++ ':' :: (v.text ++ moreMembers rest))

end

/-- A value as the bytes of its JSON text. -/
def bytes (v : Json) : Bytes := Text.Utf8.encode v.text

/-- A value as a string of JSON text. -/
def toText (v : Json) : String := String.ofList v.text

end MarketCache.Json
