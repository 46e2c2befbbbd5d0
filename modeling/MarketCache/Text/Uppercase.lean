import MarketCache.Text.CaseTable

/-!
# Upper case

Upper case maps a text character by character, each to one, two or three characters
(`ß` to `SS`), without regard to its neighbours or to any language.
-/

namespace MarketCache.Text

/-- The upper case of one character. -/
def upperChar (c : Char) : List Char :=
  match caseRuns.find? (·.has c.toNat) with
  | some r => [Char.ofNat (c.toNat + r.shift).toNat]
  | none =>
    match caseExpansions.lookup c.toNat with
    | some codes => codes.map Char.ofNat
    | none => [c]

/-- The upper case of a text. -/
def upper (cs : List Char) : List Char := cs.flatMap upperChar

@[simp] theorem upper_append (a b : List Char) : upper (a ++ b) = upper a ++ upper b := by
  simp [upper]

end MarketCache.Text
