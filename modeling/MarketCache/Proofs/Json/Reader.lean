import MarketCache.Json.Printer
import MarketCache.Json.Reader
import MarketCache.Proofs.Json.Number
import MarketCache.Proofs.Json.Text

/-!
# JSON values through their text

A value without doubles whose objects are in canonical form is read back from its text, if the
reader lets as many arrays and objects lie inside each other as the value has. The fuel of the
reader is counted in bytes: two units for each of them are enough.

Results:
* `valueWithin_text`: the reader with its fuel, by recursion on the value.
* `readValue_bytes`: the reader.
-/

namespace MarketCache.Json

open Text.Utf8

/-! ## Keys and separators -/

section Separators

variable (rest : Bytes)

theorem anotherFollows_close {close : UInt8} (h : isBlankByte close = false) :
    anotherFollows close (close :: rest) = .ok (false, rest) := by
  rw [anotherFollows, skipBlanks, List.dropWhile_cons_of_neg (by simp [h])]
  simp only [if_true]

theorem anotherFollows_comma {close : UInt8} (h : comma ≠ close) :
    anotherFollows close (comma :: rest) = .ok (true, rest) := by
  rw [anotherFollows, skipBlanks, List.dropWhile_cons_of_neg (by decide)]
  simp only [if_neg h, if_true]

theorem expectByte_cons {b : UInt8} (h : isBlankByte b = false) :
    expectByte b (b :: rest) = .ok rest := by
  rw [expectByte, skipBlanks, List.dropWhile_cons_of_neg (by simp [h])]
  exact expect_append [b] rest

theorem encode_cons_ascii {c : Char} {b : UInt8} (h : String.utf8EncodeChar c = [b])
    (cs : List Char) : encode (c :: cs) = b :: encode cs := by
  rw [encode_cons, h]
  rfl

/-- A key that was written, and its colon. -/
theorem readKey_append (key : String) (cs : List Char) :
    readKey (encode (quoted key ++ ':' :: cs) ++ rest) = .ok (key, encode cs ++ rest) := by
  have hcolon : String.utf8EncodeChar ':' = [colon] := by decide
  have htext := readText_append key (colon :: (encode cs ++ rest))
  rw [encode_append, encode_quoted, encode_cons_ascii hcolon]
  simp only [List.cons_append, List.append_assoc, List.nil_append]
  simp only [readKey, bind, Except.bind, expectByte_cons _ (show isBlankByte quote = false by rfl),
    htext, expectByte_cons _ (show isBlankByte colon = false by rfl)]

end Separators

/-! ## Scalars -/

/-- Whether a value is read back as one that is no array and no object. -/
def ReadsScalar (v : Json) : Prop :=
  ∃ b tail, encode v.text = b :: tail ∧ isBlankByte b = false ∧ b ≠ closeBracket ∧
    b ≠ openBracket ∧ b ≠ openBrace ∧
      ∀ rest, Delimited rest → readScalar b (tail ++ rest) = .ok (v, rest)

theorem readsScalar_null : ReadsScalar .null :=
  ⟨0x6E, [0x75, 0x6C, 0x6C], by decide, by decide, by decide, by decide, by decide, fun rest _ => by
    have hexpect := expect_append [0x75, 0x6C, 0x6C] rest
    simp only [readScalar, afterLetter?]
    exact congrArg (Except.map fun rest => (Json.null, rest)) hexpect⟩

theorem readsScalar_bool (b : Bool) : ReadsScalar (.bool b) := by
  cases b
  · refine ⟨0x66, [0x61, 0x6C, 0x73, 0x65], by decide, by decide, by decide, by decide, by decide,
      fun rest _ => ?_⟩
    have hexpect := expect_append [0x61, 0x6C, 0x73, 0x65] rest
    exact congrArg (Except.map fun rest => (Json.bool false, rest)) hexpect
  · refine ⟨0x74, [0x72, 0x75, 0x65], by decide, by decide, by decide, by decide, by decide,
      fun rest _ => ?_⟩
    have hexpect := expect_append [0x72, 0x75, 0x65] rest
    exact congrArg (Except.map fun rest => (Json.bool true, rest)) hexpect

theorem readsScalar_string (s : String) : ReadsScalar (.string s) :=
  ⟨quote, encode (s.toList.flatMap escapeChar) ++ [quote], encode_quoted s, by decide, by decide,
    by decide, by decide, fun rest _ => by
      have htext := readText_append s rest
      rw [List.append_assoc, List.singleton_append, readScalar, if_pos rfl, htext]
      rfl⟩

/-- A digit is none of the bytes that begin other values. -/
theorem ne_of_isDigitByte {b c : UInt8} (hb : isDigitByte b = true)
    (hc : isDigitByte c = false) : b ≠ c := by
  rintro rfl
  rw [hb] at hc
  cases hc

/-- A whole number without a minus sign begins with a digit. -/
theorem readScalar_natural {z : Integer} (h : ¬ z.val < 0) :
    ∃ b tail, encode (Json.int z).text = b :: tail ∧ isDigitByte b = true ∧
      ∀ rest, Delimited rest → readScalar b (tail ++ rest) = .ok (.int z, rest) := by
  obtain ⟨c, cs, hcs⟩ := List.exists_cons_of_ne_nil (Text.decimal_ne_nil z.val.natAbs)
  have hc : c.isDigit = true :=
    Text.isDigit_of_mem_decimal (n := z.val.natAbs) (hcs ▸ List.mem_cons_self)
  obtain ⟨hbytes, -, hdigit⟩ := utf8EncodeChar_of_isDigit hc
  refine ⟨UInt8.ofNat c.toNat, encode cs, ?_, hdigit, fun rest hrest => ?_⟩
  · rw [text, Text.signedDecimal, if_neg h, hcs, encode_cons_ascii hbytes]
  · have hread := readNumber_append z hrest
    rw [decide_eq_false h, hcs, encode_cons_ascii hbytes, List.cons_append] at hread
    rw [readScalar, if_neg (ne_of_isDigitByte hdigit (by decide)),
      if_neg (ne_of_isDigitByte hdigit (by decide)), if_pos hdigit, hread]

theorem isBlankByte_of_isDigitByte {b : UInt8} (h : isDigitByte b = true) :
    isBlankByte b = false := by
  simp only [isBlankByte, Bool.or_eq_false_iff, beq_eq_false_iff_ne]
  exact ⟨⟨⟨ne_of_isDigitByte h (by decide), ne_of_isDigitByte h (by decide)⟩,
    ne_of_isDigitByte h (by decide)⟩, ne_of_isDigitByte h (by decide)⟩

theorem readsScalar_int (z : Integer) : ReadsScalar (.int z) := by
  by_cases hneg : z.val < 0
  · have htext : encode (Json.int z).text = minus :: encode (Text.decimal z.val.natAbs) := by
      have hminus : String.utf8EncodeChar '-' = [minus] := by decide
      rw [text, Text.signedDecimal, if_pos hneg, encode_cons_ascii hminus]
    refine ⟨minus, _, htext, by decide, by decide, by decide, by decide, fun rest hrest => ?_⟩
    have hread := readNumber_append z hrest
    rw [decide_eq_true hneg] at hread
    rw [readScalar, if_neg (by decide), if_pos rfl, hread]
  · obtain ⟨b, tail, htext, hdigit, hread⟩ := readScalar_natural hneg
    exact ⟨b, tail, htext, isBlankByte_of_isDigitByte hdigit,
      ne_of_isDigitByte hdigit (by decide), ne_of_isDigitByte hdigit (by decide),
      ne_of_isDigitByte hdigit (by decide), hread⟩

theorem ReadsScalar.valueWithin {v : Json} (h : ReadsScalar v) {fuel : Nat} (depth : Nat)
    {rest : Bytes} (hfuel : 2 * (encode v.text).length ≤ fuel) (hrest : Delimited rest) :
    valueWithin fuel depth (encode v.text ++ rest) = .ok (v, rest) := by
  obtain ⟨b, tail, htext, hblank, -, hbracket, hbrace, hread⟩ := h
  rw [htext, List.length_cons] at hfuel
  obtain ⟨fuel, rfl⟩ := Nat.exists_eq_succ_of_ne_zero (show fuel ≠ 0 by omega)
  rw [htext, List.cons_append, Json.valueWithin, skipBlanks,
    List.dropWhile_cons_of_neg (by simp [hblank])]
  simp only [if_neg hbracket, if_neg hbrace]
  exact hread rest hrest

/-! ## Lists -/

theorem delimited_moreItems (items : List Json) (rest : Bytes) :
    Delimited (encode (moreItems items) ++ rest) := by
  rcases items with _ | ⟨v, items⟩
  · intro b hb
    cases hb
    exact Or.inr (Or.inl rfl)
  · intro b hb
    cases hb
    exact Or.inl rfl

theorem delimited_moreMembers (members : List (String × Json)) (rest : Bytes) :
    Delimited (encode (moreMembers members) ++ rest) := by
  rcases members with _ | ⟨⟨k, v⟩, members⟩
  · intro b hb
    cases hb
    exact Or.inr (Or.inr rfl)
  · intro b hb
    cases hb
    exact Or.inl rfl

theorem encode_array (v : Json) (items : List Json) :
    encode (Json.array (v :: items)).text =
      openBracket :: (encode v.text ++ encode (moreItems items)) := by
  rw [text, encode_cons_ascii (b := openBracket) (by decide), encode_append]

theorem encode_moreItems (v : Json) (items : List Json) :
    encode (moreItems (v :: items)) = comma :: (encode v.text ++ encode (moreItems items)) := by
  rw [moreItems, encode_cons_ascii (b := comma) (by decide), encode_append]

theorem length_moreItems_pos (items : List Json) : 0 < (encode (moreItems items)).length := by
  cases items <;> exact Nat.succ_pos _

theorem encode_object (k : String) (v : Json) (members : List (String × Json)) :
    encode (Json.object ((k, v) :: members)).text =
      openBrace :: encode (quoted k ++ ':' :: (v.text ++ moreMembers members)) := by
  rw [text, encode_cons_ascii (b := openBrace) (by decide)]

theorem encode_moreMembers (k : String) (v : Json) (members : List (String × Json)) :
    encode (moreMembers ((k, v) :: members)) =
      comma :: encode (quoted k ++ ':' :: (v.text ++ moreMembers members)) := by
  rw [moreMembers, encode_cons_ascii (b := comma) (by decide)]

theorem length_moreMembers_pos (members : List (String × Json)) :
    0 < (encode (moreMembers members)).length := by
  rcases members with _ | ⟨⟨_, _⟩, members⟩ <;> exact Nat.succ_pos _

/-- A member is longer than its value and what stands behind it. -/
theorem lt_length_member (k : String) (v : Json) (cs : List Char) :
    (encode v.text).length + (encode cs).length <
      (encode (quoted k ++ ':' :: (v.text ++ cs))).length := by
  have hcolon : 0 < (String.utf8EncodeChar ':').length := by decide
  rw [encode_append, encode_cons, encode_append, List.length_append, List.length_append,
    List.length_append]
  omega

/-- A key that comes after all keys of a list of members. -/
theorem setMember_append {key : String} {acc : List (String × Json)} (v : Json)
    (h : ∀ m ∈ acc, m.1 < key) : setMember key v acc = acc ++ [(key, v)] := by
  induction acc with
  | nil => rfl
  | cons m acc ih =>
    have hlt : m.1 < key := h m List.mem_cons_self
    have hcmp : compare key m.1 = .gt := by
      show compareOfLessAndEq key m.1 = .gt
      have hnot : ¬ key < m.1 := String.lt_asymm hlt
      have hne : key ≠ m.1 := fun heq => String.lt_irrefl m.1 (heq ▸ hlt)
      rw [compareOfLessAndEq, if_neg hnot, if_neg hne]
    rw [setMember, hcmp, ih fun m hm => h m (List.mem_cons_of_mem _ hm)]
    rfl

theorem pairwise_of_sortedKeys : ∀ {members : List (String × Json)},
    sortedKeys members = true → members.Pairwise fun a b => a.1 < b.1
  | [], _ => List.Pairwise.nil
  | [m], _ => List.pairwise_singleton _ m
  | (k, v) :: (k', v') :: members, h => by
    rw [sortedKeys, Bool.and_eq_true, decide_eq_true_eq] at h
    have hrest := pairwise_of_sortedKeys h.2
    refine List.Pairwise.cons (fun m hm => ?_) hrest
    rcases List.mem_cons.mp hm with rfl | hm
    · exact h.1
    · exact String.lt_trans h.1 ((List.pairwise_cons.mp hrest).1 m hm)

/-! ## Values -/

/-- What the reader of an array does after an item. -/
def afterItem (fuel depth : Nat) (acc : List Json) (bs : Bytes) : Read Json :=
  match anotherFollows closeBracket bs with
  | .error e => .error e
  | .ok (false, rest) => .ok (.array acc.reverse, rest)
  | .ok (true, rest) => itemsWithin fuel depth acc rest

/-- What the reader of an object does after a member. -/
def afterMember (fuel depth : Nat) (acc : List (String × Json)) (bs : Bytes) : Read Json :=
  match anotherFollows closeBrace bs with
  | .error e => .error e
  | .ok (false, rest) => .ok (.object acc, rest)
  | .ok (true, rest) => membersWithin fuel depth acc rest

section Steps

variable {fuel depth : Nat} {v : Json} {tail : Bytes}

theorem itemsWithin_text (acc : List Json)
    (hv : valueWithin fuel depth (encode v.text ++ tail) = .ok (v, tail)) :
    itemsWithin (fuel + 1) depth acc (encode v.text ++ tail) =
      afterItem fuel depth (v :: acc) tail := by
  rw [itemsWithin, hv]
  rfl

theorem membersWithin_text {acc : List (String × Json)} {key : String} {cs : List Char}
    (hlast : ∀ m ∈ acc, m.1 < key)
    (hv : valueWithin fuel depth (encode (v.text ++ cs) ++ tail) = .ok (v, encode cs ++ tail)) :
    membersWithin (fuel + 1) depth acc (encode (quoted key ++ ':' :: (v.text ++ cs)) ++ tail) =
      afterMember fuel depth (acc ++ [(key, v)]) (encode cs ++ tail) := by
  rw [membersWithin, readKey_append]
  simp only [hv, setMember_append v hlast]
  rfl

/-- An array with an item. -/
theorem valueWithin_array (hhead : ∃ b bs, encode v.text = b :: bs ∧ isBlankByte b = false ∧
    b ≠ closeBracket) :
    valueWithin (fuel + 1) (depth + 1) (openBracket :: (encode v.text ++ tail)) =
      itemsWithin fuel depth [] (encode v.text ++ tail) := by
  obtain ⟨b, bs, hb, hblank, hclose⟩ := hhead
  have hskip : ∀ bs, skipBlanks (b :: bs) = b :: bs := fun bs =>
    List.dropWhile_cons_of_neg (by simp [hblank])
  rw [hb, List.cons_append, valueWithin, skipBlanks, List.dropWhile_cons_of_neg (by decide)]
  simp only [if_true, hskip, if_neg hclose]

/-- An object with a member. -/
theorem valueWithin_object (key : String) (cs : List Char) :
    valueWithin (fuel + 1) (depth + 1) (openBrace :: (encode (quoted key ++ cs) ++ tail)) =
      membersWithin fuel depth [] (encode (quoted key ++ cs) ++ tail) := by
  have hskip : ∀ bs, skipBlanks (quote :: bs) = quote :: bs := fun bs =>
    List.dropWhile_cons_of_neg (by decide)
  rw [encode_append, encode_quoted, valueWithin, skipBlanks,
    List.dropWhile_cons_of_neg (by decide)]
  simp only [List.cons_append, hskip, if_neg (show openBrace ≠ openBracket by decide),
    if_neg (show quote ≠ closeBrace by decide), if_true]

end Steps

/-- The first byte of a value is no white space and does not close an array. -/
theorem head_text : ∀ {v : Json}, v.floatFree = true →
    ∃ b bs, encode v.text = b :: bs ∧ isBlankByte b = false ∧ b ≠ closeBracket := by
  have hscalar : ∀ {v}, ReadsScalar v →
      ∃ b bs, encode v.text = b :: bs ∧ isBlankByte b = false ∧ b ≠ closeBracket :=
    fun ⟨b, bs, hb, hblank, hclose, _⟩ => ⟨b, bs, hb, hblank, hclose⟩
  intro v h
  cases v with
  | null => exact hscalar readsScalar_null
  | bool b => exact hscalar (readsScalar_bool b)
  | int z => exact hscalar (readsScalar_int z)
  | float x => cases h
  | string s => exact hscalar (readsScalar_string s)
  | array items => cases items <;> exact ⟨openBracket, _, rfl, by decide, by decide⟩
  | object members => rcases members with _ | ⟨⟨k, v⟩, members⟩ <;>
      exact ⟨openBrace, _, rfl, by decide, by decide⟩

mutual

/-- The reader with its fuel gets a value back. -/
theorem valueWithin_text : ∀ (v : Json) (fuel depth : Nat) (rest : Bytes), v.floatFree = true →
    v.canonical = true → v.depth ≤ depth → 2 * (encode v.text).length ≤ fuel → Delimited rest →
    valueWithin fuel depth (encode v.text ++ rest) = .ok (v, rest)
  | .null, _, depth, _, _, _, _, hfuel, hrest => readsScalar_null.valueWithin depth hfuel hrest
  | .bool b, _, depth, _, _, _, _, hfuel, hrest =>
    (readsScalar_bool b).valueWithin depth hfuel hrest
  | .int z, _, depth, _, _, _, _, hfuel, hrest => (readsScalar_int z).valueWithin depth hfuel hrest
  | .float _, _, _, _, hfloat, _, _, _, _ => by cases hfloat
  | .string s, _, depth, _, _, _, _, hfuel, hrest =>
    (readsScalar_string s).valueWithin depth hfuel hrest
  | .array [], fuel, depth, rest, _, _, hdepth, hfuel, _ => by
    obtain ⟨fuel, rfl⟩ := Nat.exists_eq_add_of_le'
      (show 1 ≤ fuel from Nat.le_trans (by decide) hfuel)
    obtain ⟨depth, rfl⟩ := Nat.exists_eq_add_of_le' (show 1 ≤ depth from hdepth)
    rfl
  | .array (v :: items), fuel, depth, rest, hfloat, hcanonical, hdepth, hfuel, _ => by
    simp only [floatFree, itemsFloatFree, canonical, itemsCanonical, Json.depth, depthOfItems,
      Bool.and_eq_true] at hfloat hcanonical hdepth
    rw [encode_array, List.length_cons, List.length_append] at hfuel
    have hmore := length_moreItems_pos items
    obtain ⟨fuel, rfl⟩ := Nat.exists_eq_add_of_le' (show 2 ≤ fuel by omega)
    obtain ⟨depth, rfl⟩ := Nat.exists_eq_add_of_le' (show 1 ≤ depth by omega)
    have hv := valueWithin_text v fuel depth (encode (moreItems items) ++ rest) hfloat.1
      hcanonical.1 (by omega) (by omega) (delimited_moreItems items rest)
    have hitems := afterItem_moreItems items fuel depth [v] rest hfloat.2 hcanonical.2 (by omega)
      (by omega)
    rw [encode_array, List.cons_append, List.append_assoc, valueWithin_array (head_text hfloat.1),
      itemsWithin_text [] hv, hitems]
    rfl
  | .object [], fuel, depth, rest, _, _, hdepth, hfuel, _ => by
    obtain ⟨fuel, rfl⟩ := Nat.exists_eq_add_of_le'
      (show 1 ≤ fuel from Nat.le_trans (by decide) hfuel)
    obtain ⟨depth, rfl⟩ := Nat.exists_eq_add_of_le' (show 1 ≤ depth from hdepth)
    rfl
  | .object ((k, v) :: members), fuel, depth, rest, hfloat, hcanonical, hdepth, hfuel, _ => by
    simp only [floatFree, membersFloatFree, canonical, membersCanonical, Json.depth, depthOfMembers,
      Bool.and_eq_true] at hfloat hcanonical hdepth
    have hsorted := pairwise_of_sortedKeys hcanonical.1
    rw [encode_object, List.length_cons] at hfuel
    have hmember := lt_length_member k v (moreMembers members)
    have hmore := length_moreMembers_pos members
    obtain ⟨fuel, rfl⟩ := Nat.exists_eq_add_of_le' (show 2 ≤ fuel by omega)
    obtain ⟨depth, rfl⟩ := Nat.exists_eq_add_of_le' (show 1 ≤ depth by omega)
    have hv := valueWithin_text v fuel depth (encode (moreMembers members) ++ rest) hfloat.1
      hcanonical.2.1 (by omega) (by omega) (delimited_moreMembers members rest)
    rw [← List.append_assoc, ← encode_append] at hv
    have hmembers := afterMember_moreMembers members fuel depth [(k, v)] rest hfloat.2
      hcanonical.2.2 hsorted (by omega) (by omega)
    rw [encode_object, List.cons_append, valueWithin_object, membersWithin_text (by simp) hv]
    exact hmembers

theorem afterItem_moreItems : ∀ (items : List Json) (fuel depth : Nat) (acc : List Json)
    (rest : Bytes), itemsFloatFree items = true → itemsCanonical items = true →
    depthOfItems items ≤ depth → 2 * (encode (moreItems items)).length ≤ fuel + 2 →
    afterItem fuel depth acc (encode (moreItems items) ++ rest) =
      .ok (.array (acc.reverse ++ items), rest)
  | [], _, _, acc, rest, _, _, _, _ => by
    have hclose : encode (moreItems []) ++ rest = closeBracket :: rest := rfl
    rw [hclose, afterItem, anotherFollows_close rest (by decide), List.append_nil]
  | v :: items, fuel, depth, acc, rest, hfloat, hcanonical, hdepth, hfuel => by
    simp only [itemsFloatFree, itemsCanonical, depthOfItems,
      Bool.and_eq_true] at hfloat hcanonical hdepth
    rw [encode_moreItems, List.length_cons, List.length_append] at hfuel
    have hmore := length_moreItems_pos items
    obtain ⟨fuel, rfl⟩ := Nat.exists_eq_add_of_le' (show 1 ≤ fuel by omega)
    have hv := valueWithin_text v fuel depth (encode (moreItems items) ++ rest) hfloat.1
      hcanonical.1 (by omega) (by omega) (delimited_moreItems items rest)
    have hrest := afterItem_moreItems items fuel depth (v :: acc) rest
      hfloat.2 hcanonical.2 (by omega) (by omega)
    rw [encode_moreItems, List.cons_append, List.append_assoc, afterItem,
      anotherFollows_comma _ (by decide)]
    dsimp only
    rw [itemsWithin_text acc hv, hrest, List.reverse_cons, List.append_assoc]
    rfl

theorem afterMember_moreMembers : ∀ (members : List (String × Json)) (fuel depth : Nat)
    (acc : List (String × Json)) (rest : Bytes), membersFloatFree members = true →
    membersCanonical members = true → (acc ++ members).Pairwise (fun a b => a.1 < b.1) →
    depthOfMembers members ≤ depth → 2 * (encode (moreMembers members)).length ≤ fuel + 2 →
    afterMember fuel depth acc (encode (moreMembers members) ++ rest) =
      .ok (.object (acc ++ members), rest)
  | [], _, _, acc, rest, _, _, _, _, _ => by
    have hclose : encode (moreMembers []) ++ rest = closeBrace :: rest := rfl
    rw [hclose, afterMember, anotherFollows_close rest (by decide), List.append_nil]
  | (k, v) :: members, fuel, depth, acc, rest, hfloat, hcanonical, hsorted, hdepth, hfuel => by
    simp only [membersFloatFree, membersCanonical, depthOfMembers,
      Bool.and_eq_true] at hfloat hcanonical hdepth
    rw [encode_moreMembers, List.length_cons] at hfuel
    have hmember := lt_length_member k v (moreMembers members)
    have hmore := length_moreMembers_pos members
    obtain ⟨fuel, rfl⟩ := Nat.exists_eq_add_of_le' (show 1 ≤ fuel by omega)
    have hv := valueWithin_text v fuel depth (encode (moreMembers members) ++ rest) hfloat.1
      hcanonical.1 (by omega) (by omega) (delimited_moreMembers members rest)
    rw [← List.append_assoc, ← encode_append] at hv
    have hlast : ∀ m ∈ acc, m.1 < k := fun m hm =>
      (List.pairwise_append.mp hsorted).2.2 m hm (k, v) List.mem_cons_self
    have hrest := afterMember_moreMembers members fuel depth
      (acc ++ [(k, v)]) rest hfloat.2 hcanonical.2 (by rwa [List.append_assoc]) (by omega)
      (by omega)
    rw [encode_moreMembers, List.cons_append, afterMember, anotherFollows_comma _ (by decide)]
    dsimp only
    rw [membersWithin_text hlast hv, hrest, List.append_assoc]
    rfl

end

/-- A value that was written, with anything behind it that can stand there. -/
theorem readValue_bytes {v : Json} {depth : Nat} {rest : Bytes} (hfloat : v.floatFree = true)
    (hcanonical : v.canonical = true) (hdepth : v.depth ≤ depth) (hrest : Delimited rest) :
    readValue depth (v.bytes ++ rest) = .ok (v, rest) :=
  valueWithin_text v _ _ _ hfloat hcanonical hdepth
    (by rw [List.length_append, bytes]; omega) hrest

end MarketCache.Json
