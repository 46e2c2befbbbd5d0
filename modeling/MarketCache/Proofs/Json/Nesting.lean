import MarketCache.Proofs.Json.Reader

/-!
# JSON values that are nested too deep

The reader refuses a value with more arrays and objects inside each other than it lets pass, and
it does so at the first bracket too many: what stands before it is read as it was written. Both
halves together make the depth of a value the exact bound of what can be read back.

Results:
* `valueWithin_tooDeep`: the reader with its fuel, by recursion on the value.
* `readValue_tooDeep`: the reader.
-/

namespace MarketCache.Json

open Text.Utf8

/-! ## Where the refusal comes from -/

section Steps

variable {fuel depth : Nat} {fault : ReadError} {bs : Bytes}

/-- An array is refused with its next item. -/
theorem itemsWithin_error (acc : List Json) (h : valueWithin fuel depth bs = .error fault) :
    itemsWithin (fuel + 1) depth acc bs = .error fault := by
  rw [itemsWithin, h]

/-- An object is refused with the value of its next member. -/
theorem membersWithin_error (acc : List (String × Json)) {key : String} {cs : List Char}
    {tail : Bytes} (h : valueWithin fuel depth (encode cs ++ tail) = .error fault) :
    membersWithin (fuel + 1) depth acc (encode (quoted key ++ ':' :: cs) ++ tail) =
      .error fault := by
  rw [membersWithin, readKey_append]
  simp only [h]

/-- No array is read where none may stand. -/
theorem valueWithin_zero_array (tail : Bytes) :
    valueWithin (fuel + 1) 0 (openBracket :: tail) = .error .malformed := by
  rw [valueWithin, skipBlanks, List.dropWhile_cons_of_neg (by decide)]
  simp only [if_true]

/-- No object is read where none may stand. -/
theorem valueWithin_zero_object (tail : Bytes) :
    valueWithin (fuel + 1) 0 (openBrace :: tail) = .error .malformed := by
  rw [valueWithin, skipBlanks, List.dropWhile_cons_of_neg (by decide)]
  simp only [if_neg (show openBrace ≠ openBracket by decide), if_true]

end Steps

/-! ## Values -/

mutual

/-- The reader with its fuel refuses a value that is nested too deep. -/
theorem valueWithin_tooDeep : ∀ (v : Json) (fuel depth : Nat) (rest : Bytes),
    v.floatFree = true → v.canonical = true → depth < v.depth →
    2 * (encode v.text).length ≤ fuel →
    valueWithin fuel depth (encode v.text ++ rest) = .error .malformed
  | .null, _, _, _, _, _, hdepth, _ => absurd hdepth (Nat.not_lt_zero _)
  | .bool _, _, _, _, _, _, hdepth, _ => absurd hdepth (Nat.not_lt_zero _)
  | .int _, _, _, _, _, _, hdepth, _ => absurd hdepth (Nat.not_lt_zero _)
  | .float _, _, _, _, _, _, hdepth, _ => absurd hdepth (Nat.not_lt_zero _)
  | .string _, _, _, _, _, _, hdepth, _ => absurd hdepth (Nat.not_lt_zero _)
  | .array [], fuel, depth, rest, _, _, hdepth, hfuel => by
    obtain ⟨fuel, rfl⟩ := Nat.exists_eq_add_of_le'
      (show 1 ≤ fuel from Nat.le_trans (by decide) hfuel)
    obtain rfl : depth = 0 := Nat.lt_one_iff.mp hdepth
    exact valueWithin_zero_array _
  | .array (v :: items), fuel, depth, rest, hfloat, hcanonical, hdepth, hfuel => by
    simp only [floatFree, itemsFloatFree, canonical, itemsCanonical, Json.depth, depthOfItems,
      Bool.and_eq_true] at hfloat hcanonical hdepth
    rw [encode_array, List.length_cons, List.length_append] at hfuel
    have hmore := length_moreItems_pos items
    obtain ⟨fuel, rfl⟩ := Nat.exists_eq_add_of_le' (show 2 ≤ fuel by omega)
    rw [encode_array, List.cons_append, List.append_assoc]
    cases depth with
    | zero => exact valueWithin_zero_array _
    | succ depth =>
      rw [valueWithin_array (head_text hfloat.1)]
      by_cases hv : depth < v.depth
      · exact itemsWithin_error [] (valueWithin_tooDeep v fuel depth _ hfloat.1 hcanonical.1 hv
          (by omega))
      · -- the first item is read, so that the refusal comes from one behind it
        have hread := valueWithin_text v fuel depth (encode (moreItems items) ++ rest) hfloat.1
          hcanonical.1 (by omega) (by omega) (delimited_moreItems items rest)
        rw [itemsWithin_text [] hread]
        exact afterItem_tooDeep items fuel depth [v] rest hfloat.2 hcanonical.2 (by omega)
          (by omega)
  | .object [], fuel, depth, rest, _, _, hdepth, hfuel => by
    obtain ⟨fuel, rfl⟩ := Nat.exists_eq_add_of_le'
      (show 1 ≤ fuel from Nat.le_trans (by decide) hfuel)
    obtain rfl : depth = 0 := Nat.lt_one_iff.mp hdepth
    exact valueWithin_zero_object _
  | .object ((k, v) :: members), fuel, depth, rest, hfloat, hcanonical, hdepth, hfuel => by
    simp only [floatFree, membersFloatFree, canonical, membersCanonical, Json.depth, depthOfMembers,
      Bool.and_eq_true] at hfloat hcanonical hdepth
    have hsorted := pairwise_of_sortedKeys hcanonical.1
    rw [encode_object, List.length_cons] at hfuel
    have hmember := lt_length_member k v (moreMembers members)
    have hmore := length_moreMembers_pos members
    obtain ⟨fuel, rfl⟩ := Nat.exists_eq_add_of_le' (show 2 ≤ fuel by omega)
    rw [encode_object, List.cons_append]
    cases depth with
    | zero => exact valueWithin_zero_object _
    | succ depth =>
      rw [valueWithin_object]
      by_cases hv : depth < v.depth
      · refine membersWithin_error [] ?_
        rw [encode_append, List.append_assoc]
        exact valueWithin_tooDeep v fuel depth _ hfloat.1 hcanonical.2.1 hv (by omega)
      · have hread := valueWithin_text v fuel depth (encode (moreMembers members) ++ rest)
          hfloat.1 hcanonical.2.1 (by omega) (by omega) (delimited_moreMembers members rest)
        rw [← List.append_assoc, ← encode_append] at hread
        rw [membersWithin_text (by simp) hread]
        exact afterMember_tooDeep members fuel depth [(k, v)] rest hfloat.2 hcanonical.2.2
          hsorted (by omega) (by omega)

theorem afterItem_tooDeep : ∀ (items : List Json) (fuel depth : Nat) (acc : List Json)
    (rest : Bytes), itemsFloatFree items = true → itemsCanonical items = true →
    depth < depthOfItems items → 2 * (encode (moreItems items)).length ≤ fuel + 2 →
    afterItem fuel depth acc (encode (moreItems items) ++ rest) = .error .malformed
  | [], _, _, _, _, _, _, hdepth, _ => absurd hdepth (Nat.not_lt_zero _)
  | v :: items, fuel, depth, acc, rest, hfloat, hcanonical, hdepth, hfuel => by
    simp only [itemsFloatFree, itemsCanonical, depthOfItems,
      Bool.and_eq_true] at hfloat hcanonical hdepth
    rw [encode_moreItems, List.length_cons, List.length_append] at hfuel
    have hmore := length_moreItems_pos items
    obtain ⟨fuel, rfl⟩ := Nat.exists_eq_add_of_le' (show 1 ≤ fuel by omega)
    rw [encode_moreItems, List.cons_append, List.append_assoc, afterItem,
      anotherFollows_comma _ (by decide)]
    dsimp only
    by_cases hv : depth < v.depth
    · exact itemsWithin_error acc (valueWithin_tooDeep v fuel depth _ hfloat.1 hcanonical.1 hv
        (by omega))
    · have hread := valueWithin_text v fuel depth (encode (moreItems items) ++ rest) hfloat.1
        hcanonical.1 (by omega) (by omega) (delimited_moreItems items rest)
      rw [itemsWithin_text acc hread]
      exact afterItem_tooDeep items fuel depth (v :: acc) rest hfloat.2 hcanonical.2 (by omega)
        (by omega)

theorem afterMember_tooDeep : ∀ (members : List (String × Json)) (fuel depth : Nat)
    (acc : List (String × Json)) (rest : Bytes), membersFloatFree members = true →
    membersCanonical members = true → (acc ++ members).Pairwise (fun a b => a.1 < b.1) →
    depth < depthOfMembers members → 2 * (encode (moreMembers members)).length ≤ fuel + 2 →
    afterMember fuel depth acc (encode (moreMembers members) ++ rest) = .error .malformed
  | [], _, _, _, _, _, _, _, hdepth, _ => absurd hdepth (Nat.not_lt_zero _)
  | (k, v) :: members, fuel, depth, acc, rest, hfloat, hcanonical, hsorted, hdepth, hfuel => by
    simp only [membersFloatFree, membersCanonical, depthOfMembers,
      Bool.and_eq_true] at hfloat hcanonical hdepth
    rw [encode_moreMembers, List.length_cons] at hfuel
    have hmember := lt_length_member k v (moreMembers members)
    have hmore := length_moreMembers_pos members
    obtain ⟨fuel, rfl⟩ := Nat.exists_eq_add_of_le' (show 1 ≤ fuel by omega)
    rw [encode_moreMembers, List.cons_append, afterMember, anotherFollows_comma _ (by decide)]
    dsimp only
    by_cases hv : depth < v.depth
    · refine membersWithin_error acc ?_
      rw [encode_append, List.append_assoc]
      exact valueWithin_tooDeep v fuel depth _ hfloat.1 hcanonical.1 hv (by omega)
    · have hlast : ∀ m ∈ acc, m.1 < k := fun m hm =>
        (List.pairwise_append.mp hsorted).2.2 m hm (k, v) List.mem_cons_self
      have hread := valueWithin_text v fuel depth (encode (moreMembers members) ++ rest) hfloat.1
        hcanonical.1 (by omega) (by omega) (delimited_moreMembers members rest)
      rw [← List.append_assoc, ← encode_append] at hread
      rw [membersWithin_text hlast hread]
      exact afterMember_tooDeep members fuel depth (acc ++ [(k, v)]) rest hfloat.2 hcanonical.2
        (by rwa [List.append_assoc]) (by omega) (by omega)

end

/-- A value that was written and is nested too deep, whatever stands behind it. -/
theorem readValue_tooDeep {v : Json} {depth : Nat} (rest : Bytes) (hfloat : v.floatFree = true)
    (hcanonical : v.canonical = true) (hdepth : depth < v.depth) :
    readValue depth (v.bytes ++ rest) = .error .malformed :=
  valueWithin_tooDeep v _ _ _ hfloat hcanonical hdepth (by rw [List.length_append, bytes]; omega)

end MarketCache.Json
