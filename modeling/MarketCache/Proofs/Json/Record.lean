import MarketCache.Json.Record
import MarketCache.Proofs.Json.Reader
import MarketCache.Proofs.Time.Timestamp

/-!
# Fields through their text

The readers of typed values get back what was written, and the reader of a record takes its
members one after the other, each of them handed to the field of its name.

Results:
* `textField_append`, `instantField_append`, `word32Field_append`: fields of a record.
* `Shape.read_object`, `Shape.members_field`, `Shape.members_cons`: records, member by member.
-/

namespace MarketCache.Json

open Text.Utf8

theorem textField_append (s : String) (rest : Bytes) :
    textField (encode (quoted s) ++ rest) = .ok (s, rest) := by
  rw [encode_quoted, List.cons_append, List.append_assoc, textField, skipBlanks,
    List.dropWhile_cons_of_neg (by decide)]
  exact readText_append s rest

theorem instantField_append {t : Instant} (h : t.Representable) (rest : Bytes) :
    instantField (encode (quoted t.timestamp) ++ rest) = .ok (t.written, rest) := by
  rw [instantField, textField_append]
  simp only [bind, Except.bind, Instant.ofTimestamp?_timestamp h]

theorem word32Field_append (n : UInt32) {rest : Bytes} (hrest : Delimited rest) :
    word32Field ((word n.toUInt64).bytes ++ rest) = .ok (n, rest) := by
  have hval : (Integer.ofUInt64 n.toUInt64).val = n.toNat := rfl
  have hlt := n.toNat_lt
  obtain ⟨b, tail, htext, hdigit, hread⟩ :=
    readScalar_natural (z := .ofUInt64 n.toUInt64) (by rw [hval]; omega)
  rw [bytes, word, htext, List.cons_append, word32Field, skipBlanks,
    List.dropWhile_cons_of_neg (by simp [isBlankByte_of_isDigitByte hdigit])]
  simp only [hdigit, or_true, if_true, bind, Except.bind, hread rest hrest, hval]
  rw [if_pos ⟨by omega, by omega⟩, Int.toNat_natCast, UInt32.ofNat_toNat]

/-- A field keeps the value that its reader gets. -/
theorem Field.read_of {σ β : Type} {value : Bytes → Except ReadError (β × Bytes)} {v : β}
    {bs rest : Bytes} (name : String) (required : Bool) (get : σ → Option β) (set : β → σ → σ)
    (s : σ) (h : value bs = .ok (v, rest)) :
    (Field.of name required value get set).read bs s = .ok (set v s, rest) := by
  simp only [Field.of, h, bind, Except.bind]

namespace Shape

variable {σ α : Type} {shape : Shape σ α}

/-- A record with a member. -/
theorem read_object (name : String) (cs : List Char) (rest : Bytes) :
    shape.read (openBrace :: (encode (quoted name ++ cs) ++ rest)) =
      shape.members (encode (quoted name ++ cs) ++ rest).length shape.start
        (encode (quoted name ++ cs) ++ rest) := by
  have hskip : ∀ bs, skipBlanks (quote :: bs) = quote :: bs := fun bs =>
    List.dropWhile_cons_of_neg (by decide)
  rw [encode_append, encode_quoted, read, skipBlanks, List.dropWhile_cons_of_neg (by decide)]
  simp only [List.cons_append, hskip, if_neg (show quote ≠ closeBrace by decide), if_true]

/-- A member that was written: the field of its name reads the value. -/
theorem members_field {name : String} {field : Field σ} {s : σ} {cs : List Char} {rest : Bytes}
    (fuel : Nat) (hfind : shape.fields.find? (·.name == name) = some field)
    (hset : field.isSet s = false) :
    shape.members (fuel + 1) s (encode (quoted name ++ ':' :: cs) ++ rest) =
      (field.read (encode cs ++ rest) s).bind fun (s', tail) =>
        (anotherFollows closeBrace tail).bind fun (more, bs) =>
          if more then shape.members fuel s' bs else shape.finish s' bs := by
  have hcolon : String.utf8EncodeChar ':' = [colon] := by decide
  have htext := readText_append name (colon :: (encode cs ++ rest))
  rw [encode_append, encode_quoted, encode_cons_ascii hcolon]
  simp only [List.cons_append, List.append_assoc, List.nil_append]
  simp only [members, bind, expectByte_cons _ (show isBlankByte quote = false by rfl), htext,
    member, hfind, hset, expectByte_cons _ (show isBlankByte colon = false by rfl), Except.bind,
    Bool.false_eq_true, if_false]

/-- A member that was written, given what the field of its name makes of its value. -/
theorem members_cons {name : String} {field : Field σ} {s s' : σ} {cs : List Char}
    {rest tail : Bytes} (fuel : Nat) (hfind : shape.fields.find? (·.name == name) = some field)
    (hset : field.isSet s = false) (hread : field.read (encode cs ++ rest) s = .ok (s', tail)) :
    shape.members (fuel + 1) s (encode (quoted name ++ ':' :: cs) ++ rest) =
      (anotherFollows closeBrace tail).bind fun (more, bs) =>
        if more then shape.members fuel s' bs else shape.finish s' bs := by
  rw [members_field fuel hfind hset, hread]
  rfl

end Shape

end MarketCache.Json
