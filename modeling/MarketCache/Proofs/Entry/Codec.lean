import MarketCache.Entry.Codec
import MarketCache.Proofs.Json.Nesting
import MarketCache.Proofs.Json.Record

/-!
# Entries through their bytes

The bytes of an entry are read back as the entry, if those of its payload are, with the capture
time that its timestamp tells. That is the capture time itself unless it is in a leap second in the
midst of a minute. For a JSON value as payload the limit on how deep values are nested is all else
that stands in the way.

Main definitions:
* `ReadablePayload`, the law of payloads; JSON values, strings and numbers obey it.
* `Entry.decodeBehind`: what is read behind the payload of an entry.
* `Entry.asWritten`: the entry that the bytes of an entry tell.
* `Entry.IsExact`: entries with a JSON value that is written without loss.

Results:
* `Entry.decode_bytes`: the bytes of an entry are read like its payload, with the rest behind it.
* `Entry.decode_encode`: entries that are read back.
* `Entry.decode_encode_to_depth`: JSON values are read back up to a depth of 126, and refused from
  127 on.
* `Entry.not_decode_encode_midMinute`: an entry that is read back as another one.
-/

namespace MarketCache

open Json Text.Utf8

/-- Payloads that are read back from their JSON if it holds no double, has its objects in
    canonical form, and leaves room for a record around it. -/
class ReadablePayload (α : Type) [Payload α] : Prop where
  read_bytes {p : α} {v : Json} {rest : Bytes} : Payload.toJson? p = some v →
    v.floatFree = true → v.canonical = true → v.depth < depthLimit → Delimited rest →
    Payload.read (v.bytes ++ rest) = .ok (p, rest)

instance : ReadablePayload Json where
  read_bytes hp hfloat hcanonical hdepth hrest := by
    cases hp
    exact readValue_bytes hfloat hcanonical (Nat.le_sub_one_of_lt hdepth) hrest

instance : ReadablePayload String where
  read_bytes hp _ _ _ _ := by
    cases hp
    exact textField_append _ _

instance : ReadablePayload UInt32 where
  read_bytes hp _ _ _ hrest := by
    cases hp
    exact word32Field_append _ hrest

namespace Entry

variable {α : Type} [Payload α]

/-- What stands behind the payload of an entry. -/
def textBehind (e : Entry α) : List Char :=
  quoted "captured_at" ++ ':' :: (quoted e.capturedAt.timestamp ++ ['}'])

/-- What an entry is read as when its payload has been read, with `rest` behind it. -/
def decodeBehind (e : Entry α) (fuel : Nat) (p : α) (rest : Bytes) : Except ReadError (Entry α) :=
  let known : Known α := ⟨some e.key, some p, none⟩
  ((anotherFollows closeBrace rest).bind fun (more, bs) =>
    if more then shape.members fuel known bs else shape.finish known bs).bind fun (e, rest) =>
      if skipBlanks rest = [] then .ok e else .error .malformed

omit [Payload α] in
theorem delimited_textBehind (e : Entry α) : Delimited (comma :: encode e.textBehind) := by
  intro b hb
  cases hb
  exact Or.inl rfl

/-- The entry of the bytes of an entry, as far as its payload: the key comes before it. -/
theorem decode_bytes {e : Entry α} {v : Json} (hv : Payload.toJson? e.payload = some v) :
    ∃ bytes fuel, e.encode? = some bytes ∧ decode bytes =
      (Payload.read (v.bytes ++ comma :: encode e.textBehind)).bind fun (p, rest) =>
        e.decodeBehind (fuel + 1) p rest := by
  let middle := quoted "payload" ++ ':' :: (v.text ++ ',' :: e.textBehind)
  let record := quoted "key" ++ ':' :: (quoted e.key ++ ',' :: middle)
  have hcomma : ∀ cs, encode (',' :: cs) = comma :: encode cs := encode_cons_ascii (by decide)
  have hbytes : e.encode? = some (openBrace :: (encode record ++ [])) := by
    rw [encode?, toJson?, hv, List.append_nil]
    exact congrArg some (encode_cons_ascii (by decide) record)
  have hkey : textField (encode (quoted e.key ++ ',' :: middle) ++ []) =
      .ok (e.key, comma :: (encode middle ++ [])) := by
    rw [encode_append, hcomma, List.append_assoc, textField_append]
    rfl
  have hlen : 3 ≤ (encode record ++ []).length := by
    simp only [record, encode_append, encode_quoted, encode_cons, List.length_append,
      List.length_cons]
    omega
  obtain ⟨fuel, hfuel⟩ := Nat.exists_eq_add_of_le' hlen
  refine ⟨_, fuel, hbytes, ?_⟩
  have hread : (shape (α := α)).read (openBrace :: (encode record ++ [])) =
      shape.members (fuel + 2) ⟨some e.key, none, none⟩ (encode middle ++ []) := by
    rw [Shape.read_object, hfuel,
      Shape.members_cons (fuel + 2) rfl rfl (Field.read_of _ _ _ _ _ hkey),
      anotherFollows_comma _ (by decide)]
    dsimp only [Except.bind]
    rw [if_pos rfl]
    rfl
  have hpayload : encode (v.text ++ ',' :: e.textBehind) ++ [] =
      v.bytes ++ comma :: encode e.textBehind := by
    rw [List.append_nil, encode_append, hcomma]
    rfl
  have hfind : (shape (α := α)).fields.find? (·.name == "payload") = some (.of "payload" true
      Payload.read (·.payload) fun p known => { known with payload := some p }) := rfl
  rw [decode, Shape.parse, hread, Shape.members_field (fuel + 1) hfind rfl, hpayload]
  dsimp only [Field.of, bind]
  rcases Payload.read (α := α) (v.bytes ++ comma :: encode e.textBehind) with fault | ⟨p, rest⟩
  · rfl
  · rfl

/-- The entry that the bytes of an entry tell. -/
def asWritten (e : Entry α) : Entry α := { e with capturedAt := e.capturedAt.written }

omit [Payload α] in
/-- The bytes of an entry tell that entry iff its timestamp tells its capture time. -/
theorem asWritten_eq_self_iff {e : Entry α} : e.asWritten = e ↔ e.capturedAt.LeapEndsMinute := by
  rw [← Instant.written_eq_self_iff]
  refine ⟨congrArg capturedAt, fun h => ?_⟩
  rw [asWritten, h]

/-- An entry has the bytes of the one that its bytes tell. -/
theorem encode?_asWritten {e : Entry α} (h : e.capturedAt.Representable) :
    e.asWritten.encode? = e.encode? := by
  unfold encode? toJson? asWritten
  rw [Instant.timestamp_written h]

/-- The capture time ends the entry. -/
theorem decodeBehind_textBehind {e : Entry α} (fuel : Nat)
    (htime : e.capturedAt.Representable) :
    e.decodeBehind (fuel + 1) e.payload (comma :: encode e.textBehind) = .ok e.asWritten := by
  have htime : instantField (encode (quoted e.capturedAt.timestamp ++ ['}']) ++ []) =
      .ok (e.capturedAt.written, [closeBrace]) := by
    rw [encode_append, List.append_assoc, instantField_append htime]
    rfl
  have hcomma : anotherFollows closeBrace (comma :: encode e.textBehind) =
      .ok (true, encode e.textBehind) := anotherFollows_comma _ (by decide)
  rw [decodeBehind, hcomma, ← List.append_nil (encode e.textBehind), textBehind]
  dsimp only [Except.bind]
  rw [if_pos rfl, Shape.members_cons fuel rfl rfl (Field.read_of _ _ _ _ _ htime),
    anotherFollows_close _ (by decide)]
  rfl

/-- The entry of the bytes of an entry is the one that they tell. -/
theorem decode_encode [ReadablePayload α] {e : Entry α} {v : Json}
    (hv : Payload.toJson? e.payload = some v) (hfloat : v.floatFree = true)
    (hcanonical : v.canonical = true) (hdepth : v.depth < depthLimit)
    (htime : e.capturedAt.Representable) :
    ∃ bytes, e.encode? = some bytes ∧ decode bytes = .ok e.asWritten := by
  obtain ⟨bytes, fuel, hbytes, hdecode⟩ := decode_bytes hv
  refine ⟨bytes, hbytes, ?_⟩
  rw [hdecode, ReadablePayload.read_bytes hv hfloat hcanonical hdepth e.delimited_textBehind]
  dsimp only [Except.bind]
  exact decodeBehind_textBehind fuel htime

/-- A payload that cannot be read keeps the entry from being read. -/
theorem decode_of_payload_error {e : Entry α} {v : Json} {fault : ReadError}
    (hv : Payload.toJson? e.payload = some v)
    (hread : Payload.read (α := α) (v.bytes ++ comma :: encode e.textBehind) = .error fault) :
    ∃ bytes, e.encode? = some bytes ∧ decode (α := α) bytes = .error fault := by
  obtain ⟨bytes, fuel, hbytes, hdecode⟩ := decode_bytes hv
  refine ⟨bytes, hbytes, ?_⟩
  rw [hdecode, hread]
  rfl

/-! ## JSON values as payloads -/

/-- Whether an entry holds a JSON value as they are kept: without doubles and with the members
    of its objects in order. Its capture time may be any instant. -/
structure IsExact (e : Entry Json) : Prop where
  floatFree : e.payload.floatFree = true
  canonical : e.payload.canonical = true
  representable : e.capturedAt.Representable

/-- An entry is encoded. If its payload leaves room for the record around it, its bytes are read as
    an entry with the same bytes, which is the entry itself exactly if no leap second is under way
    in the midst of a minute at its capture time, and is otherwise captured so far into the next
    second. If the payload is nested deeper, the bytes are refused as malformed. -/
theorem decode_encode_to_depth {e : Entry Json} (h : e.IsExact) :
    ∃ bytes, e.encode? = some bytes ∧
      (e.payload.depth ≤ 126 →
        (decode bytes = .ok e ↔ e.capturedAt.LeapEndsMinute) ∧
        (¬ e.capturedAt.LeapEndsMinute → decode bytes = .ok { e with capturedAt :=
          ⟨e.capturedAt.second + 1, e.capturedAt.nano - 1000000000⟩ }) ∧
        (decode (α := Json) bytes).toOption.bind encode? = some bytes) ∧
      (127 ≤ e.payload.depth → decode (α := Json) bytes = .error .malformed) := by
  by_cases hdepth : e.payload.depth ≤ 126
  · obtain ⟨bytes, hbytes, hdecode⟩ := decode_encode (e := e) rfl h.floatFree h.canonical
      (Nat.lt_succ_of_le hdepth) h.representable
    refine ⟨bytes, hbytes, fun _ => ⟨?_, fun hmid => ?_, ?_⟩,
      fun hdeep => absurd hdepth (by omega)⟩
    · rw [hdecode, Except.ok.injEq, asWritten_eq_self_iff]
    · rw [hdecode, asWritten, Instant.written, if_neg hmid]
    · rw [hdecode]
      exact (encode?_asWritten h.representable).trans hbytes
  · have hread : Payload.read (α := Json) (e.payload.bytes ++ comma :: encode e.textBehind) =
        .error .malformed :=
      readValue_tooDeep _ h.floatFree h.canonical (Nat.lt_of_not_le hdepth)
    obtain ⟨bytes, hbytes, hdecode⟩ := decode_of_payload_error (e := e) rfl hread
    exact ⟨bytes, hbytes, fun hshallow => absurd hshallow hdepth, fun _ => hdecode⟩

/-- So many arrays inside each other, around an object. -/
def tower : Nat → Json
  | 0 => .object [("", .null), ("\"", .int ⟨-9223372036854775808, by decide, by decide⟩)]
  | n + 1 => .array [tower n, .string "\n"]

/-- A payload at the limit, captured in a leap second before the year zero. -/
def atLimit : Entry Json := ⟨"n:A", tower 125, ⟨-100000000021, 1500000001⟩⟩

/-- A payload beyond the limit, captured after the year 9999. -/
def beyondLimit : Entry Json := ⟨"n:A", tower 126, ⟨300000000000, 120000000⟩⟩

theorem decode_encode_to_depth_tower :
    (atLimit.IsExact ∧ ∃ bytes, atLimit.encode? = some bytes ∧ decode bytes = .ok atLimit) ∧
      beyondLimit.IsExact ∧ ∃ bytes, beyondLimit.encode? = some bytes ∧
        decode (α := Json) bytes = .error .malformed := by
  have hat : atLimit.IsExact := ⟨by decide +kernel, by decide +kernel, by decide⟩
  have hbeyond : beyondLimit.IsExact := ⟨by decide +kernel, by decide +kernel, by decide⟩
  obtain ⟨bytes, hbytes, hdecode, -⟩ := decode_encode_to_depth hat
  obtain ⟨bytes', hbytes', -, hdecode'⟩ := decode_encode_to_depth hbeyond
  exact ⟨⟨hat, bytes, hbytes, (hdecode (by decide +kernel)).1.mpr (by decide)⟩,
    hbeyond, bytes', hbytes', hdecode' (by decide +kernel)⟩

/-- An entry captured in a leap second behind the thirtieth second of a minute. -/
def midMinute : Entry Json := ⟨"n:A", .string "v", ⟨30, 1500000000⟩⟩

/-- A small payload without doubles is not enough: this entry has the bytes of the one that is
    captured as far into the next second, and is read back as that one. -/
theorem not_decode_encode_midMinute :
    midMinute.IsExact ∧ midMinute.payload.depth ≤ 126 ∧
      ∃ bytes, midMinute.encode? = some bytes ∧
        decode bytes = .ok { midMinute with capturedAt := ⟨31, 500000000⟩ } ∧
        decode bytes ≠ .ok midMinute := by
  have hexact : midMinute.IsExact := ⟨by decide +kernel, by decide +kernel, by decide⟩
  have hdepth : midMinute.payload.depth ≤ 126 := by decide +kernel
  obtain ⟨bytes, hbytes, hdecode⟩ := decode_encode (e := midMinute) rfl hexact.floatFree
    hexact.canonical (Nat.lt_succ_of_le hdepth) hexact.representable
  have htold : midMinute.capturedAt.written = ⟨31, 500000000⟩ := by decide
  rw [asWritten, htold] at hdecode
  refine ⟨hexact, hdepth, bytes, hbytes, hdecode, fun hsame => ?_⟩
  have htime := congrArg capturedAt (Except.ok.inj (hdecode.symm.trans hsame))
  exact absurd htime (by decide)

end Entry

end MarketCache
