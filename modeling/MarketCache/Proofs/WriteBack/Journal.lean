import Mathlib.Data.List.Induction
import Mathlib.Data.List.Nodup
import MarketCache.WriteBack.Basic

/-!
# Where recorded writes are

A journal says what was recorded and when all that waited was taken, the oldest first. It
decides where each recorded write is: a later write of its key that comes before the next take
puts it aside; otherwise the next take puts it into its batch; until then it waits.

Main definitions:
* `Journal.places`: the recorded writes in order, each with its place.
* `Journal.writesAt`: the writes at a place.
* `Journal.latest`: the last write of a key since the last take.
* `Journal.takenCount`: the number of writes that were taken.

Results:
* `placeAfter_eq_superseded_iff`: which writes are superseded.
* `mem_writesAt_waiting_iff`: what waits under a key is the last write recorded for it.
* `writesAt_taken_append_taken`: a take turns all that waits into its batch, and leaves
  earlier batches as they were.
* `length_writes`: what was recorded is superseded, or waits, or was taken.
-/

namespace MarketCache

variable {α : Type}

/-- What bears on the places of recorded writes. -/
inductive Mark (α : Type) where
  | recorded (w : PendingWrite α)
  /-- All that waited was taken. -/
  | taken
deriving Repr

/-- Where a recorded write is. -/
inductive Place where
  /-- A later write of its key came before it was taken. -/
  | superseded
  | waiting
  /-- In the batch of a number, the first batch being number zero. -/
  | taken (batch : Nat)
deriving DecidableEq, Repr

/-- Whether a write is in a batch. -/
def Place.isTaken : Place → Bool
  | .taken _ => true
  | _ => false

/-- The write that was recorded. -/
def Mark.write? : Mark α → Option (PendingWrite α)
  | .recorded w => some w
  | .taken => none

namespace Journal

/-- The place of a write of a key, given what came after it; `n` batches had been taken before. -/
def placeAfter (key : String) (n : Nat) : List (Mark α) → Place
  | [] => .waiting
  | .recorded w :: rest => if w.key = key then .superseded else placeAfter key n rest
  | .taken :: _ => .taken n

/-- The recorded writes in order, each with its place; `n` batches had been taken before. -/
def placesFrom (n : Nat) : List (Mark α) → List (PendingWrite α × Place)
  | [] => []
  | .recorded w :: rest => (w, placeAfter w.key n rest) :: placesFrom n rest
  | .taken :: rest => placesFrom (n + 1) rest

/-- The recorded writes in order, each with its place. -/
def places (j : List (Mark α)) : List (PendingWrite α × Place) := placesFrom 0 j

/-- The number of batches that were taken. -/
def takes : List (Mark α) → Nat
  | [] => 0
  | .recorded _ :: rest => takes rest
  | .taken :: rest => takes rest + 1

/-- The writes at a place, in the order in which they were recorded. -/
def writesAt (p : Place) (j : List (Mark α)) : List (PendingWrite α) :=
  (places j).filterMap fun vp => if vp.2 = p then some vp.1 else none

/-- The number of writes that were taken, in whichever batch they are. -/
def takenCount (j : List (Mark α)) : Nat := (places j).countP (·.2.isTaken)

/-- The last write of a key since the last take. -/
def latest (key : String) (j : List (Mark α)) : Option (PendingWrite α) :=
  j.foldl
    (fun last mark =>
      match mark with
      | .recorded w => if w.key = key then some w else last
      | .taken => none)
    none

@[simp] theorem takes_append (i j : List (Mark α)) : takes (i ++ j) = takes i + takes j := by
  induction i with
  | nil => simp [takes]
  | cons mark i ih =>
    cases mark with
    | recorded w => exact ih
    | taken => rw [List.cons_append, takes, takes, ih]; omega

@[simp] theorem latest_append_recorded (key : String) (j : List (Mark α)) (w : PendingWrite α) :
    latest key (j ++ [.recorded w]) = if w.key = key then some w else latest key j := by
  unfold latest
  rw [List.foldl_append]
  rfl

@[simp] theorem latest_append_taken (key : String) (j : List (Mark α)) :
    latest key (j ++ [.taken]) = none := by
  unfold latest
  rw [List.foldl_append]
  rfl

/-! ## The place of each write -/

/-- Each recorded write has one place. -/
theorem map_fst_placesFrom (n : Nat) (j : List (Mark α)) :
    (placesFrom n j).map (·.1) = j.filterMap Mark.write? := by
  induction j generalizing n with
  | nil => rfl
  | cons mark j ih =>
    cases mark with
    | recorded w => exact congrArg (w :: ·) (ih n)
    | taken => exact ih (n + 1)

/-- What decides on the place of a write is its key and what came after it. -/
theorem getElem?_placesFrom (n : Nat) (before : List (Mark α)) (w : PendingWrite α)
    (after : List (Mark α)) :
    (placesFrom n (before ++ .recorded w :: after))[(before.filterMap Mark.write?).length]? =
      some (w, placeAfter w.key (n + takes before) after) := by
  induction before generalizing n with
  | nil => rfl
  | cons mark before ih =>
    cases mark with
    | recorded v => exact ih n
    | taken =>
      have hn : n + (takes before + 1) = n + 1 + takes before := by omega
      unfold takes
      rw [hn]
      exact ih (n + 1)

/-- A write is superseded if another one of its key follows it with no take in between. -/
theorem placeAfter_eq_superseded_iff {key : String} {n : Nat} {j : List (Mark α)} :
    placeAfter key n j = .superseded ↔
      ∃ before v after, j = before ++ .recorded v :: after ∧ v.key = key ∧ takes before = 0 := by
  induction j with
  | nil => simp [placeAfter]
  | cons mark j ih =>
    cases mark with
    | recorded v =>
      unfold placeAfter
      by_cases hv : v.key = key
      · rw [if_pos hv]
        exact iff_of_true rfl ⟨[], v, j, rfl, hv, rfl⟩
      · rw [if_neg hv, ih]
        constructor
        · rintro ⟨before, u, after, rfl, hu, hb⟩
          exact ⟨.recorded v :: before, u, after, rfl, hu, hb⟩
        · rintro ⟨before, u, after, heq, hu, hb⟩
          cases before with
          | nil =>
            cases heq
            exact absurd hu hv
          | cons mark before =>
            cases heq
            exact ⟨before, u, after, rfl, hu, hb⟩
    | taken =>
      refine iff_of_false (fun h => by cases h) ?_
      rintro ⟨before, u, after, heq, -, hb⟩
      cases before with
      | nil => cases heq
      | cons mark before =>
        cases heq
        cases hb

/-! ## Places as the journal goes on -/

theorem placeAfter_append_recorded (key : String) (n : Nat) (j : List (Mark α))
    (w : PendingWrite α) :
    placeAfter key n (j ++ [.recorded w]) =
      if placeAfter key n j = .waiting ∧ w.key = key then .superseded else placeAfter key n j := by
  induction j with
  | nil => simp [placeAfter]
  | cons mark j ih =>
    cases mark with
    | recorded v =>
      rw [List.cons_append, placeAfter, placeAfter]
      by_cases hv : v.key = key
      · simp [hv]
      · rw [if_neg hv, if_neg hv, ih]
    | taken => simp [placeAfter]

theorem placeAfter_append_taken (key : String) (n : Nat) (j : List (Mark α)) :
    placeAfter key n (j ++ [.taken]) =
      if placeAfter key n j = .waiting then .taken (n + takes j) else placeAfter key n j := by
  induction j with
  | nil => simp [placeAfter, takes]
  | cons mark j ih =>
    cases mark with
    | recorded v =>
      rw [List.cons_append, placeAfter, placeAfter, takes]
      by_cases hv : v.key = key
      · simp [hv]
      · rw [if_neg hv, if_neg hv, ih]
    | taken => simp [placeAfter]

/-- A new write puts aside what waits under its key. -/
theorem placesFrom_append_recorded (n : Nat) (j : List (Mark α)) (w : PendingWrite α) :
    placesFrom n (j ++ [.recorded w]) =
      (placesFrom n j).map (fun vp =>
        (vp.1, if vp.2 = .waiting ∧ w.key = vp.1.key then .superseded else vp.2)) ++
        [(w, .waiting)] := by
  induction j generalizing n with
  | nil => simp [placesFrom, placeAfter]
  | cons mark j ih =>
    cases mark with
    | recorded v =>
      rw [List.cons_append, placesFrom, placesFrom, ih, placeAfter_append_recorded,
        List.map_cons, List.cons_append]
    | taken => exact ih (n + 1)

/-- A take puts all that waits into one batch. -/
theorem placesFrom_append_taken (n : Nat) (j : List (Mark α)) :
    placesFrom n (j ++ [.taken]) =
      (placesFrom n j).map fun vp =>
        (vp.1, if vp.2 = .waiting then .taken (n + takes j) else vp.2) := by
  induction j generalizing n with
  | nil => rfl
  | cons mark j ih =>
    cases mark with
    | recorded v =>
      rw [List.cons_append, placesFrom, placesFrom, ih, placeAfter_append_taken, List.map_cons,
        takes]
    | taken =>
      rw [List.cons_append, placesFrom, placesFrom, ih, takes]
      have hn : n + 1 + takes j = n + (takes j + 1) := by omega
      rw [hn]

/-- The batches of a journal have the numbers below the number of takes. -/
theorem lt_takes_of_mem_placesFrom {n m : Nat} {j : List (Mark α)} {v : PendingWrite α}
    (h : (v, .taken m) ∈ placesFrom n j) : m < n + takes j := by
  induction j generalizing n with
  | nil => cases h
  | cons mark j ih =>
    cases mark with
    | taken =>
      have hlt := ih h
      unfold takes
      omega
    | recorded w =>
      rcases List.mem_cons.mp h with heq | hmem
      · -- the number is the one of the next take after the write
        have hplace : placeAfter w.key n j = .taken m := (Prod.mk.inj heq).2.symm
        clear h heq ih
        unfold takes
        induction j with
        | nil => cases hplace
        | cons mark j ih =>
          cases mark with
          | recorded u =>
            unfold placeAfter at hplace
            split at hplace
            · simp at hplace
            · exact ih hplace
          | taken =>
            cases hplace
            unfold takes
            omega
      · exact ih hmem

/-! ## The writes at each place -/

theorem writesAt_waiting_append_recorded (j : List (Mark α)) (w : PendingWrite α) :
    writesAt .waiting (j ++ [.recorded w]) =
      (writesAt .waiting j).filter (fun v => w.key ≠ v.key) ++ [w] := by
  rw [writesAt, places, placesFrom_append_recorded, List.filterMap_append, List.filterMap_map,
    writesAt, places, List.filter_filterMap]
  congr 1
  apply List.filterMap_congr
  rintro ⟨v, p⟩ -
  by_cases hp : p = .waiting <;> by_cases hw : w.key = v.key <;> simp [hp, hw, Option.filter_some]

theorem writesAt_taken_append_recorded (m : Nat) (j : List (Mark α)) (w : PendingWrite α) :
    writesAt (.taken m) (j ++ [.recorded w]) = writesAt (.taken m) j := by
  have hlast : ([(w, .waiting)] : List (PendingWrite α × Place)).filterMap
      (fun vp => if vp.2 = .taken m then some vp.1 else none) = [] := rfl
  rw [writesAt, places, placesFrom_append_recorded, List.filterMap_append, List.filterMap_map,
    hlast, List.append_nil, writesAt, places]
  apply List.filterMap_congr
  rintro ⟨v, p⟩ -
  by_cases hp : p = .waiting <;> by_cases hw : w.key = v.key <;> simp [hp, hw]

@[simp] theorem writesAt_waiting_append_taken (j : List (Mark α)) :
    writesAt .waiting (j ++ [.taken]) = [] := by
  unfold writesAt places
  rw [placesFrom_append_taken, List.filterMap_map, List.filterMap_eq_nil_iff]
  rintro ⟨v, p⟩ -
  by_cases hp : p = .waiting <;> simp [hp]

/-- A take turns all that waits into its batch, and leaves earlier batches as they were. -/
theorem writesAt_taken_append_taken (m : Nat) (j : List (Mark α)) :
    writesAt (.taken m) (j ++ [.taken]) =
      if m = takes j then writesAt .waiting j else writesAt (.taken m) j := by
  unfold writesAt places
  rw [placesFrom_append_taken, List.filterMap_map, Nat.zero_add]
  split
  · next hm =>
    apply List.filterMap_congr
    rintro ⟨v, p⟩ hmem
    -- no batch had this number before
    have hp : p ≠ .taken m := by
      rintro rfl
      have hlt := lt_takes_of_mem_placesFrom hmem
      omega
    by_cases hw : p = .waiting
    · simp [hw, hm]
    · simpa [hw] using hp
  · next hm =>
    apply List.filterMap_congr
    rintro ⟨v, p⟩ -
    by_cases hw : p = .waiting <;> simp [hw, Ne.symm hm]

/-- At most one write of each key waits. -/
theorem nodup_keys_writesAt_waiting (j : List (Mark α)) :
    ((writesAt .waiting j).map (·.key)).Nodup := by
  induction j using List.reverseRecOn with
  | nil => exact List.nodup_nil
  | append_singleton j mark ih =>
    cases mark with
    | taken =>
      rw [writesAt_waiting_append_taken]
      exact List.nodup_nil
    | recorded w =>
      rw [writesAt_waiting_append_recorded, List.map_append, List.nodup_append]
      refine ⟨ih.sublist (List.filter_sublist.map _), List.nodup_singleton _, ?_⟩
      intro key hkey key' hkey'
      obtain ⟨v, hv, rfl⟩ := List.mem_map.mp hkey
      have hne := (List.mem_filter.mp hv).2
      rw [List.map_singleton, List.mem_singleton] at hkey'
      rw [hkey']
      simpa using Ne.symm (of_decide_eq_true hne)

/-- What waits under a key is the last write recorded for it since the last take. -/
theorem mem_writesAt_waiting_iff {j : List (Mark α)} {v : PendingWrite α} :
    v ∈ writesAt .waiting j ↔ latest v.key j = some v := by
  induction j using List.reverseRecOn with
  | nil => simp [writesAt, places, placesFrom, latest]
  | append_singleton j mark ih =>
    cases mark with
    | taken => simp
    | recorded w =>
      rw [writesAt_waiting_append_recorded, latest_append_recorded, List.mem_append,
        List.mem_filter, List.mem_singleton]
      by_cases hw : w.key = v.key
      · rw [if_pos hw, Option.some.injEq]
        simp [hw, eq_comm]
      · rw [if_neg hw, ih]
        have hne : v ≠ w := fun h => hw (h ▸ rfl)
        simp [hw, hne]

/-! ## How many writes there are at each place -/

theorem length_writesAt (p : Place) (j : List (Mark α)) :
    (writesAt p j).length = (places j).countP (·.2 = p) := by
  unfold writesAt
  rw [List.countP_eq_length_filter, ← List.filterMap_eq_filter, List.length_filterMap_eq_countP,
    List.length_filterMap_eq_countP]
  refine List.countP_congr fun vp _ => ?_
  by_cases hp : vp.2 = p <;> simp [hp, Option.guard]

theorem takenCount_append_recorded (j : List (Mark α)) (w : PendingWrite α) :
    takenCount (j ++ [.recorded w]) = takenCount j := by
  unfold takenCount places
  rw [placesFrom_append_recorded, List.countP_append, List.countP_map, List.countP_singleton]
  refine List.countP_congr fun vp _ => ?_
  by_cases hp : vp.2 = .waiting <;> by_cases hw : w.key = vp.1.key <;> simp [hp, hw, Place.isTaken]

/-- A take adds to what was taken as much as waited. -/
theorem takenCount_append_taken (j : List (Mark α)) :
    takenCount (j ++ [.taken]) = takenCount j + (writesAt .waiting j).length := by
  rw [length_writesAt]
  unfold takenCount places
  rw [placesFrom_append_taken, List.countP_map]
  induction placesFrom 0 j with
  | nil => rfl
  | cons vp l ih =>
    simp only [List.countP_cons, Function.comp_apply, ih]
    rcases vp with ⟨v, _ | _ | m⟩ <;> simp [Place.isTaken] <;> omega

/-- What was recorded is superseded, or waits, or was taken. -/
theorem length_writes (j : List (Mark α)) :
    (j.filterMap Mark.write?).length =
      (writesAt .superseded j).length + (writesAt .waiting j).length + takenCount j := by
  rw [← map_fst_placesFrom 0 j, List.length_map, length_writesAt, length_writesAt]
  unfold takenCount places
  induction placesFrom 0 j with
  | nil => rfl
  | cons vp l ih =>
    simp only [List.length_cons, List.countP_cons, ih]
    rcases vp with ⟨v, _ | _ | m⟩ <;> simp [Place.isTaken] <;> omega

end Journal

end MarketCache
