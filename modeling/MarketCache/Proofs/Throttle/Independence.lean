import MarketCache.Service.Requests
import MarketCache.Throttle

/-!
# Notifications that share a key

The gate goes by keys: a call for one key leaves alone what the gate remembers and answers of
every other. The key of a notification is its event and its recipient with a colon between
them, and both of them may contain colons themselves. So two notifications get in each
other's way exactly when a part of the text stands at the end of one's event and at the
beginning of the other's recipient.

Main definitions:
* `ThrottleGuard.Call`, `ThrottleGuard.act`: what can be asked of the gate.
* `ThrottleRequest.Overlaps`, `ThrottleRequest.Independent`.

Results:
* `ThrottleGuard.record?_act_of_ne`: a call touches its own record only.
* `throttleKey_eq_iff`: which notifications have the same key.
* `ThrottleRequest.independent_iff`: which notifications leave each other alone.
-/

namespace MarketCache

/-! ## Calls of the gate -/

namespace ThrottleGuard

/-- What can be asked of the gate, or told to it. -/
inductive Call where
  | tryFire (key : String) (windowSecs : UInt64) (now : Instant)
  | markFired (key : String) (now : Instant)
  | clear (key : String)
deriving DecidableEq, Repr

/-- The key that a call is about. -/
def Call.key : Call → String
  | .tryFire key _ _ => key
  | .markFired key _ => key
  | .clear key => key

/-- What a call comes to, and the gate after it. A gate that is told so has opened, and one that
    forgets a key tells whether it had a record. -/
def act (g : ThrottleGuard) : Call → Bool × ThrottleGuard
  | .tryFire key windowSecs now => g.tryFire key windowSecs now
  | .markFired key now => (true, g.markFired key now)
  | .clear key => (g.contains key, g.clear key)

/-- Whether two gates remember the same of a key and answer the same. -/
structure AgreeOn (g g' : ThrottleGuard) (key : String) : Prop where
  record : g'.record? key = g.record? key
  shouldFire : ∀ windowSecs now, g'.shouldFire key windowSecs now = g.shouldFire key windowSecs now
  tryFire : ∀ windowSecs now,
    (g'.tryFire key windowSecs now).1 = (g.tryFire key windowSecs now).1

variable {g g' : ThrottleGuard} {key : String}

/-- The answer is whether the gate should open. -/
theorem tryFire_fst (g : ThrottleGuard) (key : String) (windowSecs : UInt64) (now : Instant) :
    (g.tryFire key windowSecs now).1 = g.shouldFire key windowSecs now := by
  unfold tryFire
  split
  · next h => exact h.symm
  · next h => exact (Bool.not_eq_true _ ▸ h).symm

/-- What the gate answers of a key hangs on the record of that key. -/
theorem agreeOn_of_record (h : g'.record? key = g.record? key) : g.AgreeOn g' key where
  record := h
  shouldFire windowSecs now := by
    unfold shouldFire
    rw [h]
  tryFire windowSecs now := by
    rw [tryFire_fst, tryFire_fst, shouldFire, shouldFire, h]

/-- A call touches the record of its own key only. -/
theorem record?_act_of_ne {c : Call} (h : c.key ≠ key) :
    (g.act c).2.record? key = g.record? key := by
  cases c with
  | tryFire k windowSecs now =>
    show (g.tryFire k windowSecs now).2.record? key = g.record? key
    unfold tryFire
    split
    · exact (record?_markFired g k key now).trans (if_neg h)
    · rfl
  | markFired k now => exact (record?_markFired g k key now).trans (if_neg h)
  | clear k => exact (record?_clear g k key).trans (if_neg h)

end ThrottleGuard

/-! ## Keys of notifications -/

/-- Whether the event of the second notification is that of the first with a part of the first
    one's recipient behind it, and its recipient the rest. -/
def ThrottleRequest.Overlaps (r r' : ThrottleRequest) : Prop :=
  ∃ part, r'.event = r.event ++ ":" ++ part ∧ r.recipient = part ++ ":" ++ r'.recipient

/-- Whether no call for the first notification changes what the gate remembers and answers of the
    second one. -/
def ThrottleRequest.Independent (r r' : ThrottleRequest) : Prop :=
  ∀ (g : ThrottleGuard) (c : ThrottleGuard.Call), c.key = throttleKey r.event r.recipient →
    g.AgreeOn (g.act c).2 (throttleKey r'.event r'.recipient)

theorem toList_throttleKey (event recipient : String) :
    (throttleKey event recipient).toList = event.toList ++ ':' :: recipient.toList := by
  simp [throttleKey]

/-- If what follows the first text begins with a colon, and the two texts with what follows are
    equal, the second text is the first one or goes on behind a colon. -/
theorem overlaps_or_eq_of_append {r r' : ThrottleRequest} {rest : List Char}
    (hevent : r'.event.toList = r.event.toList ++ rest)
    (hrest : ':' :: r.recipient.toList = rest ++ ':' :: r'.recipient.toList) :
    r = r' ∨ r.Overlaps r' := by
  cases rest with
  | nil =>
    have hevents : r.event = r'.event := String.ext (by rw [hevent, List.append_nil])
    have hrecipients : r.recipient = r'.recipient := String.ext (List.cons.inj hrest).2
    left
    cases r
    cases r'
    cases hevents
    cases hrecipients
    rfl
  | cons c part =>
    obtain ⟨rfl, hrecipient⟩ := List.cons.inj hrest
    refine Or.inr ⟨String.ofList part, String.ext ?_, String.ext ?_⟩
    · simp [hevent]
    · simp [hrecipient]

/-- Two notifications have the same key iff they are the same, or one overlaps the other. -/
theorem throttleKey_eq_iff {r r' : ThrottleRequest} :
    throttleKey r.event r.recipient = throttleKey r'.event r'.recipient ↔
      r = r' ∨ r.Overlaps r' ∨ r'.Overlaps r := by
  constructor
  · intro h
    have hlist := congrArg String.toList h
    rw [toList_throttleKey, toList_throttleKey] at hlist
    -- one of the two events is the other one with something behind it
    rcases List.append_eq_append_iff.mp hlist with ⟨rest, hevent, hrest⟩ | ⟨rest, hevent, hrest⟩
    · rcases overlaps_or_eq_of_append hevent hrest with rfl | hoverlaps
      · exact Or.inl rfl
      · exact Or.inr (Or.inl hoverlaps)
    · rcases overlaps_or_eq_of_append hevent hrest with rfl | hoverlaps
      · exact Or.inl rfl
      · exact Or.inr (Or.inr hoverlaps)
  · rintro (rfl | ⟨part, hevent, hrecipient⟩ | ⟨part, hevent, hrecipient⟩)
    · rfl
    · simp [throttleKey, hevent, hrecipient, String.append_assoc]
    · simp [throttleKey, hevent, hrecipient, String.append_assoc]

namespace ThrottleRequest

variable {r r' : ThrottleRequest}

theorem independent_of_ne
    (h : throttleKey r.event r.recipient ≠ throttleKey r'.event r'.recipient) :
    r.Independent r' := fun _ _ hkey =>
  ThrottleGuard.agreeOn_of_record (ThrottleGuard.record?_act_of_ne (hkey ▸ h))

/-- A gate that is told about a key has a record of it. -/
theorem not_independent_of_eq
    (h : throttleKey r.event r.recipient = throttleKey r'.event r'.recipient) :
    ¬ r.Independent r' := by
  intro hindependent
  have hrecord := (hindependent .empty (.markFired _ default) rfl).record
  have hmarked := (ThrottleGuard.record?_markFired .empty (throttleKey r.event r.recipient)
    (throttleKey r'.event r'.recipient) default).trans (if_pos h)
  rw [ThrottleGuard.record?_empty] at hrecord
  cases hmarked.symm.trans hrecord

/-- Calls for one notification leave the gate as it was for another one exactly when the two are
    different and neither overlaps the other. -/
theorem independent_iff (r r' : ThrottleRequest) :
    r.Independent r' ↔ r ≠ r' ∧ ¬ r.Overlaps r' ∧ ¬ r'.Overlaps r := by
  constructor
  · intro hindependent
    have hkeys := fun h => not_independent_of_eq (throttleKey_eq_iff.mpr h) hindependent
    exact ⟨fun h => hkeys (Or.inl h), fun h => hkeys (Or.inr (Or.inl h)),
      fun h => hkeys (Or.inr (Or.inr h))⟩
  · rintro ⟨hne, hoverlaps, hoverlaps'⟩
    refine independent_of_ne fun heq => ?_
    rcases throttleKey_eq_iff.mp heq with h | h | h
    · exact hne h
    · exact hoverlaps h
    · exact hoverlaps' h

/-- Two notifications that may both be asked for have the same key, and one closes the gate for
    the other. -/
theorem not_independent_colon :
    fault? ⟨"price:alert", "bob"⟩ = none ∧ fault? ⟨"price", "alert:bob"⟩ = none ∧
      (⟨"price:alert", "bob"⟩ : ThrottleRequest) ≠ ⟨"price", "alert:bob"⟩ ∧
      ¬ Independent ⟨"price:alert", "bob"⟩ ⟨"price", "alert:bob"⟩ :=
  ⟨by decide, by decide, by decide, not_independent_of_eq (by decide)⟩

end ThrottleRequest

end MarketCache
