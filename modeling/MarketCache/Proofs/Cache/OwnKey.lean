import Mathlib.Data.List.Basic
import MarketCache.Cache.Operation
import MarketCache.Store.Memory

/-!
# What a lookup may touch

A lookup that nothing interrupts takes one of four courses: a hot entry answers, a durable one
does and becomes hot, the provider does and its answer is kept, or the provider fails. Then a
pass that is due takes all that waits. On three of the courses nothing but the key of the
query is touched. A durable entry, though, is taken at its own word: if it is a record about
another key, the lookup answers with that key, and it is the hot entry of that key that
changes.

Main definitions:
* `TieredCache.Course`: the four courses.
* `TieredCache.promoted?`: the durable entry that becomes hot.
* `TieredCache.KeepsTo`: the answer and the hot tier are about one key.

Results:
* `lookup_course`: a lookup takes one of the courses, and a due pass follows.
* `Course.keepsTo_iff`: which courses keep to the key of the query.
* `lookup_keepsTo_iff`: which lookups do, and what becomes of the entries that wait.
-/

namespace MarketCache

variable {α ε σ φ : Type}

/-- Whether every entry sits under its own key. -/
def HotTier.Keyed (h : HotTier α) : Prop := ∀ key e, h.get? key = some e → e.key = key

namespace HotTier

theorem keyed_empty : (empty : HotTier α).Keyed := fun key e he => by
  rw [get?_empty] at he
  cases he

theorem get?_set_of_ne (h : HotTier α) {e : Entry α} {key : String} (hne : key ≠ e.key) :
    (h.set e).get? key = h.get? key := (get?_set h e key).trans (if_neg hne.symm)

/-- An entry is set under its own key. -/
theorem Keyed.set {h : HotTier α} (hkeyed : h.Keyed) (e : Entry α) : (h.set e).Keyed := by
  intro key e' he
  rw [get?_set] at he
  split at he
  · next hkey =>
    cases he
    exact hkey
  · exact hkeyed key e' he

end HotTier

namespace TieredCache

/-! ## Courses -/

/-- The durable entry that a lookup of a key as of `now` makes hot, given what it reads: one that
    is fresh, if the hot entry of the key is not. -/
def promoted? (c : TieredCache α) (key : String) (now : Instant) :
    DurableRead α → Option (Entry α)
  | .found e =>
    if !(c.hot.get? key).any (c.policy.isFresh · now) && c.policy.isFresh e now then some e
    else none
  | _ => none

/-- The counters after neither tier had a fresh entry. -/
def missed (c : TieredCache α) : DurableRead α → CacheStats
  | .failed => c.counters.recordDurableError.recordMiss
  | _ => c.counters.recordMiss

/-- The courses of a lookup of a key as of `now` that reads `r` if it has to: its answer and the
    cache before a pass that is due. -/
inductive Course (c : TieredCache α) (key : String) (now : Instant) (r : DurableRead α) :
    Except ε (Lookup α) → TieredCache α → Prop where
  | hot {e} (he : c.hot.get? key = some e) (hfresh : c.policy.isFresh e now = true) :
      Course c key now r (.ok (.cached e)) { c with counters := c.counters.recordHotHit }
  | durable {e} (he : c.promoted? key now r = some e) :
      Course c key now r (.ok (.cached e))
        { c with hot := c.hot.set e, counters := c.counters.recordDurableHit }
  | fetched {payload} (hnone : c.promoted? key now r = none) :
      Course c key now r (.ok (.fetched ⟨key, payload, now⟩))
        ({ c with counters := c.missed r }.storeFetched ⟨key, payload, now⟩)
  | refused {err} (hnone : c.promoted? key now r = none) :
      Course c key now r (.error err) { c with counters := c.missed r }

section Courses

variable {c : TieredCache α} {key : String} {now : Instant} {r : DurableRead α}

theorem checkHot_eq (c : TieredCache α) (key : String) (now : Instant) :
    (∃ e, c.hot.get? key = some e ∧ c.policy.isFresh e now = true ∧
      c.checkHot key now = (some e, { c with counters := c.counters.recordHotHit })) ∨
    (c.hot.get? key).any (c.policy.isFresh · now) = false ∧ c.checkHot key now = (none, c) := by
  unfold checkHot
  rcases he : c.hot.get? key with _ | e
  · exact Or.inr ⟨rfl, rfl⟩
  · by_cases hfresh : c.policy.isFresh e now = true
    · exact Or.inl ⟨e, rfl, hfresh, if_pos hfresh⟩
    · exact Or.inr ⟨Bool.not_eq_true _ ▸ hfresh, if_neg hfresh⟩

/-- Past the hot tier, what was read is promoted, or it is a miss. -/
theorem checkDurable_eq (hcold : (c.hot.get? key).any (c.policy.isFresh · now) = false)
    (r : DurableRead α) :
    (∃ e, c.promoted? key now r = some e ∧ c.checkDurable r now =
      (some e, { c with hot := c.hot.set e, counters := c.counters.recordDurableHit })) ∨
    c.promoted? key now r = none ∧
      c.checkDurable r now = (none, { c with counters := c.missed r }) := by
  cases r with
  | absent => exact Or.inr ⟨rfl, rfl⟩
  | failed => exact Or.inr ⟨rfl, rfl⟩
  | found e =>
    unfold promoted? checkDurable
    rw [hcold]
    by_cases hfresh : c.policy.isFresh e now = true
    · exact Or.inl ⟨e, by simp [hfresh], if_pos hfresh⟩
    · exact Or.inr ⟨by simp [hfresh], if_neg hfresh⟩

/-- What is read matters only past the hot tier. -/
theorem promoted?_of_hot {e : Entry α} (he : c.hot.get? key = some e)
    (hfresh : c.policy.isFresh e now = true) (r : DurableRead α) :
    c.promoted? key now r = none := by
  cases r with
  | found e' => simp [promoted?, he, hfresh]
  | absent => rfl
  | failed => rfl

variable [Payload α] [DurableStore σ]

/-- A lookup takes one of the courses, and a pass follows if one is due. -/
theorem lookup_course (c : TieredCache α) (q : LogicalQuery) (now clock : Instant)
    (fetch : φ → Except ε α × φ) (provider : φ) (store : σ) :
    ∃ (c₁ : TieredCache α) (store₁ : σ),
      c.Course (c.keyFor q) now (.ofBytes (DurableStore.get store clock (c.keyFor q)).1)
        (c.lookup q now clock fetch provider store).1 c₁ ∧
      (c.lookup q now clock fetch provider store).2.2.1 =
        (c₁.afterRequest now clock store₁).2.1 := by
  unfold lookup consult consultKey
  rcases checkHot_eq c (c.keyFor q) now with ⟨e, he, hfresh, hhot⟩ | ⟨hcold, hhot⟩
  · rw [hhot]
    exact ⟨_, store, Course.hot he hfresh, rfl⟩
  rw [hhot]
  rcases hget : DurableStore.get store clock (c.keyFor q) with ⟨bytes, store'⟩
  rcases checkDurable_eq hcold (.ofBytes bytes) with ⟨e, he, hjudge⟩ | ⟨hnone, hjudge⟩
  · simp only [hjudge]
    exact ⟨_, store', Course.durable he, rfl⟩
  · simp only [hjudge]
    rcases fetch provider with ⟨err | payload, provider'⟩
    · exact ⟨_, store', Course.refused hnone, rfl⟩
    · exact ⟨_, store', Course.fetched hnone, rfl⟩

/-- A pass that is due leaves the hot tier alone. -/
theorem hot_afterRequest (c : TieredCache α) (now clock : Instant) (store : σ) :
    (c.afterRequest now clock store).2.1.hot = c.hot := by
  unfold afterRequest takeDue? WriteBack.takeDue?
  split
  · rfl
  · next heq =>
    split at heq
    · cases heq
      split <;> rfl
    · cases heq

theorem pendingFor?_persist (w : WriteBack α) (batch : List (PendingWrite α)) (now : Instant)
    (store : σ) (key : String) :
    (w.persist batch now store).2.1.pendingFor? key = w.pendingFor? key := by
  unfold WriteBack.persist
  rcases (Pass.ofBatch batch).run w.ttlSecs now store with ⟨_ | report, store'⟩
  · rfl
  · exact WriteBack.pendingFor?_settle w report key

/-- A pass that is due takes all that waits. -/
theorem pendingFor?_afterRequest (c : TieredCache α) (now clock : Instant) (store : σ)
    (key : String) : (c.afterRequest now clock store).2.1.writeBack.pendingFor? key =
      if c.writeBack.isDue now then none else c.writeBack.pendingFor? key := by
  unfold afterRequest takeDue? WriteBack.takeDue?
  by_cases hdue : c.writeBack.isDue now = true
  · rw [if_pos hdue, if_pos hdue]
    have htaken := WriteBack.pendingFor?_takeAll c.writeBack now key
    simp only [Option.map_some]
    split
    · exact htaken
    · exact (pendingFor?_persist _ _ _ _ _).trans htaken
  · rw [if_neg hdue, if_neg hdue]
    rfl

end Courses

/-! ## The key of the query -/

/-- Whether an answer is about a key, and the hot tier has changed at that key at most. -/
structure KeepsTo (c : TieredCache α) (key : String) (answer : Except ε (Lookup α))
    (c' : TieredCache α) : Prop where
  answer : ∀ l, answer = .ok l → l.key = key
  hot : ∀ k, k ≠ key → c'.hot.get? k = c.hot.get? k

section OwnKey

variable {c c₁ : TieredCache α} {key : String} {now : Instant} {r : DurableRead α}
  {answer : Except ε (Lookup α)}

/-- A course keeps to the key unless it promotes an entry of another one. -/
theorem Course.keepsTo_iff (h : c.Course key now r answer c₁) (hkeyed : c.hot.Keyed) :
    c.KeepsTo key answer c₁ ↔ ∀ e, c.promoted? key now r = some e → e.key = key := by
  cases h with
  | @hot e he hfresh =>
    refine iff_of_true ⟨?_, fun k hk => rfl⟩ fun e' he' => ?_
    · rintro _ ⟨⟩
      exact hkeyed key e he
    · rw [promoted?_of_hot he hfresh] at he'
      cases he'
  | @durable e he =>
    constructor
    · intro hkeeps e' he'
      rw [he] at he'
      cases he'
      exact hkeeps.answer _ rfl
    · intro hown
      have hkey := hown e he
      refine ⟨?_, fun k hk => c.hot.get?_set_of_ne (hkey ▸ hk)⟩
      rintro _ ⟨⟩
      exact hkey
  | fetched hnone =>
    refine iff_of_true ⟨?_, fun k hk => c.hot.get?_set_of_ne hk⟩ fun e he => ?_
    · rintro _ ⟨⟩
      rfl
    · rw [hnone] at he
      cases he
  | refused hnone =>
    refine iff_of_true ⟨fun l hl => (nomatch hl), fun k hk => rfl⟩ fun e he => ?_
    rw [hnone] at he
    cases he

/-- Hot entries sit under their own keys after each course, whatever was read. -/
theorem Course.keyed (h : c.Course key now r answer c₁) (hkeyed : c.hot.Keyed) :
    c₁.hot.Keyed := by
  cases h with
  | hot he hfresh => exact hkeyed
  | durable he => exact hkeyed.set _
  | fetched hnone => exact hkeyed.set _
  | refused hnone => exact hkeyed

/-- On each course what waits changes at the key of the query at most, and a pass is due if one
    was before. -/
theorem Course.waiting (h : c.Course key now r answer c₁) :
    (∀ t, c₁.writeBack.isDue t = c.writeBack.isDue t) ∧
      ∀ k, k ≠ key → c₁.writeBack.pendingFor? k = c.writeBack.pendingFor? k := by
  cases h with
  | hot he hfresh => exact ⟨fun t => rfl, fun k hk => rfl⟩
  | durable he => exact ⟨fun t => rfl, fun k hk => rfl⟩
  | refused hnone => exact ⟨fun t => rfl, fun k hk => rfl⟩
  | fetched hnone =>
    exact ⟨fun t => rfl, fun k hk =>
      (WriteBack.pendingFor?_record c.writeBack _ _ k).trans (if_neg hk.symm)⟩

variable [Payload α] [DurableStore σ]

/-- Over any store, a lookup answers for the key of its query and touches no other hot entry
    exactly when the durable entry that it promotes, if it promotes one, is about that key.
    However that may be, hot entries sit under their own keys as before, and of the entries
    that wait none but that of the key changes, unless a pass that is due takes them all. -/
theorem lookup_keepsTo_iff {q : LogicalQuery} {clock : Instant} {fetch : φ → Except ε α × φ}
    {provider provider' : φ} {store store' : σ} {detached : Detached α} {c' : TieredCache α}
    (hkeyed : c.hot.Keyed)
    (h : c.lookup q now clock fetch provider store = (answer, detached, c', store', provider')) :
    (c.KeepsTo (c.keyFor q) answer c' ↔
      ∀ e, c.promoted? (c.keyFor q) now
        (.ofBytes (DurableStore.get store clock (c.keyFor q)).1) = some e → e.key = c.keyFor q) ∧
    c'.hot.Keyed ∧
    (c.writeBack.isDue now = true → ∀ k, c'.writeBack.pendingFor? k = none) ∧
    (c.writeBack.isDue now = false →
      ∀ k, k ≠ c.keyFor q → c'.writeBack.pendingFor? k = c.writeBack.pendingFor? k) := by
  obtain ⟨c₁, store₁, hcourse, hafter⟩ := lookup_course c q now clock fetch provider store
  rw [h] at hcourse
  replace hafter : c' = (c₁.afterRequest now clock store₁).2.1 := by rw [← hafter, h]
  obtain ⟨hdue, hwaits⟩ := hcourse.waiting
  have hhot : c'.hot = c₁.hot := by
    rw [hafter]
    exact hot_afterRequest c₁ now clock store₁
  have hpending : ∀ k, c'.writeBack.pendingFor? k = if c₁.writeBack.isDue now then none
      else c₁.writeBack.pendingFor? k := fun k => by
    rw [hafter]
    exact pendingFor?_afterRequest c₁ now clock store₁ k
  refine ⟨?_, ?_, fun hnow k => ?_, fun hnow k hk => ?_⟩
  · rw [← hcourse.keepsTo_iff hkeyed]
    exact ⟨fun h => ⟨h.answer, fun k hk => hhot ▸ h.hot k hk⟩,
      fun h => ⟨h.answer, fun k hk => hhot ▸ h.hot k hk⟩⟩
  · rw [hhot]
    exact hcourse.keyed hkeyed
  · rw [hpending, hdue, if_pos hnow]
  · rw [hpending, hdue, hnow]
    exact hwaits k hk

end OwnKey

/-! ### Two records -/

/-- A cache with a hot entry of `B`. -/
def warm : TieredCache String :=
  { start "n" ⟨300, 600, 86400, false⟩ ⟨1000, 0⟩ with
    hot := HotTier.empty.set ⟨"n:B", "b", ⟨1000, 0⟩⟩ }

/-- A store in which the key of `A` has a record about some key. -/
def filed (key : String) : MemoryStore :=
  MemoryStore.empty.put ⟨1000, 0⟩ "n:A" ((Entry.encode? ⟨key, "a", ⟨1000, 0⟩⟩).getD []) 86400

/-- A lookup of `A` over a store, with a provider that has another answer. -/
def askedFor (store : MemoryStore) :
    Except Unit (Lookup String) × Detached String × TieredCache String × MemoryStore × Unit :=
  warm.lookup (.ofSymbols ["a"]) ⟨1001, 0⟩ ⟨1001, 0⟩ (fun _ => (.ok "x", ())) () store

theorem keyed_warm : warm.hot.Keyed := HotTier.keyed_empty.set _

theorem promoted?_own : warm.promoted? (warm.keyFor (.ofSymbols ["a"])) ⟨1001, 0⟩
    (.ofBytes (DurableStore.get (filed "n:A") ⟨1001, 0⟩ (warm.keyFor (.ofSymbols ["a"]))).1) =
      some ⟨"n:A", "a", ⟨1000, 0⟩⟩ := by
  decide +kernel

theorem lookup_keepsTo_iff_own : warm.hot.Keyed ∧
    warm.KeepsTo "n:A" (askedFor (filed "n:A")).1 (askedFor (filed "n:A")).2.2.1 := by
  rcases h : askedFor (filed "n:A") with ⟨answer, detached, c', store', provider'⟩
  refine ⟨keyed_warm, (lookup_keepsTo_iff keyed_warm h).1.mpr fun e he => ?_⟩
  rw [promoted?_own] at he
  cases he
  decide +kernel

/-- A record about `B` under the key of `A`: the lookup of `A` answers with the key of `B`, and it
    is the hot entry of `B` that changes. -/
theorem not_keepsTo_foreign : warm.hot.Keyed ∧
    (askedFor (filed "n:B")).1 = .ok ⟨"n:B", "a", true, ⟨1000, 0⟩⟩ ∧
    warm.hot.get? "n:B" = some ⟨"n:B", "b", ⟨1000, 0⟩⟩ ∧
    (askedFor (filed "n:B")).2.2.1.hot.get? "n:B" = some ⟨"n:B", "a", ⟨1000, 0⟩⟩ ∧
    ¬ warm.KeepsTo "n:A" (askedFor (filed "n:B")).1 (askedFor (filed "n:B")).2.2.1 := by
  have hanswer : (askedFor (filed "n:B")).1 = .ok ⟨"n:B", "a", true, ⟨1000, 0⟩⟩ := by
    decide +kernel
  refine ⟨keyed_warm, hanswer, by decide +kernel, by decide +kernel, fun h => ?_⟩
  exact absurd (h.answer _ hanswer) (by decide)

end TieredCache

end MarketCache
