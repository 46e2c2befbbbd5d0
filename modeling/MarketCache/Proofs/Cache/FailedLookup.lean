import MarketCache.Proofs.Cache.OwnKey
import MarketCache.Proofs.WriteBack.Batch
import MarketCache.Store.Faulty

/-!
# Lookups that fail

A lookup fails with what its provider fails with, and with nothing else: a store that refuses
a read, or has bytes that are no entry, only makes it ask the provider. A lookup that fails
leaves the hot tier as it was and counts one miss, and one error if the read failed. A pass
that is due takes all that waits even so.

Main definitions:
* `TieredCache.Unserved`: the reads that have no fresh entry to offer, with the errors counted.
* `TieredCache.Failure`: what a lookup that fails leaves behind.

Results:
* `Unserved.exists_iff`: which reads leave a lookup to its provider.
* `lookup_fails_or_answers`: when a lookup fails, and with what result.
* `lookup_error_iff`: when a lookup fails, and what it leaves.
-/

namespace MarketCache.TieredCache

variable {α ε σ φ : Type} [Payload α]

/-! ## Reads without a fresh entry -/

/-- The reads that have no entry to offer that is fresh as of `now`, and how many errors each of
    them counts for. -/
inductive Unserved (c : TieredCache α) (now : Instant) :
    Except StoreError (Option Bytes) → Nat → Prop where
  | absent : Unserved c now (.ok none) 0
  | refused (err : StoreError) : Unserved c now (.error err) 1
  | undecodable {bytes : Bytes} {err : Json.ReadError}
      (h : (Entry.decode bytes : Except _ (Entry α)) = .error err) :
      Unserved c now (.ok (some bytes)) 1
  | stale {bytes : Bytes} {e : Entry α} (h : Entry.decode bytes = .ok e)
      (hstale : c.policy.isFresh e now = false) : Unserved c now (.ok (some bytes)) 0

section Reads

variable {c : TieredCache α} {key : String} {now : Instant}
  {read : Except StoreError (Option Bytes)}

/-- Past the hot tier, a read leaves a lookup to its provider if nothing is promoted. -/
theorem Unserved.exists_iff (hcold : (c.hot.get? key).any (c.policy.isFresh · now) = false) :
    (∃ errors, c.Unserved now read errors) ↔ c.promoted? key now (.ofBytes read) = none := by
  constructor
  · rintro ⟨_, hread⟩
    cases hread with
    | absent => rfl
    | refused err => rfl
    | undecodable h => simp only [DurableRead.ofBytes, h, promoted?]
    | stale h hstale => simp only [DurableRead.ofBytes, h, promoted?, hstale]; simp
  · intro hnone
    rcases read with err | _ | bytes
    · exact ⟨1, .refused err⟩
    · exact ⟨0, .absent⟩
    · rcases hdecode : (Entry.decode bytes : Except _ (Entry α)) with err | e
      · exact ⟨1, .undecodable hdecode⟩
      · refine ⟨0, .stale hdecode ?_⟩
        simpa [DurableRead.ofBytes, hdecode, promoted?, hcold] using hnone

/-- The counters after such a read: one miss, and the errors. -/
theorem Unserved.missed_eq {errors : Nat} (h : c.Unserved now read errors) :
    c.missed (.ofBytes read) = { c.counters with
      misses := c.counters.misses + 1
      durableErrors := c.counters.durableErrors + errors } := by
  cases h with
  | absent => rfl
  | refused err => rfl
  | undecodable h => simp only [DurableRead.ofBytes, h]; rfl
  | stale h hstale => simp only [DurableRead.ofBytes, h]; rfl

end Reads

/-! ## Lookups -/

section Lookups

variable [DurableStore σ]

/-- A lookup fails if neither tier has a fresh entry and the provider fails, and has an answer
    otherwise. -/
theorem lookup_fails_or_answers (c : TieredCache α) (q : LogicalQuery) (now clock : Instant)
    (fetch : φ → Except ε α × φ) (provider : φ) (store : σ) :
    (∃ err, (c.hot.get? (c.keyFor q)).any (c.policy.isFresh · now) = false ∧
      c.promoted? (c.keyFor q) now (.ofBytes (DurableStore.get store clock (c.keyFor q)).1) = none ∧
      (fetch provider).1 = .error err ∧
      c.lookup q now clock fetch provider store =
        let c₁ := { c with
          counters := c.missed (.ofBytes (DurableStore.get store clock (c.keyFor q)).1) }
        let a := c₁.afterRequest now clock (DurableStore.get store clock (c.keyFor q)).2
        (.error err, a.1, a.2.1, a.2.2, (fetch provider).2)) ∨
    (∃ l, (c.lookup q now clock fetch provider store).1 = .ok l) ∧
      ((c.hot.get? (c.keyFor q)).any (c.policy.isFresh · now) = false →
        c.promoted? (c.keyFor q) now
          (.ofBytes (DurableStore.get store clock (c.keyFor q)).1) = none →
        ∃ payload, (fetch provider).1 = .ok payload) := by
  unfold lookup consult consultKey
  rcases checkHot_eq c (c.keyFor q) now with ⟨e, he, hfresh, hhot⟩ | ⟨hcold, hhot⟩
  · rw [hhot]
    refine Or.inr ⟨⟨_, rfl⟩, fun hcold => ?_⟩
    rw [he, Option.any_some, hfresh] at hcold
    cases hcold
  rw [hhot]
  rcases hget : DurableStore.get store clock (c.keyFor q) with ⟨read, store₁⟩
  rcases checkDurable_eq hcold (.ofBytes read) with ⟨e, he, hjudge⟩ | ⟨hnone, hjudge⟩
  · simp only [hjudge]
    refine Or.inr ⟨⟨_, rfl⟩, fun _ hnone => ?_⟩
    rw [he] at hnone
    cases hnone
  · simp only [hjudge]
    rcases fetch provider with ⟨err | payload, provider'⟩
    · exact Or.inl ⟨err, hcold, hnone, rfl, rfl⟩
    · exact Or.inr ⟨⟨_, rfl⟩, fun _ _ => ⟨payload, rfl⟩⟩

/-- What a request as of `now` does to what waits: nothing unless a pass is due, and then the pass
    takes all of it. -/
theorem afterRequest_cases (c : TieredCache α) (now clock : Instant) (store : σ) :
    (c.writeBack.isDue now = false ∧ c.afterRequest now clock store = (none, c, store)) ∨
    (c.writeBack.isDue now = true ∧ c.backgroundFlush = true ∧
      c.afterRequest now clock store =
        (some c.writeBack.batch, { c with writeBack := (c.writeBack.takeAll now).2 }, store)) ∨
    (c.writeBack.isDue now = true ∧ c.backgroundFlush = false ∧
      c.afterRequest now clock store =
        let (_, w, store') := (c.writeBack.takeAll now).2.persist c.writeBack.batch clock store
        (none, { c with writeBack := w }, store')) := by
  unfold afterRequest takeDue? WriteBack.takeDue?
  rcases hdue : c.writeBack.isDue now with _ | _
  · exact Or.inl ⟨rfl, rfl⟩
  rcases hbackground : c.backgroundFlush with _ | _
  · refine Or.inr (Or.inr ⟨rfl, rfl, ?_⟩)
    simp only [if_true, Option.map_some]
    rfl
  · refine Or.inr (Or.inl ⟨rfl, rfl, ?_⟩)
    simp only [if_true, Option.map_some]
    rfl

/-! ## What a failure leaves -/

/-- What a lookup as of `now` that fails leaves of a cache and of the store that it read, given how
    many errors the read counts for. -/
structure Failure (c : TieredCache α) (now clock : Instant) (store₁ : σ) (errors : Nat)
    (detached : Detached α) (c' : TieredCache α) (store' : σ) : Prop where
  /-- The hot tier is as it was, and so is every other counter of lookups. -/
  frame : c' = { c with
    writeBack := c'.writeBack
    counters := { c.counters with
      misses := c.counters.misses + 1
      durableErrors := c.counters.durableErrors + errors } }
  idle : c.writeBack.isDue now = false →
    detached = none ∧ c'.writeBack = c.writeBack ∧ store' = store₁
  /-- Nothing waits any more once a pass is due. -/
  emptied : c.writeBack.isDue now = true → ∀ key, c'.writeBack.pendingFor? key = none
  /-- The batch of that pass is all that waited. -/
  moved : c.writeBack.batch.Perm c.writeBack.waiting
  background : c.writeBack.isDue now = true → c.backgroundFlush = true →
    detached = some c.writeBack.batch ∧ c'.writeBack = (c.writeBack.takeAll now).2 ∧
      store' = store₁
  inline : c.writeBack.isDue now = true → c.backgroundFlush = false →
    detached = none ∧ ∃ report,
      (c.writeBack.takeAll now).2.persist c.writeBack.batch clock store₁ =
        (report, c'.writeBack, store')

/-- A miss that is counted, and a pass if one is due. -/
theorem failure_afterRequest (c : TieredCache α) (now clock : Instant) (store₁ : σ)
    (errors : Nat) {c₁ : TieredCache α} (hc₁ : c₁ = { c with
      counters := { c.counters with
        misses := c.counters.misses + 1
        durableErrors := c.counters.durableErrors + errors } }) :
    c.Failure now clock store₁ errors (c₁.afterRequest now clock store₁).1
      (c₁.afterRequest now clock store₁).2.1 (c₁.afterRequest now clock store₁).2.2 := by
  have hwaits : c₁.writeBack = c.writeBack := by rw [hc₁]
  have hmode : c₁.backgroundFlush = c.backgroundFlush := by rw [hc₁]
  have hemptied : c.writeBack.isDue now = true → ∀ key,
      (c₁.afterRequest now clock store₁).2.1.writeBack.pendingFor? key = none := by
    intro hdue key
    rw [pendingFor?_afterRequest, hwaits, if_pos hdue]
  have hmoved := c.writeBack.batch_perm_waiting
  rcases c₁.afterRequest_cases now clock store₁ with
    ⟨hdue, hafter⟩ | ⟨hdue, hbackground, hafter⟩ | ⟨hdue, hinline, hafter⟩
  · rw [hwaits] at hdue
    rw [hafter] at hemptied ⊢
    exact ⟨by rw [hc₁], fun _ => ⟨rfl, hwaits, rfl⟩, hemptied, hmoved, by simp [hdue],
      by simp [hdue]⟩
  · rw [hwaits] at hdue hafter
    rw [hmode] at hbackground
    rw [hafter] at hemptied ⊢
    exact ⟨by rw [hc₁], by simp [hdue], hemptied, hmoved, fun _ _ => ⟨rfl, rfl, rfl⟩,
      by simp [hbackground]⟩
  · rw [hwaits] at hdue hafter
    rw [hmode] at hinline
    rw [hafter] at hemptied ⊢
    exact ⟨by rw [hc₁], by simp [hdue], hemptied, hmoved, by simp [hinline],
      fun _ _ => ⟨rfl, _, rfl⟩⟩

/-- Over any store, a lookup fails with an error exactly when the hot entry of its key is absent or
    stale, the durable read has no fresh entry to offer, and the provider fails with that error;
    it has then asked the provider and left all but a miss as it was, a due pass apart. -/
theorem lookup_error_iff {c c' : TieredCache α} {q : LogicalQuery} {now clock : Instant}
    {fetch : φ → Except ε α × φ} {provider provider' : φ} {store store' : σ}
    {answer : Except ε (Lookup α)} {detached : Detached α}
    (h : c.lookup q now clock fetch provider store = (answer, detached, c', store', provider'))
    (err : ε) :
    (answer = .error err ↔
      (∀ e, c.hot.get? (c.keyFor q) = some e → c.policy.isFresh e now = false) ∧
      (∃ errors, c.Unserved now (DurableStore.get store clock (c.keyFor q)).1 errors) ∧
      (fetch provider).1 = .error err) ∧
    (answer = .error err → provider' = (fetch provider).2 ∧
      ∃ errors, c.Unserved now (DurableStore.get store clock (c.keyFor q)).1 errors ∧
        c.Failure now clock (DurableStore.get store clock (c.keyFor q)).2 errors
          detached c' store') := by
  have hstale : (∀ e, c.hot.get? (c.keyFor q) = some e → c.policy.isFresh e now = false) ↔
      (c.hot.get? (c.keyFor q)).any (c.policy.isFresh · now) = false := by
    rw [Option.any_eq_false]
  rw [hstale]
  rcases c.lookup_fails_or_answers q now clock fetch provider store with
    ⟨err', hcold, hnone, hfetch, hlookup⟩ | ⟨⟨l, hl⟩, hserved⟩
  · obtain ⟨errors, hread⟩ := (Unserved.exists_iff hcold).mpr hnone
    rw [h] at hlookup
    simp only [Prod.mk.injEq] at hlookup
    obtain ⟨hanswer, hdetached, hc', hstore', hprovider⟩ := hlookup
    rw [hanswer, hfetch]
    refine ⟨⟨fun heq => ⟨hcold, ⟨errors, hread⟩, by rw [Except.error.inj heq]⟩,
      fun ⟨_, _, heq⟩ => by rw [Except.error.inj heq]⟩,
      fun _ => ⟨hprovider, errors, hread, ?_⟩⟩
    rw [hdetached, hc', hstore']
    exact failure_afterRequest c now clock _ errors (by rw [hread.missed_eq])
  · rw [h] at hl
    have hok : answer ≠ .error err := by
      rw [show answer = .ok l from hl]
      exact nofun
    refine ⟨⟨fun heq => absurd heq hok, fun ⟨hcold, hread, hfetch⟩ => ?_⟩,
      fun heq => absurd heq hok⟩
    obtain ⟨payload, hpayload⟩ := hserved hcold ((Unserved.exists_iff hcold).mp hread)
    cases hpayload.symm.trans hfetch

end Lookups

/-! ### A store that refuses to be read -/

/-- A cache with a hot entry of `A` and one of `B` that waits. -/
def waited : TieredCache String :=
  { warm with
    hot := warm.hot.set ⟨"n:A", "a", ⟨1000, 0⟩⟩
    writeBack := warm.writeBack.record ⟨"n:B", "b", ⟨1000, 0⟩⟩ ⟨1000, 0⟩ }

/-- A store that refuses reads and nothing else. -/
def unreadable : FaultyStore MemoryStore :=
  { FaultyStore.ofStore MemoryStore.empty with plan := { FaultPlan.none with failReads := true } }

/-- A lookup of `A` once its hot entry is stale, with a provider that is down and counts how often
    it is asked. -/
def downLookup : Except String (Lookup String) × Detached String × TieredCache String ×
    FaultyStore MemoryStore × Nat :=
  waited.lookup (.ofSymbols ["a"]) ⟨1600, 0⟩ ⟨1600, 0⟩ (fun n => (.error "down", n + 1)) 0
    unreadable

/-- The lookup fails as the provider does. The stale entry stays hot, the write of `B` is handed to
    the pass that is due, and a miss and an error are counted. -/
theorem lookup_error_iff_down :
    downLookup.1 = .error "down" ∧ downLookup.2.2.2.2 = 1 ∧
    downLookup.2.2.1.hot = waited.hot ∧
    downLookup.2.2.1.counters = { CacheStats.zero with misses := 1, durableErrors := 1 } ∧
    (∀ key, downLookup.2.2.1.writeBack.pendingFor? key = none) ∧
    downLookup.2.2.2.1.journal.map (·.key) = ["n:B"] := by
  have hread : (DurableStore.get unreadable ⟨1600, 0⟩ (waited.keyFor (.ofSymbols ["a"]))).1 =
      .error (.unavailable "reads are refused") := rfl
  have hjournal : downLookup.2.2.2.1.journal.map (·.key) = ["n:B"] := by decide +kernel
  rcases h : downLookup with ⟨answer, detached, c', store', provider'⟩
  rw [h] at hjournal
  obtain ⟨hiff, hleaves⟩ := lookup_error_iff h "down"
  rw [hread] at hiff hleaves
  have hanswer : answer = .error "down" := by
    refine hiff.mpr ⟨fun e he => ?_, ⟨1, .refused _⟩, rfl⟩
    have hhot : waited.hot.get? (waited.keyFor (.ofSymbols ["a"])) =
        some ⟨"n:A", "a", ⟨1000, 0⟩⟩ := by decide +kernel
    rw [hhot] at he
    cases he
    decide
  obtain ⟨hprovider, errors, ⟨⟩, hfailure⟩ := hleaves hanswer
  have hframe := hfailure.frame
  exact ⟨hanswer, hprovider, by rw [hframe], by rw [hframe]; rfl, hfailure.emptied (by decide),
    hjournal⟩

end MarketCache.TieredCache
