import MarketCache.Proofs.WriteBack.Conservation
import MarketCache.Store.Faulty
import MarketCache.Store.Memory
import MarketCache.Store.Record

/-!
# What a pass discards

An entry that cannot be encoded never reaches the store, and one that the store refuses leaves
nothing in it. Neither keeps a pass from the entries behind it: the store is asked for every
entry that can be encoded, once and in the order of the batch, and ends up as if the others
had never been there.

Main definitions:
* `PutRequest`: a write as a store is asked for it.
* `putAll`: a store that is asked for some writes, whatever it answers.
* `ContentStore`: what a store comes to have by the writes that it accepts.
* `Pass.kept`: the writes of a batch that are accepted.
* `WriteBack.Thorough`: what a pass leaves behind.

Results:
* `writeAll_eq_putAll`: what a pass asks of its store, and what it counts.
* `content_putAll_kept`: the discarded entries might as well not have been there.
* `persist_thorough`: a pass goes through its batch.
-/

namespace MarketCache

variable {α σ : Type}

/-! ## Asking a store -/

/-- A write as a store is asked for it. -/
structure PutRequest where
  key : String
  value : Bytes
  ttlSecs : UInt64
deriving DecidableEq, Repr

/-- The write that an entry amounts to, if it can be encoded. -/
def PendingWrite.request? [Payload α] (w : PendingWrite α) (ttlSecs : UInt64) :
    Option PutRequest :=
  w.entry.encode?.map (⟨w.key, ·, ttlSecs⟩)

/-- Asks a store for some writes, one after the other, whatever it answers. -/
def putAll [DurableStore σ] (now : Instant) : List PutRequest → σ → List PutOutcome × σ
  | [], store => ([], store)
  | p :: rest, store =>
    let (outcome, store) := DurableStore.put store now p.key p.value p.ttlSecs
    let (outcomes, store) := putAll now rest store
    (outcome :: outcomes, store)

theorem putAll_cons [DurableStore σ] (now : Instant) (p : PutRequest) (rest : List PutRequest)
    (store : σ) : putAll now (p :: rest) store =
      let put := DurableStore.put store now p.key p.value p.ttlSecs
      (put.1 :: (putAll now rest put.2).1, (putAll now rest put.2).2) := rfl

/-- A store with a journal is asked what the store behind it is asked, and writes down each
    request. -/
theorem putAll_ofStore [DurableStore σ] (now : Instant) (ps : List PutRequest)
    {s : FaultyStore σ} (hplan : s.plan = .none) :
    (putAll now ps s).1 = (putAll now ps s.inner).1 ∧
      (putAll now ps s).2.inner = (putAll now ps s.inner).2 ∧
      (putAll now ps s).2.journal = (List.zipWith
        (fun p outcome => ⟨p.key, p.value, p.ttlSecs, outcome == .accepted⟩)
        ps (putAll now ps s.inner).1).reverse ++ s.journal := by
  induction ps generalizing s with
  | nil => exact ⟨rfl, rfl, rfl⟩
  | cons p ps ih =>
    have hput : DurableStore.put s now p.key p.value p.ttlSecs =
        s.put now p.key p.value p.ttlSecs := rfl
    rcases hinner : DurableStore.put s.inner now p.key p.value p.ttlSecs with ⟨outcome, inner⟩
    simp only [FaultyStore.put, hplan, FaultPlan.none, FaultPlan.refuses, hinner, Bool.false_or,
      Option.any_none, Bool.false_eq_true, if_false] at hput
    obtain ⟨houtcomes, hstore, hjournal⟩ := ih (s := { s with inner, journal :=
      ⟨p.key, p.value, p.ttlSecs, outcome == .accepted⟩ :: s.journal }) hplan
    simp only [FaultPlan.none, hplan] at houtcomes hstore hjournal
    simp only [putAll_cons, hput, hinner, houtcomes, hstore, hjournal, List.zipWith_cons_cons,
      List.reverse_cons, List.append_assoc, List.cons_append, List.nil_append, and_self]

/-! ## What a store comes to have -/

/-- Stores whose content is made by the writes that they accept. -/
class ContentStore (σ : Type) [DurableStore σ] where
  Content : Type
  /-- What there is in a store, apart from how it answers. -/
  content : σ → Content
  content_accepted {s t : σ} {now : Instant} {key : String} {value : Bytes} {ttlSecs : UInt64} :
    content s = content t → (DurableStore.put s now key value ttlSecs).1 = .accepted →
      (DurableStore.put t now key value ttlSecs).1 = .accepted →
      content (DurableStore.put s now key value ttlSecs).2 =
        content (DurableStore.put t now key value ttlSecs).2
  content_refused {s : σ} {now : Instant} {key : String} {value : Bytes} {ttlSecs : UInt64} :
    (DurableStore.put s now key value ttlSecs).1 = .refused →
      content (DurableStore.put s now key value ttlSecs).2 = content s

instance : ContentStore MemoryStore where
  Content := MemoryStore
  content s := s
  content_accepted h _ _ := by rw [h]
  content_refused h := nomatch h

instance : ContentStore RecordStore where
  Content := RecordStore
  content s := s
  content_accepted h _ _ := by rw [h]
  content_refused h := nomatch h

namespace FaultyStore

variable [DurableStore σ] {s : FaultyStore σ} {now : Instant} {key : String} {value : Bytes}
  {ttlSecs : UInt64}

/-- A write that is accepted has been accepted by the store behind. -/
theorem inner_put_of_accepted (h : (s.put now key value ttlSecs).1 = .accepted) :
    (DurableStore.put s.inner now key value ttlSecs).1 = .accepted ∧
      (s.put now key value ttlSecs).2.inner =
        (DurableStore.put s.inner now key value ttlSecs).2 := by
  unfold put at h ⊢
  split at h
  · cases h
  · next hworks =>
    rw [if_neg hworks]
    split at h
    · cases h
    · next htakes =>
      rw [if_neg htakes]
      exact ⟨h, rfl⟩

/-- A write that is refused has been refused on the way or by the store behind. -/
theorem inner_put_of_refused (h : (s.put now key value ttlSecs).1 = .refused) :
    (s.put now key value ttlSecs).2.inner = s.inner ∨
      (DurableStore.put s.inner now key value ttlSecs).1 = .refused ∧
        (s.put now key value ttlSecs).2.inner =
          (DurableStore.put s.inner now key value ttlSecs).2 := by
  unfold put at h ⊢
  split at h
  · cases h
  · next hworks =>
    rw [if_neg hworks]
    split at h
    · next hrefuses =>
      rw [if_pos hrefuses]
      exact Or.inl rfl
    · next htakes =>
      rw [if_neg htakes]
      exact Or.inr ⟨h, rfl⟩

end FaultyStore

instance [DurableStore σ] [ContentStore σ] : ContentStore (FaultyStore σ) where
  Content := ContentStore.Content σ
  content s := ContentStore.content s.inner
  content_accepted hsame hs ht := by
    obtain ⟨hs, hs'⟩ := FaultyStore.inner_put_of_accepted hs
    obtain ⟨ht, ht'⟩ := FaultyStore.inner_put_of_accepted ht
    have hinner := ContentStore.content_accepted hsame hs ht
    rw [← hs', ← ht'] at hinner
    exact hinner
  content_refused h := by
    rcases FaultyStore.inner_put_of_refused h with hinner | ⟨hrefused, hinner⟩
    · exact congrArg ContentStore.content hinner
    · exact (congrArg ContentStore.content hinner).trans (ContentStore.content_refused hrefused)

/-! ## A pass and its store -/

section Requests

variable [Payload α] [DurableStore σ]

namespace PendingWrite

theorem attempt_of_encode?_none {w : PendingWrite α} (h : w.entry.encode? = none)
    (ttl : UInt64) (now : Instant) (store : σ) : w.attempt ttl now store = (.failed, store) := by
  rw [attempt, h]

theorem attempt_of_encode?_some {w : PendingWrite α} {bytes : Bytes}
    (h : w.entry.encode? = some bytes) (ttl : UInt64) (now : Instant) (store : σ) :
    w.attempt ttl now store =
      ((DurableStore.put store now w.key bytes ttl).1.toAttempt,
        (DurableStore.put store now w.key bytes ttl).2) := by
  rw [attempt, h]

end PendingWrite

namespace Pass

/-- What a batch asks of its store. -/
def requests (ttl : UInt64) (batch : List (PendingWrite α)) : List PutRequest :=
  batch.filterMap (·.request? ttl)

theorem requests_cons_of_none {w : PendingWrite α} (h : w.entry.encode? = none) (ttl : UInt64)
    (batch : List (PendingWrite α)) : requests ttl (w :: batch) = requests ttl batch :=
  List.filterMap_cons_none (by rw [PendingWrite.request?, h]; rfl)

theorem requests_cons_of_some {w : PendingWrite α} {bytes : Bytes}
    (h : w.entry.encode? = some bytes) (ttl : UInt64) (batch : List (PendingWrite α)) :
    requests ttl (w :: batch) = ⟨w.key, bytes, ttl⟩ :: requests ttl batch :=
  List.filterMap_cons_some (by rw [PendingWrite.request?, h]; rfl)

/-- The writes of a batch that the store accepts. -/
def kept (ttl : UInt64) (now : Instant) : List (PendingWrite α) → σ → List (PendingWrite α)
  | [], _ => []
  | w :: rest, store =>
    let (a, store) := w.attempt ttl now store
    if a = .written then w :: kept ttl now rest store else kept ttl now rest store

/-- A pass over a store that does not break down asks it for what the batch has to ask, leaves it
    as that leaves it, and counts what was accepted. -/
theorem writeAll_eq_putAll {ttl : UInt64} {now : Instant} {batch : List (PendingWrite α)}
    {store : σ} (r : FlushReport)
    (hworks : .aborted ∉ (putAll now (requests ttl batch) store).1) :
    ∃ r', writeAll ttl now batch r store =
        (some r', (putAll now (requests ttl batch) store).2) ∧
      r'.attempted = r.attempted ∧
      r'.written = r.written + (putAll now (requests ttl batch) store).1.count .accepted := by
  induction batch generalizing r store with
  | nil => exact ⟨r, rfl, rfl, rfl⟩
  | cons w batch ih =>
    rcases hbytes : w.entry.encode? with _ | bytes
    · -- the store is not asked, and the report is one failure further
      rw [requests_cons_of_none hbytes] at hworks ⊢
      obtain ⟨r', hrun, hattempted, hwritten⟩ := ih (r.tally .failed) hworks
      refine ⟨r', ?_, hattempted, hwritten⟩
      rw [← hrun, writeAll, PendingWrite.attempt_of_encode?_none hbytes]
      rfl
    · rw [requests_cons_of_some hbytes, putAll_cons] at hworks ⊢
      rw [writeAll, PendingWrite.attempt_of_encode?_some hbytes]
      rcases hput : DurableStore.put store now w.key bytes ttl with ⟨outcome, store₁⟩
      simp only [hput, List.mem_cons, not_or] at hworks ⊢
      cases outcome with
      | accepted =>
        obtain ⟨r', hrun, hattempted, hwritten⟩ := ih (r.tally .written) hworks.2
        refine ⟨r', hrun, hattempted, ?_⟩
        rw [hwritten, List.count_cons_self]
        show r.written + 1 + _ = r.written + (_ + 1)
        omega
      | refused =>
        obtain ⟨r', hrun, hattempted, hwritten⟩ := ih (r.tally .failed) hworks.2
        refine ⟨r', hrun, hattempted, ?_⟩
        rw [hwritten, List.count_cons_of_ne (by decide)]
        rfl
      | aborted => exact absurd rfl hworks.1

/-- A store that accepts the writes which another one of the same content accepted comes to have
    the content of that one. -/
theorem content_putAll_kept [ContentStore σ] {ttl : UInt64} {now : Instant}
    {batch : List (PendingWrite α)} {s t : σ}
    (hworks : .aborted ∉ (putAll now (requests ttl batch) s).1)
    (hsame : ContentStore.content t = ContentStore.content s)
    (htakes : ∀ o ∈ (putAll now (requests ttl (kept ttl now batch s)) t).1, o = .accepted) :
    ContentStore.content (putAll now (requests ttl (kept ttl now batch s)) t).2 =
      ContentStore.content (putAll now (requests ttl batch) s).2 := by
  induction batch generalizing s t with
  | nil => exact hsame
  | cons w batch ih =>
    rcases hbytes : w.entry.encode? with _ | bytes
    · rw [kept, PendingWrite.attempt_of_encode?_none hbytes] at htakes ⊢
      rw [requests_cons_of_none hbytes] at hworks ⊢
      exact ih hworks hsame htakes
    · rw [kept, PendingWrite.attempt_of_encode?_some hbytes] at htakes ⊢
      rw [requests_cons_of_some hbytes, putAll_cons] at hworks ⊢
      rcases hput : DurableStore.put s now w.key bytes ttl with ⟨outcome, s₁⟩
      simp only [hput, List.mem_cons, not_or] at hworks htakes ⊢
      cases outcome with
      | accepted =>
        simp only [PutOutcome.toAttempt, if_true] at htakes ⊢
        rw [requests_cons_of_some hbytes, putAll_cons] at htakes ⊢
        rw [List.forall_mem_cons] at htakes
        refine ih hworks.2 ?_ htakes.2
        have hnext := ContentStore.content_accepted hsame htakes.1 (congrArg Prod.fst hput)
        rw [hput] at hnext
        exact hnext
      | refused =>
        have hleft := ContentStore.content_refused (congrArg Prod.fst hput)
        rw [hput] at hleft
        exact ih hworks.2 (hsame.trans hleft.symm) htakes
      | aborted => exact absurd rfl hworks.1

/-- As many writes are kept as are accepted. -/
theorem length_kept (ttl : UInt64) (now : Instant) (batch : List (PendingWrite α)) (store : σ) :
    (kept ttl now batch store).length =
      (putAll now (requests ttl batch) store).1.count .accepted := by
  induction batch generalizing store with
  | nil => rfl
  | cons w batch ih =>
    rcases hbytes : w.entry.encode? with _ | bytes
    · rw [kept, PendingWrite.attempt_of_encode?_none hbytes, requests_cons_of_none hbytes]
      exact ih store
    · rw [kept, PendingWrite.attempt_of_encode?_some hbytes, requests_cons_of_some hbytes,
        putAll_cons]
      rcases DurableStore.put store now w.key bytes ttl with ⟨outcome, store₁⟩
      cases outcome with
      | accepted => exact (congrArg (· + 1) (ih store₁)).trans List.count_cons_self.symm
      | refused =>
        have hne : PutOutcome.refused ≠ .accepted := by decide
        exact (ih store₁).trans (List.count_cons_of_ne hne).symm
      | aborted =>
        have hne : PutOutcome.aborted ≠ .accepted := by decide
        exact (ih store₁).trans (List.count_cons_of_ne hne).symm

end Pass

/-! ## The whole pass -/

namespace WriteBack

/-- What a pass leaves of a write-back, a batch and a store that it has gone through. -/
structure Thorough [ContentStore σ] (w : WriteBack α) (batch : List (PendingWrite α))
    (now : Instant) (store : σ) (report : FlushReport) (w' : WriteBack α) (store' : σ) : Prop where
  /-- The store has been asked for the entries that can be encoded, and for nothing else. -/
  asked : store' = (putAll now (Pass.requests w.ttlSecs batch) store).2
  /-- So says a journal: of each request there is one line, whatever came of those before it. -/
  journal : (w.persist batch now (FaultyStore.ofStore store)).2.2.journal.reverse =
    List.zipWith (fun p o => ⟨p.key, p.value, p.ttlSecs, o == .accepted⟩)
      (Pass.requests w.ttlSecs batch) (putAll now (Pass.requests w.ttlSecs batch) store).1
  attempted : report.attempted = batch.length
  counted : report.written + report.failed = batch.length
  written : report.written =
    (putAll now (Pass.requests w.ttlSecs batch) store).1.count .accepted
  /-- Nothing of the write-back but two counters has changed. -/
  settled : w' = { w with
    flushedEntries := w.flushedEntries + report.written
    flushFailures := w.flushFailures + report.failed }
  kept : (Pass.kept w.ttlSecs now batch store).length = report.written
  /-- A store that had as much and accepts what was kept comes to have as much. -/
  content : ∀ t : σ, ContentStore.content t = ContentStore.content store →
    (∀ o ∈ (putAll now
      (Pass.requests w.ttlSecs (Pass.kept w.ttlSecs now batch store)) t).1, o = .accepted) →
    ContentStore.content (w.persist (Pass.kept w.ttlSecs now batch store) now t).2.2 =
      ContentStore.content store'

/-- The store that a pass leaves, and its report. -/
theorem persist_eq_putAll (w : WriteBack α) {batch : List (PendingWrite α)} {now : Instant}
    {store : σ} (hworks : .aborted ∉ (putAll now (Pass.requests w.ttlSecs batch) store).1) :
    ∃ r, w.persist batch now store =
        (some r, w.settle r, (putAll now (Pass.requests w.ttlSecs batch) store).2) ∧
      r.attempted = batch.length ∧ r.written + r.failed = batch.length ∧
      r.written = (putAll now (Pass.requests w.ttlSecs batch) store).1.count .accepted := by
  obtain ⟨r, hrun, hattempted, hwritten⟩ :=
    Pass.writeAll_eq_putAll (Pass.ofBatch batch).report hworks
  have hsum := writeAll_sum hrun
  refine ⟨r, ?_, hattempted, ?_, ?_⟩
  · unfold persist Pass.run
    exact congrArg (fun p => (p.1, p.1.elim w w.settle, p.2)) hrun
  · simpa [Pass.ofBatch] using hsum
  · simpa [Pass.ofBatch] using hwritten

/-- A pass goes through its batch, whichever entries cannot be encoded and whichever writes the
    store refuses. -/
theorem persist_thorough [ContentStore σ] (w : WriteBack α) (batch : List (PendingWrite α))
    (now : Instant) (store : σ)
    (hworks : .aborted ∉ (putAll now (Pass.requests w.ttlSecs batch) store).1) :
    ∃ report w' store', w.persist batch now store = (some report, w', store') ∧
      w.Thorough batch now store report w' store' := by
  obtain ⟨r, hrun, hattempted, hcounted, hwritten⟩ := w.persist_eq_putAll hworks
  refine ⟨r, w.settle r, _, hrun, ?_⟩
  obtain ⟨houtcomes, -, hlines⟩ :=
    putAll_ofStore now (Pass.requests w.ttlSecs batch) (s := FaultyStore.ofStore store) rfl
  constructor
  case asked => rfl
  case journal =>
    obtain ⟨_, hjournaled, -⟩ := w.persist_eq_putAll (houtcomes ▸ hworks)
    rw [hjournaled, hlines]
    simp only [FaultyStore.ofStore, List.append_nil, List.reverse_reverse]
  case attempted => exact hattempted
  case counted => exact hcounted
  case written => exact hwritten
  case settled => rfl
  case kept => rw [Pass.length_kept, hwritten]
  case content =>
    intro t hsame htakes
    have hworks' : .aborted ∉ (putAll now
        (Pass.requests w.ttlSecs (Pass.kept w.ttlSecs now batch store)) t).1 :=
      fun hmem => nomatch htakes _ hmem
    obtain ⟨_, hkept, -⟩ := w.persist_eq_putAll hworks'
    rw [hkept]
    exact Pass.content_putAll_kept hworks hsame htakes

end WriteBack

end Requests

/-! ### A note that cannot be encoded and one that is refused -/

namespace WriteBack

/-- A note, which may have no written form. -/
inductive Note where
  | text (s : String)
  | unwritable
deriving DecidableEq

instance : Payload Note where
  toJson?
    | .text s => some (.string s)
    | .unwritable => none
  read bs := (Json.textField bs).map fun (s, rest) => (.text s, rest)

/-- A store in memory that refuses to write keys with `bad` at the start. -/
def choosy : FaultyStore MemoryStore :=
  { FaultyStore.ofStore MemoryStore.empty with plan := { FaultPlan.none with failPrefix := "bad" } }

/-- Of four notes one cannot be encoded and one is refused. -/
def notes : List (PendingWrite Note) :=
  [⟨⟨"a", .text "1", ⟨0, 0⟩⟩, ⟨0, 0⟩⟩, ⟨⟨"b", .unwritable, ⟨0, 0⟩⟩, ⟨0, 0⟩⟩,
    ⟨⟨"bad", .text "2", ⟨0, 0⟩⟩, ⟨0, 0⟩⟩, ⟨⟨"c", .text "3", ⟨0, 0⟩⟩, ⟨0, 0⟩⟩]

/-- Two notes are written and two are discarded, and a store that refuses nothing comes to have
    the same by the two notes alone. -/
theorem persist_thorough_notes :
    .aborted ∉ (putAll ⟨5, 0⟩ (Pass.requests 3600 notes) choosy).1 ∧
    ((start 60 3600 ⟨0, 0⟩).persist notes ⟨5, 0⟩ choosy).1 = some ⟨4, 2, 2⟩ ∧
    (Pass.kept 3600 ⟨5, 0⟩ notes choosy).map (·.key) = ["a", "c"] ∧
    ((start 60 3600 ⟨0, 0⟩).persist (Pass.kept 3600 ⟨5, 0⟩ notes choosy) ⟨5, 0⟩
        (FaultyStore.ofStore MemoryStore.empty)).2.2.inner =
      ((start 60 3600 ⟨0, 0⟩).persist notes ⟨5, 0⟩ choosy).2.2.inner := by
  have hworks : .aborted ∉ (putAll ⟨5, 0⟩ (Pass.requests 3600 notes) choosy).1 := by
    decide +kernel
  obtain ⟨report, w', store', hrun, hthorough⟩ :=
    persist_thorough (start 60 3600 ⟨0, 0⟩) notes ⟨5, 0⟩ choosy hworks
  refine ⟨hworks, by decide +kernel, by decide +kernel, ?_⟩
  rw [hrun]
  exact hthorough.content (FaultyStore.ofStore MemoryStore.empty) rfl (by decide +kernel)

end WriteBack

end MarketCache
