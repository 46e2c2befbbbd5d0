import MarketCache.Entry.Codec
import MarketCache.Store.Basic
import MarketCache.WriteBack.Basic

/-!
# Passes

A pass writes the entries of a batch to the durable store, one after the other. An entry that
cannot be encoded, or that the store refuses, is discarded; the others are written all the
same, and nothing is tried twice. If the store breaks down the pass ends on the spot, and
its report is lost.

Main definitions:
* `PendingWrite.attempt`: one write.
* `Pass.step`: a pass under way, one write further.
* `Pass.run`: a pass from start to end.
* `WriteBack.persist`, `WriteBack.flush`, `WriteBack.flushIfDue`: passes of a write-back.
-/

namespace MarketCache

variable {α σ : Type}

/-- What became of a write that waited. -/
inductive Attempt where
  | written
  /-- The entry was discarded. -/
  | failed
  /-- The store broke down. -/
  | aborted
deriving DecidableEq, Repr

/-- The outcome that the store's answer amounts to. -/
def PutOutcome.toAttempt : PutOutcome → Attempt
  | .accepted => .written
  | .refused => .failed
  | .aborted => .aborted

/-- Writes an entry to the store, if it can be encoded. -/
def PendingWrite.attempt [Payload α] [DurableStore σ] (w : PendingWrite α) (ttlSecs : UInt64)
    (now : Instant) (store : σ) : Attempt × σ :=
  match w.entry.encode? with
  | none => (.failed, store)
  | some bytes =>
    let (r, store) := DurableStore.put store now w.key bytes ttlSecs
    (r.toAttempt, store)

/-- The report after one more attempt; `attempted` counts a batch as a whole, from the start. -/
def FlushReport.tally (r : FlushReport) : Attempt → FlushReport
  | .written => { r with written := r.written + 1 }
  | .failed => { r with failed := r.failed + 1 }
  | .aborted => r

/-- A pass under way: what is still to be written, and the report so far. -/
structure Pass (α : Type) where
  rest : List (PendingWrite α)
  report : FlushReport

namespace Pass

/-- The pass of a batch, before its first write. -/
def ofBatch (batch : List (PendingWrite α)) : Pass α := ⟨batch, ⟨batch.length, 0, 0⟩⟩

/-- What a step of a pass leads to. -/
inductive Progress (α : Type) where
  /-- All entries have been attempted. -/
  | finished (report : FlushReport)
  /-- One more entry has been attempted. -/
  | further (pass : Pass α)
  /-- The store broke down. -/
  | aborted

/-- The next step of a pass: one more write, or the end. -/
def step [Payload α] [DurableStore σ] (p : Pass α) (ttlSecs : UInt64) (now : Instant)
    (store : σ) : Progress α × σ :=
  match p.rest with
  | [] => (.finished p.report, store)
  | w :: rest =>
    let (a, store) := w.attempt ttlSecs now store
    (if a = .aborted then .aborted else .further ⟨rest, p.report.tally a⟩, store)

/-- The report of writing some entries after others were reported on, unless the store broke
    down. -/
def writeAll [Payload α] [DurableStore σ] (ttlSecs : UInt64) (now : Instant) :
    List (PendingWrite α) → FlushReport → σ → Option FlushReport × σ
  | [], r, store => (some r, store)
  | w :: rest, r, store =>
    let (a, store) := w.attempt ttlSecs now store
    if a = .aborted then (none, store) else writeAll ttlSecs now rest (r.tally a) store

/-- The report of a pass from where it stands to its end, unless the store breaks down. -/
def run [Payload α] [DurableStore σ] (p : Pass α) (ttlSecs : UInt64) (now : Instant)
    (store : σ) : Option FlushReport × σ :=
  writeAll ttlSecs now p.rest p.report store

end Pass

namespace WriteBack

variable [Payload α] [DurableStore σ]

/-- Writes a batch that was taken and counts what became of it. -/
def persist (w : WriteBack α) (batch : List (PendingWrite α)) (now : Instant) (store : σ) :
    Option FlushReport × WriteBack α × σ :=
  let (r, store) := (Pass.ofBatch batch).run w.ttlSecs now store
  (r, r.elim w w.settle, store)

/-- Takes all that waits at `now` and writes it, the store's clock showing `clock`. -/
def flush (w : WriteBack α) (now clock : Instant) (store : σ) :
    Option FlushReport × WriteBack α × σ :=
  let (batch, w) := w.takeAll now
  w.persist batch clock store

/-- Runs a pass if one is due at `now`; the outer option tells whether it was. -/
def flushIfDue (w : WriteBack α) (now clock : Instant) (store : σ) :
    Option (Option FlushReport) × WriteBack α × σ :=
  match w.takeDue? now with
  | none => (none, w, store)
  | some (batch, w) =>
    let (r, w, store) := w.persist batch clock store
    (some r, w, store)

end WriteBack

end MarketCache
