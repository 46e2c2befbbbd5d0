import MarketCache.Proofs.System.Access
import MarketCache.Proofs.System.Numbers

/-!
# Sequential runs

A run is sequential if every operation is started when the one before it is over; passes in the
background are no operations. A sequential run of a single cache has at most one lookup or
flush under way at any time, and without passes in the background there is no other task at
all that still takes steps.

Main definitions:
* `System.isSequential`: whether a run is sequential.
* `System.Reason`: why a lookup goes on as it does.
* `System.Advance`: all that an event of a sequential run can do.
* `System.single`, `System.Solo`: a single cache, with at most one operation under way.
* `System.Lone`: the operation under way has the tasks to itself.
* `System.latest`: the latest entry of a key that was fetched.
* `System.Posed`: what lookups are about was asked for.

Results:
* `apply_advance`: an event of a sequential run is one of its advances.
* `sequential_induction`: what each advance keeps, a sequential run keeps.
* `solo_run`: a sequential run of a single cache keeps to itself.
* `Turn.task?_cases`, `Turn.onward`: where the tasks after a step come from.
* `posed_run`: what was asked for in a sequential run of a single cache.
-/

namespace MarketCache

variable {α ε σ : Type}

/-- Whether a task is an operation under way: neither over nor a pass in the background. -/
def Task.isOperation : Task α ε → Bool
  | .lookup _ _ _ _ => true
  | .flush _ _ _ => true
  | .maintenance _ _ _ => true
  | _ => false

/-- Whether a task writes in the background, or is about to let another one do so. -/
def Task.isDetached : Task α ε → Bool
  | .pass _ _ => true
  | .lookup _ _ _ (.detaching _ _) => true
  | _ => false

/-- Whether a lookup has come past the hot tier and has no answer yet. -/
def LookupStage.isSeeking : LookupStage α ε → Bool
  | .reading => true
  | .judging _ => true
  | .fetching => true
  | _ => false

/-- The time as of which a lookup was asked for, if one was. -/
def Happening.time? : Happening α ε → Option Instant
  | .asked _ _ _ now => some now
  | _ => none

/-- The entry that was fetched, if it is one of a key. -/
def Happening.fetched? (key : String) : Happening α ε → Option (Entry α)
  | .fetched _ _ e => if e.key = key then some e else none
  | _ => none

namespace System

/-- Whether no operation is under way. -/
def isResting (s : System α ε σ) : Bool := s.tasks.toList.all fun (_, t) => !t.isOperation

theorem isResting_iff {s : System α ε σ} :
    s.isResting = true ↔ ∀ id t, s.task? id = some t → t.isOperation = false := by
  unfold isResting task?
  simp only [List.all_eq_true, Bool.not_eq_true', Prod.forall,
    Std.ExtTreeMap.mem_toList_iff_getElem?_eq_some]

/-- Whether an event may come next in a sequential run. -/
def admits (s : System α ε σ) : Event α ε σ → Bool
  | .lookup _ _ _ => s.isResting
  | .flush _ _ => s.isResting
  | .invalidate _ _ => s.isResting
  | .step _ _ _ => true
  | .disturb _ => true
  | .maintain _ _ => false
  | .abort _ => false

/-- A lookup as of a time, and as many steps of its task as there are outcomes. -/
def lookupRun (q : LogicalQuery) (id : Nat) (now : Instant)
    (outcomes : List (Option (Except ε α))) : List (Event α ε σ) :=
  .lookup 0 q now :: outcomes.map (.step now · id)

section Runs

variable [Payload α] [DurableStore σ]

/-- Whether every operation of a run is started when the one before it is over, and none is given
    up. -/
def isSequential (s : System α ε σ) : List (Event α ε σ) → Bool
  | [] => true
  | e :: events => s.admits e && (s.apply e).isSequential events

theorem isSequential_append (s : System α ε σ) (events more : List (Event α ε σ)) :
    s.isSequential (events ++ more) =
      (s.isSequential events && (s.run events).isSequential more) := by
  induction events generalizing s with
  | nil => rfl
  | cons e events ih =>
    rw [List.cons_append, isSequential, isSequential, ih, Bool.and_assoc]
    rfl

/-- A sequential run is so in every part. -/
theorem admits_of_split {s : System α ε σ} {events before after : List (Event α ε σ)}
    {e : Event α ε σ} (h : s.isSequential events = true) (hsplit : events = before ++ e :: after) :
    (s.run before).admits e = true := by
  rw [hsplit, isSequential_append, isSequential, Bool.and_eq_true, Bool.and_eq_true] at h
  exact h.2.1

theorem isSequential_of_split {s : System α ε σ} {events before after : List (Event α ε σ)}
    (h : s.isSequential events = true) (hsplit : events = before ++ after) :
    s.isSequential before = true := by
  rw [hsplit, isSequential_append, Bool.and_eq_true] at h
  exact h.1

end Runs

/-! ## Why a lookup goes on as it does -/

section Reasons

variable [Payload α] [DurableStore σ] {s s' : System α ε σ} {clock : Instant}
  {outcome : Option (Except ε α)} {id : Nat} {t t' : Task α ε}

/-- Why a lookup goes on as it does: it reads the store only past a hot entry that is stale, it
    asks the provider only past a durable entry that is, and it leaves its batch to a pass in
    the background only if the cache is set up so. -/
def Reason (s : System α ε σ) : Task α ε → Task α ε → Prop
  | .lookup cache key now .asking, .lookup _ _ _ .reading =>
    ∀ c e, s.cache? cache = some c → c.hot.get? key = some e → c.policy.isFresh e now = false
  | .lookup cache _ now (.judging r), .lookup _ _ _ .fetching =>
    ∀ c e, s.cache? cache = some c → r = .found e → c.policy.isFresh e now = false
  | .lookup cache _ _ (.closing _), .lookup _ _ _ (.detaching _ _) =>
    ∀ c, s.cache? cache = some c → c.backgroundFlush = true
  | _, _ => True

/-- A step of a task has its reason. -/
theorem step_reason (ht : s.task? id = some t)
    (ht' : (s.step clock outcome id).task? id = some t') : s.Reason t t' := by
  cases t with
  | lookup cache key now stage =>
    rcases hc : s.cache? cache with _ | c
    · have hs : s.step clock outcome id = s := by
        simp only [step, ht, hc]
      rw [hs, ht] at ht'
      cases ht'
      cases stage <;> exact trivial
    have hstep : s.step clock outcome id = s.stepLookup id cache c key now clock outcome stage := by
      simp only [step, ht, hc]
    rw [hstep] at ht'
    cases stage with
    | asking =>
      rcases he : c.hot.get? key with _ | e
      · simp only [stepLookup, TieredCache.checkHot, he, task?_setTask, if_true] at ht'
        cases ht'
        intro c' e hc' he'
        rw [hc] at hc'
        cases hc'
        rw [he] at he'
        simp at he'
      · by_cases hfresh : c.policy.isFresh e now = true
        · simp only [stepLookup, TieredCache.checkHot, he, if_pos hfresh, task?_setTask,
            if_true] at ht'
          cases ht'
          exact trivial
        · simp only [stepLookup, TieredCache.checkHot, he, if_neg hfresh, task?_setTask,
            if_true] at ht'
          cases ht'
          intro c' e' hc' he'
          rw [hc] at hc'
          cases hc'
          rw [he] at he'
          cases he'
          exact Bool.not_eq_true _ ▸ hfresh
    | judging r =>
      cases t' with
      | lookup cache' key' now' stage' =>
        cases stage' with
        | fetching =>
          intro c' e hc' hr
          rw [hc] at hc'
          cases hc'
          rw [hr] at ht'
          by_cases hfresh : c.policy.isFresh e now = true
          · simp only [stepLookup, TieredCache.checkDurable, if_pos hfresh, task?_setTask,
              if_true] at ht'
            simp at ht'
          · exact Bool.not_eq_true _ ▸ hfresh
        | _ => exact trivial
      | _ => exact trivial
    | closing answer =>
      cases t' with
      | lookup cache' key' now' stage' =>
        cases stage' with
        | detaching answer' batch =>
          intro c' hc'
          rw [hc] at hc'
          cases hc'
          by_cases hdue : c.writeBack.isDue now = true
          · simp only [stepLookup, takeDue?_eq, if_pos hdue, task?_setTask, if_true] at ht'
            by_cases hbackground : c.backgroundFlush = true
            · exact hbackground
            · have hkeep : (c.takeAll now).2.backgroundFlush = c.backgroundFlush := rfl
              rw [hkeep, if_neg hbackground] at ht'
              simp at ht'
          · simp only [stepLookup, takeDue?_eq, if_neg hdue, task?_setTask, if_true] at ht'
            simp at ht'
        | _ => exact trivial
      | _ => exact trivial
    | _ => exact trivial
  | _ => exact trivial

end Reasons

/-! ## Advances -/

section Advances

variable [Payload α] [DurableStore σ]

/-- All that an event of a sequential run can do: what happens and the system after it. -/
inductive Advance (s : System α ε σ) :
    Event α ε σ → List (Happening α ε) → System α ε σ → Prop where
  /-- The cache or the task is not there. -/
  | idle {ev} : Advance s ev [] s
  | lookup {cache q now c} (hc : s.cache? cache = some c) (hrest : s.isResting = true) :
      Advance s (.lookup cache q now) [.asked s.next cache q now]
        (s.add (.lookup cache (c.keyFor q) now .asking)).2
  | flush {cache now} (hrest : s.isResting = true) :
      Advance s (.flush cache now) [] (s.add (.flush cache now .starting)).2
  | invalidate {cache q c} (hc : s.cache? cache = some c) (hrest : s.isResting = true) :
      Advance s (.invalidate cache q) [] (s.setCache cache (c.invalidate q).2)
  | step {clock outcome id t more s'} (ht : s.task? id = some t)
      (hturn : Turn s clock id t more s')
      (hreason : ∀ t', s'.task? id = some t' → s.Reason t t') :
      Advance s (.step clock outcome id) more s'
  | disturb {change} :
      Advance s (.disturb change) [] { s with store := change s.store }

/-- An event of a sequential run is one of its advances. -/
theorem apply_advance {s : System α ε σ} {ev : Event α ε σ} (h : s.admits ev = true) :
    Advance s ev (s.news ev) (s.apply ev) := by
  cases ev with
  | lookup cache q now =>
    rcases hc : s.cache? cache with _ | c
    · simp only [apply, addLookup, news, hc, Option.map_none, Option.getD_none,
        Option.isSome_none, Bool.false_eq_true, if_false]
      exact Advance.idle
    · simp only [apply, addLookup, news, hc, Option.map_some, Option.getD_some,
        Option.isSome_some, if_true]
      exact Advance.lookup hc h
  | flush cache now => exact Advance.flush h
  | maintain cache secs => cases h
  | invalidate cache q =>
    rcases hc : s.cache? cache with _ | c
    · simp only [apply, hc]
      exact Advance.idle
    · simp only [apply, hc]
      exact Advance.invalidate hc h
  | step clock outcome id =>
    rcases ht : s.task? id with _ | t
    · simp only [apply, step, news, ht]
      exact Advance.idle
    · exact Advance.step ht (step_turn ht) fun t' ht' => step_reason ht ht'
  | abort id => cases h
  | disturb change => exact Advance.disturb

/-- What holds at the start of a sequential run, and is kept by each of its advances, holds at its
    end. -/
theorem sequential_induction {s : System α ε σ} {events : List (Event α ε σ)}
    {P : List (Event α ε σ) → Prop} (hseq : s.isSequential events = true) (hnil : P [])
    (hstep : ∀ before ev after, events = before ++ ev :: after → s.isSequential before = true →
      Advance (s.run before) ev ((s.run before).news ev) ((s.run before).apply ev) →
      P before → P (before ++ [ev])) : P events := by
  refine prefix_induction hnil fun before ev after hsplit h => ?_
  exact hstep before ev after hsplit (isSequential_of_split hseq hsplit)
    (apply_advance (admits_of_split hseq hsplit)) h

end Advances

/-! ## A single cache -/

/-- A single new cache over a store. -/
abbrev single (store : σ) (space : String) (settings : CacheSettings) (startedAt : Instant) :
    System α ε σ := ofSpecs store [(space, settings, startedAt)]

/-- Whether a cache is one of a namespace and settings. -/
structure SetUp (space : String) (settings : CacheSettings) (c : TieredCache α) : Prop where
  space : c.space = space
  policy : c.policy = ⟨settings.pollingIntervalSecs⟩
  background : c.backgroundFlush = settings.backgroundFlush
  ttl : c.writeBack.ttlSecs = settings.durableTtlSecs

/-- Freshness goes by the settings. -/
theorem SetUp.isFresh_eq {space : String} {settings : CacheSettings} {c : TieredCache α}
    (h : SetUp space settings c) (e : Entry α) (now : Instant) :
    c.policy.isFresh e now = isFresh e.capturedAt settings.pollingIntervalSecs now := by
  rw [FreshnessPolicy.isFresh, h.policy]

/-- Whether there is a single cache, set up so, with at most one operation under way; without
    passes in the background, no task is one or is about to start one. -/
structure Solo (space : String) (settings : CacheSettings) (s : System α ε σ) : Prop where
  here : ∃ c, s.cache? 0 = some c
  zero : ∀ cache c, s.cache? cache = some c → cache = 0
  setUp : ∀ cache c, s.cache? cache = some c → SetUp space settings c
  owner : ∀ id cache key now stage,
    s.task? id = some (.lookup cache key now stage) → cache = 0
  alone : ∀ id id' t t', s.task? id = some t → t.isOperation = true →
    s.task? id' = some t' → t'.isOperation = true → id = id'
  attached : settings.backgroundFlush = false →
    ∀ id t, s.task? id = some t → t.isDetached = false

/-- Whether no task but that of a number has anything left to do. -/
def Lone (s : System α ε σ) (id : Nat) : Prop :=
  ∀ k t, s.task? k = some t → k ≠ id → t.isOperation = false ∧ t.isDetached = false

section Solo

variable {space : String} {settings : CacheSettings} {s s' : System α ε σ} {id : Nat}
  {t t' : Task α ε}

theorem solo_single (store : σ) (space : String) (settings : CacheSettings)
    (startedAt : Instant) :
    (single store space settings startedAt : System α ε σ).Solo space settings where
  here := ⟨_, rfl⟩
  zero cache c hc := by
    cases cache with
    | zero => rfl
    | succ cache => cases hc
  setUp cache c hc := by
    cases cache with
    | zero =>
      cases hc
      exact ⟨rfl, rfl, rfl, rfl⟩
    | succ cache => cases hc
  owner id cache key now stage ht := by
    rw [task?_ofSpecs] at ht
    simp at ht
  alone id id' t t' ht := by
    rw [task?_ofSpecs] at ht
    simp at ht
  attached _ id t ht := by
    rw [task?_ofSpecs] at ht
    simp at ht

/-- Another state of the cache, set up as before. -/
theorem Solo.setCache {cache : Nat} {c c' : TieredCache α} (h : s.Solo space settings)
    (hc : s.cache? cache = some c) (hc' : SetUp space settings c') :
    (s.setCache cache c').Solo space settings := by
  have hcaches : ∀ k c₁, (s.setCache cache c').cache? k = some c₁ → k = 0 ∧
      SetUp space settings c₁ := by
    intro k c₁ hc₁
    rw [cache?_setCache] at hc₁
    split at hc₁
    · next heq =>
      obtain ⟨_, -, rfl⟩ := Option.map_eq_some_iff.mp hc₁
      exact ⟨heq ▸ h.zero cache c hc, hc'⟩
    · exact ⟨h.zero k c₁ hc₁, h.setUp k c₁ hc₁⟩
  have hhere : (s.setCache cache c').cache? 0 = some c' := by
    rw [cache?_setCache, if_pos (h.zero cache c hc)]
    obtain ⟨c₀, hc₀⟩ := h.here
    rw [hc₀]
    rfl
  exact ⟨⟨c', hhere⟩, fun k c₁ hc₁ => (hcaches k c₁ hc₁).1, fun k c₁ hc₁ => (hcaches k c₁ hc₁).2,
    h.owner, h.alone, h.attached⟩

/-- Another state of a task, which is an operation only if no other task is one. -/
theorem Solo.setTask (h : s.Solo space settings)
    (halone : t'.isOperation = true →
      ∀ k t, s.task? k = some t → t.isOperation = true → k = id)
    (howner : ∀ cache key now stage, t' = .lookup cache key now stage → cache = 0)
    (hattached : settings.backgroundFlush = false → t'.isDetached = false) :
    (s.setTask id t').Solo space settings := by
  have htasks : ∀ k t₁, (s.setTask id t').task? k = some t₁ → (k = id ∧ t₁ = t') ∨
      s.task? k = some t₁ := by
    intro k t₁ ht₁
    rw [task?_setTask] at ht₁
    split at ht₁
    · next heq =>
      cases ht₁
      exact Or.inl ⟨heq.symm, rfl⟩
    · exact Or.inr ht₁
  refine ⟨h.here, h.zero, h.setUp, fun k cache key now stage hk => ?_, ?_, ?_⟩
  · rcases htasks k _ hk with ⟨-, heq⟩ | hold
    · exact howner cache key now stage heq.symm
    · exact h.owner k cache key now stage hold
  · intro k k' t₁ t₂ ht₁ hop₁ ht₂ hop₂
    rcases htasks k t₁ ht₁ with ⟨rfl, rfl⟩ | hold₁ <;>
      rcases htasks k' t₂ ht₂ with ⟨rfl, rfl⟩ | hold₂
    · rfl
    · exact (halone hop₁ k' t₂ hold₂ hop₂).symm
    · exact halone hop₂ k t₁ hold₁ hop₁
    · exact h.alone k k' t₁ t₂ hold₁ hop₁ hold₂ hop₂
  · intro hinline k t₁ ht₁
    rcases htasks k t₁ ht₁ with ⟨-, rfl⟩ | hold
    · exact hattached hinline
    · exact h.attached hinline k t₁ hold

/-- The next state of a task that was an operation if it still is one. -/
theorem Solo.goOn (h : s.Solo space settings) (ht : s.task? id = some t)
    (hoperation : t'.isOperation = true → t.isOperation = true)
    (howner : ∀ cache key now stage, t' = .lookup cache key now stage → cache = 0)
    (hattached : settings.backgroundFlush = false → t'.isDetached = false) :
    (s.setTask id t').Solo space settings :=
  h.setTask (fun hop k t₁ ht₁ hop₁ => h.alone k id t₁ t ht₁ hop₁ ht (hoperation hop)) howner
    hattached

/-- Systems of the same cache and the same tasks. -/
theorem Solo.congr (h : s.Solo space settings) (hcaches : ∀ k, s'.cache? k = s.cache? k)
    (htasks : ∀ k, s'.task? k = s.task? k) : s'.Solo space settings where
  here := hcaches 0 ▸ h.here
  zero k c hc := h.zero k c (hcaches k ▸ hc)
  setUp k c hc := h.setUp k c (hcaches k ▸ hc)
  owner k cache key now stage ht := h.owner k cache key now stage (htasks k ▸ ht)
  alone k k' t t' ht hop ht' hop' := h.alone k k' t t' (htasks k ▸ ht) hop (htasks k' ▸ ht') hop'
  attached hinline k t ht := h.attached hinline k t (htasks k ▸ ht)

/-- A new task, which is an operation only if no other is under way. -/
theorem Solo.add (h : s.Solo space settings) (halone : t.isOperation = true → s.isResting = true)
    (howner : ∀ cache key now stage, t = .lookup cache key now stage → cache = 0)
    (hattached : settings.backgroundFlush = false → t.isDetached = false) :
    (s.add t).2.Solo space settings := by
  have hset : (s.setTask s.next t).Solo space settings := by
    refine h.setTask (fun hop k t₁ ht₁ hop₁ => ?_) howner hattached
    rw [isResting_iff.mp (halone hop) k t₁ ht₁] at hop₁
    simp at hop₁
  exact hset.congr (fun _ => rfl) fun _ => rfl

/-- Without passes in the background, an operation is the only task with anything left to do. -/
theorem Solo.lone (h : s.Solo space settings) (hinline : settings.backgroundFlush = false)
    (ht : s.task? id = some t) (hop : t.isOperation = true) : s.Lone id := by
  intro k t₁ hk hne
  refine ⟨?_, h.attached hinline k t₁ hk⟩
  by_contra hop₁
  exact hne (h.alone k id t₁ t hk (Bool.not_eq_false _ ▸ hop₁) ht hop)

/-- A task that is no operation and does not write has no write in hand. -/
theorem unwritten_of_not_isOperation (hop : t.isOperation = false)
    (hdetached : t.isDetached = false) : t.unwritten = [] := by
  cases t with
  | lookup cache key now stage => cases hop
  | flush cache now stage => cases hop
  | pass cache p => cases hdetached
  | maintenance cache secs stage => cases hop
  | _ => rfl

/-! ### What kind of task comes of one -/

theorem isOperation_withPass {p : Pass α} (hp : t.pass? = some p) (p' : Pass α) :
    (t.withPass p').isOperation = t.isOperation := by
  rcases writer_cases hp with ⟨_, _, _, _, rfl⟩ | ⟨_, _, rfl⟩ | ⟨_, rfl⟩ | ⟨_, _, _, rfl⟩ <;> rfl

theorem isDetached_withPass {p : Pass α} (hp : t.pass? = some p) (p' : Pass α) :
    (t.withPass p').isDetached = t.isDetached := by
  rcases writer_cases hp with ⟨_, _, _, _, rfl⟩ | ⟨_, _, rfl⟩ | ⟨_, rfl⟩ | ⟨_, _, _, rfl⟩ <;> rfl

theorem isOperation_of_afterPass {p : Pass α} {r : FlushReport} (hp : t.pass? = some p)
    (h : (t.afterPass r).isOperation = true) : t.isOperation = true := by
  rcases writer_cases hp with ⟨_, _, _, _, rfl⟩ | ⟨_, _, rfl⟩ | ⟨_, rfl⟩ | ⟨_, _, _, rfl⟩
  · rfl
  · rfl
  · cases h
  · rfl

theorem isDetached_afterPass {p : Pass α} (hp : t.pass? = some p) (r : FlushReport) :
    (t.afterPass r).isDetached = false := by
  rcases writer_cases hp with ⟨_, _, _, _, rfl⟩ | ⟨_, _, rfl⟩ | ⟨_, rfl⟩ | ⟨_, _, _, rfl⟩ <;> rfl

theorem isOperation_of_flushing? {now : Instant} {stage : FlushStage α}
    (hf : t.flushing? = some (now, stage)) : t.isOperation = true := by
  rcases flusher_cases hf with ⟨_, rfl⟩ | ⟨_, _, rfl⟩ <;> rfl

theorem isDetached_withFlush {now : Instant} {stage : FlushStage α}
    (hf : t.flushing? = some (now, stage)) (stage' : FlushStage α) :
    (t.withFlush stage').isDetached = false := by
  rcases flusher_cases hf with ⟨_, rfl⟩ | ⟨_, _, rfl⟩ <;> rfl

/-- A task that writes a pass stays a lookup of its cache, if it is one. -/
theorem Solo.owner_withPass (h : s.Solo space settings) (ht : s.task? id = some t) {p p' : Pass α}
    (hp : t.pass? = some p) {cache : Nat} {key : String} {now : Instant}
    {stage : LookupStage α ε} (heq : t.withPass p' = .lookup cache key now stage) : cache = 0 := by
  rcases writer_cases hp with ⟨_, _, _, _, rfl⟩ | ⟨_, _, rfl⟩ | ⟨_, rfl⟩ | ⟨_, _, _, rfl⟩
  · cases heq
    exact h.owner id _ _ _ _ ht
  all_goals cases heq

theorem ne_lookup_afterPass {p : Pass α} (hp : t.pass? = some p) (r : FlushReport) (cache : Nat)
    (key : String) (now : Instant) (stage : LookupStage α ε) :
    t.afterPass r ≠ .lookup cache key now stage := by
  rcases writer_cases hp with ⟨_, _, _, _, rfl⟩ | ⟨_, _, rfl⟩ | ⟨_, rfl⟩ | ⟨_, _, _, rfl⟩ <;>
    exact fun heq => by cases heq

theorem ne_lookup_withFlush {now : Instant} {stage : FlushStage α}
    (hf : t.flushing? = some (now, stage)) (stage' : FlushStage α) (cache : Nat) (key : String)
    (now' : Instant) (stage₁ : LookupStage α ε) :
    t.withFlush stage' ≠ .lookup cache key now' stage₁ := by
  rcases flusher_cases hf with ⟨_, rfl⟩ | ⟨_, _, rfl⟩ <;> exact fun heq => by cases heq

/-! ### Every step keeps to itself -/

/-- The next stage of a lookup whose cache may have changed on the way. -/
theorem Solo.lookup (h : s.Solo space settings) {cache : Nat} {key : String} {now : Instant}
    {stage stage' : LookupStage α ε} (ht : s.task? id = some (.lookup cache key now stage))
    (hs' : s'.Solo space settings) (htasks : ∀ k, s'.task? k = s.task? k)
    (hattached : settings.backgroundFlush = false →
      (Task.lookup cache key now stage').isDetached = false) :
    (s'.setTask id (.lookup cache key now stage')).Solo space settings := by
  refine hs'.goOn (htasks id ▸ ht) (fun _ => rfl) (fun cache' key' now' stage'' heq => ?_) hattached
  cases heq
  exact h.owner id cache key now stage ht

/-- The end of a task. -/
theorem Solo.endTask (h : s.Solo space settings) (t' : Task α ε) (hover : t'.isOver = true) :
    (s.setTask id t').Solo space settings := by
  refine h.setTask (fun hop => ?_) (fun cache key now stage heq => ?_) fun _ => ?_
  · cases t' <;> simp_all [Task.isOver, Task.isOperation]
  · rw [heq] at hover
    cases hover
  · cases t' <;> simp_all [Task.isOver, Task.isDetached]

/-- The next stage of a flush. -/
theorem Solo.withFlush (h : s.Solo space settings) (ht : s.task? id = some t) {now : Instant}
    {stage : FlushStage α} (hf : t.flushing? = some (now, stage)) (stage' : FlushStage α) :
    (s.setTask id (t.withFlush stage')).Solo space settings :=
  h.goOn ht (fun _ => isOperation_of_flushing? hf)
    (fun _ _ _ _ heq => absurd heq (ne_lookup_withFlush hf stage' _ _ _ _))
    fun _ => isDetached_withFlush hf stage'

/-- The cache takes up another state, set up as it was. -/
theorem Solo.keep (h : s.Solo space settings) {cache : Nat} {c : TieredCache α}
    (hc : s.cache? cache = some c) (c' : TieredCache α) (hspace : c'.space = c.space)
    (hpolicy : c'.policy = c.policy) (hbackground : c'.backgroundFlush = c.backgroundFlush)
    (httl : c'.writeBack.ttlSecs = c.writeBack.ttlSecs) :
    (s.setCache cache c').Solo space settings := by
  have hsetUp := h.setUp cache c hc
  exact h.setCache hc ⟨hspace.trans hsetUp.space, hpolicy.trans hsetUp.policy,
    hbackground.trans hsetUp.background, httl.trans hsetUp.ttl⟩

variable [Payload α] [DurableStore σ] {clock : Instant} {more : List (Happening α ε)}

/-- Every step of a task keeps to itself. -/
theorem Solo.turn (h : s.Solo space settings) (hturn : Turn s clock id t more s')
    (ht : s.task? id = some t) (hreason : ∀ t', s'.task? id = some t' → s.Reason t t') :
    s'.Solo space settings := by
  have hstore : ∀ store, ({ s with store } : System α ε σ).Solo space settings := fun _ =>
    h.congr (fun _ => rfl) fun _ => rfl
  have hreason' : ∀ {s₁ : System α ε σ} {t'}, s' = s₁.setTask id t' → s.Reason t t' := by
    intro s₁ t' heq
    refine hreason t' ?_
    rw [heq, task?_setTask, if_pos rfl]
  cases hturn with
  | idle => exact h
  | hot hc he hfresh =>
    exact h.lookup ht (h.keep hc _ rfl rfl rfl rfl) (fun _ => rfl) fun _ => rfl
  | cold hc => exact h.lookup ht (h.keep hc _ rfl rfl rfl rfl) (fun _ => rfl) fun _ => rfl
  | read store hget => exact h.lookup ht (hstore store) (fun _ => rfl) fun _ => rfl
  | durable hc hfresh =>
    exact h.lookup ht (h.keep hc _ rfl rfl rfl rfl) (fun _ => rfl) fun _ => rfl
  | call counters hc =>
    exact h.lookup ht (h.keep hc _ rfl rfl rfl rfl) (fun _ => rfl) fun _ => rfl
  | fetched payload hc =>
    exact h.lookup ht (h.keep hc _ rfl rfl rfl rfl) (fun _ => rfl) fun _ => rfl
  | refused err => exact h.lookup ht h (fun _ => rfl) fun _ => rfl
  | rest => exact h.endTask _ rfl
  | @hand cache key now answer c hc =>
    -- only a cache with passes in the background hands its batch out
    refine h.lookup ht (h.keep hc _ rfl rfl rfl rfl) (fun _ => rfl) fun hinline => ?_
    have hbackground : c.backgroundFlush = true := hreason' rfl c hc
    rw [(h.setUp cache c hc).background, hinline] at hbackground
    cases hbackground
  | begin hc => exact h.lookup ht (h.keep hc _ rfl rfl rfl rfl) (fun _ => rfl) fun _ => rfl
  | @detach key now answer cache batch =>
    have hadd : (s.add (.pass cache (.ofBatch batch))).2.Solo space settings := by
      refine h.add (fun hop => by cases hop) (fun _ _ _ _ heq => by cases heq) fun hinline => ?_
      have hattached := h.attached hinline id _ ht
      cases hattached
    refine Solo.endTask ?_ _ rfl
    exact hadd.congr (fun k => cache?_modify_inFlight _ cache k (· ++ [s.next])) fun _ => rfl
  | write store hp hcache hc hw ha =>
    exact (hstore store).goOn ht (fun hop => isOperation_withPass hp _ ▸ hop)
      (fun _ _ _ _ heq => h.owner_withPass ht hp heq)
      fun hinline => (isDetached_withPass hp _).trans (h.attached hinline id t ht)
  | broke store hp hcache hc hw => exact (hstore store).endTask _ rfl
  | @wrote _ cache c r hp hcache hc =>
    exact (h.keep hc (c.settle r) rfl rfl rfl rfl).goOn ht (isOperation_of_afterPass hp)
      (fun _ _ _ _ heq => absurd heq (ne_lookup_afterPass hp _ _ _ _ _))
      fun _ => isDetached_afterPass hp _
  | wake => exact h.goOn ht (fun _ => rfl) (fun _ _ _ _ heq => by cases heq) fun _ => rfl
  | @takeOver _ now cache slot hf hcache hslot =>
    have hslots : (s.setSlot cache { slot with inFlight := [] }).Solo space settings :=
      h.congr (fun k => cache?_setSlot s cache k hslot []) fun _ => rfl
    exact hslots.withFlush ht hf _
  | wait hf => exact h.withFlush ht hf _
  | join hf hover => exact h.withFlush ht hf _
  | @take _ now cache c hf hcache hc =>
    exact (h.keep hc (c.takeAll now).2 rfl rfl rfl rfl).withFlush ht hf _

/-- Every event of a sequential run keeps to itself. -/
theorem Advance.solo {ev : Event α ε σ} (hadvance : Advance s ev more s')
    (h : s.Solo space settings) : s'.Solo space settings := by
  cases hadvance with
  | idle => exact h
  | lookup hc hrest =>
    exact h.add (fun _ => hrest) (fun _ _ _ _ heq => by cases heq; exact h.zero _ _ hc) fun _ => rfl
  | flush hrest => exact h.add (fun _ => hrest) (fun _ _ _ _ heq => by cases heq) fun _ => rfl
  | invalidate hc hrest => exact h.keep hc _ rfl rfl rfl rfl
  | step ht hturn hreason => exact h.turn hturn ht hreason
  | disturb => exact h.congr (fun _ => rfl) fun _ => rfl

/-- A sequential run of a single cache keeps to itself. -/
theorem solo_run {store : σ} {startedAt : Instant} {events : List (Event α ε σ)}
    (hseq : (single store space settings startedAt).isSequential events = true) :
    ((single store space settings startedAt).run events).Solo space settings := by
  refine sequential_induction (P := fun events =>
    ((single store space settings startedAt).run events).Solo space settings) hseq
    (solo_single store space settings startedAt) fun before ev after hsplit hbefore hadvance h => ?_
  rw [run_concat]
  exact hadvance.solo h

end Solo

/-! ## What was asked for and fetched -/

/-- The latest entry of a key that was fetched. -/
def latest (log : List (Happening α ε)) (key : String) : Option (Entry α) :=
  (log.filterMap (·.fetched? key)).getLast?

section Latest

variable {log more : List (Happening α ε)} {key : String} {e : Entry α}

theorem latest_append (log more : List (Happening α ε)) (key : String) :
    latest (log ++ more) key = (latest more key).or (latest log key) := by
  rw [latest, List.filterMap_append, List.getLast?_append]
  rfl

theorem filterMap_fetched?_eq_nil (h : ∀ id cache e, .fetched id cache e ∉ more) (key : String) :
    more.filterMap (·.fetched? key) = [] := by
  refine List.filterMap_eq_nil_iff.mpr fun x hx => ?_
  cases x with
  | fetched id cache e => exact absurd hx (h id cache e)
  | _ => rfl

theorem latest_append_of_not_fetched (h : ∀ id cache e, .fetched id cache e ∉ more)
    (key : String) : latest (log ++ more) key = latest log key := by
  rw [latest_append, latest, filterMap_fetched?_eq_nil h]
  rfl

theorem latest_concat_fetched (log : List (Happening α ε)) (id cache : Nat) (e : Entry α)
    (key : String) : latest (log ++ [.fetched id cache e]) key =
      if e.key = key then some e else latest log key := by
  rw [latest_append]
  by_cases hkey : e.key = key
  · simp [latest, Happening.fetched?, hkey]
  · simp [latest, Happening.fetched?, hkey]

theorem exists_of_latest (h : latest log key = some e) :
    e.key = key ∧ ∃ id cache, .fetched id cache e ∈ log := by
  obtain ⟨x, hx, he⟩ := List.mem_filterMap.mp (List.mem_of_getLast? h)
  cases x with
  | fetched id cache e' =>
    rw [Happening.fetched?] at he
    split at he
    · next hkey =>
      cases he
      exact ⟨hkey, id, cache, hx⟩
    · cases he
  | _ => cases he

end Latest

/-- The times as of which lookups were asked for, the oldest first. -/
def times (log : List (Happening α ε)) : List Instant := log.filterMap Happening.time?

theorem mem_times_of_asked {log : List (Happening α ε)} {id cache : Nat} {q : LogicalQuery}
    {now : Instant} (h : .asked id cache q now ∈ log) : now ∈ times log :=
  List.mem_filterMap.mpr ⟨_, h, rfl⟩

theorem times_append (log more : List (Happening α ε)) :
    times (log ++ more) = times log ++ times more := List.filterMap_append

/-- Whether every lookup under way, and every one that fetched, was asked for: of a query with its
    key, as of its time. -/
structure Posed (space : String) (s : System α ε σ) (log : List (Happening α ε)) : Prop where
  tasks : ∀ id cache key now stage, s.task? id = some (.lookup cache key now stage) →
    ∃ q, .asked id cache q now ∈ log ∧ q.key space = key
  fetched : ∀ id cache e, .fetched id cache e ∈ log →
    ∃ q, .asked id cache q e.capturedAt ∈ log ∧ q.key space = e.key

section Posed

variable {space : String} {settings : CacheSettings} {s s' : System α ε σ} {clock : Instant}
  {id : Nat} {t : Task α ε} {log more : List (Happening α ε)}

theorem Posed.mem_times (h : s.Posed space log) {cache : Nat} {key : String} {now : Instant}
    {stage : LookupStage α ε} (ht : s.task? id = some (.lookup cache key now stage)) :
    now ∈ times log := by
  obtain ⟨q, hasked, -⟩ := h.tasks id cache key now stage ht
  exact mem_times_of_asked hasked

theorem Posed.mono (h : s.Posed space log) (more : List (Happening α ε))
    (hfetched : ∀ k cache e, .fetched k cache e ∈ more →
      ∃ q, .asked k cache q e.capturedAt ∈ log ∧ q.key space = e.key) :
    s.Posed space (log ++ more) where
  tasks k cache key now stage hk := by
    obtain ⟨q, hasked, hkey⟩ := h.tasks k cache key now stage hk
    exact ⟨q, List.mem_append_left more hasked, hkey⟩
  fetched k cache e he := by
    have hold : ∃ q, .asked k cache q e.capturedAt ∈ log ∧ q.key space = e.key := by
      rcases List.mem_append.mp he with he | he
      · exact h.fetched k cache e he
      · exact hfetched k cache e he
    obtain ⟨q, hasked, hkey⟩ := hold
    exact ⟨q, List.mem_append_left more hasked, hkey⟩

variable [Payload α] [DurableStore σ]

/-- After a step a task is the one that took it, or is as it was, or is a new pass in the
    background. -/
theorem Turn.task?_cases (hturn : Turn s clock id t more s') {k : Nat} {t' : Task α ε}
    (hk : s'.task? k = some t') :
    k = id ∨ s.task? k = some t' ∨ ∃ cache p, t' = .pass cache p := by
  cases hturn with
  | idle => exact Or.inr (Or.inl hk)
  | @detach key now answer cache batch =>
    rw [task?_setTask] at hk
    split at hk
    · next heq => exact Or.inl heq.symm
    · have hnew : (s.setTask s.next (.pass cache (.ofBatch batch))).task? k = some t' := hk
      rw [task?_setTask] at hnew
      split at hnew
      · cases hnew
        exact Or.inr (Or.inr ⟨cache, _, rfl⟩)
      · exact Or.inr (Or.inl hnew)
  | _ =>
    rw [task?_setTask] at hk
    split at hk
    · next heq => exact Or.inl heq.symm
    · exact Or.inr (Or.inl hk)

/-- Only an operation, or a pass in the background, moves on. -/
theorem Turn.eq_of_not_isOperation (hturn : Turn s clock id t more s')
    (hop : t.isOperation = false) (hdetached : t.isDetached = false) : more = [] ∧ s' = s := by
  have hwriter : ∀ {p : Pass α}, t.pass? ≠ some p := fun hp => by
    rcases writer_cases hp with ⟨_, _, _, _, rfl⟩ | ⟨_, _, rfl⟩ | ⟨_, rfl⟩ | ⟨_, _, _, rfl⟩
    · cases hop
    · cases hop
    · cases hdetached
    · cases hop
  have hflusher : ∀ {now : Instant} {stage : FlushStage α}, t.flushing? ≠ some (now, stage) :=
    fun hf => by cases (isOperation_of_flushing? hf).symm.trans hop
  cases hturn with
  | idle => exact ⟨rfl, rfl⟩
  | write store hp hcache hc hw ha => exact absurd hp hwriter
  | broke store hp hcache hc hw => exact absurd hp hwriter
  | wrote hp hcache hc => exact absurd hp hwriter
  | takeOver hf hcache hslot => exact absurd hf hflusher
  | wait hf => exact absurd hf hflusher
  | join hf hover => exact absurd hf hflusher
  | take hf hcache hc => exact absurd hf hflusher
  | _ => cases hop

/-- No step asks for a lookup. -/
theorem Turn.times_eq_nil (hturn : Turn s clock id t more s') : times more = [] := by
  cases hturn with
  | wrote hp hcache hc => split <;> rfl
  | _ => rfl

/-- All that a step can do to a lookup that goes on, told as far as the provider's answer. -/
inductive Onward (s : System α ε σ) (clock : Instant) (id cache : Nat) (key : String)
    (now : Instant) : LookupStage α ε → LookupStage α ε → System α ε σ → Prop where
  | stays {stage} : Onward s clock id cache key now stage stage s
  | cold {c} (hc : s.cache? cache = some c) :
      Onward s clock id cache key now .asking .reading
        ((s.setCache cache c).setTask id (.lookup cache key now .reading))
  | read {r} (store : σ) (hget : DurableStore.get s.store clock key = (r, store)) :
      Onward s clock id cache key now .reading (.judging (.ofBytes r))
        (setTask { s with store } id (.lookup cache key now (.judging (.ofBytes r))))
  | call {r c} (counters : CacheStats) (hc : s.cache? cache = some c) :
      Onward s clock id cache key now (.judging r) .fetching
        ((s.setCache cache { c with counters }).setTask id (.lookup cache key now .fetching))
  /-- It has its answer. -/
  | settles {stage stage' s'} (h : stage'.isSeeking = false) :
      Onward s clock id cache key now stage stage' s'

/-- A lookup that goes on is of the same key and time. -/
theorem Turn.onward (hturn : Turn s clock id t more s') (ht : s.task? id = some t)
    {cache : Nat} {key : String} {now : Instant} {stage' : LookupStage α ε}
    (hid : s'.task? id = some (.lookup cache key now stage')) :
    ∃ stage, t = .lookup cache key now stage ∧
      Onward s clock id cache key now stage stage' s' := by
  have hset : ∀ {s₁ : System α ε σ} {t'}, s' = s₁.setTask id t' →
      t' = .lookup cache key now stage' := fun heq => by
    rw [heq, task?_setTask, if_pos rfl] at hid
    exact Option.some.inj hid
  cases hturn with
  | idle =>
    rw [ht] at hid
    exact ⟨stage', Option.some.inj hid, Onward.stays⟩
  | cold hc =>
    cases hset rfl
    exact ⟨.asking, rfl, Onward.cold hc⟩
  | read store hget =>
    cases hset rfl
    exact ⟨.reading, rfl, Onward.read store hget⟩
  | @call _ _ _ r c counters hc =>
    cases hset rfl
    exact ⟨.judging r, rfl, Onward.call counters hc⟩
  | write store hp hcache hc hw ha =>
    have heq := hset rfl
    rcases writer_cases hp with ⟨_, _, _, _, rfl⟩ | ⟨_, _, rfl⟩ | ⟨_, rfl⟩ | ⟨_, _, _, rfl⟩ <;>
      cases heq
    exact ⟨_, rfl, Onward.settles rfl⟩
  | wrote hp hcache hc => exact absurd (hset rfl) (ne_lookup_afterPass hp _ _ _ _ _)
  | takeOver hf hcache hslot => exact absurd (hset rfl) (ne_lookup_withFlush hf _ _ _ _ _)
  | wait hf => exact absurd (hset rfl) (ne_lookup_withFlush hf _ _ _ _ _)
  | join hf hover => exact absurd (hset rfl) (ne_lookup_withFlush hf _ _ _ _ _)
  | take hf hcache hc => exact absurd (hset rfl) (ne_lookup_withFlush hf _ _ _ _ _)
  | _ => cases hset rfl <;> exact ⟨_, rfl, Onward.settles rfl⟩

/-- An entry that a lookup is to judge was to be judged before, or has just been read. -/
theorem Onward.judging_cases {cache : Nat} {key : String} {now : Instant}
    {stage : LookupStage α ε} {e : Entry α}
    (h : Onward s clock id cache key now stage (.judging (.found e)) s') :
    stage = .judging (.found e) ∨ stage = .reading ∧
      DurableRead.ofBytes (DurableStore.get s.store clock key).1 = .found e := by
  generalize hstage : LookupStage.judging (.found e) = stage' at h
  cases h with
  | stays => exact Or.inl rfl
  | @read r store hget =>
    rw [hget]
    exact Or.inr ⟨rfl, (LookupStage.judging.inj hstage).symm⟩
  | cold hc => cases hstage
  | call counters hc => cases hstage
  | settles hanswered =>
    rw [← hstage] at hanswered
    cases hanswered

/-- A lookup that fetches was at its call of the provider, and the entry is of its key and
    time. -/
theorem Turn.exists_of_fetched (hturn : Turn s clock id t more s') {k cache : Nat} {e : Entry α}
    (h : .fetched k cache e ∈ more) :
    k = id ∧ ∃ c, s.cache? cache = some c ∧ t = .lookup cache e.key e.capturedAt .fetching ∧
      more = [.fetched id cache e] ∧
      s' = (s.setCache cache (c.storeFetched e)).setTask id
        (.lookup cache e.key e.capturedAt (.closing (.ok (.fetched e)))) := by
  cases hturn with
  | fetched payload hc =>
    cases List.mem_singleton.mp h
    exact ⟨rfl, _, hc, rfl, rfl, rfl⟩
  | wrote hp hcache hc =>
    split at h
    · simp at h
    · simp at h
  | _ => simp at h

/-- Every event keeps track of what was asked for. -/
theorem Posed.advance (h : s.Posed space log) (hsolo : s.Solo space settings)
    {ev : Event α ε σ} (hadvance : Advance s ev more s') : s'.Posed space (log ++ more) := by
  cases hadvance with
  | idle => exact h.mono [] (by simp)
  | @lookup cache q now c hc hrest =>
    have hmore := h.mono [.asked s.next cache q now] (by simp)
    refine ⟨fun k cache' key now' stage hk => ?_, hmore.fetched⟩
    have hset : (s.setTask s.next (.lookup cache (c.keyFor q) now .asking)).task? k =
        some (.lookup cache' key now' stage) := hk
    rw [task?_setTask] at hset
    split at hset
    · next heq =>
      cases hset
      rw [← heq]
      refine ⟨q, List.mem_append_right log List.mem_cons_self, ?_⟩
      rw [TieredCache.keyFor, (hsolo.setUp cache c hc).space]
    · exact hmore.tasks k cache' key now' stage hset
  | @flush cache now hrest =>
    have hmore := h.mono [] (by simp)
    refine ⟨fun k cache' key now' stage hk => ?_, hmore.fetched⟩
    have hset : (s.setTask s.next (.flush cache now .starting)).task? k =
        some (.lookup cache' key now' stage) := hk
    rw [task?_setTask] at hset
    split at hset
    · cases hset
    · exact hmore.tasks k cache' key now' stage hset
  | invalidate hc hrest =>
    have hmore := h.mono [] (by simp)
    exact ⟨hmore.tasks, hmore.fetched⟩
  | @step clock outcome id t _ _ ht hturn hreason =>
    have hmore : s.Posed space (log ++ more) := by
      refine h.mono more fun k cache e he => ?_
      obtain ⟨rfl, c, hc, rfl, -⟩ := hturn.exists_of_fetched he
      exact h.tasks _ cache _ _ _ ht
    refine ⟨fun k cache key now stage hk => ?_, hmore.fetched⟩
    rcases hturn.task?_cases hk with rfl | hold | ⟨_, _, hpass⟩
    · obtain ⟨stage', rfl, -⟩ := hturn.onward ht hk
      exact hmore.tasks _ cache key now stage' ht
    · exact hmore.tasks k cache key now stage hold
    · cases hpass
  | disturb =>
    have hmore := h.mono [] (by simp)
    exact ⟨hmore.tasks, hmore.fetched⟩

/-- What was asked for in a sequential run of a single cache. -/
theorem posed_run {store : σ} {startedAt : Instant} {events : List (Event α ε σ)}
    (hseq : (single store space settings startedAt).isSequential events = true) :
    ((single store space settings startedAt).run events).Posed space
      ((single store space settings startedAt).history events) := by
  refine sequential_induction (P := fun events =>
    ((single store space settings startedAt).run events).Posed space
      ((single store space settings startedAt).history events)) hseq
    ⟨fun k cache key now stage hk => ?_, fun _ _ _ he => absurd he List.not_mem_nil⟩
    fun before ev after hsplit hbefore hadvance h => ?_
  · have hnone : (single store space settings startedAt).task? k =
        some (Task.lookup (ε := ε) cache key now stage) := hk
    rw [task?_ofSpecs] at hnone
    cases hnone
  · rw [run_concat, history_concat]
    exact h.advance (solo_run hbefore) hadvance

end Posed

end System

end MarketCache
