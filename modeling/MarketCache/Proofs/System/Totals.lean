import MarketCache.Proofs.System.Run

/-!
# Sums over tasks

Each task of a system may weigh something: the records that it holds, or one if it is at a
certain stage. A sum of such weights changes with the one task that a step sets.

Main definitions:
* `System.total`: a weight of tasks, summed over a system.

Results:
* `total_setTask`, `total_add`, `total_detach`: what a sum is after a task has gone on, after a new
  one was started, and after one that ends has left another one behind.
-/

namespace MarketCache

variable {α ε σ : Type}

/-- The sum of a function over the numbers below a bound. -/
def rangeSum (f : Nat → Nat) : Nat → Nat
  | 0 => 0
  | n + 1 => rangeSum f n + f n

theorem rangeSum_congr {f g : Nat → Nat} {n : Nat} (h : ∀ i < n, f i = g i) :
    rangeSum f n = rangeSum g n := by
  induction n with
  | zero => rfl
  | succ n ih =>
    rw [rangeSum, rangeSum, h n (Nat.lt_succ_self n), ih fun i hi => h i (Nat.lt_succ_of_lt hi)]

/-- Two functions that differ at one number. -/
theorem rangeSum_of_eq_off {f g : Nat → Nat} {n id : Nat} (hid : id < n)
    (hoff : ∀ i, i ≠ id → g i = f i) : rangeSum g n + f id = rangeSum f n + g id := by
  induction n with
  | zero => omega
  | succ n ih =>
    rw [rangeSum, rangeSum]
    by_cases hlast : id = n
    · subst hlast
      rw [rangeSum_congr fun i hi => hoff i (Nat.ne_of_lt hi)]
      omega
    · have hrec := ih (by omega)
      rw [hoff n (Ne.symm hlast)]
      omega

theorem countP_range (p : Nat → Bool) (n : Nat) :
    (List.range n).countP p = rangeSum (fun i => (p i).toNat) n := by
  induction n with
  | zero => rfl
  | succ n ih =>
    rw [List.range_succ, List.countP_append, List.countP_singleton, ih, rangeSum]
    rcases p n <;> rfl

namespace System

/-- A weight of tasks, summed over the tasks of a system. -/
def total (s : System α ε σ) (weight : Task α ε → Nat) : Nat :=
  rangeSum (fun id => ((s.task? id).map weight).getD 0) s.next

section Totals

variable {s : System α ε σ} {id : Nat} {t : Task α ε}

/-- A task that goes on changes a sum by what it weighs more. -/
theorem total_setTask (s₁ : System α ε σ) (htasks : s₁.tasks = s.tasks)
    (hnext : s₁.next = s.next) (hid : id < s.next) (ht : s.task? id = some t) (t' : Task α ε)
    (weight : Task α ε → Nat) :
    (s₁.setTask id t').total weight + weight t = s.total weight + weight t' := by
  have hold : ∀ i, s₁.task? i = s.task? i := fun i => by
    unfold task?
    rw [htasks]
  have hsum := rangeSum_of_eq_off (f := fun i => ((s.task? i).map weight).getD 0)
    (g := fun i => (((s₁.setTask id t').task? i).map weight).getD 0) hid fun i hi => by
      simp only [task?_setTask, if_neg (Ne.symm hi), hold]
  simp only [task?_setTask_self, ht, Option.map_some, Option.getD_some] at hsum
  have hnext' : (s₁.setTask id t').next = s.next := hnext
  unfold total
  rw [hnext']
  exact hsum

theorem total_add (t : Task α ε) (weight : Task α ε → Nat) :
    (s.add t).2.total weight = s.total weight + weight t := by
  have hold : rangeSum (fun i => (((s.add t).2.task? i).map weight).getD 0) s.next =
      s.total weight := rangeSum_congr fun i hi => by
    rw [task?_add_of_ne s t (Nat.ne_of_lt hi)]
  have hnext : (s.add t).2.next = s.next + 1 := rfl
  rw [total, hnext, rangeSum, hold, task?_add_self]
  rfl

/-- A task ends and leaves another one behind. -/
theorem total_detach (hid : id < s.next) (ht : s.task? id = some t) (pass t' : Task α ε)
    (slots : List (Slot α)) (weight : Task α ε → Nat) :
    (setTask { (s.add pass).2 with slots } id t').total weight + weight t =
      s.total weight + weight pass + weight t' := by
  have ht' : (s.add pass).2.task? id = some t := by
    rw [task?_add_of_ne s pass (Nat.ne_of_lt hid), ht]
  have hsum := total_setTask (s := (s.add pass).2) { (s.add pass).2 with slots } rfl rfl
    (Nat.lt_succ_of_lt hid) ht' t' weight
  rw [total_add] at hsum
  exact hsum

theorem total_eq_zero {weight : Task α ε → Nat}
    (h : ∀ id t, s.task? id = some t → weight t = 0) : s.total weight = 0 := by
  have hzero : ∀ n, rangeSum (fun _ => 0) n = 0 := fun n => by
    induction n with
    | zero => rfl
    | succ n ih => exact ih
  rw [← hzero s.next]
  refine rangeSum_congr fun i _ => ?_
  rcases ht : s.task? i with _ | t
  · rfl
  · exact h i t ht

/-- What holds of all tasks, told from the list of them. -/
theorem task_of_all {p : Task α ε → Bool} (h : (s.tasks.toList.all fun (_, t) => p t) = true)
    (id : Nat) (t : Task α ε) (ht : s.task? id = some t) : p t = true :=
  List.all_eq_true.mp h (id, t) (Std.ExtTreeMap.mem_toList_iff_getElem?_eq_some.mpr ht)

end Totals

end System

end MarketCache
