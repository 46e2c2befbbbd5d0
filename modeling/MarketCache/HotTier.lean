import Std.Data.ExtTreeMap
import MarketCache.Entry

/-!
# The hot tier

The entries that a process has at hand, one for each key. It knows nothing of freshness:
whoever asks decides whether an entry still serves.

Results say what each operation does to `get?`.
-/

namespace MarketCache

/-- Entries by their keys. -/
structure HotTier (α : Type) where
  entries : Std.ExtTreeMap String (Entry α) compare

namespace HotTier

variable {α : Type}

/-- The tier without entries. -/
def empty : HotTier α := ⟨∅⟩

/-- The entry kept under a key. -/
def get? (h : HotTier α) (key : String) : Option (Entry α) := h.entries[key]?

/-- The tier with an entry under the entry's own key. -/
def set (h : HotTier α) (e : Entry α) : HotTier α := ⟨h.entries.insert e.key e⟩

/-- The tier without an entry under a key. -/
def clear (h : HotTier α) (key : String) : HotTier α := ⟨h.entries.erase key⟩

/-- Whether there is an entry under a key. -/
def contains (h : HotTier α) (key : String) : Bool := h.entries.contains key

/-- The number of entries. -/
def size (h : HotTier α) : Nat := h.entries.size

/-- Whether there is no entry. -/
def isEmpty (h : HotTier α) : Bool := h.entries.isEmpty

@[simp] theorem get?_empty (key : String) : (empty : HotTier α).get? key = none := by
  simp [get?, empty]

theorem get?_set (h : HotTier α) (e : Entry α) (key : String) :
    (h.set e).get? key = if e.key = key then some e else h.get? key := by
  simp [get?, set, Std.ExtTreeMap.getElem?_insert]

theorem get?_clear (h : HotTier α) (k key : String) :
    (h.clear k).get? key = if k = key then none else h.get? key := by
  simp [get?, clear, Std.ExtTreeMap.getElem?_erase]

theorem contains_eq_isSome (h : HotTier α) (key : String) :
    h.contains key = (h.get? key).isSome := by
  simp [contains, get?]

end HotTier

end MarketCache
