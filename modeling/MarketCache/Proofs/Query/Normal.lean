import MarketCache.Proofs.Query.Calls

/-!
# Normal spellings

The symbols of a query are in their normal spelling, each is there once, and none is blank. So a
query comes back from its own symbols, and a query out of a list between commas also from the text
to which its symbols are joined.

Results:
* `Symbol.normal_normal`: a normal spelling is its own.
* `LogicalQuery.ofSymbols_symbols`, `LogicalQuery.ofSymbolList_joinedSymbols`: a query comes back.
* `LogicalQuery.fields_joinedSymbols`: the joined text and the symbols.
* `LogicalQuery.normal_fixed`: all of it.
-/

namespace MarketCache

/-! ## Spellings -/

namespace Symbol

/-- A normal spelling is trimmed. -/
theorem isTrimmed_normal (s : String) : Text.IsTrimmed (normal s).toList := by
  rw [normal, String.toList_ofList]
  exact (Text.isTrimmed_trim s.toList).upper

/-- A normal spelling is its own. -/
theorem normal_normal (s : String) : normal (normal s) = normal s := by
  have htrim : Text.trim (normal s).toList = (normal s).toList :=
    Text.trim_eq_iff.mpr ⟨isTrimmed_normal s, [], [], by simp, rfl, rfl⟩
  rw [normal, htrim]
  unfold normal
  rw [String.toList_ofList, Text.upper_upper]

end Symbol

namespace LogicalQuery

/-! ## The symbols of a query -/

/-- Symbols follow each other in increasing order. -/
theorem pairwise_symbols (q : LogicalQuery) : q.symbols.Pairwise (· < ·) := by
  refine Std.ExtTreeSet.ordered_toList.imp fun {a b} h => ?_
  exact compareOfLessAndEq_eq_lt.mp h

theorem mem_symbols_ofSymbols {raw : List String} {s : String} :
    s ∈ (ofSymbols raw).symbols ↔ s.isEmpty = false ∧ ∃ r ∈ raw, Symbol.normal r = s := by
  rw [symbols, Std.ExtTreeSet.mem_toList, mem_symbolSet_ofSymbols]

/-- The symbols of a query are in their normal spelling. -/
theorem normal_of_mem_symbols {raw : List String} {s : String} (h : s ∈ (ofSymbols raw).symbols) :
    Symbol.normal s = s := by
  obtain ⟨-, r, -, rfl⟩ := mem_symbols_ofSymbols.mp h
  exact Symbol.normal_normal r

/-- No symbol of a query is blank. -/
theorem isBlankText_of_mem_symbols {raw : List String} {s : String}
    (h : s ∈ (ofSymbols raw).symbols) : Text.isBlankText s = false := by
  obtain ⟨hnonempty, r, -, rfl⟩ := mem_symbols_ofSymbols.mp h
  have htrimmed := Symbol.isTrimmed_normal r
  unfold Text.isBlankText
  rcases hchars : (Symbol.normal r).toList with _ | ⟨c, cs⟩
  · rw [String.toList_eq_nil_iff.mp hchars] at hnonempty
    cases hnonempty
  · rw [hchars] at htrimmed
    rw [List.all_cons, htrimmed.head c rfl, Bool.false_and]

/-- A query comes back from its symbols. -/
theorem ofSymbols_symbols (raw : List String) :
    ofSymbols (ofSymbols raw).symbols = ofSymbols raw := by
  refine eq_iff.mpr ⟨Std.ExtTreeSet.ext_mem fun s => ?_, rfl⟩
  rw [mem_symbolSet_ofSymbols]
  constructor
  · rintro ⟨-, r, hr, rfl⟩
    rw [normal_of_mem_symbols hr]
    exact Std.ExtTreeSet.mem_toList.mp hr
  · intro hs
    have hmem : s ∈ (ofSymbols raw).symbols := Std.ExtTreeSet.mem_toList.mpr hs
    exact ⟨(mem_symbols_ofSymbols.mp hmem).1, s, hmem, normal_of_mem_symbols hmem⟩

/-! ## The joined text -/

/-- The joined text of a query with symbols has the symbols between its commas. -/
theorem fields_joinedSymbols {q : LogicalQuery} (h : q.IsPlain) (hne : q.symbols ≠ []) :
    (Text.fields ',' q.joinedSymbols.toList).map String.ofList = q.symbols := by
  have hne' : q.symbols.map String.toList ≠ [] := fun hnil => hne (List.map_eq_nil_iff.mp hnil)
  rw [joinedSymbols, String.toList_ofList, Text.fields_join hne' h.not_mem_symbols, List.map_map]
  exact List.map_id'' (fun s => String.ofList_toList) q.symbols

/-- A query comes back from the text to which its symbols are joined. -/
theorem ofSymbolList_joinedSymbols (list : String) :
    ofSymbolList (ofSymbolList list).joinedSymbols = ofSymbolList list := by
  by_cases hnil : (ofSymbolList list).symbols = []
  · have hjoined : (ofSymbolList list).joinedSymbols = "" := by
      rw [joinedSymbols, hnil]
      rfl
    have hempty (s : String) : s ∉ (ofSymbolList list).symbolSet := by
      rw [← Std.ExtTreeSet.mem_toList, ← symbols, hnil]
      exact List.not_mem_nil
    rw [hjoined]
    refine eq_iff.mpr ⟨Std.ExtTreeSet.ext_mem fun s => iff_of_false (fun hs => ?_) (hempty s), rfl⟩
    -- the empty text has one field, whose symbol is blank
    obtain ⟨hnonempty, r, hr, rfl⟩ := mem_symbolSet_ofSymbols.mp hs
    rw [List.mem_singleton.mp hr] at hnonempty
    cases hnonempty
  · conv_lhs => rw [ofSymbolList, fields_joinedSymbols (isPlain_ofSymbolList list) hnil]
    exact ofSymbols_symbols _

/-- Normalising symbols once more changes nothing: the query for the symbols of a query is that
    query, and so is the one out of its joined text, with the same joined text and the same key in
    every namespace. That text is empty, or has between its commas the symbols in strictly
    increasing order, of which none is blank and none is there twice. -/
theorem normal_fixed :
    (∀ raw : List String, ofSymbols (ofSymbols raw).symbols = ofSymbols raw) ∧
    (∀ list : String,
      ofSymbolList (ofSymbolList list).joinedSymbols = ofSymbolList list ∧
      (ofSymbolList (ofSymbolList list).joinedSymbols).joinedSymbols =
        (ofSymbolList list).joinedSymbols ∧
      ∀ space, (ofSymbolList (ofSymbolList list).joinedSymbols).key space =
        (ofSymbolList list).key space) ∧
    (∀ list : String,
      (ofSymbolList list).joinedSymbols = "" ∧ (ofSymbolList list).symbols = [] ∨
      ∃ parts,
        (Text.fields ',' (ofSymbolList list).joinedSymbols.toList).map String.ofList = parts ∧
        (ofSymbolList list).symbols = parts ∧ parts.Pairwise (· < ·) ∧ parts.Nodup ∧
        ∀ s ∈ parts, Text.isBlankText s = false) := by
  refine ⟨ofSymbols_symbols, fun list => ?_, fun list => ?_⟩
  · have hback := ofSymbolList_joinedSymbols list
    exact ⟨hback, by rw [hback], fun space => by rw [hback]⟩
  · by_cases hnil : (ofSymbolList list).symbols = []
    · left
      rw [joinedSymbols, hnil]
      exact ⟨rfl, rfl⟩
    · right
      have hordered := pairwise_symbols (ofSymbolList list)
      refine ⟨_, fields_joinedSymbols (isPlain_ofSymbolList list) hnil, rfl, hordered, ?_,
        fun s hs => isBlankText_of_mem_symbols hs⟩
      exact hordered.imp fun {a b} (h : a < b) (heq : a = b) => String.lt_irrefl b (heq ▸ h)

end LogicalQuery

end MarketCache
