import Mathlib.Data.Set.Insert
import MarketCache.Query.Key

/-!
# Keys tell queries apart

A key is a concatenation of components of any length, and each of them may contain every
character that separates components. It can still be read in one way only: an escaped
component ends where the first separator without a backslash in front of it stands. The
lemmas below compare two keys from left to right, one component after the other, each with
an arbitrary rest behind it.

Results:
* `escape_append_inj`: an escaped component and what follows it determine each other's text.
* `key_eq_iff`: queries without blank symbols have equal keys iff namespaces and queries agree.
* `key_ofSymbols_eq_iff`: the same for queries made from raw symbols and filters.
-/

namespace MarketCache

/-- The spellings to which a list of raw symbols amounts, the blank one left out. -/
def Symbol.spellings (raw : List String) : Set String :=
  {s | ∃ r ∈ raw, Symbol.normal r = s} \ {""}

/-- The query with more filters behind its own, in order. -/
def LogicalQuery.withFilters (q : LogicalQuery) (filters : List QueryFilter) : LogicalQuery :=
  filters.foldl (fun q f => q.withFilter f.name f.value) q

namespace Key

/-! ## Components -/

/-- Where a component has ended: at the end of the text, or at a separator that is not the
    backslash of an escape. -/
def AtBoundary (cs : List Char) : Prop :=
  ∀ c ∈ cs.head?, isSeparator c = true ∧ c ≠ '\\'

theorem atBoundary_cons {c : Char} {cs : List Char} (h : isSeparator c = true) (h' : c ≠ '\\') :
    AtBoundary (c :: cs) := by
  simp [AtBoundary, h, h']

/-- The first character of an escaped component is a backslash or no separator. -/
theorem not_atBoundary_escape_cons (c : Char) (cs r : List Char) :
    ¬ AtBoundary (escape (c :: cs) ++ r) := by
  intro h
  by_cases hc : isSeparator c = true
  · simp [AtBoundary, hc] at h
  · simp [AtBoundary, hc] at h

/-- The first characters of two escaped components are equal if the texts are: the backslash is
    a separator itself, so an escaped character never looks like a plain one. -/
theorem escape_cons_append_inj {c d : Char} {a b r s : List Char}
    (h : escape (c :: a) ++ r = escape (d :: b) ++ s) :
    c = d ∧ escape a ++ r = escape b ++ s := by
  have hslash : isSeparator '\\' = true := by decide
  rw [escape_cons, escape_cons, List.append_assoc, List.append_assoc] at h
  by_cases hc : isSeparator c = true <;> by_cases hd : isSeparator d = true
  · rw [if_pos hc, if_pos hd] at h
    simpa using h
  · rw [if_pos hc, if_neg hd] at h
    have hd' : '\\' = d := (List.cons.inj h).1
    exact absurd (hd' ▸ hslash) hd
  · rw [if_neg hc, if_pos hd] at h
    have hc' : c = '\\' := (List.cons.inj h).1
    exact absurd (hc' ▸ hslash) hc
  · rw [if_neg hc, if_neg hd] at h
    simpa using h

/-- Two components with their rests are equal only if the components and the rests are. -/
theorem escape_append_inj {a b r s : List Char} (hr : AtBoundary r) (hs : AtBoundary s)
    (h : escape a ++ r = escape b ++ s) : a = b ∧ r = s := by
  induction a generalizing b with
  | nil =>
    cases b with
    | nil => exact ⟨rfl, h⟩
    | cons d b =>
      rw [escape_nil, List.nil_append] at h
      rw [h] at hr
      exact absurd hr (not_atBoundary_escape_cons d b s)
  | cons c a ih =>
    cases b with
    | nil =>
      rw [escape_nil, List.nil_append] at h
      rw [← h] at hs
      exact absurd hs (not_atBoundary_escape_cons c a r)
    | cons d b =>
      obtain ⟨rfl, htail⟩ := escape_cons_append_inj h
      obtain ⟨rfl, hrs⟩ := ih htail
      exact ⟨rfl, hrs⟩

/-! ## Symbols -/

/-- What follows the first of some joined symbols: each further one behind a comma. -/
def moreSymbols (as : List (List Char)) : List Char := as.flatMap fun a => ',' :: escape a

theorem join_map_escape (a : List Char) (as : List (List Char)) :
    Text.join ',' ((a :: as).map escape) = escape a ++ moreSymbols as := by
  induction as generalizing a with
  | nil => simp [Text.join, moreSymbols]
  | cons b as ih =>
    have hb := ih b
    rw [List.map_cons] at hb
    rw [List.map_cons, List.map_cons, Text.join, hb]
    simp [moreSymbols]

/-- Where the filters of a key begin, or the key ends. -/
def AtFilters (cs : List Char) : Prop := ∀ c ∈ cs.head?, c = '|'

theorem AtFilters.atBoundary {cs : List Char} (h : AtFilters cs) : AtBoundary cs := by
  intro c hc
  rw [h c hc]
  decide

theorem atBoundary_moreSymbols (as : List (List Char)) {r : List Char} (hr : AtFilters r) :
    AtBoundary (moreSymbols as ++ r) := by
  cases as with
  | nil => simpa [moreSymbols] using hr.atBoundary
  | cons a as => simp [AtBoundary, moreSymbols, isSeparator]

theorem moreSymbols_append_inj {as bs : List (List Char)} {r s : List Char} (hr : AtFilters r)
    (hs : AtFilters s) (h : moreSymbols as ++ r = moreSymbols bs ++ s) : as = bs ∧ r = s := by
  induction as generalizing bs with
  | nil =>
    cases bs with
    | nil => exact ⟨rfl, h⟩
    | cons b bs =>
      have hcomma : ',' ∈ r.head? := by
        have h' : r = moreSymbols (b :: bs) ++ s := h
        simp [h', moreSymbols]
      exact absurd (hr ',' hcomma) (by decide)
  | cons a as ih =>
    cases bs with
    | nil =>
      have hcomma : ',' ∈ s.head? := by
        have h' : s = moreSymbols (a :: as) ++ r := h.symm
        simp [h', moreSymbols]
      exact absurd (hs ',' hcomma) (by decide)
    | cons b bs =>
      have h' : escape a ++ (moreSymbols as ++ r) = escape b ++ (moreSymbols bs ++ s) := by
        simpa [moreSymbols] using h
      obtain ⟨rfl, h''⟩ :=
        escape_append_inj (atBoundary_moreSymbols as hr) (atBoundary_moreSymbols bs hs) h'
      obtain ⟨rfl, hrs⟩ := ih h''
      exact ⟨rfl, hrs⟩

/-- No symbols and some symbols look different, because no symbol is blank. -/
theorem join_ne_of_ne_nil {b : List Char} {bs : List (List Char)} {r s : List Char}
    (hb : b ≠ []) (hr : AtFilters r) : r ≠ Text.join ',' ((b :: bs).map escape) ++ s := by
  intro h
  obtain ⟨c, cs, rfl⟩ := List.exists_cons_of_ne_nil hb
  rw [join_map_escape, List.append_assoc] at h
  have hbound := hr.atBoundary
  rw [h] at hbound
  exact not_atBoundary_escape_cons c cs _ hbound

theorem join_append_inj {as bs : List (List Char)} {r s : List Char} (ha : [] ∉ as)
    (hb : [] ∉ bs) (hr : AtFilters r) (hs : AtFilters s)
    (h : Text.join ',' (as.map escape) ++ r = Text.join ',' (bs.map escape) ++ s) :
    as = bs ∧ r = s := by
  cases as with
  | nil =>
    cases bs with
    | nil => exact ⟨rfl, h⟩
    | cons b bs =>
      have hne : b ≠ [] := fun e => hb (e ▸ List.mem_cons_self)
      exact absurd h (join_ne_of_ne_nil hne hr)
  | cons a as =>
    cases bs with
    | nil =>
      have hne : a ≠ [] := fun e => ha (e ▸ List.mem_cons_self)
      exact absurd h.symm (join_ne_of_ne_nil hne hs)
    | cons b bs =>
      rw [join_map_escape, join_map_escape, List.append_assoc, List.append_assoc] at h
      obtain ⟨rfl, h'⟩ :=
        escape_append_inj (atBoundary_moreSymbols as hr) (atBoundary_moreSymbols bs hs) h
      obtain ⟨rfl, hrs⟩ := moreSymbols_append_inj hr hs h'
      exact ⟨rfl, hrs⟩

/-! ## Filters -/

theorem atFilters_flatMap (fs : List QueryFilter) : AtFilters (fs.flatMap filterText) := by
  cases fs with
  | nil => simp [AtFilters]
  | cons f fs => simp [AtFilters, filterText]

/-- The mark of a value and the value behind the name of a filter. -/
def valueText : Option String → List Char
  | some v => '=' :: escape v.toList
  | none => ['~']

theorem filterText_eq (f : QueryFilter) :
    filterText f = '|' :: escape f.name.toList ++ valueText f.value := by
  cases f with
  | mk name value => cases value <;> rfl

theorem atBoundary_valueText (v : Option String) (r : List Char) :
    AtBoundary (valueText v ++ r) := by
  cases v <;> simp [AtBoundary, valueText, isSeparator]

theorem valueText_append_inj {v w : Option String} {r s : List Char} (hr : AtFilters r)
    (hs : AtFilters s) (h : valueText v ++ r = valueText w ++ s) : v = w ∧ r = s := by
  cases v with
  | none =>
    cases w with
    | none => simpa [valueText] using h
    | some w => simp [valueText] at h
  | some v =>
    cases w with
    | none => simp [valueText] at h
    | some w =>
      simp only [valueText, List.cons_append, List.cons.injEq, true_and] at h
      obtain ⟨hvw, hrs⟩ := escape_append_inj hr.atBoundary hs.atBoundary h
      exact ⟨congrArg some (String.toList_inj.mp hvw), hrs⟩

theorem flatMap_filterText_inj {fs gs : List QueryFilter}
    (h : fs.flatMap filterText = gs.flatMap filterText) : fs = gs := by
  induction fs generalizing gs with
  | nil =>
    cases gs with
    | nil => rfl
    | cons g gs => simp [filterText] at h
  | cons f fs ih =>
    cases gs with
    | nil => simp [filterText] at h
    | cons g gs =>
      simp only [List.flatMap_cons, filterText_eq, List.cons_append, List.append_assoc,
        List.cons.injEq, true_and] at h
      obtain ⟨hname, h⟩ :=
        escape_append_inj (atBoundary_valueText _ _) (atBoundary_valueText _ _) h
      obtain ⟨hvalue, h⟩ :=
        valueText_append_inj (atFilters_flatMap fs) (atFilters_flatMap gs) h
      have hfg : f = g := by
        cases f; cases g
        rw [String.toList_inj] at hname
        simp_all
      rw [hfg, ih h]

end Key

/-! ## Queries -/

namespace LogicalQuery

theorem eq_iff {q q' : LogicalQuery} :
    q = q' ↔ q.symbolSet = q'.symbolSet ∧ q.filters = q'.filters := by
  cases q; cases q'
  rw [mk.injEq]

theorem symbolSet_withFilters (q : LogicalQuery) (fs : List QueryFilter) :
    (q.withFilters fs).symbolSet = q.symbolSet := by
  induction fs generalizing q with
  | nil => rfl
  | cons f fs ih =>
    unfold withFilters
    rw [List.foldl_cons]
    exact ih (q.withFilter f.name f.value)

theorem filters_withFilters (q : LogicalQuery) (fs : List QueryFilter) :
    (q.withFilters fs).filters = q.filters ++ fs := by
  induction fs generalizing q with
  | nil => simp [withFilters]
  | cons f fs ih =>
    have h := ih (q.withFilter f.name f.value)
    rw [filters_withFilter, List.append_assoc, List.singleton_append] at h
    exact h

/-- Symbols of queries are never blank. -/
theorem not_mem_symbolSet_ofSymbols_empty (raw : List String) :
    "" ∉ (ofSymbols raw).symbolSet := by
  rw [mem_symbolSet_ofSymbols]
  simp

theorem symbols_inj {q q' : LogicalQuery} (h : q.symbols = q'.symbols) :
    q.symbolSet = q'.symbolSet := Std.ExtTreeSet.toList_inj.mp h

theorem nil_not_mem_symbols {q : LogicalQuery} (h : "" ∉ q.symbolSet) :
    [] ∉ q.symbols.map String.toList := by
  intro hmem
  obtain ⟨s, hs, hnil⟩ := List.mem_map.mp hmem
  have hs' : s ∈ q.symbolSet := Std.ExtTreeSet.mem_toList.mp hs
  rw [String.toList_eq_nil_iff.mp hnil] at hs'
  exact h hs'

theorem keyChars_eq (q : LogicalQuery) (space : String) :
    q.keyChars space = Key.escape space.toList ++ (':' ::
      (Text.join ',' ((q.symbols.map String.toList).map Key.escape) ++
        q.filters.flatMap Key.filterText)) := by
  unfold keyChars
  rw [List.map_map, List.append_assoc]
  rfl

/-- Queries without blank symbols have the same key iff their namespaces agree and they ask
    for the same symbols under the same filters. -/
theorem key_eq_iff {q q' : LogicalQuery} (hq : "" ∉ q.symbolSet) (hq' : "" ∉ q'.symbolSet)
    (space space' : String) : q.key space = q'.key space' ↔ space = space' ∧ q = q' := by
  constructor
  · intro h
    have hchars : q.keyChars space = q'.keyChars space' := String.ofList_injective h
    rw [keyChars_eq, keyChars_eq] at hchars
    have hcolon : ∀ cs, Key.AtBoundary (':' :: cs) :=
      fun cs => Key.atBoundary_cons (by decide) (by decide)
    obtain ⟨hspace, hrest⟩ := Key.escape_append_inj (hcolon _) (hcolon _) hchars
    rw [List.cons.injEq] at hrest
    obtain ⟨hsymbols, hfilters⟩ :=
      Key.join_append_inj (nil_not_mem_symbols hq) (nil_not_mem_symbols hq')
        (Key.atFilters_flatMap _) (Key.atFilters_flatMap _) hrest.2
    have hset : q.symbolSet = q'.symbolSet :=
      symbols_inj ((List.map_inj_right fun _ _ => String.toList_inj.mp).mp hsymbols)
    exact ⟨String.toList_inj.mp hspace, eq_iff.mpr ⟨hset, Key.flatMap_filterText_inj hfilters⟩⟩
  · rintro ⟨rfl, rfl⟩
    rfl

/-- Keys of different namespaces differ. -/
theorem space_eq_of_key_eq {q q' : LogicalQuery} {space space' : String}
    (h : q.key space = q'.key space') : space = space' := by
  have hchars : q.keyChars space = q'.keyChars space' := String.ofList_injective h
  rw [keyChars_eq, keyChars_eq] at hchars
  have hcolon : ∀ cs, Key.AtBoundary (':' :: cs) :=
    fun cs => Key.atBoundary_cons (by decide) (by decide)
  exact String.toList_inj.mp (Key.escape_append_inj (hcolon _) (hcolon _) hchars).1

theorem symbolSet_ofSymbols_eq_iff (raw raw' : List String) :
    (ofSymbols raw).symbolSet = (ofSymbols raw').symbolSet ↔
      Symbol.spellings raw = Symbol.spellings raw' := by
  have hmem : ∀ (l : List String) (s : String),
      s ∈ (ofSymbols l).symbolSet ↔ s ∈ Symbol.spellings l := by
    intro l s
    rw [mem_symbolSet_ofSymbols, Symbol.spellings, Set.mem_sdiff, and_comm]
    simp only [String.isEmpty_eq_false_iff, Set.mem_ofPred_eq, Set.mem_singleton_iff, ne_eq]
  constructor
  · intro h
    ext s
    rw [← hmem, ← hmem, h]
  · intro h
    apply Std.ExtTreeSet.ext_mem
    intro s
    rw [hmem, hmem, h]

/-- Queries made from raw symbols and filters have the same key iff the namespaces are equal,
    the symbols amount to the same spellings, and the filters are the same in the same order.
    Nothing is assumed of the texts: they may be empty and contain every separator. -/
theorem key_ofSymbols_eq_iff (space space' : String) (raw raw' : List String)
    (filters filters' : List QueryFilter) :
    ((ofSymbols raw).withFilters filters).key space =
        ((ofSymbols raw').withFilters filters').key space' ↔
      space = space' ∧ Symbol.spellings raw = Symbol.spellings raw' ∧ filters = filters' := by
  have hblank : ∀ (l : List String) (fs : List QueryFilter),
      "" ∉ ((ofSymbols l).withFilters fs).symbolSet := by
    intro l fs
    rw [symbolSet_withFilters]
    exact not_mem_symbolSet_ofSymbols_empty l
  rw [key_eq_iff (hblank raw filters) (hblank raw' filters'), eq_iff, symbolSet_withFilters,
    symbolSet_withFilters, filters_withFilters, filters_withFilters, filters_ofSymbols,
    filters_ofSymbols, List.nil_append, List.nil_append, symbolSet_ofSymbols_eq_iff]

end LogicalQuery

end MarketCache
