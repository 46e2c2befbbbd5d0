import MarketCache.Proofs.Query.KeyUnique
import MarketCache.Proofs.Text.Fields
import MarketCache.Proofs.Text.Uppercase
import MarketCache.Provider.Client
import MarketCache.Service.Basic
import MarketCache.Service.Requests

/-!
# Keys and calls to the provider

A query is written down twice: as the key under which the tiers keep its answer, and as the
parameters with which the provider is asked for it. The key escapes what separates its
components and marks the filters that are not set; the parameters join the symbols with bare
commas and leave those filters out. For the queries of requests both tell the same: symbols
out of a list between commas contain no comma themselves and are not blank, and the filters
have different names. So two requests share an answer exactly when the provider would be
asked the same for both.

Results:
* `joinedSymbols_inj`: the joined symbols tell the set of symbols.
* `NewsParams.params_eq_iff`, `QuoteParams.params_eq_iff`: when two requests lead to the same
  call.
* `Service.keyFor_eq_iff_params_eq`: they share a key exactly then.
-/

namespace MarketCache

namespace LogicalQuery

/-! ## Symbols between commas -/

/-- Whether no symbol of a query is blank or contains a comma. -/
structure IsPlain (q : LogicalQuery) : Prop where
  nonblank : "" ∉ q.symbolSet
  comma_free : ∀ s ∈ q.symbolSet, ',' ∉ s.toList

/-- A symbol contains a comma only if it was written with one. -/
theorem comma_mem_of_normal {s : String} (h : ',' ∈ (Symbol.normal s).toList) :
    ',' ∈ s.toList := by
  unfold Symbol.normal at h
  rw [String.toList_ofList] at h
  exact Text.mem_of_mem_trim (Text.mem_of_mem_upper Text.isCaseImage_comma h)

theorem isPlain_ofSymbolList (list : String) : (ofSymbolList list).IsPlain where
  nonblank := not_mem_symbolSet_ofSymbols_empty _
  comma_free s hs hcomma := by
    obtain ⟨-, raw, hraw, rfl⟩ := mem_symbolSet_ofSymbols.mp hs
    obtain ⟨field, hfield, rfl⟩ := List.mem_map.mp hraw
    have hin := comma_mem_of_normal hcomma
    rw [String.toList_ofList] at hin
    exact Text.not_mem_of_mem_fields hfield hin

theorem IsPlain.withFilter {q : LogicalQuery} (h : q.IsPlain) (name : String)
    (value : Option String) : (q.withFilter name value).IsPlain := ⟨h.nonblank, h.comma_free⟩

theorem IsPlain.not_mem_symbols {q : LogicalQuery} (h : q.IsPlain) :
    ∀ cs ∈ q.symbols.map String.toList, ',' ∉ cs := by
  intro cs hcs
  obtain ⟨s, hs, rfl⟩ := List.mem_map.mp hcs
  exact h.comma_free s (Std.ExtTreeSet.mem_toList.mp hs)

/-- The joined symbols of plain queries tell the symbols. -/
theorem joinedSymbols_inj {q q' : LogicalQuery} (hq : q.IsPlain) (hq' : q'.IsPlain)
    (h : q.joinedSymbols = q'.joinedSymbols) : q.symbolSet = q'.symbolSet := by
  have hchars : Text.join ',' (q.symbols.map String.toList) =
      Text.join ',' (q'.symbols.map String.toList) := String.ofList_injective h
  have hlists := Text.join_inj hq.not_mem_symbols hq'.not_mem_symbols
    (nil_not_mem_symbols hq.nonblank) (nil_not_mem_symbols hq'.nonblank) hchars
  exact symbols_inj ((List.map_inj_right fun _ _ => String.toList_inj.mp).mp hlists)

end LogicalQuery

/-! ## Calls -/

/-- The filters of a query that are set, as the provider is told them. -/
def LogicalQuery.setFilters (q : LogicalQuery) : Http.Form :=
  q.filters.filterMap fun f => f.value.map (f.name, ·)

/-- Plain queries lead to the same call iff they are for the same symbols under the same filters
    that are set; the API key makes no difference. -/
theorem ProviderClient.params_eq_iff (client : ProviderClient) {q q' : LogicalQuery}
    (hq : q.IsPlain) (hq' : q'.IsPlain) :
    client.params q = client.params q' ↔
      q.symbolSet = q'.symbolSet ∧ q.setFilters = q'.setFilters := by
  have hsymbols : q.joinedSymbols = q'.joinedSymbols ↔ q.symbolSet = q'.symbolSet := by
    refine ⟨LogicalQuery.joinedSymbols_inj hq hq', fun h => ?_⟩
    rw [LogicalQuery.joinedSymbols, LogicalQuery.joinedSymbols, LogicalQuery.symbols, h]
    rfl
  have hparams : ∀ q : LogicalQuery, client.params q =
      ("symbols", q.joinedSymbols) :: q.setFilters ++ (client.apiKey.map ("token", ·)).toList :=
    fun q => rfl
  rw [hparams, hparams, List.append_left_inj, List.cons.injEq, Prod.mk.injEq, hsymbols]
  simp only [true_and]

theorem NewsParams.isPlain_toQuery (p : NewsParams) : p.toQuery.IsPlain :=
  ((LogicalQuery.isPlain_ofSymbolList p.symbols).withFilter _ _).withFilter _ _

theorem QuoteParams.isPlain_toQuery (p : QuoteParams) : p.toQuery.IsPlain :=
  LogicalQuery.isPlain_ofSymbolList p.symbols

/-- News requests lead to the same call iff they ask for the same: a bound that is not set is
    told from an empty one, and the lower bound from the upper one. -/
theorem NewsParams.params_eq_iff (client : ProviderClient) (p p' : NewsParams) :
    client.params p.toQuery = client.params p'.toQuery ↔ p.toQuery = p'.toQuery := by
  have hfilters : ∀ p : NewsParams, p.toQuery.filters = [⟨"from", p.from?⟩, ⟨"to", p.to?⟩] :=
    fun p => rfl
  rw [client.params_eq_iff p.isPlain_toQuery p'.isPlain_toQuery, LogicalQuery.eq_iff,
    LogicalQuery.setFilters, LogicalQuery.setFilters, hfilters, hfilters]
  refine and_congr_right fun _ => ?_
  cases p.from? <;> cases p.to? <;> cases p'.from? <;> cases p'.to? <;> simp

/-- Quote requests lead to the same call iff they ask for the same. -/
theorem QuoteParams.params_eq_iff (client : ProviderClient) (p p' : QuoteParams) :
    client.params p.toQuery = client.params p'.toQuery ↔ p.toQuery = p'.toQuery := by
  rw [client.params_eq_iff p.isPlain_toQuery p'.isPlain_toQuery, LogicalQuery.eq_iff]
  exact and_congr_right fun _ => iff_of_true rfl rfl

/-! ## Keys -/

/-- Plain queries have the same key in a cache iff they are equal. -/
theorem TieredCache.keyFor_eq_iff {α : Type} (c : TieredCache α) {q q' : LogicalQuery}
    (hq : q.IsPlain) (hq' : q'.IsPlain) : c.keyFor q = c.keyFor q' ↔ q = q' :=
  (LogicalQuery.key_eq_iff hq.nonblank hq'.nonblank c.space c.space).trans (and_iff_right rfl)

/-- Two requests for news have the same key in the cache for news of a service exactly when the
    provider would be asked the same for both, and so have two requests for quotes in the cache
    for quotes, whatever their texts are and whether or not there is an API key. -/
theorem Service.keyFor_eq_iff_params_eq {σ π : Type} (client : ProviderClient)
    (news quotes : CacheSettings) (startedAt : Instant) (store : σ) (provider : π) :
    (∀ p p' : NewsParams,
      ((start news quotes startedAt store provider).cache .news).keyFor p.toQuery =
          ((start news quotes startedAt store provider).cache .news).keyFor p'.toQuery ↔
        client.params p.toQuery = client.params p'.toQuery) ∧
    (∀ p p' : QuoteParams,
      ((start news quotes startedAt store provider).cache .quotes).keyFor p.toQuery =
          ((start news quotes startedAt store provider).cache .quotes).keyFor p'.toQuery ↔
        client.params p.toQuery = client.params p'.toQuery) := by
  refine ⟨fun p p' => ?_, fun p p' => ?_⟩
  · rw [p.params_eq_iff]
    exact TieredCache.keyFor_eq_iff _ p.isPlain_toQuery p'.isPlain_toQuery
  · rw [p.params_eq_iff]
    exact TieredCache.keyFor_eq_iff _ p.isPlain_toQuery p'.isPlain_toQuery

end MarketCache
