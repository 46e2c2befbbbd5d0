import MarketCache.Config
import MarketCache.Proofs.Text.Digits
import MarketCache.Proofs.Text.Trim
import MarketCache.Proofs.Text.Utf8

/-!
# Settings and their variables

A setting that is a number comes from its variable iff that is set to a numeral which is not too
large, and one that is a text iff there is a text which is not blank. In every other case the
default is in force, and no other variable makes a difference.

Main definitions:
* `Config.Denotes`, `Config.Spells`: the number that digits stand for, and that of a variable.
* `Config.Refused`: the ways in which a variable does not give a number.
* `Config.NumberField`, `Config.TextField`: the settings, each with its variable.

Results:
* `Config.digits?_eq_some_iff`: what the checked loop over digits comes to.
* `Config.number?_eq_some_iff`, `Config.text?_eq_some_iff`: the values of a variable.
* `Config.refused_iff`: nothing but a numeral gives a number.
* `Config.setting_of_variable`: the settings.
-/

namespace MarketCache

namespace Config

/-! ## Digits -/

section Digits

variable {bound m n d : Nat} {c : Char} {cs ds : List Char}

theorem fits?_eq_some_iff : fits? bound n = some m ↔ n < bound ∧ n = m := by
  rw [fits?, Option.ite_none_right_eq_some, Option.some_inj]

theorem digit?_eq_some_iff : digit? c = some d ↔ c.isDigit = true ∧ c.toNat - '0'.toNat = d := by
  rw [digit?, Option.ite_none_right_eq_some, Option.some_inj]

/-- One more digit. -/
theorem digits?_cons_eq_some_iff : digits? bound n (c :: cs) = some m ↔
    c.isDigit = true ∧ 10 * n + (c.toNat - '0'.toNat) < bound ∧
      digits? bound (10 * n + (c.toNat - '0'.toNat)) cs = some m := by
  simp only [digits?, Option.bind_eq_bind, Option.bind_eq_some_iff, digit?_eq_some_iff,
    fits?_eq_some_iff]
  constructor
  · rintro ⟨_, ⟨hc, rfl⟩, _, ⟨-, rfl⟩, _, ⟨hsum, rfl⟩, h⟩
    rw [Nat.mul_comm] at hsum h
    exact ⟨hc, hsum, h⟩
  · rintro ⟨hc, hsum, h⟩
    rw [Nat.mul_comm] at hsum h
    have hshifted := Nat.lt_of_le_of_lt (Nat.le_add_right _ _) hsum
    exact ⟨_, ⟨hc, rfl⟩, _, ⟨hshifted, rfl⟩, _, ⟨hsum, rfl⟩, h⟩

/-- The loop over digits gives the number that they stand for unless it reaches the bound; a check
    on the way fails only then, since no later digit makes the number smaller. -/
theorem digits?_eq_some_iff (hn : n < bound) : digits? bound n ds = some m ↔
    (∀ c ∈ ds, c.isDigit = true) ∧ Nat.ofDigitChars 10 ds n = m ∧ m < bound := by
  induction ds generalizing n with
  | nil =>
    rw [digits?, Nat.ofDigitChars_nil, Option.some_inj]
    exact ⟨fun h => ⟨fun _ hc => absurd hc List.not_mem_nil, h, h ▸ hn⟩, fun h => h.2.1⟩
  | cons c cs ih =>
    rw [digits?_cons_eq_some_iff, Nat.ofDigitChars_cons, List.forall_mem_cons]
    constructor
    · rintro ⟨hc, hsum, h⟩
      obtain ⟨hcs, hvalue, hm⟩ := (ih hsum).mp h
      exact ⟨⟨hc, hcs⟩, hvalue, hm⟩
    · rintro ⟨⟨hc, hcs⟩, hvalue, hm⟩
      have hsum : 10 * n + (c.toNat - '0'.toNat) < bound :=
        Nat.lt_of_le_of_lt (hvalue ▸ Text.le_ofDigitChars cs _) hm
      exact ⟨hc, hsum, (ih hsum).mpr ⟨hcs, hvalue, hm⟩⟩

/-- Whether a text is one digit or more, which stand for `n`. -/
structure Denotes (ds : List Char) (n : Nat) : Prop where
  nonempty : ds ≠ []
  digits : ∀ c ∈ ds, c.isDigit = true
  value : Nat.ofDigitChars 10 ds 0 = n

theorem unsigned?_eq_some_iff (hbound : 0 < bound) :
    unsigned? bound ds = some n ↔ Denotes ds n ∧ n < bound := by
  cases ds with
  | nil => exact ⟨nofun, fun h => absurd rfl h.1.nonempty⟩
  | cons c cs =>
    rw [unsigned?, digits?_eq_some_iff hbound]
    · exact ⟨fun h => ⟨⟨List.cons_ne_nil c cs, h.1, h.2.1⟩, h.2.2⟩,
        fun h => ⟨h.1.digits, h.1.value, h.2⟩⟩
    · exact List.cons_ne_nil c cs

end Digits

/-! ## Numerals -/

section Numerals

variable {bound max n n' : Nat} {value : Option Bytes} {sign ds : List Char}

/-- A text is what is behind its plus sign, perhaps with that sign in front. -/
theorem exists_sign (cs : List Char) :
    ∃ sign, cs = sign ++ afterPlus cs ∧ (sign = [] ∨ sign = ['+']) := by
  unfold afterPlus
  split
  · exact ⟨['+'], rfl, Or.inr rfl⟩
  · exact ⟨[], rfl, Or.inl rfl⟩

theorem Denotes.afterPlus_append (h : Denotes ds n) (hsign : sign = [] ∨ sign = ['+']) :
    afterPlus (sign ++ ds) = ds := by
  rcases hsign with rfl | rfl
  · unfold afterPlus
    rw [List.nil_append]
    split
    · exact absurd (h.digits '+' List.mem_cons_self) (by decide)
    · rfl
  · rfl

/-- There is no white space in a numeral. -/
theorem Denotes.isTrimmed_append (h : Denotes ds n) (hsign : sign = [] ∨ sign = ['+']) :
    Text.IsTrimmed (sign ++ ds) := by
  refine Text.IsTrimmed.of_forall fun c hc => ?_
  rcases List.mem_append.mp hc with hc | hc
  · rcases hsign with rfl | rfl
    · exact absurd hc List.not_mem_nil
    · rw [List.mem_singleton.mp hc]
      rfl
  · exact Text.isBlank_of_isDigit (h.digits c hc)

/-- Whether a variable is set to the bytes of a text that is, between white space, one digit or more
    which stand for `n`, perhaps with a plus sign in front. -/
def Spells (value : Option Bytes) (n : Nat) : Prop :=
  ∃ s front sign ds back, value = some (utf8 s) ∧ s.toList = front ++ (sign ++ ds) ++ back ∧
    front.all Text.isBlank = true ∧ back.all Text.isBlank = true ∧
    (sign = [] ∨ sign = ['+']) ∧ Denotes ds n

/-- What a variable spells, through its trimmed text. -/
theorem spells_iff : Spells value n ↔
    ∃ s, value = some (utf8 s) ∧ Denotes (afterPlus (Text.trim s.toList)) n := by
  constructor
  · rintro ⟨s, front, sign, ds, back, hset, hs, hfront, hback, hsign, h⟩
    refine ⟨s, hset, ?_⟩
    rw [hs, Text.trim_append hfront hback (h.isTrimmed_append hsign), h.afterPlus_append hsign]
    exact h
  · rintro ⟨s, hset, h⟩
    obtain ⟨front, back, hs, hfront, hback⟩ := Text.exists_trim s.toList
    obtain ⟨sign, htrim, hsign⟩ := exists_sign (Text.trim s.toList)
    rw [htrim] at hs
    exact ⟨s, front, sign, _, back, hset, hs, hfront, hback, hsign, h⟩

theorem spells_utf8_iff {s : String} :
    Spells (some (utf8 s)) n ↔ Denotes (afterPlus (Text.trim s.toList)) n := by
  rw [spells_iff]
  constructor
  · rintro ⟨t, hset, h⟩
    rwa [utf8_injective (Option.some.inj hset)]
  · exact fun h => ⟨s, rfl, h⟩

/-- A variable spells one number. -/
theorem Spells.unique (h : Spells value n) (h' : Spells value n') : n = n' := by
  obtain ⟨s, rfl, hvalue⟩ := spells_iff.mp h
  exact hvalue.value.symm.trans (spells_utf8_iff.mp h').value

theorem decode?_eq_some_iff_utf8 {bs : Bytes} {cs : List Char} :
    Text.Utf8.decode? bs = some cs ↔ bs = utf8 (String.ofList cs) := by
  rw [Text.Utf8.decode?_eq_some_iff, utf8, String.toList_ofList]

/-- The number below `bound` in a variable is what it spells. -/
theorem number?_eq_some_iff (hbound : 0 < bound) :
    number? bound value = some n ↔ Spells value n ∧ n < bound := by
  simp only [number?, Option.bind_eq_bind, Option.bind_eq_some_iff, decode?_eq_some_iff_utf8,
    unsigned?_eq_some_iff hbound]
  constructor
  · rintro ⟨_, rfl, cs, rfl, h, hn⟩
    rw [spells_utf8_iff, String.toList_ofList]
    exact ⟨h, hn⟩
  · rintro ⟨hspells, hn⟩
    obtain ⟨s, rfl, h⟩ := spells_iff.mp hspells
    exact ⟨_, rfl, s.toList, by rw [String.ofList_toList], h, hn⟩

-- any number of zeros may come first, and the largest port is 65535
example : number? UInt16.size (some (utf8 "\t+00080\n")) = some 80 := by decide
example : number? UInt16.size (some (utf8 "65536")) = none := by decide

/-- The ways in which a variable does not give a number up to `max`. -/
inductive Refused (max : Nat) : Option Bytes → Prop where
  /-- It is not set. -/
  | unset : Refused max none
  /-- It is no text. -/
  | damaged {bs : Bytes} (h : ∀ s, bs ≠ utf8 s) : Refused max (some bs)
  /-- There is nothing in it. -/
  | blank {s : String} (h : Text.trim s.toList = []) : Refused max (some (utf8 s))
  /-- There is only a sign in it. -/
  | sign {s : String} (h : Text.trim s.toList = ['+'] ∨ Text.trim s.toList = ['-']) :
    Refused max (some (utf8 s))
  /-- There is a minus sign in front. -/
  | minus {s : String} {ds : List Char} (h : Text.trim s.toList = '-' :: ds) :
    Refused max (some (utf8 s))
  /-- Some character is no digit. -/
  | other {s : String} {c : Char} (hc : c ∈ afterPlus (Text.trim s.toList))
    (hdigit : c.isDigit = false) : Refused max (some (utf8 s))
  /-- The number is too large. -/
  | large {value : Option Bytes} {n : Nat} (h : Spells value n) (hn : max < n) : Refused max value

theorem Refused.not_spells (h : Refused max value) (hn : n ≤ max) : ¬ Spells value n := by
  intro hspells
  cases h with
  | unset => exact nomatch spells_iff.mp hspells
  | damaged h =>
    obtain ⟨s, hset, -⟩ := spells_iff.mp hspells
    exact h s (Option.some.inj hset)
  | blank h =>
    rw [spells_utf8_iff, h] at hspells
    exact hspells.nonempty rfl
  | sign h =>
    rw [spells_utf8_iff] at hspells
    rcases h with h | h <;> rw [h] at hspells
    · exact hspells.nonempty rfl
    · exact absurd (hspells.digits '-' List.mem_cons_self) (by decide)
  | minus h =>
    rw [spells_utf8_iff, h] at hspells
    exact absurd (hspells.digits '-' List.mem_cons_self) (by decide)
  | other hc hdigit =>
    rw [spells_utf8_iff] at hspells
    exact Bool.eq_false_iff.mp hdigit (hspells.digits _ hc)
  | large h hlarge =>
    rw [h.unique hspells] at hlarge
    exact absurd hn (Nat.not_le.mpr hlarge)

/-- A variable gives no number up to `max` iff it is in one of these ways that it does not. -/
theorem refused_iff : Refused max value ↔ ∀ n ≤ max, ¬ Spells value n := by
  refine ⟨fun h n hn => h.not_spells hn, fun h => ?_⟩
  rcases value with _ | bs
  · exact .unset
  by_cases htext : ∃ s, bs = utf8 s
  swap
  · exact .damaged fun s hs => htext ⟨s, hs⟩
  obtain ⟨s, rfl⟩ := htext
  by_cases hother : ∃ c ∈ afterPlus (Text.trim s.toList), c.isDigit = false
  · obtain ⟨c, hc, hdigit⟩ := hother
    exact .other hc hdigit
  obtain ⟨sign, htrim, hsign⟩ := exists_sign (Text.trim s.toList)
  by_cases hnil : afterPlus (Text.trim s.toList) = []
  · rw [hnil, List.append_nil] at htrim
    rcases hsign with hsign | hsign
    · exact .blank (htrim.trans hsign)
    · exact .sign (Or.inl (htrim.trans hsign))
  · have hdigits : ∀ c ∈ afterPlus (Text.trim s.toList), c.isDigit = true := fun c hc =>
      (Bool.not_eq_false _).mp fun hdigit => hother ⟨c, hc, hdigit⟩
    have hspells := spells_utf8_iff.mpr ⟨hnil, hdigits, rfl⟩
    exact .large hspells (Nat.not_le.mp fun hle => h _ hle hspells)

end Numerals

/-! ## Texts -/

section Texts

variable {value : Option Bytes} {s : String}

/-- The text in a variable is one in which some character is not white space. -/
theorem text?_eq_some_iff : text? value = some s ↔
    value = some (utf8 s) ∧ ∃ c ∈ s.toList, Text.isBlank c = false := by
  have hblank (cs : List Char) :
      ¬ cs.all Text.isBlank = true ↔ ∃ c ∈ cs, Text.isBlank c = false := by
    rw [Bool.not_eq_true, List.all_eq_false]
    simp only [Bool.not_eq_true]
  simp only [text?, Option.bind_eq_bind, Option.bind_eq_some_iff, decode?_eq_some_iff_utf8,
    Option.ite_none_left_eq_some, Option.some_inj, hblank]
  constructor
  · rintro ⟨_, rfl, cs, rfl, hc, rfl⟩
    rw [String.toList_ofList]
    exact ⟨rfl, hc⟩
  · rintro ⟨rfl, hc⟩
    exact ⟨_, rfl, s.toList, by rw [String.ofList_toList], hc, String.ofList_toList⟩

end Texts

/-! ## Settings -/

/-- The settings that are numbers. -/
inductive NumberField where
  | serverPort
  | newsPollingInterval
  | newsFlushInterval
  | quotePollingInterval
  | quoteFlushInterval
  | durableTtl
  | maintenanceFlushInterval
deriving DecidableEq, Repr

namespace NumberField

/-- The name of the variable of a setting. -/
def name : NumberField → String
  | serverPort => "SERVER_PORT"
  | newsPollingInterval => "NEWS_POLLING_INTERVAL"
  | newsFlushInterval => "NEWS_FLUSH_INTERVAL"
  | quotePollingInterval => "QUOTE_POLLING_INTERVAL"
  | quoteFlushInterval => "QUOTE_FLUSH_INTERVAL"
  | durableTtl => "DURABLE_TTL"
  | maintenanceFlushInterval => "MAINTENANCE_FLUSH_INTERVAL"

/-- The largest value of a setting. -/
def max : NumberField → Nat
  | serverPort => 65535
  | _ => 2 ^ 64 - 1

/-- The value of a setting. -/
def value (c : Config) : NumberField → Nat
  | serverPort => c.serverPort.toNat
  | newsPollingInterval => c.newsPollingInterval.toNat
  | newsFlushInterval => c.newsFlushInterval.toNat
  | quotePollingInterval => c.quotePollingInterval.toNat
  | quoteFlushInterval => c.quoteFlushInterval.toNat
  | durableTtl => c.durableTtl.toNat
  | maintenanceFlushInterval => c.maintenanceFlushInterval.toNat

end NumberField

/-- The settings that are texts. -/
inductive TextField where
  | durablePath
  | providerBaseUrl
  | providerApiKey
deriving DecidableEq, Repr

namespace TextField

/-- The name of the variable of a setting. -/
def name : TextField → String
  | durablePath => "DURABLE_PATH"
  | providerBaseUrl => "UPSTREAM_BASE_URL"
  | providerApiKey => "UPSTREAM_API_KEY"

/-- The value of a setting, if it has one. -/
def value (c : Config) : TextField → Option String
  | durablePath => c.durablePath
  | providerBaseUrl => some c.providerBaseUrl
  | providerApiKey => c.providerApiKey

end TextField

section Settings

variable {env : String → Option Bytes}

theorem toNat_word (value : Option Bytes) (fallback : UInt64) :
    (word value fallback).toNat = (number? UInt64.size value).getD fallback.toNat := by
  unfold word
  rcases hn : number? UInt64.size value with _ | n
  · rfl
  · exact UInt64.toNat_ofNat_of_lt' ((number?_eq_some_iff (by decide)).mp hn).2

/-- A setting that is a number comes from its variable, or else it is the default. -/
theorem NumberField.value_ofEnvironment (f : NumberField) (env : String → Option Bytes) :
    f.value (ofEnvironment env) = (number? (f.max + 1) (env f.name)).getD (f.value default) := by
  cases f with
  | serverPort =>
    rcases hn : number? UInt16.size (env "SERVER_PORT") with _ | n
    · have hport : (ofEnvironment env).serverPort = default.serverPort := by
        simp only [ofEnvironment, hn, Option.map_none, Option.getD_none]
      rw [value, hport, max, name, show 65535 + 1 = UInt16.size from rfl, hn]
      rfl
    · have hport : (ofEnvironment env).serverPort = UInt16.ofNat n := by
        simp only [ofEnvironment, hn, Option.map_some, Option.getD_some]
      rw [value, hport, max, name, show 65535 + 1 = UInt16.size from rfl, hn]
      exact UInt16.toNat_ofNat_of_lt' ((number?_eq_some_iff (by decide)).mp hn).2
  | _ => exact toNat_word _ _

/-- A setting that is a text comes from its variable, or else it is the default. -/
theorem TextField.value_ofEnvironment (f : TextField) (env : String → Option Bytes) :
    f.value (ofEnvironment env) = (text? (env f.name)).or (f.value default) := by
  cases f with
  | durablePath => exact Option.or_none.symm
  | providerBaseUrl =>
    simp only [value, name, ofEnvironment]
    cases text? (env "UPSTREAM_BASE_URL") <;> rfl
  | providerApiKey => exact Option.or_none.symm

/-- A setting is the number that its variable spells. -/
theorem NumberField.value_of_spells {f : NumberField} {n : Nat} (hn : n ≤ f.max)
    (h : Spells (env f.name) n) : f.value (ofEnvironment env) = n := by
  have hnumber := (number?_eq_some_iff f.max.succ_pos).mpr ⟨h, Nat.lt_succ_of_le hn⟩
  rw [f.value_ofEnvironment, hnumber, Option.getD_some]

/-- A setting is the default if its variable spells no number up to the largest value. -/
theorem NumberField.value_of_not_spells {f : NumberField}
    (h : ∀ n ≤ f.max, ¬ Spells (env f.name) n) : f.value (ofEnvironment env) = f.value default := by
  have hnumber : number? (f.max + 1) (env f.name) = none := by
    refine Option.eq_none_iff_forall_ne_some.mpr fun n hn => ?_
    obtain ⟨hspells, hlt⟩ := (number?_eq_some_iff f.max.succ_pos).mp hn
    exact h n (Nat.le_of_lt_succ hlt) hspells
  rw [f.value_ofEnvironment, hnumber, Option.getD_none]

/-- A default is not a blank text. -/
theorem TextField.exists_of_default {f : TextField} {s : String} (h : f.value default = some s) :
    ∃ c ∈ s.toList, Text.isBlank c = false := by
  cases f with
  | durablePath => cases h
  | providerApiKey => cases h
  | providerBaseUrl =>
    obtain rfl := Option.some.inj h
    exact ⟨'h', by decide, by decide⟩

/-- A setting is the text to which its variable is set iff that is not blank. -/
theorem TextField.value_eq_some_iff {f : TextField} {s : String}
    (h : env f.name = some (utf8 s)) :
    f.value (ofEnvironment env) = some s ↔ ∃ c ∈ s.toList, Text.isBlank c = false := by
  rw [f.value_ofEnvironment]
  constructor
  · rcases htext : text? (env f.name) with _ | t
    · rw [Option.none_or]
      exact exists_of_default
    · rw [Option.some_or]
      intro hts
      rw [← Option.some.inj hts]
      exact (text?_eq_some_iff.mp htext).2
  · intro hc
    rw [text?_eq_some_iff.mpr ⟨h, hc⟩, Option.some_or]

/-- A setting is the default if its variable is set to no text but a blank one. -/
theorem TextField.value_of_blank {f : TextField}
    (h : ∀ s, env f.name = some (utf8 s) → ∀ c ∈ s.toList, Text.isBlank c = true) :
    f.value (ofEnvironment env) = f.value default := by
  have htext : text? (env f.name) = none := by
    refine Option.eq_none_iff_forall_ne_some.mpr fun s hs => ?_
    obtain ⟨hset, c, hc, hblank⟩ := text?_eq_some_iff.mp hs
    exact Bool.eq_false_iff.mp hblank (h s hset c hc)
  rw [f.value_ofEnvironment, htext, Option.none_or]

theorem NumberField.name_injective {f g : NumberField} (h : f.name = g.name) : f = g := by
  cases f <;> cases g <;> first | rfl | exact absurd h (by decide)

theorem TextField.name_injective {f g : TextField} (h : f.name = g.name) : f = g := by
  cases f <;> cases g <;> first | rfl | exact absurd h (by decide)

theorem NumberField.name_ne (f : NumberField) (g : TextField) : f.name ≠ g.name := by
  cases f <;> cases g <;> decide

/-- A setting that is a number is what its variable spells if that is not too large, and the default
    if the variable does not spell any such number: if it is not set, no text, blank, only a sign, a
    number with a minus sign, anything with another character in it, or too large. A setting that is
    a text is what its variable is set to, white space included, iff some character in that is not
    white space, and the default if the variable is not set to such a text. Each setting has a
    variable of its own and depends on no other. -/
theorem setting_of_variable (env : String → Option Bytes) :
    (∀ f : NumberField,
      (∀ n ≤ f.max, Spells (env f.name) n → f.value (ofEnvironment env) = n) ∧
      ((∀ n ≤ f.max, ¬ Spells (env f.name) n) → f.value (ofEnvironment env) = f.value default) ∧
      (Refused f.max (env f.name) ↔ ∀ n ≤ f.max, ¬ Spells (env f.name) n)) ∧
    (∀ f : TextField,
      (∀ s, env f.name = some (utf8 s) →
        (f.value (ofEnvironment env) = some s ↔ ∃ c ∈ s.toList, Text.isBlank c = false)) ∧
      ((∀ s, env f.name = some (utf8 s) → ∀ c ∈ s.toList, Text.isBlank c = true) →
        f.value (ofEnvironment env) = f.value default)) ∧
    (∀ env' : String → Option Bytes,
      (∀ f : NumberField, env' f.name = env f.name →
        f.value (ofEnvironment env') = f.value (ofEnvironment env)) ∧
      ∀ f : TextField, env' f.name = env f.name →
        f.value (ofEnvironment env') = f.value (ofEnvironment env)) ∧
    (∀ f g : NumberField, f.name = g.name → f = g) ∧
    (∀ f g : TextField, f.name = g.name → f = g) ∧
    ∀ (f : NumberField) (g : TextField), f.name ≠ g.name := by
  refine ⟨fun f =>
      ⟨fun n => NumberField.value_of_spells, NumberField.value_of_not_spells, refused_iff⟩,
    fun f => ⟨fun s => TextField.value_eq_some_iff, TextField.value_of_blank⟩,
    fun env' => ⟨fun f heq => ?_, fun f heq => ?_⟩, fun f g => NumberField.name_injective,
    fun f g => TextField.name_injective, NumberField.name_ne⟩
  · rw [f.value_ofEnvironment, f.value_ofEnvironment, heq]
  · rw [f.value_ofEnvironment, f.value_ofEnvironment, heq]

end Settings

end Config

end MarketCache
