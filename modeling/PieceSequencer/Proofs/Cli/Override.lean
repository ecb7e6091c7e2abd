import Mathlib.Data.List.Basic
import PieceSequencer.Cli.Config

/-! # What flags override

Arguments are read from the left (`Scans`), a flag that takes a value together with the argument
behind it.  Whether a flag is allowed does not depend on the settings, so every list of arguments
is a row of allowed overrides, and behind it either nothing or the first fault (`exists_scan`).
Overrides act one after the other (`Scans.exists_overriddenBy`): what more arguments do is decided
by the settings that the ones before lead to.  One override sets its own setting and leaves the
others (`overriddenBy_single`), so of a row the last one for a setting wins
(`OverriddenBy.trans`). -/

namespace PieceSequencer

/-! ### Scanning -/

/-- A flag, with its value if it takes one. -/
inductive Override where
  | value (flag : ValueFlag) (word : String)
  | switch (switch : Switch)
  deriving DecidableEq, Repr

/-- `Scans arguments overrides`: read from the left, the arguments are these overrides.  The
argument behind a flag that takes a value is its value, whatever it spells. -/
inductive Scans : List String → List Override → Prop where
  | nil : Scans [] []
  | value {argument word : String} {flag : ValueFlag} {rest : List String}
    {overrides : List Override} :
    Flag.ofArgument? argument = some (.valued flag) → Scans rest overrides →
    Scans (argument :: word :: rest) (.value flag word :: overrides)
  | switch {argument : String} {switch : Switch} {rest : List String}
    {overrides : List Override} :
    Flag.ofArgument? argument = some (.switch switch) → Scans rest overrides →
    Scans (argument :: rest) (.switch switch :: overrides)

/-- Why a flag refuses a value. -/
inductive ValueFlag.Refuses : ValueFlag → String → CommandError → Prop where
  | unreadCount {word : String} :
    Config.readCount? word = none → Refuses .count word (.invalidCount word)
  | largeCount {word : String} {count : Nat} :
    Config.readCount? word = some count → maxCount < count →
    Refuses .count word (.countTooLarge count)
  | unreadSeed {word : String} :
    Config.readSeed? word = none → Refuses .seed word (.invalidSeed word)

/-- An override whose value is not refused. -/
def Override.Allowed : Override → Prop
  | .value flag word => ∀ e, ¬ flag.Refuses word e
  | .switch _ => True

/-- `FaultAt arguments e`: the first argument is no flag, or a flag whose value is missing or
refused. -/
inductive FaultAt : List String → CommandError → Prop where
  | unknown {argument : String} {rest : List String} :
    Flag.ofArgument? argument = none → FaultAt (argument :: rest) (.unknownArgument argument)
  | missing {argument : String} {flag : ValueFlag} :
    Flag.ofArgument? argument = some (.valued flag) → FaultAt [argument] (.missingValue flag)
  | refused {argument word : String} {flag : ValueFlag} {rest : List String} {e : CommandError} :
    Flag.ofArgument? argument = some (.valued flag) → flag.Refuses word e →
    FaultAt (argument :: word :: rest) e

/-- Only a missing value can be mended by more arguments. -/
theorem FaultAt.append {arguments : List String} {e : CommandError} (h : FaultAt arguments e)
    (hvalue : ∀ flag, e ≠ .missingValue flag) (back : List String) :
    FaultAt (arguments ++ back) e := by
  cases h with
  | unknown hflag => exact .unknown hflag
  | missing _ => exact absurd rfl (hvalue _)
  | refused hflag hrefuses => exact .refused hflag hrefuses

/-- All arguments are allowed overrides, up to the first fault if there is one. -/
theorem exists_scan : ∀ arguments : List String, ∃ front rest overrides,
    arguments = front ++ rest ∧ Scans front overrides ∧ (∀ o ∈ overrides, o.Allowed) ∧
      (rest = [] ∨ ∃ e, FaultAt rest e)
  | [] => ⟨[], [], [], rfl, .nil, by simp, .inl rfl⟩
  | argument :: arguments => by
      cases hflag : Flag.ofArgument? argument with
      | none => exact ⟨[], _, [], rfl, .nil, by simp, .inr ⟨_, .unknown hflag⟩⟩
      | some flag =>
          cases flag with
          | switch switch =>
              obtain ⟨front, rest, overrides, rfl, hscans, hallowed, hrest⟩ :=
                exists_scan arguments
              exact ⟨argument :: front, rest, .switch switch :: overrides, rfl,
                .switch hflag hscans, List.forall_mem_cons.mpr ⟨trivial, hallowed⟩, hrest⟩
          | valued flag =>
              cases arguments with
              | nil => exact ⟨[], _, [], rfl, .nil, by simp, .inr ⟨_, .missing hflag⟩⟩
              | cons word arguments =>
                  -- the next argument is the value, so the scan goes on behind it
                  by_cases hrefuses : ∃ e, flag.Refuses word e
                  · obtain ⟨e, hrefuses⟩ := hrefuses
                    exact ⟨[], _, [], rfl, .nil, by simp, .inr ⟨e, .refused hflag hrefuses⟩⟩
                  · obtain ⟨front, rest, overrides, rfl, hscans, hallowed, hrest⟩ :=
                      exists_scan arguments
                    exact ⟨argument :: word :: front, rest, .value flag word :: overrides, rfl,
                      .value hflag hscans,
                      List.forall_mem_cons.mpr ⟨not_exists.mp hrefuses, hallowed⟩, hrest⟩

/-! ### The last override wins -/

namespace Override

/-- The word that an override gives for a flag. -/
def word? (flag : ValueFlag) : Override → Option String
  | .value other word => if other = flag then some word else none
  | .switch _ => none

/-- The output mode that an override sets. -/
def mode? : Override → Option OutputMode
  | .switch (.output mode) => some mode
  | _ => none

end Override

/-- The last thing that overrides give, or `own` if they give none. -/
def lastGiven {α : Type} (given : Override → Option α) (overrides : List Override) (own : α) : α :=
  (overrides.filterMap given).getLastD own

section lastGiven
variable {α : Type} (given : Override → Option α)

theorem lastGiven_single (o : Override) (own : α) :
    lastGiven given [o] own = (given o).getD own := by
  cases h : given o <;> simp [lastGiven, h]

theorem lastGiven_append (front back : List Override) (own : α) :
    lastGiven given (front ++ back) own = lastGiven given back (lastGiven given front own) := by
  simp only [lastGiven, List.getLastD_eq_getLast?, List.filterMap_append, List.getLast?_append]
  cases (back.filterMap given).getLast? <;> rfl

/-- What is given last is given by one of the overrides. -/
theorem exists_lastGiven {overrides : List Override} {o : Override} (ho : o ∈ overrides)
    (hgiven : (given o).isSome = true) (own : α) :
    ∃ last ∈ overrides, given last = some (lastGiven given overrides own) := by
  obtain ⟨a, ha⟩ := Option.isSome_iff_exists.mp hgiven
  have hne : overrides.filterMap given ≠ [] :=
    List.ne_nil_of_mem (List.mem_filterMap.mpr ⟨o, ho, ha⟩)
  rw [lastGiven, List.getLastD_eq_getLast?, List.getLast?_eq_some_getLast hne]
  exact List.mem_filterMap.mp (List.getLast_mem hne)

end lastGiven

namespace Config
variable {config next config' : Config}

/-- What a row of overrides makes of settings.  A setting is the one that is given last, or as
before; a switch is on if it was or if it is turned on. -/
structure OverriddenBy (config : Config) (overrides : List Override) (config' : Config) : Prop where
  pattern_eq : config'.pattern = lastGiven (Override.word? .pattern) overrides config.pattern
  count_eq : some config'.count =
    lastGiven (fun o => (o.word? .count).map readCount?) overrides (some config.count)
  seed_eq : some config'.seed =
    lastGiven (fun o => (o.word? .seed).map readSeed?) overrides (some config.seed)
  cataloguePath_eq : config'.cataloguePath =
    lastGiven (fun o => (o.word? .catalogue).map some) overrides config.cataloguePath
  output_eq : config'.output = lastGiven Override.mode? overrides config.output
  trace_iff : config'.trace = true ↔ config.trace = true ∨ .switch .trace ∈ overrides
  noColor_iff : config'.noColor = true ↔ config.noColor = true ∨ .switch .noColor ∈ overrides
  help_iff : config'.help = true ↔ config.help = true ∨ .switch .help ∈ overrides

namespace OverriddenBy

theorem refl (config : Config) : config.OverriddenBy [] config :=
  ⟨rfl, rfl, rfl, rfl, rfl, by simp, by simp, by simp⟩

theorem trans {front back : List Override} (h : config.OverriddenBy front next)
    (h' : next.OverriddenBy back config') : config.OverriddenBy (front ++ back) config' where
  pattern_eq := by rw [h'.pattern_eq, h.pattern_eq, lastGiven_append]
  count_eq := by rw [h'.count_eq, h.count_eq, lastGiven_append]
  seed_eq := by rw [h'.seed_eq, h.seed_eq, lastGiven_append]
  cataloguePath_eq := by rw [h'.cataloguePath_eq, h.cataloguePath_eq, lastGiven_append]
  output_eq := by rw [h'.output_eq, h.output_eq, lastGiven_append]
  trace_iff := by rw [h'.trace_iff, h.trace_iff, List.mem_append, or_assoc]
  noColor_iff := by rw [h'.noColor_iff, h.noColor_iff, List.mem_append, or_assoc]
  help_iff := by rw [h'.help_iff, h.help_iff, List.mem_append, or_assoc]

/-- Overrides make one thing of settings. -/
theorem unique {overrides : List Override} (h : config.OverriddenBy overrides next)
    (h' : config.OverriddenBy overrides config') : next = config' := by
  have hcount := Option.some.inj (h.count_eq.trans h'.count_eq.symm)
  have hseed := Option.some.inj (h.seed_eq.trans h'.seed_eq.symm)
  have hpattern := h.pattern_eq.trans h'.pattern_eq.symm
  have hpath := h.cataloguePath_eq.trans h'.cataloguePath_eq.symm
  have houtput := h.output_eq.trans h'.output_eq.symm
  have htrace := Bool.eq_iff_iff.mpr (h.trace_iff.trans h'.trace_iff.symm)
  have hcolor := Bool.eq_iff_iff.mpr (h.noColor_iff.trans h'.noColor_iff.symm)
  have hhelp := Bool.eq_iff_iff.mpr (h.help_iff.trans h'.help_iff.symm)
  cases next
  cases config'
  simp only [Config.mk.injEq]
  exact ⟨hpattern, hcount, hseed, hpath, houtput, htrace, hcolor, hhelp⟩

/-- A count that was overridden is small enough to be shown. -/
theorem count_le {overrides : List Override} (h : config.OverriddenBy overrides config')
    (hallowed : ∀ o ∈ overrides, o.Allowed) {word : String}
    (hmem : .value .count word ∈ overrides) : config'.count ≤ maxCount := by
  obtain ⟨last, hlast, hgiven⟩ :=
    exists_lastGiven (fun o => (o.word? .count).map readCount?) hmem rfl (some config.count)
  rw [← h.count_eq, Option.map_eq_some_iff] at hgiven
  obtain ⟨given, hword, hread⟩ := hgiven
  obtain rfl : last = .value .count given := by
    cases last with
    | value flag other =>
        rw [Override.word?] at hword
        split at hword
        · rename_i hflag
          cases hword
          rw [hflag]
        · cases hword
    | switch switch => cases hword
  exact Nat.not_lt.mp fun hlt => hallowed _ hlast _ (.largeCount hread hlt)

end OverriddenBy

/-! ### One override -/

/-- A value is refused for the reasons that its flag has, whatever the settings. -/
theorem setValue_eq_error_iff {flag : ValueFlag} {word : String} {e : CommandError} :
    config.setValue flag word = .error e ↔ flag.Refuses word e := by
  constructor
  · intro h
    cases flag with
    | pattern => cases h
    | catalogue => cases h
    | count =>
        cases hread : readCount? word with
        | none =>
            simp only [setValue, hread, Except.error.injEq] at h
            exact h ▸ .unreadCount hread
        | some count =>
            rcases Nat.lt_or_ge maxCount count with hlt | hle
            · simp only [setValue, hread, checkCount_of_lt hlt] at h
              cases h
              exact .largeCount hread hlt
            · simp only [setValue, hread, checkCount_of_le hle] at h
              cases h
    | seed =>
        cases hread : readSeed? word with
        | none =>
            simp only [setValue, hread, Except.error.injEq] at h
            exact h ▸ .unreadSeed hread
        | some seed =>
            simp only [setValue, hread] at h
            cases h
  · intro h
    cases h with
    | unreadCount hread => simp only [setValue, hread]
    | largeCount hread hlt => simp only [setValue, hread, checkCount_of_lt hlt, Except.map]
    | unreadSeed hread => simp only [setValue, hread]

theorem exists_setValue {flag : ValueFlag} {word : String}
    (hallowed : (Override.value flag word).Allowed) (config : Config) :
    ∃ next, config.setValue flag word = .ok next := by
  cases h : config.setValue flag word with
  | error e => exact absurd (setValue_eq_error_iff.mp h) (hallowed e)
  | ok next => exact ⟨next, rfl⟩

/-- A value that is set is the last one given for its flag, and no other setting changes. -/
theorem overriddenBy_value {flag : ValueFlag} {word : String}
    (h : config.setValue flag word = .ok next) : config.OverriddenBy [.value flag word] next := by
  cases flag with
  | pattern =>
      cases h
      constructor <;> simp [lastGiven_single, Override.word?, Override.mode?]
  | catalogue =>
      cases h
      constructor <;> simp [lastGiven_single, Override.word?, Override.mode?]
  | count =>
      cases hread : readCount? word with
      | none => simp [setValue, hread] at h
      | some count =>
          rcases Nat.lt_or_ge maxCount count with hlt | hle
          · simp only [setValue, hread, checkCount_of_lt hlt] at h
            cases h
          · simp only [setValue, hread, checkCount_of_le hle] at h
            cases h
            constructor <;> simp [lastGiven_single, Override.word?, Override.mode?, hread]
  | seed =>
      cases hread : readSeed? word with
      | none => simp [setValue, hread] at h
      | some seed =>
          simp only [setValue, hread] at h
          cases h
          constructor <;> simp [lastGiven_single, Override.word?, Override.mode?, hread]

/-- A switch turns its own setting on. -/
theorem overriddenBy_switch (config : Config) (switch : Switch) :
    config.OverriddenBy [.switch switch] (config.turnOn switch) := by
  cases switch <;> constructor <;>
    simp [lastGiven_single, turnOn, Override.word?, Override.mode?]

/-! ### Rows of overrides -/

/-- Allowed overrides lead to settings from which the arguments behind them go on. -/
theorem exists_overriddenBy {front : List String} {overrides : List Override}
    (hscans : Scans front overrides) (hallowed : ∀ o ∈ overrides, o.Allowed) (config : Config) :
    ∃ config', config.OverriddenBy overrides config' ∧ ∀ back : List String,
      config.applyArguments (front ++ back) = config'.applyArguments back := by
  induction hscans generalizing config with
  | nil => exact ⟨config, .refl config, fun _ => rfl⟩
  | @value argument word flag rest overrides hflag _ ih =>
      obtain ⟨hfirst, hrest⟩ := List.forall_mem_cons.mp hallowed
      obtain ⟨next, hnext⟩ := exists_setValue hfirst config
      obtain ⟨config', hoverridden, happly⟩ := ih hrest next
      refine ⟨config', (overriddenBy_value hnext).trans hoverridden, fun back => ?_⟩
      simp only [List.cons_append, applyArguments, hflag, hnext]
      exact happly back
  | @switch argument switch rest overrides hflag _ ih =>
      obtain ⟨-, hrest⟩ := List.forall_mem_cons.mp hallowed
      obtain ⟨config', hoverridden, happly⟩ := ih hrest (config.turnOn switch)
      refine ⟨config', (overriddenBy_switch config switch).trans hoverridden, fun back => ?_⟩
      simp only [List.cons_append, applyArguments, hflag]
      exact happly back

theorem applyArguments_of_faultAt {arguments : List String} {e : CommandError}
    (h : FaultAt arguments e) (config : Config) : config.applyArguments arguments = .error e := by
  cases h with
  | unknown hflag => simp only [applyArguments, hflag]
  | missing hflag => simp only [applyArguments, hflag]
  | refused hflag hrefuses =>
      simp only [applyArguments, hflag, setValue_eq_error_iff.mpr hrefuses]

theorem applyArguments_eq_ok_iff {arguments : List String} :
    config.applyArguments arguments = .ok config' ↔ ∃ overrides, Scans arguments overrides ∧
      (∀ o ∈ overrides, o.Allowed) ∧ config.OverriddenBy overrides config' := by
  constructor
  · intro h
    obtain ⟨front, rest, overrides, rfl, hscans, hallowed, hrest⟩ := exists_scan arguments
    obtain ⟨next, hoverridden, happly⟩ := exists_overriddenBy hscans hallowed config
    rw [happly] at h
    rcases hrest with rfl | ⟨e, hfault⟩
    · cases h
      exact ⟨overrides, (List.append_nil front).symm ▸ hscans, hallowed, hoverridden⟩
    · rw [applyArguments_of_faultAt hfault] at h
      cases h
  · rintro ⟨overrides, hscans, hallowed, hoverridden⟩
    obtain ⟨next, hnext, happly⟩ := exists_overriddenBy hscans hallowed config
    obtain rfl := hnext.unique hoverridden
    exact List.append_nil arguments ▸ happly []

theorem applyArguments_eq_error_iff {arguments : List String} {e : CommandError} :
    config.applyArguments arguments = .error e ↔ ∃ front rest overrides,
      arguments = front ++ rest ∧ Scans front overrides ∧ (∀ o ∈ overrides, o.Allowed) ∧
      FaultAt rest e := by
  constructor
  · intro h
    obtain ⟨front, rest, overrides, rfl, hscans, hallowed, hrest⟩ := exists_scan arguments
    obtain ⟨next, -, happly⟩ := exists_overriddenBy hscans hallowed config
    rw [happly] at h
    rcases hrest with rfl | ⟨e', hfault⟩
    · cases h
    · rw [applyArguments_of_faultAt hfault] at h
      cases h
      exact ⟨front, rest, overrides, rfl, hscans, hallowed, hfault⟩
  · rintro ⟨front, rest, overrides, rfl, hscans, hallowed, hfault⟩
    obtain ⟨next, -, happly⟩ := exists_overriddenBy hscans hallowed config
    rw [happly, applyArguments_of_faultAt hfault]

/-- **Flags override from left to right, the last one wins, and the first fault stops.**  More
arguments go on from what the ones before have set, and mend no fault but a missing value. -/
theorem applyArguments_overrides (config : Config) (front back : List String) :
    (∀ config', config.applyArguments front = .ok config' →
      config.applyArguments (front ++ back) = config'.applyArguments back) ∧
    (∀ e, config.applyArguments front = .error e → (∀ flag, e ≠ .missingValue flag) →
      config.applyArguments (front ++ back) = .error e) ∧
    (∀ config', config.applyArguments front = .ok config' ↔ ∃ overrides,
      Scans front overrides ∧ (∀ o ∈ overrides, o.Allowed) ∧
      config.OverriddenBy overrides config' ∧
      ∀ word, .value .count word ∈ overrides → config'.count ≤ maxCount) ∧
    (∀ e, config.applyArguments front = .error e ↔ ∃ before rest overrides,
      front = before ++ rest ∧ Scans before overrides ∧ (∀ o ∈ overrides, o.Allowed) ∧
      FaultAt rest e) := by
  refine ⟨fun config' h => ?_, fun e h hvalue => ?_, fun config' => ?_,
    fun e => applyArguments_eq_error_iff⟩
  · obtain ⟨overrides, hscans, hallowed, hoverridden⟩ := applyArguments_eq_ok_iff.mp h
    obtain ⟨next, hnext, happly⟩ := exists_overriddenBy hscans hallowed config
    obtain rfl := hnext.unique hoverridden
    exact happly back
  · obtain ⟨before, rest, overrides, rfl, hscans, hallowed, hfault⟩ :=
      applyArguments_eq_error_iff.mp h
    exact applyArguments_eq_error_iff.mpr ⟨before, rest ++ back, overrides,
      List.append_assoc _ _ _, hscans, hallowed, hfault.append hvalue back⟩
  · rw [applyArguments_eq_ok_iff]
    constructor
    · rintro ⟨overrides, hscans, hallowed, hoverridden⟩
      exact ⟨overrides, hscans, hallowed, hoverridden,
        fun word hmem => hoverridden.count_le hallowed hmem⟩
    · rintro ⟨overrides, hscans, hallowed, hoverridden, -⟩
      exact ⟨overrides, hscans, hallowed, hoverridden⟩

/-- A value that is spelled like a flag, a count that is given twice, and a bad seed behind which
nothing counts. -/
theorem standard_overrides :
    standard.applyArguments (["--pattern", "--json", "--count", "9"] ++ ["--count", "3"]) =
      { standard with pattern := "--json", count := 9 }.applyArguments ["--count", "3"] ∧
    standard.applyArguments (["--trace", "--seed", "x"] ++ ["--count"]) =
      .error (.invalidSeed "x") ∧
    ∃ overrides, Scans ["--pattern", "--json", "--count", "9"] overrides ∧
      standard.OverriddenBy overrides { standard with pattern := "--json", count := 9 } := by
  have hset : standard.applyArguments ["--pattern", "--json", "--count", "9"] =
      .ok { standard with pattern := "--json", count := 9 } := by decide +kernel
  have hrefused : standard.applyArguments ["--trace", "--seed", "x"] =
      .error (.invalidSeed "x") := by decide +kernel
  refine ⟨(applyArguments_overrides standard _ _).1 _ hset,
    (applyArguments_overrides standard _ _).2.1 _ hrefused (by simp), ?_⟩
  obtain ⟨overrides, hscans, -, hoverridden, -⟩ :=
    ((applyArguments_overrides standard _ []).2.2.1 _).mp hset
  exact ⟨overrides, hscans, hoverridden⟩

end Config

end PieceSequencer
