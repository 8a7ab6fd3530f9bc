import Mathlib.Data.List.Induction
import Mathlib.Data.Nat.Digits.Defs
import TapeLang.Command.Options

/-!
# TapeLang.Proofs.Arguments — arguments as a sequence of items

What can stand among the arguments is said here without reading them: a
`Phrase` is an item with the words that write it, and a list of arguments is
in order if it is a sequence of phrases. Reading from the left then finds
these phrases, or it stops behind the last one that is whole.

* `stepCount?_eq_some_iff` — how a number of steps is written;
* `readsOrStops` — every list is a sequence of phrases, or has a first
  place where no phrase begins;
* `Asks.apply` and `asks_ofItems` — what the options say about the items, by
  one more item at a time;
* `arguments_are_phrases` — which arguments are accepted, what they ask for,
  what is wrong with the others, and that order matters among file names and
  among step limits only.
-/

namespace TapeLang.Command

/-! ## Numbers of steps -/

/-- The row of decimal digits, at least one, writes the number `n`, which is
below 2⁶⁴. -/
structure Digits (digits : List Char) (n : Nat) : Prop where
  nonempty : digits ≠ []
  decimal : ∀ c ∈ digits, '0' ≤ c ∧ c ≤ '9'
  value : n = Nat.ofDigits 10 (digits.reverse.map fun c => c.toNat - '0'.toNat)
  bounded : n < 2 ^ 64

/-- `text` writes the number `n` of steps: as a row of digits, with at most
one plus in front. -/
def WritesCount (text : String) (n : Nat) : Prop :=
  ∃ digits, (text.toList = digits ∨ text.toList = '+' :: digits) ∧ Digits digits n

theorem digitsValue_eq (digits : List Char) :
    digitsValue digits = Nat.ofDigits 10 (digits.reverse.map fun c => c.toNat - '0'.toNat) := by
  rw [digitsValue, Nat.ofDigits_eq_foldr, List.foldr_map, List.foldr_reverse]
  simp only [Nat.cast_id, Nat.add_comm]

theorem isDigit_iff (c : Char) : c.isDigit = true ↔ '0' ≤ c ∧ c ≤ '9' := by
  simp [Char.isDigit, Char.le_def]

theorem digits_iff {digits : List Char} {n : Nat} :
    (digits ≠ [] ∧ digits.all Char.isDigit ∧ digitsValue digits < UInt64.size) ∧
      digitsValue digits = n ↔ Digits digits n := by
  simp only [List.all_eq_true, isDigit_iff]
  constructor
  · rintro ⟨⟨hne, hall, hlt⟩, rfl⟩
    exact ⟨hne, hall, digitsValue_eq digits, hlt⟩
  · rintro ⟨hne, hall, hvalue, hlt⟩
    rw [← digitsValue_eq] at hvalue
    subst hvalue
    exact ⟨⟨hne, hall, hlt⟩, rfl⟩

theorem Digits.head?_ne_plus {digits : List Char} {n : Nat} (h : Digits digits n) :
    digits.head? ≠ some '+' := by
  intro hplus
  have hdecimal := h.decimal '+' (List.mem_of_mem_head? hplus)
  exact absurd hdecimal (by decide)

theorem stepCount?_eq_some_iff {text : String} {n : Nat} :
    stepCount? text = some n ↔ WritesCount text n := by
  unfold stepCount? WritesCount
  simp only [Option.ite_none_right_eq_some, Option.some.injEq, digits_iff]
  split
  next rest htext =>
    constructor
    · intro h
      exact ⟨rest, Or.inr htext, h⟩
    · rintro ⟨digits, rfl | hdigits, h⟩
      -- a plus is no digit, so the text has only one reading
      · exact absurd (by rw [htext]; rfl) h.head?_ne_plus
      · rw [htext] at hdigits
        rwa [(List.cons.inj hdigits).2]
  next hplus =>
    constructor
    · intro h
      exact ⟨text.toList, Or.inl rfl, h⟩
    · rintro ⟨digits, rfl | hdigits, h⟩
      · exact h
      · exact absurd hdigits (hplus digits)

theorem stepCount?_eq_none_iff {text : String} :
    stepCount? text = none ↔ ∀ n, ¬ WritesCount text n := by
  simp only [Option.eq_none_iff_forall_ne_some, ne_eq, stepCount?_eq_some_iff]

/-! ## Phrases -/

/-- The words that name a switch. -/
def Flag.words : Flag → List String
  | .run => ["--run"]
  | .listing => ["--bc", "--bytecode"]
  | .tokens => ["--tokens"]
  | .noColor => ["--no-color"]
  | .pretty => ["--pretty"]
  | .noOpt => ["--no-opt"]

/-- The words write the item. -/
inductive Item.Written : Item → List String → Prop where
  | flag {f : Flag} {word : String} (h : word ∈ f.words) : Written (.flag f) [word]
  | maxSteps {n : Nat} {value : String} (h : WritesCount value n) :
      Written (.maxSteps n) ["--max-steps", value]
  | file {name : String} (h : name.toList.head? ≠ some '-') : Written (.file name) [name]

/-- An item as it stands among the arguments. -/
structure Phrase where
  item : Item
  words : List String
  written : item.Written words

/-- The arguments that a sequence of phrases makes. -/
def spoken (phrases : List Phrase) : List String :=
  phrases.flatMap (·.words)

@[simp]
theorem spoken_cons (phrase : Phrase) (phrases : List Phrase) :
    spoken (phrase :: phrases) = phrase.words ++ spoken phrases := by
  simp [spoken]

/-- No phrase begins at the first of these arguments, and `why` says so. -/
inductive Stops : List String → String → Prop where
  | unknownFlag {arg : String} {rest : List String} (hdash : arg.toList.head? = some '-')
      (hflag : ∀ f : Flag, arg ∉ f.words) (hlimit : arg ≠ "--max-steps") :
      Stops (arg :: rest) ("unknown flag '" ++ arg ++ "'")
  | invalidStepCount {value : String} {rest : List String} (h : ∀ n, ¬ WritesCount value n) :
      Stops ("--max-steps" :: value :: rest) ("invalid step count '" ++ value ++ "'")
  | missingStepCount : Stops ["--max-steps"] "--max-steps needs a value"

theorem ofString?_eq_some_iff {word : String} {f : Flag} :
    Flag.ofString? word = some f ↔ word ∈ f.words := by
  constructor
  · intro h
    unfold Flag.ofString? at h
    split at h <;> cases h <;> simp [Flag.words]
  · intro h
    cases f <;> simp only [Flag.words, List.mem_cons, List.not_mem_nil, or_false] at h
    case listing => rcases h with rfl | rfl <;> rfl
    all_goals subst h; rfl

theorem ofString?_eq_none_iff {word : String} :
    Flag.ofString? word = none ↔ ∀ f : Flag, word ∉ f.words := by
  simp only [Option.eq_none_iff_forall_ne_some, ne_eq, ofString?_eq_some_iff]

theorem head?_of_mem_words {word : String} {f : Flag} (h : word ∈ f.words) :
    word.toList.head? = some '-' := by
  cases f <;> simp only [Flag.words, List.mem_cons, List.not_mem_nil, or_false] at h
  case listing => rcases h with rfl | rfl <;> decide
  all_goals subst h; decide

/-! ## Reading -/

theorem readAll_switch {word : String} {f : Flag} (h : Flag.ofString? word = some f)
    (rest : List String) :
    Item.readAll (word :: rest) = (Item.readAll rest).map (.flag f :: ·) := by
  have hlimit : word ≠ "--max-steps" := by
    rintro rfl
    cases h
  simp [Item.readAll, h]

/-- What is neither a step limit nor a switch has to be a file name. -/
theorem readAll_other {arg : String} (hlimit : arg ≠ "--max-steps")
    (hflag : Flag.ofString? arg = none) (rest : List String) :
    Item.readAll (arg :: rest) =
      if looksLikeFlag arg then .error (.unknownFlag arg)
      else (Item.readAll rest).map (.file arg :: ·) := by
  simp [Item.readAll, hflag]

/-- A phrase is read as its item. -/
theorem readAll_words_append (phrase : Phrase) (rest : List String) :
    Item.readAll (phrase.words ++ rest) = (Item.readAll rest).map (phrase.item :: ·) := by
  obtain ⟨item, words, written⟩ := phrase
  cases written with
  | flag h => exact readAll_switch (ofString?_eq_some_iff.mpr h) rest
  | @maxSteps n value h =>
      have hcount : stepCount? value = some n := stepCount?_eq_some_iff.mpr h
      simp [Item.readAll, hcount]
  | @file name h =>
      -- without a dash in front it is neither `--max-steps` nor a switch
      have hlimit : name ≠ "--max-steps" := by
        rintro rfl
        exact h (by decide)
      have hflag : Flag.ofString? name = none :=
        ofString?_eq_none_iff.mpr fun f hf => h (head?_of_mem_words hf)
      simp [readAll_other hlimit hflag, looksLikeFlag, h]

theorem readAll_spoken_append (phrases : List Phrase) (rest : List String) :
    Item.readAll (spoken phrases ++ rest) =
      (Item.readAll rest).map (phrases.map (·.item) ++ ·) := by
  induction phrases with
  | nil => cases h : Item.readAll rest <;> simp [spoken, Except.map, h]
  | cons phrase phrases ih =>
      rw [spoken_cons, List.append_assoc, readAll_words_append, ih]
      cases Item.readAll rest <;> simp [Except.map]

theorem readAll_spoken (phrases : List Phrase) :
    Item.readAll (spoken phrases) = .ok (phrases.map (·.item)) := by
  have hread := readAll_spoken_append phrases []
  simpa [Item.readAll, Except.map] using hread

/-- Where no phrase begins, reading says why. -/
theorem Stops.readAll {rest : List String} {why : String} (h : Stops rest why) :
    ∃ e, Item.readAll rest = .error e ∧ e.message = why := by
  cases h with
  | @unknownFlag arg rest hdash hflag hlimit =>
      refine ⟨.unknownFlag arg, ?_, rfl⟩
      simp [readAll_other hlimit (ofString?_eq_none_iff.mpr hflag), looksLikeFlag, hdash]
  | @invalidStepCount value rest h =>
      refine ⟨.invalidStepCount value, ?_, rfl⟩
      simp [Item.readAll, stepCount?_eq_none_iff.mpr h]
  | missingStepCount => exact ⟨.missingStepCount, by simp [Item.readAll], rfl⟩

/-- The arguments are a sequence of phrases, or they have a first place where
none begins. -/
def ReadsOrStops (args : List String) : Prop :=
  (∃ phrases, args = spoken phrases) ∨
    ∃ phrases rest why, args = spoken phrases ++ rest ∧ Stops rest why

theorem ReadsOrStops.prepend {args : List String} (h : ReadsOrStops args) (phrase : Phrase) :
    ReadsOrStops (phrase.words ++ args) := by
  rcases h with ⟨phrases, rfl⟩ | ⟨phrases, rest, why, rfl, hstops⟩
  · exact Or.inl ⟨phrase :: phrases, by rw [spoken_cons]⟩
  · exact Or.inr ⟨phrase :: phrases, rest, why, by rw [spoken_cons, List.append_assoc], hstops⟩

theorem Stops.readsOrStops {args : List String} {why : String} (h : Stops args why) :
    ReadsOrStops args :=
  Or.inr ⟨[], args, why, rfl, h⟩

/-- The induction follows the reader, which takes one or two arguments at a
time. -/
theorem readsOrStops (args : List String) : ReadsOrStops args := by
  -- either the reading stops at an argument, or it goes on behind a phrase
  fun_induction Item.readAll args with
  | case1 => exact Or.inl ⟨[], rfl⟩
  | case2 => exact Stops.missingStepCount.readsOrStops
  | case3 value rest hcount =>
      exact (Stops.invalidStepCount (stepCount?_eq_none_iff.mp hcount)).readsOrStops
  | case4 value rest n hcount ih =>
      exact ih.prepend ⟨.maxSteps n, _, .maxSteps (stepCount?_eq_some_iff.mp hcount)⟩
  | case5 arg rest hlimit f hflag ih =>
      exact ih.prepend ⟨.flag f, _, .flag (ofString?_eq_some_iff.mp hflag)⟩
  | case6 arg rest hlimit hflag hdash =>
      -- a dash, and not one of the switches
      have hdash : arg.toList.head? = some '-' := by simpa [looksLikeFlag] using hdash
      exact (Stops.unknownFlag hdash (ofString?_eq_none_iff.mp hflag) hlimit).readsOrStops
  | case7 arg rest hlimit hflag hdash ih =>
      exact ih.prepend ⟨.file arg, _, .file (by simpa [looksLikeFlag] using hdash)⟩

/-! ## Options -/

/-- Whether a switch is set. -/
def Options.has (o : Options) : Flag → Bool
  | .run => o.run
  | .listing => o.listing
  | .tokens => o.tokens
  | .noColor => o.noColor
  | .pretty => o.pretty
  | .noOpt => !o.optimize

/-- The step limit that an item sets. -/
def Item.limit? : Item → Option Nat
  | .maxSteps n => some n
  | _ => none

/-- The file that an item names. -/
def Item.file? : Item → Option String
  | .file name => some name
  | _ => none

/-- The options are what the items ask for: a switch is set if it is among
them, the last step limit counts, and so does the first file name. -/
structure Asks (items : List Item) (o : Options) : Prop where
  flags : ∀ f, o.has f = true ↔ .flag f ∈ items
  limit : o.maxSteps = (items.filterMap Item.limit?).getLast?
  file : o.filename = (items.filterMap Item.file?).head?

theorem has_switch (o : Options) (f g : Flag) :
    (o.switch g).has f = true ↔ o.has f = true ∨ f = g := by
  cases f <;> cases g <;> simp [Options.has, Options.switch]

theorem maxSteps_switch (o : Options) (f : Flag) : (o.switch f).maxSteps = o.maxSteps := by
  cases f <;> rfl

theorem filename_switch (o : Options) (f : Flag) : (o.switch f).filename = o.filename := by
  cases f <;> rfl

/-- One more item is asked for. -/
theorem Asks.apply {items : List Item} {o : Options} (h : Asks items o) (item : Item) :
    Asks (items ++ [item]) (o.apply item) := by
  cases item with
  | flag g =>
      -- a switch leaves the count and the name alone
      refine ⟨?_, ?_, ?_⟩
      · intro f
        simp [Options.apply, has_switch, h.flags]
      · simp [Options.apply, maxSteps_switch, h.limit, Item.limit?]
      · simp [Options.apply, filename_switch, h.file, Item.file?]
  | maxSteps n =>
      -- the last count is the one that holds
      refine ⟨?_, ?_, ?_⟩
      · intro f
        have hhas : (o.apply (.maxSteps n)).has f = o.has f := by cases f <;> rfl
        simp [hhas, h.flags]
      · simp [Options.apply, Item.limit?]
      · simp [Options.apply, h.file, Item.file?]
  | file name =>
      -- a name counts only if there is none before it
      refine ⟨?_, ?_, ?_⟩
      · intro f
        have hhas : (o.apply (.file name)).has f = o.has f := by cases f <;> rfl
        simp [hhas, h.flags]
      · simp [Options.apply, h.limit, Item.limit?]
      · simp [Options.apply, h.file, Item.file?, List.head?_append]

theorem asks_ofItems (items : List Item) : Asks items (Options.ofItems items) := by
  induction items using List.reverseRecOn with
  | nil => exact ⟨by intro f; cases f <;> simp [Options.ofItems, Options.has], rfl, rfl⟩
  | append_singleton items item ih =>
      have hitems : Options.ofItems (items ++ [item]) = (Options.ofItems items).apply item := by
        simp [Options.ofItems]
      rw [hitems]
      exact ih.apply item

/-- What items ask for is one thing. -/
theorem Asks.unique {items : List Item} {o o' : Options} (h : Asks items o) (h' : Asks items o') :
    o = o' := by
  have hflags : ∀ f, o.has f = o'.has f := by
    intro f
    rw [Bool.eq_iff_iff, h.flags, h'.flags]
  have hlimit : o.maxSteps = o'.maxSteps := by rw [h.limit, h'.limit]
  have hfile : o.filename = o'.filename := by rw [h.file, h'.file]
  -- the switch says when not to optimize, and the option when to
  have hoptimize : o.optimize = o'.optimize := by
    simpa [Options.has] using hflags .noOpt
  cases o
  cases o'
  simp only [Options.mk.injEq]
  exact ⟨hflags .run, hflags .listing, hflags .tokens, hflags .noColor, hflags .pretty, hoptimize,
    hlimit, hfile⟩

/-- Items may change places, as long as file names stay in order among
themselves, and step limits too. -/
theorem Asks.reorder {items items' : List Item} {o : Options} (h : Asks items o)
    (hperm : items.Perm items') (hfiles : items.filterMap Item.file? = items'.filterMap Item.file?)
    (hlimits : items.filterMap Item.limit? = items'.filterMap Item.limit?) : Asks items' o where
  flags := by
    intro f
    rw [h.flags, hperm.mem_iff]
  limit := by rw [h.limit, hlimits]
  file := by rw [h.file, hfiles]

/-! ## Arguments -/

theorem ofArguments_spoken (phrases : List Phrase) :
    Options.ofArguments (spoken phrases) = .ok (Options.ofItems (phrases.map (·.item))) := by
  rw [Options.ofArguments, readAll_spoken]
  rfl

theorem Stops.ofArguments {rest : List String} {why : String} (h : Stops rest why)
    (phrases : List Phrase) :
    ∃ e, Options.ofArguments (spoken phrases ++ rest) = .error e ∧ e.message = why := by
  obtain ⟨e, he, hwhy⟩ := h.readAll
  refine ⟨e, ?_, hwhy⟩
  rw [Options.ofArguments, readAll_spoken_append, he]
  rfl

theorem ofArguments_eq_ok_iff {args : List String} {o : Options} :
    Options.ofArguments args = .ok o ↔
      ∃ phrases, args = spoken phrases ∧ Asks (phrases.map (·.item)) o := by
  constructor
  · intro h
    rcases readsOrStops args with ⟨phrases, rfl⟩ | ⟨phrases, rest, why, rfl, hstops⟩
    · rw [ofArguments_spoken] at h
      cases h
      exact ⟨phrases, rfl, asks_ofItems _⟩
    · obtain ⟨e, he, _⟩ := hstops.ofArguments phrases
      rw [he] at h
      cases h
  · rintro ⟨phrases, rfl, hasks⟩
    rw [ofArguments_spoken, hasks.unique (asks_ofItems _)]

theorem ofArguments_eq_error_iff {args : List String} {why : String} :
    (∃ e, Options.ofArguments args = .error e ∧ e.message = why) ↔
      ∃ phrases rest, args = spoken phrases ++ rest ∧ Stops rest why := by
  constructor
  · rintro ⟨e, he, hwhy⟩
    rcases readsOrStops args with ⟨phrases, rfl⟩ | ⟨phrases, rest, why', rfl, hstops⟩
    · -- phrases up to the end are no error
      rw [ofArguments_spoken] at he
      cases he
    · -- the place where the reading stops gives the reason, and there is one error only
      obtain ⟨e', he', hwhy'⟩ := hstops.ofArguments phrases
      rw [he] at he'
      cases he'
      rw [hwhy] at hwhy'
      exact ⟨phrases, rest, rfl, hwhy' ▸ hstops⟩
  · rintro ⟨phrases, rest, rfl, hstops⟩
    exact hstops.ofArguments phrases

/-- **Arguments are sequences of phrases.** They are accepted exactly if they
are one, and the options are then what its items ask for. Otherwise the
message is about the first place where no phrase begins. Phrases of accepted
arguments may change places, as long as file names stay in order among
themselves, and step limits too. -/
theorem arguments_are_phrases (args : List String) :
    ((∃ o, Options.ofArguments args = .ok o) ↔ ∃ phrases, args = spoken phrases) ∧
    (∀ o, Options.ofArguments args = .ok o ↔
      ∃ phrases, args = spoken phrases ∧ Asks (phrases.map (·.item)) o) ∧
    (∀ why, (∃ e, Options.ofArguments args = .error e ∧ e.message = why) ↔
      ∃ phrases rest, args = spoken phrases ++ rest ∧ Stops rest why) ∧
    ∀ phrases phrases' : List Phrase, args = spoken phrases → phrases.Perm phrases' →
      (phrases.map (·.item)).filterMap Item.file? =
        (phrases'.map (·.item)).filterMap Item.file? →
      (phrases.map (·.item)).filterMap Item.limit? =
        (phrases'.map (·.item)).filterMap Item.limit? →
      Options.ofArguments (spoken phrases') = Options.ofArguments args := by
  refine ⟨⟨?_, ?_⟩, fun o => ofArguments_eq_ok_iff, fun why => ofArguments_eq_error_iff, ?_⟩
  · rintro ⟨o, ho⟩
    obtain ⟨phrases, hargs, _⟩ := ofArguments_eq_ok_iff.mp ho
    exact ⟨phrases, hargs⟩
  · rintro ⟨phrases, rfl⟩
    exact ⟨_, ofArguments_spoken phrases⟩
  · rintro phrases phrases' rfl hperm hfiles hlimits
    have hasks := (asks_ofItems (phrases.map (·.item))).reorder (hperm.map _) hfiles hlimits
    rw [ofArguments_spoken phrases]
    exact ofArguments_eq_ok_iff.mpr ⟨phrases', rfl, hasks⟩

/-- Two file names, the second of them empty, and two step limits, the first
of them with a sign, around a switch that is then given last. -/
theorem moved_switch_changes_nothing :
    Options.ofArguments ["--max-steps", "+007", "a", "--bc", "", "--max-steps", "5"] =
      .ok { listing := true, maxSteps := some 5, filename := some "a" } ∧
    Options.ofArguments ["--max-steps", "+007", "a", "", "--max-steps", "5", "--bc"] =
      .ok { listing := true, maxSteps := some 5, filename := some "a" } := by
  have hseven : WritesCount "+007" 7 := stepCount?_eq_some_iff.mp (by decide +kernel)
  have hfive : WritesCount "5" 5 := stepCount?_eq_some_iff.mp (by decide +kernel)
  let seven : Phrase := ⟨.maxSteps 7, _, .maxSteps hseven⟩
  let five : Phrase := ⟨.maxSteps 5, _, .maxSteps hfive⟩
  let a : Phrase := ⟨.file "a", _, .file (by decide)⟩
  let blank : Phrase := ⟨.file "", _, .file (by decide)⟩
  let listing : Phrase := ⟨.flag .listing, _, .flag (show "--bc" ∈ Flag.listing.words by decide)⟩
  have hfirst : Options.ofArguments ["--max-steps", "+007", "a", "--bc", "", "--max-steps", "5"] =
      .ok { listing := true, maxSteps := some 5, filename := some "a" } := by
    decide +kernel
  -- the switch moves behind a name and a count, which keep their order
  have hperm : [seven, a, listing, blank, five].Perm [seven, a, blank, five, listing] :=
    ((List.perm_append_singleton listing [blank, five]).symm.cons a).cons seven
  refine ⟨hfirst, ?_⟩
  rw [← hfirst]
  exact (arguments_are_phrases _).2.2.2 [seven, a, listing, blank, five]
    [seven, a, blank, five, listing] rfl hperm rfl rfl

end TapeLang.Command
