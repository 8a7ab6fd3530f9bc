import TapeLang.Command
import TapeLang.Proofs.Arguments
import TapeLang.Proofs.Rejection
import TapeLang.Proofs.Unsupported

/-!
# TapeLang.Proofs.Modes — what a command does, and to which file

A command acts in one of nine modes. When each of them is called for is said
here on its own, without regard to the others; of those called for, the first
in `precedence` is the one that is carried out. Only the last mode can touch
a file.

* `FileTree.write_output` — writing the output file changes that file only;
* `firstDue_leaves` — the first mode that is called for is carried out;
* `run?_eq_some` — what a command leaves of the files;
* `only_plain_compilation_writes` — both together.
-/

namespace TapeLang

/-! ## The output file -/

namespace FileTree

/-- Where the output file is. -/
def outputLocation (t : FileTree) : Location :=
  "generated.c" :: t.workingDirectory

theorem locate_output {t : FileTree} {l : Location} (h : t.locate "generated.c" = .ok l) :
    l = t.outputLocation := by
  have hnames : names "generated.c" = ["generated.c"] := by decide
  have horigin : t.origin "generated.c" = t.workingDirectory := by
    simp [origin]
  -- the name has no directory part, so that one step of the walk leads to it
  rw [locate, if_neg (by decide), if_neg (by decide), hnames, horigin, walk] at h
  split at h
  · cases h
  · cases h
  · rw [if_neg (by decide), if_neg (by decide), if_neg (by decide), walk] at h
    exact (Except.ok.inj h).symm

theorem write_output {t t' : FileTree} {content : ByteArray}
    (h : t.write "generated.c" content = .ok t') :
    t' = t.update t.outputLocation (.file content) := by
  unfold write at h
  split at h
  · cases h
  · split at h
    · cases h
    next l hlocate =>
      split at h <;> cases h
      rw [locate_output hlocate]

theorem entry_update_self (t : FileTree) (l : Location) (n : Node) :
    (t.update l n).entry l = some n := by
  simp [update]

theorem entry_update_of_ne (t : FileTree) {k l : Location} (n : Node) (h : k ≠ l) :
    (t.update l n).entry k = t.entry k := by
  simp [update, h]

end FileTree

namespace Command

/-! ## Modes -/

/-- What a command can come to. -/
inductive Mode where
  /-- Help is asked for, or nothing at all. -/
  | help
  /-- The arguments cannot be read. -/
  | badArguments
  /-- No file is named. -/
  | noFile
  /-- The file cannot be read. -/
  | noSource
  /-- The tokens are shown. -/
  | tokens
  /-- The text does not compile. -/
  | noProgram
  /-- The listing is shown. -/
  | listing
  /-- The program is run. -/
  | run
  /-- C text is written. -/
  | cText
deriving DecidableEq, Repr

/-- The modes, each before those that it takes precedence over. -/
def precedence : List Mode :=
  [.help, .badArguments, .noFile, .noSource, .tokens, .noProgram, .listing, .run, .cText]

/-- The switch is among the items of the arguments. -/
def Given (args : List String) (f : Flag) : Prop :=
  ∃ phrases, args = spoken phrases ∧ .flag f ∈ phrases.map (·.item)

/-- The file is the first that the items of the arguments name. -/
def Names (args : List String) (path : String) : Prop :=
  ∃ phrases, args = spoken phrases ∧
    ((phrases.map (·.item)).filterMap Item.file?).head? = some path

/-- The mode is called for, whether or not another one takes precedence. -/
def Mode.Due (args : List String) (tree : FileTree) : Mode → Prop
  | .help => args = [] ∨ "--help" ∈ args ∨ "-h" ∈ args
  | .badArguments => ∀ phrases, args ≠ spoken phrases
  | .noFile => ∀ path, ¬ Names args path
  | .noSource => ∃ path e, Names args path ∧ tree.readText path = .error e
  | .tokens => Given args .tokens
  | .noProgram => ∃ path source, Names args path ∧ tree.readText path = .ok source ∧
      ¬ BalancedText source.toList
  | .listing => Given args .listing
  | .run => Given args .run
  | .cText => True

/-- Of the modes in a list, this is the first that is called for. -/
inductive FirstDue (args : List String) (tree : FileTree) : List Mode → Mode → Prop where
  | here {mode : Mode} {rest : List Mode} (h : mode.Due args tree) :
      FirstDue args tree (mode :: rest) mode
  | later {other mode : Mode} {rest : List Mode} (h : ¬ other.Due args tree)
      (hrest : FirstDue args tree rest mode) : FirstDue args tree (other :: rest) mode

/-- What the command is asked to do with which text. -/
structure Request (args : List String) (tree : FileTree) (o : Options) (source : String) :
    Prop where
  accepted : Options.ofArguments args = .ok o
  readable : ∃ path, o.filename = some path ∧ tree.readText path = .ok source

/-- What a command leaves that tries to write the C text of a program. -/
def LeavesC (tree : FileTree) (out : Sink) (p : Program) (left : Option (Report × FileTree)) :
    Prop :=
  (∃ e, CSource.render p = .error e ∧ left = some (Report.failure (.compile e) out, tree)) ∨
  ∃ text, CSource.render p = .ok text ∧
    ((∃ e, tree.write "generated.c" text.toUTF8 = .error e ∧
        left = some (Report.failure (.writeOutput "generated.c" e.message) out, tree)) ∨
      ∃ tree', tree.write "generated.c" text.toUTF8 = .ok tree' ∧
        left = some ({ output := out.content }, tree'))

/-- What a command leaves in a mode. Only a run can have nothing to show for
the fuel that it is given. -/
def Mode.Leaves (fuel : Nat) (args : List String) (tree : FileTree) (out : Sink) (mode : Mode)
    (left : Option (Report × FileTree)) : Prop :=
  match mode with
  | .help => left = some (Report.printing usage out, tree)
  | .badArguments => ∃ phrases rest why, args = spoken phrases ++ rest ∧ Stops rest why ∧
      left = some
        (Report.printing usage out { code := 1, errors := "Error: " ++ why ++ "\n" }, tree)
  | .noFile => left = some (Report.printing usage out { code := 1 }, tree)
  | .noSource => ∃ path e, Names args path ∧ tree.readText path = .error e ∧
      left = some (Report.failure (.readSource path e.message) out, tree)
  | .tokens => ∃ o source, Request args tree o source ∧
      left = some (Report.printing
        (Token.Table.render ⟨!o.noColor, o.pretty⟩ (tokenize source)) out, tree)
  | .noProgram => ∃ o source e, Request args tree o source ∧ compile o.optimize source = .error e ∧
      left = some (Report.failure (.compile e) out, tree)
  | .listing => ∃ o source p, Request args tree o source ∧ compile o.optimize source = .ok p ∧
      left = some (Report.printing (Listing.titled p) out, tree)
  | .run => ∃ o source p, Request args tree o source ∧ compile o.optimize source = .ok p ∧
      left = (p.run? o.maxSteps fuel out).map fun r => (Report.ofResult r, tree)
  | .cText => ∃ o source p, Request args tree o source ∧ compile o.optimize source = .ok p ∧
      LeavesC tree out p left

/-! ## Standard output -/

/-- A sink that does not fail takes whatever is put into it. -/
theorem sendAll_put_of_reliable {out : Sink} (h : out.policy = .reliable) (bytes : List UInt8) :
    Writer.sendAll Writer.put out bytes =
      (none, { out with bytes := out.bytes ++ bytes.toArray }) := by
  induction bytes generalizing out with
  | nil => simp [Writer.sendAll]
  | cons byte bytes ih =>
      have hput : Writer.put out byte = (none, out.take byte) := by
        simp [Writer.put, Writer.write, Sink.write, h]
      have hbytes :
          (out.take byte).bytes ++ bytes.toArray = out.bytes ++ (byte :: bytes).toArray := by
        simp [Sink.take]
      have hreliable : (out.take byte).policy = .reliable := h
      rw [Writer.sendAll, hput]
      dsimp only
      rw [ih hreliable, hbytes]
      rfl

/-- It has all of a text that is printed. -/
theorem Report.printing_of_reliable {out : Sink} (h : out.policy = .reliable) (text : String)
    (r : Report) :
    Report.printing text out r = { r with output := out.content ++ text.toUTF8 } := by
  rw [printing, sendAll_put_of_reliable h]
  simp [Sink.content, ByteArray.ext_iff]

/-! ## Arguments and options -/

section

variable {args : List String} {o : Options}

/-- Whichever way accepted arguments are taken apart, the options are what is
asked for. -/
theorem asks_of_spoken (h : Options.ofArguments args = .ok o) {phrases : List Phrase}
    (hargs : args = spoken phrases) : Asks (phrases.map (·.item)) o := by
  subst hargs
  rw [ofArguments_spoken] at h
  rw [← Except.ok.inj h]
  exact asks_ofItems _

theorem given_iff (h : Options.ofArguments args = .ok o) (f : Flag) :
    Given args f ↔ o.has f = true := by
  constructor
  · rintro ⟨phrases, hargs, hf⟩
    exact ((asks_of_spoken h hargs).flags f).mpr hf
  · intro hf
    obtain ⟨phrases, hargs, hasks⟩ := ofArguments_eq_ok_iff.mp h
    exact ⟨phrases, hargs, (hasks.flags f).mp hf⟩

theorem names_iff (h : Options.ofArguments args = .ok o) (path : String) :
    Names args path ↔ o.filename = some path := by
  constructor
  · rintro ⟨phrases, hargs, hpath⟩
    rw [(asks_of_spoken h hargs).file, hpath]
  · intro hpath
    obtain ⟨phrases, hargs, hasks⟩ := ofArguments_eq_ok_iff.mp h
    exact ⟨phrases, hargs, by rw [← hasks.file, hpath]⟩

end

/-! ## The mode that is carried out -/

/-- A text that can be read is looked at for its brackets. -/
theorem noProgram_due_iff {args : List String} {tree : FileTree} {o : Options} {source : String}
    (h : Request args tree o source) :
    Mode.noProgram.Due args tree ↔ ¬ BalancedText source.toList := by
  obtain ⟨path, hpath, hsource⟩ := h.readable
  have hnames := names_iff h.accepted
  constructor
  · rintro ⟨path', source', hpath', hsource', hbalanced⟩
    rw [hnames, hpath, Option.some.injEq] at hpath'
    subst hpath'
    rw [hsource] at hsource'
    rwa [Except.ok.inj hsource']
  · intro hbalanced
    exact ⟨path, source, (hnames path).mpr hpath, hsource, hbalanced⟩

theorem leavesC {task : Task} {p : Program}
    (hfail : ∀ e, CSource.render p = .error e → task = .fail (.compile e))
    (hwrite : ∀ text, CSource.render p = .ok text → task = .write text) (fuel : Nat)
    (tree : FileTree) (out : Sink) : LeavesC tree out p (task.perform? fuel tree out) := by
  cases hrender : CSource.render p with
  | error e =>
      rw [hfail e hrender]
      exact Or.inl ⟨e, hrender, rfl⟩
  | ok text =>
      rw [hwrite text hrender]
      refine Or.inr ⟨text, hrender, ?_⟩
      cases hfile : tree.write "generated.c" text.toUTF8 with
      | error e => exact Or.inl ⟨e, rfl, by simp only [Task.perform?, outputFile, hfile]⟩
      | ok tree' => exact Or.inr ⟨tree', rfl, by simp only [Task.perform?, outputFile, hfile]⟩

/-- With the program at hand, three modes are left. -/
theorem program_leaves {args : List String} {tree : FileTree} {o : Options} {source : String}
    {p : Program} (h : Request args tree o source) (htokens : o.tokens = false)
    (hcompile : compile o.optimize source = .ok p) (fuel : Nat) (out : Sink) :
    ∃ mode, FirstDue args tree [.listing, .run, .cText] mode ∧
      mode.Leaves fuel args tree out ((Task.ofSource o source).perform? fuel tree out) := by
  have hlisting := given_iff h.accepted .listing
  have hrun := given_iff h.accepted .run
  simp only [Options.has] at hlisting hrun
  by_cases hl : o.listing = true
  · -- a listing is shown even when a run is asked for
    have htask : Task.ofSource o source = .display (Listing.titled p) := by
      simp [Task.ofSource, htokens, hcompile, hl]
    refine ⟨.listing, .here (hlisting.mpr hl), o, source, p, h, hcompile, ?_⟩
    rw [htask, Task.perform?]
  · by_cases hr : o.run = true
    · have htask : Task.ofSource o source = .run p o.maxSteps := by
        simp [Task.ofSource, htokens, hcompile, hl, hr]
      refine ⟨.run, .later (mt hlisting.mp hl) (.here (hrun.mpr hr)), o, source, p, h, hcompile, ?_⟩
      rw [htask, Task.perform?]
    · -- neither flag: the program is written as C, or rendering it fails
      refine ⟨.cText, .later (mt hlisting.mp hl) (.later (mt hrun.mp hr) (.here trivial)), o,
        source, p, h, hcompile, leavesC ?_ ?_ fuel tree out⟩
      · intro e he
        simp [Task.ofSource, htokens, hcompile, hl, hr, he]
      · intro text htext
        simp [Task.ofSource, htokens, hcompile, hl, hr, htext]

/-- With the text at hand, five modes are left. -/
theorem task_leaves {args : List String} {tree : FileTree} {o : Options} {source : String}
    (h : Request args tree o source) (fuel : Nat) (out : Sink) :
    ∃ mode, FirstDue args tree [.tokens, .noProgram, .listing, .run, .cText] mode ∧
      mode.Leaves fuel args tree out ((Task.ofSource o source).perform? fuel tree out) := by
  have htokens := given_iff h.accepted .tokens
  simp only [Options.has] at htokens
  by_cases ht : o.tokens = true
  · -- the tokens are shown before anything is compiled
    refine ⟨.tokens, .here (htokens.mpr ht), o, source, h, ?_⟩
    rw [Task.ofSource, if_pos ht, Task.perform?]
  · cases hcompile : compile o.optimize source with
    | error e =>
        have hdue : Mode.noProgram.Due args tree := by
          rw [noProgram_due_iff h, ← compile_isOk_iff]
          rintro ⟨p, hp⟩
          rw [hcompile] at hp
          cases hp
        refine ⟨.noProgram, .later (mt htokens.mp ht) (.here hdue), o, source, e, h, hcompile, ?_⟩
        rw [Task.ofSource, if_neg ht, hcompile, Task.perform?]
    | ok p =>
        have hprogram : ¬ Mode.noProgram.Due args tree := by
          rw [noProgram_due_iff h, ← compile_isOk_iff, not_not]
          exact ⟨p, hcompile⟩
        obtain ⟨mode, hfirst, hleaves⟩ := program_leaves h (by simpa using ht) hcompile fuel out
        exact ⟨mode, .later (mt htokens.mp ht) (.later hprogram hfirst), hleaves⟩

/-- With the options at hand, seven modes are left. -/
theorem options_leave {args : List String} {o : Options}
    (hhelp : ¬ (args = [] ∨ "--help" ∈ args ∨ "-h" ∈ args))
    (hargs : Options.ofArguments args = .ok o) (fuel : Nat) (tree : FileTree) (out : Sink) :
    ∃ mode, FirstDue args tree
        [.noFile, .noSource, .tokens, .noProgram, .listing, .run, .cText] mode ∧
      mode.Leaves fuel args tree out (run? fuel args tree out) := by
  have hnames := names_iff hargs
  cases hfile : o.filename with
  | none =>
      have hplan : Plan.ofArguments args = .noFile := by
        simp [Plan.ofArguments, hhelp, hargs, hfile]
      have hdue : Mode.noFile.Due args tree := by
        intro path hpath
        rw [hnames, hfile] at hpath
        cases hpath
      refine ⟨.noFile, .here hdue, ?_⟩
      rw [run?, hplan, Plan.perform?]
      rfl
  | some path =>
      have hplan : Plan.ofArguments args = .process path o := by
        simp [Plan.ofArguments, hhelp, hargs, hfile]
      have hpath := (hnames path).mpr hfile
      have hnoFile : ¬ Mode.noFile.Due args tree := fun hdue => hdue path hpath
      rw [run?, hplan, Plan.perform?]
      -- the file is named, so what is left turns on its contents
      cases hread : tree.readText path with
      | error e =>
          exact ⟨.noSource, .later hnoFile (.here ⟨path, e, hpath, hread⟩), path, e, hpath, hread,
            rfl⟩
      | ok source =>
          have hsource : ¬ Mode.noSource.Due args tree := by
            rintro ⟨path', e, hpath', herror⟩
            rw [hnames, hfile] at hpath'
            cases hpath'
            rw [hread] at herror
            cases herror
          obtain ⟨mode, hfirst, hleaves⟩ := task_leaves ⟨hargs, path, hfile, hread⟩ fuel out
          exact ⟨mode, .later hnoFile (.later hsource hfirst), hleaves⟩

/-- The first mode that is called for is carried out. -/
theorem firstDue_leaves (fuel : Nat) (args : List String) (tree : FileTree) (out : Sink) :
    ∃ mode, FirstDue args tree precedence mode ∧
      mode.Leaves fuel args tree out (run? fuel args tree out) := by
  by_cases hhelp : args = [] ∨ "--help" ∈ args ∨ "-h" ∈ args
  · refine ⟨.help, .here hhelp, ?_⟩
    rw [run?, Plan.ofArguments, if_pos hhelp, Plan.perform?]
    rfl
  · cases hargs : Options.ofArguments args with
    | error e =>
        -- the arguments are no phrases, and the reader stops at the first it cannot take
        have hdue : Mode.badArguments.Due args tree := by
          rintro phrases rfl
          rw [ofArguments_spoken] at hargs
          cases hargs
        have hplan : Plan.ofArguments args = .reject e := by
          simp [Plan.ofArguments, hhelp, hargs]
        obtain ⟨phrases, rest, hstop, hstops⟩ := ofArguments_eq_error_iff.mp ⟨e, hargs, rfl⟩
        refine ⟨.badArguments, .later hhelp (.here hdue), phrases, rest, _, hstop, hstops, ?_⟩
        rw [run?, hplan, Plan.perform?]
    | ok o =>
        have hgood : ¬ Mode.badArguments.Due args tree := by
          intro hdue
          obtain ⟨phrases, hphrases, _⟩ := ofArguments_eq_ok_iff.mp hargs
          exact hdue phrases hphrases
        obtain ⟨mode, hfirst, hleaves⟩ := options_leave hhelp hargs fuel tree out
        exact ⟨mode, .later hhelp (.later hgood hfirst), hleaves⟩

/-! ## Files -/

/-- The command compiles a file to C and is asked for nothing else: no help
and none of the other modes; the file that it names is text whose brackets
balance, and its program has a C text. -/
structure CompilesTo (args : List String) (tree : FileTree) (text : String) : Prop where
  given : args ≠ []
  noHelp : "--help" ∉ args ∧ "-h" ∉ args
  noMode : ∀ f ∈ [Flag.tokens, .listing, .run], ¬ Given args f
  compiled : ∃ path source p optimize, Names args path ∧ tree.readText path = .ok source ∧
    BalancedText source.toList ∧ (optimize = true ↔ ¬ Given args .noOpt) ∧
    compile optimize source = .ok p ∧ .read ∉ p.code ∧ CSource.render p = .ok text

theorem FirstDue.not_due {args : List String} {tree : FileTree} {modes : List Mode} {mode m : Mode}
    (h : FirstDue args tree modes mode) (hm : modes.idxOf m < modes.idxOf mode) :
    ¬ m.Due args tree := by
  -- what comes before the first that is called for has been passed over
  induction h with
  | here h => simp at hm
  | @later other mode rest h hrest ih =>
      by_cases hother : other = m
      · subst hother
        exact h
      · by_cases hmode : other = mode
        · simp [hmode] at hm
        · rw [List.idxOf_cons_ne _ hother, List.idxOf_cons_ne _ hmode] at hm
          exact ih (by omega)

/-- A command that compiles to C writes the file, if this can be done. -/
theorem CompilesTo.run? {args : List String} {tree tree' : FileTree} {text : String}
    (h : CompilesTo args tree text) (hwrite : tree.write "generated.c" text.toUTF8 = .ok tree')
    (fuel : Nat) (out : Sink) :
    Command.run? fuel args tree out = some ({ output := out.content }, tree') := by
  obtain ⟨path, source, p, optimize, hpath, hsource, _, hopt, hcompile, _, htext⟩ := h.compiled
  -- arguments that name a file are in order
  obtain ⟨o, hargs⟩ : ∃ o, Options.ofArguments args = .ok o := by
    obtain ⟨phrases, hphrases, _⟩ := hpath
    exact ⟨_, hphrases ▸ ofArguments_spoken phrases⟩
  have hfile : o.filename = some path := (names_iff hargs path).mp hpath
  have hplan : Plan.ofArguments args = .process path o := by
    simp [Plan.ofArguments, h.given, h.noHelp.1, h.noHelp.2, hargs, hfile]
  have hoff : ∀ f ∈ [Flag.tokens, .listing, .run], o.has f = false := by
    intro f hf
    rw [← Bool.not_eq_true, ← given_iff hargs]
    exact h.noMode f hf
  have hoptimize : o.optimize = optimize := by
    rw [given_iff hargs, Options.has] at hopt
    cases hbool : o.optimize <;> simp_all
  have htask : Task.ofSource o source = .write text := by
    have htokens : o.tokens = false := hoff .tokens (by simp)
    have hlisting : o.listing = false := hoff .listing (by simp)
    have hrun : o.run = false := hoff .run (by simp)
    simp [Task.ofSource, htokens, hoptimize, hcompile, hlisting, hrun, htext]
  simp only [Command.run?, hplan, Plan.perform?, hsource, htask, Task.perform?, outputFile, hwrite]

/-- Only the last mode can touch a file. -/
theorem Mode.Leaves.tree_eq {fuel : Nat} {args : List String} {tree tree' : FileTree} {out : Sink}
    {mode : Mode} {report : Report} (h : mode.Leaves fuel args tree out (some (report, tree')))
    (hmode : mode ≠ .cText) : tree' = tree := by
  have hsame : ∀ {r : Report}, some (report, tree') = some (r, tree) → tree' = tree := by
    intro r hr
    exact (Prod.mk.inj (Option.some.inj hr)).2
  cases mode with
  | help => exact hsame h
  | badArguments =>
      obtain ⟨_, _, _, _, _, hleft⟩ := h
      exact hsame hleft
  | noFile => exact hsame h
  | noSource =>
      obtain ⟨_, _, _, _, hleft⟩ := h
      exact hsame hleft
  | tokens =>
      obtain ⟨_, _, _, hleft⟩ := h
      exact hsame hleft
  | noProgram =>
      obtain ⟨_, _, _, _, _, hleft⟩ := h
      exact hsame hleft
  | listing =>
      obtain ⟨_, _, _, _, _, hleft⟩ := h
      exact hsame hleft
  | run =>
      -- a run leaves a report once it ends, and never touches the tree
      obtain ⟨_, _, _, _, _, hleft⟩ := h
      obtain ⟨r, _, hr⟩ := Option.map_eq_some_iff.mp hleft.symm
      exact (Prod.mk.inj hr).2.symm
  | cText => exact absurd rfl hmode

theorem LeavesC.written {tree tree' : FileTree} {out : Sink} {p : Program} {report : Report}
    (h : LeavesC tree out p (some (report, tree'))) :
    tree' = tree ∨ ∃ text, CSource.render p = .ok text ∧
      tree.write "generated.c" text.toUTF8 = .ok tree' := by
  rcases h with ⟨e, _, hleft⟩ | ⟨text, htext, ⟨e, _, hleft⟩ | ⟨tree₁, hwrite, hleft⟩⟩
  · exact Or.inl (Prod.mk.inj (Option.some.inj hleft)).2
  · exact Or.inl (Prod.mk.inj (Option.some.inj hleft)).2
  · rw [(Prod.mk.inj (Option.some.inj hleft)).2]
    exact Or.inr ⟨text, htext, hwrite⟩

/-- Where no other mode is called for, a program with a C text is compiled to
it. -/
theorem FirstDue.compilesTo {args : List String} {tree : FileTree} {o : Options}
    {source text : String} {p : Program} (h : FirstDue args tree precedence .cText)
    (hrequest : Request args tree o source) (hcompile : compile o.optimize source = .ok p)
    (htext : CSource.render p = .ok text) : CompilesTo args tree text := by
  -- whatever stands before `cText` in the order is not due
  have hhelp : ¬ (args = [] ∨ "--help" ∈ args ∨ "-h" ∈ args) := h.not_due (m := .help) (by decide)
  obtain ⟨path, hfile, hsource⟩ := hrequest.readable
  refine ⟨?_, ?_, ?_, path, source, p, o.optimize, ?_, hsource, ?_, ?_, hcompile, ?_, htext⟩
  · exact fun hnil => hhelp (Or.inl hnil)
  · exact ⟨fun hlong => hhelp (Or.inr (Or.inl hlong)), fun hshort => hhelp (Or.inr (Or.inr hshort))⟩
  · intro f hf
    simp only [List.mem_cons, List.not_mem_nil, or_false] at hf
    rcases hf with rfl | rfl | rfl
    · exact h.not_due (m := .tokens) (by decide)
    · exact h.not_due (m := .listing) (by decide)
    · exact h.not_due (m := .run) (by decide)
  · exact (names_iff hrequest.accepted path).mpr hfile
  · exact compile_isOk_iff.mp ⟨p, hcompile⟩
  · rw [given_iff hrequest.accepted, Options.has]
    simp
  · exact render_isOk_iff.mp ⟨text, htext⟩

/-- What a command leaves of the files. -/
theorem run?_eq_some {fuel : Nat} {args : List String} {tree tree' : FileTree} {out : Sink}
    {report : Report} (h : run? fuel args tree out = some (report, tree')) :
    tree' = tree ∨ ∃ text, CompilesTo args tree text ∧
      tree.write "generated.c" text.toUTF8 = .ok tree' := by
  obtain ⟨mode, hfirst, hleaves⟩ := firstDue_leaves fuel args tree out
  rw [h] at hleaves
  -- the last mode is the first that is called for only if no other one is
  by_cases hmode : mode = .cText
  · subst hmode
    obtain ⟨o, source, p, hrequest, hcompile, hleft⟩ := hleaves
    rcases hleft.written with hsame | ⟨text, htext, hwrite⟩
    · exact Or.inl hsame
    · exact Or.inr ⟨text, hfirst.compilesTo hrequest hcompile htext, hwrite⟩
  · exact Or.inl (hleaves.tree_eq hmode)

/-- **Only a plain compilation writes.** Whatever standard output does, a
command acts in the first mode of `precedence` that is called for. If it
compiles to C and the file can be written, it exits with 0 and prints
nothing, the output file holds the C text, and everything else is as it was.
In all other cases, whatever it shows and however it fails, it leaves the
files as they were. -/
theorem only_plain_compilation_writes (fuel : Nat) (args : List String) (tree : FileTree)
    (out : Sink) :
    (∃ mode, FirstDue args tree precedence mode ∧
      mode.Leaves fuel args tree out (run? fuel args tree out)) ∧
    (∀ text tree', CompilesTo args tree text →
      tree.write "generated.c" text.toUTF8 = .ok tree' →
      run? fuel args tree out = some ({ code := 0, output := out.content }, tree') ∧
      tree'.entry tree.outputLocation = some (.file text.toUTF8) ∧
      ∀ l, l ≠ tree.outputLocation → tree'.entry l = tree.entry l) ∧
    ∀ report tree', run? fuel args tree out = some (report, tree') →
      tree' = tree ∨ report.code = 0 ∧ ∃ text, CompilesTo args tree text ∧
        tree.write "generated.c" text.toUTF8 = .ok tree' := by
  refine ⟨firstDue_leaves fuel args tree out, ?_, ?_⟩
  · intro text tree' h hwrite
    refine ⟨h.run? hwrite fuel out, ?_⟩
    rw [FileTree.write_output hwrite]
    exact ⟨FileTree.entry_update_self _ _ _, fun l hl => FileTree.entry_update_of_ne _ _ hl⟩
  · intro report tree' hrun
    rcases run?_eq_some hrun with hsame | ⟨text, h, hwrite⟩
    · exact Or.inl hsame
    · rw [h.run? hwrite fuel out] at hrun
      rw [← (Prod.mk.inj (Option.some.inj hrun)).1]
      exact Or.inr ⟨rfl, text, h, hwrite⟩

/-- A directory with a text in it, and with an old output file. -/
def sampleTree : FileTree :=
  ((FileTree.empty ["work"]).place "a.b" (.file "++.".toUTF8)).place "generated.c"
    (.file "old".toUTF8)

/-- The old output file is replaced by the C text of the program, which has
not been shrunk. The source file stays. If the program is run instead, and
standard output takes nothing, that is a failure and all files stay. -/
theorem old_output_is_replaced :
    (∃ text tree', CSource.render ⟨#[.add 1, .add 1, .print, .halt]⟩ = .ok text ∧
      CompilesTo ["--no-opt", "a.b"] sampleTree text ∧
      sampleTree.write "generated.c" text.toUTF8 = .ok tree' ∧
      run? 0 ["--no-opt", "a.b"] sampleTree = some ({ code := 0 }, tree') ∧
      tree'.entry ["generated.c", "work"] = some (.file text.toUTF8) ∧
      tree'.entry ["a.b", "work"] = some (.file "++.".toUTF8)) ∧
    run? 9 ["--run", "a.b"] sampleTree { policy := .full 0 } =
      some ({ code := 1, errors := "runtime error: cannot write output: sink full\n" },
        sampleTree) := by
  have hargs : Options.ofArguments ["--no-opt", "a.b"] =
      .ok { optimize := false, filename := some "a.b" } := by
    decide +kernel
  have hcompile : compile false "++." = .ok ⟨#[.add 1, .add 1, .print, .halt]⟩ := by
    decide +kernel
  have hread : Instruction.read ∉ (#[.add 1, .add 1, .print, .halt] : Array Instruction) := by
    simp
  obtain ⟨text, htext⟩ := render_isOk_iff.mpr hread
  have hplain : ∀ f ∈ [Flag.tokens, .listing, .run], ¬ Given ["--no-opt", "a.b"] f := by
    intro f
    rw [given_iff hargs]
    revert f
    decide
  have h : CompilesTo ["--no-opt", "a.b"] sampleTree text := by
    refine ⟨by decide, by decide, hplain, "a.b", "++.", _, false, ?_, ?_, ?_, ?_, hcompile, hread,
      htext⟩
    · rw [names_iff hargs]
    · decide +kernel
    · exact compile_isOk_iff.mp ⟨_, hcompile⟩
    · rw [given_iff hargs]
      decide
  obtain ⟨tree', hwrite⟩ : ∃ tree', sampleTree.write "generated.c" text.toUTF8 = .ok tree' :=
    ⟨_, rfl⟩
  obtain ⟨hrun, hfile, hothers⟩ :=
    (only_plain_compilation_writes 0 _ sampleTree {}).2.1 _ _ h hwrite
  refine ⟨⟨text, tree', htext, h, hwrite, hrun, hfile, ?_⟩, ?_⟩
  · rw [hothers _ (by decide)]
    rfl
  · have hreport : (run? 9 ["--run", "a.b"] sampleTree { policy := .full 0 }).map Prod.fst =
        some { code := 1, errors := "runtime error: cannot write output: sink full\n" } := by
      decide +kernel
    obtain ⟨⟨report, tree₁⟩, hrun, rfl⟩ := Option.map_eq_some_iff.mp hreport
    -- it exits with 1, so it has written nothing
    rcases (only_plain_compilation_writes 9 _ sampleTree _).2.2 _ _ hrun with rfl | ⟨hcode, -⟩
    · exact hrun
    · cases hcode

end Command

end TapeLang
