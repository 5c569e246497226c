import OmniRush.Lib.Machine
import OmniRush.Mcp.Launch

/-!
# What the sandbox's shell runs

`shellQuote` writes a text as one word, with or without quotes, so the script of an allowed server
is read as the words it was made of. The names of the variables need no quotes: the rules keep no
others.
-/

namespace OmniRush.Mcp

/-! ## Quotes -/

theorem isPlain_of_unquoted {c : Char} (h : isUnquoted c = true) : isPlain c = true := by
  have hall : shellSpecials.all (fun c => !isUnquoted c) = true := by decide
  rw [isPlain, Bool.not_eq_true', Bool.eq_false_iff]
  intro hin
  have hnot := List.all_eq_true.mp hall c (List.contains_iff_mem.mp hin)
  rw [h] at hnot
  cases hnot

theorem readWords_escaped (s : ShellWord) (begun rest : List Char) :
    readWords true (some begun)
        (s.flatMap (fun c => if c = '\'' then ['\'', '\\', '\'', '\''] else [c]) ++ '\'' :: rest) =
      readWords false (some (begun ++ s)) rest := by
  induction s generalizing begun with
  | nil =>
      rw [List.flatMap_nil, List.nil_append, readWords, if_pos rfl, List.append_nil]
  | cons c s ih =>
      rw [List.flatMap_cons, List.append_assoc]
      by_cases hc : c = '\''
      · rw [if_pos hc, hc]
        exact (ih (begun ++ ['\''])).trans (by rw [List.append_assoc]; rfl)
      · rw [if_neg hc, List.singleton_append, readWords_quoted hc, ih, List.append_assoc]
        rfl

theorem readsAs_shellQuote (s : ShellWord) : ReadsAs (shellQuote s) s := by
  simp only [shellQuote]
  by_cases hplain : s ≠ [] ∧ s.all isUnquoted = true
  · rw [if_pos hplain]
    refine readsAs_plain hplain.1 (List.all_eq_true.mpr fun c hc => ?_)
    exact isPlain_of_unquoted (List.all_eq_true.mp hplain.2 c hc)
  · rw [if_neg hplain]
    intro begun rest
    rw [show readWords false begun ('\'' :: s.flatMap _ ++ ['\''] ++ rest) =
      readWords true (some (begun.getD [])) (s.flatMap _ ++ ['\''] ++ rest) from rfl,
      List.append_assoc]
    exact readWords_escaped s (begun.getD []) rest

/-! ## Variables -/

/-- Every name is one that a shell and `env` take for a variable's. -/
def EnvNames (environment : Record String) : Prop :=
  ∀ name ∈ environment.names, isEnvName name = true

theorem EnvNames.set {environment : Record String} (h : EnvNames environment) {name : String}
    (hname : isEnvName name = true) (value : String) : EnvNames (environment.set name value) := by
  intro n hn
  rcases Record.mem_names_setIn.mp hn with heq | hold
  · rw [heq]
    exact hname
  · exact h n hold

theorem EnvNames.setAll {environment : Record String} (h : EnvNames environment)
    {entries : List (String × String)} (hentries : ∀ entry ∈ entries, isEnvName entry.1 = true) :
    EnvNames (environment.setAll entries) := by
  induction entries generalizing environment with
  | nil => exact h
  | cons entry entries ih =>
      refine ih (h.set (hentries entry List.mem_cons_self) entry.2) fun other hother => ?_
      exact hentries other (List.mem_cons_of_mem entry hother)

theorem EnvNames.setPathEnv {paths : ProjectPaths} {rules : List (String × String)}
    {environment after : Record String} (h : EnvNames environment)
    (hrules : ∀ rule ∈ rules, isEnvName rule.1 = true)
    (hset : setPathEnv paths rules environment = some after) : EnvNames after := by
  induction rules generalizing environment with
  | nil =>
      cases hset
      exact h
  | cons rule rules ih =>
      obtain ⟨name, fallback⟩ := rule
      have hname := hrules _ List.mem_cons_self
      have hrest : ∀ rule ∈ rules, isEnvName rule.1 = true :=
        fun other hother => hrules other (List.mem_cons_of_mem _ hother)
      simp only [Mcp.setPathEnv] at hset
      split at hset
      · exact ih (h.set hname _) hrest hset
      · split at hset
        · exact ih (h.set hname _) hrest hset
        · split at hset
          · exact ih (h.set hname _) hrest hset
          · cases hset

theorem envNames_serverEnvironment {rules : EnvRules} {paths : ProjectPaths} {given : Option Json}
    {environment : Record String} (h : serverEnvironment rules paths given = some environment) :
    EnvNames environment := by
  have hrules : ∀ rule ∈ rules.pathEnv, isEnvName rule.1 = true :=
    fun rule hrule => rules.names rule (List.mem_append_left _ hrule)
  obtain ⟨after, hset, rfl⟩ := Option.map_eq_some_iff.mp h
  refine EnvNames.setAll (EnvNames.setPathEnv ?_ hrules hset) fun rule hrule =>
    rules.names rule (List.mem_append_right _ hrule)
  refine EnvNames.setAll (fun _ hn => absurd hn List.not_mem_nil) fun entry hentry => ?_
  obtain ⟨⟨name, value⟩, -, hkept⟩ := List.mem_filterMap.mp hentry
  cases value with
  | str text =>
      simp only at hkept
      split at hkept
      · next hin =>
          cases hkept
          obtain ⟨rule, hrule, heq⟩ := List.mem_map.mp (List.contains_iff_mem.mp hin)
          rw [← heq]
          exact hrules rule hrule
      · cases hkept
  | _ => cases hkept

theorem isEnvName_chars {name : String} (h : isEnvName name = true) :
    name.toList ≠ [] ∧ name.toList.all isUnquoted = true ∧ '=' ∉ name.toList ∧
      name.toList.head? ≠ some '-' := by
  have hchar : ∀ c : Char, c.isUpper = true ∨ c.isDigit = true ∨ c = '_' →
      isUnquoted c = true ∧ c ≠ '=' ∧ c ≠ '-' := by
    intro c hc
    rcases hc with hupper | hdigit | rfl
    · have halpha : c.isAlpha = true := Bool.or_eq_true_iff.mpr (Or.inl hupper)
      refine ⟨?_, ?_, ?_⟩
      · simp [isUnquoted, Char.isAlphanum, halpha]
      · rintro rfl; cases hupper
      · rintro rfl; cases hupper
    · refine ⟨?_, ?_, ?_⟩
      · simp [isUnquoted, Char.isAlphanum, hdigit]
      · rintro rfl; cases hdigit
      · rintro rfl; cases hdigit
    · decide
  simp only [isEnvName] at h
  cases hname : name.toList with
  | nil =>
      rw [hname] at h
      cases h
  | cons first rest =>
      rw [hname] at h
      simp only [Bool.and_eq_true, Bool.or_eq_true, decide_eq_true_eq, List.all_eq_true] at h
      obtain ⟨⟨hfirst, -⟩, hrest⟩ := h
      have hall : ∀ c ∈ first :: rest, isUnquoted c = true ∧ c ≠ '=' ∧ c ≠ '-' := by
        intro c hc
        rcases List.mem_cons.mp hc with heq | hin
        · rw [heq]
          exact hchar first (hfirst.imp id .inr)
        · exact hchar c (or_assoc.mp (hrest c hin))
      refine ⟨List.cons_ne_nil _ _, List.all_eq_true.mpr fun c hc => (hall c hc).1,
        fun hin => (hall '=' hin).2.1 rfl, fun hhead => ?_⟩
      cases hhead
      exact (hall '-' List.mem_cons_self).2.2 rfl

/-! ## The script -/

/-- An assignment as an operand of `env`. -/
def assignment (entry : String × String) : ShellWord := entry.1.toList ++ '=' :: entry.2.toList

theorem readsAs_assignment {entry : String × String} (h : isEnvName entry.1 = true) :
    ReadsAs (entry.1.toList ++ '=' :: shellQuote entry.2.toList) (assignment entry) := by
  obtain ⟨hne, hall, -, -⟩ := isEnvName_chars h
  have hname : ReadsAs entry.1.toList entry.1.toList :=
    readsAs_plain hne (List.all_eq_true.mpr fun c hc =>
      isPlain_of_unquoted (List.all_eq_true.mp hall c hc))
  have hequals : ReadsAs ['='] ['='] := readsAs_plain (List.cons_ne_nil _ _) (by decide)
  exact hname.append (hequals.append (readsAs_shellQuote entry.2.toList))

theorem envRuns_assignments {entries : List (String × String)} {argv : List ShellWord}
    (hnames : ∀ entry ∈ entries, isEnvName entry.1 = true)
    (hargv : envRuns argv = some ([], argv)) :
    envRuns (entries.map assignment ++ argv) =
      some (entries.map fun entry => (entry.1.toList, entry.2.toList), argv) := by
  induction entries with
  | nil => exact hargv
  | cons entry entries ih =>
      obtain ⟨hne, -, hequals, hdash⟩ := isEnvName_chars (hnames entry List.mem_cons_self)
      have hhead : (assignment entry).head? ≠ some '-' := by
        rw [assignment, List.head?_append_of_ne_nil _ hne]
        exact hdash
      have hrest := ih fun other hother => hnames other (List.mem_cons_of_mem _ hother)
      rw [List.map_cons, List.cons_append, envRuns, if_neg hhead, assignment,
        cutFirst_append hequals, hrest]
      rfl

def execWord : ShellWord := "exec".toList

def envWord : ShellWord := "env".toList

/-- What the script runs in the shell's place. -/
def sandboxProgram (entries : List (String × String)) (argv : List ShellWord) : List ShellWord :=
  if entries ≠ [] then envWord :: (entries.map assignment ++ argv) else argv

theorem shellPrograms_exec {program : List ShellWord} (hne : program ≠ [])
    (hhead : ∀ word ∈ program.head?, word.head? ≠ some '-') :
    shellPrograms [execWord :: program] = some [program] := by
  cases program with
  | nil => exact absurd rfl hne
  | cons word words =>
      have hword := hhead word rfl
      simp only [shellPrograms, execWord]
      rw [if_pos trivial, if_neg hword]

theorem readWords_program {entries : List (String × String)} {argv : List String}
    (hnames : ∀ entry ∈ entries, isEnvName entry.1 = true) (hargv : argv ≠ []) :
    readWords false none
        ((if entries.map (fun entry => entry.1.toList ++ '=' :: shellQuote entry.2.toList) ≠ []
          then "env ".toList ++
            joinWords (entries.map fun entry =>
              entry.1.toList ++ '=' :: shellQuote entry.2.toList) ++ [' ']
          else []) ++ joinWords (argv.map fun word => shellQuote word.toList)) =
      some [sandboxProgram entries (argv.map String.toList)] := by
  have hwords : readWords false none (joinWords (argv.map fun word => shellQuote word.toList)) =
      some [argv.map String.toList] :=
    readWords_joined_end (fun word _ => readsAs_shellQuote word.toList) hargv
  by_cases hempty : entries = []
  · rw [hempty]
    exact hwords
  · have hmap : entries.map (fun entry => entry.1.toList ++ '=' :: shellQuote entry.2.toList) ≠
        [] := by simpa using hempty
    have henv : ReadsAs envWord envWord := readsAs_plain (by decide) (by decide)
    rw [if_pos hmap, sandboxProgram, if_pos hempty]
    have hblank := henv none (' ' :: (joinWords (entries.map fun entry =>
      entry.1.toList ++ '=' :: shellQuote entry.2.toList) ++ ' ' ::
        joinWords (argv.map fun word => shellQuote word.toList)))
    rw [readWords_blank, readWords_joined (fun entry hentry => readsAs_assignment
      (hnames entry hentry)) hempty, hwords] at hblank
    simp only [List.append_assoc, List.singleton_append]
    exact hblank

def mkdirCommand : List ShellWord := ["mkdir", "-p", boxNpmPrefix].map String.toList

theorem readWords_mkdir (rest : List Char) :
    readWords false none (("mkdir -p " ++ boxNpmPrefix ++ " && ").toList ++ rest) =
      (readWords false none rest).map fun script => mkdirCommand :: addWords [] script := by
  have hplain : ∀ word ∈ mkdirCommand, ReadsAs (id word) (id word) := by
    intro word hword
    have hall : mkdirCommand.all (fun word => !word.isEmpty && word.all isPlain) = true := by decide
    have hboth := List.all_eq_true.mp hall word hword
    rw [Bool.and_eq_true, Bool.not_eq_true', List.isEmpty_eq_false_iff] at hboth
    exact readsAs_plain hboth.1 hboth.2
  have hjoined := readWords_joined hplain (List.cons_ne_nil _ _) ('&' :: '&' :: ' ' :: rest)
  rw [List.map_id, readWords_and, Option.map_map] at hjoined
  exact hjoined

theorem readWords_exec (rest : List Char) :
    readWords false none ("exec ".toList ++ rest) =
      (readWords false none rest).map (addWords [execWord]) := by
  have hexec : ReadsAs execWord execWord := readsAs_plain (by decide) (by decide)
  exact (hexec none (' ' :: rest)).trans (readWords_blank ..)

theorem serverArgv_head (runtime : Runtime) (package : String) (bin : Option String)
    (version : String) (rest : List String) :
    ∃ program args, serverArgv runtime package bin version rest = program :: args ∧
      (program = "npx" ∨ program = "uvx") := by
  cases runtime with
  | npm => exact ⟨_, _, rfl, .inl rfl⟩
  | pypi => exact ⟨_, _, rfl, .inr rfl⟩

/-- The shell runs the words of the command as they are, under `env` with the variables as they
are if there are any, and before it makes the folder of `npx`. -/
theorem sandboxScript_runs {rules : EnvRules} {paths : ProjectPaths} {given : Option Json}
    {environment : Record String} (h : serverEnvironment rules paths given = some environment)
    (runtime : Runtime) (package : String) (bin : Option String) (version : String)
    (rest : List String) :
    shellRuns (sandboxScript runtime environment.entries
        (serverArgv runtime package bin version rest)) =
      some ((if runtime = .npm then [mkdirCommand] else []) ++
        [sandboxProgram environment.entries
          ((serverArgv runtime package bin version rest).map String.toList)]) ∧
    envRuns (environment.entries.map assignment ++
        (serverArgv runtime package bin version rest).map String.toList) =
      some (environment.entries.map (fun entry => (entry.1.toList, entry.2.toList)),
        (serverArgv runtime package bin version rest).map String.toList) := by
  have hnames : ∀ entry ∈ environment.entries, isEnvName entry.1 = true := fun entry hentry =>
    envNames_serverEnvironment h entry.1 (Record.mem_names hentry)
  obtain ⟨program, args, hargv, hprogram⟩ := serverArgv_head runtime package bin version rest
  rw [hargv]
  have hdash : program.toList.head? ≠ some '-' ∧ '=' ∉ program.toList := by
    rcases hprogram with rfl | rfl <;> decide
  constructor
  · have hwords := readWords_program hnames (List.cons_ne_nil program args)
    have hexec : shellPrograms [execWord ::
        sandboxProgram environment.entries ((program :: args).map String.toList)] =
        some [sandboxProgram environment.entries ((program :: args).map String.toList)] := by
      refine shellPrograms_exec ?_ ?_
      · simp only [sandboxProgram]
        split <;> exact List.cons_ne_nil _ _
      · intro word hword
        simp only [sandboxProgram] at hword
        split at hword
        · cases hword
          decide
        · cases hword
          exact hdash.1
    have hscript := readWords_exec ((if environment.entries.map (fun entry =>
        entry.1.toList ++ '=' :: shellQuote entry.2.toList) ≠ [] then "env ".toList ++
          joinWords (environment.entries.map fun entry =>
            entry.1.toList ++ '=' :: shellQuote entry.2.toList) ++ [' ']
        else []) ++ joinWords ((program :: args).map fun word => shellQuote word.toList))
    rw [hwords] at hscript
    simp only [shellRuns, sandboxScript, List.append_assoc] at hscript ⊢
    by_cases hnpm : runtime = .npm
    · rw [if_pos hnpm, if_pos hnpm, readWords_mkdir, hscript]
      exact congrArg (Option.map (mkdirCommand :: ·)) hexec
    · rw [if_neg hnpm, if_neg hnpm, List.nil_append, hscript]
      exact hexec
  · refine envRuns_assignments hnames ?_
    rw [List.map_cons, envRuns, if_neg hdash.1, cutFirst_eq_none.mpr hdash.2]

/-- A server with a file of its own and a fixed variable, and arguments a shell would not leave
alone. -/
theorem sandboxScript_runs_quoted : ∃ rules paths given environment,
    serverEnvironment rules paths given = some environment ∧
      environment.entries =
        [("MEMORY_FILE_PATH", "it's $HOME\n.json"), ("TELEMETRY", "off")] ∧
      shellRuns (sandboxScript .npm environment.entries
          (serverArgv .npm "server-memory" none "1.2.3" ["", "a b", "~", "$(id) && 'x'"])) =
        some ([mkdirCommand] ++ [sandboxProgram environment.entries
          ((serverArgv .npm "server-memory" none "1.2.3" ["", "a b", "~", "$(id) && 'x'"]).map
            String.toList)]) := by
  have hsome : (serverEnvironment
      (normalizeEnvRules (fun path => path.toList.head? = some '/')
        (some (.obj [("path_env", .obj [("MEMORY_FILE_PATH", .str "memory.json")]),
          ("fixed_env", .obj [("TELEMETRY", .str "off"), ("PATH", .str "x")])])))
      ⟨fun _ => true, id, id⟩
      (some (.obj [("NODE_OPTIONS", .str "-r x"),
        ("MEMORY_FILE_PATH", .str "it's $HOME\n.json")]))).any (fun environment =>
          environment.entries =
            [("MEMORY_FILE_PATH", "it's $HOME\n.json"), ("TELEMETRY", "off")]) = true := by
    decide +kernel
  obtain ⟨environment, hset, hentries⟩ := exists_of_any hsome
  exact ⟨_, _, _, environment, hset, of_decide_eq_true hentries, (sandboxScript_runs hset .npm
    "server-memory" none "1.2.3" ["", "a b", "~", "$(id) && 'x'"]).1⟩

/-- Without variables there is no `env`. -/
theorem sandboxScript_runs_bare :
    shellRuns (sandboxScript .npm [] (serverArgv .npm "server-filesystem" none "2026.8.31" ["."])) =
      some [mkdirCommand, ["npx", "--prefix", boxNpmPrefix, "-y", "server-filesystem@2026.8.31",
        "."].map String.toList] := by
  decide +kernel

end OmniRush.Mcp
