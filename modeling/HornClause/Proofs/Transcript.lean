/-
  HornClause.Proofs.Transcript

  Runs of the console, line by line. A line is carried out in a console that differs
  from the one at the start in its knowledge base alone, and that base is the one of the
  last line before it that loaded one. So a run is a sequence of replies, each of which
  can be told without the others.

    * `leaves`, `loaded?` — what a line does to a run: end it, or change the base.
    * `commands` — the lines that are carried out.
    * `baseAfter` — the base after some lines.
    * `replies` — what each line writes, in the console that it finds.
    * `transcript` — a prompt, and then each reply with a prompt after it.

  What one line does to the console is said once (`handle_console`, `handle_exits`);
  whole runs follow by induction on their lines (`run_eq_transcript`). A line that loads
  nothing and does not leave could as well be missing: the others reply as before
  (`replies_without`).
-/
import Mathlib.Data.List.Basic
import HornClause.Console.Basic

namespace HornClause

-- ============================================================================
-- Commands
-- ============================================================================

namespace Command

variable {words : List String}

theorem ofWords_eq_load_iff {path : String} :
    ofWords words = .load path ↔ ∃ rest, words = "loadkb" :: path :: rest := by
  rw [ofWords.eq_def]
  split <;> simp_all

theorem ofWords_eq_exit_iff : ofWords words = .exit ↔ words.head? = some "exit" := by
  rw [ofWords.eq_def]
  split <;> simp_all

end Command

namespace Console

/-- Whether the first word of a line is the one that leaves the console. -/
def leaves (line : String) : Bool := (Text.words line).head? == some "exit"

/-- The knowledge base that a line loads, if its file can be read and has one. -/
def loaded? (files : Files) (line : String) : Option KnowledgeBase :=
  match Text.words line with
  | "loadkb" :: path :: _ => (KnowledgeBase.load files path).toOption
  | _ => none

/-- The console with another knowledge base, or with none. -/
def holding (c : Console) (base : Option KnowledgeBase) : Console :=
  { c with session := { c.session with base } }

@[simp] theorem holding_self (c : Console) : c.holding c.session.base = c := rfl

@[simp] theorem holding_holding (c : Console) (base base' : Option KnowledgeBase) :
    (c.holding base).holding base' = c.holding base' := rfl

@[simp] theorem base_holding (c : Console) (base : Option KnowledgeBase) :
    (c.holding base).session.base = base := rfl

variable {files : Files} {line : String}

theorem loaded?_of_load {path : String} (h : Command.ofLine line = .load path) :
    loaded? files line = (KnowledgeBase.load files path).toOption := by
  obtain ⟨rest, hwords⟩ := Command.ofWords_eq_load_iff.mp h
  simp [loaded?, hwords]

theorem loaded?_of_not_load (h : ∀ path, Command.ofLine line ≠ .load path) :
    loaded? files line = none := by
  rw [loaded?]
  split
  · rename_i path rest hwords
    exact absurd (Command.ofWords_eq_load_iff.mpr ⟨rest, hwords⟩) (h path)
  · rfl

theorem leaves_iff : leaves line = true ↔ Command.ofLine line = .exit := by
  rw [leaves, beq_iff_eq, Command.ofLine, Command.ofWords_eq_exit_iff]

-- ============================================================================
-- One line
-- ============================================================================

/-- A line changes the knowledge base to the one it loads, and nothing else. -/
theorem handle_console (files : Files) (c : Console) (line : String) :
    (c.handle files line).console = c.holding ((loaded? files line).or c.session.base) := by
  rw [handle]
  cases hcommand : Command.ofLine line with
  | load path =>
    rw [loaded?_of_load hcommand, perform, load]
    cases KnowledgeBase.load files path <;> rfl
  | nothing | ask query traced | incomplete name argument | help | exit | unknown name =>
    rw [loaded?_of_not_load (by simp [hcommand])]
    rfl

theorem handle_exits (files : Files) (c : Console) (line : String) :
    (c.handle files line).exits = leaves line := by
  rw [Bool.eq_iff_iff, leaves_iff, handle]
  cases Command.ofLine line with
  | load path =>
    rw [perform, load]
    cases KnowledgeBase.load files path <;> simp
  | nothing | ask query traced | incomplete name argument | help | exit | unknown name =>
    simp [perform]

theorem handle_output_of_leaves (c : Console) (h : leaves line = true) :
    (c.handle files line).output = {} := by
  rw [handle, leaves_iff.mp h]
  rfl

/-- What a line writes has to do with files only if it is a line to load one. -/
theorem handle_output_files (c : Console) (h : (Text.words line).head? ≠ some "loadkb")
    (files' : Files) : (c.handle files line).output = (c.handle files' line).output := by
  rw [handle, handle]
  cases hcommand : Command.ofLine line with
  | load path =>
    obtain ⟨rest, hwords⟩ := Command.ofWords_eq_load_iff.mp hcommand
    rw [hwords] at h
    exact absurd rfl h
  | nothing | ask query traced | incomplete name argument | help | exit | unknown name => rfl

-- ============================================================================
-- Lines in a row
-- ============================================================================

/-- The lines that are carried out: those before the first that leaves the console. -/
def commands (lines : List String) : List String := lines.takeWhile (!leaves ·)

/-- The base after some lines: that of the last one that loaded any, or else the one
    there was. -/
def baseAfter (files : Files) (base : Option KnowledgeBase) (lines : List String) :
    Option KnowledgeBase :=
  (lines.filterMap (loaded? files)).getLast?.or base

/-- What each line writes in the console that the lines before it leave. -/
def replies (files : Files) (c : Console) (lines : List String) : List Output :=
  lines.mapIdx fun i line =>
    ((c.holding (baseAfter files c.session.base (lines.take i))).handle files line).output

variable {rest : List String}

theorem commands_cons_of_leaves (h : leaves line = true) : commands (line :: rest) = [] :=
  List.takeWhile_cons_of_neg (by simp [h])

theorem commands_cons_of_stays (h : leaves line = false) :
    commands (line :: rest) = line :: commands rest :=
  List.takeWhile_cons_of_pos (by simp [h])

theorem baseAfter_cons (files : Files) (base : Option KnowledgeBase) (line : String)
    (rest : List String) :
    baseAfter files base (line :: rest) =
      baseAfter files ((loaded? files line).or base) rest := by
  rw [baseAfter, baseAfter]
  cases hload : loaded? files line with
  | none => rw [List.filterMap_cons_none hload, Option.none_or]
  | some kb =>
    rw [List.filterMap_cons_some hload, List.getLast?_cons]
    cases (rest.filterMap (loaded? files)).getLast? <;> rfl

theorem replies_cons (files : Files) (c : Console) (line : String) (rest : List String) :
    replies files c (line :: rest) =
      (c.handle files line).output :: replies files (c.handle files line).console rest := by
  rw [replies, replies, List.mapIdx_cons, handle_console]
  simp only [List.take_succ_cons, baseAfter_cons, base_holding, holding_holding]
  rfl

-- ============================================================================
-- Runs
-- ============================================================================

/-- What is written in a run with some replies: a prompt, and then each reply and a
    prompt after it. -/
def transcript (replies : List Output) : Output where
  out := "> " ++ String.join (replies.map fun r => r.out ++ "> ")
  err := String.join (replies.map Output.err)

theorem transcript_cons (r : Output) (rs : List Output) :
    transcript (r :: rs) = .prompt ++ (r ++ transcript rs) := by
  apply Output.ext
  · simp [transcript, Output.prompt, String.append_assoc]
  · simp [transcript, Output.prompt]

theorem runLines_eq_transcript (files : Files) (c : Console) (lines : List String) :
    Output.prompt ++ (c.runLines files (lines.map some)).output =
        transcript (replies files c (commands lines)) ∧
      (c.runLines files (lines.map some)).console =
        c.holding (baseAfter files c.session.base (commands lines)) ∧
      (c.runLines files (lines.map some)).failure = none := by
  induction lines generalizing c with
  | nil => exact ⟨rfl, rfl, rfl⟩
  | cons line rest ih =>
    rw [List.map_cons, runLines, handle_exits]
    cases hleaves : leaves line with
    | true =>
      have hcommand := leaves_iff.mp hleaves
      have hload : loaded? files line = none := loaded?_of_not_load (by simp [hcommand])
      rw [commands_cons_of_leaves hleaves, handle_output_of_leaves c hleaves, handle_console,
        hload]
      exact ⟨rfl, rfl, rfl⟩
    | false =>
      -- The rest is a run of its own, from the console that the line leaves.
      obtain ⟨houtput, hconsole, hfailure⟩ := ih (c.handle files line).console
      rw [commands_cons_of_stays hleaves, replies_cons, transcript_cons, ← houtput,
        baseAfter_cons]
      refine ⟨?_, ?_, hfailure⟩
      · apply Output.ext <;> simp [String.append_assoc]
      · refine hconsole.trans ?_
        rw [handle_console, base_holding, holding_holding]

/-- A run over lines of text is never broken off. It writes the transcript of its
    replies, and leaves the console with the base that was loaded last. -/
theorem run_eq_transcript (files : Files) (c : Console) {input : List UInt8}
    {lines : List String} (h : Text.lines input = lines.map some) :
    c.run files input =
      { console := c.holding (baseAfter files c.session.base (commands lines))
        output := transcript (replies files c (commands lines)) } := by
  obtain ⟨houtput, hconsole, hfailure⟩ := runLines_eq_transcript files c lines
  rw [run, h, houtput, hconsole, hfailure]

-- ============================================================================
-- Lines that could be missing
-- ============================================================================

variable {before after : List String}

/-- Nothing from the first line that leaves on is carried out. -/
theorem commands_append_of_leaves (h : leaves line = true) :
    commands (before ++ line :: after) = commands before := by
  induction before with
  | nil => exact commands_cons_of_leaves h
  | cons first before ih =>
    cases hleaves : leaves first with
    | true => rw [List.cons_append, commands_cons_of_leaves hleaves, commands_cons_of_leaves hleaves]
    | false =>
      rw [List.cons_append, commands_cons_of_stays hleaves, commands_cons_of_stays hleaves, ih]

section Without

variable (hstays : leaves line = false) (hload : loaded? files line = none)

include hstays hload

/-- Without a line that loads nothing and does not leave, the other lines reply as
    before. -/
theorem replies_without (c : Console) :
    replies files c (commands (before ++ after)) =
      (replies files c (commands (before ++ line :: after))).eraseIdx before.length := by
  induction before generalizing c with
  | nil =>
    rw [List.nil_append, List.nil_append, commands_cons_of_stays hstays, replies_cons,
      handle_console, hload]
    rfl
  | cons first before ih =>
    rw [List.cons_append, List.cons_append]
    cases hleaves : leaves first with
    | true =>
      -- The console is left before the line is reached.
      rw [commands_cons_of_leaves hleaves, commands_cons_of_leaves hleaves]
      rfl
    | false =>
      rw [commands_cons_of_stays hleaves, commands_cons_of_stays hleaves, replies_cons,
        replies_cons, ih, List.length_cons, List.eraseIdx_cons_succ]

theorem baseAfter_without (base : Option KnowledgeBase) :
    baseAfter files base (commands (before ++ after)) =
      baseAfter files base (commands (before ++ line :: after)) := by
  induction before generalizing base with
  | nil =>
    rw [List.nil_append, List.nil_append, commands_cons_of_stays hstays, baseAfter_cons, hload,
      Option.none_or]
  | cons first before ih =>
    rw [List.cons_append, List.cons_append]
    cases hleaves : leaves first with
    | true => rw [commands_cons_of_leaves hleaves, commands_cons_of_leaves hleaves]
    | false =>
      rw [commands_cons_of_stays hleaves, commands_cons_of_stays hleaves, baseAfter_cons,
        baseAfter_cons, ih]

end Without

-- ============================================================================
-- Independent commands
-- ============================================================================

/-- A run is a sequence of independent commands over the last good knowledge base.

    It writes a prompt, and then the reply and a prompt for each line before the first
    that leaves the console; that line and the lines after it have no effect at all. A
    reply is what the line writes in a console with the style and the settings of the
    first, and with the base of the last line before it that loaded one; unless the line
    is one to load a base, files have no part in it. A line that loads nothing leaves
    every console as it is, so that without such a line the other lines reply as
    before. -/
theorem run_of_independent_commands (files : Files) (c : Console) {input : List UInt8}
    {lines : List String} (hlines : Text.lines input = lines.map some) :
    c.run files input =
      { console := c.holding (baseAfter files c.session.base (commands lines))
        output := transcript (replies files c (commands lines)) } ∧
    (∀ before line after input', lines = before ++ line :: after → leaves line = true →
      Text.lines input' = before.map some → c.run files input' = c.run files input) ∧
    (∀ i line, (commands lines)[i]? = some line → (Text.words line).head? ≠ some "loadkb" →
      ∀ files', (replies files c (commands lines))[i]? =
        some (handle files'
          { session :=
              { settings := c.session.settings
                base := baseAfter files c.session.base ((commands lines).take i) }
            style := c.style } line).output) ∧
    (∀ (d : Console) line, loaded? files line = none → (d.handle files line).console = d) ∧
    (∀ before line after input', lines = before ++ line :: after → leaves line = false →
      loaded? files line = none → Text.lines input' = (before ++ after).map some →
      c.run files input' =
        { c.run files input with
          output := transcript ((replies files c (commands lines)).eraseIdx before.length) }) := by
  have hrun := run_eq_transcript files c hlines
  refine ⟨hrun, ?_, ?_, ?_, ?_⟩
  · rintro before line after input' rfl hleaves hlines'
    rw [hrun, run_eq_transcript files c hlines', commands_append_of_leaves hleaves]
  · intro i line hline hwords files'
    rw [replies, List.getElem?_mapIdx, hline, Option.map_some,
      handle_output_files _ hwords files']
    rfl
  · intro d line hload
    rw [handle_console, hload, Option.none_or, holding_self]
  · rintro before line after input' rfl hstays hload hlines'
    rw [hrun, run_eq_transcript files c hlines', replies_without hstays hload,
      baseAfter_without hstays hload]

/-- One file, and nothing else. -/
def sampleFiles : Files := fun path =>
  if path = "base" then .ok "A, A=>B" else .error .missing

/-- Two queries, before and after a base is loaded, a second loading that fails, and a
    query that comes too late. Without the failure, the other lines write the same. -/
theorem run_of_independent_commands_sample :
    ∃ input cut shorter,
      Text.lines input =
        ["ask B", "loadkb base", "loadkb none", "ask B", "exit", "ask A"].map some ∧
      (run sampleFiles {} input).output =
        { out := "> > A,\nA=>B\nKnowledge base loaded successfully\n> > true\n> "
          err := "Cannot evaluate your query, knowledge base is empty.\n" ++
            "Failed to read knowledge base: No such file or directory (os error 2)\n" } ∧
      Text.lines cut = ["ask B", "loadkb base", "loadkb none", "ask B"].map some ∧
      run sampleFiles {} cut = run sampleFiles {} input ∧
      Text.lines shorter = ["ask B", "loadkb base", "ask B", "exit", "ask A"].map some ∧
      (run sampleFiles {} shorter).output =
        { out := "> > A,\nA=>B\nKnowledge base loaded successfully\n> true\n> "
          err := "Cannot evaluate your query, knowledge base is empty.\n" } := by
  have hlines : Text.lines
      "ask B\nloadkb base\nloadkb none\nask B\nexit\nask A\n".toUTF8.toList =
        ["ask B", "loadkb base", "loadkb none", "ask B", "exit", "ask A"].map some := by
    decide +kernel
  have hcut : Text.lines "ask B\nloadkb base\nloadkb none\nask B".toUTF8.toList =
      ["ask B", "loadkb base", "loadkb none", "ask B"].map some := by
    decide +kernel
  have hshorter : Text.lines "ask B\nloadkb base\nask B\nexit\nask A".toUTF8.toList =
      ["ask B", "loadkb base", "ask B", "exit", "ask A"].map some := by
    decide +kernel
  obtain ⟨hrun, hexit, -, -, hwithout⟩ := run_of_independent_commands sampleFiles {} hlines
  refine ⟨_, _, _, hlines, ?_, hcut, ?_, hshorter, ?_⟩
  · rw [hrun]
    decide +kernel
  · exact hexit _ "exit" ["ask A"] _ rfl (by decide +kernel) hcut
  · have hfails : loaded? sampleFiles "loadkb none" = none :=
      Option.isNone_iff_eq_none.mp (by decide +kernel)
    rw [hwithout ["ask B", "loadkb base"] "loadkb none" ["ask B", "exit", "ask A"] _ rfl
      (by decide +kernel) hfails hshorter]
    decide +kernel

end Console

end HornClause
