/-
  HornClause.Proofs.TypedQuery

  What is answered when a query is typed. The query of a line is all that follows its first
  word, read without blanks, as the entries of a knowledge base are. The console looks at
  one word of it only:

    * the words of what follows the first word are the further words of the line
      (`words_afterWord`), and joined they are the typed query (`typedQuery_eq_join`);
    * the console answers the first of them (`handle_of_words`), which is the whole query
      exactly if there are no others (`first_eq_typedQuery_iff`).

  So a query is answered as a whole if it is typed without blanks in it. Of any other the
  console answers a part, and does not tell.
-/
import Mathlib.Data.List.TakeWhile
import HornClause.Console.Basic
import HornClause.Proofs.Answer

namespace HornClause

-- ============================================================================
-- Words
-- ============================================================================

namespace Text

/-- What follows the first word of a text, from the blank on that ends the word. -/
def afterWord (text : List Char) : List Char :=
  (text.dropWhile isBlank).dropWhile fun c => !isBlank c

/-- Blanks before a text belong to none of its words. -/
theorem words_append_of_blank {lead : List Char} (h : ∀ c ∈ lead, isBlank c = true)
    (text : List Char) : words (String.ofList (lead ++ text)) = words (String.ofList text) := by
  induction lead with
  | nil => rfl
  | cons c lead ih =>
    obtain ⟨hc, hlead⟩ := List.forall_mem_cons.mp h
    rw [← ih hlead, words, words, String.toList_ofList, String.toList_ofList, List.cons_append,
      List.splitOnP_cons_eq_if_modifyHead, if_pos hc]
    rfl

/-- Characters that are not blank are a word, if a blank follows them or nothing at all. -/
theorem words_append_of_word {word rest : List Char} (hne : word ≠ [])
    (hword : ∀ c ∈ word, isBlank c = false) (hrest : ∀ c ∈ rest.head?, isBlank c = true) :
    words (String.ofList (word ++ rest)) =
      String.ofList word :: words (String.ofList rest) := by
  have hkept : ∀ runs : List (List Char), (word :: runs).filter (fun run => !run.isEmpty) =
      word :: runs.filter fun run => !run.isEmpty :=
    fun runs => List.filter_cons_of_pos (by simpa using hne)
  cases rest with
  | nil =>
    rw [List.append_nil, words, words, String.toList_ofList, String.toList_ofList,
      List.splitOnP_eq_singleton hword, hkept]
    rfl
  | cons c rest =>
    have hc := hrest c rfl
    have hblank : words (String.ofList (c :: rest)) = words (String.ofList rest) :=
      words_append_of_blank (List.forall_mem_singleton.mpr hc) rest
    rw [hblank, words, words, String.toList_ofList, String.toList_ofList,
      List.splitOnP_append_cons_of_forall_mem hword c hc,
      hkept, List.map_cons]

/-- What follows the first word has the further words. -/
theorem words_afterWord (text : String) :
    words (String.ofList (afterWord text.toList)) = (words text).tail := by
  have hlead : words text = words (String.ofList (text.toList.dropWhile isBlank)) := by
    rw [← words_append_of_blank (fun c hc => List.mem_takeWhile_imp hc),
      List.takeWhile_append_dropWhile, String.ofList_toList]
  have hstart : ∀ c ∈ (text.toList.dropWhile isBlank).head?, isBlank c = false := by
    intro c hc
    have hhead := List.head?_dropWhile_not isBlank text.toList
    rwa [hc] at hhead
  rw [hlead, afterWord]
  cases hbody : text.toList.dropWhile isBlank with
  | nil => rfl
  | cons c body =>
    rw [hbody] at hstart
    have hc : (!isBlank c) = true := by
      rw [hstart c rfl]
      rfl
    have hend : ∀ d ∈ ((c :: body).dropWhile fun c => !isBlank c).head?, isBlank d = true := by
      intro d hd
      have hhead := List.head?_dropWhile_not (fun c => !isBlank c) (c :: body)
      rw [hd] at hhead
      simpa using hhead
    have hword : ∀ d ∈ (c :: body).takeWhile (fun c => !isBlank c), isBlank d = false := by
      intro d hd
      simpa using List.mem_takeWhile_imp hd
    have hne : (c :: body).takeWhile (fun c => !isBlank c) ≠ [] := by
      rw [List.takeWhile_cons_of_pos (p := fun c => !isBlank c) hc]
      exact List.cons_ne_nil _ _
    conv => rhs; rw [← List.takeWhile_append_dropWhile (p := fun c => !isBlank c) (l := c :: body)]
    rw [words_append_of_word hne hword hend, List.tail_cons]

theorem ne_empty_of_mem_words {text word : String} (h : word ∈ words text) : word ≠ "" := by
  obtain ⟨run, hrun, rfl⟩ := List.mem_map.mp h
  obtain ⟨-, hne⟩ := List.mem_filter.mp hrun
  rintro hempty
  rw [String.ofList_eq_empty_iff.mp hempty] at hne
  cases hne

/-- The stretches between blanks are all of a text but the blanks. -/
theorem flatten_splitOnP (text : List Char) : (text.splitOnP isBlank).flatten = dense text := by
  induction text with
  | nil => rfl
  | cons c rest ih =>
    rw [List.splitOnP_cons_eq_if_modifyHead, dense]
    split
    · rename_i hc
      rw [List.filter_cons_of_neg (by simp [hc]), List.flatten_cons, List.nil_append, ih, dense]
    · rename_i hc
      obtain ⟨run, runs, hruns⟩ := List.exists_cons_of_ne_nil (List.splitOnP_ne_nil isBlank rest)
      rw [hruns, List.flatten_cons] at ih
      rw [List.filter_cons_of_pos (by simp [hc]), hruns, List.modifyHead_cons, List.flatten_cons,
        List.cons_append, ih, dense]

/-- The words of a text are all of it but the blanks. -/
theorem join_words (text : String) :
    String.join (words text) = String.ofList (dense text.toList) := by
  rw [← String.toList_inj, String.toList_join, String.toList_ofList, words, List.flatMap_map,
    ← flatten_splitOnP, ← List.flatten_filter_not_isEmpty, List.flatMap_def]
  simp only [String.toList_ofList, List.map_id']

end Text

-- ============================================================================
-- Lines with a query
-- ============================================================================

namespace Console

/-- The word that asks for an answer, and the one that asks for its trace as well. -/
def queryWord (traced : Bool) : String := if traced then "trace" else "ask"

/-- The query that is typed in a line: what follows the first word, without blanks. -/
def typedQuery (line : String) : String :=
  String.ofList (Text.dense (Text.afterWord line.toList))

/-- What was written is the answer to a query: its trace, if one is asked for, and its
    result. -/
def Answers (c : Console) (query : String) (traced : Bool) (output : Output) : Prop :=
  ∃ a : Answer, c.session.ask query = .ok a ∧
    output = { out := (if traced then traceText c.style a.trace else "") ++
      (toString a.result ++ "\n") }

/-- All that is typed after the first word are the further words, without what parts them. -/
theorem typedQuery_eq_join (line : String) :
    typedQuery line = String.join (Text.words line).tail := by
  rw [← Text.words_afterWord, Text.join_words, String.toList_ofList, typedQuery]

/-- The first of some words is all of them only if there are no others. -/
theorem first_eq_typedQuery_iff {line name first : String} {rest : List String}
    (h : Text.words line = name :: first :: rest) : first = typedQuery line ↔ rest = [] := by
  rw [typedQuery_eq_join, h, List.tail_cons, String.join_cons]
  constructor
  · intro hwhole
    have hjoin : String.join rest = "" := by
      have hchars := (congrArg String.toList hwhole).trans String.toList_append
      exact String.toList_eq_nil_iff.mp (List.self_eq_append_right.mp hchars)
    cases rest with
    | nil => rfl
    | cons second rest =>
      have hmem : second ∈ Text.words line := by simp [h]
      rw [String.join_cons, String.append_eq_empty_iff] at hjoin
      exact absurd hjoin.1 (Text.ne_empty_of_mem_words hmem)
  · rintro rfl
    exact String.append_empty.symm

/-- A line with a query has a word after the first. -/
theorem exists_words_of_typedQuery {line name : String}
    (hname : (Text.words line).head? = some name) (htyped : typedQuery line ≠ "") :
    ∃ first rest, Text.words line = name :: first :: rest := by
  rw [typedQuery_eq_join] at htyped
  match hwords : Text.words line with
  | [] => simp [hwords] at hname
  | [_] => simp [hwords] at htyped
  | word :: first :: rest =>
    rw [hwords] at hname
    cases hname
    exact ⟨first, rest, rfl⟩

/-- The console answers the second word of a line, whatever follows it. -/
theorem handle_of_words (files : Files) (c : Console) {line first : String} {rest : List String}
    {traced : Bool} (h : Text.words line = queryWord traced :: first :: rest) :
    (c.handle files line).output = c.ask first traced := by
  rw [handle, Command.ofLine, h]
  cases traced <;> rfl

/-- Whatever is written to the stream for answers is an answer. -/
theorem answers_of_ask {c : Console} {query : String} {traced : Bool}
    (h : (c.ask query traced).out ≠ "") : c.Answers query traced (c.ask query traced) := by
  rw [ask, Session.reply] at h ⊢
  cases hask : c.session.ask query with
  | error e =>
    rw [hask] at h
    exact absurd rfl h
  | ok a =>
    refine ⟨a, hask, ?_⟩
    cases traced <;> rfl

-- ============================================================================
-- What is answered
-- ============================================================================

/-- The console answers the first word of the query that is typed in a line, and writes
    nothing else. If the query is typed without blanks in it, this is the whole query, and
    whatever is written to the stream for answers is the answer to all that was typed. If
    it is not, what is written is the answer to another query than the one that was typed. -/
theorem handle_answers_first_word (files : Files) (c : Console) {line : String} {traced : Bool}
    (hname : (Text.words line).head? = some (queryWord traced)) (htyped : typedQuery line ≠ "") :
    ∃ first rest, Text.words line = queryWord traced :: first :: rest ∧
      (c.handle files line).output = c.ask first traced ∧
      (rest = [] → (c.handle files line).output.out ≠ "" →
        c.Answers (typedQuery line) traced (c.handle files line).output) ∧
      (rest ≠ [] → first ≠ typedQuery line ∧ ((c.handle files line).output.out ≠ "" →
        c.Answers first traced (c.handle files line).output)) := by
  obtain ⟨first, rest, hwords⟩ := exists_words_of_typedQuery hname htyped
  have hwhole := first_eq_typedQuery_iff hwords
  have houtput := handle_of_words files c hwords
  refine ⟨first, rest, hwords, houtput, ?_, ?_⟩
  · intro hrest hout
    rw [houtput] at hout ⊢
    rw [← hwhole.mpr hrest]
    exact answers_of_ask hout
  · intro hrest
    refine ⟨fun h => hrest (hwhole.mp h), fun hout => ?_⟩
    rw [houtput] at hout ⊢
    exact answers_of_ask hout

/-- Blanks around a query do no harm, but blanks in it do: the query that is answered is
    then `A`. -/
theorem handle_answers_first_word_samples :
    ∃ c : Console, c.session = Session.install {} sample ∧ ∀ files,
      typedQuery " trace  A=>E " = "A=>E" ∧
      c.Answers "A=>E" true (c.handle files " trace  A=>E ").output ∧
      typedQuery "trace A => E" = "A=>E" ∧
      c.Answers "A" true (c.handle files "trace A => E").output := by
  have hplain : Text.words " trace  A=>E " = [queryWord true, "A=>E"] := by decide +kernel
  have hspaced : Text.words "trace A => E" = [queryWord true, "A", "=>", "E"] := by
    decide +kernel
  have hname : (Text.words " trace  A=>E ").head? = some (queryWord true) := by rw [hplain]; rfl
  have hname' : (Text.words "trace A => E").head? = some (queryWord true) := by rw [hspaced]; rfl
  have hquery : typedQuery " trace  A=>E " = "A=>E" := by decide +kernel
  have hquery' : typedQuery "trace A => E" = "A=>E" := by decide +kernel
  refine ⟨{ session := Session.install {} sample }, rfl, fun files =>
    ⟨hquery, ?_, hquery', ?_⟩⟩
  · obtain ⟨first, rest, hwords, houtput, hwhole, -⟩ := handle_answers_first_word files
      { session := Session.install {} sample } hname (by rw [hquery]; decide)
    rw [hplain] at hwords
    cases hwords
    rw [← hquery]
    refine hwhole rfl ?_
    rw [houtput]
    decide +kernel
  · obtain ⟨first, rest, hwords, houtput, -, hpart⟩ := handle_answers_first_word files
      { session := Session.install {} sample } hname' (by rw [hquery']; decide)
    rw [hspaced] at hwords
    cases hwords
    refine (hpart (List.cons_ne_nil _ _)).2 ?_
    rw [houtput]
    decide +kernel

/-- A query with blanks in it is not answered as a whole: `E` does not follow from `A`, but
    the answer to `A => E` is that it does. -/
theorem answers_part_of_spaced_query :
    (Text.words "ask A => E").head? = some (queryWord false) ∧
      typedQuery "ask A => E" = "A=>E" ∧
      ∃ c : Console, c.session = Session.install {} sample ∧
        ∀ files, (c.handle files "ask A => E").output = { out := "true\n" } ∧
          ¬ c.Answers "A=>E" false (c.handle files "ask A => E").output := by
  have hwords : Text.words "ask A => E" = [queryWord false, "A", "=>", "E"] := by decide +kernel
  refine ⟨by rw [hwords]; rfl, by decide +kernel,
    { session := Session.install {} sample }, rfl, fun files => ?_⟩
  have houtput : (handle files { session := Session.install {} sample } "ask A => E").output =
      { out := "true\n" } := by
    rw [handle_of_words files _ hwords]
    decide +kernel
  refine ⟨houtput, ?_⟩
  rw [houtput]
  rintro ⟨answer, hask, hwritten⟩
  obtain ⟨answer', hask', hfalse⟩ := Except.exists_ok_of_any
    (x := (Session.install {} sample).ask "A=>E") (p := fun answer => !answer.result)
    (by decide +kernel)
  cases hask.symm.trans hask'
  rw [Bool.not_eq_true'] at hfalse
  rw [hfalse, if_neg Bool.false_ne_true] at hwritten
  exact absurd hwritten (by decide +kernel)

end Console

end HornClause
