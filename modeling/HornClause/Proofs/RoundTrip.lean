/-
  HornClause.Proofs.RoundTrip

  Writing a knowledge base out and reading it again. The text of a base has its facts
  on one line and each rule on a line of its own, with a comma after every entry but
  the last, whatever the text looked like that the base was read from. Without its
  blanks, that is the entries of the base with commas between them, so these are the
  entries that are read again (`entries_text`): the declared letters, none of them
  twice, and the texts of the rules, each of which stands for one rule alone.
-/
import HornClause.Proofs.Entries

/-! ## Lists without repetitions -/

theorem List.eraseDups_of_nodup {α : Type} [BEq α] [LawfulBEq α] {xs : List α} (h : xs.Nodup) :
    xs.eraseDups = xs := by
  induction xs with
  | nil => rfl
  | cons x xs ih =>
    obtain ⟨hx, hxs⟩ := List.nodup_cons.mp h
    have hkept : (xs.filter fun y => !y == x) = xs := by
      refine List.filter_eq_self.mpr fun y hy => ?_
      have hne : y ≠ x := fun heq => hx (heq ▸ hy)
      simpa using hne
    rw [List.eraseDups_cons, hkept, ih hxs]

namespace HornClause

-- ============================================================================
-- Blanks and commas
-- ============================================================================

namespace Text

theorem isBlank_letter (l : Letter) : isBlank l.char = false := by
  have halphabet : ∀ k ∈ Letter.alphabet, isBlank k.char = false := by decide +kernel
  exact halphabet l (Letter.mem_alphabet l)

/-- A word has no blanks and no commas. -/
theorem IsWord.plain {chars : List Char} (h : IsWord chars) :
    ∀ c ∈ chars, isBlank c = false ∧ c ≠ ',' := by
  intro c hc
  refine ⟨isBlank_letter ⟨c, h.2 c hc⟩, ?_⟩
  rintro rfl
  exact h.not_mem (by decide) hc

theorem IsImplication.plain {chars : List Char} (h : IsImplication chars) :
    ∀ c ∈ chars, isBlank c = false ∧ c ≠ ',' := by
  obtain ⟨premise, conclusion, hp, hc, rfl⟩ := h
  rw [List.forall_mem_append, List.forall_mem_cons, List.forall_mem_cons]
  exact ⟨hp.plain, by decide, by decide, hc.plain⟩

theorem dense_intercalate (separator : List Char) (parts : List (List Char)) :
    dense (separator.intercalate parts) = (dense separator).intercalate (parts.map dense) := by
  induction parts with
  | nil => rfl
  | cons part parts ih =>
    cases parts with
    | nil => simp
    | cons second parts =>
      rw [List.intercalate_cons_cons, List.map_cons, List.map_cons, List.intercalate_cons_cons,
        ← List.map_cons, ← ih]
      simp [dense]

end Text

namespace KnowledgeBase

theorem IsEntry.plain {entry : List Char} (h : IsEntry entry) :
    ∀ c ∈ entry, Text.isBlank c = false ∧ c ≠ ',' := by
  rcases h with ⟨-, hword⟩ | himplication
  · exact hword.plain
  · exact himplication.plain

theorem IsEntry.ne_nil {entry : List Char} (h : IsEntry entry) : entry ≠ [] := by
  rcases h with ⟨-, hword⟩ | ⟨premise, conclusion, -, -, rfl⟩
  · exact hword.1
  · exact List.append_ne_nil_of_right_ne_nil _ (List.cons_ne_nil _ _)

/-- Entries that are written out, with a comma and blanks between them, are the entries
    that are read again. -/
theorem splitOn_dense_intercalate {separator : String} {parts : List String}
    (hseparator : Text.dense separator.toList = [','])
    (hparts : ∀ part ∈ parts, IsEntry part.toList) (hne : parts ≠ []) :
    (Text.dense (separator.intercalate parts).toList).splitOn ',' = parts.map String.toList := by
  have hdense : (parts.map String.toList).map Text.dense = parts.map String.toList := by
    rw [List.map_map]
    refine List.map_congr_left fun part hpart => ?_
    exact List.filter_eq_self.mpr fun c hc => by simp [((hparts part hpart).plain c hc).1]
  rw [String.toList_intercalate, Text.dense_intercalate, hseparator, hdense]
  refine List.splitOn_intercalate ',' ?_ (by simpa using hne)
  intro entry hentry hcomma
  obtain ⟨part, hpart, rfl⟩ := List.mem_map.mp hentry
  exact ((hparts part hpart).plain ',' hcomma).2 rfl

-- ============================================================================
-- The entries of a base
-- ============================================================================

/-- The entries of a base as it is written out: its facts, then its rules. -/
def written (kb : KnowledgeBase) : List (List Char) :=
  kb.declared.map (fun l => [l.char]) ++ kb.rules.map (fun r => r.text.toList)

theorem isEntry_letter (l : Letter) : IsEntry [l.char] :=
  (exists_readFact_iff rfl).mp ⟨⟨l, true⟩, readFact_eq_ok_iff.mpr ⟨rfl, rfl⟩⟩

theorem isImplication_text {declared : List Letter} {r : Rule} (h : r.Canonical declared) :
    Text.IsImplication r.text.toList :=
  exists_readRule_iff.mp ⟨r, readRule_eq_ok_iff.mpr ⟨String.ofList_toList.symm, h⟩⟩

/-- The text of a rule is no entry of a fact. -/
theorem isFactEntry_text {declared : List Letter} {r : Rule} (h : r.Canonical declared) :
    isFactEntry r.text.toList = false :=
  beq_eq_false_iff_ne.mpr (isImplication_text h).length_ne_one

theorem filter_texts {declared : List Letter} {rules : List Rule}
    (h : ∀ r ∈ rules, r.Canonical declared) :
    (rules.map fun r => r.text.toList).filter (!isFactEntry ·) =
      rules.map fun r => r.text.toList := by
  refine List.filter_eq_self.mpr fun e he => ?_
  obtain ⟨r, hr, rfl⟩ := List.mem_map.mp he
  rw [isFactEntry_text (h r hr)]
  rfl

variable {kb : KnowledgeBase}

/-- The line of the facts has the declared letters for entries. -/
theorem splitOn_facts (hne : kb.declared ≠ []) :
    (Text.dense (", ".intercalate (kb.declared.map Letter.text)).toList).splitOn ',' =
      kb.declared.map (fun l => [l.char]) := by
  have hentry : ∀ part ∈ kb.declared.map Letter.text, IsEntry part.toList := by
    intro part hpart
    obtain ⟨l, -, rfl⟩ := List.mem_map.mp hpart
    rw [Letter.text, String.toList_singleton]
    exact isEntry_letter l
  rw [splitOn_dense_intercalate (by decide) hentry (by simpa using hne), List.map_map]
  exact List.map_congr_left fun l _ => String.toList_singleton l.char

/-- The lines of the rules have their texts for entries. -/
theorem splitOn_rules (hrules : ∀ r ∈ kb.rules, r.Canonical kb.declared) (hne : kb.rules ≠ []) :
    (Text.dense (",\n".intercalate (kb.rules.map Rule.text)).toList).splitOn ',' =
      kb.rules.map (fun r => r.text.toList) := by
  have hentry : ∀ part ∈ kb.rules.map Rule.text, IsEntry part.toList := by
    intro part hpart
    obtain ⟨r, hr, rfl⟩ := List.mem_map.mp hpart
    exact Or.inr (isImplication_text (hrules r hr))
  rw [splitOn_dense_intercalate (by decide) hentry (by simpa using hne), List.map_map]
  rfl

theorem entries_text (hrules : ∀ r ∈ kb.rules, r.Canonical kb.declared) (hne : kb.written ≠ []) :
    entries kb.text = kb.written := by
  rw [entries, text, written]
  by_cases hdeclared : kb.declared = []
  · have hsome : kb.rules ≠ [] := by
      intro hnone
      rw [written, hdeclared, hnone] at hne
      exact hne rfl
    rw [hdeclared]
    exact splitOn_rules hrules hsome
  · rw [if_neg (by simpa using hdeclared)]
    by_cases hnone : kb.rules = []
    · rw [if_pos (by simpa using hnone), splitOn_facts hdeclared, hnone, List.map_nil,
        List.append_nil]
    · -- The comma between facts and rules parts them once the line break is gone.
      have hcomma : Text.dense ",\n".toList = [','] := by decide
      rw [if_neg (by simpa using hnone), String.toList_append, String.toList_append, Text.dense,
        List.filter_append, List.filter_append]
      show (Text.dense _ ++ Text.dense ",\n".toList ++ Text.dense _).splitOn ',' = _
      rw [hcomma, List.append_assoc, List.singleton_append, List.splitOn_append_cons_self,
        splitOn_facts hdeclared, splitOn_rules hrules hnone]

/-- A base that was read has something to write. -/
theorem written_ne_nil {text : String} (h : parse text = .ok kb) : kb.written ≠ [] := by
  obtain ⟨-, hentries⟩ := exists_parse_iff.mp ⟨kb, h⟩
  obtain ⟨-, -, hdeclared, -, hrules, -⟩ := parse_eq_ok_iff.mp h
  obtain ⟨e, rest, he⟩ := List.exists_cons_of_ne_nil
    (List.splitOn_ne_nil ',' (Text.dense text.toList))
  have hmem : e ∈ entries text := by
    rw [entries, he]
    exact List.mem_cons_self
  refine List.ne_nil_of_mem (a := e) ?_
  rw [written, List.mem_append]
  by_cases hlength : e.length = 1
  · obtain ⟨a, ha⟩ := (exists_readFact_iff hlength).mpr (hentries e hmem)
    obtain ⟨rfl, -⟩ := readFact_eq_ok_iff.mp ha
    refine Or.inl (List.mem_map.mpr ⟨a.letter, ?_, rfl⟩)
    rw [hdeclared, mem_declaredIn]
    exact hmem
  · rw [hrules]
    exact Or.inr (List.mem_filter.mpr ⟨hmem, by simpa [isFactEntry] using hlength⟩)

theorem isEntry_of_mem_written (hrules : ∀ r ∈ kb.rules, r.Canonical kb.declared) :
    ∀ e ∈ kb.written, IsEntry e := by
  intro e he
  rcases List.mem_append.mp he with he | he
  · obtain ⟨l, -, rfl⟩ := List.mem_map.mp he
    exact isEntry_letter l
  · obtain ⟨r, hr, rfl⟩ := List.mem_map.mp he
    exact Or.inr (isImplication_text (hrules r hr))

theorem filterMap_written (hrules : ∀ r ∈ kb.rules, r.Canonical kb.declared) :
    kb.written.filterMap loneLetter? = kb.declared := by
  have hnone : (kb.rules.map fun r => r.text.toList).filterMap loneLetter? = [] := by
    rw [List.filterMap_eq_nil_iff]
    intro e he
    obtain ⟨r, hr, rfl⟩ := List.mem_map.mp he
    refine Option.eq_none_iff_forall_ne_some.mpr fun l hl => ?_
    have hlength := (isImplication_text (hrules r hr)).length_ne_one
    rw [loneLetter?_eq_some_iff.mp hl] at hlength
    exact hlength rfl
  rw [written, List.filterMap_append, hnone, List.append_nil, filterMap_loneLetter?_map]

theorem filter_written (hrules : ∀ r ∈ kb.rules, r.Canonical kb.declared) :
    kb.written.filter (!isFactEntry ·) = kb.rules.map (fun r => r.text.toList) := by
  have hfacts : (kb.declared.map fun l => [l.char]).filter (!isFactEntry ·) = [] := by
    rw [List.filter_eq_nil_iff]
    intro e he
    obtain ⟨l, -, rfl⟩ := List.mem_map.mp he
    simp [isFactEntry]
  rw [written, List.filter_append, hfacts, List.nil_append, filter_texts hrules]

-- ============================================================================
-- Reading what was written
-- ============================================================================

/-- A knowledge base that was read from any text is read again from its own: the same
    facts in the same order, and the same rules in the same order, with the same trees
    and the same values of their atoms. -/
theorem parse_text_of_parse {text : String} {kb : KnowledgeBase} (h : parse text = .ok kb) :
    parse kb.text = .ok kb := by
  obtain ⟨-, -, hdeclared, hknown, -, hcanonical⟩ := parse_eq_ok_iff.mp h
  have hentries := entries_text hcanonical (written_ne_nil h)
  have hisEntry := isEntry_of_mem_written hcanonical
  refine parse_eq_ok_iff.mpr ⟨?_, ?_, ?_, hknown, ?_, hcanonical⟩
  · intro hempty
    have hmem : ([] : List Char) ∈ entries kb.text := by
      rw [entries, hempty, List.splitOn_nil]
      exact List.mem_cons_self
    rw [hentries] at hmem
    exact (hisEntry [] hmem).ne_nil rfl
  · intro e he _
    rw [hentries] at he
    exact hisEntry e he
  · have hnodup : kb.declared.Nodup := by
      rw [hdeclared]
      exact List.nodup_eraseDups _
    rw [declaredIn, hentries, filterMap_written hcanonical, List.eraseDups_of_nodup hnodup]
  · rw [hentries, filter_written hcanonical]

/-- Facts are written first, and each once. -/
theorem parse_text_of_parse_sample :
    ∃ kb, parse "A B=>C,C, C => DA,\n A,C" = .ok kb ∧ kb.text = "C, A,\nAB=>C,\nC=>DA" ∧
      parse "C, A,\nAB=>C,\nC=>DA" = .ok kb := by
  obtain ⟨kb, hkb, htext⟩ := Except.exists_ok_of_any
    (x := parse "A B=>C,C, C => DA,\n A,C")
    (p := fun kb => kb.text == "C, A,\nAB=>C,\nC=>DA") (by decide +kernel)
  have htext : kb.text = "C, A,\nAB=>C,\nC=>DA" := by simpa using htext
  refine ⟨kb, hkb, htext, ?_⟩
  rw [← htext]
  exact parse_text_of_parse hkb

end KnowledgeBase

end HornClause
