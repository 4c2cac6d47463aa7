/-
  HornClause.Proofs.Entries

  The format of a knowledge base. A text without its blanks is parted by commas into
  entries, and can be read exactly if there is something left to part and every entry
  is one letter, for a fact, or an implication, for a rule.

  The order of the checks shows in the errors. All entries of one character are read
  before any other, so a fact that is no letter is reported even where an earlier entry
  is no rule (`parse_of_bad_fact`); after that, the first entry that is no rule is
  reported, with the reason for which it is no formula (`parse_of_bad_rule`).
-/
import HornClause.Proofs.Reading

/-! ## Lists without repetitions -/

theorem List.nodup_eraseDups {α : Type} [BEq α] [LawfulBEq α] (xs : List α) :
    xs.eraseDups.Nodup := by
  -- The rest of a list, without what equals its head, is shorter.
  induction hn : xs.length using Nat.strong_induction_on generalizing xs with
  | _ n ih =>
    cases xs with
    | nil => simp
    | cons x xs =>
      rw [List.eraseDups_cons, List.nodup_cons, List.mem_eraseDups]
      have hshorter : (xs.filter fun y => !y == x).length < n := by
        have hle := List.length_filter_le (fun y => !y == x) xs
        rw [List.length_cons] at hn
        omega
      exact ⟨by simp, ih _ hshorter _ rfl⟩

namespace HornClause.KnowledgeBase

-- ============================================================================
-- Entries
-- ============================================================================

/-- What an entry has to be: one letter, or an implication. -/
def IsEntry (entry : List Char) : Prop :=
  (entry.length = 1 ∧ Text.IsWord entry) ∨ Text.IsImplication entry

instance (entry : List Char) : Decidable (IsEntry entry) :=
  inferInstanceAs (Decidable ((entry.length = 1 ∧ Text.IsWord entry) ∨ Text.IsImplication entry))

/-- The letter that stands alone in an entry, if there is one. -/
def loneLetter? : List Char → Option Letter
  | [c] => Letter.ofChar? c
  | _ => none

theorem loneLetter?_eq_some_iff {entry : List Char} {l : Letter} :
    loneLetter? entry = some l ↔ entry = [l.char] := by
  rcases entry with _ | ⟨c, _ | ⟨d, rest⟩⟩
  · simp [loneLetter?]
  · rw [loneLetter?, Letter.ofChar?_eq_some_iff, List.cons.injEq]
    simp [eq_comm]
  · simp [loneLetter?]

theorem isFactEntry_iff {entry : List Char} : isFactEntry entry = true ↔ entry.length = 1 :=
  beq_iff_eq

/-- An entry that cannot be read as a fact is reported as it stands. -/
theorem readFact_eq_error {entry : List Char} {e : ParseError}
    (h : readFact entry = .error e) : e = .badSymbol (String.ofList entry) := by
  rw [readFact, Atom.ofSymbol, Letter.ofSymbol, String.toList_ofList] at h
  split at h
  · rename_i c
    rw [Letter.ofChar] at h
    split at h
    · cases h
    · cases h
      rfl
  · cases h
    rfl

/-- Of the entries of one character, the letters are facts. -/
theorem exists_readFact_iff {entry : List Char} (h : entry.length = 1) :
    (∃ a, readFact entry = .ok a) ↔ IsEntry entry := by
  constructor
  · rintro ⟨a, ha⟩
    obtain ⟨rfl, -⟩ := readFact_eq_ok_iff.mp ha
    refine Or.inl ⟨rfl, List.cons_ne_nil _ _, fun c hc => ?_⟩
    rw [List.mem_singleton.mp hc]
    exact a.letter.isUpper
  · rintro (⟨-, -, hupper⟩ | himplication)
    · obtain ⟨c, rfl⟩ := List.length_eq_one_iff.mp h
      exact ⟨⟨⟨c, hupper c List.mem_cons_self⟩, true⟩, readFact_eq_ok_iff.mpr ⟨rfl, rfl⟩⟩
    · exact absurd h himplication.length_ne_one

/-- Of the other entries, the implications are rules. -/
theorem exists_readRule_iff_isEntry (declared : List Letter) {entry : List Char}
    (h : entry.length ≠ 1) : (∃ r, readRule (factFor declared) entry = .ok r) ↔ IsEntry entry := by
  rw [exists_readRule_iff, IsEntry]
  exact ⟨Or.inr, fun hentry => hentry.resolve_left fun hletter => h hletter.1⟩

theorem exists_readFact_of_mem_filter {entries : List (List Char)}
    (h : ∀ e ∈ entries, e.length = 1 → IsEntry e) :
    ∀ e ∈ entries.filter isFactEntry, ∃ a, readFact e = .ok a := by
  intro e he
  obtain ⟨hmem, hfact⟩ := List.mem_filter.mp he
  have hlength := isFactEntry_iff.mp hfact
  exact (exists_readFact_iff hlength).mpr (h e hmem hlength)

theorem exists_readRule_of_mem_filter (declared : List Letter) {entries : List (List Char)}
    (h : ∀ e ∈ entries, e.length ≠ 1 → IsEntry e) :
    ∀ e ∈ entries.filter (!isFactEntry ·), ∃ r, readRule (factFor declared) e = .ok r := by
  intro e he
  obtain ⟨hmem, hother⟩ := List.mem_filter.mp he
  have hlength : e.length ≠ 1 := by simpa [isFactEntry] using hother
  exact (exists_readRule_iff_isEntry declared hlength).mpr (h e hmem hlength)

theorem filterMap_loneLetter?_map (letters : List Letter) :
    (letters.map fun l => [l.char]).filterMap loneLetter? = letters := by
  have hlone : loneLetter? ∘ (fun l : Letter => [l.char]) = some :=
    funext fun l => loneLetter?_eq_some_iff.mpr rfl
  rw [List.filterMap_map, hlone, List.filterMap_some]

theorem filterMap_loneLetter?_filter (entries : List (List Char)) :
    (entries.filter isFactEntry).filterMap loneLetter? = entries.filterMap loneLetter? := by
  rw [List.filterMap_filter]
  refine List.filterMap_congr fun entry _ => ?_
  split
  · rfl
  · rename_i hentry
    refine (Option.eq_none_iff_forall_ne_some.mpr fun l hl => hentry ?_).symm
    rw [loneLetter?_eq_some_iff.mp hl]
    rfl

/-- The letters that are read from the entries of facts are those that stand alone. -/
theorem letters_of_mapM_readFact {entries : List (List Char)} {atoms : List Atom}
    (h : (entries.filter isFactEntry).mapM readFact = .ok atoms) :
    atoms.map Atom.letter = entries.filterMap loneLetter? := by
  obtain ⟨hentries, -⟩ := (Except.mapM_eq_ok_iff fun _ _ => readFact_eq_ok_iff).mp h
  have hchars : (atoms.map Atom.letter).map (fun l => [l.char]) = entries.filter isFactEntry := by
    rw [← hentries, List.map_map]
    rfl
  rw [← filterMap_loneLetter?_filter, ← hchars, filterMap_loneLetter?_map]

-- ============================================================================
-- The order of the checks
-- ============================================================================

variable {text : String}

/-- The letters that stand alone in the entries of a text, each where it first does. -/
def declaredIn (text : String) : List Letter := ((entries text).filterMap loneLetter?).eraseDups

theorem mem_declaredIn {l : Letter} : l ∈ declaredIn text ↔ [l.char] ∈ entries text := by
  rw [declaredIn, List.mem_eraseDups, List.mem_filterMap]
  constructor
  · rintro ⟨entry, hentry, hl⟩
    rw [← loneLetter?_eq_some_iff.mp hl]
    exact hentry
  · intro hentry
    exact ⟨[l.char], hentry, loneLetter?_eq_some_iff.mpr rfl⟩

/-- A text with anything in an entry is not blank. -/
theorem dense_ne_nil {entry : List Char} (hmem : entry ∈ entries text) (hne : entry ≠ []) :
    Text.dense text.toList ≠ [] := by
  intro hempty
  rw [entries, hempty, List.splitOn_nil, List.mem_singleton] at hmem
  exact hne hmem

theorem parse_of_dense (hdense : Text.dense text.toList ≠ []) :
    parse text = (do
      let atoms ← ((entries text).filter isFactEntry).mapM readFact
      let base := atoms.foldl declare {}
      let rules ← ((entries text).filter (!isFactEntry ·)).mapM (readRule base.known)
      return { base with rules }) := by
  rw [parse, if_neg (by simpa using hdense), foldlM_declareEntry, bind_assoc]
  rfl

/-- Once all entries of one character are letters, these are declared and the rules
    decide. -/
theorem parse_of_facts (hdense : Text.dense text.toList ≠ [])
    (hfacts : ∀ entry ∈ entries text, entry.length = 1 → IsEntry entry) :
    ∃ base : KnowledgeBase, base.declared = declaredIn text ∧
      base.known = factFor base.declared ∧
      parse text = (do
        let rules ← ((entries text).filter (!isFactEntry ·)).mapM
          (readRule (factFor (declaredIn text)))
        return { base with rules }) := by
  obtain ⟨atoms, hatoms⟩ :=
    Except.exists_mapM_eq_ok_iff.mpr (exists_readFact_of_mem_filter hfacts)
  have hdeclares := declares_of_mapM hatoms
  have hdeclared : (atoms.foldl declare {}).declared = declaredIn text := by
    rw [hdeclares.declared, letters_of_mapM_readFact hatoms]
    rfl
  refine ⟨atoms.foldl declare {}, hdeclared, hdeclares.known_eq, ?_⟩
  rw [parse_of_dense hdense, hatoms, ← hdeclared, ← hdeclares.known_eq]
  rfl

/-- The first entry of one character that is no letter is reported, wherever it stands. -/
theorem parse_of_bad_fact {before after : List (List Char)} {entry : List Char}
    (hentries : entries text = before ++ entry :: after)
    (hbefore : ∀ e ∈ before, e.length = 1 → IsEntry e)
    (hlength : entry.length = 1) (hbad : ¬ IsEntry entry) :
    parse text = .error (.badSymbol (String.ofList entry)) := by
  have hdense : Text.dense text.toList ≠ [] := by
    have hmem : entry ∈ entries text := by
      rw [hentries]
      exact List.mem_append_right _ List.mem_cons_self
    exact dense_ne_nil hmem (by rintro rfl; cases hlength)
  rw [← exists_readFact_iff hlength] at hbad
  obtain ⟨e, he⟩ := Except.exists_error_of_not_ok hbad
  rw [parse_of_dense hdense, hentries, List.filter_append,
    List.filter_cons_of_pos (isFactEntry_iff.mpr hlength),
    Except.mapM_eq_error (exists_readFact_of_mem_filter hbefore) he, readFact_eq_error he]
  rfl

/-- Where all facts are letters, the first other entry that is no implication is
    reported, for the reason that it is no formula. -/
theorem parse_of_bad_rule (hdense : Text.dense text.toList ≠ [])
    (hfacts : ∀ e ∈ entries text, e.length = 1 → IsEntry e)
    {before after : List (List Char)} {entry : List Char}
    (hentries : entries text = before ++ entry :: after)
    (hbefore : ∀ e ∈ before, e.length ≠ 1 → IsEntry e)
    (hlength : entry.length ≠ 1) (hbad : ¬ IsEntry entry) :
    ∃ e, Formula.parse (factFor (declaredIn text)) .entry (String.ofList entry) = .error e ∧
      parse text = .error e := by
  have hrule : isFactEntry entry = false := beq_eq_false_iff_ne.mpr hlength
  rw [← exists_readRule_iff_isEntry (declaredIn text) hlength] at hbad
  obtain ⟨e, he⟩ := Except.exists_error_of_not_ok hbad
  have hmapM : ((entries text).filter (!isFactEntry ·)).mapM
      (readRule (factFor (declaredIn text))) = .error e := by
    rw [hentries, List.filter_append, List.filter_cons_of_pos (by rw [hrule]; rfl)]
    exact Except.mapM_eq_error (exists_readRule_of_mem_filter (declaredIn text) hbefore) he
  obtain ⟨base, -, -, hparse⟩ := parse_of_facts hdense hfacts
  refine ⟨e, parse_of_readRule_error hrule he, ?_⟩
  rw [hparse, hmapM]
  rfl

/-- What is read from a text: its lone letters, known as they are declared, and the
    canonical rules with its other entries for texts. -/
theorem parse_eq_ok_iff {kb : KnowledgeBase} :
    parse text = .ok kb ↔
      Text.dense text.toList ≠ [] ∧
      (∀ e ∈ entries text, e.length = 1 → IsEntry e) ∧
      kb.declared = declaredIn text ∧
      kb.known = factFor kb.declared ∧
      kb.rules.map (fun r => r.text.toList) = (entries text).filter (!isFactEntry ·) ∧
      ∀ r ∈ kb.rules, r.Canonical kb.declared := by
  constructor
  · intro h
    have hdense : Text.dense text.toList ≠ [] := by
      intro hempty
      rw [parse, hempty] at h
      cases h
    have hfacts : ∀ e ∈ entries text, e.length = 1 → IsEntry e := by
      rw [parse_of_dense hdense] at h
      obtain ⟨atoms, hatoms, -⟩ := Except.bind_eq_ok.mp h
      intro e hmem hlength
      rw [← exists_readFact_iff hlength]
      exact Except.exists_mapM_eq_ok_iff.mp ⟨atoms, hatoms⟩ e
        (List.mem_filter.mpr ⟨hmem, isFactEntry_iff.mpr hlength⟩)
    obtain ⟨base, hdeclared, hknown, hparse⟩ := parse_of_facts hdense hfacts
    rw [hparse] at h
    obtain ⟨rules, hrules, h⟩ := Except.bind_eq_ok.mp h
    cases h
    rw [← hdeclared] at hrules
    exact ⟨hdense, hfacts, hdeclared, hknown, mapM_readRule_eq_ok_iff.mp hrules⟩
  · rintro ⟨hdense, hfacts, hdeclared, hknown, hrules⟩
    obtain ⟨base, hdeclared', hknown', hparse⟩ := parse_of_facts hdense hfacts
    -- The map is determined by what is known, so it is the one that was filled.
    have hsame : base.declared = kb.declared := hdeclared'.trans hdeclared.symm
    have hfactmap : base.facts = kb.facts :=
      facts_eq_of_known_eq (by rw [hknown', hknown, hsame])
    rw [hparse, ← hdeclared, mapM_readRule_eq_ok_iff.mpr hrules]
    exact congrArg Except.ok (KnowledgeBase.ext hfactmap hsame rfl)

theorem exists_parse_iff :
    (∃ kb, parse text = .ok kb) ↔
      Text.dense text.toList ≠ [] ∧ ∀ e ∈ entries text, IsEntry e := by
  constructor
  · rintro ⟨kb, hkb⟩
    obtain ⟨hdense, hfacts, -, -, hrules, hcanonical⟩ := parse_eq_ok_iff.mp hkb
    refine ⟨hdense, fun e he => ?_⟩
    by_cases hlength : e.length = 1
    · exact hfacts e he hlength
    · have hrule : e ∈ (entries text).filter (!isFactEntry ·) :=
        List.mem_filter.mpr ⟨he, by simpa [isFactEntry] using hlength⟩
      rw [← hrules] at hrule
      obtain ⟨r, hr, rfl⟩ := List.mem_map.mp hrule
      refine (exists_readRule_iff_isEntry kb.declared hlength).mp ⟨r, ?_⟩
      exact readRule_eq_ok_iff.mpr ⟨String.ofList_toList.symm, hcanonical r hr⟩
  · rintro ⟨hdense, hentries⟩
    obtain ⟨rules, hrules⟩ := Except.exists_mapM_eq_ok_iff.mpr
      (exists_readRule_of_mem_filter (declaredIn text) fun e he _ => hentries e he)
    obtain ⟨base, -, -, hparse⟩ := parse_of_facts hdense fun e he _ => hentries e he
    refine ⟨{ base with rules }, ?_⟩
    rw [hparse, hrules]
    rfl

theorem parse_ne_notARule (text rule : String) : parse text ≠ .error (.notARule rule) := by
  intro h
  by_cases hdense : Text.dense text.toList = []
  · rw [parse, hdense] at h
    cases h
  · rw [parse_of_dense hdense] at h
    rcases Except.bind_eq_error.mp h with hfacts | ⟨atoms, hatoms, h⟩
    · obtain ⟨entry, -, hentry⟩ := Except.exists_of_mapM_eq_error hfacts
      cases readFact_eq_error hentry
    · rcases Except.bind_eq_error.mp h with hrules | ⟨rules, -, h⟩
      · obtain ⟨entry, hmem, hentry⟩ := Except.exists_of_mapM_eq_error hrules
        have hother : isFactEntry entry = false := by simpa using (List.mem_filter.mp hmem).2
        rw [(declares_of_mapM hatoms).known_eq] at hentry
        cases (Formula.parse_eq_error_iff (faithful_factFor _)).mp
          (parse_of_readRule_error hother hentry)
      · cases h

-- ============================================================================
-- The format
-- ============================================================================

/-- The format of a knowledge base, and the order in which it is checked.

    A text can be read exactly if it is not blank and every entry is a letter or an
    implication. Then the facts are the letters that stand alone, each declared where
    it first does, and the texts of the rules are the other entries in their order.

    A blank text is an empty base. In any other text, the first entry of one character
    that is no letter is reported; if there is none, the first other entry that is no
    implication, with the reason for which it cannot be read as a formula. No error
    ever says that a formula is not a rule. -/
theorem parse_determined_by_entries (text : String) :
    ((∃ kb, parse text = .ok kb) ↔
      Text.dense text.toList ≠ [] ∧ ∀ e ∈ entries text, IsEntry e) ∧
    (∀ kb, parse text = .ok kb →
      (∀ a, a ∈ kb.facts ↔ [a.symbol] ∈ entries text ∧ a.value = true) ∧
      kb.declared = ((entries text).filterMap loneLetter?).eraseDups ∧ kb.declared.Nodup ∧
      kb.rules.map (fun r => r.text.toList) = (entries text).filter (!isFactEntry ·)) ∧
    (Text.dense text.toList = [] → parse text = .error .emptyBase) ∧
    (∀ before entry after, entries text = before ++ entry :: after →
      (∀ e ∈ before, e.length = 1 → IsEntry e) → entry.length = 1 → ¬ IsEntry entry →
      parse text = .error (.badSymbol (String.ofList entry))) ∧
    (Text.dense text.toList ≠ [] → (∀ e ∈ entries text, e.length = 1 → IsEntry e) →
      ∀ before entry after, entries text = before ++ entry :: after →
      (∀ e ∈ before, e.length ≠ 1 → IsEntry e) → entry.length ≠ 1 → ¬ IsEntry entry →
      ∃ reason, Formula.parse (factFor (declaredIn text)) .entry (String.ofList entry) =
        .error reason ∧ parse text = .error reason) ∧
    ∀ rule, parse text ≠ .error (.notARule rule) := by
  refine ⟨exists_parse_iff, ?_, ?_, ?_, ?_, parse_ne_notARule text⟩
  · intro kb hkb
    obtain ⟨-, -, hdeclared, hknown, hrules, -⟩ := parse_eq_ok_iff.mp hkb
    refine ⟨fun a => ?_, hdeclared, ?_, hrules⟩
    · rw [mem_facts_iff hknown, hdeclared, mem_declaredIn]
      rfl
    · rw [hdeclared]
      exact List.nodup_eraseDups _
  · intro hempty
    rw [parse, hempty]
    rfl
  · intro before entry after hentries hbefore hlength hbad
    exact parse_of_bad_fact hentries hbefore hlength hbad
  · intro hdense hfacts before entry after hentries hbefore hlength hbad
    exact parse_of_bad_rule hdense hfacts hentries hbefore hlength hbad

/-- A repeated fact, a symbol that is reported before the empty entry in front of it,
    and a bare conjunction that is reported before the half of a rule behind it. -/
theorem parse_determined_by_entries_samples :
    (∃ kb, parse "B, A => C,\n D,B" = .ok kb ∧ kb.declared.map Letter.char = ['B', 'D'] ∧
      kb.rules.map Rule.text = ["A=>C"]) ∧
    parse "A,, b" = .error (.badSymbol "b") ∧
    parse "A=>B, BC, D=>" = .error (.bareConjunction "BC") := by
  refine ⟨?_, ?_, ?_⟩
  · obtain ⟨hok, hread, -⟩ := parse_determined_by_entries "B, A => C,\n D,B"
    obtain ⟨kb, hkb⟩ := hok.mpr ⟨by decide +kernel, by decide +kernel⟩
    obtain ⟨-, hdeclared, -, hrules⟩ := hread kb hkb
    refine ⟨kb, hkb, ?_, ?_⟩
    · rw [hdeclared]
      decide +kernel
    · have htexts := congrArg (List.map String.ofList) hrules
      rw [List.map_map, show String.ofList ∘ (fun r : Rule => r.text.toList) = Rule.text from
        funext fun r => String.ofList_toList] at htexts
      rw [htexts]
      decide +kernel
  · obtain ⟨-, -, -, hfact, -⟩ := parse_determined_by_entries "A,, b"
    exact hfact [['A'], []] ['b'] [] (by decide +kernel) (by decide +kernel) rfl
      (by decide +kernel)
  · obtain ⟨-, -, -, -, hrule, -⟩ := parse_determined_by_entries "A=>B, BC, D=>"
    obtain ⟨reason, hreason, hparse⟩ := hrule (by decide +kernel) (by decide +kernel)
      [['A', '=', '>', 'B']] ['B', 'C'] [['D', '=', '>']] (by decide +kernel)
      (by decide +kernel) (by decide) (by decide +kernel)
    have hbare : Formula.parse (factFor (declaredIn "A=>B, BC, D=>")) .entry
        (String.ofList ['B', 'C']) = .error (.bareConjunction "BC") :=
      Except.eq_error_of_reason? (by decide +kernel)
    rw [hbare] at hreason
    cases hreason
    exact hparse

end HornClause.KnowledgeBase
