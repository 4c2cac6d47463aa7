/-
  HornClause.Proofs.Splitting

  A rule with several letters for its conclusion, against one rule for each of them.
  The two bases behave differently inside: only a conclusion of one letter goes into
  the cache, and where a letter is concluded twice, a premise that fails is tried
  twice. What a query is answered does not show it.

    * `Rule.split` — the rules that a rule is split into, in the order of the letters.
    * `parse_split` — a text with the entries of these rules, in place of the entry of
      the rule, can be read, and differs from the base before in these rules only.
    * `prove_split` — every atom has the same plain value in both bases, level by
      level: rules are tried by their premises, and to try one premise again changes
      nothing (`tryRules_same_premise`).
    * `exists_answer_iff_of_same_values` — bases with the same facts and plain values
      answer alike.
-/
import HornClause.Proofs.Answer
import HornClause.Proofs.Rereading
import HornClause.Proofs.RoundTrip

namespace HornClause

-- ============================================================================
-- Split rules
-- ============================================================================

namespace Rule

/-- The rules with the same premise, one for each letter of the conclusion. -/
def split (r : Rule) : List Rule := r.conclusion.atoms.map fun a => ⟨r.premise, .atom a⟩

theorem mem_split {r s : Rule} :
    s ∈ r.split ↔ ∃ a ∈ r.conclusion.atoms, s = ⟨r.premise, .atom a⟩ := by
  simp only [split, List.mem_map, eq_comm]

theorem premise_of_mem_split {r s : Rule} (h : s ∈ r.split) : s.premise = r.premise := by
  obtain ⟨a, -, rfl⟩ := mem_split.mp h
  rfl

/-- Some rule of a split concludes a letter exactly if the whole rule does. -/
theorem exists_mem_split_iff {r : Rule} {l : Letter} :
    (∃ s ∈ r.split, l ∈ s.conclusion.letters) ↔ l ∈ r.conclusion.letters := by
  constructor
  · rintro ⟨s, hs, hl⟩
    obtain ⟨a, ha, rfl⟩ := mem_split.mp hs
    rw [Formula.letters_atom, List.mem_singleton] at hl
    exact Formula.mem_letters.mpr ⟨a, ha, hl.symm⟩
  · intro hl
    obtain ⟨a, ha, rfl⟩ := Formula.mem_letters.mp hl
    exact ⟨⟨r.premise, .atom a⟩, mem_split.mpr ⟨a, ha, rfl⟩, List.mem_cons_self⟩

theorem Canonical.of_mem_split {declared : List Letter} {r s : Rule} (h : r.Canonical declared)
    (hs : s ∈ r.split) : s.Canonical declared := by
  obtain ⟨a, ha, rfl⟩ := mem_split.mp hs
  refine ⟨h.premise_nested, ⟨a, [], rfl⟩, h.premise_agrees, ?_⟩
  exact Formula.agreesWith_atom.mpr (h.conclusion_agrees a ha)

theorem Canonical.split_ne_nil {declared : List Letter} {r : Rule} (h : r.Canonical declared) :
    r.split ≠ [] := by
  obtain ⟨first, others, hconclusion⟩ := h.conclusion_nested
  rw [split, hconclusion, Formula.atoms_conjoin]
  exact List.cons_ne_nil _ _

end Rule

-- ============================================================================
-- Reading split rules
-- ============================================================================

namespace KnowledgeBase

variable {text text' : String} {kb : KnowledgeBase} {r : Rule} {before after : List (List Char)}

/-- The rule of an entry stands in the base where the entry stands in the text. -/
theorem exists_rules_of_entries (h : parse text = .ok kb) (hr : r ∈ kb.rules)
    (hentries : entries text = before ++ r.text.toList :: after) :
    ∃ front back, kb.rules = front ++ r :: back ∧
      front.map (fun s => s.text.toList) = before.filter (!isFactEntry ·) ∧
      back.map (fun s => s.text.toList) = after.filter (!isFactEntry ·) := by
  have hcanonical := canonical_of_parse h
  obtain ⟨-, -, -, -, hrules, -⟩ := parse_eq_ok_iff.mp h
  rw [hentries, List.filter_append,
    List.filter_cons_of_pos (by rw [isFactEntry_text (hcanonical r hr)]; rfl)] at hrules
  obtain ⟨front, tail, hsplit, hfront, htail⟩ := List.map_eq_append_iff.mp hrules
  obtain ⟨s, back, rfl, htext, hback⟩ := List.map_eq_cons_iff.mp htail
  -- The text of a rule determines the rule.
  have hs : s ∈ kb.rules := by
    rw [hsplit]
    exact List.mem_append_right front List.mem_cons_self
  have hsame : s = r := by
    have hunder := (hcanonical r hr).eq_under (hcanonical s hs) (String.toList_inj.mp htext.symm)
    exact hunder.trans ((hcanonical r hr).eq_under (hcanonical r hr) rfl).symm
  rw [hsame] at hsplit
  exact ⟨front, back, hsplit, hfront, hback⟩

/-- A text with the same facts and with other rules can be read, as these rules under
    the same facts. -/
theorem parse_of_same_facts (h : parse text = .ok kb)
    (hfacts : (entries text').filter isFactEntry = (entries text).filter isFactEntry)
    {rules : List Rule} (hne : rules ≠ [])
    (hrules : rules.map (fun s => s.text.toList) = (entries text').filter (!isFactEntry ·))
    (hcanonical : ∀ s ∈ rules, s.Canonical kb.declared) :
    parse text' = .ok { kb with rules } := by
  obtain ⟨-, hletters, hdeclared, hknown, -⟩ := parse_eq_ok_iff.mp h
  refine parse_eq_ok_iff.mpr ⟨?_, ?_, ?_, hknown, hrules, hcanonical⟩
  · obtain ⟨s, rest, rfl⟩ := List.exists_cons_of_ne_nil hne
    have hmem : s.text.toList ∈ (entries text').filter (!isFactEntry ·) := by
      rw [← hrules]
      exact List.mem_cons_self
    have himplication := isImplication_text (hcanonical s List.mem_cons_self)
    exact dense_ne_nil (List.mem_filter.mp hmem).1 (IsEntry.ne_nil (Or.inr himplication))
  · intro e he hlength
    have hfact : e ∈ (entries text').filter isFactEntry :=
      List.mem_filter.mpr ⟨he, isFactEntry_iff.mpr hlength⟩
    rw [hfacts] at hfact
    exact hletters e (List.mem_filter.mp hfact).1 hlength
  · show kb.declared = declaredIn text'
    rw [hdeclared, declaredIn, declaredIn, ← filterMap_loneLetter?_filter, ← hfacts,
      filterMap_loneLetter?_filter]

/-- A text in which a rule is split can be read, as the base with the rule split. -/
theorem parse_split (h : parse text = .ok kb) (hr : r ∈ kb.rules)
    (hentries : entries text = before ++ r.text.toList :: after)
    (hsplit : entries text' = before ++ r.split.map (fun s => s.text.toList) ++ after) :
    ∃ front back, kb.rules = front ++ r :: back ∧
      parse text' = .ok { kb with rules := front ++ r.split ++ back } := by
  obtain ⟨front, back, hrules, hfront, hback⟩ := exists_rules_of_entries h hr hentries
  have hcanonical := canonical_of_parse h
  have hparts : ∀ s ∈ r.split, s.Canonical kb.declared :=
    fun s hs => (hcanonical r hr).of_mem_split hs
  refine ⟨front, back, hrules, parse_of_same_facts h ?_ ?_ ?_ ?_⟩
  · have hnone : (r.split.map fun s => s.text.toList).filter isFactEntry = [] := by
      refine List.filter_eq_nil_iff.mpr fun e he => ?_
      obtain ⟨s, hs, rfl⟩ := List.mem_map.mp he
      rw [isFactEntry_text (hparts s hs)]
      exact Bool.false_ne_true
    have hrule : ¬ isFactEntry r.text.toList = true := by
      rw [isFactEntry_text (hcanonical r hr)]
      exact Bool.false_ne_true
    rw [hsplit, hentries, List.filter_append, List.filter_append, hnone, List.append_nil,
      List.filter_append, List.filter_cons_of_neg hrule]
  · have hne := (hcanonical r hr).split_ne_nil
    exact List.append_ne_nil_of_left_ne_nil (List.append_ne_nil_of_right_ne_nil front hne) back
  · rw [hsplit, List.map_append, List.map_append, hfront, hback, List.filter_append,
      List.filter_append, filter_texts hparts]
  · intro s hs
    rw [List.mem_append, List.mem_append] at hs
    rcases hs with (hs | hs) | hs
    · exact hcanonical s (by rw [hrules]; exact List.mem_append_left _ hs)
    · exact hparts s hs
    · refine hcanonical s ?_
      rw [hrules]
      exact List.mem_append_right _ (List.mem_cons_of_mem r hs)

end KnowledgeBase

-- ============================================================================
-- Values
-- ============================================================================

namespace Plain

variable {f : Atom → Option Bool}

/-- What comes before does not tell two lists of rules apart. -/
theorem tryRules_append_congr {rules others : List Rule} (front : List Rule)
    (h : tryRules f rules = tryRules f others) :
    tryRules f (front ++ rules) = tryRules f (front ++ others) := by
  induction front with
  | nil => exact h
  | cons rule rest ih => rw [List.cons_append, List.cons_append, tryRules, tryRules, ih]

theorem tryRules_cons_congr {r s : Rule} (rest : List Rule) (h : s.premise = r.premise) :
    tryRules f (s :: rest) = tryRules f (r :: rest) := by
  rw [tryRules, tryRules, h]

/-- Rules with one premise, one after the other, do what a single one of them does: a
    premise that failed fails again. -/
theorem tryRules_same_premise {r : Rule} {rules : List Rule} (rest : List Rule)
    (hne : rules ≠ []) (h : ∀ s ∈ rules, s.premise = r.premise) :
    tryRules f (rules ++ rest) = tryRules f (r :: rest) := by
  induction rules with
  | nil => exact absurd rfl hne
  | cons s others ih =>
    obtain ⟨hs, hothers⟩ := List.forall_mem_cons.mp h
    by_cases hnil : others = []
    · rw [hnil]
      exact tryRules_cons_congr rest hs
    · rw [List.cons_append, tryRules_cons_congr _ hs, tryRules, ih hnil hothers, tryRules]
      cases r.premise.evaluate with
      | true => rfl
      | false =>
        cases resolve f r.premise with
        | none => rfl
        | some holds => cases holds <;> cases r.premise.isAtom <;> rfl

variable {kb : KnowledgeBase} {r : Rule} {front back : List Rule}

/-- The rules for an atom give it the same value whether or not a rule is split. -/
theorem tryRules_rulesFor_split (hrules : kb.rules = front ++ r :: back) (a : Atom) :
    tryRules f (KnowledgeBase.rulesFor { kb with rules := front ++ r.split ++ back } (.atom a)) =
      tryRules f (kb.rulesFor (.atom a)) := by
  rw [KnowledgeBase.rulesFor_atom, KnowledgeBase.rulesFor_atom, hrules, List.append_assoc,
    List.filter_append, List.filter_append, List.filter_append]
  apply tryRules_append_congr
  by_cases hl : a.letter ∈ r.conclusion.letters
  · rw [List.filter_cons_of_pos (by simpa using hl)]
    apply tryRules_same_premise
    · obtain ⟨s, hs, hsl⟩ := Rule.exists_mem_split_iff.mpr hl
      exact List.ne_nil_of_mem (List.mem_filter.mpr ⟨hs, decide_eq_true hsl⟩)
    · exact fun s hs => Rule.premise_of_mem_split (List.mem_filter.mp hs).1
  · have hnone : r.split.filter (fun s => a.letter ∈ s.conclusion.letters) = [] := by
      refine List.filter_eq_nil_iff.mpr fun s hs hsl => hl ?_
      exact Rule.exists_mem_split_iff.mp ⟨s, hs, of_decide_eq_true hsl⟩
    rw [hnone, List.filter_cons_of_neg (by simpa using hl), List.nil_append]

theorem prove_split (hrules : kb.rules = front ++ r :: back) (n : Nat) :
    prove { kb with rules := front ++ r.split ++ back } n = prove kb n := by
  induction n with
  | zero => rfl
  | succ n ih =>
    funext a
    cases hvalue : a.value with
    | true => rw [prove_of_value hvalue, prove_of_value hvalue]
    | false => rw [prove_succ hvalue, prove_succ hvalue, ih, tryRules_rulesFor_split hrules]

end Plain

-- ============================================================================
-- Answers
-- ============================================================================

/-- Bases with the same facts, and with the same plain value for every atom, answer
    alike. -/
theorem exists_answer_iff_of_same_values {kb kb' : KnowledgeBase} (hkb : kb.WellFormed)
    (hkb' : kb'.WellFormed) (hdeclared : kb'.declared = kb.declared)
    (hvalue : Plain.value kb' = Plain.value kb) {settings : Settings}
    (hlimit : 26 ≤ settings.depthLimit.value) {query : String} {v : Bool} :
    (∃ answer, (Session.install { settings } kb).ask query = .ok answer ∧ answer.result = v) ↔
      ∃ answer, (Session.install { settings } kb').ask query = .ok answer ∧
        answer.result = v := by
  -- The facts are the same, so the query is read as the same goal.
  have hknown : kb'.known = kb.known := by
    rw [hkb'.known_eq, hkb.known_eq, hdeclared]
  have hgoals : ∀ goal, Formula.parse kb.known .query query = .ok goal →
      ((∃ answer, (Session.install { settings } kb).ask query = .ok answer ∧
          answer.result = v) ↔
        ∃ answer, (Session.install { settings } kb').ask query = .ok answer ∧
          answer.result = v) := by
    intro goal hquery
    have hquery' : Formula.parse kb'.known .query query = .ok goal := by
      rw [hknown]
      exact hquery
    rw [exists_answer_iff hkb (hkb.agreesWith hquery) hquery hlimit, ← hvalue]
    exact (exists_answer_iff hkb' (hkb'.agreesWith hquery') hquery' hlimit).symm
  constructor
  · rintro ⟨answer, hask, hresult⟩
    obtain ⟨goal, hquery⟩ := exists_goal_of_ask hask
    exact (hgoals goal hquery).mp ⟨answer, hask, hresult⟩
  · rintro ⟨answer, hask, hresult⟩
    obtain ⟨goal, hquery⟩ := exists_goal_of_ask hask
    rw [hknown] at hquery
    exact (hgoals goal hquery).mpr ⟨answer, hask, hresult⟩

/-- Splitting a conclusion preserves meaning. Where one rule is replaced, in its place,
    by the rules for the single letters of its conclusion, the text can be read; and
    with twenty-six levels, with or without a check for cycles, each query is answered
    on both bases or on neither, and with the same result. -/
theorem ask_of_split {text text' : String} {kb : KnowledgeBase}
    (hkb : KnowledgeBase.parse text = .ok kb) {r : Rule} (hr : r ∈ kb.rules)
    {before after : List (List Char)}
    (hentries : KnowledgeBase.entries text = before ++ r.text.toList :: after)
    (hsplit : KnowledgeBase.entries text' =
      before ++ r.split.map (fun s => s.text.toList) ++ after) :
    ∃ kb', KnowledgeBase.parse text' = .ok kb' ∧
      ∀ (settings : Settings) (query : String), 26 ≤ settings.depthLimit.value →
        ((∃ answer, (Session.install { settings } kb).ask query = .ok answer) ↔
          ∃ answer, (Session.install { settings } kb').ask query = .ok answer) ∧
        ∀ answer answer', (Session.install { settings } kb).ask query = .ok answer →
          (Session.install { settings } kb').ask query = .ok answer' →
          answer'.result = answer.result := by
  obtain ⟨front, back, hrules, hkb'⟩ := KnowledgeBase.parse_split hkb hr hentries hsplit
  refine ⟨_, hkb', fun settings query hlimit => ?_⟩
  have hwf := KnowledgeBase.wellFormed_of_parse hkb
  have hwf' := KnowledgeBase.wellFormed_of_parse hkb'
  have hvalue : Plain.value { kb with rules := front ++ r.split ++ back } = Plain.value kb :=
    Plain.prove_split hrules 26
  refine ⟨⟨?_, ?_⟩, ?_⟩
  · rintro ⟨answer, hask⟩
    obtain ⟨answer', hask', -⟩ :=
      (exists_answer_iff_of_same_values hwf hwf' rfl hvalue hlimit).mp ⟨answer, hask, rfl⟩
    exact ⟨answer', hask'⟩
  · rintro ⟨answer, hask⟩
    obtain ⟨answer', hask', -⟩ :=
      (exists_answer_iff_of_same_values hwf hwf' rfl hvalue hlimit).mpr ⟨answer, hask, rfl⟩
    exact ⟨answer', hask'⟩
  · intro answer answer' hask hask'
    obtain ⟨same, hsame, hresult⟩ :=
      (exists_answer_iff_of_same_values hwf hwf' rfl hvalue hlimit).mp ⟨answer, hask, rfl⟩
    rw [hask'] at hsame
    cases hsame
    exact hresult

/-- `BE` is tried twice for `F` where `FGF` is split, and fails twice before `D` decides. -/
theorem ask_of_split_sample :
    ∃ kb r kb' answer answer',
      KnowledgeBase.parse "A, A=>B, BE=>FGF, AB=>D, D=>F" = .ok kb ∧ r ∈ kb.rules ∧
      r.text = "BE=>FGF" ∧ r.split.map Rule.text = ["BE=>F", "BE=>G", "BE=>F"] ∧
      KnowledgeBase.parse "A, A=>B, BE=>F, BE=>G, BE=>F, AB=>D, D=>F" = .ok kb' ∧
      (Session.install {} kb).ask "G=>F" = .ok answer ∧
      (Session.install {} kb').ask "G=>F" = .ok answer' ∧
      answer.result = true ∧ answer'.result = answer.result := by
  obtain ⟨kb, hkb, hp⟩ := Except.exists_ok_of_any
    (x := KnowledgeBase.parse "A, A=>B, BE=>FGF, AB=>D, D=>F")
    (p := fun kb => decide (∃ r ∈ kb.rules, r.text = "BE=>FGF" ∧
        r.split.map Rule.text = ["BE=>F", "BE=>G", "BE=>F"]) &&
      ((Session.install {} kb).ask "G=>F").toOption.any Answer.result) (by decide +kernel)
  obtain ⟨hrule, hanswered⟩ := Bool.and_eq_true_iff.mp hp
  obtain ⟨r, hr, htext, hparts⟩ := of_decide_eq_true hrule
  obtain ⟨answer, hask, htrue⟩ := Except.exists_ok_of_any hanswered
  have hchars : r.split.map (fun s => s.text.toList) =
      ["BE=>F", "BE=>G", "BE=>F"].map String.toList := by
    rw [← hparts, List.map_map]
    rfl
  have hentries : KnowledgeBase.entries "A, A=>B, BE=>FGF, AB=>D, D=>F" =
      [['A'], "A=>B".toList] ++ r.text.toList :: ["AB=>D".toList, "D=>F".toList] := by
    rw [htext]
    decide +kernel
  have hsplit : KnowledgeBase.entries "A, A=>B, BE=>F, BE=>G, BE=>F, AB=>D, D=>F" =
      [['A'], "A=>B".toList] ++ r.split.map (fun s => s.text.toList) ++
        ["AB=>D".toList, "D=>F".toList] := by
    rw [hchars]
    decide +kernel
  obtain ⟨kb', hkb', hsame⟩ := ask_of_split hkb hr hentries hsplit
  obtain ⟨hiff, hresult⟩ := hsame {} "G=>F" (by decide)
  obtain ⟨answer', hask'⟩ := hiff.mp ⟨answer, hask⟩
  exact ⟨kb, r, kb', answer, answer', hkb, hr, htext, hparts, hkb', hask, hask', htrue,
    hresult answer answer' hask hask'⟩

end HornClause
