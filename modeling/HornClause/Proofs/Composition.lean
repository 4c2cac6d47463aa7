/-
  HornClause.Proofs.Composition

  Compound queries, against queries for their single letters. The letters of a
  compound query are derived one after the other and share a cache, while each single
  letter starts from an empty one. Still, the letters have the same values in both,
  because a value is the plain one wherever it is found; so the answer to a compound
  query is the truth value of the query under what is answered to its letters
  (`answer_iff_letters`).

  A conjunction holds if all its letters do, in whatever order and however often they
  are written, so rearranging letters within conjunctions changes no result.
-/
import HornClause.Proofs.Answer

namespace HornClause

-- ============================================================================
-- Truth values
-- ============================================================================

namespace Formula

/-- The truth value of a formula whose letters have the given values. -/
def truth (valuation : Letter → Bool) : Formula → Bool
  | .atom a => valuation a.letter
  | .compound c left right => c.apply (left.truth valuation) (right.truth valuation)

/-- Two formulas that differ at most in the order and the repetition of the letters
    within their conjunctions. -/
inductive Rearranged : Formula → Formula → Prop where
  | conjunction {f g : Formula} (hf : f.isConjunction = true) (hg : g.isConjunction = true)
      (hletters : ∀ l, l ∈ f.letters ↔ l ∈ g.letters) : Rearranged f g
  | implication {left right left' right' : Formula} (hleft : Rearranged left left')
      (hright : Rearranged right right') :
      Rearranged (.compound .implication left right) (.compound .implication left' right')

variable {f g : Formula} {valuation : Letter → Bool}

theorem truth_eq_true_iff (hconj : f.isConjunction = true) :
    f.truth valuation = true ↔ ∀ l ∈ f.letters, valuation l = true := by
  induction f with
  | atom a => simp [truth]
  | compound c left right ihl ihr =>
    cases c with
    | implication => cases hconj
    | conjunction =>
      obtain ⟨hleft, hright⟩ := Bool.and_eq_true_iff.mp hconj
      rw [truth, Connective.apply, Bool.and_eq_true, ihl hleft, ihr hright, letters_compound,
        List.forall_mem_append]

theorem Rearranged.mem_letters_iff (h : Rearranged f g) (l : Letter) :
    l ∈ f.letters ↔ l ∈ g.letters := by
  induction h with
  | conjunction hf hg hletters => exact hletters l
  | implication hleft hright ihl ihr =>
    rw [letters_compound, letters_compound, List.mem_append, List.mem_append, ihl, ihr]

theorem Rearranged.truth_eq (h : Rearranged f g) : f.truth valuation = g.truth valuation := by
  induction h with
  | conjunction hf hg hletters =>
    rw [Bool.eq_iff_iff, truth_eq_true_iff hf, truth_eq_true_iff hg]
    constructor
    · exact fun hall l hl => hall l ((hletters l).mpr hl)
    · exact fun hall l hl => hall l ((hletters l).mp hl)
  | implication hleft hright ihl ihr => rw [truth, truth, ihl, ihr]

end Formula

namespace Plain

variable {f : Atom → Option Bool} {goal : Formula}

theorem exists_value_of_resolve {v : Bool} (h : resolve f goal = some v) :
    ∀ a ∈ goal.atoms, ∃ w, f a = some w := by
  induction goal generalizing v with
  | atom a =>
    intro b hb
    rw [List.mem_singleton.mp hb]
    exact ⟨v, h⟩
  | compound c left right ihl ihr =>
    obtain ⟨x, y, hx, hy, -⟩ := resolve_compound_eq_some_iff.mp h
    intro a ha
    rcases List.mem_append.mp ha with ha | ha
    · exact ihl hx a ha
    · exact ihr hy a ha

theorem resolve_eq_truth {valuation : Letter → Bool}
    (h : ∀ a ∈ goal.atoms, f a = some (valuation a.letter)) :
    resolve f goal = some (goal.truth valuation) := by
  induction goal with
  | atom a => exact h a List.mem_cons_self
  | compound c left right ihl ihr =>
    have hleft := ihl fun a ha => h a (List.mem_append_left _ ha)
    have hright := ihr fun a ha => h a (List.mem_append_right _ ha)
    exact resolve_compound_eq_some_iff.mpr ⟨_, _, hleft, hright, rfl⟩

end Plain

-- ============================================================================
-- Single letters
-- ============================================================================

/-- What a session answers to each single letter, where it has an answer. -/
def Session.valuation (s : Session) (l : Letter) : Bool :=
  (s.ask l.text).toOption.any Answer.result

section Ask

variable {kb : KnowledgeBase} {settings : Settings} {query : String} {goal : Formula}

theorem letter_answer_iff (hkb : kb.WellFormed) (hlimit : 26 ≤ settings.depthLimit.value)
    {a : Atom} (ha : a.AgreesWith kb.declared) {v : Bool} :
    (∃ answer, (Session.install { settings } kb).ask a.letter.text = .ok answer ∧
        answer.result = v) ↔
      Plain.value kb a = some v :=
  exists_answer_iff hkb (Formula.agreesWith_atom.mpr ha) (hkb.parse_letter ha) hlimit

/-- A letter that is answered has the value that the session gives to it for its plain
    value. -/
theorem value_eq_valuation (hkb : kb.WellFormed) (hlimit : 26 ≤ settings.depthLimit.value)
    {a : Atom} (ha : a.AgreesWith kb.declared)
    (h : ∃ answer, (Session.install { settings } kb).ask a.letter.text = .ok answer) :
    Plain.value kb a = some ((Session.install { settings } kb).valuation a.letter) := by
  obtain ⟨answer, hask⟩ := h
  have hvalue := (letter_answer_iff hkb hlimit ha).mp ⟨answer, hask, rfl⟩
  rw [Session.valuation, hask]
  exact hvalue

/-- A query is answered with a value exactly if all its letters are answered and the
    value is its truth value under their answers. -/
theorem answer_iff_letters (hkb : kb.WellFormed) (hgoal : goal.AgreesWith kb.declared)
    (hquery : Formula.parse kb.known .query query = .ok goal)
    (hlimit : 26 ≤ settings.depthLimit.value) {v : Bool} :
    (∃ answer, (Session.install { settings } kb).ask query = .ok answer ∧ answer.result = v) ↔
      (∀ l ∈ goal.letters, ∃ answer,
        (Session.install { settings } kb).ask l.text = .ok answer) ∧
      goal.truth (Session.install { settings } kb).valuation = v := by
  rw [exists_answer_iff hkb hgoal hquery hlimit]
  constructor
  · intro hvalue
    have hatoms : ∀ a ∈ goal.atoms,
        ∃ answer, (Session.install { settings } kb).ask a.letter.text = .ok answer := by
      intro a ha
      obtain ⟨w, hw⟩ := Plain.exists_value_of_resolve hvalue a ha
      obtain ⟨answer, hask, -⟩ := (letter_answer_iff hkb hlimit (hgoal a ha)).mpr hw
      exact ⟨answer, hask⟩
    constructor
    · intro l hl
      obtain ⟨a, ha, rfl⟩ := Formula.mem_letters.mp hl
      exact hatoms a ha
    · have htruth := Plain.resolve_eq_truth fun a ha =>
        value_eq_valuation hkb hlimit (hgoal a ha) (hatoms a ha)
      rw [hvalue] at htruth
      exact (Option.some.inj htruth).symm
  · rintro ⟨hletters, rfl⟩
    refine Plain.resolve_eq_truth fun a ha => ?_
    have hletter := hletters a.letter (Formula.mem_letters.mpr ⟨a, ha, rfl⟩)
    exact value_eq_valuation hkb hlimit (hgoal a ha) hletter

end Ask

-- ============================================================================
-- Compound queries
-- ============================================================================

/-- Compound queries are compositional, with twenty-six levels and with or without a
    check for cycles. A query is answered exactly if each of its letters is answered
    on its own, and then with the truth value of the query under these answers. In
    particular, a query with the letters of its conjunctions in another order, or with
    other repetitions, is answered with the same results. -/
theorem ask_compositional {text : String} {kb : KnowledgeBase}
    (hkb : KnowledgeBase.parse text = .ok kb) {settings : Settings}
    (hlimit : 26 ≤ settings.depthLimit.value) {query : String} {goal : Formula}
    (hquery : Formula.parse kb.known .query query = .ok goal) :
    ((∃ answer, (Session.install { settings } kb).ask query = .ok answer) ↔
      ∀ l ∈ goal.letters, ∃ answer,
        (Session.install { settings } kb).ask l.text = .ok answer) ∧
    (∀ answer, (Session.install { settings } kb).ask query = .ok answer →
      answer.result = goal.truth (Session.install { settings } kb).valuation) ∧
    (∀ query' goal', Formula.parse kb.known .query query' = .ok goal' →
      goal.Rearranged goal' → ∀ v,
      ((∃ answer, (Session.install { settings } kb).ask query = .ok answer ∧
          answer.result = v) ↔
        ∃ answer, (Session.install { settings } kb).ask query' = .ok answer ∧
          answer.result = v)) := by
  have hwf := KnowledgeBase.wellFormed_of_parse hkb
  have hgoal := hwf.agreesWith hquery
  have hiff := fun v => answer_iff_letters (v := v) hwf hgoal hquery hlimit
  refine ⟨⟨?_, ?_⟩, ?_, ?_⟩
  · rintro ⟨answer, hask⟩
    exact ((hiff answer.result).mp ⟨answer, hask, rfl⟩).1
  · intro hletters
    obtain ⟨answer, hask, -⟩ := (hiff _).mpr ⟨hletters, rfl⟩
    exact ⟨answer, hask⟩
  · intro answer hask
    exact ((hiff answer.result).mp ⟨answer, hask, rfl⟩).2.symm
  · intro query' goal' hquery' hsame v
    have hgoal' := hwf.agreesWith hquery'
    rw [hiff v, answer_iff_letters hwf hgoal' hquery' hlimit, hsame.truth_eq]
    simp only [hsame.mem_letters_iff]

/-- `FEB` fails because of `E` alone, and so does `BFFE`. -/
theorem ask_compositional_sample :
    ∃ goal goal' answer answer',
      Formula.parse sample.known .query "FEB" = .ok goal ∧
      Formula.parse sample.known .query "BFFE" = .ok goal' ∧ goal.Rearranged goal' ∧
      (∀ l ∈ goal.letters, (Session.install {} sample).valuation l = decide (l.char ≠ 'E')) ∧
      (Session.install {} sample).ask "FEB" = .ok answer ∧
      answer.result = goal.truth (Session.install {} sample).valuation ∧
      (Session.install {} sample).ask "BFFE" = .ok answer' ∧
      answer'.result = answer.result := by
  have hread : ∀ query, (Formula.parse sample.known .query query).toOption.any (fun goal =>
      goal.isConjunction && decide (∀ l, l ∈ goal.letters ↔ l.char ∈ ['B', 'E', 'F'])) = true →
      ∃ goal, Formula.parse sample.known .query query = .ok goal ∧
        goal.isConjunction = true ∧ ∀ l, l ∈ goal.letters ↔ l.char ∈ ['B', 'E', 'F'] := by
    intro query h
    obtain ⟨goal, hquery, hgoal⟩ := Except.exists_ok_of_any h
    obtain ⟨hconj, hletters⟩ := Bool.and_eq_true_iff.mp hgoal
    exact ⟨goal, hquery, hconj, of_decide_eq_true hletters⟩
  obtain ⟨goal, hquery, hconj, hletters⟩ := hread "FEB" (by decide +kernel)
  obtain ⟨goal', hquery', hconj', hletters'⟩ := hread "BFFE" (by decide +kernel)
  have hsame : goal.Rearranged goal' :=
    .conjunction hconj hconj' fun l => (hletters l).trans (hletters' l).symm
  have hvalues : ∀ l : Letter, l.char ∈ ['B', 'E', 'F'] →
      (Session.install {} sample).valuation l = decide (l.char ≠ 'E') := by decide +kernel
  obtain ⟨answer, hask, -⟩ := Except.exists_ok_of_any
    (x := (Session.install {} sample).ask "FEB") (p := fun _ => true) (by decide +kernel)
  have hlimit : 26 ≤ ({} : Settings).depthLimit.value := by decide
  have hcomposed := ask_compositional parse_sample hlimit hquery
  obtain ⟨answer', hask', hresult⟩ :=
    (hcomposed.2.2 "BFFE" goal' hquery' hsame answer.result).mp ⟨answer, hask, rfl⟩
  exact ⟨goal, goal', answer, answer', hquery, hquery', hsame,
    fun l hl => hvalues l ((hletters l).mp hl), hask, hcomposed.2.1 answer hask, hask', hresult⟩

end HornClause
