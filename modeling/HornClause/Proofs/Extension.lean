/-
  HornClause.Proofs.Extension

  A knowledge base and one that extends it by more facts and by rules after its own.
  Search is not monotone in general: a rule in front of the others may commit to a
  premise that fails, and an answer is lost. Rules at the end do no such harm, because
  every rule that decided a goal before is still reached, unless an earlier one now
  succeeds.

    * `value_of_extension` — what was proved in the smaller base is proved in the
      larger one, if it has a value there at all: the new rules may well run in a
      circle.
    * `exists_value_of_extension` — with no new rules, nothing loses its value.

  The two runs part early, since more facts prove more premises outright and fewer
  goals are visited. They are related by an induction on the levels of the smaller
  run, never step by step.
-/
import HornClause.Proofs.Completeness
import HornClause.Proofs.Composition
import HornClause.Proofs.Rereading

namespace HornClause

-- ============================================================================
-- Larger bases
-- ============================================================================

/-- All facts of the first base are facts of the second, and the rules of the second
    begin, as texts, with those of the first. -/
structure KnowledgeBase.ExtendedBy (kb larger : KnowledgeBase) : Prop where
  facts : ∀ l ∈ kb.declared, l ∈ larger.declared
  rules : kb.rules.map Rule.text <+: larger.rules.map Rule.text

instance (kb larger : KnowledgeBase) : Decidable (kb.ExtendedBy larger) :=
  decidable_of_iff ((∀ l ∈ kb.declared, l ∈ larger.declared) ∧
      kb.rules.map Rule.text <+: larger.rules.map Rule.text)
    ⟨fun h => ⟨h.1, h.2⟩, fun h => ⟨h.facts, h.rules⟩⟩

/-- The rules of the larger base are those of the smaller one under the larger facts,
    and some that come after them; none, if the texts are the same. -/
theorem KnowledgeBase.ExtendedBy.exists_rules {kb larger : KnowledgeBase}
    (h : kb.ExtendedBy larger) (hkb : ∀ r ∈ kb.rules, r.Canonical kb.declared)
    (hlarger : ∀ r ∈ larger.rules, r.Canonical larger.declared) :
    ∃ extra, larger.rules = kb.rules.map (Rule.under larger.declared) ++ extra ∧
      (kb.rules.map Rule.text = larger.rules.map Rule.text → extra = []) := by
  obtain ⟨texts, htexts⟩ := h.rules
  obtain ⟨same, extra, hsplit, hsame, hextra⟩ := List.map_eq_append_iff.mp htexts.symm
  have hrules : same = kb.rules.map (Rule.under larger.declared) := by
    refine Rule.Canonical.eq_map_under hkb (fun r hr => hlarger r ?_) hsame.symm
    rw [hsplit]
    exact List.mem_append_left extra hr
  refine ⟨extra, by rw [hsplit, hrules], fun hequal => ?_⟩
  rw [hequal] at htexts
  have hnone : texts = [] := by simpa using htexts
  rw [hnone] at hextra
  exact List.map_eq_nil_iff.mp hextra

theorem KnowledgeBase.rulesFor_under {kb larger : KnowledgeBase} {extra : List Rule}
    (h : larger.rules = kb.rules.map (Rule.under larger.declared) ++ extra) (a : Atom) :
    larger.rulesFor (.atom (a.under larger.declared)) =
      (kb.rulesFor (.atom a)).map (Rule.under larger.declared) ++
        extra.filter (·.concludes (Formula.atom a).text) := by
  show larger.rules.filter (·.concludes (Formula.atom a).text) = _
  have hconcludes : (fun r : Rule => r.concludes (Formula.atom a).text) ∘
      Rule.under larger.declared = fun r => r.concludes (Formula.atom a).text :=
    funext fun r => r.concludes_under larger.declared _
  rw [h, List.filter_append, List.filter_map, hconcludes]
  rfl

-- ============================================================================
-- Premises
-- ============================================================================

variable {declared : List Letter}

theorem Atom.value_under {old : List Letter} (hfacts : ∀ l ∈ old, l ∈ declared) {a : Atom}
    (ha : a.AgreesWith old) (h : a.value = true) : (a.under declared).value = true :=
  decide_eq_true (hfacts a.letter (ha.mp h))

theorem Formula.evaluate_under {old : List Letter} (hfacts : ∀ l ∈ old, l ∈ declared)
    {f : Formula} (hconj : f.isConjunction = true) (hagrees : f.AgreesWith old)
    (h : f.evaluate = true) : (f.under declared).evaluate = true := by
  have hletters := (evaluate_eq_true_iff hconj hagrees).mp h
  rw [evaluate_eq_true_iff (by rw [isConjunction_under, hconj]) (agreesWith_under declared f),
    letters_under]
  exact fun l hl => hfacts l (hletters l hl)

namespace Plain

variable {f g : Atom → Option Bool} {goal : Formula}

/-- The second valuation has no atom for false that the first has for true. -/
def NeverUndoes (declared : List Letter) (f g : Atom → Option Bool) (a : Atom) : Prop :=
  f a = some true → ∀ v, g (a.under declared) = some v → v = true

theorem resolve_of_neverUndoes (hconj : goal.isConjunction = true)
    (h : ∀ a ∈ goal.atoms, NeverUndoes declared f g a) (htrue : resolve f goal = some true)
    {v : Bool} (hv : resolve g (goal.under declared) = some v) : v = true := by
  by_contra hfalse
  rw [Bool.eq_false_of_not_eq_true hfalse] at hv
  obtain ⟨b, hb, hbfalse⟩ :=
    exists_false_of_resolve (by rw [Formula.isConjunction_under, hconj]) hv
  rw [Formula.atoms_under] at hb
  obtain ⟨a, ha, rfl⟩ := List.mem_map.mp hb
  cases h a ha (resolve_conjunction hconj htrue a ha) false hbfalse

theorem exists_resolve (h : ∀ a ∈ goal.atoms, ∃ v, f a = some v) :
    ∃ v, resolve f goal = some v := by
  induction goal with
  | atom a => exact h a List.mem_cons_self
  | compound c left right ihl ihr =>
    obtain ⟨x, hx⟩ := ihl fun a ha => h a (List.mem_append_left _ ha)
    obtain ⟨y, hy⟩ := ihr fun a ha => h a (List.mem_append_right _ ha)
    exact ⟨c.apply x y, resolve_compound_eq_some_iff.mpr ⟨x, y, hx, hy, rfl⟩⟩

-- ============================================================================
-- Rules
-- ============================================================================

section Rules

variable {rules : List Rule}
  (hfacts : ∀ r ∈ rules, r.premise.evaluate = true → (r.premise.under declared).evaluate = true)
  (hpremise : ∀ r ∈ rules, resolve f r.premise = some true →
    ∀ v, resolve g (r.premise.under declared) = some v → v = true)

include hfacts hpremise

/-- Rules that proved a goal never fail it under more facts, whatever rules come after
    them. -/
theorem tryRules_of_neverUndoes {extra : List Rule} (htrue : tryRules f rules = some true)
    {v : Bool} (hv : tryRules g (rules.map (Rule.under declared) ++ extra) = some v) :
    v = true := by
  induction rules with
  | nil => cases htrue
  | cons rule rest ih =>
    obtain ⟨hrule, hrest⟩ := List.forall_mem_cons.mp hfacts
    obtain ⟨hruleTrue, hrestTrue⟩ := List.forall_mem_cons.mp hpremise
    rw [List.map_cons, List.cons_append] at hv
    rcases tryRules_cons_eq_some_iff.mp htrue with
      ⟨hheld, -⟩ | ⟨-, ⟨hheld, -⟩ | ⟨-, -, hno⟩ | ⟨-, hcompound, hafter⟩⟩
    · rw [tryRules, Rule.premise_under, if_pos (hrule hheld)] at hv
      exact (Option.some.inj hv).symm
    · rcases tryRules_cons_eq_some_iff.mp hv with
        ⟨-, hv⟩ | ⟨-, ⟨-, hv⟩ | ⟨hfails, -⟩ | ⟨hfails, -⟩⟩
      · exact hv
      · exact hv
      · cases hruleTrue hheld false hfails
      · cases hruleTrue hheld false hfails
    · cases hno
    · -- The rule failed before. It may hold now, and otherwise the rest decides again.
      rcases tryRules_cons_eq_some_iff.mp hv with
        ⟨-, hv⟩ | ⟨-, ⟨-, hv⟩ | ⟨-, hatom, -⟩ | ⟨-, -, hv⟩⟩
      · exact hv
      · exact hv
      · rw [Rule.premise_under, Formula.isAtom_under, hcompound] at hatom
        cases hatom
      · exact ih hrest hrestTrue hafter hv

/-- Rules that gave a goal a value give it one under more facts. They are tried no
    further than before. -/
theorem exists_tryRules
    (hvalue : ∀ r ∈ rules, ∀ v, resolve f r.premise = some v →
      ∃ w, resolve g (r.premise.under declared) = some w)
    {v : Bool} (h : tryRules f rules = some v) :
    ∃ w, tryRules g (rules.map (Rule.under declared)) = some w := by
  induction rules with
  | nil => exact ⟨false, rfl⟩
  | cons rule rest ih =>
    obtain ⟨hrule, hrest⟩ := List.forall_mem_cons.mp hfacts
    obtain ⟨hruleTrue, hrestTrue⟩ := List.forall_mem_cons.mp hpremise
    obtain ⟨hruleValue, hrestValue⟩ := List.forall_mem_cons.mp hvalue
    rw [List.map_cons, tryRules, Rule.premise_under, Formula.isAtom_under]
    by_cases hholds : (rule.premise.under declared).evaluate = true
    · exact ⟨true, if_pos hholds⟩
    · rw [if_neg hholds]
      rcases tryRules_cons_eq_some_iff.mp h with
        ⟨hheld, -⟩ | ⟨-, ⟨hheld, -⟩ | ⟨hfailed, hatom, -⟩ | ⟨hfailed, -, hafter⟩⟩
      · exact absurd (hrule hheld) hholds
      · obtain ⟨w, hw⟩ := hruleValue true hheld
        rw [hruleTrue hheld w hw] at hw
        exact ⟨true, by rw [hw, Option.bind_some, if_pos rfl]⟩
      · obtain ⟨w, hw⟩ := hruleValue false hfailed
        exact ⟨w, by cases w <;> simp [hw, hatom]⟩
      · obtain ⟨w, hw⟩ := hruleValue false hfailed
        obtain ⟨u, hu⟩ := ih hrest hrestTrue hrestValue hafter
        rw [hw, Option.bind_some]
        cases w with
        | true => exact ⟨true, if_pos rfl⟩
        | false =>
          rw [if_neg Bool.false_ne_true]
          cases rule.premise.isAtom with
          | true => exact ⟨false, if_pos rfl⟩
          | false => exact ⟨u, by rw [if_neg Bool.false_ne_true, hu]⟩

end Rules

-- ============================================================================
-- Values
-- ============================================================================

section Values

variable {kb larger : KnowledgeBase} {extra : List Rule} (hkb : kb.WellFormed)
  (hfacts : ∀ l ∈ kb.declared, l ∈ larger.declared)

include hkb hfacts

theorem evaluate_premise_under {a : Atom} : ∀ r ∈ kb.rulesFor (.atom a),
    r.premise.evaluate = true → (r.premise.under larger.declared).evaluate = true := by
  intro r hr hholds
  have hwf := hkb.rules r (KnowledgeBase.mem_rulesFor_atom.mp hr).1
  exact Formula.evaluate_under hfacts hwf.premise_conjunction hwf.premise_agrees hholds

/-- What is proved in the smaller base does not fail in the larger one. -/
theorem value_of_extension
    (hrules : larger.rules = kb.rules.map (Rule.under larger.declared) ++ extra) {n : Nat}
    {a : Atom} (ha : a.AgreesWith kb.declared) :
    NeverUndoes larger.declared (prove kb n) (value larger) a := by
  have hfact : ∀ b : Atom, (b.under larger.declared).value = true →
      ∀ v, value larger (b.under larger.declared) = some v → v = true := by
    intro b hb v hv
    rw [value_of_value hb] at hv
    exact (Option.some.inj hv).symm
  induction n generalizing a with
  | zero =>
    intro htrue
    cases hvalue : a.value with
    | true => exact hfact a (Atom.value_under hfacts ha hvalue)
    | false =>
      rw [prove_zero hvalue] at htrue
      cases htrue
  | succ n ih =>
    intro htrue v hv
    cases hunder : (a.under larger.declared).value with
    | true => exact hfact a hunder v hv
    | false =>
      have hvalue : a.value = false := by
        by_contra hnot
        rw [Atom.value_under hfacts ha (Bool.eq_true_of_not_eq_false hnot)] at hunder
        cases hunder
      -- No fact in either base, so rules decide in both: the same ones first.
      rw [prove_succ hvalue] at htrue
      rw [value_eq_tryRules hunder, KnowledgeBase.rulesFor_under hrules] at hv
      refine tryRules_of_neverUndoes (evaluate_premise_under hkb hfacts) ?_ htrue hv
      intro r hr hpremise w hw
      have hwf := hkb.rules r (KnowledgeBase.mem_rulesFor_atom.mp hr).1
      exact resolve_of_neverUndoes hwf.premise_conjunction
        (fun b hb => ih (hwf.premise_agrees b hb)) hpremise hw

/-- With no new rules, what has a value in the smaller base has one in the larger. -/
theorem exists_value_of_extension
    (hrules : larger.rules = kb.rules.map (Rule.under larger.declared)) {n : Nat} {a : Atom}
    (ha : a.AgreesWith kb.declared) {v : Bool} (h : prove kb n a = some v) :
    ∃ w, value larger (a.under larger.declared) = some w := by
  have hsame : larger.rules = kb.rules.map (Rule.under larger.declared) ++ [] := by
    rw [hrules, List.append_nil]
  induction n generalizing a v with
  | zero =>
    cases hvalue : a.value with
    | true => exact ⟨true, value_of_value (Atom.value_under hfacts ha hvalue)⟩
    | false =>
      rw [prove_zero hvalue] at h
      cases h
  | succ n ih =>
    cases hunder : (a.under larger.declared).value with
    | true => exact ⟨true, value_of_value hunder⟩
    | false =>
      have hvalue : a.value = false := by
        by_contra hnot
        rw [Atom.value_under hfacts ha (Bool.eq_true_of_not_eq_false hnot)] at hunder
        cases hunder
      rw [prove_succ hvalue] at h
      rw [value_eq_tryRules hunder, KnowledgeBase.rulesFor_under hsame, List.filter_nil,
        List.append_nil]
      have hwf : ∀ r ∈ kb.rulesFor (.atom a), r.WellFormed kb.declared :=
        fun r hr => hkb.rules r (KnowledgeBase.mem_rulesFor_atom.mp hr).1
      refine exists_tryRules (evaluate_premise_under hkb hfacts) ?_ ?_ h
      · intro r hr hpremise w hw
        exact resolve_of_neverUndoes (hwf r hr).premise_conjunction
          (fun b hb => value_of_extension hkb hfacts hsame ((hwf r hr).premise_agrees b hb))
          hpremise hw
      · intro r hr w hw
        refine exists_resolve fun b hb => ?_
        rw [Formula.atoms_under] at hb
        obtain ⟨c, hc, rfl⟩ := List.mem_map.mp hb
        obtain ⟨x, hx⟩ := exists_value_of_resolve hw c hc
        exact ih ((hwf r hr).premise_agrees c hc) hx

end Values

end Plain

-- ============================================================================
-- Answers
-- ============================================================================

/-- Facts and rules at the end do not undo an answer. A letter or a conjunction of
    letters that is answered with true is answered with true in every base that extends
    the first, under any settings, if it is answered there.

    Facts alone do not take an answer away either. If the rules are the same, whatever
    query is answered is answered in the larger base, given twenty-six levels. -/
theorem ask_of_extension {text text' : String} {kb larger : KnowledgeBase}
    (hkb : KnowledgeBase.parse text = .ok kb) (hlarger : KnowledgeBase.parse text' = .ok larger)
    (h : kb.ExtendedBy larger) (settings settings' : Settings) (query : String) :
    (∀ goal, Formula.parse kb.known .query query = .ok goal → goal.isConjunction = true →
      ∀ answer answer', (Session.install { settings } kb).ask query = .ok answer →
        answer.result = true →
        (Session.install { settings := settings' } larger).ask query = .ok answer' →
        answer'.result = true) ∧
    (kb.rules.map Rule.text = larger.rules.map Rule.text → 26 ≤ settings'.depthLimit.value →
      ∀ answer, (Session.install { settings } kb).ask query = .ok answer →
        ∃ answer', (Session.install { settings := settings' } larger).ask query = .ok answer') := by
  have hwf := KnowledgeBase.wellFormed_of_parse hkb
  have hwf' := KnowledgeBase.wellFormed_of_parse hlarger
  obtain ⟨extra, hrules, hsame⟩ := h.exists_rules (KnowledgeBase.canonical_of_parse hkb)
    (KnowledgeBase.canonical_of_parse hlarger)
  refine ⟨?_, ?_⟩
  · intro goal hquery hconj answer answer' hask htrue hask'
    have hgoal := hwf.agreesWith hquery
    have hvalue := result_of_ask hwf hgoal hquery hask
    rw [htrue] at hvalue
    have hvalue' := result_of_ask hwf' (Formula.agreesWith_under larger.declared goal)
      (hwf.parse_under hwf' hquery) hask'
    exact Plain.resolve_of_neverUndoes hconj
      (fun a ha => Plain.value_of_extension hwf h.facts hrules (hgoal a ha)) hvalue hvalue'
  · intro htexts hlevels answer hask
    rw [hsame htexts, List.append_nil] at hrules
    obtain ⟨goal, hquery⟩ := exists_goal_of_ask hask
    have hgoal := hwf.agreesWith hquery
    have hvalue := result_of_ask hwf hgoal hquery hask
    have hatoms : ∀ b ∈ (goal.under larger.declared).atoms, ∃ w, Plain.value larger b = some w := by
      intro b hb
      rw [Formula.atoms_under] at hb
      obtain ⟨a, ha, rfl⟩ := List.mem_map.mp hb
      obtain ⟨w, hw⟩ := Plain.exists_value_of_resolve hvalue a ha
      exact Plain.exists_value_of_extension hwf h.facts hrules (hgoal a ha) hw
    obtain ⟨w, hw⟩ := Plain.exists_resolve hatoms
    obtain ⟨answer', hask', -⟩ := (exists_answer_iff hwf'
      (Formula.agreesWith_under larger.declared goal) (hwf.parse_under hwf' hquery) hlevels).mpr hw
    exact ⟨answer', hask'⟩

/-- With `E` for a fact and a last rule for `G`, the sample still answers `FC` with true.
    With `E` and `H` for facts, it still answers `E=>F`. -/
theorem ask_of_extension_samples :
    (∃ larger answer,
      KnowledgeBase.parse "E, A, A=>B, AB=>CD, BE=>F, D=>F, G=>H, H=>G, F=>G" = .ok larger ∧
      sample.ExtendedBy larger ∧
      (Session.install { settings := .checked } larger).ask "FC" = .ok answer ∧
      answer.result = true) ∧
    ∃ larger answer,
      KnowledgeBase.parse "H, E, A, A=>B, AB=>CD, BE=>F, D=>F, G=>H, H=>G" = .ok larger ∧
      sample.ExtendedBy larger ∧ sample.rules.map Rule.text = larger.rules.map Rule.text ∧
      (Session.install { settings := .checked } larger).ask "E=>F" = .ok answer := by
  refine ⟨?_, ?_⟩
  · obtain ⟨larger, hlarger, hextends⟩ := Except.exists_ok_of_any
      (x := KnowledgeBase.parse "E, A, A=>B, AB=>CD, BE=>F, D=>F, G=>H, H=>G, F=>G")
      (p := fun larger => decide (sample.ExtendedBy larger) &&
        ((Session.install { settings := .checked } larger).ask "FC").toOption.any fun _ => true)
      (by decide +kernel)
    obtain ⟨hextends, hanswered⟩ := Bool.and_eq_true_iff.mp hextends
    have hextends := of_decide_eq_true hextends
    obtain ⟨answer', hask', -⟩ := Except.exists_ok_of_any hanswered
    obtain ⟨goal, hquery, hconj⟩ := Except.exists_ok_of_any
      (x := Formula.parse sample.known .query "FC") (p := Formula.isConjunction)
      (by decide +kernel)
    obtain ⟨answer, hask, htrue⟩ := Except.exists_ok_of_any
      (x := (Session.install {} sample).ask "FC") (p := Answer.result) (by decide +kernel)
    have hkept := (ask_of_extension parse_sample hlarger hextends {} .checked "FC").1
    exact ⟨larger, answer', hlarger, hextends, hask',
      hkept goal hquery hconj answer answer' hask htrue hask'⟩
  · obtain ⟨larger, hlarger, hextends⟩ := Except.exists_ok_of_any
      (x := KnowledgeBase.parse "H, E, A, A=>B, AB=>CD, BE=>F, D=>F, G=>H, H=>G")
      (p := fun larger => decide (sample.ExtendedBy larger ∧
        sample.rules.map Rule.text = larger.rules.map Rule.text)) (by decide +kernel)
    obtain ⟨hextends, htexts⟩ := of_decide_eq_true hextends
    obtain ⟨answer, hask, -⟩ := Except.exists_ok_of_any
      (x := (Session.install {} sample).ask "E=>F") (p := fun _ => true) (by decide +kernel)
    have hkept := (ask_of_extension parse_sample hlarger hextends {} .checked "E=>F").2
    obtain ⟨answer', hask'⟩ := hkept htexts (by decide) answer hask
    exact ⟨larger, answer', hlarger, hextends, htexts, hask'⟩

end HornClause
