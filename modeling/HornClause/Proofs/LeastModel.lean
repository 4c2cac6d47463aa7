/-
  HornClause.Proofs.LeastModel

  What follows from a knowledge base, said without any search. A set of letters
  is a model if it contains the declared facts and, with all letters of a rule's
  premise, all letters of its conclusion. Models are closed under intersection, so
  there is a least one.

  The plain evaluator is sound for it: a true conjunction has all its letters in
  the least model (`mem_leastModel_of_resolve`).
-/
import Mathlib.Data.Set.Lattice
import Mathlib.Order.Bounds.Basic
import HornClause.Proofs.Agreement
import HornClause.Proofs.PlainValue

namespace HornClause

namespace KnowledgeBase

/-- A set of letters that contains the facts and is closed under the rules. -/
structure IsModel (kb : KnowledgeBase) (model : Set Letter) : Prop where
  facts : ∀ l ∈ kb.declared, l ∈ model
  rules : ∀ r ∈ kb.rules, (∀ l ∈ r.premise.letters, l ∈ model) →
    ∀ l ∈ r.conclusion.letters, l ∈ model

/-- The letters that are in every model. -/
def leastModel (kb : KnowledgeBase) : Set Letter := ⋂₀ {model | kb.IsModel model}

variable {kb : KnowledgeBase}

theorem leastModel_subset {model : Set Letter} (h : kb.IsModel model) : kb.leastModel ⊆ model :=
  Set.sInter_subset_of_mem h

theorem isModel_leastModel : kb.IsModel kb.leastModel where
  facts l hl := by
    intro model hmodel
    exact hmodel.facts l hl
  rules r hr hpremise l hl := by
    intro model hmodel
    exact hmodel.rules r hr (fun k hk => leastModel_subset hmodel (hpremise k hk)) l hl

/-- The least model is a model, and is contained in all others. -/
theorem isLeast_leastModel : IsLeast {model | kb.IsModel model} kb.leastModel :=
  ⟨isModel_leastModel, fun _ hmodel => leastModel_subset hmodel⟩

end KnowledgeBase

namespace Plain

variable {kb : KnowledgeBase}

/-- A conjunction is true only where all its atoms are. -/
theorem resolve_conjunction {f : Atom → Option Bool} {goal : Formula}
    (hconj : goal.isConjunction = true) (h : resolve f goal = some true) :
    ∀ a ∈ goal.atoms, f a = some true := by
  induction goal with
  | atom a => simpa using h
  | compound c left right ihl ihr =>
    cases c with
    | implication => cases hconj
    | conjunction =>
      obtain ⟨hleft, hright⟩ := Bool.and_eq_true_iff.mp hconj
      obtain ⟨x, y, hx, hy, hxy⟩ := resolve_compound_eq_some_iff.mp h
      obtain ⟨rfl, rfl⟩ := Bool.and_eq_true_iff.mp hxy
      intro a ha
      rcases List.mem_append.mp ha with ha | ha
      · exact ihl hleft hx a ha
      · exact ihr hright hy a ha

/-- Where every atom has the value it was read with, a formula has the value that
    the facts alone give it. -/
theorem resolve_facts (goal : Formula) :
    resolve (fun a => some a.value) goal = some goal.evaluate := by
  induction goal with
  | atom a => rfl
  | compound c left right ihl ihr => rw [resolve, ihl, ihr]; rfl

theorem value_of_evaluate {goal : Formula} (hconj : goal.isConjunction = true)
    (h : goal.evaluate = true) : ∀ a ∈ goal.atoms, a.value = true := by
  intro a ha
  have hfacts := (resolve_facts goal).trans (congrArg some h)
  exact Option.some.inj (resolve_conjunction hconj hfacts a ha)

/-- Rules that prove a goal include one whose premise holds, by the facts alone or
    by the values of its atoms. -/
theorem exists_rule_of_tryRules {f : Atom → Option Bool} {rules : List Rule}
    (h : tryRules f rules = some true) :
    ∃ r ∈ rules, r.premise.evaluate = true ∨ resolve f r.premise = some true := by
  induction rules with
  | nil => cases h
  | cons rule rest ih =>
    rcases tryRules_cons_eq_some_iff.mp h with
      ⟨hfacts, -⟩ | ⟨-, ⟨hpremise, -⟩ | ⟨-, -, hv⟩ | ⟨-, -, hrest⟩⟩
    · exact ⟨rule, List.mem_cons_self, Or.inl hfacts⟩
    · exact ⟨rule, List.mem_cons_self, Or.inr hpremise⟩
    · cases hv
    · obtain ⟨r, hr, htrue⟩ := ih hrest
      exact ⟨r, List.mem_cons_of_mem rule hr, htrue⟩

theorem mem_leastModel_of_prove (hkb : kb.WellFormed) {n : Nat} {a : Atom}
    (ha : a.AgreesWith kb.declared) (h : prove kb n a = some true) :
    a.letter ∈ kb.leastModel := by
  have hfact : ∀ b : Atom, b.AgreesWith kb.declared → b.value = true →
      b.letter ∈ kb.leastModel :=
    fun b hb hvalue => KnowledgeBase.isModel_leastModel.facts _ (hb.mp hvalue)
  -- On the levels: the atoms of a premise are proved one level further down.
  induction n generalizing a with
  | zero =>
    cases hvalue : a.value with
    | true => exact hfact a ha hvalue
    | false =>
      rw [prove_zero hvalue] at h
      cases h
  | succ n ih =>
    cases hvalue : a.value with
    | true => exact hfact a ha hvalue
    | false =>
      rw [prove_succ hvalue] at h
      obtain ⟨r, hr, hpremise⟩ := exists_rule_of_tryRules h
      obtain ⟨hmem, hletter⟩ := KnowledgeBase.mem_rulesFor_atom.mp hr
      have hwf := hkb.rules r hmem
      refine KnowledgeBase.isModel_leastModel.rules r hmem (fun l hl => ?_) a.letter hletter
      obtain ⟨b, hb, rfl⟩ := Formula.mem_letters.mp hl
      have hagrees := hwf.premise_agrees b hb
      rcases hpremise with hfacts | hvalues
      · exact hfact b hagrees (value_of_evaluate hwf.premise_conjunction hfacts b hb)
      · exact ih hagrees (resolve_conjunction hwf.premise_conjunction hvalues b hb)

/-- The plain evaluator is sound: all letters of a true conjunction are in the least
    model. -/
theorem mem_leastModel_of_resolve (hkb : kb.WellFormed) {goal : Formula}
    (hgoal : goal.AgreesWith kb.declared) (hconj : goal.isConjunction = true)
    (h : resolve (value kb) goal = some true) : ∀ l ∈ goal.letters, l ∈ kb.leastModel := by
  intro l hl
  obtain ⟨a, ha, rfl⟩ := Formula.mem_letters.mp hl
  exact mem_leastModel_of_prove hkb (hgoal a ha) (resolve_conjunction hconj h a ha)

end Plain

end HornClause
