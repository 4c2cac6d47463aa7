/-
  HornClause.Proofs.PlainValue

  Backward chaining without a cache. The *plain* evaluator tries the same rules in
  the same order as a derivation does, commits to a rule with a single atom for
  its premise, moves on after a compound premise that fails, and gives up where
  its levels are used up. It remembers nothing, so what it finds for an atom is a
  function of the atom and the levels alone.

    * `Plain.resolve` / `Plain.tryRules` — one pass over a formula or some rules,
      where the values of atoms are given.
    * `Plain.prove kb n a` — the value found for `a` within `n` levels, if any.
    * `Plain.value kb a` — the value found within twenty-six levels.

  More levels never change a value (`prove_mono`). One more level is a function of
  the level before, and there are only twenty-six letters to gain, so twenty-six
  levels find all there is to find (`prove_eq_value`), and `value` is a fixed point
  of the rules (`value_eq_tryRules`).
-/
import Mathlib.Data.Fintype.Card
import Mathlib.Order.Monotone.Basic
import HornClause.KnowledgeBase.Basic

namespace HornClause

-- ============================================================================
-- The twenty-six letters
-- ============================================================================

instance : Fintype Letter where
  elems := Letter.alphabet.toFinset
  complete l := by simp [Letter.mem_alphabet]

theorem Letter.card_eq : Fintype.card Letter = 26 := by
  have hnodup : Letter.alphabet.Nodup := by decide +kernel
  calc Fintype.card Letter
      = Letter.alphabet.toFinset.card := rfl
    _ = Letter.alphabet.length := List.toFinset_card_of_nodup hnodup
    _ = 26 := Letter.length_alphabet

namespace Plain

-- ============================================================================
-- The evaluator
-- ============================================================================

/-- The value of a formula whose atoms have the given values. Both operands are
    needed, whatever the connective. -/
def resolve (value : Atom → Option Bool) : Formula → Option Bool
  | .atom a => value a
  | .compound c left right =>
      (resolve value left).bind fun x => (resolve value right).map (c.apply x)

/-- What rules for a goal give it, tried in turn, where the atoms of their premises
    have the given values. -/
def tryRules (value : Atom → Option Bool) : List Rule → Option Bool
  | [] => some false
  | rule :: rest =>
      if rule.premise.evaluate then some true
      else
        (resolve value rule.premise).bind fun holds =>
          if holds then some true
          else if rule.premise.isAtom then some false
          else tryRules value rest

/-- The value of an atom, found where at most `n` goals are nested. -/
def prove (kb : KnowledgeBase) : Nat → Atom → Option Bool
  | 0, a => if a.value then some true else none
  | n + 1, a =>
      if a.value then some true else tryRules (prove kb n) (kb.rulesFor (.atom a))

/-- The outcome for a goal under a depth limit. Having no more levels is the only
    reason to give up. -/
def evaluate (kb : KnowledgeBase) (limit : Nat) (goal : Formula) : Except ProofError Bool :=
  match resolve (prove kb limit) goal with
  | some value => .ok value
  | none => .error (.tooDeep limit)

-- ============================================================================
-- More values in, more values out
-- ============================================================================

/-- One valuation says all that another says. -/
def Below (f g : Atom → Option Bool) : Prop := ∀ a v, f a = some v → g a = some v

theorem Below.trans {f g h : Atom → Option Bool} (hfg : Below f g) (hgh : Below g h) :
    Below f h :=
  fun a v hv => hgh a v (hfg a v hv)

variable {f g : Atom → Option Bool}

@[simp] theorem resolve_atom (a : Atom) : resolve f (.atom a) = f a := rfl

theorem resolve_compound_eq_some_iff {c : Connective} {left right : Formula} {v : Bool} :
    resolve f (.compound c left right) = some v ↔
      ∃ x y, resolve f left = some x ∧ resolve f right = some y ∧ c.apply x y = v := by
  simp only [resolve, Option.bind_eq_some_iff, Option.map_eq_some_iff]
  constructor
  · rintro ⟨x, hx, y, hy, hv⟩
    exact ⟨x, y, hx, hy, hv⟩
  · rintro ⟨x, y, hx, hy, hv⟩
    exact ⟨x, hx, y, hy, hv⟩

theorem resolve_mono (hfg : Below f g) {goal : Formula} {v : Bool}
    (h : resolve f goal = some v) : resolve g goal = some v := by
  induction goal generalizing v with
  | atom a => exact hfg a v h
  | compound c left right ihl ihr =>
    obtain ⟨x, y, hx, hy, hv⟩ := resolve_compound_eq_some_iff.mp h
    exact resolve_compound_eq_some_iff.mpr ⟨x, y, ihl hx, ihr hy, hv⟩

/-- The four ways in which a first rule leads to a value: by the facts alone, by a
    premise that holds, by a single atom that fails, or by the rules after it. -/
theorem tryRules_cons_eq_some_iff {rule : Rule} {rest : List Rule} {v : Bool} :
    tryRules f (rule :: rest) = some v ↔
      (rule.premise.evaluate = true ∧ v = true) ∨
      (rule.premise.evaluate = false ∧
        ((resolve f rule.premise = some true ∧ v = true) ∨
         (resolve f rule.premise = some false ∧ rule.premise.isAtom = true ∧ v = false) ∨
         (resolve f rule.premise = some false ∧ rule.premise.isAtom = false ∧
           tryRules f rest = some v))) := by
  rw [tryRules]
  cases hfacts : rule.premise.evaluate with
  | true => cases v <;> simp
  | false =>
    cases hpremise : resolve f rule.premise with
    | none => simp
    | some holds =>
      cases holds with
      | true => cases v <;> simp
      | false =>
        cases hatom : rule.premise.isAtom with
        | true => cases v <;> simp
        | false => simp

theorem tryRules_mono (hfg : Below f g) {rules : List Rule} {v : Bool}
    (h : tryRules f rules = some v) : tryRules g rules = some v := by
  induction rules with
  | nil => exact h
  | cons rule rest ih =>
    rw [tryRules_cons_eq_some_iff] at h ⊢
    rcases h with hfacts | ⟨hfacts, ⟨hp, hv⟩ | ⟨hp, hatom, hv⟩ | ⟨hp, hatom, hrest⟩⟩
    · exact Or.inl hfacts
    · exact Or.inr ⟨hfacts, Or.inl ⟨resolve_mono hfg hp, hv⟩⟩
    · exact Or.inr ⟨hfacts, Or.inr (Or.inl ⟨resolve_mono hfg hp, hatom, hv⟩)⟩
    · exact Or.inr ⟨hfacts, Or.inr (Or.inr ⟨resolve_mono hfg hp, hatom, ih hrest⟩)⟩

variable {kb : KnowledgeBase}

theorem evaluate_eq_ok_iff {limit : Nat} {goal : Formula} {v : Bool} :
    evaluate kb limit goal = .ok v ↔ resolve (prove kb limit) goal = some v := by
  rw [evaluate]
  cases resolve (prove kb limit) goal <;> simp

theorem evaluate_eq_error_iff {limit : Nat} {goal : Formula} :
    evaluate kb limit goal = .error (.tooDeep limit) ↔ resolve (prove kb limit) goal = none := by
  rw [evaluate]
  cases resolve (prove kb limit) goal <;> simp

theorem prove_of_value {n : Nat} {a : Atom} (h : a.value = true) : prove kb n a = some true := by
  cases n <;> rw [prove, if_pos h]

theorem prove_zero {a : Atom} (h : a.value = false) : prove kb 0 a = none := by
  rw [prove, if_neg (by simp [h])]

theorem prove_succ {n : Nat} {a : Atom} (h : a.value = false) :
    prove kb (n + 1) a = tryRules (prove kb n) (kb.rulesFor (.atom a)) := by
  rw [prove, if_neg (by simp [h])]

theorem prove_below_succ (n : Nat) : Below (prove kb n) (prove kb (n + 1)) := by
  induction n with
  | zero =>
    intro a v h
    cases hvalue : a.value with
    | true =>
      rw [prove_of_value hvalue] at h ⊢
      exact h
    | false =>
      rw [prove_zero hvalue] at h
      cases h
  | succ n ih =>
    intro a v h
    cases hvalue : a.value with
    | true =>
      rw [prove_of_value hvalue] at h ⊢
      exact h
    | false =>
      rw [prove_succ hvalue] at h ⊢
      exact tryRules_mono ih h

theorem prove_mono {m n : Nat} (hmn : m ≤ n) : Below (prove kb m) (prove kb n) := by
  induction n, hmn using Nat.le_induction with
  | base => exact fun a v h => h
  | succ n _ ih => exact ih.trans (prove_below_succ n)

-- ============================================================================
-- Twenty-six levels suffice
-- ============================================================================

/-- The letters with a value within `n` levels, whether declared or not. -/
def settled (kb : KnowledgeBase) (n : Nat) : Finset Letter :=
  Finset.univ.filter fun l => (prove kb n ⟨l, false⟩).isSome

theorem mem_settled {n : Nat} {l : Letter} :
    l ∈ settled kb n ↔ ∃ v, prove kb n ⟨l, false⟩ = some v := by
  simp [settled, Option.isSome_iff_exists]

theorem settled_subset {m n : Nat} (hmn : m ≤ n) : settled kb m ⊆ settled kb n := by
  intro l hl
  obtain ⟨v, hv⟩ := mem_settled.mp hl
  exact mem_settled.mpr ⟨v, prove_mono hmn _ v hv⟩

/-- A level that settles no further letter finds the same values. -/
theorem prove_succ_eq_of_settled_eq {n : Nat} (h : settled kb n = settled kb (n + 1)) :
    prove kb (n + 1) = prove kb n := by
  funext a
  cases hvalue : a.value with
  | true => rw [prove_of_value hvalue, prove_of_value hvalue]
  | false =>
    obtain ⟨l, rfl⟩ : ∃ l, a = ⟨l, false⟩ := ⟨a.letter, Atom.ext rfl hvalue⟩
    cases hn : prove kb n ⟨l, false⟩ with
    | some v => exact prove_below_succ n _ v hn
    | none =>
      have hl : l ∉ settled kb (n + 1) := by
        rw [← h, mem_settled, hn]
        rintro ⟨v, hv⟩
        cases hv
      rw [mem_settled, not_exists] at hl
      exact Option.eq_none_iff_forall_ne_some.mpr hl

theorem prove_succ_eq_of_eq {n : Nat} (h : prove kb (n + 1) = prove kb n) :
    prove kb (n + 2) = prove kb (n + 1) := by
  funext a
  cases hvalue : a.value with
  | true => rw [prove_of_value hvalue, prove_of_value hvalue]
  | false => rw [prove_succ hvalue, prove_succ hvalue, h]

/-- The value of an atom, if the plain evaluator finds one. -/
def value (kb : KnowledgeBase) : Atom → Option Bool := prove kb 26

/-- From twenty-six levels on, the plain evaluator finds the same values. -/
theorem prove_eq_value {n : Nat} (hn : 26 ≤ n) : prove kb n = value kb := by
  -- The number of settled letters grows, stays at most twenty-six, and never
  -- grows again once it has stood still.
  have hcard : ∀ m, 26 ≤ m → (settled kb m).card = (settled kb 26).card := by
    intro m hm
    refine Nat.stabilises_of_monotone (f := fun i => (settled kb i).card) ?_ ?_ ?_ hm
    · exact fun i j hij => Finset.card_le_card (settled_subset hij)
    · exact fun i => Letter.card_eq ▸ Finset.card_le_univ (settled kb i)
    · intro i hi
      have heq : settled kb i = settled kb (i + 1) :=
        Finset.eq_of_subset_of_card_le (settled_subset (Nat.le_succ i)) hi.ge
      have hstill := prove_succ_eq_of_eq (prove_succ_eq_of_settled_eq heq)
      rw [settled, settled, hstill]
  induction n, hn using Nat.le_induction with
  | base => rfl
  | succ n hn ih =>
    have heq : settled kb n = settled kb (n + 1) := by
      refine Finset.eq_of_subset_of_card_le (settled_subset (Nat.le_succ n)) ?_
      rw [hcard n hn, hcard (n + 1) (by omega)]
    rw [prove_succ_eq_of_settled_eq heq, ih]

theorem prove_below_value (n : Nat) : Below (prove kb n) (value kb) := by
  intro a v h
  rw [← prove_eq_value (Nat.le_max_left 26 n)]
  exact prove_mono (Nat.le_max_right 26 n) a v h

theorem value_of_value {a : Atom} (h : a.value = true) : value kb a = some true :=
  prove_of_value h

/-- An atom that is no fact has the value that the rules for it give, where the
    atoms of their premises have their own values. -/
theorem value_eq_tryRules {a : Atom} (h : a.value = false) :
    value kb a = tryRules (value kb) (kb.rulesFor (.atom a)) := by
  calc value kb a
      = prove kb (26 + 1) a := by rw [prove_eq_value (by decide)]
    _ = tryRules (value kb) (kb.rulesFor (.atom a)) := prove_succ h

end Plain

end HornClause
