/-
  HornClause.Proofs.Dependency

  Failures, traced back to the rules. A letter *depends* on another if neither is a
  fact and some rule has the one in its conclusion and the other in its premise.
  Every goal that is taken up while another is underway is one that the other
  depends on, so the goals underway are a path of dependencies:

    * a derivation that exceeds its limit has gone down a path with more letters
      than the limit has levels;
    * a derivation that meets a goal again has gone around a cycle of dependencies.

  `ProofError.ExplainedBy` says this of one letter, and `explainedBy_of_dependsOn` is
  the step from a letter to one that depends on it. Where no letter that a query
  leads to depends on itself, neither of the two can happen under a limit that is as
  high as the longest path is long, and no path has more than twenty-six letters.
-/
import Mathlib.Data.List.Chain
import Mathlib.Logic.Relation
import HornClause.Proofs.DepthLimit

namespace HornClause

open Relation

-- ============================================================================
-- Dependencies
-- ============================================================================

namespace KnowledgeBase

variable {kb : KnowledgeBase} {goal : Formula} {path : List Letter}

/-- A letter depends on another if neither is declared, and some rule concludes the
    one from a premise with the other. -/
def DependsOn (kb : KnowledgeBase) (l k : Letter) : Prop :=
  l ∉ kb.declared ∧ k ∉ kb.declared ∧
    ∃ r ∈ kb.rules, l ∈ r.conclusion.letters ∧ k ∈ r.premise.letters

instance (l k : Letter) : Decidable (kb.DependsOn l k) :=
  inferInstanceAs (Decidable (_ ∧ _ ∧ ∃ r ∈ kb.rules, _ ∧ _))

/-- The letters of a goal that are not declared. -/
def OpenIn (kb : KnowledgeBase) (goal : Formula) (l : Letter) : Prop :=
  l ∈ goal.letters ∧ l ∉ kb.declared

instance (l : Letter) : Decidable (kb.OpenIn goal l) := inferInstanceAs (Decidable (_ ∧ _))

/-- A path of dependencies that starts in an open letter of the goal. -/
structure IsPath (kb : KnowledgeBase) (goal : Formula) (path : List Letter) : Prop where
  linked : path.IsChain kb.DependsOn
  start : ∀ l ∈ path.head?, kb.OpenIn goal l

/-- No letter that the goal's open letters lead to depends on itself, be it in several
    steps. -/
def AcyclicFrom (kb : KnowledgeBase) (goal : Formula) : Prop :=
  ∀ start, kb.OpenIn goal start → ∀ l, ReflTransGen kb.DependsOn start l →
    ¬ TransGen kb.DependsOn l l

theorem IsPath.nodup (hpath : kb.IsPath goal path) (hacyclic : kb.AcyclicFrom goal) :
    path.Nodup := by
  cases path with
  | nil => exact List.nodup_nil
  | cons start rest =>
    have hchain : (start :: rest).IsChain (TransGen kb.DependsOn) :=
      hpath.linked.imp fun _ _ => TransGen.single
    have hpairs := List.isChain_iff_pairwise.mp hchain
    have hopen : kb.OpenIn goal start := hpath.start start rfl
    have hreach : ∀ l ∈ start :: rest, ReflTransGen kb.DependsOn start l := by
      intro l hl
      rcases List.mem_cons.mp hl with rfl | hl
      · exact ReflTransGen.refl
      · exact (List.rel_of_pairwise_cons hpairs hl).to_reflTransGen
    -- Two equal letters on the path would close a cycle.
    refine hpairs.imp_of_mem fun {l k} hl _ hlk heq => ?_
    subst heq
    exact hacyclic start hopen l (hreach l hl) hlk

theorem IsPath.length_le (hpath : kb.IsPath goal path) (hacyclic : kb.AcyclicFrom goal) :
    path.length ≤ 26 := by
  rw [← Letter.card_eq]
  exact (hpath.nodup hacyclic).length_le_card

end KnowledgeBase

-- ============================================================================
-- Explained failures
-- ============================================================================

/-- Why the derivation of a letter was abandoned that began in the context: it went
    down a path with more letters than there was room for, or it came back to a letter
    that was underway or that depends on itself. -/
def ProofError.ExplainedBy (kb : KnowledgeBase) (c : Context) (l : Letter) : ProofError → Prop
  | .tooDeep _ => ∃ path, (l :: path).IsChain kb.DependsOn ∧ c.room ≤ path.length
  | .cycle symbol => ∃ k : Letter, k.char = symbol ∧ ReflTransGen kb.DependsOn l k ∧
      ((∃ goals, c.underway = some goals ∧ symbol ∈ goals) ∨ TransGen kb.DependsOn k k)

variable {kb : KnowledgeBase} {c : Context} {goal : Formula}

/-- What explains a failure of a goal explains it for the goal that asked for it. -/
theorem explainedBy_of_dependsOn {l k : Letter} {e : ProofError} (hlk : kb.DependsOn l k)
    (h : e.ExplainedBy kb (c.within l.char) k) : e.ExplainedBy kb c l := by
  cases e with
  | tooDeep limit =>
    obtain ⟨path, hpath, hlong⟩ := h
    refine ⟨k :: path, List.isChain_cons_cons.mpr ⟨hlk, hpath⟩, ?_⟩
    have hroom : c.limit - (c.depth + 1) ≤ path.length := hlong
    show c.limit - c.depth ≤ path.length + 1
    omega
  | cycle symbol =>
    obtain ⟨m, hm, hkm, hback⟩ := h
    refine ⟨m, hm, ReflTransGen.head hlk hkm, ?_⟩
    rcases hback with ⟨goals, hgoals, hmem⟩ | hcycle
    · obtain ⟨outer, houter, rfl⟩ := Option.map_eq_some_iff.mp hgoals
      rcases List.mem_cons.mp hmem with hfirst | hmem
      · -- The goal met again is the one that was taken up last.
        have heq : m = l := Letter.ext (hm.trans hfirst)
        subst heq
        exact Or.inr (TransGen.head' hlk hkm)
      · exact Or.inl ⟨outer, houter, hmem⟩
    · exact Or.inr hcycle

namespace Derivation

open SearchM

/-- The derivation of an atom is abandoned only if the atom is no fact and its letter
    explains the failure. -/
theorem keeps_proveWithin_explained (hkb : kb.WellFormed) {room : Nat} (hroom : c.room = room)
    {a : Atom} (ha : a.AgreesWith kb.declared) :
    Keeps c.SameGoals (proveWithin kb room a) (fun _ => True)
      (fun e _ => a.letter ∉ kb.declared ∧ e.ExplainedBy kb c a.letter) := by
  induction room generalizing c a with
  | zero =>
    refine keeps_settleOr (fun _ _ _ _ => trivial) (fun _ => trivial) fun hfalse => ?_
    refine keeps_goal_of_full (fun d hd => hd.limit_le_depth hroom) fun d hd =>
      ⟨ha.not_mem hfalse, [], List.isChain_singleton _, ?_⟩
    exact Nat.le_of_eq hroom
  | succ room ih =>
    refine keeps_settleOr (fun _ _ _ _ => trivial) (fun _ => trivial) fun hfalse => ?_
    have hnot := ha.not_mem hfalse
    have hwithin : (c.within a.symbol).room = room := Context.room_within hroom
    -- Whatever a premise of a rule for the atom fails over, the atom depends on it.
    have hrules : Keeps (c.within a.symbol).SameGoals
        (tryRules (proveWithin kb room) a.symbol (kb.rulesFor (.atom a))) (fun _ => True)
        (fun e _ => ∃ k, kb.DependsOn a.letter k ∧ e.ExplainedBy kb (c.within a.symbol) k) := by
      refine keeps_tryRules (fun d _ value hd => hd.save value) fun r hr b hb => ?_
      obtain ⟨hmem, hletter⟩ := KnowledgeBase.mem_rulesFor_atom.mp hr
      have hagrees := (hkb.rules r hmem).premise_agrees b hb
      refine (ih hwithin hagrees).mono (fun _ hv => hv) fun e d hd => ⟨b.letter, ?_, hd.2⟩
      exact ⟨hnot, hd.1, r, hmem, hletter, Formula.mem_letters.mpr ⟨b, hb, rfl⟩⟩
    refine hrules.goal ?_ ?_ (fun d hd _ _ => hd.within) (fun d hd => hd.leave_ascend) ?_
    · exact fun d hd hle => absurd (hd.depth_lt hroom) (Nat.not_lt.mpr hle)
    · intro d goals hd hgoals hmem
      refine ⟨hnot, a.letter, rfl, ReflTransGen.refl, Or.inl ⟨goals, ?_, hmem⟩⟩
      rw [← hd.underway, hgoals]
    · rintro e d ⟨k, hk, hexplained⟩
      exact ⟨hnot, explainedBy_of_dependsOn hk hexplained⟩

/-- A goal is abandoned only if one of its open letters explains the failure. -/
theorem resolveGoal_explained (hkb : kb.WellFormed) (hgoal : goal.AgreesWith kb.declared)
    {s t : Search} {e : ProofError} (h : resolveGoal kb goal s = .error e t) :
    ∃ l, kb.OpenIn goal l ∧ e.ExplainedBy kb s.context l := by
  have hkeeps : Keeps s.context.SameGoals (resolve (proveWithin kb s.context.room) goal)
      (fun _ => True) (fun e _ => ∃ l, kb.OpenIn goal l ∧ e.ExplainedBy kb s.context l) := by
    refine keeps_resolve fun a ha => ?_
    refine (keeps_proveWithin_explained hkb rfl (hgoal a ha)).mono (fun _ hv => hv) ?_
    intro e d hd
    exact ⟨a.letter, ⟨Formula.mem_letters.mpr ⟨a, ha, rfl⟩, hd.1⟩, hd.2⟩
  exact hkeeps.of_error (.refl s.context) h

end Derivation

-- ============================================================================
-- Failures of a query
-- ============================================================================

section Ask

variable {settings : Settings} {query : String}

/-- No goal is underway when a query is taken up, so a reported cycle is a real one. -/
theorem cycle_of_explainedBy_start {symbol : Char} {l : Letter}
    (h : (ProofError.cycle symbol).ExplainedBy kb (.start settings) l) :
    ∃ k : Letter, k.char = symbol ∧ ReflTransGen kb.DependsOn l k ∧
      TransGen kb.DependsOn k k := by
  obtain ⟨k, hk, hlk, ⟨goals, hgoals, hmem⟩ | hcycle⟩ := h
  · rw [Context.underway_start hgoals] at hmem
    cases hmem
  · exact ⟨k, hk, hlk, hcycle⟩

theorem exists_answer_of_acyclic (hkb : kb.WellFormed) (hgoal : goal.AgreesWith kb.declared)
    (hquery : Formula.parse kb.known .query query = .ok goal) (hacyclic : kb.AcyclicFrom goal)
    (hlimit : ∀ path, kb.IsPath goal path → path.length ≤ settings.depthLimit.value) :
    ∃ answer, (Session.install { settings } kb).ask query = .ok answer := by
  cases hr : Derivation.resolveGoal kb goal { context := .start settings } with
  | ok v t => exact ⟨_, ask_of_ok hquery hr⟩
  | error e t =>
    exfalso
    obtain ⟨l, hopen, hexplained⟩ := Derivation.resolveGoal_explained hkb hgoal hr
    cases e with
    | tooDeep limit =>
      obtain ⟨path, hpath, hlong⟩ := hexplained
      have hstart : ∀ k ∈ (l :: path).head?, kb.OpenIn goal k := by
        intro k hk
        cases hk
        exact hopen
      have hshort : path.length + 1 ≤ settings.depthLimit.value :=
        hlimit (l :: path) ⟨hpath, hstart⟩
      rw [Context.room_start] at hlong
      omega
    | cycle symbol =>
      obtain ⟨k, -, hlk, hcycle⟩ := cycle_of_explainedBy_start hexplained
      exact hacyclic l hopen k hlk hcycle

end Ask

/-- Derivations are abandoned only for real cycles, or for a limit below the longest
    path of dependencies.

    If a query is abandoned for a cycle, the letter that is reported can be reached
    from an open letter of the query, and depends on itself. If no letter that can be
    reached depends on itself, the query is answered, with or without a check for
    cycles, under every limit that is at least the number of letters on any path that
    starts in the query, and so under every limit of twenty-six or more. -/
theorem ask_failure_of_dependencies {text : String} {kb : KnowledgeBase}
    (hkb : KnowledgeBase.parse text = .ok kb) {query : String} {goal : Formula}
    (hquery : Formula.parse kb.known .query query = .ok goal) (settings : Settings) :
    (∀ symbol,
      (Session.install { settings } kb).ask query = .error (.proof (.cycle symbol)) →
      ∃ start l : Letter, kb.OpenIn goal start ∧ l.char = symbol ∧
        ReflTransGen kb.DependsOn start l ∧ TransGen kb.DependsOn l l) ∧
    (kb.AcyclicFrom goal →
      ((∀ path, kb.IsPath goal path → path.length ≤ settings.depthLimit.value) →
        ∃ answer, (Session.install { settings } kb).ask query = .ok answer) ∧
      (26 ≤ settings.depthLimit.value →
        ∃ answer, (Session.install { settings } kb).ask query = .ok answer)) := by
  have hwf := KnowledgeBase.wellFormed_of_parse hkb
  have hgoal := hwf.agreesWith hquery
  constructor
  · intro symbol hask
    obtain ⟨t, hr⟩ := resolveGoal_of_ask_error hquery hask
    obtain ⟨start, hopen, hexplained⟩ := Derivation.resolveGoal_explained hwf hgoal hr
    obtain ⟨l, hl, hreach, hcycle⟩ := cycle_of_explainedBy_start hexplained
    exact ⟨start, l, hopen, hl, hreach, hcycle⟩
  · intro hacyclic
    refine ⟨exists_answer_of_acyclic hwf hgoal hquery hacyclic, fun hlevels => ?_⟩
    refine exists_answer_of_acyclic hwf hgoal hquery hacyclic fun path hpath => ?_
    exact Nat.le_trans (hpath.length_le hacyclic) hlevels

/-- `G` depends on itself. The only path from `DA` goes from `D` to `B`, so that two
    levels are enough. -/
theorem ask_failure_of_dependencies_sample :
    ((Session.install { settings := .checked } sample).ask "AG" =
        .error (.proof (.cycle 'G')) ∧
      ∃ l : Letter, l.char = 'G' ∧ TransGen sample.DependsOn l l) ∧
    ∃ goal answer, Formula.parse sample.known .query "DA" = .ok goal ∧
      sample.AcyclicFrom goal ∧ (∀ path, sample.IsPath goal path → path.length ≤ 2) ∧
      (Session.install { settings := .limited 2 } sample).ask "DA" = .ok answer := by
  constructor
  · obtain ⟨goal, hquery, -⟩ := Except.exists_ok_of_any
      (x := Formula.parse sample.known .query "AG") (p := fun _ => true) (by decide +kernel)
    have hask : (Session.install { settings := .checked } sample).ask "AG" =
        .error (.proof (.cycle 'G')) := Except.eq_error_of_reason? (by decide +kernel)
    obtain ⟨-, l, -, hl, -, hself⟩ :=
      (ask_failure_of_dependencies parse_sample hquery .checked).1 'G' hask
    exact ⟨hask, l, hl, hself⟩
  · obtain ⟨goal, hquery, hopen⟩ := Except.exists_ok_of_any
      (x := Formula.parse sample.known .query "DA")
      (p := fun goal => decide (∀ l, sample.OpenIn goal l → l.char = 'D')) (by decide +kernel)
    have hstart := of_decide_eq_true hopen
    have hstep : ∀ l : Letter, l.char = 'D' ∨ l.char = 'B' →
        ∀ k, sample.DependsOn l k → l.char = 'D' ∧ k.char = 'B' := by decide +kernel
    have hacyclic : sample.AcyclicFrom goal := by
      intro start hs
      have hreach : ∀ l, ReflTransGen sample.DependsOn start l → l.char = 'D' ∨ l.char = 'B' := by
        intro l hl
        induction hl with
        | refl => exact Or.inl (hstart start hs)
        | tail _ hlk ih => exact Or.inr (hstep _ ih _ hlk).2
      intro l hl hcycle
      obtain ⟨k, hlk, -⟩ := TransGen.head'_iff.mp hcycle
      obtain ⟨m, hlm, hml⟩ := TransGen.tail'_iff.mp hcycle
      have hD := (hstep l (hreach l hl) k hlk).1
      have hB := (hstep m (hreach m (hl.trans hlm)) l hml).2
      exact absurd (hD.symm.trans hB) (by decide)
    have hpaths : ∀ path, sample.IsPath goal path → path.length ≤ 2 := by
      intro path hpath
      match path, hpath with
      | [], _ | [_], _ | [_, _], _ => simp
      | l :: k :: m :: rest, hpath =>
        obtain ⟨hlk, hrest⟩ := List.isChain_cons_cons.mp hpath.linked
        have hB := (hstep l (Or.inl (hstart l (hpath.start l rfl))) k hlk).2
        have hD := (hstep k (Or.inr hB) m hrest.rel).1
        exact absurd (hD.symm.trans hB) (by decide)
    obtain ⟨answer, hanswer⟩ :=
      ((ask_failure_of_dependencies parse_sample hquery (.limited 2)).2 hacyclic).1 hpaths
    exact ⟨goal, answer, hquery, hacyclic, hpaths, hanswer⟩

end HornClause
