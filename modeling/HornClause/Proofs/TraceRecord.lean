/-
  HornClause.Proofs.TraceRecord

  What a trace says, read without the search that left it. The traces on one level are
  a sequence of *blocks*, one for each letter that was asked for there. A block shows
  the value of its letter and, unless the letter is a fact or was settled before, the
  rules that were tried for it, in order: some that failed, and then the one that
  decided, or a last leaf where none was left. Below each rule there are the blocks
  for the letters of its premise.

  `Block` and the relations beside it state this law from the facts and the rules of a
  knowledge base. `recorded_of_derives` proves it of every derivation that ends, by
  induction on the derivation: each way a rule can come out adds one node to the record.
  The trace of every answer obeys the law as a consequence.
-/
import HornClause.Proofs.Answer
import HornClause.Proofs.BigStep
import HornClause.Trace.Walk

namespace HornClause

-- ============================================================================
-- Truth functions of occurrences
-- ============================================================================

namespace Formula

/-- The truth value of a formula whose letters have the given values, one for each
    occurrence from left to right. -/
def truthOf : Formula → List Bool → Bool
  | .atom _, values => values.headD false
  | .compound c left right, values =>
      c.apply (left.truthOf (values.take left.letters.length))
        (right.truthOf (values.drop left.letters.length))

theorem truthOf_append {c : Connective} {left right : Formula} {xs ys : List Bool}
    (h : xs.length = left.letters.length) :
    (compound c left right).truthOf (xs ++ ys) = c.apply (left.truthOf xs) (right.truthOf ys) := by
  rw [truthOf, ← h, List.take_left, List.drop_left]

/-- A conjunction is true of values that are all true. -/
theorem truthOf_conjunction {f : Formula} (hconj : f.isConjunction = true) {values : List Bool}
    (h : values.length = f.letters.length) : f.truthOf values = values.all id := by
  induction f generalizing values with
  | atom a =>
    obtain ⟨v, rfl⟩ := List.length_eq_one_iff.mp h
    simp [truthOf]
  | compound c left right ihl ihr =>
    cases c with
    | implication => cases hconj
    | conjunction =>
      obtain ⟨hleft, hright⟩ := Bool.and_eq_true_iff.mp hconj
      rw [letters_compound, List.length_append] at h
      have htake : (values.take left.letters.length).length = left.letters.length := by
        rw [List.length_take]
        omega
      have hdrop : (values.drop left.letters.length).length = right.letters.length := by
        rw [List.length_drop]
        omega
      rw [truthOf, ihl hleft htake, ihr hright hdrop, Connective.apply, ← List.all_append,
        List.take_append_drop]

theorem length_letters_pos (f : Formula) : 0 < f.letters.length := by
  induction f with
  | atom a => exact Nat.one_pos
  | compound c left right ihl ihr =>
    rw [letters_compound, List.length_append]
    omega

theorem one_lt_length_letters {f : Formula} (h : f.isAtom = false) : 1 < f.letters.length := by
  cases f with
  | atom a => cases h
  | compound c left right =>
    have hleft := left.length_letters_pos
    have hright := right.length_letters_pos
    rw [letters_compound, List.length_append]
    omega

end Formula

-- ============================================================================
-- The law of traces
-- ============================================================================

mutual

/-- The traces of one letter that was asked for, and the value they show. -/
inductive Block (kb : KnowledgeBase) : Letter → Bool → List Trace → Prop where
  | recalled (l : Letter) (v : Bool) : Block kb l v [.leaf l.text (.cached v)]
  | declared {l : Letter} (hfact : l ∈ kb.declared) : Block kb l true [.leaf l.text .proved]
  | derived {l : Letter} {v : Bool} {ts : List Trace} (hopen : l ∉ kb.declared)
      (hrules : Attempts kb l (kb.rules.filter fun r => l ∈ r.conclusion.letters) v ts) :
      Block kb l v ts

/-- The traces of rules that were tried for a letter: of some that failed and of one
    that decided, or, if all have failed, of a leaf that says so. -/
inductive Attempts (kb : KnowledgeBase) : Letter → List Rule → Bool → List Trace → Prop where
  | decided {l : Letter} {before after : List Rule} {rule : Rule} {v : Bool} {ts : List Trace}
      {t : Trace} (hbefore : Failures kb before ts) (hrule : Decision kb rule v t) :
      Attempts kb l (before ++ rule :: after) v (ts ++ [t])
  | exhausted {l : Letter} {rules : List Rule} {ts : List Trace} (hall : Failures kb rules ts) :
      Attempts kb l rules false (ts ++ [.leaf l.text .failed])

/-- One node for each of some rules that failed. Their premises are compound, and the
    blocks below a node show that not all letters of the premise hold. -/
inductive Failures (kb : KnowledgeBase) : List Rule → List Trace → Prop where
  | nil : Failures kb [] []
  | cons {rule : Rule} {rest : List Rule} {values : List Bool} {ts us : List Trace}
      (hcompound : 1 < rule.premise.letters.length)
      (hopen : ¬ ∀ l ∈ rule.premise.letters, l ∈ kb.declared)
      (hblocks : Blocks kb rule.premise.letters values ts) (hfalse : values.all id = false)
      (hrest : Failures kb rest us) :
      Failures kb (rule :: rest) (.node rule.text (some .failed) ts :: us)

/-- The node of the rule that decided. If the premise holds by the facts alone, nothing is
    below it. A premise of one letter decides either way, with its block below the node,
    and a compound one decides if all its letters hold. -/
inductive Decision (kb : KnowledgeBase) : Rule → Bool → Trace → Prop where
  | byFacts {rule : Rule} (hfacts : ∀ l ∈ rule.premise.letters, l ∈ kb.declared) :
      Decision kb rule true (.leaf rule.text .proved)
  | single {rule : Rule} {l : Letter} {v : Bool} {ts : List Trace}
      (hsingle : rule.premise.letters = [l]) (hopen : l ∉ kb.declared)
      (hblock : Block kb l v ts) : Decision kb rule v (.node rule.text (some (.fresh v)) ts)
  | compound {rule : Rule} {values : List Bool} {ts : List Trace}
      (hcompound : 1 < rule.premise.letters.length)
      (hopen : ¬ ∀ l ∈ rule.premise.letters, l ∈ kb.declared)
      (hblocks : Blocks kb rule.premise.letters values ts) (htrue : values.all id = true) :
      Decision kb rule true (.node rule.text (some .proved) ts)

/-- One block for each of some letters, in order. -/
inductive Blocks (kb : KnowledgeBase) : List Letter → List Bool → List Trace → Prop where
  | nil : Blocks kb [] [] []
  | cons {l : Letter} {ls : List Letter} {v : Bool} {vs : List Bool} {ts us : List Trace}
      (hblock : Block kb l v ts) (hrest : Blocks kb ls vs us) :
      Blocks kb (l :: ls) (v :: vs) (ts ++ us)

end

variable {kb : KnowledgeBase}

namespace Blocks

theorem singleton {l : Letter} {v : Bool} {ts : List Trace} (h : Block kb l v ts) :
    Blocks kb [l] [v] ts := by
  have hblocks := Blocks.cons h .nil
  rwa [List.append_nil] at hblocks

theorem of_singleton {l : Letter} {values : List Bool} {ts : List Trace}
    (h : Blocks kb [l] values ts) : ∃ v, values = [v] ∧ Block kb l v ts := by
  cases h with
  | cons hblock hrest =>
    cases hrest
    rw [List.append_nil]
    exact ⟨_, rfl, hblock⟩

theorem length_eq {ls : List Letter} {values : List Bool} {ts : List Trace}
    (h : Blocks kb ls values ts) : values.length = ls.length := by
  induction ls generalizing values ts with
  | nil =>
    cases h
    rfl
  | cons l ls ih =>
    cases h with
    | cons hblock hrest => rw [List.length_cons, List.length_cons, ih hrest]

theorem append {ls ms : List Letter} {xs ys : List Bool} {ts us : List Trace}
    (h : Blocks kb ls xs ts) (h' : Blocks kb ms ys us) :
    Blocks kb (ls ++ ms) (xs ++ ys) (ts ++ us) := by
  induction ls generalizing xs ts with
  | nil =>
    cases h
    exact h'
  | cons l ls ih =>
    cases h with
    | cons hblock hrest =>
      rw [List.append_assoc]
      exact .cons hblock (ih hrest)

end Blocks

-- ============================================================================
-- Rules
-- ============================================================================

theorem Attempts.of_decision {l : Letter} {rule : Rule} {rest : List Rule} {v : Bool} {t : Trace}
    (h : Decision kb rule v t) : Attempts kb l (rule :: rest) v [t] :=
  @Attempts.decided kb l [] rest rule v [] t .nil h

section Premises

variable {rule : Rule} {values : List Bool} {ts : List Trace}
  (hwf : rule.WellFormed kb.declared) (hopen : rule.premise.evaluate = false)
  (hblocks : Blocks kb rule.premise.letters values ts)

include hwf hopen

theorem Rule.WellFormed.not_declared : ¬ ∀ l ∈ rule.premise.letters, l ∈ kb.declared := by
  rw [← Formula.evaluate_eq_true_iff hwf.premise_conjunction hwf.premise_agrees, hopen]
  exact Bool.false_ne_true

include hblocks

/-- A rule with a premise of one letter has the value of its block. -/
theorem Decision.of_atom (hatom : rule.premise.isAtom = true) :
    Decision kb rule (rule.premise.truthOf values)
      (.settled rule.text (rule.premise.truthOf values) ts) := by
  obtain ⟨a, ha⟩ := Option.isSome_iff_exists.mp hatom
  have hpremise := Formula.asAtom?_eq_some_iff.mp ha
  have hnot := hwf.not_declared hopen
  rw [hpremise] at hblocks hnot ⊢
  obtain ⟨v, rfl, hblock⟩ := hblocks.of_singleton
  refine .single (l := a.letter) (by rw [hpremise, Formula.letters_atom]) ?_ hblock
  rwa [Formula.letters_atom, List.forall_mem_singleton] at hnot

/-- A rule whose premise holds has decided, whatever the premise is made of. -/
theorem Decision.of_true (htrue : rule.premise.truthOf values = true) :
    Decision kb rule true (.settled rule.text true ts) := by
  cases hatom : rule.premise.isAtom with
  | true =>
    have hdecides := Decision.of_atom hwf hopen hblocks hatom
    rwa [htrue] at hdecides
  | false =>
    rw [Formula.truthOf_conjunction hwf.premise_conjunction hblocks.length_eq] at htrue
    exact .compound (Formula.one_lt_length_letters hatom) (hwf.not_declared hopen) hblocks htrue

/-- A rule with a compound premise that fails is one more failure before the others. -/
theorem Attempts.cons (hcompound : rule.premise.isAtom = false)
    (hfalse : rule.premise.truthOf values = false) {l : Letter} {rest : List Rule} {v : Bool}
    {us : List Trace} (h : Attempts kb l rest v us) :
    Attempts kb l (rule :: rest) v (.settled rule.text false ts :: us) := by
  rw [Formula.truthOf_conjunction hwf.premise_conjunction hblocks.length_eq] at hfalse
  have hfails : ∀ {rules : List Rule} {us : List Trace}, Failures kb rules us →
      Failures kb (rule :: rules) (.settled rule.text false ts :: us) :=
    fun h => .cons (Formula.one_lt_length_letters hcompound) (hwf.not_declared hopen) hblocks
      hfalse h
  cases h with
  | decided hbefore hrule => exact .decided (hfails hbefore) hrule
  | exhausted hall => exact .exhausted (hfails hall)

end Premises

-- ============================================================================
-- Derivations
-- ============================================================================

/-- The atoms of a goal agree with the facts, and so do those of the rules to try. -/
def Task.WellFormed (kb : KnowledgeBase) : Task → Prop
  | .goal f => f.AgreesWith kb.declared
  | .byRules _ rules => ∀ r ∈ rules, r.WellFormed kb.declared

/-- The law of traces for a task: a goal leaves blocks, and an atom the attempts by its
    rules. -/
def Recorded (kb : KnowledgeBase) : Task → Bool → List Trace → Prop
  | .goal f, v, ts => ∃ values, Blocks kb f.letters values ts ∧ v = f.truthOf values
  | .byRules a rules, v, ts => Attempts kb a.letter rules v ts

/-- Every derivation that ends has left the traces that the law demands. -/
theorem recorded_of_derives (hkb : kb.WellFormed) {task : Task} {c d : Cache} {v : Bool}
    {ts : List Trace} (h : Derives kb task c v ts d) (htask : task.WellFormed kb) :
    Recorded kb task v ts := by
  -- Goals leave blocks and rules leave attempts. Attempts become a block where an atom is
  -- derived, and blocks become a node of an attempt where a premise is resolved.
  induction h with
  | @recalled a c v hget => exact ⟨[v], .singleton (.recalled a.letter v), rfl⟩
  | @declared a c hget hfact =>
    have hmem := (Formula.agreesWith_atom.mp htask).mp hfact
    exact ⟨[true], .singleton (.declared hmem), rfl⟩
  | @derived a c d v ts hget hopen hrules ih =>
    have hnot := (Formula.agreesWith_atom.mp htask).not_mem hopen
    have hattempts := ih fun r hr => hkb.rules r (KnowledgeBase.mem_rulesFor_atom.mp hr).1
    rw [KnowledgeBase.rulesFor_atom] at hattempts
    exact ⟨[v], .singleton (.derived hnot hattempts), rfl⟩
  | compound hleft hright ihl ihr =>
    obtain ⟨hagreesl, hagreesr⟩ := Formula.agreesWith_compound.mp htask
    obtain ⟨xs, hxs, rfl⟩ := ihl hagreesl
    obtain ⟨ys, hys, rfl⟩ := ihr hagreesr
    refine ⟨xs ++ ys, ?_, (Formula.truthOf_append hxs.length_eq).symm⟩
    rw [Formula.letters_compound]
    exact hxs.append hys
  | exhausted => exact .exhausted .nil
  | @byFacts a rule rest c hholds =>
    have hwf := htask rule List.mem_cons_self
    have hfacts :=
      (Formula.evaluate_eq_true_iff hwf.premise_conjunction hwf.premise_agrees).mp hholds
    exact .of_decision (.byFacts hfacts)
  | @proved a rule rest c d ts hopen hpremise ih =>
    have hwf := htask rule List.mem_cons_self
    obtain ⟨values, hblocks, htrue⟩ := ih hwf.premise_agrees
    exact .of_decision (.of_true hwf hopen hblocks htrue.symm)
  | @committed a rule rest c d ts hopen hatom hpremise ih =>
    have hwf := htask rule List.mem_cons_self
    obtain ⟨values, hblocks, hfalse⟩ := ih hwf.premise_agrees
    have hdecides := Decision.of_atom hwf hopen hblocks hatom
    rw [← hfalse] at hdecides
    exact .of_decision hdecides
  | @next a rule rest c d e v ts us hopen hcompound hpremise hrest ih ihrest =>
    obtain ⟨hwf, hwfrest⟩ := List.forall_mem_cons.mp htask
    obtain ⟨values, hblocks, hfalse⟩ := ih hwf.premise_agrees
    exact .cons hwf hopen hblocks hcompound hfalse.symm (ihrest hwfrest)

namespace Trace

/-- No node is left without an outcome. -/
def AllSettled (ts : List Trace) : Prop := ∀ t ∈ preorderAll ts, t.outcome.isSome = true

variable {ts us : List Trace}

theorem allSettled_nil : AllSettled [] := by
  intro t ht
  cases ht

theorem allSettled_cons {label : String} {o : Outcome} (h : AllSettled ts) (h' : AllSettled us) :
    AllSettled (.node label (some o) ts :: us) := by
  intro t ht
  rw [preorderAll, preorder_eq, List.mem_append, List.mem_cons] at ht
  rcases ht with (rfl | ht) | ht
  · rfl
  · exact h t ht
  · exact h' t ht

theorem allSettled_append (h : AllSettled ts) (h' : AllSettled us) : AllSettled (ts ++ us) := by
  rw [AllSettled, preorderAll_append]
  exact List.forall_mem_append.mpr ⟨h, h'⟩

end Trace

theorem allSettled_of_derives {task : Task} {c d : Cache} {v : Bool} {ts : List Trace}
    (h : Derives kb task c v ts d) : Trace.AllSettled ts := by
  have hleaf : ∀ label o, Trace.AllSettled [.leaf label o] :=
    fun _ _ => Trace.allSettled_cons Trace.allSettled_nil Trace.allSettled_nil
  induction h with
  | recalled | declared | exhausted | byFacts => exact hleaf _ _
  | derived _ _ _ ih => exact ih
  | compound _ _ ihl ihr => exact Trace.allSettled_append ihl ihr
  | proved _ _ ih | committed _ _ _ ih => exact Trace.allSettled_cons ih Trace.allSettled_nil
  | next _ _ _ _ ih ihrest => exact Trace.allSettled_cons ih ihrest

-- ============================================================================
-- Answers
-- ============================================================================

/-- The trace of an answer is a faithful record of the search for it, under any settings.

    The root carries the text of the query and the outcome that the result is. No node
    is without an outcome. Below the root there is one block for each letter of the
    query, from left to right, and the result is the truth function of the query applied
    to the values that the blocks show. -/
theorem trace_faithful {text : String} {kb : KnowledgeBase}
    (hkb : KnowledgeBase.parse text = .ok kb) (settings : Settings) {query : String}
    {answer : Answer} (hask : (Session.install { settings } kb).ask query = .ok answer) :
    answer.trace.label = query ∧ answer.trace.outcome = some (.fresh answer.result) ∧
      (∀ node ∈ answer.trace.preorder, node.outcome.isSome = true) ∧
      ∃ goal values, Formula.parse kb.known .query query = .ok goal ∧
        Blocks kb goal.letters values answer.trace.children ∧
        answer.result = goal.truthOf values := by
  obtain ⟨goal, hquery⟩ := exists_goal_of_ask hask
  obtain ⟨t, hresolve, htrace⟩ := resolveGoal_of_ask hquery hask
  obtain ⟨ts, hts, hderives⟩ := Derivation.derives_of_resolveGoal hresolve
  have hts : t.trace.toList = ts := hts
  rw [hts] at htrace
  have hwf := KnowledgeBase.wellFormed_of_parse hkb
  obtain ⟨values, hblocks, hresult⟩ :=
    recorded_of_derives hwf hderives (hwf.agreesWith hquery)
  rw [htrace]
  refine ⟨rfl, rfl, ?_, goal, values, hquery, hblocks, hresult⟩
  have hroot : Trace.AllSettled [.settled query answer.result ts] :=
    Trace.allSettled_cons (allSettled_of_derives hderives) Trace.allSettled_nil
  rwa [Trace.AllSettled, Trace.preorderAll, Trace.preorderAll, List.append_nil] at hroot

/-- `F` needs its second rule and takes two nodes; `E` has failed below the first of them,
    so a leaf is enough for it; and `C` is derived last. -/
theorem trace_faithful_sample :
    ∃ answer goal values, (Session.install {} sample).ask "FE=>C" = .ok answer ∧
      answer.trace.children.map Trace.label = ["BE=>F", "D=>F", "E", "AB=>CD"] ∧
      answer.trace.outcome = some (.fresh answer.result) ∧
      Formula.parse sample.known .query "FE=>C" = .ok goal ∧
      Blocks sample goal.letters values answer.trace.children ∧
      answer.result = goal.truthOf values := by
  obtain ⟨answer, hask, hlabels⟩ := Except.exists_ok_of_any
    (x := (Session.install {} sample).ask "FE=>C")
    (p := fun answer =>
      answer.trace.children.map Trace.label == ["BE=>F", "D=>F", "E", "AB=>CD"])
    (by decide +kernel)
  obtain ⟨-, houtcome, -, goal, values, hquery, hblocks, hresult⟩ :=
    trace_faithful parse_sample {} hask
  exact ⟨answer, goal, values, hask, eq_of_beq hlabels, houtcome, hquery, hblocks, hresult⟩

end HornClause
