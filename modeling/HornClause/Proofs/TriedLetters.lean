/-
  HornClause.Proofs.TriedLetters

  Which letter a node of a trace was tried for. The trace does not say so: a rule with
  two conclusions may have been tried for either of them. But the letters that were asked
  for on a level are known, from the query or from the premise of the rule above it, and
  the nodes of each letter follow one another up to the one that decides it.

    * `Trace.tried` reads the nodes of a trace in the order of the walk, each with its
      letter.
    * `Block.tried_append`, `Blocks.tried_append`: on a level that obeys the law of traces,
      the nodes of a block have its letter.
    * `map_snd_tried_of_derives`: the nodes of the walk are read, all of them and in order.

  A label is only a text, so the module begins with what the text of a rule tells.
-/
import HornClause.Proofs.Grammar
import HornClause.Proofs.TraceRecord

namespace HornClause

-- ============================================================================
-- Texts of letters and rules
-- ============================================================================

theorem Letter.equals_not_mem (ls : List Letter) : '=' ∉ ls.map Letter.char := by
  intro hmem
  obtain ⟨l, -, hl⟩ := List.mem_map.mp hmem
  have hupper := l.isUpper
  rw [hl] at hupper
  exact absurd hupper (by decide)

theorem Letter.arrowParts_text (l : Letter) : Text.arrowParts l.text.toList = [[l.char]] := by
  rw [Letter.text, String.toList_singleton]
  exact Text.arrowParts_of_not_mem (Letter.equals_not_mem [l])

theorem Letter.text_inj {k l : Letter} (h : k.text = l.text) : k = l := by
  have hparts := congrArg (fun text : String => text.toList) h
  simp only [Letter.text, String.toList_singleton, List.cons.injEq, and_true] at hparts
  exact Letter.ext hparts

theorem Letter.map_char_inj {ls ms : List Letter} (h : ls.map Letter.char = ms.map Letter.char) :
    ls = ms :=
  List.map_injective_iff.mpr (fun _ _ hchar => Letter.ext hchar) h

/-- A conjunction is written as its letters. -/
theorem Formula.chars_of_isConjunction {f : Formula} (h : f.isConjunction = true) :
    f.chars = f.letters.map Letter.char := by
  induction f with
  | atom a => rfl
  | compound c left right ihl ihr =>
    cases c with
    | implication => cases h
    | conjunction =>
      obtain ⟨hleft, hright⟩ := Bool.and_eq_true_iff.mp h
      rw [chars_compound, letters_compound, List.map_append, ihl hleft, ihr hright,
        Connective.token, List.append_nil]

namespace Rule.WellFormed

variable {declared : List Letter} {r s : Rule}

theorem arrowParts_text (h : r.WellFormed declared) :
    Text.arrowParts r.text.toList =
      [r.premise.letters.map Letter.char, r.conclusion.letters.map Letter.char] := by
  rw [Rule.text, Formula.toList_text, Rule.toFormula, Formula.chars_implication,
    Formula.chars_of_isConjunction h.premise_conjunction,
    Formula.chars_of_isConjunction h.conclusion_conjunction,
    Text.arrowParts_append_arrow (Letter.equals_not_mem _),
    Text.arrowParts_of_not_mem (Letter.equals_not_mem _)]

/-- The text of a rule tells its letters. -/
theorem letters_eq (hr : r.WellFormed declared) (hs : s.WellFormed declared)
    (h : r.text = s.text) :
    r.premise.letters = s.premise.letters ∧ r.conclusion.letters = s.conclusion.letters := by
  have hparts := hr.arrowParts_text
  rw [h, hs.arrowParts_text] at hparts
  obtain ⟨hpremise, hrest⟩ := List.cons.inj hparts
  exact ⟨Letter.map_char_inj hpremise.symm, Letter.map_char_inj (List.cons.inj hrest).1.symm⟩

theorem text_ne_letter (h : r.WellFormed declared) (l : Letter) : r.text ≠ l.text := by
  intro heq
  have hparts := congrArg List.length h.arrowParts_text
  rw [heq, Letter.arrowParts_text] at hparts
  cases hparts

end Rule.WellFormed

-- ============================================================================
-- Nodes and the letters they are tried for
-- ============================================================================

namespace Trace

/-- The letters of a label, up to the arrow if there is one. -/
def premiseLetters (label : String) : List Letter :=
  ((Text.arrowParts label.toList).headD []).filterMap Letter.ofChar?

/-- Whether a node leaves its letter open, so that another rule is tried for it: a rule
    with more than one letter in its premise has failed. -/
def leavesOpen (t : Trace) : Bool :=
  t.outcome == some .failed && decide (1 < (premiseLetters t.label).length)

mutual

/-- The nodes of some traces in the order of the walk, each with the letter it was tried
    for, where the traces stand on a level on which the given letters were asked for. A
    node belongs to the first letter that is still open. -/
def tried : List Letter → List Trace → List (Letter × Trace)
  | l :: ls, t :: rest =>
      (l, t) :: t.triedBelow ++ tried (if t.leavesOpen then l :: ls else ls) rest
  | _, _ => []

/-- The nodes below a node. If it is that of a rule, the letters of the premise were asked
    for there. -/
def triedBelow : Trace → List (Letter × Trace)
  | .node label _ ts => tried (premiseLetters label) ts

end

variable {declared : List Letter} {rule : Rule} {l : Letter} {ls : List Letter}

theorem tried_nil (ls : List Letter) : tried ls [] = [] := by
  cases ls <;> rfl

theorem tried_leaf (l : Letter) (label : String) (o : Outcome) :
    tried [l] [.leaf label o] = [(l, .leaf label o)] := by
  rw [tried, leaf, triedBelow, tried_nil, tried_nil]
  rfl

theorem premiseLetters_letter (l : Letter) : premiseLetters l.text = [l] := by
  simp [premiseLetters, Letter.arrowParts_text]

theorem premiseLetters_rule (h : rule.WellFormed declared) :
    premiseLetters rule.text = rule.premise.letters := by
  simp [premiseLetters, h.arrowParts_text, List.filterMap_map]

theorem leavesOpen_letter (l : Letter) (o : Outcome) : (leaf l.text o).leavesOpen = false := by
  simp [leavesOpen, leaf, premiseLetters_letter]

theorem leavesOpen_failed (h : rule.WellFormed declared) (ts : List Trace) :
    (node rule.text (some .failed) ts).leavesOpen = decide (1 < rule.premise.letters.length) := by
  show decide (1 < (premiseLetters rule.text).length) = _
  rw [premiseLetters_rule h]

/-- Below a rule, the letters of its premise are tried. -/
theorem tried_settled (h : rule.WellFormed declared) (v : Bool) (ts : List Trace) :
    tried [l] [.settled rule.text v ts] =
      (l, .settled rule.text v ts) :: tried rule.premise.letters ts := by
  rw [tried, tried_nil, settled, triedBelow, premiseLetters_rule h, List.append_nil]

/-- After a compound premise that failed, the next rule is tried for the same letter. -/
theorem tried_next (h : rule.WellFormed declared) (hcompound : rule.premise.isAtom = false)
    (ts us : List Trace) :
    tried [l] (.settled rule.text false ts :: us) =
      (l, .settled rule.text false ts) :: tried rule.premise.letters ts ++ tried [l] us := by
  have hopen : (settled rule.text false ts).leavesOpen = true :=
    (leavesOpen_failed h ts).trans (decide_eq_true (Formula.one_lt_length_letters hcompound))
  rw [tried, hopen, if_pos rfl, settled, triedBelow, premiseLetters_rule h]

-- ============================================================================
-- Blocks
-- ============================================================================

/-- Nodes that leave their letter open have it in common with what follows. -/
theorem tried_append_of_open {ts : List Trace} (h : ∀ t ∈ ts, t.leavesOpen = true)
    (us : List Trace) :
    tried (l :: ls) (ts ++ us) =
      ts.flatMap (fun t => (l, t) :: t.triedBelow) ++ tried (l :: ls) us := by
  induction ts with
  | nil => rfl
  | cons t ts ih =>
    obtain ⟨hopen, hrest⟩ := List.forall_mem_cons.mp h
    rw [List.cons_append, tried, hopen, if_pos rfl, ih hrest, List.flatMap_cons,
      List.append_assoc]

/-- A node that closes its letter is the last one for it. -/
theorem tried_append_of_closed {ts : List Trace} {t : Trace} (h : ∀ t ∈ ts, t.leavesOpen = true)
    (hclosed : t.leavesOpen = false) (us : List Trace) :
    tried (l :: ls) (ts ++ [t] ++ us) =
      (ts ++ [t]).flatMap (fun t => (l, t) :: t.triedBelow) ++ tried ls us := by
  rw [List.append_assoc, tried_append_of_open h, List.singleton_append, tried, hclosed,
    List.flatMap_append, List.flatMap_singleton, List.append_assoc]
  rfl

end Trace

section Law

open Trace

variable {kb : KnowledgeBase} {l : Letter} {v : Bool} {rule : Rule} {rules : List Rule}
  {ts : List Trace} {t : Trace}

theorem Failures.leavesOpen (h : Failures kb rules ts)
    (hrules : ∀ r ∈ rules, r.WellFormed kb.declared) : ∀ t ∈ ts, t.leavesOpen = true := by
  induction rules generalizing ts with
  | nil =>
    cases h
    exact List.forall_mem_nil _
  | cons rule rest ih =>
    obtain ⟨hwf, hrest⟩ := List.forall_mem_cons.mp hrules
    cases h with
    | cons hcompound hopen hblocks hfalse hfailures =>
      refine List.forall_mem_cons.mpr ⟨?_, ih hfailures hrest⟩
      rw [leavesOpen_failed hwf, decide_eq_true hcompound]

theorem Decision.closes (h : Decision kb rule v t) (hwf : rule.WellFormed kb.declared) :
    t.leavesOpen = false := by
  cases h with
  | byFacts hfacts => rfl
  | compound hcompound hopen hblocks htrue => rfl
  | single hsingle hopen hblock =>
    cases v with
    | true => rfl
    | false =>
      show (node rule.text (some .failed) _).leavesOpen = false
      rw [leavesOpen_failed hwf, hsingle]
      rfl

/-- The nodes of a block are tried for its letter, and what follows the block for the
    letters that follow. -/
theorem Block.tried_append (hkb : kb.WellFormed) (h : Block kb l v ts) (ls : List Letter)
    (us : List Trace) :
    tried (l :: ls) (ts ++ us) = ts.flatMap (fun t => (l, t) :: t.triedBelow) ++ tried ls us := by
  cases h with
  | recalled | declared =>
    exact tried_append_of_closed (List.forall_mem_nil _) (leavesOpen_letter l _) us
  | derived hopen hrules =>
    have hwf : ∀ r ∈ kb.rules.filter fun r => l ∈ r.conclusion.letters,
        r.WellFormed kb.declared :=
      fun r hr => hkb.rules r (List.mem_filter.mp hr).1
    generalize (kb.rules.filter fun r => l ∈ r.conclusion.letters) = rules at hrules hwf
    cases hrules with
    | exhausted hall =>
      exact tried_append_of_closed (hall.leavesOpen hwf) (leavesOpen_letter l _) us
    | decided hbefore hdecision =>
      obtain ⟨hwfbefore, hwfrule, -⟩ := List.forall_mem_append.mp hwf |>.imp_right
        List.forall_mem_cons.mp
      exact tried_append_of_closed (hbefore.leavesOpen hwfbefore) (hdecision.closes hwfrule) us

theorem Blocks.tried_append (hkb : kb.WellFormed) {ls : List Letter} {values : List Bool}
    (h : Blocks kb ls values ts) (ms : List Letter) (us : List Trace) :
    tried (ls ++ ms) (ts ++ us) = tried ls ts ++ tried ms us := by
  induction ls generalizing values ts with
  | nil =>
    cases h
    rfl
  | cons l ls ih =>
    cases h with
    | cons hblock hrest =>
      rw [List.append_assoc, List.cons_append, hblock.tried_append hkb, hblock.tried_append hkb,
        ih hrest, List.append_assoc]

end Law

-- ============================================================================
-- Derivations
-- ============================================================================

/-- The letters that a task asks for. -/
def Task.letters : Task → List Letter
  | .goal f => f.letters
  | .byRules a _ => [a.letter]

/-- The operands of a goal leave nodes of their own. -/
theorem tried_compound {kb : KnowledgeBase} (hkb : kb.WellFormed) {left right : Formula}
    {c d : Cache} {x : Bool} {ts : List Trace} (hagrees : left.AgreesWith kb.declared)
    (hleft : Derives kb (.goal left) c x ts d) (k : Connective) (us : List Trace) :
    Trace.tried (Formula.compound k left right).letters (ts ++ us) =
      Trace.tried left.letters ts ++ Trace.tried right.letters us := by
  obtain ⟨values, hblocks, -⟩ := recorded_of_derives hkb hleft hagrees
  rw [Formula.letters_compound, hblocks.tried_append hkb]

/-- Every node of a derivation is read, in the order of the walk. -/
theorem map_snd_tried_of_derives {kb : KnowledgeBase} (hkb : kb.WellFormed) {task : Task}
    {c d : Cache} {v : Bool} {ts : List Trace} (h : Derives kb task c v ts d)
    (htask : task.WellFormed kb) :
    (Trace.tried task.letters ts).map Prod.snd = Trace.preorderAll ts := by
  induction h with
  | recalled | declared | exhausted | byFacts =>
    exact congrArg (List.map Prod.snd) (Trace.tried_leaf _ _ _)
  | derived hget hopen hrules ih =>
    exact ih fun r hr => hkb.rules r (KnowledgeBase.mem_rulesFor_atom.mp hr).1
  | compound hleft hright ihl ihr =>
    obtain ⟨hagreesl, hagreesr⟩ := Formula.agreesWith_compound.mp htask
    rw [Trace.preorderAll_append, ← ihl hagreesl, ← ihr hagreesr, ← List.map_append]
    exact congrArg _ (tried_compound hkb hagreesl hleft _ _)
  | proved hopen hpremise ih | committed hopen hatom hpremise ih =>
    have hwf := htask _ List.mem_cons_self
    rw [Trace.settled, Trace.preorderAll_node, ← ih hwf.premise_agrees]
    exact congrArg (List.map Prod.snd) (Trace.tried_settled hwf _ _)
  | @next a rule rest c d e v ts us hopen hcompound hpremise hrest ih ihrest =>
    obtain ⟨hwf, hwfrest⟩ := List.forall_mem_cons.mp htask
    rw [Trace.preorderAll, Trace.settled, Trace.preorder, ← ih hwf.premise_agrees,
      ← ihrest hwfrest]
    exact (congrArg _ (Trace.tried_next hwf hcompound ts us)).trans List.map_append

end HornClause
