/-
  HornClause.Proofs.Settlement

  What is settled in a derivation stays settled. A letter is settled for good by a leaf
  that says that no rule was left for it, or by a rule that proved this letter and no
  other (`SettledBy`). From then on the cache holds its value, so no rule is tried for it
  again: all that the trace shows of it is a mark.

  `Settlement` is what holds of the nodes of a derivation, each with the letter it was
  tried for (`Trace.tried`), between the caches before and after: no rule is tried for a
  letter whose value is in the cache, and nodes that settle a letter have put its value
  there.

  The walk comes to the node of a rule before the nodes below it, while the cache is
  written after them. So the nodes below a rule must not concern the letter that the rule
  proves. This is where levels come in: a letter that gets its plain value at one level
  gets it from letters that have theirs at the level before (`KnowledgeBase.within`).
-/
import HornClause.Proofs.Provenance
import HornClause.Proofs.TriedLetters

namespace HornClause

-- ============================================================================
-- Nodes that settle a letter
-- ============================================================================

section Nodes

variable {kb : KnowledgeBase} {k l : Letter} {v : Bool} {rule : Rule} {ts : List Trace}

/-- What the label and the outcome of a node tell, if it settles a letter. -/
theorem SettledBy.label_outcome {t : Trace} (h : SettledBy kb l v t) :
    (v = false ∧ t.label = l.text ∧ t.outcome = some .failed) ∨
      (v = true ∧ t.outcome = some .proved ∧
        ∃ rule ∈ kb.rules, rule.conclusion.letters = [l] ∧ t.label = rule.text) := by
  cases h with
  | exhausted => exact Or.inl ⟨rfl, rfl, rfl⟩
  | concluded hrule hconclusion => exact Or.inr ⟨rfl, rfl, _, hrule, hconclusion, rfl⟩

theorem not_settledBy_mark {w : Bool} : ¬ SettledBy kb l v (.leaf k.text (.cached w)) := by
  intro h
  rcases h.label_outcome with ⟨-, -, houtcome⟩ | ⟨-, houtcome, -⟩ <;> cases w <;> cases houtcome

theorem not_settledBy_fact (hkb : kb.WellFormed) : ¬ SettledBy kb l v (.leaf k.text .proved) := by
  intro h
  rcases h.label_outcome with ⟨-, -, houtcome⟩ | ⟨-, -, rule, hrule, -, hlabel⟩
  · cases houtcome
  · exact (hkb.rules rule hrule).text_ne_letter k hlabel.symm

theorem not_settledBy_failed (hrule : rule.WellFormed kb.declared) :
    ¬ SettledBy kb l v (.settled rule.text false ts) := by
  intro h
  rcases h.label_outcome with ⟨-, hlabel, -⟩ | ⟨-, houtcome, -⟩
  · exact hrule.text_ne_letter l hlabel
  · cases houtcome

theorem settledBy_exhausted (h : SettledBy kb l v (.leaf k.text .failed)) :
    k = l ∧ v = false := by
  rcases h.label_outcome with ⟨hv, hlabel, -⟩ | ⟨-, houtcome, -⟩
  · exact ⟨Letter.text_inj hlabel, hv⟩
  · cases houtcome

/-- A rule that has proved its goal settles this goal, if it has no other conclusion, and
    nothing else. -/
theorem settledBy_proved (hkb : kb.WellFormed) (hrule : rule.WellFormed kb.declared)
    (hk : k ∈ rule.conclusion.letters) (h : SettledBy kb l v (.settled rule.text true ts)) :
    k = l ∧ v = true ∧ rule.conclusion.letters = [l] := by
  rcases h.label_outcome with ⟨-, -, houtcome⟩ | ⟨hv, -, other, hother, hconclusion, hlabel⟩
  · cases houtcome
  · have hletters : rule.conclusion.letters = [l] := by
      rw [(hrule.letters_eq (hkb.rules other hother) hlabel).2, hconclusion]
    rw [hletters, List.mem_singleton] at hk
    exact ⟨hk, hv, hletters⟩

end Nodes

-- ============================================================================
-- Levels
-- ============================================================================

/-- The letters that a derivation can come to within `n` levels: the declared ones, and
    those with a plain value. -/
def KnowledgeBase.within (kb : KnowledgeBase) (n : Nat) : Set Letter :=
  {l | l ∈ kb.declared ∨ l ∈ Plain.settled kb n}

namespace KnowledgeBase

variable {kb : KnowledgeBase} {m n : Nat} {a : Atom} {v : Bool}

theorem within_mono (h : m ≤ n) : kb.within m ⊆ kb.within n := by
  intro l hl
  exact hl.imp_right fun hsettled => Plain.settled_subset h hsettled

theorem mem_within (ha : a.AgreesWith kb.declared) (h : Plain.prove kb n a = some v) :
    a.letter ∈ kb.within n := by
  cases hvalue : a.value with
  | true => exact Or.inl (ha.mp hvalue)
  | false =>
    have hatom : a = ⟨a.letter, false⟩ := Atom.ext rfl hvalue
    rw [hatom] at h
    exact Or.inr (Plain.mem_settled.mpr ⟨v, h⟩)

theorem not_mem_within (hnot : a.letter ∉ kb.declared) (hfalse : a.value = false)
    (h : Plain.prove kb n a = none) : a.letter ∉ kb.within n := by
  rintro (hmem | hmem)
  · exact hnot hmem
  · obtain ⟨v, hv⟩ := Plain.mem_settled.mp hmem
    have hatom : a = ⟨a.letter, false⟩ := Atom.ext rfl hfalse
    rw [← hatom, h] at hv
    cases hv

end KnowledgeBase

namespace Plain

variable {kb : KnowledgeBase}

/-- An atom that is no fact has its value from some level on, and not at the level before. -/
theorem exists_first_level {n : Nat} {a : Atom} {v : Bool} (hfalse : a.value = false)
    (h : prove kb n a = some v) :
    ∃ m < n, prove kb m a = none ∧ prove kb (m + 1) a = some v := by
  induction n with
  | zero =>
    rw [prove_zero hfalse] at h
    cases h
  | succ n ih =>
    cases hn : prove kb n a with
    | none => exact ⟨n, Nat.lt_succ_self n, hn, h⟩
    | some w =>
      obtain rfl : w = v := Option.some.inj ((prove_below_succ n a w hn).symm.trans h)
      obtain ⟨m, hm, hfirst⟩ := ih hn
      exact ⟨m, Nat.lt_succ_of_lt hm, hfirst⟩

/-- A first rule that does not hold by the facts alone has a premise with a value, on
    which it depends what follows. -/
theorem exists_premise_of_tryRules {f : Atom → Option Bool} {rule : Rule} {rest : List Rule}
    {v : Bool} (hopen : rule.premise.evaluate = false)
    (h : tryRules f (rule :: rest) = some v) :
    ∃ x, resolve f rule.premise = some x ∧
      (if x then some true else if rule.premise.isAtom then some false
        else tryRules f rest) = some v := by
  rw [tryRules, hopen, if_neg Bool.false_ne_true] at h
  exact Option.bind_eq_some_iff.mp h

end Plain

-- ============================================================================
-- Settlements
-- ============================================================================

/-- If the first of two nodes settles its letter, the second one is not another attempt
    at the letter: if it belongs to the letter at all, it is a mark with the same value. -/
def Respects (kb : KnowledgeBase) (e e' : Letter × Trace) : Prop :=
  ∀ v, SettledBy kb e.1 v e.2 → e'.1 = e.1 → e'.2 = .leaf e.1.text (.cached v)

/-- What holds of the nodes `es` that a derivation records between the caches `c` and `d`,
    if it comes to no letters but those of `reach`. -/
structure Settlement (kb : KnowledgeBase) (reach : Set Letter) (c : Cache)
    (es : List (Letter × Trace)) (d : Cache) : Prop where
  kept : c.KeptIn d
  trueTo : d.TrueTo kb
  written : ∀ (l : Letter) v, d.get? l.char = some v → c.get? l.char = some v ∨ l ∈ reach
  letters : ∀ e ∈ es, e.1 ∈ reach
  /-- A node settles no letter but its own. -/
  owned : ∀ e ∈ es, ∀ l v, SettledBy kb l v e.2 → e.1 = l
  /-- No rule is tried for a letter whose value is known. -/
  recalled : ∀ e ∈ es, ∀ v, c.get? e.1.char = some v → e.2 = .leaf e.1.text (.cached v)
  /-- A letter that is settled has its value in the cache. -/
  saved : ∀ e ∈ es, ∀ v, SettledBy kb e.1 v e.2 → d.get? e.1.char = some v
  order : es.Pairwise (Respects kb)

namespace Settlement

variable {kb : KnowledgeBase} {reach reach' : Set Letter} {c d e : Cache}
  {es fs : List (Letter × Trace)} {v : Bool}

theorem nil (hc : c.TrueTo kb) : Settlement kb reach c [] c where
  kept := .refl c
  trueTo := hc
  written _ _ h := Or.inl h
  letters := List.forall_mem_nil _
  owned := List.forall_mem_nil _
  recalled := List.forall_mem_nil _
  saved := List.forall_mem_nil _
  order := .nil

theorem mono (h : Settlement kb reach c es d) (hsub : reach ⊆ reach') :
    Settlement kb reach' c es d :=
  { h with
    written := fun l v hget => (h.written l v hget).imp_right fun hl => hsub hl
    letters := fun e he => hsub (h.letters e he) }

/-- What the first part settles is in the cache when the second part begins. -/
theorem append (h : Settlement kb reach c es d) (h' : Settlement kb reach d fs e) :
    Settlement kb reach c (es ++ fs) e where
  kept symbol v hget := h'.kept symbol v (h.kept symbol v hget)
  trueTo := h'.trueTo
  written l v hget := (h'.written l v hget).elim (h.written l v) Or.inr
  letters := List.forall_mem_append.mpr ⟨h.letters, h'.letters⟩
  owned := List.forall_mem_append.mpr ⟨h.owned, h'.owned⟩
  recalled := List.forall_mem_append.mpr
    ⟨h.recalled, fun x hx v hget => h'.recalled x hx v (h.kept _ v hget)⟩
  saved := List.forall_mem_append.mpr
    ⟨fun x hx v hsettled => h'.kept _ v (h.saved x hx v hsettled), h'.saved⟩
  order := by
    refine List.pairwise_append.mpr ⟨h.order, h'.order, fun x hx y hy v hsettled hsame => ?_⟩
    have hget := h.saved x hx v hsettled
    rw [← hsame] at hget ⊢
    exact h'.recalled y hy v hget

/-- A node before all others of its letter that settles nothing, or what is saved by the
    end. -/
theorem cons {l : Letter} {t : Trace} (h : Settlement kb reach c es d) (hreach : l ∈ reach)
    (hother : ∀ e ∈ es, e.1 ≠ l) (hget : c.get? l.char = none)
    (howned : ∀ k v, SettledBy kb k v t → l = k)
    (hsaved : ∀ v, SettledBy kb l v t → d.get? l.char = some v) :
    Settlement kb reach c ((l, t) :: es) d where
  kept := h.kept
  trueTo := h.trueTo
  written := h.written
  letters := List.forall_mem_cons.mpr ⟨hreach, h.letters⟩
  owned := List.forall_mem_cons.mpr ⟨howned, h.owned⟩
  recalled := by
    refine List.forall_mem_cons.mpr ⟨fun v hsome => ?_, h.recalled⟩
    rw [hget] at hsome
    cases hsome
  saved := List.forall_mem_cons.mpr ⟨hsaved, h.saved⟩
  order := List.pairwise_cons.mpr ⟨fun e he v _ hsame => absurd hsame (hother e he), h.order⟩

theorem insert {a : Atom} (h : Settlement kb reach c es d) (hnot : a.letter ∉ kb.declared)
    (hfalse : a.value = false) (hvalue : Plain.value kb a = some v) (hreach : a.letter ∈ reach) :
    Settlement kb reach c es (d.insert a.symbol v) := by
  have ha : a.AgreesWith kb.declared := iff_of_false (by simp [hfalse]) hnot
  have hkept : d.KeptIn (d.insert a.symbol v) := (Cache.KeptIn.refl d).insert h.trueTo ha hvalue
  exact
    { h with
      kept := fun symbol w hget => hkept symbol w (h.kept symbol w hget)
      trueTo := h.trueTo.insert hnot hfalse hvalue
      written := by
        intro l w hget
        rw [Cache.get?_insert] at hget
        split at hget
        · rename_i hsame
          obtain rfl : l = a.letter := Letter.ext hsame
          exact Or.inr hreach
        · exact h.written l w hget
      saved := fun x hx w hsettled => hkept _ w (h.saved x hx w hsettled) }

/-- A value that is looked up changes nothing. -/
theorem mark {l : Letter} (hc : c.TrueTo kb) (hreach : l ∈ reach)
    (hget : c.get? l.char = some v) :
    Settlement kb reach c [(l, .leaf l.text (.cached v))] c where
  kept := .refl c
  trueTo := hc
  written _ _ h := Or.inl h
  letters := List.forall_mem_singleton.mpr hreach
  owned := List.forall_mem_singleton.mpr fun _ _ h => absurd h not_settledBy_mark
  recalled := by
    refine List.forall_mem_singleton.mpr fun w hsome => ?_
    rw [hget] at hsome
    cases hsome
    rfl
  saved := List.forall_mem_singleton.mpr fun _ h => absurd h not_settledBy_mark
  order := List.pairwise_singleton _ _

/-- The premise of a rule is remembered, if it is an atom. -/
theorem learn_premise {f : Formula} {n : Nat} (h : Settlement kb (kb.within n) c es d)
    (hagrees : f.AgreesWith kb.declared) (hopen : f.evaluate = false)
    (hvalue : Plain.resolve (Plain.prove kb n) f = some v) :
    Settlement kb (kb.within n) c es (d.learn f v) := by
  cases f with
  | compound k left right => exact h
  | atom b =>
    have hb := Formula.agreesWith_atom.mp hagrees
    exact h.insert (hb.not_mem hopen) hopen (Plain.prove_below_value n b v hvalue)
      (KnowledgeBase.mem_within hb hvalue)

/-- The conclusion of a rule for an atom is remembered, if it is this atom. -/
theorem learn_conclusion {a : Atom} {f : Formula} (h : Settlement kb reach c es d)
    (hletter : a.letter ∈ f.letters) (hnot : a.letter ∉ kb.declared) (hfalse : a.value = false)
    (hvalue : Plain.value kb a = some v) (hreach : a.letter ∈ reach) :
    Settlement kb reach c es (d.learn f v) := by
  cases f with
  | compound k left right => exact h
  | atom b =>
    have hsame : b.symbol = a.symbol := by
      rw [Formula.letters_atom, List.mem_singleton] at hletter
      exact congrArg Letter.char hletter.symm
    show Settlement kb reach c es (d.insert b.symbol v)
    rw [hsame]
    exact h.insert hnot hfalse hvalue hreach

end Settlement

theorem Cache.get?_learn {c : Cache} {f : Formula} {l : Letter} {v : Bool} (h : f.letters = [l]) :
    (c.learn f v).get? l.char = some v := by
  cases f with
  | atom b =>
    obtain rfl : b.letter = l := (List.cons.inj h).1
    exact (Cache.get?_insert c b.symbol b.symbol v).trans (if_pos rfl)
  | compound k left right =>
    have hlength := Formula.one_lt_length_letters (f := .compound k left right) rfl
    rw [h] at hlength
    exact absurd hlength (Nat.lt_irrefl 1)

-- ============================================================================
-- Derivations
-- ============================================================================

/-- The letters that a task can come to within `n` levels below it. -/
def Task.reach (kb : KnowledgeBase) (n : Nat) : Task → Set Letter
  | .goal _ => kb.within n
  | .byRules a _ => insert a.letter (kb.within n)

/-- An atom that is no fact and not in the cache has the value that the rules which are
    left give it at level `n`, and had none there itself. -/
structure Atom.OpenAt (kb : KnowledgeBase) (n : Nat) (c : Cache) (a : Atom) (rules : List Rule)
    (v : Bool) : Prop where
  undeclared : a.letter ∉ kb.declared
  isFalse : a.value = false
  uncached : c.get? a.symbol = none
  rules_for : ∀ r ∈ rules, r ∈ kb.rulesFor (.atom a)
  unsettled : Plain.prove kb n a = none
  value : Plain.value kb a = some v
  decided : Plain.tryRules (Plain.prove kb n) rules = some v

namespace Atom.OpenAt

variable {kb : KnowledgeBase} {n : Nat} {c d : Cache} {a : Atom} {rule : Rule}
  {rules rest : List Rule} {v : Bool} {es : List (Letter × Trace)}

theorem not_mem_within (h : a.OpenAt kb n c rules v) : a.letter ∉ kb.within n :=
  KnowledgeBase.not_mem_within h.undeclared h.isFalse h.unsettled

theorem mem_rules (h : a.OpenAt kb n c (rule :: rest) v) :
    rule ∈ kb.rules ∧ a.letter ∈ rule.conclusion.letters :=
  KnowledgeBase.mem_rulesFor_atom.mp (h.rules_for rule List.mem_cons_self)

/-- A derivation within level `n` leaves the atom open. -/
theorem uncached_of_settlement (h : a.OpenAt kb n c rules v)
    (hsettles : Settlement kb (kb.within n) c es d) : d.get? a.symbol = none := by
  cases hget : d.get? a.symbol with
  | none => rfl
  | some w =>
    rcases hsettles.written a.letter w hget with hbefore | hreach
    · have huncached := h.uncached
      rw [Atom.symbol, hbefore] at huncached
      cases huncached
    · exact absurd hreach h.not_mem_within

/-- A node of the atom stands before the nodes of a derivation within level `n`, which do
    not concern the atom. -/
theorem cons_settlement {t : Trace} (h : a.OpenAt kb n c rules v)
    (hsettles : Settlement kb (insert a.letter (kb.within n)) c es d)
    (hletters : ∀ e ∈ es, e.1 ∈ kb.within n) (howned : ∀ k w, SettledBy kb k w t → a.letter = k)
    (hsaved : ∀ w, SettledBy kb a.letter w t → d.get? a.symbol = some w) :
    Settlement kb (insert a.letter (kb.within n)) c ((a.letter, t) :: es) d := by
  refine hsettles.cons (Set.mem_insert _ _) (fun e he hsame => ?_) h.uncached howned hsaved
  have hmem := hletters e he
  rw [hsame] at hmem
  exact h.not_mem_within hmem

/-- The node of a rule that has failed settles nothing. -/
theorem cons_failed {ts : List Trace} (hkb : kb.WellFormed) (h : a.OpenAt kb n c (rule :: rest) v)
    (hsettles : Settlement kb (kb.within n) c es d) :
    Settlement kb (insert a.letter (kb.within n)) c
      ((a.letter, .settled rule.text false ts) :: es) d := by
  have hnot : ∀ k w, ¬ SettledBy kb k w (.settled rule.text false ts) :=
    fun _ _ => not_settledBy_failed (hkb.rules rule h.mem_rules.1)
  exact h.cons_settlement (hsettles.mono (Set.subset_insert _ _)) hsettles.letters
    (fun k w hsettled => absurd hsettled (hnot k w)) fun w hsettled => absurd hsettled (hnot _ w)

/-- The node of a rule that has proved the atom settles it, if the conclusion is saved. -/
theorem cons_proved {ts : List Trace} (hkb : kb.WellFormed)
    (h : a.OpenAt kb n c (rule :: rest) true) (hsettles : Settlement kb (kb.within n) c es d) :
    Settlement kb (insert a.letter (kb.within n)) c
      ((a.letter, .settled rule.text true ts) :: es) (d.learn rule.conclusion true) := by
  obtain ⟨hrule, hletter⟩ := h.mem_rules
  have hproved : ∀ k w, SettledBy kb k w (.settled rule.text true ts) →
      a.letter = k ∧ w = true ∧ rule.conclusion.letters = [k] :=
    fun k w => settledBy_proved hkb (hkb.rules rule hrule) hletter
  have hlearnt := (hsettles.mono (Set.subset_insert a.letter _)).learn_conclusion hletter
    h.undeclared h.isFalse h.value (Set.mem_insert _ _)
  refine h.cons_settlement hlearnt hsettles.letters
    (fun k w hsettled => (hproved k w hsettled).1) fun w hsettled => ?_
  obtain ⟨-, rfl, hconclusion⟩ := hproved a.letter w hsettled
  exact Cache.get?_learn hconclusion

end Atom.OpenAt

/-- A task has a plain value at level `n`. -/
def Task.ValuedAt (kb : KnowledgeBase) (n : Nat) (c : Cache) : Task → Bool → Prop
  | .goal f, v => f.AgreesWith kb.declared ∧ Plain.resolve (Plain.prove kb n) f = some v
  | .byRules a rules, v => a.OpenAt kb n c rules v

/-- Every derivation of a plain value comes to that value, and settles letters once. -/
theorem settlement_of_derives {kb : KnowledgeBase} (hkb : kb.WellFormed) {task : Task}
    {c d : Cache} {v : Bool} {ts : List Trace} (h : Derives kb task c v ts d) {n : Nat} {w : Bool}
    (hc : c.TrueTo kb) (htask : task.ValuedAt kb n c w) :
    v = w ∧ Settlement kb (task.reach kb n) c (Trace.tried task.letters ts) d := by
  -- The level goes down where an atom is derived: its premises have their values at the
  -- last level at which the atom itself has none.
  induction h generalizing n w with
  | @recalled a c v hget =>
    obtain ⟨hagrees, hvalue⟩ := htask
    have ha := Formula.agreesWith_atom.mp hagrees
    have hsame : v = w := Option.some.inj
      ((hc.value_eq ha hget).symm.trans (Plain.prove_below_value n a w hvalue))
    refine ⟨hsame, ?_⟩
    rw [Task.letters, Formula.letters_atom, Trace.tried_leaf]
    exact .mark hc (KnowledgeBase.mem_within ha hvalue) hget
  | @declared a c hget hfact =>
    obtain ⟨hagrees, hvalue⟩ := htask
    have ha := Formula.agreesWith_atom.mp hagrees
    have hsame : true = w := Option.some.inj ((Plain.prove_of_value hfact).symm.trans hvalue)
    refine ⟨hsame, ?_⟩
    rw [Task.letters, Formula.letters_atom, Trace.tried_leaf]
    exact (Settlement.nil hc).cons (KnowledgeBase.mem_within ha hvalue)
      (List.forall_mem_nil _) hget
      (fun _ _ hsettled => absurd hsettled (not_settledBy_fact hkb))
      fun _ hsettled => absurd hsettled (not_settledBy_fact hkb)
  | @derived a c d v ts hget hopen hrules ih =>
    obtain ⟨hagrees, hvalue⟩ := htask
    have ha := Formula.agreesWith_atom.mp hagrees
    obtain ⟨m, hm, hnone, hsome⟩ := Plain.exists_first_level hopen hvalue
    have hopenAt : a.OpenAt kb m c (kb.rulesFor (.atom a)) w :=
      ⟨ha.not_mem hopen, hopen, hget, fun _ hr => hr, hnone,
        Plain.prove_below_value n a w hvalue, (Plain.prove_succ hopen).symm.trans hsome⟩
    obtain ⟨hsame, hsettles⟩ := ih hc hopenAt
    refine ⟨hsame, hsettles.mono ?_⟩
    exact Set.insert_subset (KnowledgeBase.mem_within ha hvalue) (KnowledgeBase.within_mono hm.le)
  | @compound k left right c d e x y ts us hleft hright ihl ihr =>
    obtain ⟨hagrees, hvalue⟩ := htask
    obtain ⟨hagreesl, hagreesr⟩ := Formula.agreesWith_compound.mp hagrees
    obtain ⟨x', y', hx, hy, rfl⟩ := Plain.resolve_compound_eq_some_iff.mp hvalue
    obtain ⟨rfl, hsettles⟩ := ihl hc ⟨hagreesl, hx⟩
    obtain ⟨rfl, hsettles'⟩ := ihr hsettles.trueTo ⟨hagreesr, hy⟩
    refine ⟨rfl, ?_⟩
    rw [Task.letters, tried_compound hkb hagreesl hleft]
    exact hsettles.append hsettles'
  | @exhausted a c =>
    have hopenAt : a.OpenAt kb n c [] w := htask
    obtain rfl : false = w := Option.some.inj hopenAt.decided
    refine ⟨rfl, ?_⟩
    rw [Task.letters, Trace.tried_leaf]
    have hsaved := (Settlement.nil hc).insert hopenAt.undeclared hopenAt.isFalse hopenAt.value
      (Set.mem_insert a.letter (kb.within n))
    refine hopenAt.cons_settlement hsaved (List.forall_mem_nil _)
      (fun k v hsettled => (settledBy_exhausted hsettled).1) fun v hsettled => ?_
    rw [(settledBy_exhausted hsettled).2, Cache.get?_insert, if_pos rfl]
  | @byFacts a rule rest c hholds =>
    have hopenAt : a.OpenAt kb n c (rule :: rest) w := htask
    have hdecided := hopenAt.decided
    rw [Plain.tryRules, if_pos hholds] at hdecided
    obtain rfl : true = w := Option.some.inj hdecided
    refine ⟨rfl, ?_⟩
    rw [Task.letters, Trace.tried_leaf]
    exact hopenAt.cons_proved hkb (.nil hc)
  | @proved a rule rest c d ts hopen hpremise ih =>
    have hopenAt : a.OpenAt kb n c (rule :: rest) w := htask
    have hwf := hkb.rules rule hopenAt.mem_rules.1
    obtain ⟨x, hx, hw⟩ := Plain.exists_premise_of_tryRules hopen hopenAt.decided
    obtain ⟨rfl, hsettles⟩ := ih hc ⟨hwf.premise_agrees, hx⟩
    obtain rfl : true = w := Option.some.inj hw
    refine ⟨rfl, ?_⟩
    rw [Task.letters, Trace.tried_settled hwf]
    exact hopenAt.cons_proved hkb (hsettles.learn_premise hwf.premise_agrees hopen hx)
  | @committed a rule rest c d ts hopen hatom hpremise ih =>
    have hopenAt : a.OpenAt kb n c (rule :: rest) w := htask
    have hwf := hkb.rules rule hopenAt.mem_rules.1
    obtain ⟨x, hx, hw⟩ := Plain.exists_premise_of_tryRules hopen hopenAt.decided
    obtain ⟨rfl, hsettles⟩ := ih hc ⟨hwf.premise_agrees, hx⟩
    rw [if_neg Bool.false_ne_true, if_pos hatom] at hw
    refine ⟨Option.some.inj hw, ?_⟩
    rw [Task.letters, Trace.tried_settled hwf]
    exact hopenAt.cons_failed hkb (hsettles.learn_premise hwf.premise_agrees hopen hx)
  | @next a rule rest c d e v ts us hopen hcompound hpremise hrest ih ihrest =>
    have hopenAt : a.OpenAt kb n c (rule :: rest) w := htask
    have hwf := hkb.rules rule hopenAt.mem_rules.1
    obtain ⟨x, hx, hw⟩ := Plain.exists_premise_of_tryRules hopen hopenAt.decided
    obtain ⟨rfl, hsettles⟩ := ih hc ⟨hwf.premise_agrees, hx⟩
    rw [if_neg Bool.false_ne_true, hcompound, if_neg Bool.false_ne_true] at hw
    have hleft : a.OpenAt kb n d rest w :=
      ⟨hopenAt.undeclared, hopenAt.isFalse, hopenAt.uncached_of_settlement hsettles,
        fun r hr => hopenAt.rules_for r (List.mem_cons_of_mem rule hr), hopenAt.unsettled,
        hopenAt.value, hw⟩
    obtain ⟨hsame, hsettles'⟩ := ihrest hsettles.trueTo hleft
    refine ⟨hsame, ?_⟩
    rw [Task.letters, Trace.tried_next hwf hcompound]
    exact (hopenAt.cons_failed hkb hsettles).append hsettles'

-- ============================================================================
-- Answers
-- ============================================================================

/-- A letter that is settled in the trace of an answer is never derived again.

    Below the root, every node is tried for one letter, those of a block for the letter of
    the block. If a node settles a letter, no node after it settles the letter as well,
    and a node after it that is tried for the letter is a leaf which marks the letter with
    the same value. -/
theorem settled_for_good {text : String} {kb : KnowledgeBase}
    (hkb : KnowledgeBase.parse text = .ok kb) (settings : Settings) {query : String}
    {answer : Answer} (hask : (Session.install { settings } kb).ask query = .ok answer) :
    ∃ goal, Formula.parse kb.known .query query = .ok goal ∧
      answer.trace.cursor.toList =
        answer.trace :: (Trace.tried goal.letters answer.trace.children).map Prod.snd ∧
      (∀ l v block ls us, Block kb l v block → Trace.tried (l :: ls) (block ++ us) =
        block.flatMap (fun t => (l, t) :: t.triedBelow) ++ Trace.tried ls us) ∧
      (Trace.tried goal.letters answer.trace.children).Pairwise fun e e' =>
        ∀ l v, SettledBy kb l v e.2 →
          (∀ w, ¬ SettledBy kb l w e'.2) ∧ (e'.1 = l → e'.2 = .leaf l.text (.cached v)) := by
  have hwf := KnowledgeBase.wellFormed_of_parse hkb
  obtain ⟨goal, ts, d, hquery, hderives, htrace⟩ := exists_derives_of_ask hask
  have hgoal := hwf.agreesWith hquery
  have hvalue : Plain.resolve (Plain.prove kb 26) goal = some answer.result :=
    result_of_ask hwf hgoal hquery hask
  obtain ⟨-, hsettles⟩ :=
    settlement_of_derives hwf hderives (Cache.trueTo_empty kb) ⟨hgoal, hvalue⟩
  have hchildren : answer.trace.children = ts := by rw [htrace, Trace.settled, Trace.children_node]
  rw [Trace.toList_cursor, hchildren]
  refine ⟨goal, hquery, ?_, fun l v block ls us hblock => hblock.tried_append hwf ls us, ?_⟩
  · exact congrArg _ (map_snd_tried_of_derives hwf hderives hgoal).symm
  · refine hsettles.order.imp_of_mem fun {e e'} he he' hrespects l v hsettled => ?_
    obtain rfl := hsettles.owned e he l v hsettled
    refine ⟨fun w hagain => ?_, hrespects v hsettled⟩
    rw [hrespects v hsettled (hsettles.owned e' he' e.1 w hagain)] at hagain
    exact not_settledBy_mark hagain

/-- `B` and `E` are settled below the first rule for `F`, and marked when they come up
    again, below the second one and in the query. -/
theorem settled_for_good_sample :
    ∃ answer goal, (Session.install {} sample).ask "FE" = .ok answer ∧
      Formula.parse sample.known .query "FE" = .ok goal ∧
      (Trace.tried goal.letters answer.trace.children).map
          (fun e => (e.1.char, e.2.label, e.2.outcome)) =
        [('F', "BE=>F", some .failed), ('B', "A=>B", some .proved), ('E', "E", some .failed),
          ('F', "D=>F", some .proved), ('D', "AB=>CD", some .proved), ('A', "A", some .proved),
          ('B', "B", some .alreadyProved), ('E', "E", some .alreadyFailed)] ∧
      (Trace.tried goal.letters answer.trace.children).Pairwise fun e e' =>
        ∀ l v, SettledBy sample l v e.2 →
          (∀ w, ¬ SettledBy sample l w e'.2) ∧ (e'.1 = l → e'.2 = .leaf l.text (.cached v)) := by
  obtain ⟨answer, hask, htried⟩ := Except.exists_ok_of_any
    (x := (Session.install {} sample).ask "FE")
    (p := fun answer => (Formula.parse sample.known .query "FE").toOption.any fun goal =>
      (Trace.tried goal.letters answer.trace.children).map
          (fun e => (e.1.char, e.2.label, e.2.outcome)) ==
        [('F', "BE=>F", some .failed), ('B', "A=>B", some .proved), ('E', "E", some .failed),
          ('F', "D=>F", some .proved), ('D', "AB=>CD", some .proved), ('A', "A", some .proved),
          ('B', "B", some .alreadyProved), ('E', "E", some .alreadyFailed)]) (by decide +kernel)
  obtain ⟨goal, hquery, -, -, horder⟩ := settled_for_good parse_sample {} hask
  rw [hquery] at htried
  exact ⟨answer, goal, hask, hquery, eq_of_beq htried, horder⟩

/-- The root is left out with reason. It carries the query, and if the query is written
    like a rule, the root looks like a second node of that rule. -/
theorem root_settles_again :
    KnowledgeBase.parse sampleText = .ok sample ∧
      ∃ answer root fact leaf, (Session.install {} sample).ask "A=>B" = .ok answer ∧
        answer.trace.cursor.toList = [root, fact, leaf] ∧
        SettledBy sample ⟨'B', rfl⟩ true root ∧ SettledBy sample ⟨'B', rfl⟩ true leaf := by
  obtain ⟨answer, hask, hnodes⟩ := Except.exists_ok_of_any
    (x := (Session.install {} sample).ask "A=>B")
    (p := fun answer => answer.trace.preorder.map (fun t => (t.label, t.outcome)) ==
      [("A=>B", some .proved), ("A", some .proved), ("A=>B", some .proved)]) (by decide +kernel)
  obtain ⟨rule, hrule, hboth⟩ := List.any_eq_true.mp
    (show sample.rules.any (fun r =>
      r.text == "A=>B" && r.conclusion.letters == [⟨'B', rfl⟩]) = true by decide +kernel)
  obtain ⟨htext, hconclusion⟩ := Bool.and_eq_true_iff.mp hboth
  have hsettles : ∀ t : Trace, (t.label, t.outcome) = ("A=>B", some .proved) →
      SettledBy sample ⟨'B', rfl⟩ true t := by
    intro t ht
    obtain ⟨hlabel, houtcome⟩ := Prod.mk.inj ht
    have hnode : t = .node rule.text (some .proved) t.children := by
      rw [eq_of_beq htext, ← hlabel, ← houtcome]
      cases t
      rfl
    rw [hnode]
    exact .concluded hrule (eq_of_beq hconclusion)
  obtain ⟨root, rest, hwalk, hroot, hrest⟩ := List.map_eq_cons_iff.mp (eq_of_beq hnodes)
  obtain ⟨fact, leaves, rfl, -, hleaves⟩ := List.map_eq_cons_iff.mp hrest
  obtain ⟨leaf, rfl, hleaf⟩ := List.map_eq_singleton_iff.mp hleaves
  rw [Trace.preorder_eq, ← Trace.toList_cursor] at hwalk
  exact ⟨parse_sample, answer, root, fact, leaf, hask, hwalk, hsettles root hroot,
    hsettles leaf hleaf⟩

end HornClause
