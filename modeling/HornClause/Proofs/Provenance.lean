/-
  HornClause.Proofs.Provenance

  Where the values come from that a trace shows as taken from the cache. Three events
  write to the cache, and each of them leaves a node:

    * a letter for which no rule is left has a leaf of its own, which says that it failed;
    * a rule that proved its one conclusion has a node that says so;
    * a rule with one letter for its premise has a node with the value of that letter.

  `SourceOf` collects these nodes. A value is written once its node is complete, with
  all that is below it, so the walk through a trace has left the node behind before it
  comes to a leaf where the value is looked up. `Explained` states this of a derivation
  between two caches: a mark refers to the cache before or to a node to its left, and
  so does every value of the cache after.
-/
import HornClause.Proofs.Answer
import HornClause.Proofs.BigStep
import HornClause.Trace.Walk

/-- An element of two lists in a row is in the first one, or in the second one behind all
    of the first. -/
theorem List.append_eq_append_cons {α : Type} {xs ys earlier later : List α} {x : α}
    (h : xs ++ ys = earlier ++ x :: later) :
    (∃ rest, xs = earlier ++ x :: rest) ∨
      ∃ before, earlier = xs ++ before ∧ ys = before ++ x :: later := by
  rcases List.append_eq_append_iff.mp h with hbehind | ⟨middle, hxs, hmiddle⟩
  · exact Or.inr hbehind
  · rcases List.cons_eq_append_iff.mp hmiddle with ⟨rfl, hys⟩ | ⟨rest, rfl, -⟩
    · exact Or.inr ⟨[], by rw [hxs, List.append_nil, List.append_nil], hys⟩
    · exact Or.inl ⟨rest, hxs⟩

namespace HornClause

-- ============================================================================
-- Nodes that write to the cache
-- ============================================================================

/-- A node that settles a letter for good: a leaf that says that no rule was left for it,
    or the node of a rule that proved this letter and no other. -/
inductive SettledBy (kb : KnowledgeBase) (l : Letter) : Bool → Trace → Prop where
  | exhausted : SettledBy kb l false (.leaf l.text .failed)
  | concluded {rule : Rule} {ts : List Trace} (hrule : rule ∈ kb.rules)
      (hconclusion : rule.conclusion.letters = [l]) :
      SettledBy kb l true (.node rule.text (some .proved) ts)

/-- A node from which the cache has the value of a letter: one that settles the letter,
    or that of a rule with this letter for its premise, which shows the value. -/
inductive SourceOf (kb : KnowledgeBase) (l : Letter) : Bool → Trace → Prop where
  | settled {v : Bool} {t : Trace} (h : SettledBy kb l v t) : SourceOf kb l v t
  | premise {rule : Rule} {v : Bool} {ts : List Trace} (hrule : rule ∈ kb.rules)
      (hpremise : rule.premise.letters = [l]) :
      SourceOf kb l v (.node rule.text (some (.fresh v)) ts)

/-- Some nodes in a row are a source of a value and all that is below it. -/
def HasSource (kb : KnowledgeBase) (l : Letter) (v : Bool) (nodes : List Trace) : Prop :=
  ∃ source, SourceOf kb l v source ∧ source.preorder <:+: nodes

/-- The rules that are left to try are rules for the atom. -/
def Task.RulesFor (kb : KnowledgeBase) : Task → Prop
  | .goal _ => True
  | .byRules a rules => ∀ r ∈ rules, r ∈ kb.rulesFor (.atom a)

variable {kb : KnowledgeBase} {l : Letter} {v : Bool}

theorem HasSource.mono {nodes others : List Trace} (h : HasSource kb l v nodes)
    (hsub : nodes <:+: others) : HasSource kb l v others := by
  obtain ⟨source, hsource, hinfix⟩ := h
  exact ⟨source, hsource, hinfix.trans hsub⟩

namespace Trace

theorem hasSource_node {label : String} {o : Option Outcome} {ts : List Trace}
    (h : SourceOf kb l v (.node label o ts)) :
    HasSource kb l v (preorderAll [.node label o ts]) := by
  refine ⟨_, h, ?_⟩
  rw [preorderAll_node, preorder_eq]
  exact List.infix_rfl

end Trace

-- ============================================================================
-- Explained traces
-- ============================================================================

open Trace in
/-- Between the caches `c` and `d`, every mark of some traces is that of a letter whose
    value is in `c` or has a source before the mark, and every value in `d` was in `c`
    or has a source among the traces. -/
structure Explained (kb : KnowledgeBase) (c : Cache) (ts : List Trace) (d : Cache) : Prop where
  marks : ∀ earlier mark later v, preorderAll ts = earlier ++ mark :: later →
    mark.outcome = some (.cached v) → ∃ l : Letter, mark = .leaf l.text (.cached v) ∧
      (c.get? l.char = some v ∨ HasSource kb l v earlier)
  writes : ∀ (l : Letter) v, d.get? l.char = some v →
    c.get? l.char = some v ∨ HasSource kb l v (preorderAll ts)

namespace Explained

open Trace

variable {c d e : Cache} {ts us : List Trace}

theorem refl (kb : KnowledgeBase) (c : Cache) : Explained kb c [] c where
  marks earlier mark later v hwalk _ := by
    rw [preorderAll] at hwalk
    exact absurd hwalk.symm (List.append_ne_nil_of_right_ne_nil _ (List.cons_ne_nil _ _))
  writes l v h := Or.inl h

/-- A value that the second part looks up was there from the start, or has its source in
    the first part, or in the second part before the mark. -/
theorem append (h : Explained kb c ts d) (h' : Explained kb d us e) :
    Explained kb c (ts ++ us) e where
  marks earlier mark later v hwalk hmark := by
    rw [preorderAll_append] at hwalk
    rcases List.append_eq_append_cons hwalk with ⟨rest, hts⟩ | ⟨before, rfl, hus⟩
    · exact h.marks earlier mark rest v hts hmark
    · obtain ⟨l, hl, hget | hsource⟩ := h'.marks before mark later v hus hmark
      · exact ⟨l, hl, (h.writes l v hget).imp_right fun hsource =>
          hsource.mono (List.prefix_append _ _).isInfix⟩
      · exact ⟨l, hl, Or.inr (hsource.mono (List.suffix_append _ _).isInfix)⟩
  writes l v hget := by
    rw [preorderAll_append]
    rcases h'.writes l v hget with hget | hsource
    · exact (h.writes l v hget).imp_right fun hsource =>
        hsource.mono (List.prefix_append _ _).isInfix
    · exact Or.inr (hsource.mono (List.suffix_append _ _).isInfix)

/-- A node whose own value is fresh adds no mark to those below it. -/
theorem node (h : Explained kb c ts d) (label : String) (o : Outcome) (ho : o.isCached = false) :
    Explained kb c [.node label (some o) ts] d where
  marks earlier mark later v hwalk hmark := by
    rw [preorderAll_node] at hwalk
    cases earlier with
    | nil =>
      obtain ⟨rfl, -⟩ := List.cons.inj hwalk
      rw [outcome_node, Option.some.injEq] at hmark
      rw [hmark, Outcome.isCached_cached] at ho
      cases ho
    | cons first earlier =>
      obtain ⟨rfl, hbelow⟩ := List.cons.inj hwalk
      obtain ⟨l, hl, hwhere⟩ := h.marks earlier mark later v hbelow hmark
      exact ⟨l, hl, hwhere.imp_right fun hsource => hsource.mono (List.suffix_cons _ _).isInfix⟩
  writes l v hget := by
    rw [preorderAll_node]
    exact (h.writes l v hget).imp_right fun hsource => hsource.mono (List.suffix_cons _ _).isInfix

theorem insert {a : Atom} (h : Explained kb c ts d)
    (hsource : HasSource kb a.letter v (preorderAll ts)) :
    Explained kb c ts (d.insert a.symbol v) where
  marks := h.marks
  writes l w hget := by
    rw [Cache.get?_insert] at hget
    split at hget
    · rename_i hsame
      obtain rfl : l = a.letter := Letter.ext hsame
      cases hget
      exact Or.inr hsource
    · exact h.writes l w hget

theorem learn {f : Formula} (h : Explained kb c ts d)
    (hsource : ∀ a, f = .atom a → HasSource kb a.letter v (preorderAll ts)) :
    Explained kb c ts (d.learn f v) := by
  cases f with
  | atom a => exact h.insert (hsource a rfl)
  | compound k left right => exact h

end Explained

-- ============================================================================
-- Derivations
-- ============================================================================

/-- Every derivation that ends explains its marks and its writes. -/
theorem explained_of_derives {task : Task} {c d : Cache} {ts : List Trace}
    (h : Derives kb task c v ts d) (htask : task.RulesFor kb) : Explained kb c ts d := by
  -- Rules that come out in some way add their own node to what explains their premise, and
  -- that node is the source of what is written after it.
  induction h with
  | @recalled a c v hget =>
    refine ⟨fun earlier mark later w hwalk hmark => ?_, fun l w hget' => Or.inl hget'⟩
    rw [Trace.leaf, Trace.preorderAll_node, Trace.preorderAll] at hwalk
    have hmem : mark ∈ [Trace.node a.text (some (.cached v)) []] := by
      rw [hwalk]
      exact List.mem_append_right earlier List.mem_cons_self
    obtain rfl := List.mem_singleton.mp hmem
    obtain rfl : v = w := by simpa using congrArg (Option.map Outcome.value) hmark
    exact ⟨a.letter, rfl, Or.inl hget⟩
  | declared hget hfact => exact (Explained.refl kb _).node _ _ rfl
  | derived hget hopen hrules ih => exact ih fun r hr => hr
  | compound hleft hright ihl ihr => exact (ihl trivial).append (ihr trivial)
  | @exhausted a c =>
    exact ((Explained.refl kb c).node _ _ rfl).insert (Trace.hasSource_node (.settled .exhausted))
  | @byFacts a rule rest c hholds =>
    have hrule := (KnowledgeBase.mem_rulesFor_atom.mp (htask rule List.mem_cons_self)).1
    refine ((Explained.refl kb c).node _ _ rfl).learn fun b hb => ?_
    exact Trace.hasSource_node (.settled (.concluded hrule (by rw [hb, Formula.letters_atom])))
  | @proved a rule rest c d ts hopen hpremise ih =>
    have hrule := (KnowledgeBase.mem_rulesFor_atom.mp (htask rule List.mem_cons_self)).1
    have hnode := (ih trivial).node rule.text (.fresh true) rfl
    refine (hnode.learn fun b hb => ?_).learn fun b hb => ?_
    · exact Trace.hasSource_node (.premise hrule (by rw [hb, Formula.letters_atom]))
    · exact Trace.hasSource_node (.settled (.concluded hrule (by rw [hb, Formula.letters_atom])))
  | @committed a rule rest c d ts hopen hatom hpremise ih =>
    have hrule := (KnowledgeBase.mem_rulesFor_atom.mp (htask rule List.mem_cons_self)).1
    refine ((ih trivial).node rule.text (.fresh false) rfl).learn fun b hb => ?_
    exact Trace.hasSource_node (.premise hrule (by rw [hb, Formula.letters_atom]))
  | @next a rule rest c d e v ts us hopen hcompound hpremise hrest ih ihrest =>
    have hrestFor := ihrest fun r hr => htask r (List.mem_cons_of_mem rule hr)
    exact ((ih trivial).node rule.text (.fresh false) rfl).append hrestFor

-- ============================================================================
-- Answers
-- ============================================================================

/-- Every answer comes from a derivation that began with an empty cache, and has its
    traces below the root. -/
theorem exists_derives_of_ask {settings : Settings} {query : String} {answer : Answer}
    (hask : (Session.install { settings } kb).ask query = .ok answer) :
    ∃ goal ts d, Formula.parse kb.known .query query = .ok goal ∧
      Derives kb (.goal goal) {} answer.result ts d ∧
      answer.trace = .settled query answer.result ts := by
  obtain ⟨goal, hquery⟩ := exists_goal_of_ask hask
  obtain ⟨t, hresolve, htrace⟩ := resolveGoal_of_ask hquery hask
  obtain ⟨ts, hts, hderives⟩ := Derivation.derives_of_resolveGoal hresolve
  have hts : t.trace.toList = ts := hts
  rw [hts] at htrace
  exact ⟨goal, ts, t.context.cache, hquery, hderives, htrace⟩

/-- Every mark in the trace of an answer has an earlier source with the same value.

    A node whose outcome was taken from the cache is a leaf with a letter for its label.
    Among the nodes that are visited before it there is a source for this letter and this
    value. All that is below the source is visited before the leaf as well, so the leaf
    is not below it. -/
theorem mark_has_source {kb : KnowledgeBase} {settings : Settings} {query : String}
    {answer : Answer} (hask : (Session.install { settings } kb).ask query = .ok answer)
    {earlier later : List Trace} {mark : Trace} {v : Bool}
    (hwalk : answer.trace.cursor.toList = earlier ++ mark :: later)
    (hmark : mark.outcome = some (.cached v)) :
    ∃ l : Letter, mark = .leaf l.text (.cached v) ∧
      ∃ source, SourceOf kb l v source ∧ source.preorder <:+: earlier := by
  obtain ⟨goal, ts, d, -, hderives, htrace⟩ := exists_derives_of_ask hask
  have hexplained : Explained kb {} [.settled query answer.result ts] d :=
    (explained_of_derives hderives trivial).node query _ (Outcome.isCached_fresh _)
  have hnodes :
      answer.trace.cursor.toList = Trace.preorderAll [.settled query answer.result ts] := by
    rw [Trace.toList_cursor, htrace, Trace.settled, Trace.preorderAll_node, Trace.children_node]
  rw [hnodes] at hwalk
  obtain ⟨l, hl, hget | hsource⟩ := hexplained.marks earlier mark later v hwalk hmark
  · cases hget
  · exact ⟨l, hl, hsource⟩

/-- `E` fails below the first rule for `F`, and is looked up when its turn has come. -/
theorem mark_has_source_sample :
    ∃ answer earlier mark later, (Session.install {} sample).ask "FE" = .ok answer ∧
      answer.trace.cursor.toList = earlier ++ mark :: later ∧
      mark.outcome = some (.cached false) ∧
      ∃ l : Letter, mark = .leaf l.text (.cached false) ∧
        ∃ source, SourceOf sample l false source ∧ source.preorder <:+: earlier := by
  obtain ⟨answer, hask, hany⟩ := Except.exists_ok_of_any
    (x := (Session.install {} sample).ask "FE")
    (p := fun answer => answer.trace.preorder.any (·.outcome == some (.cached false)))
    (by decide +kernel)
  obtain ⟨mark, hmem, hmark⟩ := List.any_eq_true.mp hany
  rw [beq_iff_eq] at hmark
  rw [Trace.preorder_eq, ← Trace.toList_cursor] at hmem
  obtain ⟨earlier, later, hwalk⟩ := List.append_of_mem hmem
  exact ⟨answer, earlier, mark, later, hask, hwalk, hmark, mark_has_source hask hwalk hmark⟩

end HornClause
