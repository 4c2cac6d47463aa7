/-
  HornClause.Proofs.Relevance

  What a query depends on. A derivation never looks at a rule unless the rule concludes
  a letter that is *relevant* to the query: a letter of the query itself, or a letter in
  the premise of a rule for a relevant letter that is no fact.

    * `KnowledgeBase.Relevant` — the relevant letters, the least set with these two
      closure properties (`Relevant.of_closed`).
    * `KnowledgeBase.AgreeOn` — two bases have the same facts among some letters, and
      rules of the same texts for each of them, in the same order.
    * `proveWithin_congr` — where two bases agree on what is relevant, the derivation of
      a relevant atom is one and the same step, from every state. So nothing that comes
      out of it can differ: no value, no trace, no error, and no event that is noted.

  The rest of the two bases may differ as it likes. In particular the order of facts,
  the order of rules that have no conclusion in common, and rules for irrelevant letters
  have no influence.
-/
import HornClause.Proofs.Answer
import HornClause.Proofs.Rereading

namespace HornClause

-- ============================================================================
-- Relevant letters
-- ============================================================================

namespace KnowledgeBase

/-- The letters that a derivation for some letters may come to. -/
inductive Relevant (kb : KnowledgeBase) (letters : List Letter) : Letter → Prop where
  /-- What is asked for. -/
  | asked {l : Letter} (h : l ∈ letters) : Relevant kb letters l
  /-- What a rule needs that concludes a relevant letter, unless that is a fact. -/
  | premise {l m : Letter} {r : Rule} (hl : Relevant kb letters l) (hnot : l ∉ kb.declared)
      (hr : r ∈ kb.rules) (hconclusion : l ∈ r.conclusion.letters)
      (hpremise : m ∈ r.premise.letters) : Relevant kb letters m

/-- Among the letters that satisfy `P`, two bases have the same facts, and for each of
    them rules of the same texts in the same order. -/
structure AgreeOn (P : Letter → Prop) (kb other : KnowledgeBase) : Prop where
  facts : ∀ l, P l → (l ∈ kb.declared ↔ l ∈ other.declared)
  rules : ∀ l, P l →
    (kb.rules.filter (l ∈ ·.conclusion.letters)).map Rule.text =
      (other.rules.filter (l ∈ ·.conclusion.letters)).map Rule.text

variable {kb other : KnowledgeBase} {letters : List Letter} {P : Letter → Prop}

/-- The relevant letters are in every set with their closure properties. -/
theorem Relevant.of_closed (hasked : ∀ l ∈ letters, P l)
    (hclosed : ∀ l, P l → l ∉ kb.declared → ∀ r ∈ kb.rules, l ∈ r.conclusion.letters →
      ∀ m ∈ r.premise.letters, P m) {l : Letter} (h : kb.Relevant letters l) : P l := by
  induction h with
  | asked hl => exact hasked _ hl
  | premise hl hnot hr hconclusion hpremise ih =>
    exact hclosed _ ih hnot _ hr hconclusion _ hpremise

/-- Two bases agree on what they have the same facts and the same rules for. -/
theorem agreeOn_of_filter_eq (hfacts : ∀ l, l ∈ kb.declared ↔ l ∈ other.declared)
    (hrules : ∀ l, P l → other.rules.filter (l ∈ ·.conclusion.letters) =
      kb.rules.filter (l ∈ ·.conclusion.letters)) : AgreeOn P kb other :=
  ⟨fun l _ => hfacts l, fun l hl => by rw [hrules l hl]⟩

end KnowledgeBase

-- ============================================================================
-- Formulas under other facts
-- ============================================================================

namespace Formula

variable {declared other : List Letter} {f : Formula}

/-- A formula that agrees with the facts stays as it is where it is read again. -/
theorem under_eq_self (h : f.AgreesWith declared) : f.under declared = f := by
  induction f with
  | atom a =>
    have ha := agreesWith_atom.mp h
    rw [under_atom, Atom.under]
    congr 1
    refine Atom.ext rfl ?_
    rw [Bool.eq_iff_iff, decide_eq_true_iff]
    exact ha.symm
  | compound c left right ihl ihr =>
    obtain ⟨hleft, hright⟩ := agreesWith_compound.mp h
    rw [under_compound, ihl hleft, ihr hright]

theorem AgreesWith.of_same_facts (h : f.AgreesWith declared)
    (hfacts : ∀ l ∈ f.letters, (l ∈ declared ↔ l ∈ other)) : f.AgreesWith other := by
  intro a ha
  exact (h a ha).trans (hfacts a.letter (mem_letters.mpr ⟨a, ha, rfl⟩))

/-- A formula is the same under any facts that treat its letters the same. -/
theorem under_eq_of_same_facts (h : f.AgreesWith declared)
    (hfacts : ∀ l ∈ f.letters, (l ∈ declared ↔ l ∈ other)) : f.under other = f :=
  under_eq_self (h.of_same_facts hfacts)

end Formula

namespace Derivation

-- ============================================================================
-- Derivations that are the same
-- ============================================================================

variable {prove prove' : Atom → SearchM Bool}

theorem resolve_congr {goal : Formula} (h : ∀ a ∈ goal.atoms, prove a = prove' a) :
    resolve prove goal = resolve prove' goal := by
  induction goal with
  | atom a =>
    rw [resolve_atom, resolve_atom]
    exact h a List.mem_cons_self
  | compound c left right ihl ihr =>
    rw [resolve_compound, resolve_compound, ihl fun a ha => h a (List.mem_append_left _ ha),
      ihr fun a ha => h a (List.mem_append_right _ ha)]

/-- Nothing but the letters of a rule goes into the cache. -/
theorem saveConclusion_under (declared : List Letter) (rule : Rule) :
    saveConclusion (rule.under declared) = saveConclusion rule := by
  rcases rule with ⟨premise, _ | _⟩ <;> rfl

theorem savePremise_under (declared : List Letter) (rule : Rule) (value : Bool) :
    savePremise (rule.under declared) value = savePremise rule value := by
  rcases rule with ⟨_ | _, conclusion⟩ <;> rfl

/-- Rules under other facts are tried in the same way, if these facts treat the letters
    of their premises the same. What they conclude may have other values. -/
theorem tryRules_congr {declared : List Letter} {symbol : Char} {rules : List Rule}
    (hpremise : ∀ r ∈ rules, r.premise.under declared = r.premise)
    (hprove : ∀ r ∈ rules, ∀ a ∈ r.premise.atoms, prove a = prove' a) :
    tryRules prove symbol rules = tryRules prove' symbol (rules.map (Rule.under declared)) := by
  induction rules with
  | nil => rfl
  | cons rule rest ih =>
    obtain ⟨hrule, hrest⟩ := List.forall_mem_cons.mp hpremise
    obtain ⟨hproveRule, hproveRest⟩ := List.forall_mem_cons.mp hprove
    rw [List.map_cons, tryRules, tryRules, ih hrest hproveRest, Rule.text_under,
      Rule.premise_under, hrule, resolve_congr hproveRule, saveConclusion_under]
    simp only [savePremise_under]

theorem settleOr_congr {a : Atom} {m m' : SearchM Bool} (h : a.value = false → m = m') :
    settleOr a m = settleOr a m' := by
  cases hvalue : a.value with
  | false => rw [h hvalue]
  | true =>
    rw [settleOr, settleOr, hvalue]
    rfl

section Bases

variable {kb other : KnowledgeBase} {letters : List Letter}
  (hkb : ∀ r ∈ kb.rules, r.Canonical kb.declared)
  (hother : ∀ r ∈ other.rules, r.Canonical other.declared)
  (hagree : KnowledgeBase.AgreeOn (kb.Relevant letters) kb other)

include hkb hother hagree

/-- Both bases have the same rules for a relevant atom, up to the values of atoms. -/
theorem rulesFor_eq_map_under {a : Atom} (hrelevant : kb.Relevant letters a.letter) :
    other.rulesFor (.atom a) = (kb.rulesFor (.atom a)).map (Rule.under other.declared) := by
  rw [KnowledgeBase.rulesFor_atom, KnowledgeBase.rulesFor_atom]
  refine Rule.Canonical.eq_map_under (fun r hr => hkb r (List.mem_filter.mp hr).1)
    (fun r hr => hother r (List.mem_filter.mp hr).1) ?_
  exact hagree.rules a.letter hrelevant

/-- A relevant atom is derived in the same way from either base, if the atoms that its
    rules need are. -/
theorem proveBy_congr {prove prove' : Atom → SearchM Bool}
    (hprove : ∀ b : Atom, b.AgreesWith kb.declared → kb.Relevant letters b.letter →
      prove b = prove' b)
    {a : Atom} (ha : a.AgreesWith kb.declared) (hrelevant : kb.Relevant letters a.letter) :
    proveBy kb prove a = proveBy other prove' a := by
  refine settleOr_congr fun hfalse => ?_
  -- The atom is no fact, so the letters its rules need are relevant as well.
  have hneeded : ∀ r ∈ kb.rulesFor (.atom a), ∀ l ∈ r.premise.letters,
      kb.Relevant letters l := by
    intro r hr l hl
    obtain ⟨hmem, hconclusion⟩ := KnowledgeBase.mem_rulesFor_atom.mp hr
    exact .premise hrelevant (ha.not_mem hfalse) hmem hconclusion hl
  have hagrees : ∀ r ∈ kb.rulesFor (.atom a), r.premise.AgreesWith kb.declared :=
    fun r hr => (hkb r (KnowledgeBase.mem_rulesFor_atom.mp hr).1).premise_agrees
  rw [derive, derive, rulesFor_eq_map_under hkb hother hagree hrelevant, ← tryRules_congr]
  · intro r hr
    refine Formula.under_eq_of_same_facts (hagrees r hr) fun l hl => ?_
    exact hagree.facts l (hneeded r hr l hl)
  · intro r hr b hb
    exact hprove b (hagrees r hr b hb)
      (hneeded r hr b.letter (Formula.mem_letters.mpr ⟨b, hb, rfl⟩))

theorem proveWithin_congr (room : Nat) {a : Atom} (ha : a.AgreesWith kb.declared)
    (hrelevant : kb.Relevant letters a.letter) :
    proveWithin kb room a = proveWithin other room a := by
  induction room generalizing a with
  | zero => exact proveBy_congr hkb hother hagree (fun _ _ _ => rfl) ha hrelevant
  | succ room ih =>
    exact proveBy_congr hkb hother hagree (fun _ hb hneeded => ih hb hneeded) ha hrelevant

theorem resolveGoal_congr {goal : Formula} (hgoal : goal.AgreesWith kb.declared)
    (hletters : goal.letters = letters) (s : Search) :
    resolveGoal kb goal s = resolveGoal other goal s := by
  have hatoms : ∀ a ∈ goal.atoms,
      proveWithin kb s.context.room a = proveWithin other s.context.room a := by
    intro a ha
    refine proveWithin_congr hkb hother hagree _ (hgoal a ha) (.asked ?_)
    rw [← hletters]
    exact Formula.mem_letters.mpr ⟨a, ha, rfl⟩
  show resolve (proveWithin kb s.context.room) goal s =
    resolve (proveWithin other s.context.room) goal s
  rw [resolve_congr hatoms]

end Bases

end Derivation

-- ============================================================================
-- Queries
-- ============================================================================

namespace KnowledgeBase

variable {kb other : KnowledgeBase} {query : String} {goal : Formula}

/-- Bases that agree on what is relevant to a query are consulted with one outcome,
    down to the events that are noted. -/
theorem consult_congr {text text' : String} (hkb : parse text = .ok kb)
    (hother : parse text' = .ok other) (hquery : Formula.parse kb.known .query query = .ok goal)
    (hagree : AgreeOn (kb.Relevant goal.letters) kb other) (settings : Settings) :
    other.consult settings query = kb.consult settings query := by
  have hwf := wellFormed_of_parse hkb
  have hgoal := hwf.agreesWith hquery
  have hquery' : Formula.parse other.known .query query = .ok goal := by
    rw [hwf.parse_under (wellFormed_of_parse hother) hquery,
      Formula.under_eq_of_same_facts hgoal fun l hl => hagree.facts l (.asked hl)]
  rw [consult, consult, hquery, hquery']
  simp only [Derivation.resolveGoal_congr (canonical_of_parse hkb) (canonical_of_parse hother)
    hagree hgoal rfl]

/-- Two rules without a common letter in their conclusions are not both rules for one
    letter, so their order does not show among the rules for it. -/
theorem filter_swap {before after : List Rule} {r s : Rule}
    (hdisjoint : ∀ l ∈ r.conclusion.letters, l ∉ s.conclusion.letters) (l : Letter) :
    (before ++ s :: r :: after).filter (l ∈ ·.conclusion.letters) =
      (before ++ r :: s :: after).filter (l ∈ ·.conclusion.letters) := by
  rw [List.filter_append, List.filter_append]
  congr 1
  by_cases hr : l ∈ r.conclusion.letters
  · have hs := hdisjoint l hr
    simp [hr, hs]
  · by_cases hs : l ∈ s.conclusion.letters
    · simp [hr, hs]
    · simp [hr, hs]

theorem filter_without {before extra after : List Rule} {l : Letter}
    (hextra : ∀ r ∈ extra, l ∉ r.conclusion.letters) :
    (before ++ extra ++ after).filter (l ∈ ·.conclusion.letters) =
      (before ++ after).filter (l ∈ ·.conclusion.letters) := by
  have hnone : extra.filter (l ∈ ·.conclusion.letters) = [] :=
    List.filter_eq_nil_iff.mpr fun r hr hl => hextra r hr (of_decide_eq_true hl)
  rw [List.filter_append, List.filter_append, hnone, List.append_nil, List.filter_append]

end KnowledgeBase

/-- Only relevant entries influence a query. Two bases that have the same facts among
    the relevant letters, and for each of these rules of the same texts in the same
    order, give a query one and the same outcome under any settings: the same result
    and trace, or the same error. So the replies are the same too, with and without a
    trace.

    In particular, where the same letters stand alone in both texts, in any order and
    however often, the outcome is the same if the rules are the same, if two adjacent
    rules without a common letter in their conclusions have changed places, or if there
    are rules more or less that conclude nothing relevant. -/
theorem ask_of_agreeOn_relevant {text text' : String} {kb other : KnowledgeBase}
    (hkb : KnowledgeBase.parse text = .ok kb) (hother : KnowledgeBase.parse text' = .ok other)
    {query : String} {goal : Formula} (hquery : Formula.parse kb.known .query query = .ok goal)
    (settings : Settings) :
    (KnowledgeBase.AgreeOn (kb.Relevant goal.letters) kb other →
      (Session.install { settings } other).ask query =
        (Session.install { settings } kb).ask query ∧
      ∀ traced, (Session.install { settings } other).reply query traced =
        (Session.install { settings } kb).reply query traced) ∧
    ((∀ l : Letter, [l.char] ∈ KnowledgeBase.entries text ↔
        [l.char] ∈ KnowledgeBase.entries text') →
      (other.rules = kb.rules →
        (Session.install { settings } other).ask query =
          (Session.install { settings } kb).ask query) ∧
      (∀ before r s after, kb.rules = before ++ r :: s :: after →
        other.rules = before ++ s :: r :: after →
        (∀ l ∈ r.conclusion.letters, l ∉ s.conclusion.letters) →
        (Session.install { settings } other).ask query =
          (Session.install { settings } kb).ask query) ∧
      (∀ before extra after,
        (∀ r ∈ extra, ∀ l ∈ r.conclusion.letters, ¬ kb.Relevant goal.letters l) →
        (kb.rules = before ++ after ∧ other.rules = before ++ extra ++ after ∨
          kb.rules = before ++ extra ++ after ∧ other.rules = before ++ after) →
        (Session.install { settings } other).ask query =
          (Session.install { settings } kb).ask query)) := by
  have hsame : KnowledgeBase.AgreeOn (kb.Relevant goal.letters) kb other →
      (Session.install { settings } other).ask query =
        (Session.install { settings } kb).ask query :=
    fun hagree => congrArg Prod.fst
      (KnowledgeBase.consult_congr hkb hother hquery hagree settings)
  refine ⟨fun hagree => ⟨hsame hagree, Session.ask_eq_iff_reply_eq.mp (hsame hagree)⟩,
    fun halone => ?_⟩
  have hfacts : ∀ l, l ∈ kb.declared ↔ l ∈ other.declared := by
    intro l
    obtain ⟨-, -, hdeclared, -⟩ := KnowledgeBase.parse_eq_ok_iff.mp hkb
    obtain ⟨-, -, hdeclared', -⟩ := KnowledgeBase.parse_eq_ok_iff.mp hother
    rw [hdeclared, hdeclared', KnowledgeBase.mem_declaredIn, KnowledgeBase.mem_declaredIn]
    exact halone l
  refine ⟨?_, ?_, ?_⟩
  · intro hrules
    refine hsame (KnowledgeBase.agreeOn_of_filter_eq hfacts fun l _ => ?_)
    rw [hrules]
  · intro before r s after hrules hrules' hdisjoint
    refine hsame (KnowledgeBase.agreeOn_of_filter_eq hfacts fun l _ => ?_)
    rw [hrules, hrules', KnowledgeBase.filter_swap hdisjoint]
  · intro before extra after hextra hrules
    refine hsame (KnowledgeBase.agreeOn_of_filter_eq hfacts fun l hl => ?_)
    have hnone : ∀ r ∈ extra, l ∉ r.conclusion.letters := fun r hr hmem => hextra r hr l hmem hl
    rcases hrules with ⟨hrules, hrules'⟩ | ⟨hrules, hrules'⟩
    · rw [hrules, hrules', KnowledgeBase.filter_without hnone]
    · rw [hrules, hrules', KnowledgeBase.filter_without hnone]

/-- The letters that matter to `FC` in the sample are those up to `F`. -/
theorem sample_relevant {goal : Formula} (hletters : goal.letters.map Letter.char = ['F', 'C'])
    {l : Letter} (h : sample.Relevant goal.letters l) : l.char ∈ "ABCDEF".toList := by
  refine h.of_closed (P := fun l => l.char ∈ "ABCDEF".toList) (fun m hm => ?_)
    (by decide +kernel)
  have hchar : m.char ∈ ['F', 'C'] := by
    rw [← hletters]
    exact List.mem_map_of_mem hm
  show m.char ∈ "ABCDEF".toList
  rcases List.mem_pair.mp hchar with hm | hm
  · rw [hm]
    decide +kernel
  · rw [hm]
    decide +kernel

/-- For `FC`, the sample may have other rules for `G` and `H`, and `H` for a fact; with
    `A` declared again, `D=>F` and `G=>H` may change places; and `F=>G` may be added. -/
theorem ask_of_agreeOn_relevant_samples :
    ∃ goal, Formula.parse sample.known .query "FC" = .ok goal ∧
      (∃ other, KnowledgeBase.parse "H=>G, A=>B, A, AB=>CD, F=>H, BE=>F, H, D=>F, A" = .ok other ∧
        KnowledgeBase.AgreeOn (sample.Relevant goal.letters) sample other ∧
        (Session.install {} other).ask "FC" = (Session.install {} sample).ask "FC") ∧
      (∃ other, KnowledgeBase.parse "A=>B, A, AB=>CD, BE=>F, G=>H, D=>F, A, H=>G" = .ok other ∧
        (Session.install {} other).ask "FC" = (Session.install {} sample).ask "FC") ∧
      ∃ other, KnowledgeBase.parse "A, A=>B, AB=>CD, BE=>F, F=>G, D=>F, G=>H, H=>G" = .ok other ∧
        (Session.install {} other).ask "FC" = (Session.install {} sample).ask "FC" := by
  obtain ⟨goal, hquery, hletters⟩ := Except.exists_ok_of_any
    (x := Formula.parse sample.known .query "FC")
    (p := fun goal => decide (goal.letters.map Letter.char = ['F', 'C'])) (by decide +kernel)
  have hletters := of_decide_eq_true hletters
  refine ⟨goal, hquery, ?_, ?_, ?_⟩
  · obtain ⟨other, hother, hp⟩ := Except.exists_ok_of_any
      (x := KnowledgeBase.parse "H=>G, A=>B, A, AB=>CD, F=>H, BE=>F, H, D=>F, A")
      (p := fun other => decide (∀ l : Letter, l.char ∈ "ABCDEF".toList →
        (l ∈ sample.declared ↔ l ∈ other.declared) ∧
        (sample.rules.filter (l ∈ ·.conclusion.letters)).map Rule.text =
          (other.rules.filter (l ∈ ·.conclusion.letters)).map Rule.text)) (by decide +kernel)
    have hp := of_decide_eq_true hp
    have hagree : KnowledgeBase.AgreeOn (sample.Relevant goal.letters) sample other :=
      ⟨fun l hl => (hp l (sample_relevant hletters hl)).1,
        fun l hl => (hp l (sample_relevant hletters hl)).2⟩
    exact ⟨other, hother, hagree,
      ((ask_of_agreeOn_relevant parse_sample hother hquery {}).1 hagree).1⟩
  · obtain ⟨other, hother, hp⟩ := Except.exists_ok_of_any
      (x := KnowledgeBase.parse "A=>B, A, AB=>CD, BE=>F, G=>H, D=>F, A, H=>G")
      (p := fun other => decide (∃ r ∈ sample.rules[3]?, ∃ s ∈ sample.rules[4]?,
        sample.rules = sample.rules.take 3 ++ r :: s :: sample.rules.drop 5 ∧
        other.rules = sample.rules.take 3 ++ s :: r :: sample.rules.drop 5 ∧
        ∀ l ∈ r.conclusion.letters, l ∉ s.conclusion.letters)) (by decide +kernel)
    obtain ⟨r, -, s, -, hrules, hrules', hdisjoint⟩ := of_decide_eq_true hp
    have hswap := ((ask_of_agreeOn_relevant parse_sample hother hquery {}).2
      (by decide +kernel)).2.1
    exact ⟨other, hother, hswap _ r s _ hrules hrules' hdisjoint⟩
  · obtain ⟨other, hother, hp⟩ := Except.exists_ok_of_any
      (x := KnowledgeBase.parse "A, A=>B, AB=>CD, BE=>F, F=>G, D=>F, G=>H, H=>G")
      (p := fun other => decide (∃ r ∈ other.rules,
        sample.rules = sample.rules.take 3 ++ sample.rules.drop 3 ∧
        other.rules = sample.rules.take 3 ++ [r] ++ sample.rules.drop 3 ∧
        ∀ l ∈ r.conclusion.letters, l.char ∉ "ABCDEF".toList)) (by decide +kernel)
    obtain ⟨r, -, hrules, hrules', hconcludes⟩ := of_decide_eq_true hp
    have hextra : ∀ q ∈ [r], ∀ l ∈ q.conclusion.letters, ¬ sample.Relevant goal.letters l := by
      intro q hq l hl hrelevant
      rw [List.mem_singleton.mp hq] at hl
      exact hconcludes l hl (sample_relevant hletters hrelevant)
    have hadd := ((ask_of_agreeOn_relevant parse_sample hother hquery {}).2
      (by decide +kernel)).2.2
    exact ⟨other, hother, hadd _ [r] _ hextra (Or.inl ⟨hrules, hrules'⟩)⟩

end HornClause
