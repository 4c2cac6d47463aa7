/-
  HornClause.Proofs.Coherence

  What a knowledge base that was read can be relied on for. That a letter is a fact is
  told in three ways: by the map of facts, by the list of what is declared, and by the
  value that every atom of every rule carries. A derivation uses each of them in another
  place, so they have to agree, whatever the order of the entries and however often a
  fact is declared. The type of a knowledge base demands none of this; map and list agree
  because of how they are filled (`Declares.foldl`), and the atoms of the rules because
  the rules are read after the last fact.

    * `Formula.ValuedBy` — the true atoms of a formula are those with a key in a map.
    * `KnowledgeBase.Coherent` — the invariant of a knowledge base, which reading
      establishes (`coherent_of_parse`), for the base and for every formula that is read
      against it.
-/
import HornClause.Proofs.RoundTrip

namespace HornClause

-- ============================================================================
-- Keys and values
-- ============================================================================

/-- The characters under which a map has something. -/
def FactMap.keys (m : FactMap) : List Char := m.entries.map fun e => e.1.char

/-- The true atoms of a formula are those whose symbols are keys of a map. -/
def Formula.ValuedBy (facts : FactMap) (f : Formula) : Prop :=
  ∀ a ∈ f.atoms, a.value = true ↔ a.symbol ∈ facts.keys

namespace KnowledgeBase

variable {text : String} {kb : KnowledgeBase}

/-- Where map and list agree, the keys are the characters of the declared letters. -/
theorem mem_keys_iff (h : kb.known = factFor kb.declared) {c : Char} :
    c ∈ kb.facts.keys ↔ c ∈ kb.declared.map Letter.char := by
  rw [FactMap.keys, List.mem_map, List.mem_map]
  constructor
  · rintro ⟨⟨l, a⟩, hmem, rfl⟩
    exact ⟨l, ((mem_entries_iff h).mp hmem).2.1, rfl⟩
  · rintro ⟨l, hmem, rfl⟩
    exact ⟨(l, ⟨l, true⟩), (mem_entries_iff h).mpr ⟨rfl, hmem, rfl⟩, rfl⟩

theorem char_mem_keys_iff (h : kb.known = factFor kb.declared) {l : Letter} :
    l.char ∈ kb.facts.keys ↔ l ∈ kb.declared := by
  rw [mem_keys_iff h, List.mem_map_of_injective fun _ _ => Letter.ext]

theorem known_eq_some_iff (h : kb.known = factFor kb.declared) {c : Char} {a : Atom} :
    kb.known c = some a ↔ c ∈ kb.facts.keys ∧ a.symbol = c ∧ a.value = true := by
  rw [h, factFor_eq_some_iff]
  constructor
  · rintro ⟨rfl, hmem, htrue⟩
    exact ⟨(char_mem_keys_iff h).mpr hmem, rfl, htrue⟩
  · rintro ⟨hkey, rfl, htrue⟩
    exact ⟨rfl, (char_mem_keys_iff h).mp hkey, htrue⟩

/-- A formula that agrees with the declared letters has the values of the map. -/
theorem valuedBy_facts_iff (h : kb.known = factFor kb.declared) {f : Formula} :
    f.ValuedBy kb.facts ↔ f.AgreesWith kb.declared :=
  forall₂_congr fun _ _ => iff_congr Iff.rfl (char_mem_keys_iff h)

-- ============================================================================
-- The invariant
-- ============================================================================

/-- What a knowledge base can be relied on for. -/
structure Coherent (kb : KnowledgeBase) : Prop where
  /-- A fact stands under its own symbol, an uppercase letter, and is true. -/
  entry_true : ∀ l a, (l, a) ∈ kb.facts.entries →
    a.symbol = l.char ∧ l.char.isUpper = true ∧ a.value = true
  /-- The keys are known, each as its own true atom, and nothing else is. -/
  known_iff : ∀ c a, kb.known c = some a ↔ c ∈ kb.facts.keys ∧ a.symbol = c ∧ a.value = true
  /-- Nothing is declared twice. -/
  declared_nodup : kb.declared.Nodup
  /-- What is declared are the keys. -/
  declared_keys : ∀ c, c ∈ kb.declared.map Letter.char ↔ c ∈ kb.facts.keys
  /-- There is a fact or a rule. -/
  nonempty : kb.facts.entries ≠ [] ∨ kb.rules ≠ []
  /-- Both sides of a rule are without implications, and hang on spines to the left. -/
  shape : ∀ r ∈ kb.rules, (r.premise.isConjunction = true ∧ r.premise.LeftSpine) ∧
    r.conclusion.isConjunction = true ∧ r.conclusion.LeftSpine
  /-- Every atom of a rule tells whether its symbol is a key. -/
  values : ∀ r ∈ kb.rules, r.premise.ValuedBy kb.facts ∧ r.conclusion.ValuedBy kb.facts

/-- A base that was read has a fact or a rule. -/
theorem nonempty_of_parse (h : parse text = .ok kb) :
    kb.facts.entries ≠ [] ∨ kb.rules ≠ [] := by
  obtain ⟨-, -, -, hknown, -, -⟩ := parse_eq_ok_iff.mp h
  by_contra hempty
  rw [not_or, not_not, not_not] at hempty
  have hdeclared : kb.declared = [] := by
    refine List.eq_nil_iff_forall_not_mem.mpr fun l hl => ?_
    have hmem := (mem_entries_iff hknown (a := ⟨l, true⟩)).mpr ⟨rfl, hl, rfl⟩
    rw [hempty.1] at hmem
    cases hmem
  apply written_ne_nil h
  rw [written, hdeclared, hempty.2]
  rfl

/-- The keys are the letters that stand alone in the text, wherever they do. -/
theorem mem_keys_of_parse (h : parse text = .ok kb) {c : Char} :
    c ∈ kb.facts.keys ↔ c.isUpper = true ∧ [c] ∈ entries text := by
  obtain ⟨-, -, hdeclared, hknown, -, -⟩ := parse_eq_ok_iff.mp h
  rw [mem_keys_iff hknown, hdeclared, List.mem_map]
  constructor
  · rintro ⟨l, hl, rfl⟩
    exact ⟨l.isUpper, mem_declaredIn.mp hl⟩
  · rintro ⟨hupper, hentry⟩
    exact ⟨⟨c, hupper⟩, mem_declaredIn.mpr hentry, rfl⟩

/-- Reading establishes the invariant. The keys are the letters that stand alone in the
    text, wherever they do, and every formula that is read against the facts has its atoms
    true exactly where they have a key. -/
theorem coherent_of_parse (h : parse text = .ok kb) :
    kb.Coherent ∧
    (∀ c, c ∈ kb.facts.keys ↔ c.isUpper = true ∧ [c] ∈ entries text) ∧
    ∀ reading query goal, Formula.parse kb.known reading query = .ok goal →
      goal.ValuedBy kb.facts := by
  obtain ⟨-, -, hdeclared, hknown, -, hcanonical⟩ := parse_eq_ok_iff.mp h
  refine ⟨?_, fun c => mem_keys_of_parse h, ?_⟩
  · exact {
      entry_true := by
        intro l a hmem
        obtain ⟨rfl, -, htrue⟩ := (mem_entries_iff hknown).mp hmem
        exact ⟨rfl, a.letter.isUpper, htrue⟩
      known_iff := fun c a => known_eq_some_iff hknown
      declared_nodup := by
        rw [hdeclared]
        exact List.nodup_eraseDups _
      declared_keys := fun c => (mem_keys_iff hknown).symm
      nonempty := nonempty_of_parse h
      shape := by
        intro r hr
        obtain ⟨hpremise, hconclusion, -, -⟩ := hcanonical r hr
        exact ⟨⟨hpremise.isConjunction, hpremise.leftSpine⟩,
          hconclusion.isConjunction, hconclusion.leftSpine⟩
      values := by
        intro r hr
        obtain ⟨-, -, hpremise, hconclusion⟩ := hcanonical r hr
        exact ⟨(valuedBy_facts_iff hknown).mpr hpremise,
          (valuedBy_facts_iff hknown).mpr hconclusion⟩ }
  · intro reading query goal hgoal
    rw [valuedBy_facts_iff hknown]
    exact (wellFormed_of_parse h).agreesWith hgoal

/-- A fact that is declared last, and twice, stands first in the map and once in the list,
    and is true in the rules before it and in a query. -/
theorem coherent_of_parse_sample :
    ∃ kb r goal, parse "AB=>CA, D=>A, B, A, A" = .ok kb ∧ kb.Coherent ∧
      kb.facts.keys = ['A', 'B'] ∧ kb.declared.map Letter.char = ['B', 'A'] ∧ r ∈ kb.rules ∧
      r.text = "AB=>CA" ∧ r.premise.evaluate = true ∧ r.conclusion.evaluate = false ∧
      Formula.parse kb.known .query "A=>D" = .ok goal ∧ goal.ValuedBy kb.facts ∧
      goal.evaluate = false := by
  obtain ⟨kb, hkb, hp⟩ := Except.exists_ok_of_any
    (x := parse "AB=>CA, D=>A, B, A, A")
    (p := fun kb => decide (kb.facts.keys = ['A', 'B'] ∧
        kb.declared.map Letter.char = ['B', 'A'] ∧ ∃ r ∈ kb.rules, r.text = "AB=>CA" ∧
        r.premise.evaluate = true ∧ r.conclusion.evaluate = false) &&
      (Formula.parse kb.known .query "A=>D").toOption.any fun goal => !goal.evaluate)
    (by decide +kernel)
  obtain ⟨hbase, hread⟩ := Bool.and_eq_true_iff.mp hp
  obtain ⟨hkeys, hdeclared, r, hr, htext, hpremise, hconclusion⟩ := of_decide_eq_true hbase
  obtain ⟨goal, hgoal, hfalse⟩ := Except.exists_ok_of_any hread
  obtain ⟨hcoherent, -, hquery⟩ := coherent_of_parse hkb
  exact ⟨kb, r, goal, hkb, hcoherent, hkeys, hdeclared, hr, htext, hpremise, hconclusion, hgoal,
    hquery .query "A=>D" goal hgoal, by simpa using hfalse⟩

end KnowledgeBase

end HornClause
