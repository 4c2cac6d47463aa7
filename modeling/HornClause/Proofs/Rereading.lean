/-
  HornClause.Proofs.Rereading

  One text, read where different facts are declared. The tree that is read is the same
  up to the values of its atoms, which are those that the other facts give
  (`Formula.under`). So a text that can be read under some facts can be read under all,
  and two knowledge bases with rules of the same texts have the same rules up to the
  values of their atoms (`Rule.Canonical.eq_map_under`).
-/
import HornClause.Proofs.Entries

namespace HornClause

-- ============================================================================
-- Trees under other facts
-- ============================================================================

/-- The atom of the same letter where other letters are declared. -/
def Atom.under (declared : List Letter) (a : Atom) : Atom :=
  ⟨a.letter, decide (a.letter ∈ declared)⟩

/-- The same tree of letters where other letters are declared. -/
def Formula.under (declared : List Letter) : Formula → Formula
  | .atom a => .atom (a.under declared)
  | .compound c left right => .compound c (left.under declared) (right.under declared)

/-- The same rule where other letters are declared. -/
def Rule.under (declared : List Letter) (r : Rule) : Rule :=
  ⟨r.premise.under declared, r.conclusion.under declared⟩

variable (declared : List Letter)

@[simp] theorem Atom.letter_under (a : Atom) : (a.under declared).letter = a.letter := rfl

@[simp] theorem Atom.symbol_under (a : Atom) : (a.under declared).symbol = a.symbol := rfl

theorem Atom.agreesWith_under (a : Atom) : (a.under declared).AgreesWith declared :=
  decide_eq_true_iff

namespace Formula

@[simp] theorem under_atom (a : Atom) : (atom a).under declared = .atom (a.under declared) := rfl

@[simp] theorem under_compound (c : Connective) (left right : Formula) :
    (compound c left right).under declared =
      .compound c (left.under declared) (right.under declared) := rfl

@[simp] theorem atoms_under (f : Formula) :
    (f.under declared).atoms = f.atoms.map (Atom.under declared) := by
  induction f with
  | atom a => rfl
  | compound c left right ihl ihr => simp [ihl, ihr]

@[simp] theorem letters_under (f : Formula) : (f.under declared).letters = f.letters := by
  simp [letters]

@[simp] theorem chars_under (f : Formula) : (f.under declared).chars = f.chars := by
  induction f with
  | atom a => rfl
  | compound c left right ihl ihr => simp [ihl, ihr]

@[simp] theorem isAtom_under (f : Formula) : (f.under declared).isAtom = f.isAtom := by
  cases f <;> rfl

@[simp] theorem isConjunction_under (f : Formula) :
    (f.under declared).isConjunction = f.isConjunction := by
  induction f with
  | atom a => rfl
  | compound c left right ihl ihr => cases c <;> simp [isConjunction, ihl, ihr]

theorem agreesWith_under (f : Formula) : (f.under declared).AgreesWith declared := by
  intro a ha
  rw [atoms_under] at ha
  obtain ⟨b, -, rfl⟩ := List.mem_map.mp ha
  exact b.agreesWith_under declared

theorem conjoin_under (first : Atom) (others : List Atom) :
    (conjoin first others).under declared =
      conjoin (first.under declared) (others.map (Atom.under declared)) := by
  have hfold : ∀ (f : Formula) (rest : List Atom),
      (rest.foldl (fun g a => .compound .conjunction g (.atom a)) f).under declared =
        (rest.map (Atom.under declared)).foldl (fun g a => .compound .conjunction g (.atom a))
          (f.under declared) := by
    intro f rest
    induction rest generalizing f with
    | nil => rfl
    | cons a rest ih => exact ih _
  exact hfold (.atom first) others

variable {declared}

theorem LeftNested.under {f : Formula} (h : f.LeftNested) : (f.under declared).LeftNested := by
  obtain ⟨first, others, rfl⟩ := h
  exact ⟨_, _, conjoin_under declared first others⟩

theorem Readable.under {reading : Reading} {f : Formula} (h : f.Readable reading) :
    (f.under declared).Readable reading := by
  cases h with
  | conjunction hnested hentry =>
    refine .conjunction hnested.under fun hreading => ?_
    rw [isAtom_under]
    exact hentry hreading
  | implication hleft hright => exact .implication hleft.under hright.under

/-- A text that is read under some facts is read under others as the same tree. -/
theorem parse_under {other : List Letter} {reading : Reading} {text : String} {f : Formula}
    (h : parse (KnowledgeBase.factFor other) reading text = .ok f) :
    parse (KnowledgeBase.factFor declared) reading text = .ok (f.under declared) := by
  obtain ⟨hchars, -, hreadable⟩ := (parse_eq_ok_iff (KnowledgeBase.faithful_factFor other)).mp h
  rw [parse_eq_ok_iff (KnowledgeBase.faithful_factFor declared), chars_under,
    KnowledgeBase.knownBy_factFor_iff]
  exact ⟨hchars, agreesWith_under declared f, hreadable.under⟩

end Formula

-- ============================================================================
-- Rules under other facts
-- ============================================================================

namespace Rule

@[simp] theorem premise_under (r : Rule) :
    (r.under declared).premise = r.premise.under declared := rfl

@[simp] theorem concludes_under (r : Rule) (goal : String) :
    (r.under declared).concludes goal = r.concludes goal := by
  rw [concludes, under, Formula.chars_under]
  rfl

theorem text_under (r : Rule) : (r.under declared).text = r.text := by
  have hunder : (r.under declared).toFormula = r.toFormula.under declared := rfl
  rw [text, text, hunder, Formula.text, Formula.chars_under]
  rfl

variable {declared}

theorem Canonical.under {other : List Letter} {r : Rule} (h : r.Canonical other) :
    (r.under declared).Canonical declared :=
  ⟨h.premise_nested.under, h.conclusion_nested.under, Formula.agreesWith_under _ _,
    Formula.agreesWith_under _ _⟩

/-- A rule is determined by its text and by what is declared. -/
theorem Canonical.eq_under {other : List Letter} {r s : Rule} (hr : r.Canonical other)
    (hs : s.Canonical declared) (htext : r.text = s.text) : s = r.under declared := by
  have hreads : ∀ {q : Rule}, q.Canonical declared → q.text = s.text →
      KnowledgeBase.readRule (KnowledgeBase.factFor declared) s.text.toList = .ok q := by
    intro q hq hqs
    rw [KnowledgeBase.readRule_eq_ok_iff, String.ofList_toList]
    exact ⟨hqs, hq⟩
  have hsame := hreads hr.under (by rw [text_under, htext])
  rw [hreads hs rfl] at hsame
  exact Except.ok.inj hsame

theorem Canonical.eq_map_under {other : List Letter} {rules others : List Rule}
    (hrules : ∀ r ∈ rules, r.Canonical other) (hothers : ∀ r ∈ others, r.Canonical declared)
    (htexts : rules.map Rule.text = others.map Rule.text) :
    others = rules.map (Rule.under declared) := by
  induction rules generalizing others with
  | nil => exact List.map_eq_nil_iff.mp htexts.symm
  | cons r rules ih =>
    cases others with
    | nil => cases htexts
    | cons s others =>
      obtain ⟨htext, htexts⟩ := List.cons.inj htexts
      obtain ⟨hr, hrules⟩ := List.forall_mem_cons.mp hrules
      obtain ⟨hs, hothers⟩ := List.forall_mem_cons.mp hothers
      rw [List.map_cons, hr.eq_under hs htext, ih hrules hothers htexts]

end Rule

namespace KnowledgeBase

variable {text : String} {kb : KnowledgeBase}

/-- A text that is read against a base is read against another as the same tree. -/
theorem WellFormed.parse_under {other : KnowledgeBase} (hkb : kb.WellFormed)
    (hother : other.WellFormed) {reading : Formula.Reading} {f : Formula}
    (h : Formula.parse kb.known reading text = .ok f) :
    Formula.parse other.known reading text = .ok (f.under other.declared) := by
  rw [hkb.known_eq] at h
  rw [hother.known_eq]
  exact Formula.parse_under h

theorem canonical_of_parse (h : parse text = .ok kb) : ∀ r ∈ kb.rules, r.Canonical kb.declared :=
  (parse_eq_ok_iff.mp h).2.2.2.2.2

end KnowledgeBase

end HornClause
