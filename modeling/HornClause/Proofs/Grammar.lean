/-
  HornClause.Proofs.Grammar

  The language of formulas. A *word* is a sequence of uppercase letters, one at least.
  A text can be read exactly if it is a word, for a conjunction, or two words with an
  arrow between them, for an implication; an entry of a knowledge base must not be a
  word of several letters.

    * `parse_eq_ok_iff` — reading gives a formula exactly if the formula is one that
      can be read, has the text, and its atoms are as they are known. So a text
      determines what it is read as, and what is read has the text for its own.
    * `readRule_eq_ok_iff`, `exists_readRule_iff` — the same of the rules of a
      knowledge base: the text of a rule is its entry, and an entry can be read
      exactly if it is an implication.

  Reading is looked into here, in `Proofs.Agreement` and, for the texts that are refused, in
  `Proofs.Reading` only.
-/
import HornClause.Proofs.Agreement

/-! ## Chains of steps that may fail -/

namespace Except

variable {ε α β : Type} {f : α → Except ε β}

theorem bind_eq_error {x : Except ε α} {e : ε} :
    x >>= f = .error e ↔ x = .error e ∨ ∃ a, x = .ok a ∧ f a = .error e := by
  cases x <;> simp [bind, Except.bind]

theorem exists_error_of_not_ok {x : Except ε α} (h : ¬ ∃ a, x = .ok a) : ∃ e, x = .error e := by
  cases x with
  | ok a => exact absurd ⟨a, rfl⟩ h
  | error e => exact ⟨e, rfl⟩

theorem exists_mapM_eq_ok_iff {xs : List α} :
    (∃ ys, xs.mapM f = .ok ys) ↔ ∀ x ∈ xs, ∃ y, f x = .ok y := by
  induction xs with
  | nil => exact iff_of_true ⟨[], rfl⟩ fun x hx => absurd hx List.not_mem_nil
  | cons x xs ih =>
    rw [List.mapM_cons, List.forall_mem_cons, ← ih]
    constructor
    · rintro ⟨ys, h⟩
      obtain ⟨y, hy, h⟩ := bind_eq_ok.mp h
      obtain ⟨zs, hzs, -⟩ := bind_eq_ok.mp h
      exact ⟨⟨y, hy⟩, zs, hzs⟩
    · rintro ⟨⟨y, hy⟩, ys, hys⟩
      refine ⟨y :: ys, ?_⟩
      rw [hy, hys]
      rfl

/-- A chain of steps that are undone by writing is undone by writing each result. -/
theorem mapM_eq_ok_iff {write : β → α} {P : β → Prop}
    (h : ∀ x y, f x = .ok y ↔ write y = x ∧ P y) {xs : List α} {ys : List β} :
    xs.mapM f = .ok ys ↔ ys.map write = xs ∧ ∀ y ∈ ys, P y := by
  induction xs generalizing ys with
  | nil =>
    rw [List.mapM_nil, List.map_eq_nil_iff]
    constructor
    · intro hys
      cases hys
      exact ⟨rfl, fun y hy => absurd hy List.not_mem_nil⟩
    · rintro ⟨rfl, -⟩
      rfl
  | cons x xs ih =>
    rw [List.mapM_cons]
    constructor
    · intro hys
      obtain ⟨y, hy, hys⟩ := bind_eq_ok.mp hys
      obtain ⟨zs, hzs, hys⟩ := bind_eq_ok.mp hys
      cases hys
      obtain ⟨hwrite, hP⟩ := (h x y).mp hy
      obtain ⟨hwrites, hall⟩ := ih.mp hzs
      rw [List.map_cons, hwrite, hwrites]
      exact ⟨rfl, List.forall_mem_cons.mpr ⟨hP, hall⟩⟩
    · rintro ⟨hwrites, hall⟩
      cases ys with
      | nil => cases hwrites
      | cons y zs =>
        obtain ⟨hwrite, hwrites⟩ := List.cons.inj hwrites
        obtain ⟨hP, hall⟩ := List.forall_mem_cons.mp hall
        rw [(h x y).mpr ⟨hwrite, hP⟩, ih.mpr ⟨hwrites, hall⟩]
        rfl

/-- The first element that fails decides how a chain fails. -/
theorem mapM_eq_error {before after : List α} {x : α} {e : ε}
    (hbefore : ∀ y ∈ before, ∃ z, f y = .ok z) (hx : f x = .error e) :
    (before ++ x :: after).mapM f = .error e := by
  induction before with
  | nil =>
    rw [List.nil_append, List.mapM_cons, hx]
    rfl
  | cons y rest ih =>
    obtain ⟨⟨z, hz⟩, hrest⟩ := List.forall_mem_cons.mp hbefore
    rw [List.cons_append, List.mapM_cons, hz, ih hrest]
    rfl

theorem exists_of_mapM_eq_error {xs : List α} {e : ε} (h : xs.mapM f = .error e) :
    ∃ x ∈ xs, f x = .error e := by
  induction xs with
  | nil => cases h
  | cons x xs ih =>
    rw [List.mapM_cons] at h
    rcases bind_eq_error.mp h with hx | ⟨y, -, h⟩
    · exact ⟨x, List.mem_cons_self, hx⟩
    · rcases bind_eq_error.mp h with hxs | ⟨ys, -, h⟩
      · obtain ⟨w, hw, hfw⟩ := ih hxs
        exact ⟨w, List.mem_cons_of_mem x hw, hfw⟩
      · cases h

end Except

namespace HornClause

-- ============================================================================
-- Words and arrows
-- ============================================================================

namespace Text

/-- Uppercase letters, one at least. -/
def IsWord (chars : List Char) : Prop := chars ≠ [] ∧ ∀ c ∈ chars, c.isUpper = true

instance (chars : List Char) : Decidable (IsWord chars) :=
  decidable_of_iff ((!chars.isEmpty && chars.all Char.isUpper) = true) (by simp [IsWord])

/-- Two words with an arrow between them. -/
def IsImplication (chars : List Char) : Prop :=
  ∃ premise conclusion, IsWord premise ∧ IsWord conclusion ∧
    chars = premise ++ '=' :: '>' :: conclusion

theorem IsWord.not_mem {chars : List Char} (h : IsWord chars) {c : Char}
    (hc : c.isUpper = false) : c ∉ chars := by
  intro hmem
  rw [h.2 c hmem] at hc
  cases hc

theorem arrowParts_of_not_mem {chars : List Char} (h : '=' ∉ chars) :
    arrowParts chars = [chars] := by
  induction chars with
  | nil => exact arrowParts_nil
  | cons c rest ih =>
    rw [List.mem_cons, not_or] at h
    rw [arrowParts_cons fun hc => absurd hc.symm h.1, ih h.2]
    rfl

/-- The parts on either side of an arrow are those of what stands there, wherever the arrow
    is: arrows do not overlap. -/
theorem arrowParts_append (before after : List Char) :
    arrowParts (before ++ '=' :: '>' :: after) = arrowParts before ++ arrowParts after := by
  fun_induction arrowParts before with
  | case1 => exact arrowParts_arrow after
  | case2 rest ih =>
    rw [List.cons_append, List.cons_append, arrowParts_arrow, ih, List.cons_append]
  | case3 c rest hstart ih =>
    have hhead : c = '=' → (rest ++ '=' :: '>' :: after).head? ≠ some '>' := by
      rintro rfl hhead
      cases rest with
      | nil => exact absurd (Option.some.inj hhead) (by decide)
      | cons d rest =>
        cases hhead
        exact hstart rest rfl rfl
    obtain ⟨part, parts, hparts⟩ := List.exists_cons_of_ne_nil (arrowParts_ne_nil rest)
    rw [List.cons_append, arrowParts_cons hhead, ih, hparts]
    rfl

/-- A part without an equals sign ends at the next arrow. -/
theorem arrowParts_append_arrow {first rest : List Char} (h : '=' ∉ first) :
    arrowParts (first ++ '=' :: '>' :: rest) = first :: arrowParts rest := by
  rw [arrowParts_append, arrowParts_of_not_mem h]
  rfl

/-- The parts of a text, with arrows between them, are the text. -/
theorem intercalate_arrowParts (chars : List Char) :
    ['=', '>'].intercalate (arrowParts chars) = chars := by
  fun_induction arrowParts chars with
  | case1 => rfl
  | case2 rest ih =>
    obtain ⟨part, parts, hparts⟩ := List.exists_cons_of_ne_nil (arrowParts_ne_nil rest)
    rw [hparts] at ih ⊢
    rw [List.intercalate_cons_cons, ih]
    rfl
  | case3 c rest _ ih =>
    obtain ⟨part, parts, hparts⟩ := List.exists_cons_of_ne_nil (arrowParts_ne_nil rest)
    rw [hparts] at ih ⊢
    cases parts with
    | nil =>
      rw [List.intercalate_singleton] at ih
      rw [List.modifyHead_cons, List.intercalate_singleton, ih]
    | cons second parts =>
      rw [List.intercalate_cons_cons] at ih
      rw [List.modifyHead_cons, List.intercalate_cons_cons, ← ih]
      rfl

theorem eq_of_arrowParts_one {chars part : List Char} (h : arrowParts chars = [part]) :
    chars = part := by
  rw [← intercalate_arrowParts chars, h, List.intercalate_singleton]

theorem eq_of_arrowParts_two {chars premise conclusion : List Char}
    (h : arrowParts chars = [premise, conclusion]) :
    chars = premise ++ '=' :: '>' :: conclusion := by
  rw [← intercalate_arrowParts chars, h, List.intercalate_cons_cons,
    List.intercalate_singleton, List.append_assoc]
  rfl

theorem IsWord.arrowParts {chars : List Char} (h : IsWord chars) : arrowParts chars = [chars] :=
  arrowParts_of_not_mem (h.not_mem (by decide))

theorem IsWord.arrowParts_implication {premise conclusion : List Char} (hp : IsWord premise)
    (hc : IsWord conclusion) :
    Text.arrowParts (premise ++ '=' :: '>' :: conclusion) = [premise, conclusion] := by
  rw [arrowParts_append_arrow (hp.not_mem (by decide)), hc.arrowParts]

theorem isImplication_iff {chars : List Char} :
    IsImplication chars ↔ ∃ premise conclusion, arrowParts chars = [premise, conclusion] ∧
      IsWord premise ∧ IsWord conclusion := by
  constructor
  · rintro ⟨premise, conclusion, hp, hc, rfl⟩
    exact ⟨premise, conclusion, hp.arrowParts_implication hc, hp, hc⟩
  · rintro ⟨premise, conclusion, hparts, hp, hc⟩
    exact ⟨premise, conclusion, hp, hc, eq_of_arrowParts_two hparts⟩

theorem IsImplication.length_ne_one {chars : List Char} (h : IsImplication chars) :
    chars.length ≠ 1 := by
  obtain ⟨premise, conclusion, hp, hc, rfl⟩ := h
  rw [List.length_append, List.length_cons, List.length_cons]
  omega

/-- Whether the parts of a text are two words. -/
def areTwoWords : List (List Char) → Bool
  | [premise, conclusion] => decide (IsWord premise) && decide (IsWord conclusion)
  | _ => false

theorem areTwoWords_eq_true_iff {parts : List (List Char)} :
    areTwoWords parts = true ↔ ∃ premise conclusion, parts = [premise, conclusion] ∧
      IsWord premise ∧ IsWord conclusion := by
  rcases parts with _ | ⟨premise, _ | ⟨conclusion, _ | ⟨third, rest⟩⟩⟩ <;> simp [areTwoWords]

instance (chars : List Char) : Decidable (IsImplication chars) :=
  decidable_of_iff (areTwoWords (arrowParts chars) = true)
    (areTwoWords_eq_true_iff.trans isImplication_iff.symm)

end Text

namespace Formula

variable {known : Char → Option Atom}

-- ============================================================================
-- Atoms
-- ============================================================================

/-- A character that is known stands for an atom of its own letter. -/
def Faithful (known : Char → Option Atom) : Prop := ∀ c a, known c = some a → a.symbol = c

/-- The atom that a letter is read as: the one it is known as, or else a false one. -/
def atomFor (known : Char → Option Atom) (l : Letter) : Atom := (known l.char).getD ⟨l, false⟩

theorem letter_atomFor (hknown : Faithful known) (l : Letter) : (atomFor known l).letter = l := by
  rw [atomFor]
  cases h : known l.char with
  | none => rfl
  | some a => exact Letter.ext (hknown l.char a h)

/-- Exactly the letters can be read, each as the atom it stands for. -/
theorem readAtom_eq_ok_iff (hknown : Faithful known) {c : Char} {a : Atom} :
    readAtom known c = .ok a ↔ a.symbol = c ∧ atomFor known a.letter = a := by
  rw [readAtom]
  cases hc : known c with
  | some b =>
    have hb := hknown c b hc
    constructor
    · intro h
      cases h
      refine ⟨hb, ?_⟩
      show (known a.symbol).getD _ = a
      rw [hb, hc]
      rfl
    · rintro ⟨rfl, ha⟩
      have hsome : atomFor known a.letter = b := by
        show (known a.symbol).getD _ = b
        rw [hc]
        rfl
      rw [← ha, hsome]
  | none =>
    rw [Atom.ofChar, Letter.ofChar]
    cases hl : Letter.ofChar? c with
    | none =>
      constructor
      · intro h
        cases h
      · rintro ⟨rfl, -⟩
        rw [Atom.symbol, Letter.ofChar?_char] at hl
        cases hl
    | some l =>
      have hchar := Letter.ofChar?_eq_some_iff.mp hl
      have hfor : atomFor known l = ⟨l, false⟩ := by
        rw [atomFor, hchar, hc]
        rfl
      constructor
      · intro h
        cases h
        exact ⟨hchar, hfor⟩
      · rintro ⟨hsymbol, ha⟩
        have hletter : a.letter = l := Letter.ext (hsymbol.trans hchar.symm)
        rw [← ha, hletter, hfor]
        rfl

theorem exists_readAtom_iff (hknown : Faithful known) {c : Char} :
    (∃ a, readAtom known c = .ok a) ↔ c.isUpper = true := by
  constructor
  · rintro ⟨a, ha⟩
    rw [← ((readAtom_eq_ok_iff hknown).mp ha).1]
    exact a.letter.isUpper
  · intro hc
    have hletter := letter_atomFor hknown ⟨c, hc⟩
    refine ⟨atomFor known ⟨c, hc⟩, (readAtom_eq_ok_iff hknown).mpr ⟨?_, ?_⟩⟩
    · exact congrArg Letter.char hletter
    · rw [hletter]

theorem readAtom_of_not_upper (hknown : Faithful known) {c : Char} (hc : c.isUpper = false) :
    readAtom known c = .error (.badSymbol (String.singleton c)) := by
  have hnone : known c = none := by
    by_contra hsome
    obtain ⟨a, ha⟩ := Option.ne_none_iff_exists'.mp hsome
    have hupper := a.letter.isUpper
    rw [show a.letter.char = c from hknown c a ha, hc] at hupper
    cases hupper
  rw [readAtom, hnone, Atom.ofChar, Letter.ofChar, Letter.ofChar?_eq_none_iff.mpr hc]
  rfl

theorem mapM_readAtom_eq_ok_iff (hknown : Faithful known) {chars : List Char} {as : List Atom} :
    chars.mapM (readAtom known) = .ok as ↔
      as.map Atom.symbol = chars ∧ ∀ a ∈ as, atomFor known a.letter = a :=
  Except.mapM_eq_ok_iff fun _ _ => readAtom_eq_ok_iff hknown

-- ============================================================================
-- Conjunctions
-- ============================================================================

/-- An atom, or a conjunction of atoms that is nested to the left. -/
def LeftNested (f : Formula) : Prop := ∃ first others, f = conjoin first others

/-- All atoms of a formula are as their letters are read. -/
def KnownBy (known : Char → Option Atom) (f : Formula) : Prop :=
  ∀ a ∈ f.atoms, atomFor known a.letter = a

theorem chars_conjoin (first : Atom) (others : List Atom) :
    (conjoin first others).chars = (first :: others).map Atom.symbol := by
  have hfold : ∀ (f : Formula) (rest : List Atom),
      (rest.foldl (fun g a => .compound .conjunction g (.atom a)) f).chars =
        f.chars ++ rest.map Atom.symbol := by
    intro f rest
    induction rest generalizing f with
    | nil => simp
    | cons a rest ih =>
      rw [List.foldl_cons, ih]
      simp [Connective.token]
  exact hfold (.atom first) others

theorem LeftNested.isConjunction {f : Formula} (h : f.LeftNested) : f.isConjunction = true := by
  obtain ⟨first, others, rfl⟩ := h
  exact isConjunction_conjoin first others

theorem LeftNested.isWord {f : Formula} (h : f.LeftNested) : Text.IsWord f.chars := by
  obtain ⟨first, others, rfl⟩ := h
  rw [chars_conjoin]
  refine ⟨List.cons_ne_nil _ _, fun c hc => ?_⟩
  obtain ⟨a, -, rfl⟩ := List.mem_map.mp hc
  exact a.letter.isUpper

/-- An atom, or a conjunction with an atom on its right and such a formula on its left. -/
inductive LeftSpine : Formula → Prop where
  | atom (a : Atom) : LeftSpine (.atom a)
  | conjunction {left : Formula} (hleft : LeftSpine left) (a : Atom) :
      LeftSpine (.compound .conjunction left (.atom a))

/-- Atoms that are joined one after the other hang on a spine to the left. -/
theorem LeftNested.leftSpine {f : Formula} (h : f.LeftNested) : f.LeftSpine := by
  obtain ⟨first, others, rfl⟩ := h
  induction others using List.reverseRecOn with
  | nil => exact .atom first
  | append_singleton others last ih =>
    rw [conjoin, List.foldl_append]
    exact .conjunction ih last

theorem LeftSpine.leftNested {f : Formula} (h : f.LeftSpine) : f.LeftNested := by
  induction h with
  | atom a => exact ⟨a, [], rfl⟩
  | conjunction hleft a ih =>
    obtain ⟨first, others, rfl⟩ := ih
    refine ⟨first, others ++ [a], ?_⟩
    rw [conjoin, conjoin, List.foldl_append]
    rfl

theorem readConjunction_eq_ok_iff (hknown : Faithful known) {chars : List Char} {f : Formula} :
    readConjunction known chars = .ok f ↔ f.LeftNested ∧ f.chars = chars ∧ f.KnownBy known := by
  constructor
  · intro h
    cases chars with
    | nil => cases h
    | cons c rest =>
      rw [readConjunction] at h
      obtain ⟨first, hfirst, h⟩ := Except.bind_eq_ok.mp h
      obtain ⟨others, hothers, h⟩ := Except.bind_eq_ok.mp h
      cases h
      obtain ⟨hsymbol, hfor⟩ := (readAtom_eq_ok_iff hknown).mp hfirst
      obtain ⟨hsymbols, hall⟩ := (mapM_readAtom_eq_ok_iff hknown).mp hothers
      refine ⟨⟨first, others, rfl⟩, ?_, ?_⟩
      · rw [chars_conjoin, List.map_cons, hsymbol, hsymbols]
      · rw [KnownBy, atoms_conjoin]
        exact List.forall_mem_cons.mpr ⟨hfor, hall⟩
  · rintro ⟨⟨first, others, rfl⟩, rfl, hall⟩
    rw [KnownBy, atoms_conjoin] at hall
    obtain ⟨hfirst, hothers⟩ := List.forall_mem_cons.mp hall
    rw [chars_conjoin, List.map_cons, readConjunction,
      (readAtom_eq_ok_iff hknown).mpr ⟨rfl, hfirst⟩,
      (mapM_readAtom_eq_ok_iff hknown).mpr ⟨rfl, hothers⟩]
    rfl

/-- Every word spells a conjunction. -/
theorem exists_readConjunction_iff (hknown : Faithful known) {chars : List Char} :
    (∃ f, readConjunction known chars = .ok f) ↔ Text.IsWord chars := by
  constructor
  · rintro ⟨f, hf⟩
    obtain ⟨hnested, rfl, -⟩ := (readConjunction_eq_ok_iff hknown).mp hf
    exact hnested.isWord
  · rintro ⟨hne, hupper⟩
    obtain ⟨as, has⟩ := Except.exists_mapM_eq_ok_iff.mpr fun c hc =>
      (exists_readAtom_iff hknown).mpr (hupper c hc)
    obtain ⟨hsymbols, hall⟩ := (mapM_readAtom_eq_ok_iff hknown).mp has
    obtain ⟨first, others, rfl⟩ : ∃ first others, as = first :: others := by
      refine List.exists_cons_of_ne_nil fun hnil => hne ?_
      rw [← hsymbols, hnil]
      rfl
    refine ⟨conjoin first others, (readConjunction_eq_ok_iff hknown).mpr
      ⟨⟨first, others, rfl⟩, ?_, ?_⟩⟩
    · rw [chars_conjoin, hsymbols]
    · rw [KnownBy, atoms_conjoin]
      exact hall

/-- What is no word is empty, or is refused for its first character that is no letter. -/
theorem readConjunction_eq_error (hknown : Faithful known) {chars : List Char} {e : ParseError}
    (h : readConjunction known chars = .error e) :
    (chars = [] ∧ e = .empty) ∨
      ∃ c, chars.find? (fun c => !c.isUpper) = some c ∧ e = .badSymbol (String.singleton c) := by
  cases chars with
  | nil =>
    cases h
    exact Or.inl ⟨rfl, rfl⟩
  | cons first rest =>
    refine Or.inr ?_
    cases hfind : (first :: rest).find? (fun c => !c.isUpper) with
    | none =>
      have hword : Text.IsWord (first :: rest) := by
        refine ⟨List.cons_ne_nil _ _, fun c hc => ?_⟩
        simpa using List.find?_eq_none.mp hfind c hc
      obtain ⟨f, hf⟩ := (exists_readConjunction_iff hknown).mpr hword
      rw [hf] at h
      cases h
    | some c =>
      obtain ⟨hc, before, after, hsplit, hbefore⟩ := List.find?_eq_some_iff_append.mp hfind
      have hmapM : (first :: rest).mapM (readAtom known) =
          .error (.badSymbol (String.singleton c)) := by
        rw [hsplit]
        have hrefused := readAtom_of_not_upper hknown (c := c) (by simpa using hc)
        refine Except.mapM_eq_error (fun d hd => ?_) hrefused
        exact (exists_readAtom_iff hknown).mpr (by simpa using hbefore d hd)
      -- Both chains try the same characters in the same order.
      refine ⟨c, rfl, ?_⟩
      rw [List.mapM_cons] at hmapM
      rw [readConjunction] at h
      rcases Except.bind_eq_error.mp h with hfirst | ⟨a, ha, h⟩
      · rw [hfirst] at hmapM
        exact Except.error.inj hmapM
      · rw [ha] at hmapM
        rcases Except.bind_eq_error.mp h with hrest | ⟨as, -, h⟩
        · rw [hrest] at hmapM
          exact Except.error.inj hmapM
        · cases h

-- ============================================================================
-- Formulas
-- ============================================================================

/-- The formulas that a text can be read as. An entry that is no implication has to be
    a single letter. -/
inductive Readable (reading : Reading) : Formula → Prop where
  | conjunction {f : Formula} (hf : f.LeftNested)
      (hentry : reading = .entry → f.isAtom = true) : Readable reading f
  | implication {left right : Formula} (hleft : left.LeftNested) (hright : right.LeftNested) :
      Readable reading (.compound .implication left right)

theorem knownBy_compound {c : Connective} {left right : Formula} :
    (compound c left right).KnownBy known ↔ left.KnownBy known ∧ right.KnownBy known := by
  rw [KnownBy, atoms_compound, List.forall_mem_append]
  rfl

theorem chars_implication (left right : Formula) :
    (compound .implication left right).chars = left.chars ++ '=' :: '>' :: right.chars := by
  rw [chars_compound, List.append_assoc]
  rfl

/-- Among the conjunctions that can be read, the atoms are those of one letter. -/
theorem LeftNested.isAtom_iff {f : Formula} (h : f.LeftNested) :
    f.isAtom = true ↔ ¬ 1 < f.chars.length := by
  obtain ⟨first, others, rfl⟩ := h
  rw [chars_conjoin, List.length_map]
  cases others using List.reverseRecOn with
  | nil => simp [conjoin, isAtom, asAtom?]
  | append_singleton others last => simp [conjoin, isAtom, asAtom?]

/-- Reading gives a formula exactly if the formula is one that can be read, has the
    text, and its atoms are as they are known. -/
theorem parse_eq_ok_iff (hknown : Faithful known) {reading : Reading} {text : String}
    {f : Formula} :
    parse known reading text = .ok f ↔
      f.chars = text.toList ∧ f.KnownBy known ∧ f.Readable reading := by
  constructor
  · intro h
    rw [parse] at h
    split at h
    · rename_i letters hparts
      obtain ⟨g, hg, h⟩ := Except.bind_eq_ok.mp h
      obtain ⟨hnested, hchars, hg⟩ := (readConjunction_eq_ok_iff hknown).mp hg
      split at h
      · cases h
      · rename_i hentry
        cases h
        refine ⟨hchars.trans (Text.eq_of_arrowParts_one hparts).symm, hg, .conjunction hnested ?_⟩
        intro hreading
        rw [hnested.isAtom_iff, hchars]
        exact fun hlength => hentry ⟨hreading, hlength⟩
    · rename_i premise conclusion hparts
      split at h
      · cases h
      · obtain ⟨left, hleft, h⟩ := Except.bind_eq_ok.mp h
        obtain ⟨right, hright, h⟩ := Except.bind_eq_ok.mp h
        cases h
        obtain ⟨hnestedl, hcharsl, hl⟩ := (readConjunction_eq_ok_iff hknown).mp hleft
        obtain ⟨hnestedr, hcharsr, hr⟩ := (readConjunction_eq_ok_iff hknown).mp hright
        refine ⟨?_, knownBy_compound.mpr ⟨hl, hr⟩, .implication hnestedl hnestedr⟩
        rw [chars_implication, hcharsl, hcharsr, Text.eq_of_arrowParts_two hparts]
    · cases h
  · rintro ⟨hchars, hf, hreadable⟩
    rw [parse, ← hchars]
    cases hreadable with
    | conjunction hnested hentry =>
      rw [hnested.isWord.arrowParts]
      have hread : readConjunction known f.chars = .ok f :=
        (readConjunction_eq_ok_iff hknown).mpr ⟨hnested, rfl, hf⟩
      have hfits : ¬ (reading = .entry ∧ f.chars.length > 1) :=
        fun h => hnested.isAtom_iff.mp (hentry h.1) h.2
      simp only [hread, bind, Except.bind]
      rw [if_neg hfits]
      rfl
    | implication hnestedl hnestedr =>
      rename_i left right
      obtain ⟨hl, hr⟩ := knownBy_compound.mp hf
      have hleft : readConjunction known left.chars = .ok left :=
        (readConjunction_eq_ok_iff hknown).mpr ⟨hnestedl, rfl, hl⟩
      have hright : readConjunction known right.chars = .ok right :=
        (readConjunction_eq_ok_iff hknown).mpr ⟨hnestedr, rfl, hr⟩
      rw [chars_implication, hnestedl.isWord.arrowParts_implication hnestedr.isWord]
      simp only [hleft, hright, bind, Except.bind, List.isEmpty_eq_false_iff.mpr hnestedl.isWord.1,
        List.isEmpty_eq_false_iff.mpr hnestedr.isWord.1]
      rfl

/-- Whether a text can be read is a matter of which characters can be: what they are
    known as only shows in the atoms. -/
theorem exists_parse_of_parse {known' : Char → Option Atom} {reading : Reading} {text : String}
    {f : Formula}
    (hatom : ∀ c a, readAtom known c = .ok a → ∃ b, readAtom known' c = .ok b)
    (h : parse known reading text = .ok f) : ∃ g, parse known' reading text = .ok g := by
  have hread : ∀ {chars f}, readConjunction known chars = .ok f →
      ∃ g, readConjunction known' chars = .ok g := by
    intro chars f hf
    cases chars with
    | nil => cases hf
    | cons c rest =>
      obtain ⟨first, hfirst, hf⟩ := Except.bind_eq_ok.mp hf
      obtain ⟨others, hothers, -⟩ := Except.bind_eq_ok.mp hf
      obtain ⟨first', hfirst'⟩ := hatom c first hfirst
      obtain ⟨others', hothers'⟩ :
          ∃ others', rest.mapM (readAtom known') = .ok others' := by
        refine Except.exists_mapM_eq_ok_iff.mpr fun d hd => ?_
        obtain ⟨b, hb⟩ := Except.exists_mapM_eq_ok_iff.mp ⟨others, hothers⟩ d hd
        exact hatom d b hb
      refine ⟨conjoin first' others', ?_⟩
      rw [readConjunction, hfirst', hothers']
      rfl
  rw [parse] at h
  split at h
  · rename_i letters hparts
    obtain ⟨g, hg, h⟩ := Except.bind_eq_ok.mp h
    obtain ⟨g', hg'⟩ := hread hg
    split at h
    · cases h
    · rename_i hentry
      refine ⟨g', ?_⟩
      rw [parse, hparts]
      simp only [hg', bind, Except.bind]
      exact if_neg hentry
  · rename_i premise conclusion hparts
    split at h
    · cases h
    · rename_i hsides
      obtain ⟨left, hleft, h⟩ := Except.bind_eq_ok.mp h
      obtain ⟨right, hright, -⟩ := Except.bind_eq_ok.mp h
      obtain ⟨left', hleft'⟩ := hread hleft
      obtain ⟨right', hright'⟩ := hread hright
      refine ⟨.compound .implication left' right', ?_⟩
      rw [parse, hparts]
      simp only [hleft', hright', bind, Except.bind]
      exact if_neg hsides
  · cases h

end Formula

-- ============================================================================
-- Rules
-- ============================================================================

/-- Both sides of a rule are as they are read where some letters are declared. -/
structure Rule.Canonical (declared : List Letter) (r : Rule) : Prop where
  premise_nested : r.premise.LeftNested
  conclusion_nested : r.conclusion.LeftNested
  premise_agrees : r.premise.AgreesWith declared
  conclusion_agrees : r.conclusion.AgreesWith declared

namespace KnowledgeBase

variable {declared : List Letter} {entry : List Char}

theorem faithful_factFor (declared : List Letter) : Formula.Faithful (factFor declared) :=
  fun _ _ h => (factFor_eq_some_iff.mp h).1

theorem atomFor_factFor (declared : List Letter) (l : Letter) :
    Formula.atomFor (factFor declared) l = ⟨l, decide (l ∈ declared)⟩ := by
  rw [Formula.atomFor, factFor_char]
  by_cases h : l ∈ declared
  · rw [if_pos h, decide_eq_true h]
    rfl
  · rw [if_neg h, decide_eq_false h]
    rfl

/-- Where the facts alone are known, atoms are read so as to agree with them. -/
theorem knownBy_factFor_iff {f : Formula} :
    f.KnownBy (factFor declared) ↔ f.AgreesWith declared := by
  refine forall₂_congr fun a _ => ?_
  rw [atomFor_factFor, Atom.ext_iff, Atom.AgreesWith]
  cases h : a.value <;> simp

theorem parse_implication_iff {text : String} {premise conclusion : Formula} :
    Formula.parse (factFor declared) .entry text =
        .ok (.compound .implication premise conclusion) ↔
      (Rule.mk premise conclusion).text = text ∧
        (Rule.mk premise conclusion).Canonical declared := by
  have htext : (Rule.mk premise conclusion).text = text ↔
      (Formula.compound .implication premise conclusion).chars = text.toList := by
    rw [← String.toList_inj, Rule.text, Formula.toList_text]
    rfl
  rw [Formula.parse_eq_ok_iff (faithful_factFor declared), htext, knownBy_factFor_iff,
    Formula.agreesWith_compound]
  constructor
  · rintro ⟨hchars, ⟨hp, hc⟩, hreadable⟩
    refine ⟨hchars, ?_⟩
    cases hreadable with
    | conjunction hnested hentry => cases hnested.isConjunction
    | implication hnestedp hnestedc => exact ⟨hnestedp, hnestedc, hp, hc⟩
  · rintro ⟨hchars, hcanonical⟩
    exact ⟨hchars, ⟨hcanonical.premise_agrees, hcanonical.conclusion_agrees⟩,
      .implication hcanonical.premise_nested hcanonical.conclusion_nested⟩

/-- The rule of an entry is the one canonical rule with that text. -/
theorem readRule_eq_ok_iff {r : Rule} :
    readRule (factFor declared) entry = .ok r ↔ r.text = String.ofList entry ∧ r.Canonical declared := by
  rw [readRule, Except.bind_eq_ok, ← parse_implication_iff]
  constructor
  · rintro ⟨f, hf, hr⟩
    rw [Rule.ofFormula.eq_def] at hr
    split at hr
    · cases hr
      exact hf
    · cases hr
  · intro h
    exact ⟨_, h, Rule.ofFormula_toFormula r⟩

theorem mapM_readRule_eq_ok_iff {entries : List (List Char)} {rules : List Rule} :
    entries.mapM (readRule (factFor declared)) = .ok rules ↔
      rules.map (fun r => r.text.toList) = entries ∧ ∀ r ∈ rules, r.Canonical declared := by
  refine Except.mapM_eq_ok_iff fun entry r => ?_
  rw [readRule_eq_ok_iff, ← String.toList_inj, String.toList_ofList]

/-- Exactly the implications are entries of rules, whatever is declared. -/
theorem exists_readRule_iff : (∃ r, readRule (factFor declared) entry = .ok r) ↔
    Text.IsImplication entry := by
  constructor
  · rintro ⟨r, hr⟩
    obtain ⟨htext, hcanonical⟩ := readRule_eq_ok_iff.mp hr
    refine ⟨r.premise.chars, r.conclusion.chars, hcanonical.premise_nested.isWord,
      hcanonical.conclusion_nested.isWord, ?_⟩
    have hchars := congrArg String.toList htext
    rw [String.toList_ofList, Rule.text, Formula.toList_text] at hchars
    rw [← hchars]
    exact Formula.chars_implication r.premise r.conclusion
  · rintro ⟨premise, conclusion, hp, hc, rfl⟩
    have hknown := faithful_factFor declared
    obtain ⟨left, hleft⟩ := (Formula.exists_readConjunction_iff hknown).mpr hp
    obtain ⟨right, hright⟩ := (Formula.exists_readConjunction_iff hknown).mpr hc
    obtain ⟨hnestedl, rfl, hl⟩ := (Formula.readConjunction_eq_ok_iff hknown).mp hleft
    obtain ⟨hnestedr, rfl, hr⟩ := (Formula.readConjunction_eq_ok_iff hknown).mp hright
    refine ⟨⟨left, right⟩, readRule_eq_ok_iff.mpr ⟨?_, hnestedl, hnestedr,
      knownBy_factFor_iff.mp hl, knownBy_factFor_iff.mp hr⟩⟩
    rw [← Formula.chars_implication]
    rfl

/-- An entry of several characters that is no rule is no formula either: it is refused
    when it is read, and never for being another formula than a rule. -/
theorem parse_of_readRule_error (hentry : isFactEntry entry = false) {e : ParseError}
    (h : readRule (factFor declared) entry = .error e) :
    Formula.parse (factFor declared) .entry (String.ofList entry) = .error e := by
  rcases Except.bind_eq_error.mp h with hf | ⟨f, hf, h⟩
  · exact hf
  · obtain ⟨hchars, -, hreadable⟩ := (Formula.parse_eq_ok_iff (faithful_factFor declared)).mp hf
    cases hreadable with
    | conjunction hnested hatom =>
      rw [String.toList_ofList] at hchars
      have hlength := hnested.isAtom_iff.mp (hatom rfl)
      have hne := List.length_pos_of_ne_nil hnested.isWord.1
      rw [hchars] at hlength hne
      rw [isFactEntry, beq_eq_false_iff_ne] at hentry
      omega
    | implication hnestedl hnestedr => cases h

/-- Only letters are known, so a text that can be read against any base is the text of a
    formula, whatever the base has under its letters. -/
theorem exists_text_eq_of_parse {kb : KnowledgeBase} {reading : Formula.Reading} {text : String}
    {f : Formula} (h : Formula.parse kb.known reading text = .ok f) :
    ∃ g : Formula, g.text = text := by
  have hnone : Formula.Faithful fun _ => none := fun _ _ hsome => nomatch hsome
  have hatom : ∀ c a, Formula.readAtom kb.known c = .ok a →
      ∃ b, Formula.readAtom (fun _ => none) c = .ok b := by
    intro c a ha
    rw [Formula.exists_readAtom_iff hnone]
    cases hc : Letter.ofChar? c with
    | none =>
      rw [Formula.readAtom, known, hc] at ha
      simp [Atom.ofChar, Letter.ofChar, hc, Except.map] at ha
    | some l =>
      rw [← Letter.ofChar?_eq_some_iff.mp hc]
      exact l.isUpper
  obtain ⟨g, hg⟩ := Formula.exists_parse_of_parse hatom h
  obtain ⟨hchars, -, -⟩ := (Formula.parse_eq_ok_iff hnone).mp hg
  exact ⟨g, String.toList_inj.mp ((Formula.toList_text g).trans hchars)⟩

end KnowledgeBase

end HornClause
