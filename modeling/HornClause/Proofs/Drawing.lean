/-
  HornClause.Proofs.Drawing

  A trace can be read off its drawing. A line carries the margin of its level, a branch,
  the label with a number if it is not the first of its kind, and the outcome of a leaf.
  Each of these ends where something else must begin, so none can be taken for another:

    * a line ends at the first line break (`linesOf_join`), a label at the first colon
      (`line_inj`) and before the digits of its number (`withoutNumber_numbered`);
    * the lines below a node have a rail where the next sibling has its branch
      (`siblingLines_cons_inj`).

  What is not shown are the outcomes of the root and of the nodes with children. `Alike` is
  equality up to these, and the nodes below two roots are drawn the same exactly if they
  are alike (`alike_of_siblingLines`, `siblingLines_of_alike`).

  This needs labels that have no line break and no colon in them and do not end in a digit
  (`PlainLabel`). The trace of an answer has no others (`plainLabel_of_ask`).
-/
import Mathlib.Data.List.DropRight
import Mathlib.Data.List.Forall2
import HornClause.Proofs.Grammar
import HornClause.Proofs.Provenance
import HornClause.Trace.Render

/-- A list falls in one way only into elements with a property and a rest that does not
    start with one of them. -/
theorem List.append_inj_of_forall {α : Type} {p : α → Prop} {l₁ l₂ r₁ r₂ : List α}
    (hl₁ : ∀ a ∈ l₁, p a) (hl₂ : ∀ a ∈ l₂, p a) (hr₁ : ∀ a ∈ r₁.head?, ¬ p a)
    (hr₂ : ∀ a ∈ r₂.head?, ¬ p a) (h : l₁ ++ r₁ = l₂ ++ r₂) : l₁ = l₂ ∧ r₁ = r₂ := by
  induction l₁ generalizing l₂ with
  | nil =>
    cases l₂ with
    | nil => exact ⟨rfl, h⟩
    | cons b l₂ =>
      rw [List.nil_append] at h
      subst h
      exact absurd (hl₂ b List.mem_cons_self) (hr₁ b rfl)
  | cons a l₁ ih =>
    cases l₂ with
    | nil =>
      rw [List.nil_append] at h
      subst h
      exact absurd (hl₁ a List.mem_cons_self) (hr₂ a rfl)
    | cons b l₂ =>
      obtain ⟨rfl, htail⟩ := List.cons.inj h
      have hl₁ := (List.forall_mem_cons.mp hl₁).2
      have hl₂ := (List.forall_mem_cons.mp hl₂).2
      obtain ⟨rfl, hrest⟩ := ih hl₁ hl₂ htail
      exact ⟨rfl, hrest⟩

namespace HornClause

/-- The words for an outcome tell which one it is. -/
theorem Outcome.text_inj {o p : Outcome} (h : o.text = p.text) : o = p := by
  revert h
  cases o <;> cases p <;> decide

namespace Trace

-- ============================================================================
-- Labels
-- ============================================================================

/-- A text without a line break. -/
def OneLine (text : String) : Prop := '\n' ∉ text.toList

instance (text : String) : Decidable (OneLine text) := inferInstanceAs (Decidable (¬ _))

/-- A label that nothing of a line can be confused with: there is no line break and no
    colon in it, and it does not end in a decimal digit. -/
structure PlainLabel (label : String) : Prop where
  oneLine : OneLine label
  noColon : ':' ∉ label.toList
  noDigit : ∀ c, label.toList.getLast? = some c → c.isDigit = false

theorem plainLabel_iff {label : String} :
    PlainLabel label ↔ OneLine label ∧ ':' ∉ label.toList ∧
      (label.toList.getLast?.all fun c => !c.isDigit) = true := by
  simp only [Option.all_eq_true, Bool.not_eq_true']
  exact ⟨fun h => ⟨h.oneLine, h.noColon, h.noDigit⟩, fun h => ⟨h.1, h.2.1, h.2.2⟩⟩

instance (label : String) : Decidable (PlainLabel label) := decidable_of_iff _ plainLabel_iff.symm

/-- A label that does not end in a decimal digit. -/
def EndsInNoDigit (label : String) : Prop :=
  ∀ c, label.toList.getLast? = some c → c.isDigit = false

/-- The text of a shown label before the decimal digits that it ends in. -/
def withoutNumber (shown : String) : String :=
  String.ofList (shown.toList.rdropWhile Char.isDigit)

/-- All nodes of a trace have labels with a property. -/
def EveryLabel (p : String → Prop) (t : Trace) : Prop := ∀ u ∈ t.preorder, p u.label

instance (p : String → Prop) [DecidablePred p] (t : Trace) : Decidable (t.EveryLabel p) :=
  inferInstanceAs (Decidable (∀ u ∈ t.preorder, p u.label))

section Labels

variable {p : String → Prop} {label : String} {o : Option Outcome} {ts : List Trace}

theorem everyLabel_node :
    (node label o ts).EveryLabel p ↔ p label ∧ ∀ t ∈ ts, t.EveryLabel p := by
  simp only [EveryLabel, preorder, List.forall_mem_cons, mem_preorderAll, label_node]
  refine and_congr_right fun _ => ?_
  constructor
  · intro h t ht u hu
    exact h u ⟨t, ht, hu⟩
  · rintro h u ⟨t, ht, hu⟩
    exact h t ht u hu

theorem EveryLabel.root {t : Trace} (h : t.EveryLabel p) : p t.label := by
  cases t
  exact (everyLabel_node.mp h).1

theorem EveryLabel.mono {q : String → Prop} (hpq : ∀ l, p l → q l) {t : Trace}
    (h : t.EveryLabel p) : t.EveryLabel q :=
  fun u hu => hpq u.label (h u hu)

theorem oneLine_append {s t : String} : OneLine (s ++ t) ↔ OneLine s ∧ OneLine t := by
  simp [OneLine, String.toList_append]

/-- What follows a label that is not the first of its kind are digits. -/
theorem exists_digits_of_numbered (label : String) (earlier : Nat) :
    ∃ digits, (∀ c ∈ digits, c.isDigit = true) ∧
      (numbered label earlier).toList = label.toList ++ digits := by
  rw [numbered]
  split
  · exact ⟨[], fun c hc => absurd hc List.not_mem_nil, (List.append_nil _).symm⟩
  · refine ⟨(toString (earlier + 1)).toList, fun c hc => ?_, String.toList_append⟩
    rw [Nat.toString_eq_ofList_toDigits, String.toList_ofList] at hc
    exact Nat.isDigit_of_mem_toDigits (by decide) (by decide) hc

theorem not_mem_numbered {c : Char} (hdigit : c.isDigit = false) (hlabel : c ∉ label.toList)
    (earlier : Nat) : c ∉ (numbered label earlier).toList := by
  obtain ⟨digits, hdigits, htext⟩ := exists_digits_of_numbered label earlier
  rw [htext, List.mem_append, not_or]
  refine ⟨hlabel, fun hc => ?_⟩
  rw [hdigits c hc] at hdigit
  cases hdigit

/-- A label is told from its number by the digits of the number. -/
theorem withoutNumber_numbered (h : EndsInNoDigit label) (earlier : Nat) :
    withoutNumber (numbered label earlier) = label := by
  obtain ⟨digits, hdigits, htext⟩ := exists_digits_of_numbered label earlier
  have hlabel : label.toList.rdropWhile Char.isDigit = label.toList := by
    rw [List.rdropWhile_eq_self_iff]
    intro hne
    rw [h _ (List.getLast?_eq_some_getLast hne)]
    exact Bool.false_ne_true
  rw [withoutNumber, htext, List.rdropWhile, List.reverse_append,
    List.dropWhile_append_of_pos fun c hc => hdigits c (List.mem_reverse.mp hc),
    ← List.rdropWhile, hlabel, String.ofList_toList]

theorem label_of_numbered {label' : String} (h : EndsInNoDigit label) (h' : EndsInNoDigit label')
    {m n : Nat} (heq : numbered label m = numbered label' n) : label = label' := by
  rw [← withoutNumber_numbered h m, heq, withoutNumber_numbered h']

/-- Siblings are shown under their labels, each with at least the number that the labels
    seen before them make. -/
theorem exists_label_of_mem_numberLabels {x : String} {seen labels : List String}
    (h : x ∈ numberLabels seen labels) :
    ∃ l ∈ labels, ∃ n, seen.count l ≤ n ∧ x = numbered l n := by
  induction labels generalizing seen with
  | nil => cases h
  | cons l rest ih =>
    rw [numberLabels, List.mem_cons] at h
    rcases h with rfl | h
    · exact ⟨l, List.mem_cons_self, _, Nat.le_refl _, rfl⟩
    · obtain ⟨k, hk, n, hn, hx⟩ := ih h
      exact ⟨k, List.mem_cons_of_mem l hk, n, Nat.le_trans List.count_le_count_cons hn, hx⟩

theorem length_numberLabels (seen labels : List String) :
    (numberLabels seen labels).length = labels.length := by
  induction labels generalizing seen with
  | nil => rfl
  | cons l rest ih => rw [numberLabels, List.length_cons, List.length_cons, ih]

theorem length_siblingLabels (ts : List Trace) : (siblingLabels ts).length = ts.length := by
  rw [siblingLabels, length_numberLabels, List.length_map]

/-- What is in no label is in no shown label either, digits apart. -/
theorem not_mem_of_mem_siblingLabels {c : Char} (hdigit : c.isDigit = false)
    (hts : ∀ t ∈ ts, c ∉ t.label.toList) {x : String} (h : x ∈ siblingLabels ts) :
    c ∉ x.toList := by
  obtain ⟨l, hl, n, -, rfl⟩ := exists_label_of_mem_numberLabels h
  obtain ⟨t, ht, rfl⟩ := List.mem_map.mp hl
  exact not_mem_numbered hdigit (hts t ht) n

theorem oneLine_of_mem_siblingLabels (hts : ∀ t ∈ ts, t.EveryLabel OneLine) {x : String}
    (h : x ∈ siblingLabels ts) : OneLine x :=
  not_mem_of_mem_siblingLabels (by decide) (fun t ht => (hts t ht).root) h

end Labels

-- ============================================================================
-- One line
-- ============================================================================

theorem toList_branch (last : Bool) :
    (branch last).toList = [if last then '└' else '├', '─', ' '] := by
  cases last <;> simp [branch]

theorem toList_rail (last : Bool) :
    (rail last).toList = [if last then ' ' else '│', ' ', ' '] := by
  cases last <;> simp [rail]

theorem oneLine_branch (last : Bool) : OneLine (branch last) := by
  rw [OneLine, toList_branch]
  cases last <;> decide

theorem oneLine_rail (last : Bool) : OneLine (rail last) := by
  rw [OneLine, toList_rail]
  cases last <;> decide

theorem oneLine_suffix (coloured : Bool) (t : Trace) : OneLine (t.suffix coloured) := by
  rw [suffix]
  split
  · rename_i o _ _
    cases o <;> cases coloured <;> decide +kernel
  · decide

/-- An outcome starts with a colon, if it is shown. -/
theorem head_suffix (t : Trace) : ∀ c ∈ (t.suffix false).toList.head?, c = ':' := by
  rw [suffix]
  split
  · rename_i o _ _
    intro c hc
    rw [String.toList_append] at hc
    exact (Option.some.inj hc).symm
  · intro c hc
    cases hc

/-- A branch is no rail. -/
theorem branch_append_ne (last last' : Bool) (x y : String) :
    branch last ++ x ≠ rail last' ++ y := by
  intro h
  have hchars := congrArg String.toList h
  rw [String.toList_append, String.toList_append, toList_branch, toList_rail] at hchars
  have hhead := (List.cons.inj hchars).1
  revert hhead
  cases last <;> cases last' <;> decide

/-- The parts of a line can be told apart. -/
theorem line_inj {margin label label' : String} {last last' : Bool} {s t : Trace}
    (hlabel : ':' ∉ label.toList) (hlabel' : ':' ∉ label'.toList)
    (h : margin ++ branch last ++ label ++ s.suffix false =
      margin ++ branch last' ++ label' ++ t.suffix false) :
    last = last' ∧ label = label' ∧ s.suffix false = t.suffix false := by
  simp only [String.append_assoc, String.append_right_inj] at h
  have hchars := congrArg String.toList h
  rw [String.toList_append, String.toList_append, String.toList_append,
    String.toList_append, toList_branch, toList_branch] at hchars
  obtain ⟨hbranch, hrest⟩ := List.append_inj hchars rfl
  have hcolon : ∀ u : Trace, ∀ c ∈ (u.suffix false).toList.head?, ¬ c ≠ ':' :=
    fun u c hc hne => hne (head_suffix u c hc)
  obtain ⟨hlabels, hsuffixes⟩ := List.append_inj_of_forall (p := fun c => c ≠ ':')
    (fun c hc hcolon => hlabel (hcolon ▸ hc)) (fun c hc hcolon => hlabel' (hcolon ▸ hc))
    (hcolon s) (hcolon t) hrest
  refine ⟨?_, String.toList_inj.mp hlabels, String.toList_inj.mp hsuffixes⟩
  have hglyph := (List.cons.inj hbranch).1
  revert hglyph
  cases last <;> cases last' <;> decide

-- ============================================================================
-- The lines of a level
-- ============================================================================

theorem siblingLines_cons (coloured : Bool) (margin : String) (t : Trace) (rest : List Trace)
    (label : String) (labels : List String) :
    siblingLines coloured margin (t :: rest) (label :: labels) =
      (margin ++ branch rest.isEmpty ++ label ++ t.suffix coloured) ::
        (t.linesBelow coloured (margin ++ rail rest.isEmpty) ++
          siblingLines coloured margin rest labels) := by
  rw [siblingLines, List.cons_append]

theorem siblingLines_nil (coloured : Bool) (margin : String) (labels : List String) :
    siblingLines coloured margin [] labels = [] := by
  rw [siblingLines]
  exact fun t rest label labels h => nomatch h

theorem siblingLines_no_labels (coloured : Bool) (margin : String) (ts : List Trace) :
    siblingLines coloured margin ts [] = [] := by
  rw [siblingLines]
  exact fun t rest label labels _ h => nomatch h

mutual

/-- Every line below a node goes on after the margin, and ends before any line break. -/
theorem exists_tail_of_mem_linesBelow (coloured : Bool) : ∀ (t : Trace) (margin : String),
    t.EveryLabel OneLine → ∀ line ∈ t.linesBelow coloured margin,
      ∃ tail, line = margin ++ tail ∧ OneLine tail
  | .node _ _ ts, margin, ht, line, hline => by
    obtain ⟨-, hts⟩ := everyLabel_node.mp ht
    rw [linesBelow] at hline
    exact exists_tail_of_mem_siblingLines coloured ts (siblingLabels ts) margin hts
      (fun _ => oneLine_of_mem_siblingLabels hts) line hline

theorem exists_tail_of_mem_siblingLines (coloured : Bool) :
    ∀ (ts : List Trace) (labels : List String) (margin : String),
      (∀ t ∈ ts, t.EveryLabel OneLine) → (∀ label ∈ labels, OneLine label) →
      ∀ line ∈ siblingLines coloured margin ts labels, ∃ tail, line = margin ++ tail ∧ OneLine tail
  | [], labels, margin, _, _, line, hline => by
    rw [siblingLines_nil] at hline
    cases hline
  | t :: rest, [], margin, _, _, line, hline => by
    rw [siblingLines_no_labels] at hline
    cases hline
  | t :: rest, label :: labels, margin, hts, hlabels, line, hline => by
    obtain ⟨ht, hrest⟩ := List.forall_mem_cons.mp hts
    obtain ⟨hlabel, hlabels⟩ := List.forall_mem_cons.mp hlabels
    rw [siblingLines_cons, List.mem_cons, List.mem_append] at hline
    rcases hline with rfl | hbelow | hlater
    · refine ⟨branch rest.isEmpty ++ label ++ t.suffix coloured, by simp only [String.append_assoc],
        oneLine_append.mpr ⟨oneLine_append.mpr ⟨oneLine_branch _, hlabel⟩, oneLine_suffix _ _⟩⟩
    · obtain ⟨tail, rfl, htail⟩ := exists_tail_of_mem_linesBelow coloured t _ ht line hbelow
      exact ⟨rail rest.isEmpty ++ tail, String.append_assoc,
        oneLine_append.mpr ⟨oneLine_rail _, htail⟩⟩
    · exact exists_tail_of_mem_siblingLines coloured rest labels margin hrest hlabels line hlater

end

/-- The first line of a level has a branch after the margin. -/
theorem exists_branch_of_head {coloured : Bool} {margin line : String} {ts : List Trace}
    {labels : List String} (h : line ∈ (siblingLines coloured margin ts labels).head?) :
    ∃ last tail, line = margin ++ (branch last ++ tail) := by
  cases ts with
  | nil =>
    rw [siblingLines_nil] at h
    cases h
  | cons t rest =>
    cases labels with
    | nil =>
      rw [siblingLines_no_labels] at h
      cases h
    | cons label labels =>
      rw [siblingLines_cons] at h
      cases h
      exact ⟨rest.isEmpty, label ++ t.suffix coloured, by simp only [String.append_assoc]⟩

/-- Where two levels begin with a sibling each, their first lines tell the labels and
    outcomes, and the lines below these siblings are told from those of the next. -/
theorem siblingLines_cons_inj {margin label label' : String} {s t : Trace} {ss ts : List Trace}
    {labels labels' : List String} (hs : s.EveryLabel OneLine) (ht : t.EveryLabel OneLine)
    (hlabel : ':' ∉ label.toList) (hlabel' : ':' ∉ label'.toList)
    (h : siblingLines false margin (s :: ss) (label :: labels) =
      siblingLines false margin (t :: ts) (label' :: labels')) :
    label = label' ∧ s.suffix false = t.suffix false ∧
      s.linesBelow false (margin ++ rail ss.isEmpty) =
        t.linesBelow false (margin ++ rail ss.isEmpty) ∧
      siblingLines false margin ss labels = siblingLines false margin ts labels' := by
  rw [siblingLines_cons, siblingLines_cons] at h
  obtain ⟨hline, hlines⟩ := List.cons.inj h
  obtain ⟨hlast, hlabels, hsuffix⟩ := line_inj hlabel hlabel' hline
  rw [← hlast] at hlines
  have hbelow : ∀ u : Trace, u.EveryLabel OneLine →
      ∀ line ∈ u.linesBelow false (margin ++ rail ss.isEmpty),
        ∃ tail, line = margin ++ (rail ss.isEmpty ++ tail) := by
    intro u hu line hline
    obtain ⟨tail, rfl, -⟩ := exists_tail_of_mem_linesBelow false u _ hu line hline
    exact ⟨tail, String.append_assoc⟩
  have hnext : ∀ us labels, ∀ line ∈ (siblingLines false margin us labels).head?,
      ¬ ∃ tail, line = margin ++ (rail ss.isEmpty ++ tail) := by
    rintro us labels line hline ⟨tail, htail⟩
    obtain ⟨last, tail', rfl⟩ := exists_branch_of_head hline
    exact branch_append_ne _ _ _ _ ((String.append_right_inj margin).mp htail)
  obtain ⟨hbelow, hrest⟩ := List.append_inj_of_forall (hbelow s hs) (hbelow t ht)
    (hnext ss labels) (hnext ts labels') hlines
  exact ⟨hlabels, hsuffix, hbelow, hrest⟩

-- ============================================================================
-- Traces that look alike
-- ============================================================================

/-- Two nodes below a root look alike if they have the same label and their children look
    alike one by one, and if they have the same outcome where there are no children. -/
inductive Alike : Trace → Trace → Prop where
  | node {label : String} {o p : Option Outcome} {ss ts : List Trace}
      (houtcome : ss = [] → o = p) (hchildren : List.Forall₂ Alike ss ts) :
      Alike (.node label o ss) (.node label p ts)

theorem alike_of_suffix {s t : Trace} (hlabel : s.label = t.label)
    (hsuffix : s.suffix false = t.suffix false)
    (hchildren : List.Forall₂ Alike s.children t.children) : s.Alike t := by
  obtain ⟨label, o, ss⟩ := s
  obtain ⟨label', p, ts⟩ := t
  cases hlabel
  refine .node ?_ hchildren
  rintro rfl
  cases hchildren
  cases o with
  | none =>
    cases p with
    | none => rfl
    | some p => exact absurd (congrArg String.toList hsuffix) (by simp [suffix, isLeaf])
  | some o =>
    cases p with
    | none => exact absurd (congrArg String.toList hsuffix) (by simp [suffix, isLeaf])
    | some p =>
      have htext := (String.append_right_inj ": ").mp hsuffix
      rw [Outcome.shown_plain, Outcome.shown_plain] at htext
      exact congrArg some (Outcome.text_inj htext)

mutual

theorem alike_of_linesBelow : ∀ (s t : Trace) (margin : String), s.EveryLabel PlainLabel →
    t.EveryLabel PlainLabel → s.linesBelow false margin = t.linesBelow false margin →
    List.Forall₂ Alike s.children t.children
  | .node _ _ ss, .node _ _ ts, margin, hs, ht, h => by
    obtain ⟨-, hss⟩ := everyLabel_node.mp hs
    obtain ⟨-, hts⟩ := everyLabel_node.mp ht
    rw [linesBelow, linesBelow] at h
    exact alike_of_siblingLines ss ts [] margin hss hts h

/-- Levels with the same lines look alike. The labels that were seen to the left are the
    same in both, so the numbers are. -/
theorem alike_of_siblingLines : ∀ (ss ts : List Trace) (seen : List String) (margin : String),
    (∀ s ∈ ss, s.EveryLabel PlainLabel) → (∀ t ∈ ts, t.EveryLabel PlainLabel) →
    siblingLines false margin ss (numberLabels seen (ss.map Trace.label)) =
      siblingLines false margin ts (numberLabels seen (ts.map Trace.label)) →
    List.Forall₂ Alike ss ts
  | [], [], _, _, _, _, _ => .nil
  | [], t :: ts, seen, margin, _, _, h => by
    rw [siblingLines_nil, List.map_cons, numberLabels, siblingLines_cons] at h
    cases h
  | s :: ss, [], seen, margin, _, _, h => by
    rw [siblingLines_nil, List.map_cons, numberLabels, siblingLines_cons] at h
    cases h
  | s :: ss, t :: ts, seen, margin, hss, hts, h => by
    obtain ⟨hs, hss⟩ := List.forall_mem_cons.mp hss
    obtain ⟨ht, hts⟩ := List.forall_mem_cons.mp hts
    rw [List.map_cons, List.map_cons, numberLabels, numberLabels] at h
    obtain ⟨hlabels, hsuffix, hbelow, hrest⟩ := siblingLines_cons_inj
      (hs.mono fun _ => PlainLabel.oneLine) (ht.mono fun _ => PlainLabel.oneLine)
      (not_mem_numbered (by decide) hs.root.noColon _)
      (not_mem_numbered (by decide) ht.root.noColon _) h
    have hlabel := label_of_numbered hs.root.noDigit ht.root.noDigit hlabels
    rw [← hlabel] at hrest
    exact .cons (alike_of_suffix hlabel hsuffix (alike_of_linesBelow s t _ hs ht hbelow))
      (alike_of_siblingLines ss ts (s.label :: seen) margin hss hts hrest)

end

section Converse

variable {s t : Trace} {ss ts : List Trace}

theorem Alike.label (h : s.Alike t) : s.label = t.label := by
  cases h
  rfl

theorem Alike.children (h : s.Alike t) : List.Forall₂ Alike s.children t.children := by
  cases h with
  | node houtcome hchildren => exact hchildren

theorem isEmpty_of_alike (h : List.Forall₂ Alike ss ts) : ss.isEmpty = ts.isEmpty := by
  cases h <;> rfl

theorem siblingLabels_of_alike (h : List.Forall₂ Alike ss ts) :
    siblingLabels ss = siblingLabels ts := by
  have hlabels : ss.map Trace.label = ts.map Trace.label := by
    induction h with
    | nil => rfl
    | cons hhead _ ih => rw [List.map_cons, List.map_cons, hhead.label, ih]
  rw [siblingLabels, siblingLabels, hlabels]

/-- The outcome of a node with children is not shown. -/
theorem Alike.suffix (h : s.Alike t) (coloured : Bool) :
    s.suffix coloured = t.suffix coloured := by
  cases h with
  | @node label o p ss ts houtcome hchildren =>
    cases hchildren with
    | nil => rw [houtcome rfl]
    | cons hhead htail => simp [Trace.suffix, isLeaf]

end Converse

mutual

theorem linesBelow_of_alike (coloured : Bool) : ∀ (s t : Trace) (margin : String),
    List.Forall₂ Alike s.children t.children →
    s.linesBelow coloured margin = t.linesBelow coloured margin
  | .node _ _ ss, .node _ _ ts, margin, h => by
    rw [children_node, children_node] at h
    rw [linesBelow, linesBelow, siblingLabels_of_alike h]
    exact siblingLines_of_alike coloured ss ts (siblingLabels ts) margin h

theorem siblingLines_of_alike (coloured : Bool) :
    ∀ (ss ts : List Trace) (labels : List String) (margin : String),
      List.Forall₂ Alike ss ts →
      siblingLines coloured margin ss labels = siblingLines coloured margin ts labels
  | _, _, [], margin, _ => by rw [siblingLines_no_labels, siblingLines_no_labels]
  | [], _, label :: labels, margin, h => by
    cases h
    rfl
  | s :: ss, _, label :: labels, margin, h => by
    obtain ⟨t, ts, hhead, htail, rfl⟩ := List.forall₂_cons_left_iff.mp h
    rw [siblingLines_cons, siblingLines_cons, isEmpty_of_alike htail, hhead.suffix,
      linesBelow_of_alike coloured s t _ hhead.children,
      siblingLines_of_alike coloured ss ts labels margin htail]

end

-- ============================================================================
-- The drawing
-- ============================================================================

theorem toList_join_cons (line : String) (lines : List String) :
    (String.join ((line :: lines).map (· ++ "\n"))).toList =
      line.toList ++ '\n' :: (String.join (lines.map (· ++ "\n"))).toList := by
  rw [List.map_cons, String.join_cons, String.toList_append, String.toList_append,
    List.append_assoc]
  rfl

/-- The lines of a text. A line break ends a line, and the last line needs none. -/
def linesOf (text : String) : List String :=
  let parts := text.toList.splitOn '\n'
  (if parts.getLast? = some [] then parts.dropLast else parts).map String.ofList

/-- Lines that end in a line break each, and have no other, are the lines of their text. -/
theorem linesOf_join {lines : List String} (h : ∀ line ∈ lines, OneLine line) :
    linesOf (String.join (lines.map (· ++ "\n"))) = lines := by
  have hparts : (String.join (lines.map (· ++ "\n"))).toList.splitOn '\n' =
      lines.map String.toList ++ [[]] := by
    induction lines with
    | nil => rfl
    | cons line lines ih =>
      obtain ⟨hline, hlines⟩ := List.forall_mem_cons.mp h
      have hbreak : ∀ c ∈ line.toList, (c == '\n') = false :=
        fun c hc => beq_false_of_ne fun heq => hline (heq ▸ hc)
      rw [toList_join_cons, List.splitOn_eq_splitOnP,
        List.splitOnP_append_cons_of_forall_mem hbreak '\n' rfl, ← List.splitOn_eq_splitOnP,
        ih hlines, List.map_cons, List.cons_append]
  rw [linesOf, hparts, List.getLast?_concat, if_pos rfl, List.dropLast_concat, List.map_map]
  exact (List.map_congr_left fun line _ => String.ofList_toList).trans (List.map_id lines)

theorem oneLine_of_mem_lines (coloured : Bool) {t : Trace} (ht : t.EveryLabel OneLine) :
    ∀ line ∈ t.lines coloured, OneLine line := by
  rw [lines, List.forall_mem_cons]
  refine ⟨ht.root, fun line hline => ?_⟩
  obtain ⟨tail, rfl, htail⟩ := exists_tail_of_mem_linesBelow coloured t "" ht line hline
  exact oneLine_append.mpr ⟨by decide, htail⟩

/-- The lines of a drawing can be told from its text. -/
theorem linesOf_drawing (coloured : Bool) {t : Trace} (ht : t.EveryLabel OneLine) :
    linesOf (t.drawing coloured) = t.lines coloured :=
  linesOf_join (oneLine_of_mem_lines coloured ht)

/-- Traces that are drawn the same have the same lines, and so look alike. -/
theorem alike_of_drawing {s t : Trace} (hs : s.EveryLabel PlainLabel)
    (ht : t.EveryLabel PlainLabel) (h : s.drawing false = t.drawing false) :
    s.label = t.label ∧ List.Forall₂ Alike s.children t.children := by
  have hlines : s.lines false = t.lines false := by
    rw [← linesOf_drawing false (hs.mono fun _ => PlainLabel.oneLine), h,
      linesOf_drawing false (ht.mono fun _ => PlainLabel.oneLine)]
  obtain ⟨hlabel, hbelow⟩ := List.cons.inj hlines
  exact ⟨hlabel, alike_of_linesBelow s t "" hs ht hbelow⟩

/-- Nothing else is drawn, in colour or without. -/
theorem drawing_of_alike (coloured : Bool) {s t : Trace} (hlabel : s.label = t.label)
    (hchildren : List.Forall₂ Alike s.children t.children) :
    s.drawing coloured = t.drawing coloured := by
  rw [drawing, drawing, lines, lines, hlabel, linesBelow_of_alike coloured s t "" hchildren]

end Trace

-- ============================================================================
-- The labels of an answer
-- ============================================================================

namespace Formula

/-- The last character of a formula is a letter. -/
theorem exists_last_letter (f : Formula) :
    ∃ before, ∃ l : Letter, f.chars = before ++ [l.char] := by
  induction f with
  | atom a => exact ⟨[], a.letter, rfl⟩
  | compound c left right _ ihr =>
    obtain ⟨before, l, hright⟩ := ihr
    refine ⟨left.chars ++ c.token ++ before, l, ?_⟩
    rw [chars_compound, hright, ← List.append_assoc]

theorem not_mem_chars {c : Char} (hletter : ∀ l : Letter, l.char ≠ c)
    (htoken : ∀ k : Connective, c ∉ k.token) (f : Formula) : c ∉ f.chars := by
  induction f with
  | atom a =>
    rw [chars_atom, List.mem_singleton]
    exact fun h => hletter a.letter h.symm
  | compound k left right ihl ihr =>
    rw [chars_compound, List.mem_append, List.mem_append]
    rintro ((h | h) | h)
    · exact ihl h
    · exact htoken k h
    · exact ihr h

theorem plainLabel_text (f : Formula) : Trace.PlainLabel f.text := by
  have hclear : ∀ l ∈ Letter.alphabet, l.char ≠ '\n' ∧ l.char ≠ ':' ∧ l.char.isDigit = false := by
    decide +kernel
  have htoken : ∀ k : Connective, '\n' ∉ k.token ∧ ':' ∉ k.token := by
    intro k
    cases k <;> decide
  refine ⟨?_, ?_, ?_⟩
  · rw [Trace.OneLine, toList_text]
    exact not_mem_chars (fun l => (hclear l l.mem_alphabet).1) (fun k => (htoken k).1) f
  · rw [toList_text]
    exact not_mem_chars (fun l => (hclear l l.mem_alphabet).2.1) (fun k => (htoken k).2) f
  · intro c hc
    obtain ⟨before, l, hchars⟩ := f.exists_last_letter
    rw [toList_text, hchars, List.getLast?_concat] at hc
    cases hc
    exact (hclear l l.mem_alphabet).2.2

end Formula

theorem Atom.plainLabel_text (a : Atom) : Trace.PlainLabel a.text := by
  have htext : a.text = (Formula.atom a).text :=
    String.toList_inj.mp ((Atom.toList_text a).trans (Formula.toList_text (.atom a)).symm)
  rw [htext]
  exact Formula.plainLabel_text _

/-- A derivation labels its nodes with atoms and rules. -/
theorem plainLabel_of_derives {kb : KnowledgeBase} {task : Task} {c d : Cache} {v : Bool}
    {ts : List Trace} (h : Derives kb task c v ts d) :
    ∀ t ∈ ts, t.EveryLabel Trace.PlainLabel := by
  have hleaf : ∀ {label : String} (o : Outcome), Trace.PlainLabel label →
      ∀ t ∈ [Trace.leaf label o], t.EveryLabel Trace.PlainLabel := by
    intro label o hlabel
    rw [List.forall_mem_singleton]
    exact Trace.everyLabel_node.mpr ⟨hlabel, fun t ht => absurd ht List.not_mem_nil⟩
  induction h with
  | recalled | declared | exhausted => exact hleaf _ (Atom.plainLabel_text _)
  | byFacts => exact hleaf _ (Formula.plainLabel_text _)
  | derived _ _ _ ih => exact ih
  | compound _ _ ihl ihr => exact List.forall_mem_append.mpr ⟨ihl, ihr⟩
  | proved _ _ ih | committed _ _ _ ih =>
    rw [List.forall_mem_singleton]
    exact Trace.everyLabel_node.mpr ⟨Formula.plainLabel_text _, ih⟩
  | next _ _ _ _ ih ihrest =>
    exact List.forall_mem_cons.mpr
      ⟨Trace.everyLabel_node.mpr ⟨Formula.plainLabel_text _, ih⟩, ihrest⟩

/-- No label of the trace of an answer can be confused with the rest of its line. -/
theorem plainLabel_of_ask {session : Session} {query : String} {answer : Answer}
    (hask : session.ask query = .ok answer) : answer.trace.EveryLabel Trace.PlainLabel := by
  obtain ⟨settings, base⟩ := session
  cases base with
  | none => cases hask
  | some kb =>
    have hask : (Session.install { settings } kb).ask query = .ok answer := hask
    obtain ⟨goal, ts, d, hquery, hderives, htrace⟩ := exists_derives_of_ask hask
    obtain ⟨f, htext⟩ := KnowledgeBase.exists_text_eq_of_parse hquery
    rw [htrace]
    exact Trace.everyLabel_node.mpr ⟨htext ▸ f.plainLabel_text, plainLabel_of_derives hderives⟩

-- ============================================================================
-- What the drawing tells
-- ============================================================================

/-- A plain drawing tells all of a trace but the outcomes of the root and of the nodes with
    children. If no label has a line break or a colon in it or ends in a digit, two traces
    are drawn the same exactly if their roots have the same label, and below them the same
    nodes stand in the same places, with the same labels, and the leaves with the same
    outcomes. The trace of every answer has such labels. -/
theorem render_plain_tells :
    (∀ s t : Trace, s.EveryLabel Trace.PlainLabel → t.EveryLabel Trace.PlainLabel →
      (s.render .plain = t.render .plain ↔
        s.label = t.label ∧ List.Forall₂ Trace.Alike s.children t.children)) ∧
    ∀ (session : Session) (query : String) (answer : Answer),
      session.ask query = .ok answer → answer.trace.EveryLabel Trace.PlainLabel := by
  refine ⟨fun s t hs ht => ⟨Trace.alike_of_drawing hs ht, ?_⟩, fun _ _ _ => plainLabel_of_ask⟩
  rintro ⟨hlabel, hchildren⟩
  exact Trace.drawing_of_alike false hlabel hchildren

/-- The outcomes of the root and of a rule with something below it are not shown, but that of
    the second `B` is. -/
theorem render_plain_tells_sample :
    ∃ s t u : Trace, s.EveryLabel Trace.PlainLabel ∧ t.EveryLabel Trace.PlainLabel ∧
      u.EveryLabel Trace.PlainLabel ∧ s.outcome ≠ t.outcome ∧
      s.render .plain = t.render .plain ∧ s.render .plain ≠ u.render .plain := by
  refine ⟨
    .node "CBB" (some .failed) [.node "A=>C" (some .proved) [.leaf "A" .alreadyProved],
      .leaf "B" .failed, .leaf "B" .alreadyFailed],
    .node "CBB" none [.node "A=>C" (some .failed) [.leaf "A" .alreadyProved],
      .leaf "B" .failed, .leaf "B" .alreadyFailed],
    .node "CBB" (some .failed) [.node "A=>C" (some .proved) [.leaf "A" .alreadyProved],
      .leaf "B" .failed, .leaf "B" .failed],
    by decide +kernel, by decide +kernel, by decide +kernel, by decide, ?_, ?_⟩
  · have hleaf : ∀ label o, Trace.Alike (.leaf label o) (.leaf label o) :=
      fun _ _ => .node (fun _ => rfl) .nil
    have hrule : Trace.Alike (.node "A=>C" (some .proved) [.leaf "A" .alreadyProved])
        (.node "A=>C" (some .failed) [.leaf "A" .alreadyProved]) :=
      .node nofun (.cons (hleaf _ _) .nil)
    exact (render_plain_tells.1 _ _ (by decide +kernel) (by decide +kernel)).mpr
      ⟨rfl, .cons hrule (.cons (hleaf _ _) (.cons (hleaf _ _) .nil))⟩
  · intro h
    obtain ⟨-, hchildren⟩ :=
      (render_plain_tells.1 _ _ (by decide +kernel) (by decide +kernel)).mp h
    obtain ⟨-, htail⟩ := List.forall₂_cons.mp hchildren
    obtain ⟨-, htail⟩ := List.forall₂_cons.mp htail
    obtain ⟨hlast, -⟩ := List.forall₂_cons.mp htail
    cases hlast with
    | node houtcome _ => cases houtcome rfl

end HornClause
