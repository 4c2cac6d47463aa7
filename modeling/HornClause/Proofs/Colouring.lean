/-
  HornClause.Proofs.Colouring

  Colour is decoration. A control sequence starts with a character that it has nowhere
  else, and none is the beginning of another, so in a text that has this character in
  nothing but control sequences these can be found without doubt (`Text.Markers`): deleting
  them all touches nothing else, and they can be counted piece by piece.

  Both drawings of a trace are made line by line. `Drawn` says how the lines of the two go
  together: a line that ends in an outcome has the value of the outcome painted, and any
  other is the same in both. That the lines below a node are drawn like this is one
  induction on the trace (`drawn_linesBelow`). What is left of the painted text without its
  sequences, how many there are of these and where they stand then follows line by line
  (`Drawn.deleteAll_join`, `Drawn.places_join`, `Drawn.paintedWith`).
-/
import HornClause.Proofs.Drawing

namespace HornClause

-- ============================================================================
-- Blocks in a text
-- ============================================================================

namespace Text

/-- Deletes blocks from a text, wherever one of them starts, from left to right. -/
def deleteAll (blocks : List (List Char)) : List Char → List Char
  | [] => []
  | c :: rest =>
    match blocks.find? (·.isPrefixOf (c :: rest)) with
    | some block => deleteAll blocks (rest.drop (block.length - 1))
    | none => c :: deleteAll blocks rest
termination_by text => text.length
decreasing_by all_goals grind

/-- The number of places in a text at which one of some blocks starts. -/
def places (blocks : List (List Char)) (text : List Char) : Nat :=
  text.tails.countP fun tail => blocks.any (·.isPrefixOf tail)

/-- Blocks that can be found in a text without doubt: each starts with a mark that it has
    nowhere else, and none is the beginning of another. -/
structure Markers (mark : Char) (blocks : List (List Char)) : Prop where
  starts : ∀ block ∈ blocks, ∃ body, block = mark :: body ∧ mark ∉ body
  apart : ∀ block ∈ blocks, ∀ other ∈ blocks, block <+: other → block = other

theorem places_cons (blocks : List (List Char)) (c : Char) (rest : List Char) :
    places blocks (c :: rest) =
      places blocks rest + if blocks.any (·.isPrefixOf (c :: rest)) then 1 else 0 := by
  rw [places, List.tails_cons, List.countP_cons]
  rfl

namespace Markers

variable {mark : Char} {blocks chosen : List (List Char)} {block other text : List Char}

theorem not_isPrefixOf (h : Markers mark blocks) (hblock : block ∈ blocks) {c : Char}
    (hc : c ≠ mark) (rest : List Char) : block.isPrefixOf (c :: rest) = false := by
  obtain ⟨body, rfl, -⟩ := h.starts block hblock
  rw [List.isPrefixOf_cons_cons, beq_false_of_ne hc.symm, Bool.false_and]

/-- Where one block starts, no other does. -/
theorem isPrefixOf_iff (h : Markers mark blocks) (hblock : block ∈ blocks)
    (hother : other ∈ blocks) (rest : List Char) :
    block.isPrefixOf (other ++ rest) = true ↔ block = other := by
  refine ⟨fun hstarts => ?_, fun heq => ?_⟩
  · have hbelow := List.isPrefixOf_iff_prefix.mp hstarts
    rcases List.prefix_or_prefix_of_prefix hbelow (List.prefix_append other rest) with hle | hle
    · exact h.apart block hblock other hother hle
    · exact (h.apart other hother block hblock hle).symm
  · exact List.isPrefixOf_iff_prefix.mpr (heq ▸ List.prefix_append block rest)

/-- Text without a mark is kept as it is. -/
theorem deleteAll_append (h : Markers mark blocks) (htext : mark ∉ text) (rest : List Char) :
    deleteAll blocks (text ++ rest) = text ++ deleteAll blocks rest := by
  induction text with
  | nil => rfl
  | cons c text ih =>
    rw [List.mem_cons, not_or] at htext
    obtain ⟨hc, htext⟩ := htext
    have hnone : blocks.find? (·.isPrefixOf (c :: (text ++ rest))) = none := by
      rw [List.find?_eq_none]
      intro block hblock
      rw [h.not_isPrefixOf hblock (Ne.symm hc)]
      exact Bool.false_ne_true
    rw [List.cons_append, deleteAll, hnone, ih htext, List.cons_append]

/-- A block is deleted, and all of it. -/
theorem deleteAll_block (h : Markers mark blocks) (hblock : block ∈ blocks) (rest : List Char) :
    deleteAll blocks (block ++ rest) = deleteAll blocks rest := by
  have hfind : blocks.find? (·.isPrefixOf (block ++ rest)) = some block := by
    cases hfound : blocks.find? (·.isPrefixOf (block ++ rest)) with
    | none =>
      exact absurd ((h.isPrefixOf_iff hblock hblock rest).mpr rfl)
        (List.find?_eq_none.mp hfound block hblock)
    | some other =>
      have hother := List.mem_of_find?_eq_some hfound
      have hstarts : other.isPrefixOf (block ++ rest) = true :=
        List.find?_some (p := (List.isPrefixOf · (block ++ rest))) hfound
      rw [(h.isPrefixOf_iff hother hblock rest).mp hstarts]
  obtain ⟨body, hbody, -⟩ := h.starts block hblock
  subst hbody
  rw [List.cons_append] at hfind ⊢
  rw [deleteAll, hfind]
  simp only [List.length_cons, Nat.add_sub_cancel, List.drop_left]

section Places

variable (h : Markers mark blocks) (hchosen : ∀ block ∈ chosen, block ∈ blocks)

include h hchosen

theorem places_nil : places chosen [] = 0 := by
  have hnone : chosen.any (·.isPrefixOf []) = false := by
    rw [List.any_eq_false]
    intro block hblock
    obtain ⟨body, rfl, -⟩ := h.starts block (hchosen block hblock)
    exact Bool.false_ne_true
  rw [places, List.tails, List.countP_singleton, hnone]
  rfl

/-- No block starts in text without a mark. -/
theorem places_append (htext : mark ∉ text) (rest : List Char) :
    places chosen (text ++ rest) = places chosen rest := by
  induction text with
  | nil => rfl
  | cons c text ih =>
    rw [List.mem_cons, not_or] at htext
    obtain ⟨hc, htext⟩ := htext
    have hnone : chosen.any (·.isPrefixOf (c :: (text ++ rest))) = false := by
      rw [List.any_eq_false]
      intro block hblock
      rw [h.not_isPrefixOf (hchosen block hblock) (Ne.symm hc)]
      exact Bool.false_ne_true
    rw [List.cons_append, places_cons, hnone, if_neg Bool.false_ne_true, ih htext, Nat.add_zero]

/-- A block is counted once, if it is one of those that are counted. -/
theorem places_block (hblock : block ∈ blocks) (rest : List Char) :
    places chosen (block ++ rest) =
      places chosen rest + if block ∈ chosen then 1 else 0 := by
  have hany : chosen.any (·.isPrefixOf (block ++ rest)) = decide (block ∈ chosen) := by
    rw [Bool.eq_iff_iff, List.any_eq_true, decide_eq_true_iff]
    constructor
    · rintro ⟨other, hother, hstarts⟩
      rwa [← (h.isPrefixOf_iff (hchosen other hother) hblock rest).mp hstarts]
    · intro hmem
      exact ⟨block, hmem, (h.isPrefixOf_iff hblock hblock rest).mpr rfl⟩
  obtain ⟨body, hbody, hmark⟩ := h.starts block hblock
  subst hbody
  rw [List.cons_append] at hany ⊢
  rw [places_cons, hany, places_append h hchosen hmark]
  simp only [decide_eq_true_eq]

end Places

end Markers

end Text

-- ============================================================================
-- Control sequences
-- ============================================================================

namespace Colour

/-- The control sequences that turn a colour on. -/
def openings : List (List Char) :=
  [green, yellow, red].map fun colour => colour.opening.toList

/-- The control sequences of colours. -/
def sequences : List (List Char) := closing.toList :: openings

theorem opening_mem_openings (colour : Colour) : colour.opening.toList ∈ openings := by
  cases colour <;> decide +kernel

theorem markers_sequences : Text.Markers '\x1b' sequences where
  starts := by
    have hbody : ∀ block ∈ sequences,
        block = '\x1b' :: block.tail ∧ block.tail.contains '\x1b' = false := by
      decide +kernel
    intro block hblock
    obtain ⟨hblock, hmark⟩ := hbody block hblock
    exact ⟨block.tail, hblock, by simpa using hmark⟩
  apart := by
    decide +kernel

/-- A text in a colour, with what follows it. -/
theorem toList_paint_append (colour : Colour) (word : String) (rest : List Char) :
    (colour.paint word).toList ++ rest =
      colour.opening.toList ++ (word.toList ++ (closing.toList ++ rest)) := by
  simp only [paint, String.toList_append, List.append_assoc]

end Colour

namespace Trace

-- ============================================================================
-- Lines without and with colour
-- ============================================================================

/-- A text in which no control sequence can start. -/
def Uncoloured (text : String) : Prop := '\x1b' ∉ text.toList

instance (text : String) : Decidable (Uncoloured text) := inferInstanceAs (Decidable (¬ _))

theorem uncoloured_append {s t : String} :
    Uncoloured (s ++ t) ↔ Uncoloured s ∧ Uncoloured t := by
  simp [Uncoloured, String.toList_append]

theorem uncoloured_branch (last : Bool) : Uncoloured (branch last) := by
  rw [Uncoloured, toList_branch]
  cases last <;> decide

theorem uncoloured_rail (last : Bool) : Uncoloured (rail last) := by
  rw [Uncoloured, toList_rail]
  cases last <;> decide

theorem uncoloured_value (o : Outcome) : Uncoloured (toString o.value) := by
  cases o <;> decide +kernel

theorem uncoloured_remark (o : Outcome) : Uncoloured o.remark := by
  cases o <;> decide +kernel

/-- The outcome that is shown of a node below the root: that of a leaf, if it has one. -/
def shownOutcome (t : Trace) : Option Outcome := if t.isLeaf then t.outcome else none

theorem suffix_eq (coloured : Bool) (t : Trace) :
    t.suffix coloured = t.shownOutcome.elim "" fun o => ": " ++ o.shown coloured := by
  obtain ⟨label, o, ts⟩ := t
  cases ts <;> cases o <;> rfl

/-- How the lines of a drawing without colour and those of one with colour go together,
    for nodes of which the given outcomes are shown. -/
inductive Drawn : List (Option Outcome) → List String → List String → Prop
  | nil : Drawn [] [] []
  /-- A line without an outcome is the same in both. -/
  | bare {os : List (Option Outcome)} {plain painted : List String} {line : String} :
      Uncoloured line → Drawn os plain painted →
      Drawn (none :: os) (line :: plain) (line :: painted)
  /-- A line with an outcome has its value painted. -/
  | painted {o : Outcome} {os : List (Option Outcome)} {plain painted : List String}
      {before : String} : Uncoloured before → Drawn os plain painted →
      Drawn (some o :: os) ((before ++ o.shown false) :: plain)
        ((before ++ o.shown true) :: painted)

namespace Drawn

variable {os os' : List (Option Outcome)} {plain painted plain' painted' : List String}

theorem append (h : Drawn os plain painted) (h' : Drawn os' plain' painted') :
    Drawn (os ++ os') (plain ++ plain') (painted ++ painted') := by
  induction h with
  | nil => exact h'
  | bare hline _ ih => exact .bare hline ih
  | painted hbefore _ ih => exact .painted hbefore ih

/-- The line of a node is drawn like this if what stands before its outcome is. -/
theorem line {before : String} (hbefore : Uncoloured before) (t : Trace)
    (h : Drawn os plain painted) :
    Drawn (t.shownOutcome :: os) ((before ++ t.suffix false) :: plain)
      ((before ++ t.suffix true) :: painted) := by
  rw [suffix_eq, suffix_eq]
  cases t.shownOutcome with
  | none =>
    rw [Option.elim_none, Option.elim_none, String.append_empty]
    exact .bare hbefore h
  | some o =>
    rw [Option.elim_some, Option.elim_some, ← String.append_assoc, ← String.append_assoc]
    exact .painted (uncoloured_append.mpr ⟨hbefore, by decide⟩) h

end Drawn

theorem uncoloured_of_mem_siblingLabels {ts : List Trace}
    (hts : ∀ t ∈ ts, t.EveryLabel Uncoloured) : ∀ label ∈ siblingLabels ts, Uncoloured label :=
  fun _ => not_mem_of_mem_siblingLabels (by decide) fun t ht => (hts t ht).root

mutual

/-- The lines below a node are the same in both drawings, the values of outcomes apart, and
    come in the order of the nodes. -/
theorem drawn_linesBelow : ∀ (t : Trace) (margin : String), t.EveryLabel Uncoloured →
    Uncoloured margin → Drawn ((preorderAll t.children).map shownOutcome)
      (t.linesBelow false margin) (t.linesBelow true margin)
  | .node _ _ ts, margin, ht, hmargin => by
    obtain ⟨-, hts⟩ := everyLabel_node.mp ht
    rw [linesBelow, linesBelow, children_node]
    exact drawn_siblingLines ts (siblingLabels ts) margin (length_siblingLabels ts) hts
      (uncoloured_of_mem_siblingLabels hts) hmargin

theorem drawn_siblingLines : ∀ (ts : List Trace) (labels : List String) (margin : String),
    labels.length = ts.length → (∀ t ∈ ts, t.EveryLabel Uncoloured) →
    (∀ label ∈ labels, Uncoloured label) → Uncoloured margin →
    Drawn ((preorderAll ts).map shownOutcome) (siblingLines false margin ts labels)
      (siblingLines true margin ts labels)
  | [], _, margin, _, _, _, _ => by
    rw [siblingLines_nil, siblingLines_nil, preorderAll]
    exact .nil
  | t :: rest, [], _, hlength, _, _, _ => by cases hlength
  | t :: rest, label :: labels, margin, hlength, hts, hlabels, hmargin => by
    obtain ⟨ht, hrest⟩ := List.forall_mem_cons.mp hts
    obtain ⟨hlabel, hlabels⟩ := List.forall_mem_cons.mp hlabels
    rw [siblingLines_cons, siblingLines_cons, preorderAll, preorder_eq, List.cons_append,
      List.map_cons, List.map_append]
    -- Nodes and lines fall into the same parts: the sibling, what is below it, and the rest.
    have hline : Uncoloured (margin ++ branch rest.isEmpty ++ label) :=
      uncoloured_append.mpr ⟨uncoloured_append.mpr ⟨hmargin, uncoloured_branch _⟩, hlabel⟩
    have hbelow := drawn_linesBelow t (margin ++ rail rest.isEmpty) ht
      (uncoloured_append.mpr ⟨hmargin, uncoloured_rail _⟩)
    have hlater := drawn_siblingLines rest labels margin (Nat.succ.inj hlength) hrest hlabels
      hmargin
    exact .line hline t (hbelow.append hlater)

end

/-- The lines of a whole trace, of whose root no outcome is shown. -/
theorem drawn_lines {t : Trace} (ht : t.EveryLabel Uncoloured) :
    Drawn (none :: (preorderAll t.children).map shownOutcome) (t.lines false) (t.lines true) :=
  .bare ht.root (drawn_linesBelow t "" ht (by decide))

-- ============================================================================
-- The text in colour
-- ============================================================================

/-- An outcome in colour, less its control sequences, is the outcome without colour. -/
theorem deleteAll_shown (o : Outcome) (rest : List Char) :
    Text.deleteAll Colour.sequences ((o.shown true).toList ++ rest) =
      (o.shown false).toList ++ Text.deleteAll Colour.sequences rest := by
  have hmarkers := Colour.markers_sequences
  have hopening := List.mem_cons_of_mem Colour.closing.toList (Colour.opening_mem_openings o.colour)
  simp only [Outcome.shown, if_pos, Bool.false_eq_true, if_false, String.toList_append,
    List.append_assoc]
  rw [Colour.toList_paint_append, hmarkers.deleteAll_block hopening,
    hmarkers.deleteAll_append (uncoloured_value o), hmarkers.deleteAll_block List.mem_cons_self,
    hmarkers.deleteAll_append (uncoloured_remark o)]

section Counted

variable {os : List (Option Outcome)} {plain painted : List String} {chosen : List (List Char)}
  (hchosen : ∀ block ∈ chosen, block ∈ Colour.sequences)
  (hone : ∀ colour : Colour, (if Colour.closing.toList ∈ chosen then 1 else 0) +
    (if colour.opening.toList ∈ chosen then 1 else 0) = 1)

include hchosen hone

/-- An outcome in colour has one of the sequences that are counted, if these are those that
    turn a colour on, or the one that turns it off. -/
theorem places_shown (o : Outcome) (rest : List Char) :
    Text.places chosen ((o.shown true).toList ++ rest) = Text.places chosen rest + 1 := by
  have hmarkers := Colour.markers_sequences
  have hopening := List.mem_cons_of_mem Colour.closing.toList (Colour.opening_mem_openings o.colour)
  simp only [Outcome.shown, if_pos, String.toList_append, List.append_assoc]
  rw [Colour.toList_paint_append, hmarkers.places_block hchosen hopening,
    hmarkers.places_append hchosen (uncoloured_value o),
    hmarkers.places_block hchosen List.mem_cons_self,
    hmarkers.places_append hchosen (uncoloured_remark o), Nat.add_assoc, hone]

/-- Such sequences are as many as the outcomes that are shown. -/
theorem Drawn.places_join (h : Drawn os plain painted) :
    Text.places chosen (String.join (painted.map (· ++ "\n"))).toList =
      os.countP Option.isSome := by
  have hmarkers := Colour.markers_sequences
  have hbreak : ∀ rest, Text.places chosen ('\n' :: rest) = Text.places chosen rest :=
    hmarkers.places_append hchosen (by decide : '\x1b' ∉ ['\n'])
  induction h with
  | nil =>
    rw [List.map_nil, String.join_nil, String.toList_empty, hmarkers.places_nil hchosen]
    rfl
  | bare hline _ ih =>
    rw [toList_join_cons, hmarkers.places_append hchosen hline, hbreak, ih]
    rfl
  | painted hbefore _ ih =>
    rw [toList_join_cons, String.toList_append, List.append_assoc,
      hmarkers.places_append hchosen hbefore, places_shown hchosen hone, hbreak, ih,
      List.countP_cons_of_pos rfl]

end Counted

/-- How a line with colour shows an outcome: its value is painted, and nothing before or
    after it. A line that shows none has no colour. -/
def PaintedWith : Option Outcome → String → Prop
  | none, line => Uncoloured line
  | some o, line => ∃ before after, Uncoloured before ∧ Uncoloured after ∧
      line = before ++ o.colour.paint (toString o.value) ++ after

namespace Drawn

variable {os : List (Option Outcome)} {plain painted : List String}

theorem paintedWith (h : Drawn os plain painted) : List.Forall₂ PaintedWith os painted := by
  induction h with
  | nil => exact .nil
  | bare hline _ ih => exact .cons hline ih
  | @painted o os plain painted before hbefore _ ih =>
    refine .cons ⟨before, o.remark, hbefore, uncoloured_remark o, ?_⟩ ih
    rw [String.append_assoc]
    rfl

/-- Without the control sequences, the lines with colour are those without. -/
theorem deleteAll_join (h : Drawn os plain painted) :
    Text.deleteAll Colour.sequences (String.join (painted.map (· ++ "\n"))).toList =
      (String.join (plain.map (· ++ "\n"))).toList := by
  have hmarkers := Colour.markers_sequences
  have hbreak : ∀ rest, Text.deleteAll Colour.sequences ('\n' :: rest) =
      '\n' :: Text.deleteAll Colour.sequences rest :=
    hmarkers.deleteAll_append (by decide : '\x1b' ∉ ['\n'])
  induction h with
  | nil =>
    rw [List.map_nil, String.join_nil, String.toList_empty, Text.deleteAll]
  | bare hline _ ih =>
    rw [toList_join_cons, toList_join_cons, hmarkers.deleteAll_append hline, hbreak, ih]
  | painted hbefore _ ih =>
    rw [toList_join_cons, toList_join_cons, String.toList_append, String.toList_append,
      List.append_assoc, List.append_assoc, hmarkers.deleteAll_append hbefore, deleteAll_shown,
      hbreak, ih]

end Drawn

theorem isSome_shownOutcome (t : Trace) :
    t.shownOutcome.isSome = (t.isLeaf && t.outcome.isSome) := by
  rw [shownOutcome]
  cases t.isLeaf <;> rfl

theorem countP_shownOutcome (ts : List Trace) :
    (none :: ts.map shownOutcome).countP Option.isSome =
      ts.countP fun u => u.isLeaf && u.outcome.isSome := by
  rw [List.countP_cons_of_neg Bool.false_ne_true, List.countP_map]
  exact List.countP_congr fun u _ => by rw [Function.comp_apply, isSome_shownOutcome]

end Trace

/-- Colour is decoration. If no label has a line break or an escape character in it, then
    a drawing in colour, less all control sequences, is the drawing without colour; and the
    sequences that turn a colour on, as those that turn it off, are as many as the leaves
    below the root that have an outcome. The lines in colour are one for the root, and then
    one for each node below it, in order. That of a leaf with an outcome has the value of
    the outcome, which is `true` or `false`, between the two sequences of its colour, and no
    other; all the rest of the text is without colour. -/
theorem render_coloured_decorates (t : Trace)
    (ht : t.EveryLabel fun label => Trace.OneLine label ∧ Trace.Uncoloured label) :
    Text.deleteAll Colour.sequences (t.render .coloured).toList = (t.render .plain).toList ∧
    Text.places Colour.openings (t.render .coloured).toList =
      ((Trace.preorderAll t.children).countP fun u => u.isLeaf && u.outcome.isSome) ∧
    Text.places [Colour.closing.toList] (t.render .coloured).toList =
      ((Trace.preorderAll t.children).countP fun u => u.isLeaf && u.outcome.isSome) ∧
    ∃ lines : List String, t.render .coloured = String.join (lines.map (· ++ "\n")) ∧
      (∀ line ∈ lines, Trace.OneLine line) ∧
      List.Forall₂ Trace.PaintedWith
        (none :: (Trace.preorderAll t.children).map Trace.shownOutcome) lines := by
  have hdrawn := Trace.drawn_lines (ht.mono fun _ hlabel => hlabel.2)
  have hlines := Trace.oneLine_of_mem_lines true (ht.mono fun _ hlabel => hlabel.1)
  refine ⟨hdrawn.deleteAll_join, ?_, ?_, t.lines true, rfl, hlines, hdrawn.paintedWith⟩
  · rw [← Trace.countP_shownOutcome]
    refine Trace.Drawn.places_join (fun block => List.mem_cons_of_mem _) (fun colour => ?_) hdrawn
    cases colour <;> decide +kernel
  · rw [← Trace.countP_shownOutcome]
    refine Trace.Drawn.places_join (List.forall_mem_singleton.mpr List.mem_cons_self)
      (fun colour => ?_) hdrawn
    cases colour <;> decide +kernel

/-- Three leaves in three colours, the third with a remark, below a node whose own outcome is
    not shown. -/
theorem render_coloured_decorates_sample :
    ∃ t : Trace, (t.EveryLabel fun label => Trace.OneLine label ∧ Trace.Uncoloured label) ∧
      Text.deleteAll Colour.sequences (t.render .coloured).toList = (t.render .plain).toList ∧
      Text.places Colour.openings (t.render .coloured).toList = 3 ∧
      Text.places [Colour.closing.toList] (t.render .coloured).toList = 3 := by
  have hlabels : (Trace.node "FB" (some .failed) [.node "AE=>F" (some .failed)
      [.leaf "A" .proved, .leaf "E" .failed], .leaf "B" .alreadyProved]).EveryLabel
        fun label => Trace.OneLine label ∧ Trace.Uncoloured label := by
    decide +kernel
  obtain ⟨hplain, hopenings, hclosings, -⟩ := render_coloured_decorates _ hlabels
  refine ⟨_, hlabels, hplain, hopenings.trans ?_, hclosings.trans ?_⟩
  · decide
  · decide

end HornClause
