/-
  HornClause.Proofs.JsonForm

  A trace can be read off its JSON. Each part of the text tells where it ends, so that
  what follows it cannot be taken for a piece of it:

    * the escape of a character can be read back, whatever follows (`unescape_escape`);
    * a quoted text ends at the first quote that is not escaped (`quoted_append_inj`);
    * a field is told by its name from the other fields of an object, and from the end of
      the object by its comma (`further_field_inj`, `further_ne_closing`);
    * a node ends at its brace (`jsonAt_append_inj`), by induction on the trace.

  So it can be seen of each node whether it has an outcome and whether it has children,
  although those that are missing are left out.
-/
import Mathlib.Tactic.SplitIfs
import HornClause.Trace.Render

namespace HornClause

-- ============================================================================
-- Strings
-- ============================================================================

namespace Text.Json

/-- The value of a hexadecimal digit in lower case. -/
def hexValue (c : Char) : Nat :=
  if c.isDigit then c.toNat - '0'.toNat else c.toNat - 'a'.toNat + 10

/-- Reads a character as it is written between quotes, up to what follows it. -/
def unescape : List Char → Option (Char × List Char)
  | '\\' :: 'u' :: '0' :: '0' :: high :: low :: rest =>
      some (Char.ofNat (16 * hexValue high + hexValue low), rest)
  | '\\' :: 'b' :: rest => some ('\x08', rest)
  | '\\' :: 't' :: rest => some ('\t', rest)
  | '\\' :: 'n' :: rest => some ('\n', rest)
  | '\\' :: 'f' :: rest => some ('\x0c', rest)
  | '\\' :: 'r' :: rest => some ('\r', rest)
  | '\\' :: c :: rest => some (c, rest)
  | '"' :: _ => none
  | c :: rest => some (c, rest)
  | [] => none

/-- A control character can be read off the two digits of its escape. -/
theorem ofNat_hexValue {c : Char} (h : c.toNat < 0x20) :
    Char.ofNat (16 * hexValue (hexDigit (c.toNat / 16)) + hexValue (hexDigit c.toNat)) = c := by
  have hdigits : ∀ n : Fin 0x20,
      16 * hexValue (hexDigit (n.val / 16)) + hexValue (hexDigit n.val) = n.val := by
    decide
  rw [hdigits ⟨c.toNat, h⟩, Char.ofNat_toNat]

/-- The escape of a character is read back, whatever follows. -/
theorem unescape_escape (c : Char) (rest : List Char) :
    unescape (escape c ++ rest) = some (c, rest) := by
  rw [escape]
  split_ifs with hquote hslash h h h h h hcontrol
  any_goals (subst h; rfl)
  · subst hquote
    rfl
  · subst hslash
    rfl
  · exact congrArg (fun d => some (d, rest)) (ofNat_hexValue hcontrol)
  · rw [List.singleton_append, unescape]
    all_goals intros; contradiction

/-- Between quotes, a text ends where no further character can be read. -/
theorem flatMap_escape_inj {a b x y : List Char}
    (h : a.flatMap escape ++ '"' :: x = b.flatMap escape ++ '"' :: y) : a = b ∧ x = y := by
  have hread : ∀ (c : Char) (cs rest : List Char),
      unescape ((c :: cs).flatMap escape ++ rest) = some (c, cs.flatMap escape ++ rest) := by
    intro c cs rest
    rw [List.flatMap_cons, List.append_assoc, unescape_escape]
  have hend : ∀ rest : List Char, unescape ([].flatMap escape ++ '"' :: rest) = none :=
    fun _ => rfl
  induction a generalizing b with
  | nil =>
    cases b with
    | nil => exact ⟨rfl, (List.cons.inj h).2⟩
    | cons d b =>
      have hboth := (hend x).symm.trans ((congrArg unescape h).trans (hread d b _))
      cases hboth
  | cons c a ih =>
    cases b with
    | nil =>
      have hboth := (hread c a _).symm.trans ((congrArg unescape h).trans (hend y))
      cases hboth
    | cons d b =>
      have hboth := (hread c a _).symm.trans ((congrArg unescape h).trans (hread d b _))
      obtain ⟨rfl, hrest⟩ := Prod.mk.inj (Option.some.inj hboth)
      obtain ⟨rfl, hafter⟩ := ih hrest
      exact ⟨rfl, hafter⟩

theorem toList_quoted (text : String) :
    (quoted text).toList = '"' :: (text.toList.flatMap escape ++ ['"']) := by
  simp [quoted]

/-- A quoted text is told from what follows it. -/
theorem quoted_append_inj {a b : String} {x y : List Char}
    (h : (quoted a).toList ++ x = (quoted b).toList ++ y) : a = b ∧ x = y := by
  rw [toList_quoted, toList_quoted, List.cons_append, List.cons_append, List.append_assoc,
    List.append_assoc] at h
  obtain ⟨htext, hrest⟩ := flatMap_escape_inj (List.cons.inj h).2
  exact ⟨String.toList_inj.mp htext, hrest⟩

-- ============================================================================
-- Objects and arrays
-- ============================================================================

/-- The fields or items after the first, each after a comma and on a line of its own. -/
def further (entries : List String) : List Char :=
  entries.flatMap fun entry => ',' :: '\n' :: entry.toList

/-- The line with which an object or an array ends. -/
def closing (margin : String) (bracket : Char) : List Char :=
  '\n' :: (margin.toList ++ [bracket])

theorem further_cons (entry : String) (entries : List String) :
    further (entry :: entries) = ',' :: '\n' :: (entry.toList ++ further entries) :=
  List.flatMap_cons

theorem toList_intercalate_cons (entry : String) (entries : List String) :
    (",\n".intercalate (entry :: entries)).toList = entry.toList ++ further entries := by
  induction entries generalizing entry with
  | nil => simp [further]
  | cons next entries ih =>
    have hnext := ih next
    rw [String.toList_intercalate] at hnext ⊢
    rw [List.map_cons, List.map_cons, List.intercalate_cons_cons, ← List.map_cons, hnext,
      further_cons, List.append_assoc]
    rfl

theorem toList_object (margin first : String) (others : List String) :
    (object margin (first :: others)).toList =
      '\x7b' :: '\n' :: (first.toList ++ (further others ++ closing margin '\x7d')) := by
  simp only [object, String.toList_append, toList_intercalate_cons, List.append_assoc]
  rfl

theorem toList_array (margin first : String) (others : List String) :
    (array margin (first :: others)).toList =
      '[' :: '\n' :: (first.toList ++ (further others ++ closing margin ']')) := by
  simp only [array, String.toList_append, toList_intercalate_cons, List.append_assoc]
  rfl

/-- Another entry is told from the end. -/
theorem further_ne_closing (entry : String) (entries : List String) (x y : List Char)
    (margin : String) (bracket : Char) :
    further (entry :: entries) ++ x ≠ closing margin bracket ++ y := by
  intro h
  rw [further_cons] at h
  exact absurd (List.cons.inj h).1 (by decide)

/-- A field is told from another by its name. -/
theorem field_append_inj {margin name name' value value' : String} {x y : List Char}
    (h : (field margin name value).toList ++ x = (field margin name' value').toList ++ y) :
    name = name' ∧ value.toList ++ x = value'.toList ++ y := by
  simp only [field, String.toList_append, List.append_assoc] at h
  obtain ⟨hname, hvalue⟩ := quoted_append_inj (List.append_cancel_left h)
  exact ⟨hname, List.append_cancel_left hvalue⟩

theorem further_field_inj {margin name name' value value' : String} {fields fields' : List String}
    {x y : List Char}
    (h : further (field margin name value :: fields) ++ x =
      further (field margin name' value' :: fields') ++ y) :
    name = name' ∧
      value.toList ++ (further fields ++ x) = value'.toList ++ (further fields' ++ y) := by
  rw [further_cons, further_cons, List.cons_append, List.cons_append, List.cons_append,
    List.cons_append, List.append_assoc, List.append_assoc] at h
  exact field_append_inj (List.cons.inj (List.cons.inj h).2).2

end Text.Json

-- ============================================================================
-- Nodes
-- ============================================================================

/-- The name of an outcome tells which one it is. -/
theorem Outcome.name_inj {o p : Outcome} (h : o.name = p.name) : o = p := by
  revert h
  cases o <;> cases p <;> decide

namespace Trace

open Text.Json

/-- The field of an outcome, if there is one. -/
def outcomeFields (margin : String) (outcome : Option Outcome) : List String :=
  outcome.toList.map fun o => field margin "outcome" (quoted o.name)

/-- The field of the children, if there are any. -/
def childrenFields (margin : String) : List Trace → List String
  | [] => []
  | t :: rest => [field margin "children" (array margin (jsonItems (indented margin) (t :: rest)))]

theorem jsonAt_node (margin label : String) (o : Option Outcome) (ts : List Trace) :
    jsonAt margin (.node label o ts) =
      object margin (field (indented margin) "label" (quoted label) ::
        (outcomeFields (indented margin) o ++ childrenFields (indented margin) ts)) := by
  cases ts with
  | nil => rw [jsonAt, childrenFields, List.append_nil, outcomeFields, ownFields]
  | cons t rest => rw [jsonAt, childrenFields, outcomeFields, ownFields, List.cons_append]

section Fields

variable {inner margin value : String} {o o' : Option Outcome} {ts ts' : List Trace}
  {x y : List Char}

/-- What follows a label tells the outcome from the children. -/
theorem further_childrenFields_ne {fields : List String} :
    further (childrenFields inner ts) ++ (closing margin '\x7d' ++ x) ≠
      further (field inner "outcome" value :: fields) ++ y := by
  intro h
  cases ts with
  | nil => exact further_ne_closing _ _ _ _ _ _ h.symm
  | cons t rest => exact absurd (further_field_inj h).1 (by decide)

/-- Whether there is an outcome, and which, can be seen after the label. -/
theorem outcomeFields_inj
    (h : further (outcomeFields inner o ++ childrenFields inner ts) ++
        (closing margin '\x7d' ++ x) =
      further (outcomeFields inner o' ++ childrenFields inner ts') ++
        (closing margin '\x7d' ++ y)) :
    o = o' ∧ further (childrenFields inner ts) ++ (closing margin '\x7d' ++ x) =
      further (childrenFields inner ts') ++ (closing margin '\x7d' ++ y) := by
  cases o with
  | none =>
    cases o' with
    | none => exact ⟨rfl, h⟩
    | some p => exact absurd h further_childrenFields_ne
  | some o =>
    cases o' with
    | none => exact absurd h.symm further_childrenFields_ne
    | some p =>
      obtain ⟨-, hvalue⟩ := further_field_inj h
      obtain ⟨hname, hrest⟩ := quoted_append_inj hvalue
      exact ⟨congrArg some (Outcome.name_inj hname), hrest⟩

end Fields

mutual

/-- A node is told from what follows it. -/
theorem jsonAt_append_inj : ∀ (s t : Trace) (margin : String) (x y : List Char),
    (s.jsonAt margin).toList ++ x = (t.jsonAt margin).toList ++ y → s = t ∧ x = y
  | .node label o ss, .node label' o' ts, margin, x, y, h => by
    rw [jsonAt_node, jsonAt_node, toList_object, toList_object] at h
    simp only [List.cons_append, List.append_assoc] at h
    -- Label, outcome and children are cut off one after the other.
    obtain ⟨-, hquoted⟩ := field_append_inj (List.cons.inj (List.cons.inj h).2).2
    obtain ⟨rfl, hfields⟩ := quoted_append_inj hquoted
    obtain ⟨rfl, hchildren⟩ := outcomeFields_inj hfields
    obtain ⟨rfl, hrest⟩ := childrenFields_inj ss ts (indented margin) margin x y hchildren
    exact ⟨rfl, hrest⟩

/-- Whether there are children, and which, can be seen where their field would stand. -/
theorem childrenFields_inj : ∀ (ss ts : List Trace) (inner margin : String) (x y : List Char),
    further (childrenFields inner ss) ++ (closing margin '\x7d' ++ x) =
      further (childrenFields inner ts) ++ (closing margin '\x7d' ++ y) → ss = ts ∧ x = y
  | [], [], _, _, x, y, h => ⟨rfl, List.append_cancel_left h⟩
  | [], t :: ts, _, _, x, y, h => absurd h.symm (further_ne_closing _ _ _ _ _ _)
  | s :: ss, [], _, _, x, y, h => absurd h (further_ne_closing _ _ _ _ _ _)
  | s :: ss, t :: ts, inner, margin, x, y, h => by
    obtain ⟨-, harray⟩ := further_field_inj h
    rw [jsonItems, jsonItems, toList_array, toList_array] at harray
    simp only [String.toList_append, List.cons_append, List.append_assoc] at harray
    have hitems := List.append_cancel_left (List.cons.inj (List.cons.inj harray).2).2
    obtain ⟨rfl, hlater⟩ := jsonAt_append_inj s t (indented inner) _ _ hitems
    obtain ⟨rfl, hclosing⟩ := jsonItems_inj ss ts (indented inner) inner _ _ hlater
    exact ⟨rfl, List.append_cancel_left hclosing⟩

/-- Each further child is told from the next, and the last from the end of the array. -/
theorem jsonItems_inj : ∀ (ss ts : List Trace) (margin outer : String) (x y : List Char),
    further (jsonItems margin ss) ++ (closing outer ']' ++ x) =
      further (jsonItems margin ts) ++ (closing outer ']' ++ y) → ss = ts ∧ x = y
  | [], [], _, _, x, y, h => ⟨rfl, List.append_cancel_left h⟩
  | [], t :: ts, _, _, x, y, h => absurd h.symm (further_ne_closing _ _ _ _ _ _)
  | s :: ss, [], _, _, x, y, h => absurd h (further_ne_closing _ _ _ _ _ _)
  | s :: ss, t :: ts, margin, outer, x, y, h => by
    rw [jsonItems, jsonItems, further_cons, further_cons] at h
    simp only [String.toList_append, List.cons_append, List.append_assoc] at h
    have hitems := List.append_cancel_left (List.cons.inj (List.cons.inj h).2).2
    obtain ⟨rfl, hlater⟩ := jsonAt_append_inj s t margin _ _ hitems
    obtain ⟨rfl, hrest⟩ := jsonItems_inj ss ts margin outer x y hlater
    exact ⟨rfl, hrest⟩

end

/-- The JSON of a trace tells all of it: with any labels, any outcomes or none, and any
    children or none, two traces have the same JSON only if they are the same trace. Colour
    has no part in it. -/
theorem render_json_tells (s t : Trace) (colour colour' : Bool) :
    s.render (.ofSwitches true colour) = t.render (.ofSwitches true colour') ↔ s = t := by
  have hjson : ∀ (u : Trace) (c : Bool), u.render (.ofSwitches true c) = u.jsonAt "" :=
    fun _ _ => rfl
  rw [hjson, hjson]
  refine ⟨fun h => ?_, fun h => h ▸ rfl⟩
  have hchars := congrArg (fun text => text.toList ++ []) h
  exact (jsonAt_append_inj s t "" [] [] hchars).1

example : (Trace.node "a\"b" none [.leaf "B" .alreadyFailed]).render .json =
    "\x7b\n  \"label\": \"a\\\"b\",\n  \"children\": [\n" ++
      "    \x7b\n      \"label\": \"B\",\n      \"outcome\": \"already-failed\"\n    \x7d\n" ++
      "  ]\n\x7d" := by
  decide +kernel

end Trace

end HornClause
