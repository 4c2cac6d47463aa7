/-
  HornClause.Log

  What is noted while texts are read and goals derived. An event says what
  happened; its level, its topic and its wording follow from that.
-/
import HornClause.KnowledgeBase.Basic
import HornClause.Text.Arrow

namespace HornClause

/-! ## Levels and topics -/

/-- How much an event matters, from the most to the least. -/
inductive Level where
  | error
  | warn
  | info
  | debug
  | trace
deriving DecidableEq

/-- The name of a level. -/
def Level.name : Level → String
  | .error => "ERROR"
  | .warn => "WARN"
  | .info => "INFO"
  | .debug => "DEBUG"
  | .trace => "TRACE"

/-- What an event is about. -/
inductive Topic where
  | parse
  | knowledgeBase
  | proof
  | cache
deriving DecidableEq

/-- The name of a topic. -/
def Topic.name : Topic → String
  | .parse => "parse"
  | .knowledgeBase => "knowledge_base"
  | .proof => "proof"
  | .cache => "cache"

/-! ## Events -/

/-- Something worth a note. -/
inductive Event where
  /-- A text has a number of parts between arrows that is neither one nor two. -/
  | parted (count : Nat) (text : String)
  /-- A knowledge base was read. -/
  | baseRead (facts rules : Nat)
  /-- A knowledge base is now the one that is asked. -/
  | baseSet (rules : Nat)
  /-- A query was answered, with so many values in the cache at its end. -/
  | answered (query : String) (result : Bool) (cached : Nat)
  /-- A goal's value was found in the cache. -/
  | recalled (symbol : Char) (value : Bool)
  /-- A goal is a declared fact. -/
  | declared (symbol : Char)
  /-- A rule is tried for a goal. -/
  | attempted (symbol : Char) (rule : String)
  /-- No rule proved a goal. -/
  | exhausted (symbol : Char)
  /-- A value went into the cache. -/
  | saved (symbol : Char) (value : Bool)
  /-- No further goal may be nested. -/
  | limitReached (limit : Nat)
  /-- A goal asks for itself. -/
  | cycleFound (symbol : Char)
deriving DecidableEq

namespace Event

/-- How much an event matters. -/
def level : Event → Level
  | .limitReached _ | .cycleFound _ => .warn
  | .baseSet _ => .info
  | .baseRead .. | .answered .. => .debug
  | .parted .. | .recalled .. | .declared _ | .attempted .. | .exhausted _ | .saved .. => .trace

/-- What an event is about. -/
def topic : Event → Topic
  | .parted .. => .parse
  | .baseRead .. => .knowledgeBase
  | .saved .. => .cache
  | .baseSet _ | .answered .. | .recalled .. | .declared _ | .attempted .. | .exhausted _
  | .limitReached _ | .cycleFound _ => .proof

/-- The wording of an event. -/
def message : Event → String
  | .parted count text => toString count ++ " parts of '" ++ text ++ "'"
  | .baseRead facts rules =>
      "Parsed " ++ toString facts ++ " facts and " ++ toString rules ++ " rules"
  | .baseSet rules => "Knowledge base of " ++ toString rules ++ " rules set"
  | .answered query result cached =>
      query ++ ": " ++ toString result ++ " (" ++ toString cached ++ " atoms cached)"
  | .recalled symbol value =>
      String.singleton symbol ++ " already proved: " ++ toString value
  | .declared symbol => String.singleton symbol ++ " is a fact"
  | .attempted symbol rule => String.singleton symbol ++ " by " ++ rule
  | .exhausted symbol => String.singleton symbol ++ " not proved"
  | .saved symbol value => String.singleton symbol ++ ": " ++ toString value
  | .limitReached limit => "Depth limit of " ++ toString limit ++ " reached"
  | .cycleFound symbol => "Cycle through " ++ String.singleton symbol

/-- An event on one line: level, topic and wording. -/
def line (e : Event) : String :=
  e.level.name ++ " " ++ e.topic.name ++ " - " ++ e.message

end Event

/-! ## Events that follow from an outcome -/

/-- What is noted when a text is refused: the number of its parts, if the fault is
    that there are not two of them. -/
def ParseError.events : ParseError → List Event
  | .badImplication text =>
      let count := (Text.arrowParts text.toList).length
      if count = 2 then [] else [.parted count text]
  | _ => []

/-- What is noted when a knowledge base has been read. -/
def KnowledgeBase.events (kb : KnowledgeBase) : List Event :=
  [.baseRead kb.facts.size kb.rules.length]

/-- What is noted when a derivation is abandoned. -/
def ProofError.event : ProofError → Event
  | .tooDeep limit => .limitReached limit
  | .cycle symbol => .cycleFound symbol

end HornClause
