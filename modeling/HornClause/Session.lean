/-
  HornClause.Session

  A session holds settings and at most one knowledge base, and answers queries
  about it. Every query is derived in a context of its own, so an answer depends
  on nothing but the query, the knowledge base and the settings.
-/
import HornClause.Derivation.Backward
import HornClause.Formula.Parse

namespace HornClause

/-- Whether a query holds, and the trace of its derivation. -/
structure Answer where
  result : Bool
  trace : Trace

/-- What is told of an answer: the result, and the trace if it was asked for. -/
@[ext]
structure Reply where
  result : Bool
  trace : Option Trace

/-- Tells an answer, with its trace or without. -/
def Answer.reply (a : Answer) (traced : Bool) : Reply where
  result := a.result
  trace := if traced then some a.trace else none

/-- Settings, and the knowledge base that is asked. -/
structure Session where
  settings : Settings := {}
  base : Option KnowledgeBase := none

/-- Resolves a query against a knowledge base, with the events noted on the way. -/
def KnowledgeBase.consult (kb : KnowledgeBase) (settings : Settings) (query : String) :
    Except AskError Answer × List Event :=
  match Formula.parse kb.known .query query with
  | .error e => (.error (.parse e), e.events)
  | .ok goal =>
      match Derivation.resolveGoal kb goal { context := .start settings } with
      | .error e s => (.error (.proof e), s.log.toList)
      | .ok result s =>
          (.ok ⟨result, .settled query result s.trace.toList⟩,
            s.log.toList ++ [.answered query result s.context.cache.size])

namespace Session

/-- Takes a knowledge base in place of the present one. -/
def install (s : Session) (kb : KnowledgeBase) : Session := { s with base := some kb }

/-- What is noted when a knowledge base is installed. -/
def installEvent (kb : KnowledgeBase) : Event := .baseSet kb.rules.length

/-- Answers a query, with the events noted on the way. -/
def consult (s : Session) (query : String) : Except AskError Answer × List Event :=
  match s.base with
  | none => (.error .noBase, [])
  | some kb => kb.consult s.settings query

/-- Answers a query. -/
def ask (s : Session) (query : String) : Except AskError Answer := (s.consult query).1

/-- Replies to a query, with the trace of its derivation if that is asked for. A trace
    is kept in any case, so asking for it changes neither the derivation nor its end. -/
def reply (s : Session) (query : String) (traced : Bool) : Except AskError Reply :=
  (s.ask query).map (·.reply traced)

end Session

end HornClause
