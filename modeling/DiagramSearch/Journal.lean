/-
# What happens during a session

A session is what compilations share: the cache, the dominance table, the
number of transitions applied so far, and a journal of everything that
happened.  Journal entries are data; `Notice.line` words those that are meant
for the log.
-/

import DiagramSearch.Cache
import DiagramSearch.Dominance
import DiagramSearch.Fault
import DiagramSearch.Reduction
import DiagramSearch.Statistics

namespace DiagramSearch

/-- The three ways to compile a diagram. -/
inductive Kind where
  /-- Every node is kept. -/
  | exact
  /-- Nodes in excess are merged. -/
  | relaxed
  /-- Nodes in excess are dropped. -/
  | restricted
deriving Repr, DecidableEq

namespace Kind

/-- The name shown in messages. -/
def name : Kind → String
  | exact => "Exact"
  | relaxed => "Relaxed"
  | restricted => "Restricted"

end Kind

/-- What is reported to the log.  Values are in the user's space. -/
inductive Notice (σ V : Type) where
  /-- A layer was completed. -/
  | layerDone (index size : Nat)
  /-- A restriction dropped nodes. -/
  | dropped (count : Nat)
  /-- A relaxation merged nodes. -/
  | merged (count : Nat)
  /-- A sub-problem was not worth exploring. -/
  | skipped (depth : Nat)
  /-- A sub-problem is about to be explored. -/
  | exploring (depth : Nat) (value bound : V) (width left : Nat)
  /-- A better solution was found. -/
  | improved (value : V)
  /-- A branch and bound starts. -/
  | searchStarted (sense : Sense) (count : Nat)
  /-- A branch and bound is over. -/
  | searchOver (stats : Statistics V)
  /-- A branch and bound met a fault. -/
  | searchAborted (fault : Fault σ V)
  /-- The compilation of a single diagram starts. -/
  | compilationStarted (kind : Kind) (sense : Sense) (count : Nat)
  /-- The compilation of a single diagram is over. -/
  | compilationOver (stats : Statistics V)
  /-- The compilation of a single diagram met a fault. -/
  | compilationAborted (fault : Fault σ V)
deriving Repr

namespace Notice

variable {σ V : Type}

/-- How serious a notice is. -/
def level : Notice σ V → String
  | layerDone .. | dropped .. | merged .. | skipped .. => "TRACE"
  | exploring .. => "DEBUG"
  | improved .. | searchStarted .. | searchOver .. | compilationStarted .. | compilationOver .. =>
    "INFO"
  | searchAborted .. | compilationAborted .. => "WARN"

/-- An optional value, written so that it shows to be a float. -/
def optional : Option Float → String
  | none => "None"
  | some x => "Some(" ++ Decimal.Layout.pointed.text x ++ ")"

/-- Incumbent and bound at the end of a search. -/
def outcome (s : Statistics Float) : String :=
  " (incumbent: " ++ optional s.incumbent ++ ", bound: " ++ optional s.bound ++ ")"

/-- The wording of a notice.  Durations are left open. -/
def wording [Label σ] : Notice σ Float → String
  | layerDone index size => "layer " ++ text index ++ " holds " ++ text size ++ " nodes"
  | dropped count => "restriction dropped " ++ text count ++ " nodes"
  | merged count => "relaxation merged " ++ text count ++ " nodes"
  | skipped depth =>
    "skipping a sub-problem at depth " ++ text depth
      ++ ": its state has been met with a better value"
  | exploring depth value bound width left =>
    "exploring a sub-problem at depth " ++ text depth ++ " (value: " ++ text value ++ ", bound: "
      ++ text bound ++ ", width: " ++ text width ++ "), " ++ text left ++ " left"
  | improved value => "new incumbent: " ++ text value
  | searchStarted sense count =>
    "starting a search (" ++ sense.name ++ ") over " ++ text count ++ " variables"
  | searchOver s =>
    "search over: " ++ s.status.name ++ " after " ++ text s.iterations ++ " iterations in _"
      ++ outcome s
  | searchAborted fault => "search aborted: " ++ fault.message
  | compilationStarted kind sense count =>
    "compiling one " ++ kind.name ++ " dd (" ++ sense.name ++ ") over " ++ text count
      ++ " variables"
  | compilationOver s => "compilation over: " ++ s.status.name ++ " in _" ++ outcome s
  | compilationAborted fault => "compilation aborted: " ++ fault.message

/-- The line a notice writes to the log. -/
def line [Label σ] (n : Notice σ Float) : String :=
  n.level ++ " " ++ n.wording

end Notice

/-- What can be observed of a session. -/
inductive Event (σ V : Type) where
  /-- Something was reported to the log. -/
  | notice (n : Notice σ V)
  /-- The cache was told a threshold, and then held one (or none). -/
  | remembered (state : σ) (depth : Nat) (told : Threshold V) (held : Option (Threshold V))
  /-- The dominance table was asked about a pair. -/
  | checked (state : σ) (depth : Nat) (value : V) (verdict : Dominance.Verdict V)
  /-- The dominance table was emptied. -/
  | tableCleared
  /-- A layer was put in order for a reduction. -/
  | sorted (kind : Kind) (keep : Nat) (layer : List (Candidate σ V))
  /-- A sub-problem was queued. -/
  | pushed (s : Subproblem σ V)
  /-- A sub-problem was taken from the queue. -/
  | popped (s : Subproblem σ V)
  /-- The queue was emptied. -/
  | queueCleared
  /-- A better solution was handed out. -/
  | incumbent (solution : Path) (stats : Statistics V)
deriving Repr

/-- What compilations share. -/
structure Session (σ κ V : Type) where
  cache : Cache σ V
  table : Dominance.Table σ κ V
  /-- How many transitions were applied so far. -/
  applications : Nat
  /-- What happened, latest first. -/
  events : List (Event σ V)

namespace Session

variable {σ κ V : Type} [BEq σ] [BEq κ]

/-- A session with nothing remembered. -/
def fresh : Session σ κ V where
  cache := .off
  table := .empty
  applications := 0
  events := []

/-- What happened, in order. -/
def journal (s : Session σ κ V) : List (Event σ V) := s.events.reverse

/-- Adds an event to the journal. -/
def record (s : Session σ κ V) (e : Event σ V) : Session σ κ V :=
  { s with events := e :: s.events }

/-- Reports to the log. -/
def note (s : Session σ κ V) (n : Notice σ V) : Session σ κ V :=
  s.record (.notice n)

/-- Counts an applied transition. -/
def applied (s : Session σ κ V) : Session σ κ V :=
  { s with applications := s.applications + 1 }

/-- Tells the cache a threshold. -/
def remember [Value V] (s : Session σ κ V) (state : σ) (depth : Nat) (t : Threshold V) :
    Session σ κ V :=
  let cache := s.cache.update state depth t
  { s with cache, events := .remembered state depth t (cache.get? state depth) :: s.events }

/-- Asks the dominance table about a pair.  Without a relation nothing is
dominated and nothing is kept. -/
def check [Value V] (s : Session σ κ V) (rel : Option (Dominance σ κ)) (state : σ) (depth : Nat)
    (value : V) : Dominance.Verdict V × Session σ κ V :=
  let (verdict, table) :=
    match rel with
    | none => (none, s.table)
    | some rel => s.table.check rel state depth value
  (verdict, { s with table, events := .checked state depth value verdict :: s.events })

/-- Empties the dominance table. -/
def clearTable (s : Session σ κ V) : Session σ κ V :=
  { s with table := .empty, events := .tableCleared :: s.events }

/-- The session of a compilation that stands beside this one: it has no cache
and no table of its own, and counts transitions on. -/
def aside (s : Session σ κ V) : Session σ κ V :=
  { fresh with applications := s.applications }

/-- Takes over what a compilation on the side leaves behind: the count of its
transitions and what it reported to the log. -/
def resume (s after : Session σ κ V) : Session σ κ V :=
  let notices := after.events.filter fun
    | .notice _ => true
    | _ => false
  { s with applications := after.applications, events := notices ++ s.events }

end Session
end DiagramSearch
