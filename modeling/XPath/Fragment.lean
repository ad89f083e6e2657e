import XPath.Error

/-!
# Result tree fragments

A fragment is the record of how a tree was to be built: a list of events with the text among
them. A recorder merges adjacent characters and drops empty ones, so no two character events
meet and none is empty; replaying a fragment into a recorder gives the fragment again.
-/

namespace XPath

structure FragmentAttribute where
  name : ExpandedName
  display : String
  value : String
  deriving DecidableEq, Repr, Inhabited

inductive FragmentEvent
  | startElement (name : ExpandedName) (display : String) (attributes : List FragmentAttribute)
  | endElement (name : ExpandedName)
  | namespaceNode (boundPrefix uri : String)
  | characters (text : String)
  | comment (text : String)
  | processingInstruction (target data : String)
  | escaping (enabled : Bool)
  deriving DecidableEq, Repr, Inhabited

/-- A finished fragment: its events in order, and all its character data. -/
structure Fragment where
  events : List FragmentEvent
  text : String
  deriving DecidableEq, Repr, Inhabited

/-- A call on a recorder. Attributes may come with the start of an element or after it. -/
inductive FragmentCall
  | event (e : FragmentEvent)
  | lateAttribute (a : FragmentAttribute)
  deriving DecidableEq, Repr, Inhabited

/-- A fragment under construction, its latest event first. -/
structure FragmentRecorder where
  latest : List FragmentEvent
  text : String
  deriving DecidableEq, Repr, Inhabited

namespace FragmentRecorder

def start : FragmentRecorder := ⟨[], ""⟩

/-- Adds characters to the latest event if that holds characters too. -/
def addCharacters (r : FragmentRecorder) (text : String) : FragmentRecorder :=
  if text.isEmpty then r
  else match r.latest with
    | .characters previous :: earlier =>
      ⟨.characters (previous ++ text) :: earlier, r.text ++ text⟩
    | events => ⟨.characters text :: events, r.text ++ text⟩

def addAttribute (a : FragmentAttribute) : List FragmentEvent → List FragmentEvent
  | [] => []
  | .startElement name display attributes :: earlier =>
    .startElement name display (attributes ++ [a]) :: earlier
  | e :: earlier => e :: addAttribute a earlier

def record (r : FragmentRecorder) : FragmentCall → FragmentRecorder
  | .event (.characters text) => r.addCharacters text
  | .event e => { r with latest := e :: r.latest }
  | .lateAttribute a => { r with latest := addAttribute a r.latest }

def finish (r : FragmentRecorder) : Fragment := ⟨r.latest.reverse, r.text⟩

end FragmentRecorder

/-- What receives the events of a replay. Each event may be refused. -/
structure FragmentHandler (σ : Type) where
  handle : σ → FragmentEvent → Except Error σ

def FragmentRecorder.handler : FragmentHandler FragmentRecorder :=
  ⟨fun r e => .ok (r.record (.event e))⟩

namespace Fragment

def ofCalls (calls : List FragmentCall) : Fragment :=
  (calls.foldl FragmentRecorder.record .start).finish

def ofText (text : String) : Fragment := ofCalls [.event (.characters text)]

/-- Hands the events to `h` in order, up to the first that it refuses. The state reached so far is
part of the answer. -/
def replay {σ : Type} (h : FragmentHandler σ) (s : σ) : List FragmentEvent → σ × Option Error
  | [] => (s, none)
  | e :: rest =>
    match h.handle s e with
    | .ok next => replay h next rest
    | .error failure => (s, some failure)

def copy (f : Fragment) : Fragment := (replay FragmentRecorder.handler .start f.events).1.finish

end Fragment

end XPath
