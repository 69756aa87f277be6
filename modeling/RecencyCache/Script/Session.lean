import RecencyCache.Script.Command

/-!
# Sessions

A scenario is played step by step on one cache, and every step is answered with how it ended, what its callbacks
wrote down, what was logged, and how the cache looks afterwards.  Steps given to several threads are made one thread
after the other; as their interleaving is left open, the order of recency is not told from then on.
-/

namespace RecencyCache.Script

inductive Step where
  /-- A command; what its callbacks wrote down is left out if `quiet`. -/
  | single (command : Command) (quiet : Bool)
  /-- Several threads, each of which goes through its commands so many times. -/
  | threads (lists : List (List Command)) (repeats : Nat)

/-- How a step ended. -/
inductive Ending where
  /-- Threads have nothing to tell. -/
  | silent
  /-- It told something, where it could not fail. -/
  | told (result : Result)
  /-- It told something, where it might have failed. -/
  | succeeded (result : Result)
  | failed (message : String)
  | faulted (fault : Fault)

/-- The ending that goes with what came of a command. -/
def Ending.of (mayFail : Bool) : Except (Abort String) Result → Ending
  | .ok result => if mayFail then .succeeded result else .told result
  | .error (.failed message) => .failed message
  | .error (.faulted fault) => .faulted fault

/-- How a step ended, what it left in notes and log, and how the cache looks after it. -/
structure Answer where
  ending : Ending
  notes : List Note
  log : List Event
  length : Nat
  order : List Value
  metrics : Metrics

variable {κ : Type} [KeyForm κ]

/-- A world in which a scenario is being played, and whether threads have been at it. -/
structure Session (κ : Type) [KeyForm κ] where
  world : World κ Value Trace
  threaded : Bool := false

namespace Session

def new (config : Config) : Session κ :=
  { world := .new config {} }

/-- Long lists are told by their first eight and their last eight members. -/
def shorten (values : List Value) : List Value :=
  if 64 < values.length then values.take 8 ++ values.drop (values.length - 8) else values

/-- The values as they are told: by recency, or in ascending order once threads have been at work. -/
def order (s : Session κ) : List Value :=
  let values := s.world.cache.toList.map (·.2)
  shorten (if s.threaded then values.mergeSort Value.le else values)

/-- The answer to a step that has just been played. -/
def answer (s : Session κ) (ending : Ending) (notes : List Note) (log : List Event) : Answer :=
  { ending, notes, log, length := s.world.cache.length, order := s.order, metrics := s.world.cache.metrics }

/-- Plays a step.  A batch tells neither notes nor log, and neither do threads. -/
def play (s : Session κ) : Step → Answer × Session κ
  | .single command quiet =>
    let (result, world) := command.run s.world
    let s := { s with world }
    let (notes, log) := match command with
      | .batch _ => ([], [])
      | _ => (if quiet then [] else world.caller.notes.toList, world.log.toList)
    (s.answer (.of command.mayFail result) notes log, s)
  | .threads lists repeats =>
    let commands := lists.flatMap fun list => (List.replicate repeats list).flatten
    let s : Session κ :=
      { world := commands.foldl (fun w command => (command.run w).2) s.world, threaded := true }
    (s.answer .silent [] [], s)

def playAll (s : Session κ) : List Step → List Answer × Session κ
  | [] => ([], s)
  | step :: steps =>
    let (answer, s) := s.play step
    let (answers, s) := s.playAll steps
    (answer :: answers, s)

end Session

/-! ### Scenarios -/

/-- A cache to make, what to do with it, and the keys to look for at the end. -/
structure Scenario where
  capacity : UInt64
  /-- Whether keys count as equal when they differ in ASCII case only. -/
  caseless : Bool
  /-- Over how many hashes the keys are spread, if over few. -/
  hashes : Option Nat
  steps : List Step
  watched : List Key

structure Transcript where
  capacity : Nat
  created : List Event
  answers : List Answer
  present : List Key

namespace Scenario

/-- Plays a scenario with keys of a form. -/
def playWith (scenario : Scenario) (κ : Type) [KeyForm κ] (config : Config) : Transcript :=
  let s : Session κ := .new config
  let (answers, last) := s.playAll scenario.steps
  { capacity := s.world.cache.capacity
    created := s.world.log.toList
    answers
    present := scenario.watched.eraseDups.filter fun k => last.world.cache.index.contains (KeyForm.ofKey k) }

/-- Plays a scenario, unless no cache of its capacity can be made. -/
def play (scenario : Scenario) : Except ConfigError Transcript := do
  let config ← Config.ofCapacity scenario.capacity
  return match scenario.caseless, scenario.hashes with
    | false, none => scenario.playWith Key config
    | true, none => scenario.playWith Caseless config
    | false, some n => scenario.playWith (Coarse n Key) config
    | true, some n => scenario.playWith (Coarse n Caseless) config

end Scenario

end RecencyCache.Script
