/-
# Scripts over settings

A script is a list of steps that make, change, compare and use settings held in named slots.
Settings are values: a step yields some and puts them into one slot, and no other slot changes.
A step that reads an empty slot, or a text that no earlier step has answered, ends the script
without a result.
-/
import PasswordSeal.Message

namespace PasswordSeal
namespace Script

/-- Where a sealed text comes from. -/
inductive Source where
  /-- The script gives it. -/
  | given (text : String)
  /-- It is the answer of an earlier step, counted from zero. -/
  | answerOf (step : Nat)
  deriving DecidableEq, Repr

/-- What a step does. -/
inductive Action where
  /-- Yields the standard settings. -/
  | fresh
  /-- Yields the settings of the slot. -/
  | copy
  /-- Yields the settings of the slot with another count. -/
  | setIterations (n : Nat)
  /-- Yields the settings of the slot with another layout. -/
  | setLayout (layout : Base64.Layout)
  /-- Compares the settings of the slot with those of another. -/
  | compare (other : String)
  /-- Seals a text with the settings of the slot. -/
  | sealText (credentials : Credentials) (plaintext : String)
  /-- Unseals a text with the settings of the slot. -/
  | unsealText (credentials : Credentials) (text : Source)
  deriving DecidableEq, Repr

/-- An action, the slot that it reads, and the slot that its settings are put into. -/
structure Step where
  action : Action
  slot : String
  target : String
  deriving DecidableEq, Repr

/-- What a step answers besides its settings. -/
inductive Verdict where
  | done
  | compared (same : Bool)
  | answered (outcome : Except Failure String)

/-- The settings that a step yields, and its answer. -/
structure Report where
  settings : Settings
  verdict : Verdict

/-- The text that a report answers, if it does. -/
def Report.text? (r : Report) : Option String :=
  match r.verdict with
  | .answered (.ok text) => some text
  | _ => none

/-- Where a script stands: the settings in the slots, the reports of the steps so far, and the
events that they logged. -/
structure State where
  slots : String → Option Settings
  reports : List Report
  events : List Event

namespace State

/-- No slot is filled before the first step. -/
def initial : State := ⟨fun _ => none, [], []⟩

/-- Puts the settings of a report into a slot. -/
def record (st : State) (target : String) (report : Report) (events : List Event) : State where
  slots := fun name => if name = target then some report.settings else st.slots name
  reports := st.reports ++ [report]
  events := st.events ++ events

/-- The text that a source names. -/
def text? (st : State) : Source → Option String
  | .given text => some text
  | .answerOf i => st.reports[i]?.bind Report.text?

/-- Performs an action on a slot: its report, and the events that it logs. -/
def perform (st : State) (slot : String) : Action → Option (Report × List Event)
  | .fresh => some (⟨Settings.standard, .done⟩, [])
  | .copy => do
    let s ← st.slots slot
    return (⟨s, .done⟩, [])
  | .setIterations n => do
    let s ← st.slots slot
    return (⟨s.withIterations n, .done⟩, [])
  | .setLayout layout => do
    let s ← st.slots slot
    return (⟨s.withLayout layout, .done⟩, [])
  | .compare other => do
    let s ← st.slots slot
    let t ← st.slots other
    return (⟨s, .compared (s = t)⟩, [])
  | .sealText credentials plaintext => do
    let s ← st.slots slot
    let answer := s.sealText credentials plaintext
    return (⟨s, .answered answer.outcome⟩, answer.events)
  | .unsealText credentials source => do
    let s ← st.slots slot
    let text ← st.text? source
    let answer := s.unsealText credentials text
    return (⟨s, .answered answer.outcome⟩, answer.events)

/-- Performs a step. -/
def step (st : State) (s : Step) : Option State := do
  let (report, events) ← st.perform s.slot s.action
  return st.record s.target report events

end State

/-- Performs the steps of a script. -/
def run (steps : List Step) : Option State := steps.foldlM State.step State.initial

end Script
end PasswordSeal
