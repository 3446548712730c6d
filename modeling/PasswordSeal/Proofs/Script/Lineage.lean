/-
# Where the settings of a slot come from

A script copies settings from slot to slot and changes the copies, so what a slot holds was made by
a few of the steps only: the last one that put settings into it, the last one before that which
filled the slot it read, and so on back to fresh settings.  `lineage` follows them.

`lineageValues` reads off what settings with such a past should hold: the last count that was
asked for on the way, brought between the bounds, and the last layout; or what fresh settings hold,
where nothing was asked for.  Nothing else of the script comes into it.  How one more step changes
these values is `lineageValues_append`.
-/
import PasswordSeal.Script

namespace PasswordSeal
namespace Script

open Base64 (Layout)

/-! ## 1. The past of a slot -/

/-- The actions that the settings of a slot came through, the last one first, when the steps of a
script are given from the last one on. -/
def lineage : (steps : List Step) → (name : String) → List Action
  | [], _ => []
  | s :: earlier, name =>
    if s.target = name then
      match s.action with
      | .fresh => [.fresh]
      | action => action :: lineage earlier s.slot
    else lineage earlier name

/-- The count that an action asks for. -/
def Action.count? : Action → Option Nat
  | .setIterations n => some n
  | _ => none

/-- The layout that an action asks for. -/
def Action.layout? : Action → Option Layout
  | .setLayout layout => some layout
  | _ => none

/-- A count between 1 and 5000000: the one that is asked for, or the bound that it is beyond. -/
def bounded (n : Nat) : Nat := if n < 1 then 1 else if 5000000 < n then 5000000 else n

/-- The count and the layout that settings with some past hold.  Fresh settings hold 100 and one
line. -/
def valuesOf (past : List Action) : Nat × Layout :=
  (match past.findSome? Action.count? with
    | some n => bounded n
    | none => 100,
  match past.findSome? Action.layout? with
    | some layout => layout
    | none => .singleLine)

/-- The count and the layout that a slot should hold after the steps of a script. -/
def lineageValues (steps : List Step) (name : String) : Nat × Layout :=
  valuesOf (lineage steps.reverse name)

theorem lineageValues_append (before : List Step) (s : Step) (name : String) :
    lineageValues (before ++ [s]) name = valuesOf (lineage (s :: before.reverse) name) := by
  rw [lineageValues, List.reverse_append, List.reverse_singleton, List.singleton_append]

/-- What a step does not put its settings into keeps its past. -/
theorem lineageValues_append_of_ne {name : String} {s : Step} (h : name ≠ s.target)
    (before : List Step) : lineageValues (before ++ [s]) name = lineageValues before name := by
  rw [lineageValues_append, lineage, if_neg h.symm, lineageValues]

theorem lineageValues_append_fresh {s : Step} (fresh : s.action = .fresh) (before : List Step) :
    lineageValues (before ++ [s]) s.target = valuesOf [.fresh] := by
  rw [lineageValues_append, lineage, if_pos rfl, fresh]

/-- The slot that a step puts its settings into has the past of the slot that it read, and the
action of the step. -/
theorem lineageValues_append_target {s : Step} (old : s.action ≠ .fresh) (before : List Step) :
    lineageValues (before ++ [s]) s.target =
      valuesOf (s.action :: lineage before.reverse s.slot) := by
  rw [lineageValues_append, lineage, if_pos rfl]
  split
  · exact absurd ‹_› old
  · rfl

/-! ## 2. Settings and their values -/

/-- What settings are told by. -/
def values (s : Settings) : Nat × Layout := (s.iterations, s.layout)

/-- Settings that hold the same are the same. -/
theorem values_inj {s t : Settings} : values s = values t ↔ s = t := by
  constructor
  · intro h
    obtain ⟨iterations, layout, _, _⟩ := s
    obtain ⟨iterations', layout', _, _⟩ := t
    obtain ⟨rfl, rfl⟩ := Prod.mk.inj h
    rfl
  · rintro rfl
    rfl

theorem clamp_eq_bounded (n : Nat) : Settings.clamp n = bounded n := by
  simp only [Settings.clamp, bounded, minIterations, maxIterations]
  split
  · omega
  · split
    · omega
    · omega

/-- The settings that an action yields from those it reads. -/
def Action.update : Action → Settings → Settings
  | .fresh, _ => Settings.standard
  | .setIterations n, s => s.withIterations n
  | .setLayout layout, s => s.withLayout layout
  | _, s => s

/-- **An action changes the one value that it asks for.** -/
theorem valuesOf_cons_update {past : List Action} {s : Settings} (h : values s = valuesOf past)
    {action : Action} (old : action ≠ .fresh) :
    values (action.update s) = valuesOf (action :: past) := by
  obtain ⟨count, layout⟩ := Prod.mk.inj h
  cases action with
  | fresh => exact absurd rfl old
  | setIterations n => exact Prod.ext (clamp_eq_bounded n) layout
  | setLayout l => exact Prod.ext count rfl
  | copy => exact h
  | compare other => exact h
  | sealText c plaintext => exact h
  | unsealText c text => exact h

end Script
end PasswordSeal
