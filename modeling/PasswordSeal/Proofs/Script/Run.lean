/-
# What every step of a script does

A script runs to its end when each step reads slots that earlier steps have filled, and texts that
earlier steps have answered (`Readable`).  `run_stepLaw` says what then holds after every one of its
steps (`StepLaw`).

* **Slots.**  Every slot that was filled holds the values of its lineage, and only the slot that
  the step puts its settings into has changed.
* **Answers.**  Settings are compared by these values.  Sealing and unsealing answer as the settings
  of the slot do, so no count can be set under which a key is not derived, and settings with the
  standard values answer as the functions without settings.

The step lemma is `stepLaw_of_slots`: from slots that hold the values of their lineage it makes such
slots again.  The run goes through it step by step (`exists_run_take`).
-/
import PasswordSeal.Proofs.Message.Stages
import PasswordSeal.Proofs.Script.Lineage

namespace PasswordSeal
namespace Script

open Base64 (Layout)

/-! ## 1. Scripts that can run -/

/-- The slots that a step reads. -/
def Step.reads (s : Step) : List String :=
  match s.action with
  | .fresh => []
  | .compare other => [s.slot, other]
  | _ => [s.slot]

theorem Step.slot_mem_reads {s : Step} (old : s.action ≠ .fresh) : s.slot ∈ s.reads := by
  obtain ⟨action, slot, target⟩ := s
  cases action with
  | fresh => exact absurd rfl old
  | _ => exact List.mem_cons_self

/-- The text that a step unseals. -/
def Step.source? (s : Step) : Option Source :=
  match s.action with
  | .unsealText _ source => some source
  | _ => none

/-- The slots that some steps have filled. -/
def filled (steps : List Step) : List String := steps.map Step.target

theorem mem_filled_append {before : List Step} {s : Step} {name : String} :
    name ∈ filled (before ++ [s]) ↔ name ∈ filled before ∨ name = s.target := by
  rw [filled, List.map_append, List.map_singleton, List.mem_append, List.mem_singleton, filled]

/-- A step can be performed after some others: they have filled the slots that it reads, and
answered the text that it unseals, unless the script gives that. -/
def Step.Readable (before : List Step) (s : Step) : Prop :=
  (∀ name ∈ s.reads, name ∈ filled before) ∧
    ∀ i, s.source? = some (.answerOf i) →
      ∀ st, run before = some st → ∃ text, st.text? (.answerOf i) = some text

/-- Each step of a script can be performed after those before it. -/
def Readable (steps : List Step) : Prop :=
  ∀ i (h : i < steps.length), steps[i].Readable (steps.take i)

/-! ## 2. The law of a step -/

/-- Every slot that was filled holds the values of its lineage, and no other slot holds any. -/
def SlotsHold (steps : List Step) (st : State) : Prop :=
  ∀ name, (st.slots name).map values =
    if name ∈ filled steps then some (lineageValues steps name) else none

/-- The answer under settings that hold some values is that under any settings that hold them,
the answer without settings where these are the standard values, and never that no key can be
derived. -/
structure AnswerLaw (v : Nat × Layout) (under : Settings → Logged String)
    (without answer : Logged String) : Prop where
  settings : ∀ s, values s = v → answer = under s
  standard : v = (100, .singleLine) → answer = without
  keyDerivation : ∀ reason, answer.outcome ≠ .error (.keyDerivation reason)

/-- The answer to sealing a text.  Only the identifier can be wrong. -/
structure SealLaw (v : Nat × Layout) (c : Credentials) (plaintext : String)
    (answer : Logged String) : Prop extends
    AnswerLaw v (fun s => s.sealText c plaintext) (PasswordSeal.sealText c plaintext) answer where
  ok : (∃ text, answer.outcome = .ok text) ↔ 16 ≤ (Utf8.encode c.identifier).length
  shortIdentifier : answer.outcome = .error (.shortIdentifier (Utf8.encode c.identifier).length) ↔
    (Utf8.encode c.identifier).length < 16

/-- The answer to unsealing a text. -/
def UnsealLaw (v : Nat × Layout) (c : Credentials) (text : String) (answer : Logged String) :
    Prop :=
  AnswerLaw v (fun s => s.unsealText c text) (PasswordSeal.unsealText c text) answer

/-- What a step answers and logs after some others, which have led to the state `st`. -/
def VerdictLaw (before : List Step) (st : State) (s : Step) (verdict : Verdict)
    (events : List Event) : Prop :=
  match s.action with
  | .compare other => events = [] ∧ ∃ same, verdict = .compared same ∧
      (same = true ↔ lineageValues before s.slot = lineageValues before other)
  | .sealText c plaintext => ∃ answer,
      SealLaw (lineageValues before s.slot) c plaintext answer ∧
      verdict = .answered answer.outcome ∧ events = answer.events
  | .unsealText c source => ∃ text answer, st.text? source = some text ∧
      UnsealLaw (lineageValues before s.slot) c text answer ∧
      verdict = .answered answer.outcome ∧ events = answer.events
  | _ => verdict = .done ∧ events = []

/-- **What a step does**, after some others that have led to the state `st`. -/
structure StepLaw (before : List Step) (s : Step) (st st' : State) : Prop where
  slots : SlotsHold (before ++ [s]) st'
  bounds : ∀ name settings, st'.slots name = some settings →
    1 ≤ settings.iterations ∧ settings.iterations ≤ 5000000
  /-- No other slot changes. -/
  frame : ∀ name, name ≠ s.target → st'.slots name = st.slots name
  /-- The step adds one report, with the settings that it puts into its slot. -/
  report : ∃ settings verdict events, st'.slots s.target = some settings ∧
    st'.reports = st.reports ++ [⟨settings, verdict⟩] ∧ st'.events = st.events ++ events ∧
    VerdictLaw before st s verdict events

/-! ## 3. Answers -/

/-- Settings are told by the values that they hold, so these settle the answer. -/
theorem answerLaw (s : Settings) {under : Settings → Logged String}
    (derived : ∀ reason, (under s).outcome ≠ .error (.keyDerivation reason)) :
    AnswerLaw (values s) under (under Settings.standard) (under s) where
  settings t h := by rw [values_inj.mp h]
  standard h := by
    obtain rfl : s = Settings.standard := values_inj.mp h
    rfl
  keyDerivation := derived

theorem sealLaw (s : Settings) (c : Credentials) (plaintext : String) :
    SealLaw (values s) c plaintext (s.sealText c plaintext) where
  toAnswerLaw := answerLaw s fun reason h => by cases (Settings.sealText_eq_error_iff.mp h).2
  ok := Settings.exists_sealText_eq_ok_iff
  shortIdentifier := by
    rw [Settings.sealText_eq_error_iff]
    exact and_iff_left rfl

theorem unsealLaw (s : Settings) (c : Credentials) (text : String) :
    UnsealLaw (values s) c text (s.unsealText c text) :=
  answerLaw s fun reason h => by
    rw [Settings.unsealText_eq_error_iff_stages] at h
    simp at h

/-! ## 4. One step -/

/-- A slot that was filled holds settings. -/
theorem SlotsHold.exists_settings {steps : List Step} {st : State} (hold : SlotsHold steps st)
    {name : String} (h : name ∈ filled steps) :
    ∃ s, st.slots name = some s ∧ values s = lineageValues steps name := by
  have here := hold name
  rw [if_pos h] at here
  exact Option.map_eq_some_iff.mp here

/-- What an action answers besides its settings, when the slot holds `s`. -/
def State.answer? (st : State) (s : Settings) : Action → Option (Verdict × List Event)
  | .compare other => (st.slots other).map fun t => (.compared (s = t), [])
  | .sealText c plaintext =>
    let answer := s.sealText c plaintext
    some (.answered answer.outcome, answer.events)
  | .unsealText c source =>
    (st.text? source).map fun text =>
      let answer := s.unsealText c text
      (.answered answer.outcome, answer.events)
  | _ => some (.done, [])

/-- An action changes the settings of its slot, whatever it answers. -/
theorem perform_eq_map_answer? {st : State} {slot : String} {s : Settings} {action : Action}
    (hslot : st.slots slot = some s) (old : action ≠ .fresh) :
    st.perform slot action =
      (st.answer? s action).map fun answer => (⟨action.update s, answer.1⟩, answer.2) := by
  cases action with
  | fresh => exact absurd rfl old
  | compare other =>
    rw [State.perform, hslot, State.answer?]
    cases st.slots other <;> rfl
  | unsealText c source =>
    rw [State.perform, hslot, State.answer?]
    cases st.text? source <;> rfl
  | _ =>
    rw [State.perform, hslot]
    rfl

/-- An action that can be performed on its slot answers as the law says. -/
theorem exists_answer? {before : List Step} {st : State} {s : Step} (hold : SlotsHold before st)
    (hrun : run before = some st) (readable : s.Readable before) {settings : Settings}
    (hvalues : values settings = lineageValues before s.slot) (old : s.action ≠ .fresh) :
    ∃ verdict events, st.answer? settings s.action = some (verdict, events) ∧
      VerdictLaw before st s verdict events := by
  obtain ⟨reads, answered⟩ := readable
  obtain ⟨action, slot, target⟩ := s
  cases action with
  | fresh => exact absurd rfl old
  | compare other =>
    have second : other ∈ filled before := reads other (List.mem_cons_of_mem _ List.mem_cons_self)
    obtain ⟨settings', hslot', hvalues'⟩ := hold.exists_settings second
    refine ⟨.compared (settings = settings'), [], ?_, rfl, _, rfl, ?_⟩
    · rw [State.answer?, hslot']
      rfl
    · rw [← hvalues, ← hvalues', values_inj, decide_eq_true_iff]
  | sealText c plaintext =>
    refine ⟨_, _, rfl, settings.sealText c plaintext, ?_, rfl, rfl⟩
    rw [← hvalues]
    exact sealLaw settings c plaintext
  | unsealText c source =>
    obtain ⟨text, htext⟩ : ∃ text, st.text? source = some text := by
      cases source with
      | given text => exact ⟨text, rfl⟩
      | answerOf i => exact answered i rfl st hrun
    refine ⟨.answered (settings.unsealText c text).outcome, (settings.unsealText c text).events,
      ?_, text, settings.unsealText c text, htext, ?_, rfl, rfl⟩
    · rw [State.answer?, htext]
      rfl
    · rw [← hvalues]
      exact unsealLaw settings c text
  | _ => exact ⟨.done, [], rfl, rfl, rfl⟩

/-- A step that can be performed gives settings, which hold the values of their lineage, and an
answer. -/
theorem exists_perform {before : List Step} {st : State} {s : Step} (hold : SlotsHold before st)
    (hrun : run before = some st) (readable : s.Readable before) :
    ∃ settings verdict events, st.perform s.slot s.action = some (⟨settings, verdict⟩, events) ∧
      values settings = lineageValues (before ++ [s]) s.target ∧
      VerdictLaw before st s verdict events := by
  by_cases fresh : s.action = .fresh
  · refine ⟨Settings.standard, .done, [], ?_, ?_, ?_⟩
    · rw [fresh, State.perform]
    · rw [lineageValues_append_fresh fresh]
      rfl
    · simp only [VerdictLaw, fresh, and_self]
  · obtain ⟨settings, hslot, hvalues⟩ :=
      hold.exists_settings (readable.1 s.slot (Step.slot_mem_reads fresh))
    obtain ⟨verdict, events, hanswer, hverdict⟩ := exists_answer? hold hrun readable hvalues fresh
    refine ⟨s.action.update settings, verdict, events, ?_, ?_, hverdict⟩
    · rw [perform_eq_map_answer? hslot fresh, hanswer, Option.map_some]
    · rw [lineageValues_append_target fresh]
      exact valuesOf_cons_update hvalues fresh

/-- **From slots that hold the values of their lineage a step makes such slots again.** -/
theorem stepLaw_of_slots {before : List Step} {st : State} {s : Step} (hold : SlotsHold before st)
    (hrun : run before = some st) (readable : s.Readable before) :
    ∃ st', st.step s = some st' ∧ StepLaw before s st st' := by
  obtain ⟨settings, verdict, events, hperform, hvalues, hverdict⟩ :=
    exists_perform hold hrun readable
  have changed (name : String) : (st.record s.target ⟨settings, verdict⟩ events).slots name =
      if name = s.target then some settings else st.slots name := rfl
  refine ⟨st.record s.target ⟨settings, verdict⟩ events, ?_, ?_, ?_, ?_, ?_⟩
  · rw [State.step, hperform]
    rfl
  · intro name
    rw [changed]
    by_cases h : name = s.target
    · subst h
      rw [if_pos rfl, if_pos (mem_filled_append.mpr (.inr rfl)), Option.map_some, hvalues]
    · rw [if_neg h, hold name, lineageValues_append_of_ne h]
      by_cases old : name ∈ filled before
      · rw [if_pos old, if_pos (mem_filled_append.mpr (.inl old))]
      · rw [if_neg old, if_neg fun new => (mem_filled_append.mp new).elim old h]
  · intro name t _
    exact ⟨t.min_le, t.le_max⟩
  · intro name h
    rw [changed, if_neg h]
  · refine ⟨settings, verdict, events, ?_, rfl, rfl, hverdict⟩
    rw [changed, if_pos rfl]

/-! ## 5. The run -/

theorem run_append_singleton (before : List Step) (s : Step) :
    run (before ++ [s]) = (run before).bind fun st => st.step s := by
  rw [run, List.foldlM_append]
  refine congrArg ((run before).bind ·) (funext fun st => ?_)
  exact bind_pure (st.step s)

theorem slotsHold_initial : SlotsHold [] State.initial := fun _ => rfl

/-- **Every beginning of a script that can run ends with slots that hold the values of their
lineage.** -/
theorem exists_run_take {steps : List Step} (readable : Readable steps) :
    ∀ n ≤ steps.length, ∃ st, run (steps.take n) = some st ∧ SlotsHold (steps.take n) st := by
  intro n
  induction n with
  | zero => exact fun _ => ⟨State.initial, rfl, slotsHold_initial⟩
  | succ n ih =>
    intro h
    obtain ⟨st, hrun, hold⟩ := ih (Nat.le_of_succ_le h)
    obtain ⟨st', hstep, law⟩ := stepLaw_of_slots hold hrun (readable n h)
    rw [List.take_succ_eq_append_getElem h, run_append_singleton, hrun]
    exact ⟨st', hstep, law.slots⟩

/-- **A script whose steps can be performed runs to its end, and after every step the slots hold
the values of their lineage**, no other slot than the one of the step has changed, and the step has
answered as settings with these values do. -/
theorem run_stepLaw (steps : List Step) (readable : Readable steps) :
    (∃ st, run steps = some st) ∧
    ∀ i (h : i < steps.length), ∃ st st',
      run (steps.take i) = some st ∧ run (steps.take (i + 1)) = some st' ∧
      StepLaw (steps.take i) steps[i] st st' := by
  constructor
  · obtain ⟨st, hrun, -⟩ := exists_run_take readable steps.length (Nat.le_refl _)
    rw [List.take_length] at hrun
    exact ⟨st, hrun⟩
  · intro i h
    obtain ⟨st, hrun, hold⟩ := exists_run_take readable i (Nat.le_of_lt h)
    obtain ⟨st', hstep, law⟩ := stepLaw_of_slots hold hrun (readable i h)
    refine ⟨st, st', hrun, ?_, law⟩
    rw [List.take_succ_eq_append_getElem h, run_append_singleton, hrun]
    exact hstep

/-- A copy is taken between two counts, a third slot seals, and its answer is unsealed with the
copy. -/
def interleaved : List Step :=
  [⟨.fresh, "", "a"⟩, ⟨.setIterations 0, "a", "b"⟩, ⟨.setLayout .mime, "b", "b"⟩,
    ⟨.copy, "b", "a"⟩, ⟨.setIterations 7000000, "a", "b"⟩, ⟨.compare "a", "b", "c"⟩,
    ⟨.sealText ⟨"sixteen bytes id", "password"⟩ "text", "c", "c"⟩,
    ⟨.unsealText ⟨"sixteen bytes id", "password"⟩ (.answerOf 6), "a", "d"⟩]

/-- The seventh step answers a text, and the last one may read it. -/
theorem readable_interleaved : Readable interleaved := by
  let sealing := ((Settings.standard.withIterations 0).withLayout .mime).withIterations 7000000
  let answer := sealing.sealText ⟨"sixteen bytes id", "password"⟩ "text"
  obtain ⟨text, sealed⟩ : ∃ text, answer.outcome = .ok text :=
    Settings.exists_sealText_eq_ok_iff.mpr (by decide)
  have reported : Report.text? ⟨sealing, .answered answer.outcome⟩ = some text := by
    rw [Report.text?, sealed]
  have answered : ∀ st, run (interleaved.take 7) = some st →
      ∃ text, st.text? (.answerOf 6) = some text := by
    rintro st ⟨⟩
    exact ⟨text, reported⟩
  intro i h
  match i, h with
  | 0, _ | 1, _ | 2, _ | 3, _ | 4, _ | 5, _ | 6, _ => exact ⟨by decide +revert, nofun⟩
  | 7, _ =>
    refine ⟨by decide +revert, fun i source => ?_⟩
    obtain rfl : 6 = i := by simpa [Step.source?, interleaved] using source
    exact answered

/-- The copy keeps the count that it was taken with. -/
theorem run_interleaved :
    Readable interleaved ∧
    ∃ st, run interleaved = some st ∧ (st.slots "a").map values = some (1, .mime) ∧
      (st.slots "b").map values = some (5000000, .mime) := by
  obtain ⟨-, law⟩ := run_stepLaw interleaved readable_interleaved
  obtain ⟨_, st, -, hrun, hlaw⟩ := law 7 (by decide)
  exact ⟨readable_interleaved, st, hrun, hlaw.slots "a", hlaw.slots "b"⟩

end Script
end PasswordSeal
