/-
# What a script leaves in the log

The log of a script is the log of its calls, one after another: the steps that seal or unseal log
what the call logs with the settings that they report, and the others log nothing.  The reports of a
script therefore tell its log, line by line (`scriptLog`).

`log_eq_of_outcomes` states this for scripts of any length, together with the calls that they are
made of.  The step lemma is `log_perform`; the run goes through the steps from the first one on,
since a text that is unsealed may be the answer of a step before.
-/
import PasswordSeal.Proofs.Message.Log
import PasswordSeal.Script

namespace PasswordSeal
namespace Script

/-! ## 1. The log that the reports tell -/

/-- The text that a source names, when some reports have been made. -/
def Source.text? (before : List Report) : Source → Option String
  | .given text => some text
  | .answerOf i => before[i]?.bind Report.text?

/-- What a step logs behind some others, when it makes a report. -/
def stepLog (before : List Report) (s : Step) (r : Report) : List LogLine :=
  match s.action, r.verdict with
  | .sealText c plaintext, .answered outcome => sealLog r.settings.iterations c plaintext outcome
  | .unsealText c source, .answered outcome =>
    match source.text? before with
    | some text =>
      unsealLog r.settings.iterations c (ciphertextOf text) (r.settings.payloadOf c text) outcome
    | none => []
  | _, _ => []

/-- What some steps log behind some others, when they make these reports. -/
def scriptLog (before : List Report) : List Step → List Report → List LogLine
  | s :: steps, r :: reports => stepLog before s r ++ scriptLog (before ++ [r]) steps reports
  | _, _ => []

/-- The lines that a script has logged so far. -/
def State.log (st : State) : List LogLine := st.events.map Event.line

/-! ## 2. One step -/

theorem text?_eq (st : State) (source : Source) : st.text? source = source.text? st.reports := by
  cases source with
  | given text => rfl
  | answerOf i => rfl

/-- **A step logs what its report tells.** -/
theorem log_perform {st : State} {s : Step} {r : Report} {events : List Event}
    (h : st.perform s.slot s.action = some (r, events)) :
    events.map Event.line = stepLog st.reports s r := by
  obtain ⟨action, slot, target⟩ := s
  cases action with
  | fresh =>
    cases h
    rfl
  | compare other =>
    obtain ⟨s, -, h⟩ := Option.bind_eq_some_iff.mp h
    obtain ⟨t, -, h⟩ := Option.bind_eq_some_iff.mp h
    cases h
    rfl
  | sealText c plaintext =>
    obtain ⟨s, -, h⟩ := Option.bind_eq_some_iff.mp h
    cases h
    exact Settings.log_sealText plaintext
  | unsealText c source =>
    obtain ⟨s, -, h⟩ := Option.bind_eq_some_iff.mp h
    obtain ⟨text, named, h⟩ := Option.bind_eq_some_iff.mp h
    rw [text?_eq] at named
    cases h
    simp only [stepLog, named]
    exact Settings.log_unsealText text
  | _ =>
    obtain ⟨s, -, h⟩ := Option.bind_eq_some_iff.mp h
    cases h
    rfl

theorem step_eq_some_iff {st st' : State} {s : Step} :
    st.step s = some st' ↔ ∃ r events, st.perform s.slot s.action = some (r, events) ∧
      st.record s.target r events = st' := by
  rw [State.step]
  constructor
  · intro h
    obtain ⟨⟨r, events⟩, hperform, h⟩ := Option.bind_eq_some_iff.mp h
    exact ⟨r, events, hperform, Option.some.inj h⟩
  · rintro ⟨r, events, hperform, rfl⟩
    exact Option.bind_eq_some_iff.mpr ⟨_, hperform, rfl⟩

/-! ## 3. The run -/

/-- **Some steps add a report each, and to the log what these tell.** -/
theorem log_foldlM {steps : List Step} {st st' : State}
    (h : steps.foldlM State.step st = some st') :
    ∃ reports, reports.length = steps.length ∧ st'.reports = st.reports ++ reports ∧
      st'.log = st.log ++ scriptLog st.reports steps reports := by
  -- From the first step on: what later steps log depends on the reports that stand before them.
  induction steps generalizing st with
  | nil =>
    obtain rfl := Option.some.inj h
    exact ⟨[], rfl, (List.append_nil _).symm, (List.append_nil _).symm⟩
  | cons s steps ih =>
    rw [List.foldlM_cons] at h
    obtain ⟨st₁, hstep, h⟩ := Option.bind_eq_some_iff.mp h
    obtain ⟨r, events, hperform, rfl⟩ := step_eq_some_iff.mp hstep
    obtain ⟨reports, hlength, hreports, hlog⟩ := ih h
    refine ⟨r :: reports, congrArg (· + 1) hlength, ?_, ?_⟩
    · rw [hreports, State.record, List.append_assoc, List.singleton_append]
    · have here : (st.record s.target r events).log = st.log ++ stepLog st.reports s r := by
        rw [State.log, State.record, List.map_append, log_perform hperform, State.log]
      rw [hlog, here, scriptLog, List.append_assoc, State.record]

/-- **Outcomes tell the log.**  Each call logs its lines by its outcome, and the calls without
settings log 100 iterations; a key that is derived by itself is logged when there is an iteration,
and a stage that is no logging operation logs nothing.  A script logs what the reports of its steps
tell, in their order. -/
theorem log_eq_of_outcomes :
    (∀ (s : Settings) (c : Credentials) (plaintext : String),
      (s.sealText c plaintext).log =
        sealLog s.iterations c plaintext (s.sealText c plaintext).outcome) ∧
    (∀ (s : Settings) (c : Credentials) (text : String),
      (s.unsealText c text).log =
        unsealLog s.iterations c (ciphertextOf text) (s.payloadOf c text)
          (s.unsealText c text).outcome) ∧
    (∀ (c : Credentials) (plaintext : String),
      (PasswordSeal.sealText c plaintext).log =
        sealLog 100 c plaintext (PasswordSeal.sealText c plaintext).outcome) ∧
    (∀ (c : Credentials) (text : String),
      (PasswordSeal.unsealText c text).log =
        unsealLog 100 c (ciphertextOf text) (Settings.standard.payloadOf c text)
          (PasswordSeal.unsealText c text).outcome) ∧
    (∀ (c : Credentials) (n : Nat), (messageKey c n).log = if 1 ≤ n then [keyLine c n] else []) ∧
    (∀ (α : Type) (stage : Except Failure α), (Logged.ofExcept stage).log = []) ∧
    ∀ (steps : List Step) (st : State), run steps = some st →
      st.reports.length = steps.length ∧ st.log = scriptLog [] steps st.reports := by
  refine ⟨fun s c plaintext => Settings.log_sealText plaintext,
    fun s c text => Settings.log_unsealText text,
    fun c plaintext => Settings.log_sealText plaintext, fun c text => Settings.log_unsealText text,
    log_messageKey, fun α stage => rfl, ?_⟩
  intro steps st hrun
  obtain ⟨reports, hlength, hreports, hlog⟩ := log_foldlM hrun
  obtain rfl : st.reports = reports := hreports
  exact ⟨hlength, hlog⟩

/-- A script that fails twice before it seals a text. -/
theorem log_two_failures :
    let c : Credentials := ⟨"sixteen bytes id", "password"⟩
    let steps : List Step :=
      [⟨.fresh, "", "a"⟩, ⟨.sealText ⟨"short", "password"⟩ "text", "a", "a"⟩,
        ⟨.unsealText c (.given "!"), "a", "b"⟩, ⟨.sealText c "text", "b", "b"⟩]
    ∃ st, run steps = some st ∧ st.log =
      [⟨"DEBUG", "message encryption failed", [("kind", .text "InvalidIdentifier")]⟩,
        ⟨"DEBUG", "message decryption failed", [("kind", .text "Encoding")]⟩,
        ⟨"TRACE", "message key derived", [("salt_len", .number 16), ("iterations", .number 100)]⟩,
        ⟨"DEBUG", "message encrypted",
          [("plaintext_len", .number 4), ("ciphertext_len", .number 16)]⟩] := by
  intro c steps
  have length : (Utf8.encode c.identifier).length = 16 := by decide
  have length' : (Utf8.encode "text").length = 4 := by decide
  have long : 16 ≤ (Utf8.encode c.identifier).length := Nat.le_of_eq length.symm
  obtain ⟨iv, starts⟩ := exists_initialBlock_iff.mpr long
  let s := Settings.standard
  have short : (s.sealText ⟨"short", "password"⟩ "text").outcome =
      .error (.shortIdentifier 5) := Settings.sealText_eq_error_iff.mpr (by decide)
  have stray : (s.unsealText c "!").outcome = .error (.encoding (.strayByte 0 33)) := by
    have fault : Base64.decode "!" = .error (.strayByte 0 33) := rfl
    rw [Settings.unsealText_of_decode_error (initialBlock_eq_ok_iff.mpr starts) fault]
  obtain ⟨text, sealed⟩ : ∃ text, (s.sealText c "text").outcome = .ok text :=
    Settings.exists_sealText_eq_ok_iff.mpr long
  obtain ⟨st, hrun, reported⟩ : ∃ st, run steps = some st ∧ st.reports =
      [⟨s, .done⟩, ⟨s, .answered (s.sealText ⟨"short", "password"⟩ "text").outcome⟩,
        ⟨s, .answered (s.unsealText c "!").outcome⟩,
        ⟨s, .answered (s.sealText c "text").outcome⟩] := ⟨_, rfl, rfl⟩
  have logged := (log_eq_of_outcomes.2.2.2.2.2.2 steps st hrun).2
  rw [reported, short, stray, sealed] at logged
  have lines : st.log = [failureLine "message encryption failed" "InvalidIdentifier",
      failureLine "message decryption failed" "Encoding", keyLine c 100,
      ⟨"DEBUG", "message encrypted", [("plaintext_len", .number (Utf8.encode "text").length),
        ("ciphertext_len", .number (16 * ((Utf8.encode "text").length / 16 + 1)))]⟩] := logged
  rw [keyLine, length, length'] at lines
  exact ⟨st, hrun, lines⟩

end Script
end PasswordSeal
