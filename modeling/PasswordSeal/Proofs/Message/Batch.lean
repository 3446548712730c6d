/-
# Batches and single messages

A batch answers as its items would one by one (`AnswersFor`): with a text for each of them, in its
place, or with the failure of one of them.  No text is lost, doubled or moved, and none is given out
when an item fails.  **Which failure that is, is left open:** that of any item that fails would do
(`AnswersFor.of_error`), so nothing here depends on the order in which items are worked on.

Items are sealed and unsealed with the standard settings, so what was sealed as a batch can be
unsealed as one, under the same identifiers in the same order (`unsealAll_of_sealAll`).
-/
import PasswordSeal.Batch
import PasswordSeal.Proofs.Message.RoundTrip

namespace PasswordSeal

open Outcome

/-! ## 1. Item by item -/

/-- **What a batch answers** when `single` answers its items one by one. -/
structure AnswersFor (single : Item → Except Failure String) (items : List Item)
    (answer : Except Failure (List String)) : Prop where
  /-- A text is given for each item, in the place of the item. -/
  ok : ∀ texts, answer = .ok texts ↔ texts.length = items.length ∧
    ∀ (i : Nat) (item : Item), items[i]? = some item →
      ∃ text, texts[i]? = some text ∧ single item = .ok text
  /-- The batch fails just when an item does. -/
  fails : (∃ e, answer = .error e) ↔ ∃ item ∈ items, ∃ e, single item = .error e
  /-- Its failure is that of an item. -/
  failure : ∀ e, answer = .error e → ∃ item ∈ items, single item = .error e

section

variable {single : Item → Except Failure String} {items : List Item}

/-- A text for each item, in the place of the item. -/
theorem map_eq_map_ok_iff {texts : List String} :
    items.map single = texts.map .ok ↔ texts.length = items.length ∧
      ∀ (i : Nat) (item : Item), items[i]? = some item →
        ∃ text, texts[i]? = some text ∧ single item = .ok text := by
  constructor
  · intro h
    refine ⟨?_, fun i item hi => ?_⟩
    · have length := congrArg List.length h
      rw [List.length_map, List.length_map] at length
      exact length.symm
    · have place := congrArg (·[i]?) h
      simp only [List.getElem?_map, hi, Option.map_some] at place
      obtain ⟨text, htext, hsingle⟩ := Option.map_eq_some_iff.mp place.symm
      exact ⟨text, htext, hsingle.symm⟩
  · rintro ⟨length, h⟩
    refine List.ext_getElem? fun i => ?_
    rw [List.getElem?_map, List.getElem?_map]
    cases hi : items[i]? with
    | none =>
      have behind : texts[i]? = none := by
        rw [List.getElem?_eq_none_iff, length]
        exact List.getElem?_eq_none_iff.mp hi
      rw [behind, Option.map_none, Option.map_none]
    | some item =>
      obtain ⟨text, htext, hsingle⟩ := h i item hi
      rw [htext, Option.map_some, Option.map_some, hsingle]

variable {item : Item} {e : Failure}

/-- An item that fails has no text to stand in its place. -/
theorem map_ne_map_ok (mem : item ∈ items) (hitem : single item = .error e)
    (texts : List String) : items.map single ≠ texts.map .ok := by
  intro h
  have here : single item ∈ texts.map .ok := h ▸ List.mem_map_of_mem mem
  obtain ⟨text, -, hsingle⟩ := List.mem_map.mp here
  cases hsingle.trans hitem

/-- Texts for all items are an answer. -/
theorem AnswersFor.of_map {texts : List String} (h : items.map single = texts.map .ok) :
    AnswersFor single items (.ok texts) where
  ok texts' := by
    rw [← map_eq_map_ok_iff, h, List.map_inj_right fun _ _ => Except.ok.inj]
    exact ⟨Except.ok.inj, congrArg _⟩
  fails := by
    constructor
    · rintro ⟨e, he⟩
      cases he
    · rintro ⟨item, mem, e, hitem⟩
      exact absurd h (map_ne_map_ok mem hitem texts)
  failure e he := by cases he

/-- The failure of an item is an answer, whichever of the failing ones it is. -/
theorem AnswersFor.of_error (mem : item ∈ items) (hitem : single item = .error e) :
    AnswersFor single items (.error e) where
  ok texts := by
    rw [← map_eq_map_ok_iff]
    exact iff_of_false (fun h => by cases h) (map_ne_map_ok mem hitem texts)
  fails := iff_of_true ⟨e, rfl⟩ ⟨item, mem, e, hitem⟩
  failure e' h := by
    obtain rfl := Except.error.inj h
    exact ⟨item, mem, hitem⟩

theorem answersFor_mapM (single : Item → Except Failure String) (items : List Item) :
    AnswersFor single items (items.mapM single) := by
  cases h : items.mapM single with
  | ok texts => exact .of_map (mapM_eq_ok_iff.mp h)
  | error e =>
    obtain ⟨item, mem, hitem⟩ := exists_of_mapM_eq_error h
    exact .of_error mem hitem

end

/-! ## 2. Sealed and unsealed batches -/

section

variable {items : List Item} {password : String}

/-- Only an identifier can be wrong when a batch is sealed. -/
theorem sealAll_fails_iff :
    (∃ e, sealAll items password = .error e) ↔
      ∃ item ∈ items, (Utf8.encode item.identifier).length < 16 := by
  rw [sealAll, (answersFor_mapM _ items).fails]
  constructor
  · rintro ⟨item, mem, e, h⟩
    exact ⟨item, mem, (Settings.sealText_eq_error_iff.mp h).1⟩
  · rintro ⟨item, mem, short⟩
    exact ⟨item, mem, _, Settings.sealText_eq_error_iff.mpr ⟨short, rfl⟩⟩

/-- A batch under identifiers that will do is sealed. -/
theorem exists_sealAll_eq_ok (password : String)
    (long : ∀ item ∈ items, 16 ≤ (Utf8.encode item.identifier).length) :
    ∃ texts, sealAll items password = .ok texts := by
  cases h : sealAll items password with
  | ok texts => exact ⟨texts, rfl⟩
  | error e =>
    obtain ⟨item, mem, short⟩ := sealAll_fails_iff.mp ⟨e, h⟩
    exact absurd (long item mem) (Nat.not_le.mpr short)

/-- **What was sealed as a batch can be unsealed as one.** -/
theorem unsealAll_of_sealAll {texts : List String} (h : sealAll items password = .ok texts) :
    unsealAll (items.zipWith (fun item text => ⟨item.identifier, text⟩) texts) password =
      .ok (items.map Item.text) := by
  rw [sealAll, mapM_eq_ok_iff] at h
  rw [unsealAll, mapM_eq_ok_iff]
  induction items generalizing texts with
  | nil => rfl
  | cons item items ih =>
    obtain ⟨text, texts, rfl, first, rest⟩ := List.map_eq_cons_iff.mp h.symm
    rw [List.zipWith_cons_cons, List.map_cons, ih rest.symm, List.map_cons, List.map_cons]
    exact congrArg (· :: _) (Settings.unsealText_of_sealText first.symm)

end

/-! ## 3. The law -/

/-- **A batch agrees with its messages.**  Sealing and unsealing answer item by item; sealing fails
just when an identifier is too short; and otherwise the sealed texts, put in the place of the
plaintexts, are unsealed to the plaintexts. -/
theorem batch_itemwise (items : List Item) (password : String) :
    AnswersFor (fun item => (sealText ⟨item.identifier, password⟩ item.text).outcome) items
      (sealAll items password) ∧
    ((∃ e, sealAll items password = .error e) ↔
      ∃ item ∈ items, (Utf8.encode item.identifier).length < 16) ∧
    AnswersFor (fun item => (unsealText ⟨item.identifier, password⟩ item.text).outcome) items
      (unsealAll items password) ∧
    ((∀ item ∈ items, 16 ≤ (Utf8.encode item.identifier).length) →
      ∃ texts, sealAll items password = .ok texts ∧
        unsealAll (items.zipWith (fun item text => ⟨item.identifier, text⟩) texts) password =
          .ok (items.map Item.text)) := by
  refine ⟨answersFor_mapM _ items, sealAll_fails_iff, answersFor_mapM _ items, fun long => ?_⟩
  obtain ⟨texts, sealed⟩ := exists_sealAll_eq_ok password long
  exact ⟨texts, sealed, unsealAll_of_sealAll sealed⟩

/-- A batch with an item that stands there twice comes back in its order, and one whose second
identifier is short fails for it. -/
theorem batch_itemwise_three :
    let items : List Item :=
      [⟨"sixteen bytes id", "a"⟩, ⟨"ääääöööö", "b"⟩, ⟨"sixteen bytes id", "a"⟩]
    (∀ item ∈ items, 16 ≤ (Utf8.encode item.identifier).length) ∧
    (∃ texts, sealAll items "password" = .ok texts ∧
      unsealAll (items.zipWith (fun item text => ⟨item.identifier, text⟩) texts) "password" =
        .ok ["a", "b", "a"]) ∧
    sealAll [⟨"sixteen bytes id", "a"⟩, ⟨"short", "b"⟩] "password" =
      .error (.shortIdentifier 5) := by
  intro items
  have long : ∀ item ∈ items, 16 ≤ (Utf8.encode item.identifier).length := by decide
  obtain ⟨-, -, -, back⟩ := batch_itemwise items "password"
  refine ⟨long, back long, ?_⟩
  obtain ⟨answers, fails, -, -⟩ :=
    batch_itemwise [⟨"sixteen bytes id", "a"⟩, ⟨"short", "b"⟩] "password"
  obtain ⟨e, h⟩ := fails.mpr ⟨⟨"short", "b"⟩, by decide, by decide⟩
  obtain ⟨item, mem, failed⟩ := answers.failure e h
  obtain ⟨short, rfl⟩ := Settings.sealText_eq_error_iff.mp failed
  rw [h]
  simp only [List.mem_cons, List.not_mem_nil, or_false] at mem
  rcases mem with rfl | rfl
  · exact absurd short (by decide)
  · rfl

end PasswordSeal
