/-
# What a decrypted payload is read as

A payload that the cipher gives back under the right padding need not be text.  `unsealText_payload`
says what unsealing answers for it, by the texts there are and the bytes that write them
(`ReadAs`): the text that the payload writes, or else the whole payload, with how much of it is text
and what is wrong behind.  Where the payload came from does not matter, so the same holds when some
bytes are read by themselves.
-/
import PasswordSeal.Proofs.Base64.Text
import PasswordSeal.Proofs.Message.Log
import PasswordSeal.Proofs.Utf8.Fault

namespace PasswordSeal

open Outcome

/-- **What is answered for some bytes.** -/
structure ReadAs (bytes : List UInt8) (answer : Except Failure String) : Prop where
  ok : ∀ s, answer = .ok s ↔ bytes = Utf8.encode s
  /-- There is no other text. -/
  unique : ∀ s t, bytes = Utf8.encode s → bytes = Utf8.encode t → s = t
  /-- Bytes that are no text are handed out whole, with their fault. -/
  notText : (∀ s, bytes ≠ Utf8.encode s) →
    ∃ fault, answer = .error (.notText bytes fault) ∧ fault.Locates bytes
  /-- And that is all that can be answered. -/
  error : ∀ e, answer = .error e ↔
    ∃ fault : Utf8.Fault, fault.Locates bytes ∧ .notText bytes fault = e

theorem readAs_readText (bytes : List UInt8) : ReadAs bytes (readText bytes) where
  ok s := by rw [readText, mapError_eq_ok_iff, Utf8.decode_eq_ok_iff]
  unique s t hs ht := Utf8.encode_inj.mp (hs.symm.trans ht)
  notText noText := by
    cases h : Utf8.decode bytes with
    | ok s => exact absurd (Utf8.decode_eq_ok_iff.mp h) (noText s)
    | error fault =>
      rw [readText, h]
      exact ⟨fault, rfl, Utf8.decode_eq_error_iff.mp h⟩
  error e := by simp only [readText, mapError_eq_error_iff, Utf8.decode_eq_error_iff]

/-- **A payload is answered with the text that it writes,** or with its fault.  `readText` answers
so for all bytes. -/
theorem unsealText_payload (s : Settings) (c : Credentials) (text : String) (iv : Block)
    (ciphertext payload : List UInt8) (hiv : initialBlock c.identifier = .ok iv)
    (hdecode : Base64.decode text = .ok ciphertext)
    (hdecrypt : Cbc.decrypt (s.key c) iv ciphertext = .ok payload) :
    ReadAs payload (s.unsealText c text).outcome ∧ ∀ bytes, ReadAs bytes (readText bytes) := by
  refine ⟨?_, readAs_readText⟩
  rw [Settings.unsealText_of_decrypt_ok hiv hdecode hdecrypt, Logged.outcome_reporting]
  exact readAs_readText payload

/-- A letter with two bytes of a longer character behind it is sealed like any payload, and refused
when it is unsealed: the letter is text, and the rest could be mended. -/
theorem unsealText_payload_cut_short :
    let c : Credentials := ⟨"0123456789ABCDEF", "correct-password"⟩
    let payload : List UInt8 := [0x61, 0xE2, 0x82]
    ∃ iv ciphertext text,
      (initialBlock c.identifier = .ok iv ∧ Base64.decode text = .ok ciphertext ∧
        Cbc.decrypt (Settings.standard.key c) iv ciphertext = .ok payload) ∧
      (Settings.standard.unsealText c text).outcome = .error (.notText payload ⟨1, none⟩) := by
  intro c payload
  have long : 16 ≤ (Utf8.encode c.identifier).length := by decide
  obtain ⟨iv, hfront⟩ := exists_initialBlock_iff.mpr long
  have hiv := initialBlock_eq_ok_iff.mpr hfront
  let ciphertext := Cbc.encrypt (Settings.standard.key c) iv payload
  have hdecrypt := Cbc.decrypt_encrypt (Settings.standard.key c) iv payload
  let text := Base64.Layout.singleLine.encode ciphertext
  have hdecode : Base64.decode text = .ok ciphertext :=
    Base64.decode_eq_ok_iff.mpr (Base64.significant_encode .singleLine ciphertext)
  have read := (unsealText_payload Settings.standard c text iv ciphertext payload hiv hdecode
    hdecrypt).1
  have fault : Utf8.decode payload = .error ⟨1, none⟩ := by
    rw [Utf8.decode, Utf8.decodeFrom_of_character (c := 'a') rfl, Utf8.decodeFrom_of_incomplete rfl]
    rfl
  have answer := (read.error _).mpr ⟨_, Utf8.decode_eq_error_iff.mp fault, rfl⟩
  exact ⟨iv, ciphertext, text, ⟨hiv, hdecode, hdecrypt⟩, answer⟩

end PasswordSeal
