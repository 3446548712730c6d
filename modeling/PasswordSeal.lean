import PasswordSeal.Aes.Cipher
import PasswordSeal.Aes.Column
import PasswordSeal.Aes.Round
import PasswordSeal.Aes.Schedule
import PasswordSeal.Aes.Substitution
import PasswordSeal.Base64.Alphabet
import PasswordSeal.Base64.Basic
import PasswordSeal.Base64.Layout
import PasswordSeal.Batch
import PasswordSeal.Block
import PasswordSeal.Bytes.Basic
import PasswordSeal.Bytes.Buffer
import PasswordSeal.Cbc.Basic
import PasswordSeal.Cbc.Chain
import PasswordSeal.Cbc.Padding
import PasswordSeal.Cbc.Progress
import PasswordSeal.Event
import PasswordSeal.Failure
import PasswordSeal.Hmac
import PasswordSeal.Logged
import PasswordSeal.Message
import PasswordSeal.MessageKey
import PasswordSeal.Pbkdf2
import PasswordSeal.Proofs.Aes.Agreement
import PasswordSeal.Proofs.Aes.Textbook
import PasswordSeal.Proofs.Base64.Canonical
import PasswordSeal.Proofs.Base64.Diagnosis
import PasswordSeal.Proofs.Base64.Lines
import PasswordSeal.Proofs.Base64.RoundTrip
import PasswordSeal.Proofs.Base64.Shape
import PasswordSeal.Proofs.Base64.Text
import PasswordSeal.Proofs.Bytes.ExclusiveOr
import PasswordSeal.Proofs.Cbc.Cutting
import PasswordSeal.Proofs.Cbc.Prefix
import PasswordSeal.Proofs.Cbc.Tampering
import PasswordSeal.Proofs.Cbc.Textbook
import PasswordSeal.Proofs.Cbc.Verdict
import PasswordSeal.Proofs.Hmac.Textbook
import PasswordSeal.Proofs.Message.Batch
import PasswordSeal.Proofs.Message.Blanks
import PasswordSeal.Proofs.Message.Disclosure
import PasswordSeal.Proofs.Message.Failures
import PasswordSeal.Proofs.Message.Log
import PasswordSeal.Proofs.Message.Passwords
import PasswordSeal.Proofs.Message.Payload
import PasswordSeal.Proofs.Message.Repetition
import PasswordSeal.Proofs.Message.RoundTrip
import PasswordSeal.Proofs.Message.Stages
import PasswordSeal.Proofs.Outcome
import PasswordSeal.Proofs.Pbkdf2.Textbook
import PasswordSeal.Proofs.Script.Lineage
import PasswordSeal.Proofs.Script.Log
import PasswordSeal.Proofs.Script.Run
import PasswordSeal.Proofs.Sha1.Agreement
import PasswordSeal.Proofs.Sha1.Textbook
import PasswordSeal.Proofs.Utf8.Character
import PasswordSeal.Proofs.Utf8.Fault
import PasswordSeal.Proofs.Utf8.Text
import PasswordSeal.Script
import PasswordSeal.Settings
import PasswordSeal.Sha1
import PasswordSeal.Utf8
