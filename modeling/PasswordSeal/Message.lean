/-
# Sealing and unsealing messages

A text is sealed by encrypting its UTF-8 bytes under a key that the credentials give, and
writing the result as Base64.  It is unsealed by undoing this.  The same credentials, settings
and text always give the same sealed text, and nothing in it tells a wrong password from a
damaged message.

The steps fail in a fixed order.  Unsealing looks at the identifier first, then at the sealed
text, and derives a key only when both will do.
-/
import PasswordSeal.MessageKey
import PasswordSeal.Settings

namespace PasswordSeal

namespace Settings

/-- Seals a text. -/
def sealText (s : Settings) (c : Credentials) (plaintext : String) : Logged String :=
  .reporting .sealingFailed do
    let iv ← .ofExcept (initialBlock c.identifier)
    let key ← messageKey c s.iterations
    let payload := Utf8.encode plaintext
    let ciphertext := Cbc.encrypt key iv payload
    .emit (.sealed payload.length ciphertext.length)
    return s.layout.encode ciphertext

/-- Unseals a text that was sealed with the same credentials and as many iterations, in any
layout. -/
def unsealText (s : Settings) (c : Credentials) (text : String) : Logged String :=
  .reporting .unsealingFailed do
    let iv ← .ofExcept (initialBlock c.identifier)
    let ciphertext ← .ofExcept ((Base64.decode text).mapError .encoding)
    let key ← messageKey c s.iterations
    let payload ← .ofExcept ((Cbc.decrypt key iv ciphertext).mapError .cipher)
    .emit (.unsealed ciphertext.length payload.length)
    .ofExcept (readText payload)

end Settings

/-- Seals a text with the standard settings. -/
def sealText (c : Credentials) (plaintext : String) : Logged String :=
  Settings.standard.sealText c plaintext

/-- Unseals a text with the standard settings. -/
def unsealText (c : Credentials) (text : String) : Logged String :=
  Settings.standard.unsealText c text

end PasswordSeal
