/-
# Many messages at once

A batch holds identifiers with a text each, under one password.  The results stand in the order
of the batch, and an item that fails is a failure of the batch.

Items have nothing to do with each other, so they may well be worked on at the same time.  When
several of them fail, the failure of any of them would do; here it is that of the first.  A batch
is an outcome only: the events that its items leave behind have no order among each other, and
none are kept.
-/
import PasswordSeal.Message

namespace PasswordSeal

/-- A text under an identifier. -/
structure Item where
  identifier : String
  text : String
  deriving DecidableEq, Repr

/-- Seals every text of a batch, up to the first that cannot be sealed. -/
def sealAll (items : List Item) (password : String) : Except Failure (List String) :=
  items.mapM fun item => (sealText ⟨item.identifier, password⟩ item.text).outcome

/-- Unseals every text of a batch, up to the first that cannot be unsealed. -/
def unsealAll (items : List Item) (password : String) : Except Failure (List String) :=
  items.mapM fun item => (unsealText ⟨item.identifier, password⟩ item.text).outcome

end PasswordSeal
