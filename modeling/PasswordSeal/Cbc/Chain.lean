/-
# Chaining of blocks

Each block is combined with the encrypted block before it and then encrypted; a further block
stands before the first.  Nothing here depends on the cipher: `chain` takes any map of blocks,
and `unchain` undoes it with the reverse of that map (`unchain_chain`, `chain_unchain`).  A block
is not seen in those before it (`take_chain`), and it sees of them only the last one
(`chain_append`).
-/
import PasswordSeal.Block

namespace PasswordSeal
namespace Cbc

/-- Encrypts a list of blocks behind the block `before`. -/
def chain (encrypt : Block → Block) : (before : Block) → List Block → List Block
  | _, [] => []
  | before, p :: ps =>
    let c := encrypt (p ^^^ before)
    c :: chain encrypt c ps

/-- Decrypts a list of blocks behind the block `before`. -/
def unchain (decrypt : Block → Block) : (before : Block) → List Block → List Block
  | _, [] => []
  | before, c :: cs => (decrypt c ^^^ before) :: unchain decrypt c cs

@[simp] theorem length_chain (e : Block → Block) (before : Block) (ps : List Block) :
    (chain e before ps).length = ps.length := by
  induction ps generalizing before with
  | nil => rfl
  | cons p ps ih => simp [chain, ih]

@[simp] theorem length_unchain (d : Block → Block) (before : Block) (cs : List Block) :
    (unchain d before cs).length = cs.length := by
  induction cs generalizing before with
  | nil => rfl
  | cons c cs ih => simp [unchain, ih]

theorem unchain_chain {e d : Block → Block} (h : ∀ b, d (e b) = b) (before : Block)
    (ps : List Block) : unchain d before (chain e before ps) = ps := by
  induction ps generalizing before with
  | nil => rfl
  | cons p ps ih => simp [chain, unchain, h, ih]

theorem chain_unchain {e d : Block → Block} (h : ∀ b, e (d b) = b) (before : Block)
    (cs : List Block) : chain e before (unchain d before cs) = cs := by
  induction cs generalizing before with
  | nil => rfl
  | cons c cs ih => simp [chain, unchain, h, ih]

/-- The beginning of a chain is the chain of the beginning. -/
theorem take_chain (e : Block → Block) (before : Block) (ps : List Block) (j : Nat) :
    (chain e before ps).take j = chain e before (ps.take j) := by
  induction ps generalizing before j with
  | nil => simp [chain]
  | cons p ps ih =>
    cases j with
    | zero => rfl
    | succ j => rw [chain, List.take_succ_cons, ih, List.take_succ_cons, chain]

/-- A chain goes on behind its last block. -/
theorem chain_append (e : Block → Block) (before : Block) (ps qs : List Block) :
    chain e before (ps ++ qs) =
      chain e before ps ++ chain e ((chain e before ps).getLastD before) qs := by
  induction ps generalizing before with
  | nil => rfl
  | cons p ps ih => rw [List.cons_append, chain, ih, chain, List.cons_append, List.getLastD_cons]

/-- A chain can be undone, so it is the chain of one list of blocks only. -/
theorem chain_inj {e d : Block → Block} (h : ∀ b, d (e b) = b) {before : Block}
    {ps qs : List Block} : chain e before ps = chain e before qs ↔ ps = qs := by
  constructor
  · intro same
    rw [← unchain_chain h before ps, same, unchain_chain h]
  · rintro rfl
    rfl

end Cbc
end PasswordSeal
