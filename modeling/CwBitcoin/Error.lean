import CwBitcoin.Library.Outcome

/-!
# Errors of the contract

An error raised inside a third-party crate carries that crate's message.
-/

namespace CwBitcoin

inductive ContractError where
  | std (message : String)
  | verify (message : String)
  | bitcoin (message : String)
  | parseOutPoint (message : String)
  | bitcoinFee (fee : Nat)
  | bip32 (message : String)
  | checkpoint (message : String)
  | app (message : String)
  | secp (message : String)
  | bitcoinMerkleBlockError
  | header (message : String)
  | inputIndexOutOfBounds (index : Nat)
  | signer (message : String)
  deriving DecidableEq, Repr

/-- The displayed text of an error. -/
def ContractError.toString : ContractError → String
  | .std message | .verify message | .bitcoin message | .parseOutPoint message | .bip32 message
  | .checkpoint message | .secp message | .header message | .signer message => message
  | .bitcoinFee fee => "Unable to deduct fee: " ++ fee.repr
  | .app message => "App Error: " ++ message
  | .bitcoinMerkleBlockError => "Could not verify merkle proof"
  | .inputIndexOutOfBounds index => "Input index: " ++ index.repr ++ " out of bounds"

abbrev ContractResult (α : Type) := Outcome ContractError α

end CwBitcoin
