import HolbertonChain.Transaction.Hash

/-!
# Updating the unspent outputs (`update_unspent.c`)
-/

namespace HolbertonChain

/-- `find_unspent` -/
def findUnspent (hash : Digest) (unspent : UnspentTxOut) : Bool := unspent.out.hash == hash

/-- The first inner loop of `update_unspent`: for each input `llist_remove_node` takes out the first
unspent output that `find_unspent` identifies, if there is one. -/
def removeInputs (ins : List TxIn) (allUnspent : List UnspentTxOut) : List UnspentTxOut :=
  ins.foldl (fun unspent i => unspent.eraseP (findUnspent i.txOutHash)) allUnspent

/-- The second inner loop: an unspent output for each output, at the rear. -/
def addOutputs (blockHash txId : Digest) (outs : List TxOut) (allUnspent : List UnspentTxOut) :
    List UnspentTxOut :=
  outs.foldl (fun unspent o => unspent ++ [unspentTxOutCreate blockHash txId o]) allUnspent

/-- `update_unspent`; a `NULL` list of transactions leaves the list as it is. -/
def updateUnspent (transactions : Option (List Transaction)) (blockHash : Digest)
    (allUnspent : List UnspentTxOut) : List UnspentTxOut :=
  match transactions with
  | none => allUnspent
  | some ts =>
    ts.foldl (fun unspent t => addOutputs blockHash t.id t.outputs (removeInputs t.inputs unspent))
      allUnspent

end HolbertonChain
