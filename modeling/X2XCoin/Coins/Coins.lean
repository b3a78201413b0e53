import Mathlib.Data.List.AList
import Mathlib.Data.List.DropRight
import X2XCoin.Consensus.Params

/-!
# Unspent outputs

`CCoins` of `coins.{h,cpp}`, the unspent outputs of one transaction, and `CoinsView`, the map of all
of them that a stack of caches over a database stands for.
-/

namespace X2XCoin

/-- The unspent outputs of a transaction and its metadata. -/
structure CCoins where
  fCoinBase : Bool := false
  fCoinStake : Bool := false
  vout : List CTxOut := []
  nHeight : ℕ := 0
  nVersion : Int32 := 0
  nTime : UInt32 := 0
  deriving DecidableEq, Repr

namespace CCoins

/-- Drop null outputs at the end of a vector. -/
def dropNulls (vout : List CTxOut) : List CTxOut := vout.rdropWhile CTxOut.isNull

/-- `Cleanup`: drop spent outputs at the end of `vout`. -/
def cleanup (c : CCoins) : CCoins := { c with vout := dropNulls c.vout }

def clearUnspendable (c : CCoins) : CCoins :=
  cleanup { c with vout := c.vout.map fun o => if o.isUnspendable then CTxOut.null else o }

def fromTx (tx : CTransaction) (nHeightIn : ℕ) : CCoins :=
  clearUnspendable
    { fCoinBase := tx.isCoinBase
      fCoinStake := tx.isCoinStake
      vout := tx.vout
      nHeight := nHeightIn
      nVersion := tx.nVersion
      nTime := tx.nTime }

/-- `IsAvailable`: output `nPos` exists and is not spent. -/
def isAvailable (c : CCoins) (nPos : ℕ) : Bool :=
  match c.vout[nPos]? with
  | some o => !o.isNull
  | none => false

/-- `IsPruned`: every output is spent. -/
def isPruned (c : CCoins) : Bool := c.vout.all CTxOut.isNull

/-- `Spend`: mark output `nPos` spent, if it is available. -/
def spend (c : CCoins) (nPos : ℕ) : CCoins :=
  if c.isAvailable nPos then cleanup { c with vout := c.vout.set nPos CTxOut.null } else c

/-- `operator==`: all pruned entries are equal. -/
def eqv (a b : CCoins) : Bool := a.isPruned && b.isPruned || a = b

end CCoins

/-- All unspent outputs and the block whose state they are. -/
structure CoinsView where
  coins : AList fun _ : Uint256 => CCoins
  hashBlock : Uint256

namespace CoinsView

/-- The view before any block. -/
def empty : CoinsView := ⟨∅, 0⟩

def accessCoins (view : CoinsView) (txid : Uint256) : Option CCoins := view.coins.lookup txid

/-- `ModifyCoins` with the modification `f`, from an empty entry when there is none. -/
def modifyCoins (view : CoinsView) (txid : Uint256) (f : CCoins → CCoins) : CoinsView :=
  { view with coins := view.coins.insert txid (f ((view.accessCoins txid).getD {})).cleanup }

/-- `ModifyNewCoins`: the same from an empty entry in every case. -/
def modifyNewCoins (view : CoinsView) (txid : Uint256) (f : CCoins → CCoins) : CoinsView :=
  { view with coins := view.coins.insert txid (f {}).cleanup }

def setBestBlock (view : CoinsView) (hashBlock : Uint256) : CoinsView :=
  { view with hashBlock := hashBlock }

/-- `GetOutputFor`: the output an input spends, `none` where the source asserts. -/
def getOutputFor (view : CoinsView) (input : CTxIn) : Option CTxOut := do
  let coins ← view.accessCoins input.prevout.hash
  let out ← coins.vout[input.prevout.n.toNat]?
  if out.isNull then none else some out

/-- `HaveInputs`: every input of a transaction other than a coinbase is available. -/
def haveInputs (view : CoinsView) (tx : CTransaction) : Bool :=
  tx.isCoinBase || tx.vin.all fun i =>
    match view.accessCoins i.prevout.hash with
    | some coins => coins.isAvailable i.prevout.n.toNat
    | none => false

/-- `GetValueIn`: the unchecked sum of the inputs. -/
def getValueIn (view : CoinsView) (tx : CTransaction) : Option CAmount :=
  if tx.isCoinBase then some 0
  else tx.vin.foldlM (fun nResult i => (view.getOutputFor i).map fun o => nResult + o.nValue) 0

end CoinsView

/-! ## Undo records and the update of the view -/

/-- `CTxInUndo`: the output an input spent and, when it was the last of its transaction, the
metadata; `nHeight = 0` stands for no metadata. -/
structure CTxInUndo where
  txout : CTxOut
  fCoinBase : Bool := false
  fCoinStake : Bool := false
  nHeight : ℕ := 0
  nVersion : Int32 := 0
  nTime : UInt32 := 0
  deriving DecidableEq, Repr

/-- `CTxUndo`: one record for every input. -/
abbrev CTxUndo := List CTxInUndo

/-- `CBlockUndo`: one `CTxUndo` for every transaction but the coinbase. -/
abbrev CBlockUndo := List CTxUndo

/-- The record `UpdateCoins` writes for an output taken from `coins`, which already lost it. -/
def CTxInUndo.ofSpent (out : CTxOut) (coins : CCoins) : CTxInUndo :=
  if coins.vout.length = 0 then
    ⟨out, coins.fCoinBase, coins.fCoinStake, coins.nHeight, coins.nVersion, coins.nTime⟩
  else { txout := out }

@[simp] theorem CTxInUndo.txout_ofSpent (out : CTxOut) (coins : CCoins) :
    (ofSpent out coins).txout = out := by
  unfold ofSpent
  split_ifs <;> rfl

/-- The body of the loop of `UpdateCoins`: spend one input and construct its undo record; `none`
where the source asserts. -/
def spendInput (view : CoinsView) (txin : CTxIn) : Option (CoinsView × CTxInUndo) := do
  let nPos := txin.prevout.n.toNat
  let coins := (view.accessCoins txin.prevout.hash).getD {}
  let out ← coins.vout[nPos]?
  if out.isNull then none
  else
    let coins := coins.spend nPos
    some (view.modifyCoins txin.prevout.hash fun _ => coins, CTxInUndo.ofSpent out coins)

/-- The loop of `UpdateCoins` over the inputs. -/
def spendInputs : CoinsView → List CTxIn → Option (CoinsView × CTxUndo)
  | view, [] => some (view, [])
  | view, txin :: vin => do
    let (view, undo) ← spendInput view txin
    let (view, vprevout) ← spendInputs view vin
    some (view, undo :: vprevout)

/-- The inputs of a transaction marked spent; a coinbase has none. -/
def spendTxInputs (view : CoinsView) (tx : CTransaction) : Option (CoinsView × CTxUndo) :=
  if tx.isCoinBase then some (view, []) else spendInputs view tx.vin

/-- `UpdateCoins`: mark the inputs spent, then add the outputs. -/
def updateCoins (crypto : Crypto) (tx : CTransaction) (view : CoinsView) (nHeight : ℕ) :
    Option (CoinsView × CTxUndo) := do
  let (view, txundo) ← spendTxInputs view tx
  some (view.modifyNewCoins (tx.getHash crypto) fun _ => CCoins.fromTx tx nHeight, txundo)

theorem updateCoins_eq_some {crypto : Crypto} {tx : CTransaction} {view view' : CoinsView}
    {nHeight : ℕ} {txundo : CTxUndo} :
    updateCoins crypto tx view nHeight = some (view', txundo) ↔
      ∃ view₁, spendTxInputs view tx = some (view₁, txundo) ∧
        view' = view₁.modifyNewCoins (tx.getHash crypto) fun _ => CCoins.fromTx tx nHeight := by
  simp only [updateCoins, Option.bind_eq_bind, Option.bind_eq_some_iff, Prod.exists,
    Option.some.injEq, Prod.mk.injEq]
  constructor
  · rintro ⟨view₁, undos, h, rfl, rfl⟩
    exact ⟨view₁, h, rfl⟩
  · rintro ⟨view₁, h, rfl⟩
    exact ⟨view₁, txundo, h, rfl, rfl⟩

end X2XCoin
