import X2XCoin.Validation.Conservation
import X2XCoin.Wallet.Spends

/-!
# Creating a coinstake

`CWallet::CreateCoinStake` with `AvailableCoinsForStaking`, `SelectCoinsForStaking`, `CheckKernel`
and `CacheKernel`.  A pointer to a wallet transaction is its hash.  The balance, the keys, the
signatures and the order in which a `std::set` holds pointers are arbitrary (`StakeEnv`).
-/

open ByteCodec

namespace X2XCoin

def CScript.push (vch : Bytes) : CScript :=
  if vch.length < 0x4c then UInt8.ofNat vch.length :: vch
  else if vch.length ≤ 0xff then OP_PUSHDATA1 :: leBytes 1 vch.length ++ vch
  else if vch.length ≤ 0xffff then OP_PUSHDATA2 :: leBytes 2 vch.length ++ vch
  else OP_PUSHDATA4 :: leBytes 4 vch.length ++ vch

namespace Wallet

def CWalletTx.getBlocksToMaturity (p : Params) (node : NodeView) (wtx : CWalletTx) : ℤ :=
  if !(wtx.tx.isCoinBase || wtx.tx.isCoinStake) then 0
  else max 0 (p.nCoinbaseMaturity + 1 - wtx.getDepthInMainChain node)

/-- An output of a wallet transaction. -/
structure StakeCoin where
  hash : Uint256
  tx : CTransaction
  i : ℕ
  /-- `tx->vout[i]`. -/
  txout : CTxOut
  deriving DecidableEq

namespace StakeCoin

def outpoint (coin : StakeCoin) : COutPoint := ⟨coin.hash, UInt32.ofNat coin.i⟩

def nValue (coin : StakeCoin) : CAmount := coin.txout.nValue

def txin (coin : StakeCoin) : CTxIn := ⟨coin.outpoint, [], 0xffffffff⟩

end StakeCoin

/-- The keys a wallet holds, by the hash of their public keys. -/
structure KeyStore where
  getKey : Bytes → Option Bytes
  getPubKey : Bytes → Bytes
  hash160 : Bytes → Bytes

structure StakeEnv where
  crypto : Crypto
  p : Params
  node : NodeView
  /-- `IsMine(txout) != ISMINE_NO`. -/
  isMine : CScript → Bool
  isLockedCoin : COutPoint → Bool
  keystore : KeyStore
  /-- A transaction and the hash of its block. -/
  getTransaction : Uint256 → Option (CTransaction × Uint256)
  /-- The heights of the blocks in `mapBlockIndex`. -/
  blockHeight : Uint256 → Option ℤ
  pindexPrev : CBlockIndex
  /-- Whether `pindexBestHeader` is still `pindexPrev` when a coin is tried. -/
  sameBestHeader : StakeCoin → ℕ → Bool
  nBalance : CAmount
  nReserveBalance : CAmount
  fStakeCache : Bool
  order : List StakeCoin → List StakeCoin
  order_perm : ∀ coins, (order coins).Perm coins
  /-- The script that signs an input of a transaction for the output it spends. -/
  signSignature : CTransaction → ℕ → CTxOut → Option CScript

/-- The transactions of `stakeCache`. -/
abbrev StakeCache := AList fun _ : COutPoint => CTransaction

def stakeCombineThreshold : CAmount := 500 * COIN

def stakeSplitThreshold : CAmount := 2 * stakeCombineThreshold

def MAX_STANDARD_TX_SIZE : ℕ := 100000

variable (env : StakeEnv)

/-! ## Selecting coins -/

/-- The transactions of the wallet in the order of `mapWallet`. -/
def walletEntries (w : CWallet) : List (Sigma fun _ : Uint256 => CWalletTx) :=
  w.mapWallet.entries.insertionSort fun a b => Uint256.compareKey a.1 ≤ Uint256.compareKey b.1

/-- The outputs of one transaction that are available. -/
def availableOutputs (w : CWallet) (wtxid : Uint256) (wtx : CWalletTx) : List StakeCoin :=
  (wtx.tx.vout.zipIdx.map fun (txout, i) => StakeCoin.mk wtxid wtx.tx i txout).filter fun coin =>
    !w.isSpent env.node coin.outpoint && env.isMine coin.txout.scriptPubKey &&
      !env.isLockedCoin coin.outpoint && 0 < coin.nValue

/-- The coins of one transaction, if it is deep enough. -/
def availableFrom (w : CWallet) (entry : Sigma fun _ : Uint256 => CWalletTx) : List StakeCoin :=
  let nDepth := entry.2.getDepthInMainChain env.node
  if nDepth < 1 then []
  else if nDepth < env.p.nCoinbaseMaturity then []
  else if 0 < entry.2.getBlocksToMaturity env.p env.node then []
  else availableOutputs env w entry.1 entry.2

def availableCoinsForStaking (w : CWallet) : List StakeCoin :=
  (walletEntries w).flatMap (availableFrom env w)

/-- The loop of `SelectCoinsForStaking`, with the value selected so far. -/
def selectCoinsForStaking (nTargetValue : CAmount) : List StakeCoin → CAmount → List StakeCoin
  | [], _ => []
  | coin :: vCoins, nValueRet =>
    if nTargetValue ≤ nValueRet then []
    else if nTargetValue ≤ coin.nValue then [coin]
    else if coin.nValue < nTargetValue + CENT then
      coin :: selectCoinsForStaking nTargetValue vCoins (nValueRet + coin.nValue)
    else selectCoinsForStaking nTargetValue vCoins nValueRet

/-- The selected coins in the order of the set. -/
def stakingCoins (w : CWallet) : List StakeCoin :=
  env.order (selectCoinsForStaking (env.nBalance - env.nReserveBalance)
    (availableCoinsForStaking env w) 0)

/-! ## The kernel -/

/-- The transaction of an output, if it is mature in a known block. -/
def findStakeTx (prevout : COutPoint) : Option CTransaction :=
  match env.getTransaction prevout.hash with
  | none => none
  | some (txPrev, hashBlock) =>
    match env.blockHeight hashBlock with
    | none => none
    | some nHeight =>
      if env.pindexPrev.nHeight + 1 - nHeight < env.p.nCoinbaseMaturity then none else some txPrev

def cacheKernel (cache : StakeCache) (prevout : COutPoint) : StakeCache :=
  match cache.lookup prevout with
  | some _ => cache
  | none =>
    match findStakeTx env prevout with
    | none => cache
    | some txPrev => cache.insert prevout txPrev

/-- The cache is cleared if it is too large, and filled with the selected coins. -/
def fillStakeCache (setCoins : List StakeCoin) (cache : StakeCache) : StakeCache :=
  let cache := if setCoins.length + 100 < cache.entries.length then ∅ else cache
  if env.fStakeCache then
    setCoins.foldl (fun cache coin => cacheKernel env cache coin.outpoint) cache
  else cache

/-- The transaction that `CheckKernel` looks at. -/
def kernelTx (cache : StakeCache) (prevout : COutPoint) : Option CTransaction :=
  match cache.lookup prevout with
  | some txPrev => some txPrev
  | none => findStakeTx env prevout

def checkKernel (cache : StakeCache) (nBits nTime : UInt32) (prevout : COutPoint) : Check Bool :=
  match kernelTx env cache prevout with
  | none => pure false
  | some txPrev => checkStakeKernelHash env.crypto env.pindexPrev nBits
      (CCoins.fromTx txPrev env.pindexPrev.nHeight) prevout nTime

/-- The key of a kernel and the script that the coinstake pays. -/
def kernelKey (keystore : KeyStore) (scriptPubKeyKernel : CScript) : Option (Bytes × CScript) :=
  match solver scriptPubKeyKernel with
  | some (.pubkeyhash, hash :: _) =>
    match keystore.getKey hash with
    | none => none
    | some key => some (key, CScript.push (keystore.getPubKey key) ++ [OP_CHECKSIG])
  | some (.pubkey, vchPubKey :: _) =>
    match keystore.getKey (keystore.hash160 vchPubKey) with
    | none => none
    | some key =>
      if keystore.getPubKey key ≠ vchPubKey then none else some (key, scriptPubKeyKernel)
  | _ => none

structure Kernel where
  coin : StakeCoin
  n : ℕ
  key : Bytes
  scriptPubKeyOut : CScript

/-- The loop over the times of one coin: it ends with the first kernel, also if its key is not
there. -/
def searchTimes (cache : StakeCache) (nBits nTime : UInt32) (coin : StakeCoin) :
    List ℕ → Check (Option Kernel)
  | [] => pure none
  | n :: ns =>
    if !env.sameBestHeader coin n then pure none
    else do
      if ← checkKernel env cache nBits (nTime - UInt32.ofNat n) coin.outpoint then
        pure ((kernelKey env.keystore coin.txout.scriptPubKey).map fun (key, scriptPubKeyOut) =>
          ⟨coin, n, key, scriptPubKeyOut⟩)
      else searchTimes cache nBits nTime coin ns

def searchKernel (cache : StakeCache) (nBits nTime : UInt32) (nSearchInterval : ℤ) :
    List StakeCoin → Check (Option Kernel)
  | [] => pure none
  | coin :: setCoins => do
    match ← searchTimes env cache nBits nTime coin (List.range (min nSearchInterval 60).toNat) with
    | some kernel => pure (some kernel)
    | none => searchKernel cache nBits nTime nSearchInterval setCoins

/-! ## The transaction -/

/-- More inputs are added to the kernel, with the credit so far. -/
def mergeCoins (nLimit : CAmount) (kernel : Kernel) :
    List StakeCoin → List StakeCoin → CAmount → List StakeCoin × CAmount
  | [], inputs, nCredit => (inputs, nCredit)
  | coin :: setCoins, inputs, nCredit =>
    if (coin.txout.scriptPubKey = kernel.coin.txout.scriptPubKey ∨
        coin.txout.scriptPubKey = kernel.scriptPubKeyOut) ∧ coin.hash ≠ kernel.coin.hash then
      if 10 ≤ inputs.length then (inputs, nCredit)
      else if nLimit < nCredit + coin.nValue then (inputs, nCredit)
      else if stakeCombineThreshold ≤ coin.nValue then
        mergeCoins nLimit kernel setCoins inputs nCredit
      else mergeCoins nLimit kernel setCoins (inputs ++ [coin]) (nCredit + coin.nValue)
    else mergeCoins nLimit kernel setCoins inputs nCredit

/-- The outputs after the marker. -/
def stakeOutputs (scriptPubKey : CScript) (nCredit : CAmount) : List CTxOut :=
  if stakeSplitThreshold ≤ nCredit then
    let half := nCredit / 2 / CENT * CENT
    [⟨half, scriptPubKey⟩, ⟨nCredit - half, scriptPubKey⟩]
  else [⟨nCredit, scriptPubKey⟩]

def signInputs : List StakeCoin → ℕ → CTransaction → Option CTransaction
  | [], _, txNew => some txNew
  | coin :: vwtxPrev, nIn, txNew =>
    match env.signSignature txNew nIn coin.txout with
    | none => none
    | some scriptSig => signInputs vwtxPrev (nIn + 1)
        { txNew with vin := txNew.vin.modify nIn fun txin => { txin with scriptSig := scriptSig } }

/-- `CreateCoinStake` after the search for a kernel. -/
def finishCoinStake (nFees : CAmount) (tx : CTransaction) (setCoins : List StakeCoin)
    (kernel : Kernel) : Option (CTransaction × Bytes) :=
  let nLimit := env.nBalance - env.nReserveBalance
  if kernel.coin.nValue = 0 ∨ nLimit < kernel.coin.nValue then none
  else
    let merged := mergeCoins nLimit kernel setCoins [kernel.coin] kernel.coin.nValue
    let nReward := nFees + getProofOfStakeSubsidy env.node.height
    if nReward < 0 then none
    else
      let txNew := { tx with
        nTime := tx.nTime - UInt32.ofNat kernel.n
        vin := merged.1.map StakeCoin.txin
        vout := ⟨0, []⟩ :: stakeOutputs kernel.scriptPubKeyOut (merged.2 + nReward) }
      match signInputs env merged.1 0 txNew with
      | none => none
      | some txNew =>
        if MAX_STANDARD_TX_SIZE ≤ txNew.serialize.length then none else some (txNew, kernel.key)

/-- The cache that is left, and the coinstake with its key if the function returns true. -/
def createCoinStake (w : CWallet) (stakeCache : StakeCache) (nBits : UInt32) (nSearchInterval : ℤ)
    (nFees : CAmount) (tx : CTransaction) : Check (StakeCache × Option (CTransaction × Bytes)) :=
  if env.nBalance ≤ env.nReserveBalance then pure (stakeCache, none)
  else
    let setCoins := stakingCoins env w
    if setCoins.isEmpty then pure (stakeCache, none)
    else do
      let stakeCache := fillStakeCache env setCoins stakeCache
      match ← searchKernel env stakeCache nBits tx.nTime nSearchInterval setCoins with
      | none => pure (stakeCache, none)
      | some kernel => pure (stakeCache, finishCoinStake env nFees tx setCoins kernel)

/-! ## The selected coins are different and positive -/

section

variable {env} {w : CWallet}

variable {kernel : Kernel} {coin : StakeCoin} {nCredit : CAmount} {cache : StakeCache}
  {nBits nTime : UInt32} {nSearchInterval : ℤ} {nLimit : CAmount}

theorem mem_availableOutputs {wtxid : Uint256} {wtx : CWalletTx}
    (h : coin ∈ availableOutputs env w wtxid wtx) :
    coin.hash = wtxid ∧ coin.i < wtx.tx.vout.length ∧ 0 < coin.nValue := by
  obtain ⟨hmem, hcond⟩ := List.mem_filter.mp h
  obtain ⟨⟨txout, i⟩, hzip, rfl⟩ := List.mem_map.mp hmem
  rw [Bool.and_eq_true, decide_eq_true_eq] at hcond
  exact ⟨rfl, (List.mem_zipIdx' hzip).1, hcond.2⟩

/-- No transaction of the wallet has as many outputs as an index of 32 bits can tell apart. -/
def Indexable (w : CWallet) : Prop :=
  ∀ entry ∈ w.mapWallet.entries, entry.2.tx.vout.length < 2 ^ 32 - 1

instance (w : CWallet) : Decidable (Indexable w) :=
  inferInstanceAs (Decidable (∀ entry ∈ w.mapWallet.entries, _))

theorem nodup_walletEntries (w : CWallet) :
    (walletEntries w).Pairwise fun a b => a.1 ≠ b.1 := by
  have hkeys : (w.mapWallet.entries.map Sigma.fst).Nodup := w.mapWallet.nodupKeys
  have hperm := (List.perm_insertionSort
    (fun a b => Uint256.compareKey a.1 ≤ Uint256.compareKey b.1) w.mapWallet.entries).map Sigma.fst
  exact List.pairwise_map.mp (hperm.nodup_iff.mpr hkeys)

theorem toNat_index {i : ℕ} (h : i < 2 ^ 32 - 1) : (UInt32.ofNat i).toNat = i :=
  UInt32.toNat_ofNat_of_lt' (h.trans (by decide))

theorem nodup_availableOutputs {wtxid : Uint256} {wtx : CWalletTx}
    (h : wtx.tx.vout.length < 2 ^ 32 - 1) :
    ((availableOutputs env w wtxid wtx).map StakeCoin.outpoint).Nodup := by
  refine List.Nodup.sublist (List.filter_sublist.map _) ?_
  have hindex : (wtx.tx.vout.zipIdx.map fun (txout, i) => StakeCoin.mk wtxid wtx.tx i txout).map
      StakeCoin.outpoint =
      (List.range' 0 wtx.tx.vout.length).map fun i => ⟨wtxid, UInt32.ofNat i⟩ := by
    rw [← List.zipIdx_map_snd 0 wtx.tx.vout, List.map_map, List.map_map]
    rfl
  rw [hindex]
  refine List.Nodup.map_on (fun i hi j hj hij => ?_) List.nodup_range'
  have hn := congrArg UInt32.toNat (COutPoint.mk.inj hij).2
  rw [List.mem_range'_1] at hi hj
  rwa [toNat_index (by omega), toNat_index (by omega)] at hn

theorem availableFrom_sublist (entry : Sigma fun _ : Uint256 => CWalletTx) :
    (availableFrom env w entry).Sublist (availableOutputs env w entry.1 entry.2) := by
  unfold availableFrom
  simp only
  split_ifs
  · exact List.nil_sublist _
  · exact List.nil_sublist _
  · exact List.nil_sublist _
  · exact List.Sublist.refl _

/-- The coins of all transactions are different if those of each are and name their transaction. -/
theorem nodup_flatMap_walletEntries {α β : Type} {f : (Sigma fun _ : Uint256 => CWalletTx) → List α}
    {g : α → β} (hashOf : β → Uint256)
    (hnodup : ∀ entry ∈ w.mapWallet.entries, ((f entry).map g).Nodup)
    (hhash : ∀ entry, ∀ a ∈ f entry, hashOf (g a) = entry.1) :
    (((walletEntries w).flatMap f).map g).Nodup := by
  rw [List.map_flatMap, List.nodup_flatMap]
  refine ⟨fun entry hentry => hnodup entry ((List.mem_insertionSort _).mp hentry), ?_⟩
  refine (nodup_walletEntries w).imp fun {x y} hxy => ?_
  rw [Function.onFun, List.disjoint_left]
  intro b hx hy
  obtain ⟨a, ha, rfl⟩ := List.mem_map.mp hx
  obtain ⟨a', ha', heq⟩ := List.mem_map.mp hy
  exact hxy (by rw [← hhash x a ha, ← hhash y a' ha', heq])

theorem nodup_availableCoinsForStaking (hw : Indexable w) :
    ((availableCoinsForStaking env w).map StakeCoin.outpoint).Nodup := by
  refine nodup_flatMap_walletEntries COutPoint.hash (fun entry hentry => ?_) fun entry coin hc => ?_
  · exact (nodup_availableOutputs (hw entry hentry)).sublist ((availableFrom_sublist entry).map _)
  · exact (mem_availableOutputs ((availableFrom_sublist entry).subset hc)).1

theorem selectCoinsForStaking_sublist (nTargetValue : CAmount) (vCoins : List StakeCoin)
    (nValueRet : CAmount) :
    (selectCoinsForStaking nTargetValue vCoins nValueRet).Sublist vCoins := by
  induction vCoins generalizing nValueRet with
  | nil => exact .slnil
  | cons coin vCoins ih =>
    rw [selectCoinsForStaking]
    split_ifs
    · exact List.nil_sublist _
    · exact (List.nil_sublist _).cons_cons _
    · exact (ih _).cons_cons _
    · exact (ih _).cons _

theorem nodup_stakingCoins (hw : Indexable w) :
    ((stakingCoins env w).map StakeCoin.outpoint).Nodup :=
  ((env.order_perm _).map _).nodup_iff.mpr
    ((nodup_availableCoinsForStaking hw).sublist ((selectCoinsForStaking_sublist _ _ _).map _))

/-- A selected coin is worth something and has an index of 32 bits. -/
theorem mem_stakingCoins (hw : Indexable w) (h : coin ∈ stakingCoins env w) :
    0 < coin.nValue.toInt ∧ coin.outpoint.isNull = false := by
  have hmem := (selectCoinsForStaking_sublist _ _ _).subset ((env.order_perm _).mem_iff.mp h)
  obtain ⟨entry, hentry, hcoin⟩ := List.mem_flatMap.mp hmem
  obtain ⟨-, hi, hpos⟩ := mem_availableOutputs ((availableFrom_sublist entry).subset hcoin)
  have hlen := hw _ ((List.mem_insertionSort _).mp hentry)
  refine ⟨Int64.lt_iff_toInt_lt.mp hpos, ?_⟩
  have hn : UInt32.ofNat coin.i ≠ 0xffffffff := by
    intro heq
    have hnat := congrArg UInt32.toNat heq
    rw [toNat_index (by omega)] at hnat
    have hmax : (0xffffffff : UInt32).toNat = 2 ^ 32 - 1 := by decide
    omega
  simp [COutPoint.isNull, StakeCoin.outpoint, hn]

/-! ## The kernel is one of the coins -/

/-- The key is that of a script: of its public key, or of the hash of one. -/
def KeyOf (keystore : KeyStore) (scriptPubKey : CScript) (key : Bytes) : Prop :=
  (∃ hash rest, solver scriptPubKey = some (.pubkeyhash, hash :: rest) ∧
    keystore.getKey hash = some key) ∨
  ∃ rest, solver scriptPubKey = some (.pubkey, keystore.getPubKey key :: rest) ∧
    keystore.getKey (keystore.hash160 (keystore.getPubKey key)) = some key

/-- The script pays a public key of the key. -/
def PaysKey (keystore : KeyStore) (key : Bytes) (scriptPubKey : CScript) : Prop :=
  scriptPubKey = CScript.push (keystore.getPubKey key) ++ [OP_CHECKSIG] ∨
  ∃ rest, solver scriptPubKey = some (.pubkey, keystore.getPubKey key :: rest)

theorem kernelKey_spec {keystore : KeyStore} {scriptPubKey scriptPubKeyOut : CScript} {key : Bytes}
    (h : kernelKey keystore scriptPubKey = some (key, scriptPubKeyOut)) :
    KeyOf keystore scriptPubKey key ∧ PaysKey keystore key scriptPubKeyOut := by
  unfold kernelKey at h
  split at h
  · rename_i hash rest hsolver
    split at h
    · cases h
    · rename_i key' hkey
      obtain ⟨rfl, rfl⟩ := Prod.mk.inj (Option.some.inj h)
      exact ⟨.inl ⟨hash, rest, hsolver, hkey⟩, .inl rfl⟩
  · rename_i vchPubKey rest hsolver
    split at h
    · cases h
    · rename_i key' hkey
      split_ifs at h with hpub
      obtain ⟨rfl, rfl⟩ := Prod.mk.inj (Option.some.inj h)
      rw [ne_eq, not_not] at hpub
      subst hpub
      exact ⟨.inr ⟨rest, hsolver, hkey⟩, .inr ⟨rest, hsolver⟩⟩
  · cases h

/-- What the search finds. -/
structure Kernel.Found (env : StakeEnv) (cache : StakeCache) (nBits nTime : UInt32)
    (nSearchInterval : ℤ) (kernel : Kernel) : Prop where
  inTime : (kernel.n : ℤ) < min nSearchInterval 60
  check : checkKernel env cache nBits (nTime - UInt32.ofNat kernel.n) kernel.coin.outpoint =
    .ok true
  key : kernelKey env.keystore kernel.coin.txout.scriptPubKey =
    some (kernel.key, kernel.scriptPubKeyOut)

theorem searchTimes_spec {ns : List ℕ} (hns : ∀ n ∈ ns, (n : ℤ) < min nSearchInterval 60)
    (h : searchTimes env cache nBits nTime coin ns = .ok (some kernel)) :
    kernel.coin = coin ∧ kernel.Found env cache nBits nTime nSearchInterval := by
  induction ns with
  | nil => cases h
  | cons n ns ih =>
    rw [searchTimes] at h
    split_ifs at h
    · cases h
    · obtain ⟨found, hcheck, h⟩ := check_bind_eq_ok.mp h
      cases found with
      | false => exact ih (fun n hn => hns n (List.mem_cons_of_mem _ hn)) h
      | true =>
        obtain ⟨⟨key, scriptPubKeyOut⟩, hkey, rfl⟩ := Option.map_eq_some_iff.mp (Except.ok.inj h)
        exact ⟨rfl, hns n List.mem_cons_self, hcheck, hkey⟩

theorem searchKernel_spec {setCoins : List StakeCoin}
    (h : searchKernel env cache nBits nTime nSearchInterval setCoins = .ok (some kernel)) :
    kernel.coin ∈ setCoins ∧ kernel.Found env cache nBits nTime nSearchInterval := by
  induction setCoins with
  | nil => cases h
  | cons coin setCoins ih =>
    rw [searchKernel] at h
    obtain ⟨found, hsearch, h⟩ := check_bind_eq_ok.mp h
    cases found with
    | none =>
      obtain ⟨hmem, hfound⟩ := ih h
      exact ⟨List.mem_cons_of_mem _ hmem, hfound⟩
    | some kernel' =>
      obtain rfl : kernel' = kernel := Option.some.inj (Except.ok.inj h)
      have hns : ∀ n ∈ List.range (min nSearchInterval 60).toNat,
          (n : ℤ) < min nSearchInterval 60 := by
        intro n hn
        have hlt := List.mem_range.mp hn
        omega
      obtain ⟨rfl, hfound⟩ := searchTimes_spec hns hsearch
      exact ⟨List.mem_cons_self, hfound⟩

/-- The transaction of the kernel is not later than the coinstake. -/
theorem Kernel.Found.nTime_le (h : kernel.Found env cache nBits nTime nSearchInterval)
    {tx : CTransaction} (htx : kernelTx env cache kernel.coin.outpoint = some tx) :
    tx.nTime ≤ nTime - UInt32.ofNat kernel.n := by
  have hcheck := h.check
  rw [checkKernel, htx] at hcheck
  by_contra hlater
  rw [UInt32.not_le] at hlater
  have hfalse : checkStakeKernelHash env.crypto env.pindexPrev nBits
      (CCoins.fromTx tx env.pindexPrev.nHeight) kernel.coin.outpoint
      (nTime - UInt32.ofNat kernel.n) = .ok false := if_pos hlater
  simp only [hfalse] at hcheck
  cases hcheck

/-! ## The merged coins -/

/-- The exact value of coins. -/
def stakeWorth (coins : List StakeCoin) : ℤ := (coins.map fun coin => coin.nValue.toInt).sum

theorem stakeWorth_append (a b : List StakeCoin) :
    stakeWorth (a ++ b) = stakeWorth a + stakeWorth b := by
  rw [stakeWorth, List.map_append, List.sum_append]
  rfl

theorem stakeWorth_nonneg {coins : List StakeCoin} (h : ∀ coin ∈ coins, 0 < coin.nValue.toInt) :
    0 ≤ stakeWorth coins := by
  refine List.sum_nonneg fun v hv => ?_
  obtain ⟨coin, hmem, rfl⟩ := List.mem_map.mp hv
  exact (h coin hmem).le

theorem stakeWorth_subperm {a b : List StakeCoin} (h : a.Subperm b)
    (hpos : ∀ coin ∈ b, 0 < coin.nValue.toInt) : stakeWorth a ≤ stakeWorth b := by
  obtain ⟨c, hperm, hsub⟩ := h
  rw [stakeWorth, ← (hperm.map _).sum_eq]
  refine (hsub.map _).sum_le_sum fun v hv => ?_
  obtain ⟨coin, hmem, rfl⟩ := List.mem_map.mp hv
  exact (hpos coin hmem).le

/-- What the loop keeps: the inputs start with the kernel, the others are different coins of other
transactions, and the credit is their value and within the limit. -/
structure Merged (nLimit : CAmount) (kernel : Kernel) (seen inputs : List StakeCoin)
    (nCredit : CAmount) : Prop where
  more : ∃ more : List StakeCoin, inputs = kernel.coin :: more ∧ more.Sublist seen ∧
    ∀ coin ∈ more, coin.hash ≠ kernel.coin.hash
  few : inputs.length ≤ 10
  credit : nCredit.toInt = stakeWorth inputs
  limit : nCredit ≤ nLimit

theorem Merged.skip {seen inputs : List StakeCoin} (h : Merged nLimit kernel seen inputs nCredit)
    (more : List StakeCoin) : Merged nLimit kernel (seen ++ more) inputs nCredit := by
  obtain ⟨others, heq, hsub, hhash⟩ := h.more
  exact ⟨⟨others, heq, hsub.trans (List.sublist_append_left _ _), hhash⟩, h.few, h.credit, h.limit⟩

theorem Merged.add {seen inputs : List StakeCoin} (h : Merged nLimit kernel seen inputs nCredit)
    (hhash : coin.hash ≠ kernel.coin.hash) (hfew : inputs.length < 10)
    (hcredit : (nCredit + coin.nValue).toInt = nCredit.toInt + coin.nValue.toInt)
    (hlimit : nCredit + coin.nValue ≤ nLimit) :
    Merged nLimit kernel (seen ++ [coin]) (inputs ++ [coin]) (nCredit + coin.nValue) := by
  obtain ⟨others, heq, hsub, hothers⟩ := h.more
  refine ⟨⟨others ++ [coin], by rw [heq, List.cons_append], hsub.append (.refl _), ?_⟩, ?_, ?_,
    hlimit⟩
  · intro c hc
    rcases List.mem_append.mp hc with hc | hc
    · exact hothers c hc
    · rwa [List.mem_singleton.mp hc]
  · rw [List.length_append, List.length_singleton]
    omega
  · rw [hcredit, h.credit, stakeWorth_append]
    simp [stakeWorth]

/-- The coins that the loop may add. -/
def others (kernel : StakeCoin) (coins : List StakeCoin) : List StakeCoin :=
  coins.filter fun coin => coin.hash ≠ kernel.hash

theorem mergeCoins_spec {seen setCoins inputs : List StakeCoin}
    (h : Merged nLimit kernel seen inputs nCredit) (hpos : ∀ coin ∈ setCoins, 0 < coin.nValue.toInt)
    (hnonneg : 0 ≤ nCredit.toInt)
    (hsum : nCredit.toInt + stakeWorth (others kernel.coin setCoins) < 2 ^ 63) :
    Merged nLimit kernel (seen ++ setCoins) (mergeCoins nLimit kernel setCoins inputs nCredit).1
      (mergeCoins nLimit kernel setCoins inputs nCredit).2 := by
  induction setCoins generalizing seen inputs nCredit with
  | nil => simpa [mergeCoins] using h
  | cons coin setCoins ih =>
    have hpos' : ∀ coin ∈ setCoins, 0 < coin.nValue.toInt :=
      fun c hc => hpos c (List.mem_cons_of_mem _ hc)
    have hcoin := hpos coin List.mem_cons_self
    have hrest : 0 ≤ stakeWorth (others kernel.coin setCoins) :=
      stakeWorth_nonneg fun c hc => hpos' c (List.mem_of_mem_filter hc)
    have hcons : coin.hash ≠ kernel.coin.hash → stakeWorth (others kernel.coin (coin :: setCoins)) =
        coin.nValue.toInt + stakeWorth (others kernel.coin setCoins) := fun hne => by
      rw [others, List.filter_cons_of_pos (by simpa using hne)]
      exact List.sum_cons
    have hless : nCredit.toInt + stakeWorth (others kernel.coin setCoins) < 2 ^ 63 := by
      by_cases hne : coin.hash ≠ kernel.coin.hash
      · rw [hcons hne] at hsum
        omega
      · rwa [others, List.filter_cons_of_neg (by simpa using hne)] at hsum
    have hskip := ih (h.skip [coin]) hpos' hnonneg hless
    rw [← List.append_cons] at hskip
    rw [mergeCoins]
    split_ifs with hmatch hmany hreserve hlarge
    · exact h.skip _
    · exact h.skip _
    · exact hskip
    · rw [hcons hmatch.2] at hsum
      have hadd : (nCredit + coin.nValue).toInt = nCredit.toInt + coin.nValue.toInt := by
        rw [Int64.toInt_add, Int.bmod_eq_of_le] <;> omega
      have hmore := ih (h.add hmatch.2 (not_le.mp hmany) hadd (Int64.not_lt.mp hreserve)) hpos'
        (by omega) (by omega)
      rwa [← List.append_cons] at hmore
    · exact hskip

/-! ## The outputs and the signatures -/

theorem stakeOutputs_spec (h : 0 < nCredit.toInt) (scriptPubKey : CScript) :
    ((stakeOutputs scriptPubKey nCredit).map fun o => o.nValue.toInt).sum = nCredit.toInt ∧
      ∀ o ∈ stakeOutputs scriptPubKey nCredit,
        0 < o.nValue.toInt ∧ o.scriptPubKey = scriptPubKey := by
  unfold stakeOutputs
  split_ifs with hsplit
  · have hlt := nCredit.toInt_lt
    have hthreshold : stakeSplitThreshold.toInt = 100000000000 := by decide
    rw [Int64.le_iff_toInt_le, hthreshold] at hsplit
    have hhalf : (nCredit / 2 / CENT * CENT).toInt = nCredit.toInt / 2 / 1000000 * 1000000 := by
      have hcent : CENT.toInt = 1000000 := by decide
      have htwo : (nCredit / 2).toInt = nCredit.toInt / 2 := by
        have h2 : (2 : CAmount).toInt = 2 := by decide
        rw [Int64.toInt_div, h2, Int.tdiv_eq_ediv_of_nonneg h.le, Int.bmod_eq_of_le] <;>
          omega
      have hcents : (nCredit / 2 / CENT).toInt = nCredit.toInt / 2 / 1000000 := by
        rw [Int64.toInt_div, htwo, hcent, Int.tdiv_eq_ediv_of_nonneg (by omega),
          Int.bmod_eq_of_le] <;> omega
      rw [Int64.toInt_mul, hcents, hcent, Int.bmod_eq_of_le] <;> omega
    have hrest : (nCredit - nCredit / 2 / CENT * CENT).toInt =
        nCredit.toInt - nCredit.toInt / 2 / 1000000 * 1000000 := by
      rw [Int64.toInt_sub, hhalf, Int.bmod_eq_of_le] <;> omega
    simp only [List.map_cons, List.map_nil, List.sum_cons, List.sum_nil, hhalf, hrest]
    refine ⟨by ring, fun o ho => ?_⟩
    rcases List.mem_cons.mp ho with rfl | ho
    · exact ⟨by rw [hhalf]; omega, rfl⟩
    · obtain rfl := List.mem_singleton.mp ho
      exact ⟨by rw [hrest]; omega, rfl⟩
  · refine ⟨by simp, fun o ho => ?_⟩
    obtain rfl := List.mem_singleton.mp ho
    exact ⟨h, rfl⟩

theorem stakeOutputs_ne_nil (scriptPubKey : CScript) (nCredit : CAmount) :
    stakeOutputs scriptPubKey nCredit ≠ [] := by
  unfold stakeOutputs
  split_ifs <;> exact List.cons_ne_nil _ _

theorem signInputs_spec {vwtxPrev : List StakeCoin} {nIn : ℕ} {txNew tx : CTransaction}
    (h : signInputs env vwtxPrev nIn txNew = some tx) :
    tx.nTime = txNew.nTime ∧ tx.vout = txNew.vout ∧
      tx.vin.map CTxIn.prevout = txNew.vin.map CTxIn.prevout := by
  induction vwtxPrev generalizing nIn txNew with
  | nil =>
    obtain rfl := Option.some.inj h
    exact ⟨rfl, rfl, rfl⟩
  | cons coin vwtxPrev ih =>
    rw [signInputs] at h
    split at h
    · cases h
    · obtain ⟨htime, hvout, hvin⟩ := ih h
      refine ⟨htime, hvout, hvin.trans ?_⟩
      refine List.ext_getElem? fun j => ?_
      simp only [List.getElem?_map, List.getElem?_modify]
      cases txNew.vin[j]? with
      | none => simp
      | some txin => split_ifs <;> rfl

/-! ## The coinstake -/

/-- The amounts of the coinstake fit into 64 bits. -/
structure NoOverflow (env : StakeEnv) (w : CWallet) (nFees : CAmount) : Prop where
  reserve : (env.nBalance - env.nReserveBalance).toInt =
    env.nBalance.toInt - env.nReserveBalance.toInt
  credit : stakeWorth (stakingCoins env w) + nFees.toInt +
    (getProofOfStakeSubsidy env.node.height).toInt < 2 ^ 63

/-- The coinstake spends the inputs, the first of them the kernel, conserves value, keeps the
reserve and pays the key of the kernel. -/
structure Conserves (env : StakeEnv) (w : CWallet) (nFees : CAmount) (tx : CTransaction)
    (key : Bytes) (kernel : StakeCoin) (more : List StakeCoin) : Prop where
  vin : tx.vin.map CTxIn.prevout = (kernel :: more).map StakeCoin.outpoint
  nodup : (tx.vin.map CTxIn.prevout).Nodup
  few : tx.vin.length ≤ 10
  selected : ∀ coin ∈ kernel :: more, coin ∈ stakingCoins env w
  balance : (tx.vout.map fun o => o.nValue.toInt).sum = stakeWorth (kernel :: more) + nFees.toInt +
    (getProofOfStakeSubsidy env.node.height).toInt
  reserve : stakeWorth (kernel :: more) ≤ env.nBalance.toInt - env.nReserveBalance.toInt
  marker : tx.vout.head? = some ⟨0, []⟩
  kernelKey : KeyOf env.keystore kernel.txout.scriptPubKey key
  pays : ∀ o ∈ tx.vout.tail, 0 < o.nValue.toInt ∧ PaysKey env.keystore key o.scriptPubKey
  isCoinStake : tx.isCoinStake = true

/-- Different coins of other transactions, after a coin, are different outputs. -/
theorem nodup_cons_of_others {setCoins more : List StakeCoin} {kernel : StakeCoin}
    (hnodup : (setCoins.map StakeCoin.outpoint).Nodup) (hsub : more.Sublist setCoins)
    (hhash : ∀ coin ∈ more, coin.hash ≠ kernel.hash) :
    ((kernel :: more).map StakeCoin.outpoint).Nodup := by
  rw [List.map_cons, List.nodup_cons]
  refine ⟨fun hmem => ?_, hnodup.sublist (hsub.map _)⟩
  obtain ⟨coin, hcoin, heq⟩ := List.mem_map.mp hmem
  exact hhash coin hcoin (COutPoint.mk.inj heq).1

theorem stakeWorth_cons_others {setCoins more : List StakeCoin} {kernel : StakeCoin}
    (hnodup : (setCoins.map StakeCoin.outpoint).Nodup) (hmem : kernel ∈ setCoins)
    (hpos : ∀ coin ∈ setCoins, 0 < coin.nValue.toInt) (hsub : more.Sublist setCoins)
    (hhash : ∀ coin ∈ more, coin.hash ≠ kernel.hash) :
    stakeWorth (kernel :: more) ≤ stakeWorth setCoins := by
  refine stakeWorth_subperm (List.subperm_of_subset ?_ ?_) hpos
  · exact (nodup_cons_of_others hnodup hsub hhash).of_map
  · exact List.cons_subset.mpr ⟨hmem, hsub.subset⟩

theorem isCoinStake_of {tx : CTransaction} {o : COutPoint} {rest : List COutPoint}
    {outputs : List CTxOut} (hvin : tx.vin.map CTxIn.prevout = o :: rest) (ho : o.isNull = false)
    (hvout : tx.vout = ⟨0, []⟩ :: outputs) (hne : outputs ≠ []) : tx.isCoinStake = true := by
  obtain ⟨out, outputs, rfl⟩ := List.exists_cons_of_ne_nil hne
  obtain ⟨txin, vin, heq, rfl, -⟩ := List.map_eq_cons_iff.mp hvin
  rw [CTransaction.isCoinStake, heq, hvout]
  simp [ho, CTxOut.isEmpty]

theorem finishCoinStake_spec {nFees : CAmount} {tx tx' : CTransaction} {key : Bytes}
    (hw : Indexable w) (hfees : 0 ≤ nFees.toInt) (hfit : NoOverflow env w nFees)
    (hmem : kernel.coin ∈ stakingCoins env w)
    (hkey : kernelKey env.keystore kernel.coin.txout.scriptPubKey =
      some (kernel.key, kernel.scriptPubKeyOut))
    (h : finishCoinStake env nFees tx (stakingCoins env w) kernel = some (tx', key)) :
    tx'.nTime = tx.nTime - UInt32.ofNat kernel.n ∧
      ∃ more, Conserves env w nFees tx' key kernel.coin more := by
  have hpos : ∀ coin ∈ stakingCoins env w, 0 < coin.nValue.toInt :=
    fun coin hcoin => (mem_stakingCoins hw hcoin).1
  have hnodup : ((stakingCoins env w).map StakeCoin.outpoint).Nodup := nodup_stakingCoins hw
  have hall : stakeWorth (kernel.coin :: others kernel.coin (stakingCoins env w)) ≤
      stakeWorth (stakingCoins env w) :=
    stakeWorth_cons_others hnodup hmem hpos List.filter_sublist
      fun coin hcoin => of_decide_eq_true (List.mem_filter.mp hcoin).2
  have hcons : stakeWorth (kernel.coin :: others kernel.coin (stakingCoins env w)) =
    kernel.coin.nValue.toInt + stakeWorth (others kernel.coin (stakingCoins env w)) := List.sum_cons
  have hcoin := hpos _ hmem
  have hsubsidy := (getProofOfStakeSubsidy_bounds env.node.height).1
  have hcredit := hfit.credit
  unfold finishCoinStake at h
  simp only at h
  split_ifs at h with hkernel hreward
  have hstart : Merged (env.nBalance - env.nReserveBalance) kernel [] [kernel.coin]
      kernel.coin.nValue :=
    ⟨⟨[], rfl, .slnil, fun _ h => absurd h List.not_mem_nil⟩, by simp, by simp [stakeWorth],
      Int64.not_lt.mp (not_or.mp hkernel).2⟩
  have hmerged := mergeCoins_spec hstart hpos hcoin.le (by omega)
  generalize mergeCoins _ kernel (stakingCoins env w) [kernel.coin] kernel.coin.nValue = merged
    at hmerged h
  split at h
  · cases h
  · rename_i txNew hsign
    split_ifs at h
    obtain ⟨rfl, rfl⟩ := Prod.mk.inj (Option.some.inj h)
    obtain ⟨htime, hvout, hvin⟩ := signInputs_spec hsign
    obtain ⟨more, hinputs, hsub, hhash⟩ := hmerged.more
    rw [List.nil_append] at hsub
    have hprevouts : txNew.vin.map CTxIn.prevout =
        (kernel.coin :: more).map StakeCoin.outpoint := by
      rw [hvin, hinputs, List.map_map]
      rfl
    have hlength : txNew.vin.length = merged.1.length := by
      have hlen := congrArg List.length hvin
      rwa [List.length_map, List.length_map, List.length_map] at hlen
    have hworth : merged.2.toInt = stakeWorth (kernel.coin :: more) := by
      rw [hmerged.credit, hinputs]
    have hle := stakeWorth_cons_others hnodup hmem hpos hsub hhash
    have hmore : stakeWorth (kernel.coin :: more) = kernel.coin.nValue.toInt + stakeWorth more :=
      List.sum_cons
    have hnonneg := stakeWorth_nonneg fun coin hcoin => hpos coin (hsub.subset hcoin)
    have hrewardInt : (nFees + getProofOfStakeSubsidy env.node.height).toInt =
        nFees.toInt + (getProofOfStakeSubsidy env.node.height).toInt := by
      rw [Int64.toInt_add, Int.bmod_eq_of_le] <;> omega
    have hcreditInt : (merged.2 + (nFees + getProofOfStakeSubsidy env.node.height)).toInt =
        stakeWorth (kernel.coin :: more) + nFees.toInt +
          (getProofOfStakeSubsidy env.node.height).toInt := by
      rw [Int64.toInt_add, hrewardInt, hworth, Int.bmod_eq_of_le] <;> omega
    obtain ⟨hsum, houtputs⟩ := stakeOutputs_spec
      (show 0 < (merged.2 + (nFees + getProofOfStakeSubsidy env.node.height)).toInt by omega)
      kernel.scriptPubKeyOut
    obtain ⟨hkeyOf, hpays⟩ := kernelKey_spec hkey
    refine ⟨htime, more, ⟨hprevouts, ?_, hlength ▸ hmerged.few, ?_, ?_, ?_, ?_, hkeyOf, ?_, ?_⟩⟩
    · rw [hprevouts]
      exact nodup_cons_of_others hnodup hsub hhash
    · exact List.forall_mem_cons.mpr ⟨hmem, fun coin hcoin => hsub.subset hcoin⟩
    · rw [hvout, List.map_cons, List.sum_cons, hsum, hcreditInt]
      exact zero_add _
    · rw [← hworth, ← hfit.reserve]
      exact Int64.le_iff_toInt_le.mp hmerged.limit
    · rw [hvout]
      rfl
    · rw [hvout]
      exact fun o ho => ⟨(houtputs o ho).1, (houtputs o ho).2 ▸ hpays⟩
    · exact isCoinStake_of hprevouts (mem_stakingCoins hw hmem).2 hvout (stakeOutputs_ne_nil _ _)

variable (env) in
/-- Whenever a coinstake is created it conserves value, keeps the reserve and pays the key of its
kernel.  The kernel is not later than the coinstake, and no input is if all coins are older than the
time at which the search ends. -/
theorem createCoinStake_conserves (w : CWallet) (stakeCache stakeCache' : StakeCache)
    (nBits : UInt32) (nSearchInterval : ℤ) (nFees : CAmount) (tx tx' : CTransaction) (key : Bytes)
    (hw : Indexable w) (hfees : 0 ≤ nFees.toInt) (hfit : NoOverflow env w nFees)
    (h : createCoinStake env w stakeCache nBits nSearchInterval nFees tx =
      .ok (stakeCache', some (tx', key))) :
    ∃ kernel more, Conserves env w nFees tx' key kernel more ∧
      (∀ txPrev, kernelTx env stakeCache' kernel.outpoint = some txPrev →
        txPrev.nTime ≤ tx'.nTime) ∧
      ((∀ coin ∈ stakingCoins env w,
          (coin.tx.nTime.toNat : ℤ) + (min nSearchInterval 60 - 1) ≤ tx.nTime.toNat) →
        ∀ coin ∈ kernel :: more, coin.tx.nTime ≤ tx'.nTime) := by
  unfold createCoinStake at h
  simp only at h
  split_ifs at h
  · cases h
  · cases h
  · obtain ⟨found, hsearch, h⟩ := check_bind_eq_ok.mp h
    cases found with
    | none => cases h
    | some kernel =>
      obtain ⟨hcache, hfinish⟩ := Prod.mk.inj (Except.ok.inj h)
      obtain ⟨hmem, hfound⟩ := searchKernel_spec hsearch
      obtain ⟨htime, more, hconserves⟩ := finishCoinStake_spec hw hfees hfit hmem hfound.key hfinish
      refine ⟨kernel.coin, more, hconserves, fun txPrev htx => ?_, fun hold coin hcoin => ?_⟩
      · rw [htime]
        exact hfound.nTime_le (hcache ▸ htx)
      · have hcoin' := hold coin (hconserves.selected coin hcoin)
        have hn := hfound.inTime
        have hindex : (UInt32.ofNat kernel.n).toNat = kernel.n := toNat_index (by omega)
        have hsub : UInt32.ofNat kernel.n ≤ tx.nTime := by
          rw [UInt32.le_iff_toNat_le, hindex]
          omega
        rw [htime, UInt32.le_iff_toNat_le, UInt32.toNat_sub_of_le _ _ hsub, hindex]
        omega

/-- A transaction with one output to the public key `0x02..02`. -/
def paymentAt (nTime : UInt32) : CTransaction :=
  ⟨1, nTime, [⟨⟨7, 0⟩, [], 0⟩], [⟨COIN, CScript.push (List.replicate 33 2) ++ [OP_CHECKSIG]⟩], 0⟩

/-- Two transactions of the wallet are in the block with hash 5, the second of the given time. -/
def twoPayments (nTime : UInt32) : CWallet where
  mapWallet := (AList.singleton 1 ⟨paymentAt 100, 5, 0, none⟩).insert 2
    ⟨paymentAt nTime, 5, 0, none⟩
  mapTxSpends := Multimap.empty

def twoPaymentsEnv : StakeEnv where
  crypto := ⟨fun _ => 0, fun _ => 0, fun _ _ _ => true, fun _ => true, fun _ _ _ _ _ => .ok ()⟩
  p := regTestParams
  node := ⟨100, fun hash => if hash = 5 then some 1 else none, fun _ => false⟩
  isMine := fun _ => true
  isLockedCoin := fun _ => false
  keystore := ⟨fun _ => some [], fun _ => List.replicate 33 2, fun _ => []⟩
  getTransaction := fun hash => if hash = 1 then some (paymentAt 100, 5) else none
  blockHeight := fun hash => if hash = 5 then some 1 else none
  pindexPrev := ⟨9, 100, 0, 0, 0, {}, 0, 1, 0, 90, 0, 0, 0⟩
  sameBestHeader := fun _ _ => true
  nBalance := 2 * COIN
  nReserveBalance := 0
  fStakeCache := false
  order := id
  order_perm := fun _ => .rfl
  signSignature := fun _ _ _ => some []

/-- The coinstake that spends both payments. -/
def bothPayments : CTransaction :=
  ⟨1, 150, [⟨⟨1, 0⟩, [], 0xffffffff⟩, ⟨⟨2, 0⟩, [], 0xffffffff⟩],
    [⟨0, []⟩, ⟨102 * COIN, CScript.push (List.replicate 33 2) ++ [OP_CHECKSIG]⟩], 0⟩

theorem bothPayments_conserves : ∃ kernel more,
    Conserves twoPaymentsEnv (twoPayments 120) 0 bothPayments [] kernel more ∧
      ∀ coin ∈ kernel :: more, coin.tx.nTime ≤ 150 := by
  have hsnd : (createCoinStake twoPaymentsEnv (twoPayments 120) ∅ 0 1 0 (paymentAt 150)).map
      Prod.snd = .ok (some (bothPayments, [])) := by decide +kernel
  cases hcreate : createCoinStake twoPaymentsEnv (twoPayments 120) ∅ 0 1 0 (paymentAt 150) with
  | error => simp [hcreate, Except.map] at hsnd
  | ok r =>
    obtain ⟨cache, result⟩ := r
    rw [hcreate] at hsnd
    obtain rfl : result = some (bothPayments, []) := Except.ok.inj hsnd
    obtain ⟨kernel, more, hconserves, -, htime⟩ := createCoinStake_conserves twoPaymentsEnv
      (twoPayments 120) ∅ cache 0 1 0 (paymentAt 150) bothPayments [] (by decide +kernel)
      (by decide) ⟨by decide +kernel, by decide +kernel⟩ hcreate
    exact ⟨kernel, more, hconserves, htime (by decide +kernel)⟩

/-- The second payment is added to the coinstake although it is later. -/
theorem latePayment_merged :
    Indexable (twoPayments 200) ∧ NoOverflow twoPaymentsEnv (twoPayments 200) 0 ∧
    (createCoinStake twoPaymentsEnv (twoPayments 200) ∅ 0 1 0 (paymentAt 150)).map Prod.snd =
      .ok (some (bothPayments, [])) ∧
    ∃ coin ∈ stakingCoins twoPaymentsEnv (twoPayments 200),
      coin.outpoint ∈ bothPayments.vin.map CTxIn.prevout ∧ bothPayments.nTime < coin.tx.nTime := by
  refine ⟨?_, ⟨?_, ?_⟩, ?_, ?_⟩
  all_goals decide +kernel

end

end Wallet

end X2XCoin
