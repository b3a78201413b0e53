import X2XCoin.Validation.ConnectBlock

/-!
# Active chains

A chain of blocks connected one after another on top of the genesis block, whose transactions are
never connected.  Each block passes `CheckBlock` and then `ConnectBlock`, with `chainActive` at its
parent as `ConnectTip` calls it.  No block is below a checkpoint, and all scripts are checked.
-/

open ByteCodec

namespace X2XCoin

/-! ## A first block

A block of the main net at height 1, with the hashes of its parts.  Its coinbase takes the premine
in two outputs that anyone can spend; the block spends both, the second in a transaction whose first
output is empty and whose second holds `MAX_MONEY`. -/

def premineCoinBase : CTransaction where
  nVersion := 1
  nTime := 1769817680
  vin := [⟨COutPoint.null, [0x51, 0x00], 0xffffffff⟩]
  vout := [⟨5500000 * COIN, [OP_1]⟩, ⟨5500000 * COIN, [OP_1]⟩]
  nLockTime := 0

def premineTxid : Uint256 := 0xb8de62389e39c348390738d47516a7e9ef8fad2c904c68694e45841dd318656b

def premineSpend : CTransaction where
  nVersion := 1
  nTime := 1769817680
  vin := [⟨⟨premineTxid, 0⟩, [], 0xffffffff⟩]
  vout := [⟨5500000 * COIN, [OP_1]⟩]
  nLockTime := 0

def premineStake : CTransaction where
  nVersion := 1
  nTime := 1769817680
  vin := [⟨⟨premineTxid, 1⟩, [], 0xffffffff⟩]
  vout := [⟨0, []⟩, ⟨MAX_MONEY, [OP_1]⟩]
  nLockTime := 0

def premineBlock : CBlock where
  nVersion := 7
  hashPrevBlock := 0x00000eea834a06692bc4f56d6f0061631c72fd75431ce9e5d7f3b9d712dc3a9b
  hashMerkleRoot := 0x3e7dba1eb946d695e7380c9d7771b51cc2ceceb28c07f7a897a734a54ed14a7b
  nTime := 1769817680
  nBits := 0x1e0fffff
  nNonce := 1569524
  vtx := [premineCoinBase, premineSpend, premineStake]
  vchBlockSig := []

/-- Double SHA-256, scrypt and the interpreter on what connecting `premineBlock` asks of them. -/
def premineCrypto : Crypto where
  hash256 bytes :=
    let txid1 : Uint256 := 0x9090ac5f0297896f55a49a58992c54b80dbf8b9bb8efd4f93a597a3763c39963
    let txid2 : Uint256 := 0x1568219aaba70932f663168d269b4c104e4c7e1b4f8c76b496a904a039898be7
    let pair01 : Uint256 := 0x440b1dec6c777e5fa18ae4a1f8ecc1e124f6855a031af97016401cbd077e138b
    let pair22 : Uint256 := 0xce93cad42ef6ddd4d0ae8cbc415fa4dc180b357a84e17b5047f45676efe2192b
    let hash : Uint256 := 0xfeeadc5e4f21bab696ae09f44217e5fdd8a47a0fc2ea3f60bfcd9f500738875c
    if bytes = premineCoinBase.serialize then premineTxid
    else if bytes = premineSpend.serialize then txid1
    else if bytes = premineStake.serialize then txid2
    else if bytes = writeUint256 premineTxid ++ writeUint256 txid1 then pair01
    else if bytes = writeUint256 txid2 ++ writeUint256 txid2 then pair22
    else if bytes = writeUint256 pair01 ++ writeUint256 pair22 then premineBlock.hashMerkleRoot
    else if bytes = premineBlock.toCBlockHeader.serialize then hash
    else if bytes = writeUint256 hash ++ writeUint256 0 then
      0x25e540d6442eb64686700bb4e3ea23e26048910c818b9284f52d50080c317743
    else 0
  scrypt bytes :=
    if bytes = premineBlock.toCBlockHeader.serialize then
      0x00000b54e0ade1fb8eb6bdc352c8e8c061ce5907c2f5ea1f600b032ca6a07c72
    else 0
  verify _ _ _ := false
  checkLowS _ := false
  verifyScript scriptSig scriptPubKey _ _ _ :=
    if scriptSig = [] ∧ scriptPubKey = [OP_1] then .ok () else .error "unknown error"

/-- The coinbase of a block at the same height that only takes the premine. -/
def plainPremineCoinBase : CTransaction where
  nVersion := 1
  nTime := 1769817680
  vin := [⟨COutPoint.null, [0x51, 0x00], 0xffffffff⟩]
  vout := [⟨11000000 * COIN, [OP_1]⟩]
  nLockTime := 0

def plainPremineBlock : CBlock where
  nVersion := 7
  hashPrevBlock := 0x00000eea834a06692bc4f56d6f0061631c72fd75431ce9e5d7f3b9d712dc3a9b
  hashMerkleRoot := 0x14b8e44a4395f8ddca88e61d693bd720d0db1de667c678d7503821b16f9dfa7f
  nTime := 1769817680
  nBits := 0x1e0fffff
  nNonce := 1108512
  vtx := [plainPremineCoinBase]
  vchBlockSig := []

def plainPremineCrypto : Crypto where
  hash256 bytes :=
    let hash : Uint256 := 0x5baf1a2a72dcae3b2e2f928e437dc75f77eb2601ed0bcf2662365046698d48c1
    if bytes = plainPremineCoinBase.serialize then plainPremineBlock.hashMerkleRoot
    else if bytes = plainPremineBlock.toCBlockHeader.serialize then hash
    else if bytes = writeUint256 hash ++ writeUint256 0 then
      0x1f462be0cf0408289031d403cec8779b367645d77866b046f4b36641918a4dc8
    else 0
  scrypt bytes :=
    if bytes = plainPremineBlock.toCBlockHeader.serialize then
      0x000003ee5b714835825402746b0586b51188fabf579b0b85edea691a93b113da
    else 0
  verify _ _ _ := false
  checkLowS _ := false
  verifyScript _ _ _ _ _ := .error "unknown error"

/-! ## Chains -/

/-- An active chain: its entries, the tip first, and the coins view at the tip. -/
structure ChainState where
  path : List CBlockIndex
  view : CoinsView

namespace ChainState

/-- `chainActive.Height()`. -/
def height (s : ChainState) : ℤ := s.path.length - 1

/-- The main net after its genesis block. -/
def mainGenesis : ChainState where
  path := [mainGenesisIndex]
  view := CoinsView.empty.setBestBlock mainParams.hashGenesisBlock

/-- The entry of a block received on top of `path`: `AddToBlockIndex` and
`ReceivedBlockTransactions`. -/
def newIndex (crypto : Crypto) (p : Params) (path : List CBlockIndex) (block : CBlock) :
    CBlockIndex :=
  { CBlockIndex.ofHeader (block.getHash crypto) block.toCBlockHeader with
    nHeight := path.length
    nChainWork := (path.head?.map CBlockIndex.nChainWork).getD 0 + getBlockProof block.nBits
    nTx := block.vtx.length
    nChainTx := (path.head?.map CBlockIndex.nChainTx).getD 0 + block.vtx.length
    nStatus :=
      { validity := 3
        haveData := true
        proofOfStake := block.isProofOfStake || decide ((path.length : ℤ) > p.nLastPOWBlock) } }

/-- Check and connect a block on top of the chain. -/
def connectNext (crypto : Crypto) (p : Params) (s : ChainState) (block : CBlock) :
    Check ChainState := do
  checkBlock crypto p s.height block true true true
  let r ← connectBlock crypto p s.height true s.path (newIndex crypto p s.path block) s.view block
    false
  pure ⟨r.pindex :: s.path, r.view⟩

/-- Check and connect blocks one after another. -/
def connectAll (crypto : Crypto) (p : Params) (s : ChainState) (blocks : List CBlock) :
    Check ChainState :=
  blocks.foldlM (connectNext crypto p) s

/-- The subsidies granted to blocks connected on top of a chain of the given height. -/
def granted : ℤ → List CBlock → ℤ
  | _, [] => 0
  | h, b :: bs => (blockSubsidy h b).toInt + granted (h + 1) bs

variable {crypto : Crypto} {p : Params} {s s' : ChainState}

variable {block : CBlock}

theorem connectNext_ok (h : s.connectNext crypto p block = .ok s') :
    ∃ r, connectBlock crypto p s.height true s.path (newIndex crypto p s.path block) s.view block
      false = .ok r ∧ s' = ⟨r.pindex :: s.path, r.view⟩ := by
  simp only [connectNext, check_bind_eq_ok, check_pure_eq_ok] at h
  obtain ⟨_, -, r, hr, rfl⟩ := h
  exact ⟨r, hr, rfl⟩

theorem connectNext_height (h : s.connectNext crypto p block = .ok s') :
    s'.height = s.height + 1 := by
  obtain ⟨r, -, rfl⟩ := connectNext_ok h
  simp [height]

/-- The entries of a chain are numbered from the genesis block up. -/
def Numbered (s : ChainState) : Prop := ∀ i ∈ s.path.head?, i.nHeight + 1 = s.path.length

theorem connectNext_numbered (h : s.connectNext crypto p block = .ok s') : s'.Numbered := by
  obtain ⟨r, hr, rfl⟩ := connectNext_ok h
  have hheight : r.pindex.nHeight = s.path.length := by
    by_cases hgen : block.getHash crypto = p.hashGenesisBlock
    · simp only [connectBlock, check_bind_eq_ok, if_pos hgen, check_pure_eq_ok] at hr
      obtain ⟨_, -, _, -, rfl⟩ := hr
      rfl
    · obtain ⟨-, pprev, st, -, -, -, -, rfl⟩ := connectBlock_ok hr hgen
      rfl
  intro i hi
  obtain rfl : r.pindex = i := by simpa using hi
  simp [hheight]

theorem connectAll_numbered {blocks : List CBlock} (hs : s.Numbered)
    (h : s.connectAll crypto p blocks = .ok s') : s'.Numbered := by
  induction blocks generalizing s with
  | nil =>
    obtain rfl : s = s' := by simpa [connectAll] using h
    exact hs
  | cons b blocks ih =>
    rw [connectAll, List.foldlM_cons, check_bind_eq_ok] at h
    obtain ⟨s₁, h₁, h₂⟩ := h
    exact ih (connectNext_numbered h₁) h₂

theorem mainGenesis_numbered : mainGenesis.Numbered := by
  intro i hi
  obtain rfl := Option.some.inj hi
  rfl

end ChainState

end X2XCoin
