import X2XCoin.Validation.Replay

/-!
# Verifying the database

`ReadBlockFromDisk`, `ConnectTip` and `CVerifyDB::VerifyDB` of `main.cpp`: the last blocks of the
active chain are read, checked and disconnected in memory, from the tip down, and then connected
again, with `chainActive` at the tip all the time.  The cache is large enough and every file can be
read.
-/

open ByteCodec

namespace X2XCoin

/-- A connected block: what is in the block file, the index and the undo file. -/
structure StoredBlock where
  block : CBlock
  pindex : CBlockIndex
  undoData : Bytes

/-- The active chain on disk: the blocks above the genesis block, the tip first, and the coins. -/
structure StoredChain where
  genesis : CBlockIndex
  stored : List StoredBlock
  view : CoinsView

/-- The entries of stored blocks and of the genesis block. -/
def pathOf (genesis : CBlockIndex) (stored : List StoredBlock) : List CBlockIndex :=
  stored.map StoredBlock.pindex ++ [genesis]

/-- The first of these. -/
def tipOf (genesis : CBlockIndex) : List StoredBlock → CBlockIndex
  | [] => genesis
  | b :: _ => b.pindex

/-- The tests of `ReadBlockFromDisk` on the block that was read. -/
def readBlockFromDisk (crypto : Crypto) (p : Params) (b : StoredBlock) : Bool :=
  let hash := b.block.getHash crypto
  (hash = p.hashGenesisBlock || !b.block.isProofOfWork ||
      checkProofOfWork p (b.block.getPoWHash crypto) b.block.nBits) && hash = b.pindex.hash

/-- What `VerifyDB` does with one block on the way down: the view, and whether every block so far
was disconnected cleanly. -/
def verifyBlock (crypto : Crypto) (keys : PubKeys) (p : Params) (chainHeight nCheckLevel : ℤ)
    (pprev : CBlockIndex) (b : StoredBlock) (s : CoinsView × Bool) : Option (CoinsView × Bool) :=
  if ¬ readBlockFromDisk crypto p b then none
  else if 1 ≤ nCheckLevel ∧ checkBlock crypto p chainHeight b.block true true true ≠ .ok () then none
  else if 2 ≤ nCheckLevel ∧ ((undoReadFromDisk crypto keys pprev.hash).run b.undoData).isNone then
    none
  else if 3 ≤ nCheckLevel then
    (disconnectBlock crypto keys b.block pprev b.pindex b.undoData s.1).map fun t =>
      (t.1, s.2 && t.2)
  else some s

/-- The loop down from the tip to height `nLast`, with the blocks it went through, the lowest first,
each with its ancestors. -/
def verifyBack (crypto : Crypto) (keys : PubKeys) (p : Params) (chainHeight nCheckLevel nLast : ℤ)
    (genesis : CBlockIndex) : List StoredBlock → CoinsView × Bool →
      Option (List (List CBlockIndex × StoredBlock) × CoinsView × Bool)
  | [], s => some ([], s)
  | b :: rest, s =>
    if (b.pindex.nHeight : ℤ) < nLast then some ([], s)
    else do
      let s ← verifyBlock crypto keys p chainHeight nCheckLevel (tipOf genesis rest) b s
      let (undone, s) ← verifyBack crypto keys p chainHeight nCheckLevel nLast genesis rest s
      some (undone ++ [(pathOf genesis rest, b)], s)

/-- One block on the way up. -/
def reconnectBlock (crypto : Crypto) (p : Params) (chainHeight : ℤ) (coins : CoinsView)
    (b : List CBlockIndex × StoredBlock) : Option CoinsView :=
  if ¬ readBlockFromDisk crypto p b.2 then none
  else
    match connectBlock crypto p chainHeight true b.1 b.2.pindex coins b.2.block false with
    | .ok r => some r.view
    | .error _ => none

namespace StoredChain

def path (s : StoredChain) : List CBlockIndex := pathOf s.genesis s.stored

/-- `chainActive.Height()`. -/
def height (s : StoredChain) : ℤ := s.stored.length

/-- How far below the tip `VerifyDB` goes. -/
def checkDepth (s : StoredChain) (nCheckDepth : ℤ) : ℤ :=
  min (if nCheckDepth ≤ 0 then 1000000000 else nCheckDepth) s.height

def verifyDB (crypto : Crypto) (keys : PubKeys) (p : Params) (s : StoredChain)
    (nCheckLevel nCheckDepth : ℤ) : Bool :=
  let nCheckLevel := max 0 (min 4 nCheckLevel)
  match verifyBack crypto keys p s.height nCheckLevel (s.height - s.checkDepth nCheckDepth) s.genesis
      s.stored (s.view, true) with
  | none => false
  | some (undone, coins, fClean) =>
    fClean && (nCheckLevel < 4 || (undone.foldlM (reconnectBlock crypto p s.height) coins).isSome)

/-- The chain of the genesis block alone. -/
def start (genesis : CBlockIndex) : StoredChain :=
  ⟨genesis, [], CoinsView.empty.setBestBlock genesis.hash⟩

/-- `ConnectTip`: connect a block with `chainActive` at its parent and store it. -/
def connectTip (crypto : Crypto) (keys : PubKeys) (p : Params) (s : StoredChain) (block : CBlock) :
    Check StoredChain := do
  let r ← connectBlock crypto p s.height true s.path (ChainState.newIndex crypto p s.path block) s.view
    block false
  let undoData := undoWriteToDisk crypto keys (tipOf s.genesis s.stored).hash r.blockundo
  pure { s with stored := ⟨block, r.pindex, undoData⟩ :: s.stored, view := r.view }

/-- The chain was built by `ConnectTip`: its blocks, the tip first, each with the chain it was
connected to. -/
inductive History (crypto : Crypto) (keys : PubKeys) (p : Params) (genesis : CBlockIndex) :
    List (StoredChain × CBlock) → StoredChain → Prop
  | start : History crypto keys p genesis [] (start genesis)
  | connect {hs s s' block} : History crypto keys p genesis hs s →
      connectTip crypto keys p s block = .ok s' → History crypto keys p genesis ((s, block) :: hs) s'

/-! ## One block down and up -/

section

variable {crypto : Crypto} {keys : PubKeys} {p : Params} {genesis : CBlockIndex} {s s' : StoredChain}
  {block : CBlock}

theorem head?_path (s : StoredChain) : s.path.head? = some (tipOf s.genesis s.stored) := by
  unfold path pathOf tipOf
  cases s.stored <;> rfl

theorem length_path (s : StoredChain) : s.path.length = s.stored.length + 1 := by
  simp [path, pathOf]

/-- The entry a block gets when it is connected to the chain. -/
abbrev newIndex (crypto : Crypto) (p : Params) (s : StoredChain) (block : CBlock) : CBlockIndex :=
  ChainState.newIndex crypto p s.path block

/-- The undo data of the block keeps everything there is to undo, and the block is not one that the
index already has. -/
structure Lossless (crypto : Crypto) (p : Params) (s : StoredChain) (block : CBlock) : Prop where
  notGenesis : block.getHash crypto ≠ p.hashGenesisBlock
  height : s.stored.length + 1 < 2 ^ 28
  distinct : ∀ tx ∈ block.vtx, ∀ tx' ∈ block.vtx, tx.getHash crypto = tx'.getHash crypto → tx = tx'
  compressible : ∀ r, connectBlock crypto p s.height true s.path (s.newIndex crypto p block) s.view
    block false = .ok r → ∀ txundo ∈ r.blockundo, ∀ undo ∈ txundo, undo.txout.Compressible

/-- The block passes the tests that depend on the height of the active chain when that is `H`. -/
structure ReplayOk (crypto : Crypto) (p : Params) (H : ℤ) (s : StoredChain) (block : CBlock) :
    Prop where
  time : CoinBaseTimeOk p H block
  reward : ∀ st, connectTxs crypto true (blockScriptFlags p block)
      ((tipOf s.genesis s.stored).nHeight + 1) (s.newIndex crypto p block).nHeight { view := s.view }
      block.vtx = .ok st → checkReward p H block st = .ok ()

/-- What chains built by `ConnectTip` keep. -/
structure Sound (s : StoredChain) : Prop where
  undoable : s.view.Undoable
  tidy : s.view.TidyOn Set.univ

/-- A view in place of that of the chain. -/
structure Shows (coins : CoinsView) (s : StoredChain) : Prop where
  alike : coins.Alike s.view
  best : coins.hashBlock = s.view.hashBlock

theorem enforceBIP30_of_neg (hp : p.BIP34Height < 0) (path : List CBlockIndex) :
    enforceBIP30 p path = true := by
  have hnone : getAncestor path p.BIP34Height = none := by
    refine List.find?_eq_none.mpr fun i _ => ?_
    rw [decide_eq_true_eq]
    omega
  rw [enforceBIP30, hnone]

theorem connectTip_ok (h : s.connectTip crypto keys p block = .ok s') :
    ∃ r, connectBlock crypto p s.height true s.path (s.newIndex crypto p block) s.view block false =
        .ok r ∧
      s' = ⟨s.genesis, ⟨block, r.pindex, undoWriteToDisk crypto keys (tipOf s.genesis s.stored).hash
        r.blockundo⟩ :: s.stored, r.view⟩ := by
  simp only [connectTip, check_bind_eq_ok, check_pure_eq_ok] at h
  obtain ⟨r, hr, rfl⟩ := h
  exact ⟨r, hr, rfl⟩

theorem newIndex_nHeight (s : StoredChain) : (s.newIndex crypto p block).nHeight = s.stored.length + 1 :=
  s.length_path

theorem start_sound (genesis : CBlockIndex) : (start genesis).Sound := by
  have hnone : ∀ txid, (start genesis).view.coinsAt txid = {} := fun txid => by
    show (CoinsView.empty.accessCoins txid).getD {} = {}
    rw [CoinsView.accessCoins, CoinsView.empty, AList.lookup_empty, Option.getD_none]
  refine ⟨fun txid hp => ?_, fun txid _ => ?_⟩
  · rw [hnone] at hp
    cases hp
  · rw [hnone]
    exact CCoins.tidy_empty

theorem connectTip_sound (h : s.connectTip crypto keys p block = .ok s')
    (hl : s.Lossless crypto p block) (hs : s.Sound) : s'.Sound := by
  obtain ⟨r, hr, rfl⟩ := connectTip_ok h
  obtain ⟨hblock, _, st, -, -, hloop, -, rfl⟩ := connectBlock_ok hr hl.notGenesis
  obtain ⟨txundos, hall, -⟩ := connectTxs_updateAll hloop
  rw [newIndex_nHeight] at hall
  have hundoable : st.view.Undoable :=
    (updateAll_undoable (Nat.le_add_left 1 _) hl.height hall hs.undoable).1
  have htidy : st.view.TidyOn Set.univ :=
    updateAll_tidyOn hall (fun tx ht => (hblock.txs tx ht).notNull) hs.tidy
  exact ⟨hundoable, htidy⟩

variable {H : ℤ} {coins : CoinsView} {view : CoinsView} {chainHeight : ℤ} {path : List CBlockIndex}
  {pindex : CBlockIndex} {r : ConnectResult}

theorem readBlockFromDisk_connectBlock (undoData : Bytes)
    (hr : connectBlock crypto p chainHeight true path pindex view block false = .ok r)
    (hgen : block.getHash crypto ≠ p.hashGenesisBlock)
    (hhash : pindex.hash = block.getHash crypto) :
    readBlockFromDisk crypto p ⟨block, r.pindex, undoData⟩ = true := by
  obtain ⟨-, _, st, -, -, -, -, rfl⟩ := connectBlock_ok hr hgen
  simp only [connectBlock, checkBlock, checkBlockHeader, check_bind_eq_ok, ensure_eq_ok] at hr
  obtain ⟨_, ⟨_, ⟨_, -, hpow⟩, -⟩, -⟩ := hr
  simp only [readBlockFromDisk, Bool.and_eq_true, Bool.or_eq_true, decide_eq_true_eq]
  refine ⟨?_, hhash.symm⟩
  by_cases hkind : block.isProofOfWork = true
  · refine .inr (by_contra fun hbad => hpow ⟨by simp [hkind], hbad⟩)
  · exact .inl (.inr (by simpa using hkind))

theorem connectBlock_notOverwriting (hp : p.BIP34Height < 0)
    (hr : connectBlock crypto p chainHeight true path pindex view block false = .ok r)
    (hgen : block.getHash crypto ≠ p.hashGenesisBlock) :
    ∀ tx ∈ block.vtx, notOverwriting crypto view tx = true := by
  simp only [connectBlock, check_bind_eq_ok, ensure_eq_ok, if_neg hgen, connectBlockBody] at hr
  obtain ⟨_, -, _, -, _, ⟨_, -, _, -, _, -, _, hover, -⟩, -⟩ := hr
  exact hover.resolve_left (not_not.mpr (enforceBIP30_of_neg hp path))

theorem connectBlock_pindex
    (hr : connectBlock crypto p chainHeight true path pindex view block false = .ok r)
    (hgen : block.getHash crypto ≠ p.hashGenesisBlock) :
    r.pindex.nHeight = pindex.nHeight ∧ r.pindex.hash = pindex.hash ∧
      checkBlock crypto p chainHeight block true true true = .ok () := by
  obtain ⟨-, _, _, -, -, -, -, rfl⟩ := connectBlock_ok hr hgen
  simp only [connectBlock, check_bind_eq_ok] at hr
  obtain ⟨_, hcheck, -⟩ := hr
  exact ⟨rfl, rfl, hcheck⟩

theorem undoRead_of_disconnectBlock {pprev pindex : CBlockIndex} {undoData : Bytes}
    {t : CoinsView × Bool}
    (h : disconnectBlock crypto keys block pprev pindex undoData view = some t) :
    ((undoReadFromDisk crypto keys pprev.hash).run undoData).isNone = false := by
  unfold disconnectBlock at h
  split_ifs at h
  obtain ⟨undo, hundo, -⟩ := Option.bind_eq_some_iff.mp h
  rw [hundo]
  rfl

/-- On the way down a block of the chain is passed exactly when its coinbase time is in order. -/
theorem verifyBlock_connectTip {b : StoredBlock} (hp : p.BIP34Height < 0)
    (h : s.connectTip crypto keys p block = .ok s') (hl : s.Lossless crypto p block) (hs : s.Sound)
    (hcoins : Shows coins s') (htidy : coins.TidyOn Set.univ) (hb : s'.stored = b :: s.stored) :
    ∃ coins₁, Shows coins₁ s ∧ coins₁.TidyOn Set.univ ∧
      verifyBlock crypto keys p H 4 (tipOf s.genesis s.stored) b (coins, true) =
        if CoinBaseTimeOk p H block then some (coins₁, true) else none := by
  obtain ⟨r, hr, rfl⟩ := connectTip_ok h
  obtain ⟨rfl, -⟩ := List.cons.inj hb
  have hread := readBlockFromDisk_connectBlock
    (undoWriteToDisk crypto keys (tipOf s.genesis s.stored).hash r.blockundo) hr hl.notGenesis rfl
  obtain ⟨-, -, hcheck⟩ := connectBlock_pindex hr hl.notGenesis
  obtain ⟨pprev, coins₁, hpprev, hdisc, halike, hbest, htidy₁⟩ := disconnectBlock_of_same keys hr
    hl.notGenesis (newIndex_nHeight s ▸ Nat.le_add_left 1 _) (newIndex_nHeight s ▸ hl.height)
    hs.undoable (connectBlock_notOverwriting hp hr hl.notGenesis) hl.distinct (hl.compressible r hr)
    hcoins.alike hcoins.best htidy fun _ _ => trivial
  obtain rfl : tipOf s.genesis s.stored = pprev := Option.some.inj (s.head?_path.symm.trans hpprev)
  refine ⟨coins₁, ⟨halike, hbest⟩, htidy₁, ?_⟩
  have hlevel : (1 : ℤ) ≤ 4 ∧ (2 : ℤ) ≤ 4 ∧ (3 : ℤ) ≤ 4 := by norm_num
  rw [verifyBlock, if_neg (not_not.mpr hread), undoRead_of_disconnectBlock hdisc, hdisc]
  by_cases htime : CoinBaseTimeOk p H block
  · rw [if_neg fun hbad => hbad.2 ((checkBlock_at hcheck).mpr htime), if_pos htime,
      if_neg (by simp), if_pos hlevel.2.2]
    rfl
  · rw [if_pos ⟨hlevel.1, fun hok => htime ((checkBlock_at hcheck).mp hok)⟩, if_neg htime]

/-- On the way up it is connected exactly when it passes at the height of the tip. -/
theorem reconnectBlock_connectTip {b : StoredBlock} (hp : p.BIP34Height < 0)
    (h : s.connectTip crypto keys p block = .ok s') (hl : s.Lossless crypto p block) (hs : s.Sound)
    (hcoins : Shows coins s) (hb : s'.stored = b :: s.stored) :
    (s.ReplayOk crypto p H block →
      ∃ coins', reconnectBlock crypto p H coins (s.path, b) = some coins') ∧
    ∀ coins', reconnectBlock crypto p H coins (s.path, b) = some coins' →
      s.ReplayOk crypto p H block ∧ Shows coins' s' := by
  obtain ⟨r, hr, rfl⟩ := connectTip_ok h
  obtain ⟨rfl, -⟩ := List.cons.inj hb
  have hread := readBlockFromDisk_connectBlock
    (undoWriteToDisk crypto keys (tipOf s.genesis s.stored).hash r.blockundo) hr hl.notGenesis rfl
  obtain ⟨hheight, hhash, -⟩ := connectBlock_pindex hr hl.notGenesis
  obtain ⟨pprev, t', t, hpprev, hloop, ht, hview, hiff⟩ := connectBlock_alike hr hl.notGenesis
    (enforceBIP30_of_neg hp _) hcoins.alike hs.tidy hcoins.best hheight
  obtain rfl : tipOf s.genesis s.stored = pprev := Option.some.inj (s.head?_path.symm.trans hpprev)
  rw [reconnectBlock, if_neg (not_not.mpr hread)]
  constructor
  · intro hok
    rw [(hiff _).mpr ⟨⟨hok.time, hok.reward t hloop⟩, rfl⟩]
    exact ⟨_, rfl⟩
  · intro coins' hcoins'
    split at hcoins'
    · next r' hr' =>
      obtain ⟨⟨htime, hreward⟩, rfl⟩ := (hiff r').mp hr'
      obtain rfl := Option.some.inj hcoins'
      refine ⟨⟨htime, fun st hst => ?_⟩, ?_, ?_⟩
      · obtain rfl : t = st := Except.ok.inj (hloop.symm.trans hst)
        exact hreward
      · rw [hview]
        exact ht.view
      · rw [hview]
        exact hhash
    · cases hcoins'

/-! ## The chain -/

variable {hs : List (StoredChain × CBlock)}

theorem connectTip_stored (h : s.connectTip crypto keys p block = .ok s')
    (hl : s.Lossless crypto p block) :
    s'.genesis = s.genesis ∧
      ∃ b, s'.stored = b :: s.stored ∧ (b.pindex.nHeight : ℤ) = s.height + 1 := by
  obtain ⟨r, hr, rfl⟩ := connectTip_ok h
  refine ⟨rfl, _, rfl, ?_⟩
  rw [(connectBlock_pindex hr hl.notGenesis).1, newIndex_nHeight, Nat.cast_add, Nat.cast_one]
  rfl

theorem History.sound (h : History crypto keys p genesis hs s)
    (hl : ∀ e ∈ hs, e.1.Lossless crypto p e.2) : s.Sound := by
  induction h with
  | start => exact start_sound genesis
  | connect _ hconnect ih =>
    rw [List.forall_mem_cons] at hl
    exact connectTip_sound hconnect hl.1 (ih hl.2)

/-- The loop down over the last `k` blocks and the loop up, started on a view that shows the chain. -/
def verifyLast (crypto : Crypto) (keys : PubKeys) (p : Params) (H : ℤ) (s : StoredChain) (k : ℕ)
    (coins : CoinsView) : Option CoinsView :=
  (verifyBack crypto keys p H 4 (s.height + 1 - k) s.genesis s.stored (coins, true)).bind fun t =>
    if t.2.2 then t.1.foldlM (reconnectBlock crypto p H) t.2.1 else none

theorem verifyLast_zero (h : s.connectTip crypto keys p block = .ok s')
    (hl : s.Lossless crypto p block) : verifyLast crypto keys p H s' 0 coins = some coins := by
  obtain ⟨hgenesis, b, hb, hheight⟩ := connectTip_stored h hl
  have hlt : (b.pindex.nHeight : ℤ) < s'.height + 1 - (0 : ℕ) := by
    rw [hheight, height, height, hb, List.length_cons]
    push_cast
    omega
  rw [verifyLast, hb, verifyBack, if_pos hlt]
  rfl

/-- One more block: it is passed on the way down, and connected on the way up after those below. -/
theorem verifyLast_succ {k : ℕ} (hp : p.BIP34Height < 0)
    (h : s.connectTip crypto keys p block = .ok s') (hl : s.Lossless crypto p block) (hs : s.Sound)
    (hcoins : Shows coins s') (htidy : coins.TidyOn Set.univ) :
    ∃ b coins₁, s'.stored = b :: s.stored ∧ Shows coins₁ s ∧ coins₁.TidyOn Set.univ ∧
      verifyLast crypto keys p H s' (k + 1) coins =
        if CoinBaseTimeOk p H block then
          (verifyLast crypto keys p H s k coins₁).bind fun c => reconnectBlock crypto p H c (s.path, b)
        else none := by
  obtain ⟨hgenesis, b, hb, hheight⟩ := connectTip_stored h hl
  obtain ⟨coins₁, hcoins₁, htidy₁, hblock⟩ :=
    verifyBlock_connectTip (H := H) hp h hl hs hcoins htidy hb
  refine ⟨b, coins₁, hb, hcoins₁, htidy₁, ?_⟩
  have hlast : s'.height + 1 - ((k + 1 : ℕ) : ℤ) = s.height + 1 - k := by
    rw [height, height, hb, List.length_cons]
    push_cast
    omega
  have hlt : ¬ (b.pindex.nHeight : ℤ) < s.height + 1 - k := by
    rw [hheight]
    omega
  rw [verifyLast, hlast, hb, hgenesis, verifyBack, if_neg hlt, hblock]
  split_ifs with htime
  · rw [verifyLast]
    cases hback : verifyBack crypto keys p H 4 (s.height + 1 - k) s.genesis s.stored (coins₁, true) with
    | none => simp [hback]
    | some t =>
      obtain ⟨undone, coins₂, fClean⟩ := t
      cases fClean
      · simp [hback]
      · simp [hback, List.foldlM_append, path]
  · rfl

/-- Both loops succeed exactly when the blocks pass at the height of the tip. -/
theorem History.verifyLast_isSome (hp : p.BIP34Height < 0) (h : History crypto keys p genesis hs s)
    (hl : ∀ e ∈ hs, e.1.Lossless crypto p e.2) (k : ℕ) (hcoins : Shows coins s)
    (htidy : coins.TidyOn Set.univ) :
    ((verifyLast crypto keys p H s k coins).isSome = true ↔
      ∀ e ∈ hs.take k, e.1.ReplayOk crypto p H e.2) ∧
    ∀ coins', verifyLast crypto keys p H s k coins = some coins' → Shows coins' s := by
  induction h generalizing k coins with
  | start =>
    have hnil : verifyLast crypto keys p H (StoredChain.start genesis) k coins = some coins :=
      rfl
    rw [hnil]
    refine ⟨by simp, fun coins' h => ?_⟩
    obtain rfl := Option.some.inj h
    exact hcoins
  | @connect hs s s' block hist hconnect ih =>
    rw [List.forall_mem_cons] at hl
    have hsound := hist.sound hl.2
    cases k with
    | zero =>
      rw [verifyLast_zero hconnect hl.1]
      refine ⟨by simp, fun coins' h => ?_⟩
      obtain rfl := Option.some.inj h
      exact hcoins
    | succ k =>
      obtain ⟨b, coins₁, hb, hcoins₁, htidy₁, hlast⟩ :=
        verifyLast_succ (H := H) (k := k) hp hconnect hl.1 hsound hcoins htidy
      obtain ⟨ihiff, ihshows⟩ := ih hl.2 k hcoins₁ htidy₁
      rw [hlast, List.take_succ_cons, List.forall_mem_cons, ← ihiff]
      by_cases htime : CoinBaseTimeOk p H block
      · rw [if_pos htime]
        cases hk : verifyLast crypto keys p H s k coins₁ with
        | none => simp
        | some c =>
          obtain ⟨hup, hdone⟩ :=
            reconnectBlock_connectTip (H := H) hp hconnect hl.1 hsound (ihshows c hk) hb
          rw [Option.bind_some]
          refine ⟨⟨fun h => ?_, fun h => ?_⟩, fun coins' h => (hdone coins' h).2⟩
          · obtain ⟨c', hc'⟩ := Option.isSome_iff_exists.mp h
            exact ⟨(hdone c' hc').1, rfl⟩
          · exact Option.isSome_iff_exists.mpr (hup h.1)
      · rw [if_neg htime]
        exact ⟨⟨by simp, fun h => absurd h.1.time htime⟩, by simp⟩

theorem checkDepth_nonneg (s : StoredChain) (nCheckDepth : ℤ) : 0 ≤ s.checkDepth nCheckDepth := by
  unfold checkDepth height
  split_ifs <;> omega

theorem verifyDB_eq_verifyLast (s : StoredChain) (nCheckDepth : ℤ) :
    s.verifyDB crypto keys p 4 nCheckDepth =
      (verifyLast crypto keys p s.height s ((s.checkDepth nCheckDepth).toNat + 1) s.view).isSome := by
  have hlast : s.height + 1 - (((s.checkDepth nCheckDepth).toNat + 1 : ℕ) : ℤ) =
      s.height - s.checkDepth nCheckDepth := by
    have := s.checkDepth_nonneg nCheckDepth
    push_cast
    omega
  rw [verifyLast, hlast, verifyDB, show max 0 (min 4 (4 : ℤ)) = 4 by decide]
  cases verifyBack crypto keys p s.height 4 (s.height - s.checkDepth nCheckDepth) s.genesis s.stored
      (s.view, true) with
  | none => rfl
  | some t =>
    obtain ⟨undone, coins, fClean⟩ := t
    cases fClean <;> simp

end

end StoredChain

/-! ## Two first blocks

A block of the main net at height 1 that takes 50 coins, with a transaction that spends them, and
`plainPremineBlock`, which takes the premine. -/

def modestCoinBase : CTransaction where
  nVersion := 1
  nTime := 1769817680
  vin := [⟨COutPoint.null, [0x51, 0x00], 0xffffffff⟩]
  vout := [⟨50 * COIN, [OP_1]⟩]
  nLockTime := 0

def modestTxid : Uint256 := 0x678b0a6be1094c6cc5efffbbd7a597a6f598db6bed5ac7640a185c4d4fc8fbe1

def modestSpend : CTransaction where
  nVersion := -1
  nTime := 1769817680
  vin := [⟨⟨modestTxid, 0⟩, [], 0xffffffff⟩]
  vout := [⟨49 * COIN, [OP_1]⟩]
  nLockTime := 0

def modestBlock : CBlock where
  nVersion := 7
  hashPrevBlock := 0x00000eea834a06692bc4f56d6f0061631c72fd75431ce9e5d7f3b9d712dc3a9b
  hashMerkleRoot := 0xa67a5986c887c615259f8ebb3d767cc295f34a11fd50a4e974482c8a64a958cd
  nTime := 1769817680
  nBits := 0x1e0fffff
  nNonce := 2998527
  vtx := [modestCoinBase, modestSpend]
  vchBlockSig := []

/-- Double SHA-256, scrypt and the interpreter on what storing `modestBlock` asks of them. -/
def modestCrypto : Crypto where
  hash256 bytes :=
    let txid1 : Uint256 := 0xecfc6520cd2980db70c4ca04264648546a0a0a80beb10b13d59fc0a094211fba
    let hash : Uint256 := 0xbf95c065dd1300601a55a00a72df3407007608649fafd89252a9549867ef59e8
    if bytes = modestCoinBase.serialize then modestTxid
    else if bytes = modestSpend.serialize then txid1
    else if bytes = writeUint256 modestTxid ++ writeUint256 txid1 then modestBlock.hashMerkleRoot
    else if bytes = modestBlock.toCBlockHeader.serialize then hash
    else if bytes = writeUint256 hash ++ writeUint256 0 then
      0x9e5c0ad9830331ede116a9228d61b76d311362c9ae839bd6f8c42eaae3c9fbd0
    else if bytes = writeUint256 mainGenesisIndex.hash ++
        [1, 1, 5, 1, 80, 70, 125, 105, 50, 7, 81] then
      0x3221d6741ca688701a9a6f68a860add60f16b0ea645317f8d09c2815778b2676
    else 0
  scrypt bytes :=
    if bytes = modestBlock.toCBlockHeader.serialize then
      0x00000c043cd3bb2f19fafa56ed46d10bbc7bc2ea13bc5c53c8404d72113b6b21
    else 0
  verify _ _ _ := false
  checkLowS _ := false
  verifyScript scriptSig scriptPubKey _ _ _ :=
    if scriptSig = [] ∧ scriptPubKey = [OP_1] then .ok () else .error "unknown error"

/-- Double SHA-256 on the undo data of `plainPremineBlock` too. -/
def plainPremineUndoCrypto : Crypto :=
  { plainPremineCrypto with
    hash256 := fun bytes =>
      if bytes = writeUint256 mainGenesisIndex.hash ++ [0] then
        0x2a440c4f984cfa60ea05e668a09c74dc3ce55ad6559e264910204d23e094c940
      else plainPremineCrypto.hash256 bytes }

namespace StoredChain

/-- The chain of the genesis block of the main net. -/
abbrev mainStart : StoredChain := start mainGenesisIndex

end StoredChain

end X2XCoin
