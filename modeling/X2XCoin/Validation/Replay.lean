import X2XCoin.Validation.Disconnect

/-!
# Connecting a block again

What `ConnectBlock` does on a view that shows what the block was first connected on: it gives the
same
verdict, except for two tests that depend on the height of the active chain.
-/

namespace X2XCoin

/-! ## What shows of a view -/

namespace CoinsView

variable {a b : CoinsView}

theorem output_eq_coinsAt (view : CoinsView) (o : COutPoint) :
    view.output o = (view.coinsAt o.hash).output o.n.toNat := by
  unfold output coinsAt
  cases view.accessCoins o.hash with
  | none => simp
  | some c => rfl

theorem Alike.output_eq (h : a.Alike b) : a.output = b.output := by
  funext o
  rw [output_eq_coinsAt, output_eq_coinsAt, (h o.hash).output]

theorem Alike.getOutputFor_eq (h : a.Alike b) : a.getOutputFor = b.getOutputFor := by
  funext i
  rw [CoinsView.getOutputFor_eq, CoinsView.getOutputFor_eq, h.output_eq]

theorem Alike.getValueIn_eq (h : a.Alike b) (tx : CTransaction) :
    a.getValueIn tx = b.getValueIn tx := by
  rw [getValueIn, h.getOutputFor_eq, getValueIn]

theorem Alike.haveInputs_eq (h : a.Alike b) (tx : CTransaction) :
    a.haveInputs tx = b.haveInputs tx := by
  rw [Bool.eq_iff_iff, haveInputs_iff, haveInputs_iff, h.output_eq]

/-- The entry of an unspent output in a view that shows the same. -/
theorem Alike.exists_coins (h : a.Alike b) {o : COutPoint} {out : CTxOut} {c : CCoins}
    (hc : b.accessCoins o.hash = some c) (hout : c.output o.n.toNat = some out) :
    ∃ c', a.accessCoins o.hash = some c' ∧ c'.output o.n.toNat = some out ∧
      c'.fCoinBase = c.fCoinBase ∧ c'.fCoinStake = c.fCoinStake ∧ c'.nHeight = c.nHeight ∧
      c'.nTime = c.nTime := by
  have hentry := h o.hash
  rw [coinsAt_of_accessCoins hc] at hentry
  have hout' : (a.coinsAt o.hash).output o.n.toNat = some out := (hentry.output _).trans hout
  have hmeta := hentry.metadata (CCoins.isPruned_of_output hout')
  cases hc' : a.accessCoins o.hash with
  | none => simp [coinsAt, hc'] at hout'
  | some c' =>
    rw [coinsAt_of_accessCoins hc'] at hout' hmeta
    simp only [CCoins.metadata, CCoins.mk.injEq] at hmeta
    obtain ⟨hcb, hcs, -, hheight, -, htime⟩ := hmeta
    exact ⟨c', rfl, hout', hcb, hcs, hheight, htime⟩

end CoinsView

/-! ## One transaction -/

section

variable {crypto : Crypto} {p : Params} {nSpendHeight : ℤ} {fScriptChecks : Bool} {flags : UInt32}
  {nHeight : ℕ} {a b : CoinsView} {tx : CTransaction}

variable {block : CBlock} {b' : CoinsView} {txin : CTxIn} {prevout : COutPoint}

theorem checkTxInput_alike (h : a.Alike b) {v w : CAmount}
    (hok : checkTxInput tx b nSpendHeight v txin = .ok w) :
    checkTxInput tx a nSpendHeight v txin = .ok w := by
  obtain ⟨c, o, hc, ho, -⟩ := checkTxInput_ok hok
  rw [CoinsView.output, hc, Option.bind_some] at ho
  obtain ⟨c', hc', ho', hcb, hcs, hheight, htime⟩ := h.exists_coins hc ho
  have hvout := (CCoins.output_eq_some.mp ho).1
  have hvout' := (CCoins.output_eq_some.mp ho').1
  simp only [checkTxInput, check_bind_eq_ok, orFail_eq_ok, hc, hc', Option.some.injEq,
    exists_eq_left', hvout, hvout', hcb, hcs, hheight, htime] at hok ⊢
  exact hok

theorem checkTxInputs_alike (h : a.Alike b) (hok : checkTxInputs tx b nSpendHeight = .ok ()) :
    checkTxInputs tx a nSpendHeight = .ok () := by
  simp only [checkTxInputs, check_bind_eq_ok, ensure_eq_ok, h.haveInputs_eq] at hok ⊢
  obtain ⟨_, hhave, v, hv, hrest⟩ := hok
  obtain ⟨_, hv', rfl⟩ := check_foldlM_simulation (R := fun x y => x = y)
    (g := checkTxInput tx a nSpendHeight)
    (fun i _ x y x' hxy hx => ⟨x', hxy ▸ checkTxInput_alike h hx, rfl⟩) rfl hv
  exact ⟨(), hhave, _, hv', hrest⟩

theorem checkInputScript_alike (h : a.Alike b) {nIn : ℕ} {o : CTxOut}
    (ho : b.output txin.prevout = some o)
    (hok : checkInputScript crypto flags tx b txin nIn = .ok ()) :
    checkInputScript crypto flags tx a txin nIn = .ok () := by
  obtain ⟨c, hc, hout⟩ := Option.bind_eq_some_iff.mp ho
  obtain ⟨c', hc', hout', -⟩ := h.exists_coins hc hout
  have hvout := (CCoins.output_eq_some.mp hout).1
  have hvout' := (CCoins.output_eq_some.mp hout').1
  simp only [checkInputScript, check_bind_eq_ok, orFail_eq_ok, hc, hc', Option.some.injEq,
    exists_eq_left', hvout, hvout'] at hok ⊢
  exact hok

theorem checkInputs_alike (h : a.Alike b)
    (hok : checkInputs crypto tx b nSpendHeight fScriptChecks flags = .ok ()) :
    checkInputs crypto tx a nSpendHeight fScriptChecks flags = .ok () := by
  simp only [checkInputs, onlyIf_eq_ok, check_bind_eq_ok, check_forM_eq_ok] at hok ⊢
  intro hcb
  obtain ⟨_, hins, hscripts⟩ := hok hcb
  refine ⟨(), checkTxInputs_alike h hins, fun hscript i hi => ?_⟩
  -- `CheckTxInputs` has made sure that the output is there
  simp only [checkTxInputs, check_bind_eq_ok, ensure_eq_ok] at hins
  obtain ⟨_, hhave, -⟩ := hins
  obtain ⟨o, ho⟩ := ((CoinsView.haveInputs_iff.mp hhave).resolve_left (by simpa using hcb)) i.1
    (List.fst_mem_of_mem_zipIdx hi)
  exact checkInputScript_alike h ho (hscripts hscript i hi)

theorem spendInput_alike (h : a.Alike b) {undo : CTxInUndo}
    (hok : spendInput b txin = some (b', undo)) :
    ∃ a' undo', spendInput a txin = some (a', undo') ∧ a'.Alike b' := by
  obtain ⟨c, o, hc, ho, rfl, -⟩ := spendInput_eq_some hok
  obtain ⟨c', hc', ho', -⟩ := h.exists_coins hc ho
  have hvout' := CCoins.output_eq_some.mp ho'
  refine ⟨a.modifyCoins txin.prevout.hash fun _ => c'.spend txin.prevout.n.toNat,
    CTxInUndo.ofSpent o (c'.spend txin.prevout.n.toNat), ?_, ?_⟩
  · simp [spendInput, hc', hvout'.1, hvout'.2]
  · have hentry := h txin.prevout.hash
    rw [CoinsView.coinsAt_of_accessCoins hc, CoinsView.coinsAt_of_accessCoins hc'] at hentry
    refine CoinsView.Alike.modifyCoins h ?_ fun txid htx =>
      (CoinsView.coinsAt_modifyCoins_ne htx _).symm
    rw [CoinsView.coinsAt_modifyCoins_self]
    have hp := CCoins.isPruned_of_output ho'
    refine ⟨fun n => ?_, fun _ => ?_, fun _ => ?_⟩
    · rw [CCoins.output_cleanup, CCoins.output_spend, CCoins.output_spend, hentry.output]
    · rw [CCoins.metadata_cleanup, CCoins.metadata_spend, CCoins.metadata_spend, hentry.metadata hp,
        CCoins.spend_eq_with]
    · rw [CCoins.spend_eq_with, CCoins.spend_eq_with c]
      exact hentry.version hp

theorem spendInputs_alike (h : a.Alike b) {vin : List CTxIn} {undos : CTxUndo}
    (hok : spendInputs b vin = some (b', undos)) :
    ∃ a' undos', spendInputs a vin = some (a', undos') ∧ a'.Alike b' := by
  induction vin generalizing a b undos with
  | nil =>
    obtain ⟨rfl, -⟩ : b = b' ∧ [] = undos := by simpa [spendInputs] using hok
    exact ⟨a, [], rfl, h⟩
  | cons txin vin ih =>
    obtain ⟨b₁, undo, undos₁, h₁, h₂, rfl⟩ := spendInputs_cons_eq_some.mp hok
    obtain ⟨a₁, undo', ha₁, halike₁⟩ := spendInput_alike h h₁
    obtain ⟨a', undos', ha', halike'⟩ := ih halike₁ h₂
    exact ⟨a', undo' :: undos', spendInputs_cons_eq_some.mpr ⟨a₁, undo', undos', ha₁, ha', rfl⟩,
      halike'⟩

theorem updateCoins_alike (h : a.Alike b) {txundo : CTxUndo}
    (hok : updateCoins crypto tx b nHeight = some (b', txundo)) :
    ∃ a' txundo', updateCoins crypto tx a nHeight = some (a', txundo') ∧ a'.Alike b' := by
  obtain ⟨b₁, hspend, rfl⟩ := updateCoins_eq_some.mp hok
  obtain ⟨a₁, txundo', hspend', halike⟩ :
      ∃ a₁ txundo', spendTxInputs a tx = some (a₁, txundo') ∧ a₁.Alike b₁ := by
    unfold spendTxInputs at hspend ⊢
    split_ifs at hspend ⊢
    · obtain ⟨rfl, -⟩ : b = b₁ ∧ [] = txundo := by simpa using hspend
      exact ⟨a, [], rfl, h⟩
    · exact spendInputs_alike h hspend
  refine ⟨_, txundo', updateCoins_eq_some.mpr ⟨a₁, hspend', rfl⟩, fun txid => ?_⟩
  by_cases htx : txid = tx.getHash crypto
  · subst htx
    rw [CoinsView.coinsAt_modifyNewCoins_self, CoinsView.coinsAt_modifyNewCoins_self]
    exact CCoins.Alike.refl _
  · rw [CoinsView.coinsAt_modifyNewCoins_ne htx, CoinsView.coinsAt_modifyNewCoins_ne htx]
    exact halike txid

/-- Loop states that agree on everything but undo data. -/
structure ConnectState.Alike (s t : ConnectState) : Prop where
  view : s.view.Alike t.view
  nFees : s.nFees = t.nFees
  nActualStakeReward : s.nActualStakeReward = t.nActualStakeReward
  nSigOpsCount : s.nSigOpsCount = t.nSigOpsCount

theorem getTransactionSigOpCount_alike (h : a.Alike b) :
    getTransactionSigOpCount tx a flags = getTransactionSigOpCount tx b flags := by
  simp only [getTransactionSigOpCount, getP2SHSigOpCount, h.getOutputFor_eq]

theorem tallyReward_alike {s t t' : ConnectState} (h : s.Alike t) (hok : tallyReward tx t = .ok t') :
    ∃ s', tallyReward tx s = .ok s' ∧ s'.Alike t' := by
  unfold tallyReward at hok ⊢
  split_ifs at hok ⊢
  · obtain rfl : t = t' := by simpa using hok
    exact ⟨s, rfl, h⟩
  all_goals
    simp only [check_bind_eq_ok, orFail_eq_ok, check_pure_eq_ok] at hok ⊢
    obtain ⟨v, hv, w, hw, rfl⟩ := hok
    refine ⟨_, ⟨v, hv, w, (h.view.getValueIn_eq tx).trans hw, rfl⟩, ?_⟩
  · exact ⟨h.view, h.nFees, rfl, h.nSigOpsCount⟩
  · exact ⟨h.view, congrArg (· + (w - v)) h.nFees, h.nActualStakeReward, h.nSigOpsCount⟩

theorem connectTx_alike {s t t' : ConnectState} (h : s.Alike t)
    (hok : connectTx crypto fScriptChecks flags nSpendHeight nHeight t tx = .ok t') :
    ∃ s', connectTx crypto fScriptChecks flags nSpendHeight nHeight s tx = .ok s' ∧ s'.Alike t' := by
  simp only [connectTx, check_bind_eq_ok, ensure_eq_ok, orFail_eq_ok, check_pure_eq_ok,
    h.view.haveInputs_eq, getTransactionSigOpCount_alike h.view, h.nSigOpsCount] at hok ⊢
  obtain ⟨_, hhave, n, hn, _, hsig, t₁, htally, _, hin, ⟨view, txundo⟩, hup, rfl⟩ := hok
  obtain ⟨s₁, htally', h₁⟩ := tallyReward_alike h htally
  obtain ⟨view', txundo', hup', halike⟩ := updateCoins_alike h₁.view hup
  exact ⟨_, ⟨(), hhave, n, hn, (), hsig, s₁, htally', (), checkInputs_alike h₁.view hin,
    (view', txundo'), hup', rfl⟩, halike, h₁.nFees, h₁.nActualStakeReward, rfl⟩

theorem connectTxs_alike {vtx : List CTransaction} {s t t' : ConnectState} (h : s.Alike t)
    (hok : connectTxs crypto fScriptChecks flags nSpendHeight nHeight t vtx = .ok t') :
    ∃ s', connectTxs crypto fScriptChecks flags nSpendHeight nHeight s vtx = .ok s' ∧ s'.Alike t' :=
  check_foldlM_simulation (fun _ _ _ _ _ h hok => connectTx_alike h hok) h hok

/-! ## Blocks -/

theorem checkReward_alike {chainHeight : ℤ} {s t : ConnectState} (h : s.Alike t) :
    checkReward p chainHeight block s = checkReward p chainHeight block t := by
  unfold checkReward
  rw [h.nFees, h.nActualStakeReward]

theorem notOverwriting_alike (h : a.Alike b) :
    notOverwriting crypto a tx = notOverwriting crypto b tx := by
  rw [notOverwriting_eq, notOverwriting_eq, (h _).isPruned]

/-- The test of a coinbase's time in `CheckBlock`, which depends on the height of the active
chain. -/
def CoinBaseTimeOk (p : Params) (chainHeight : ℤ) (block : CBlock) : Prop :=
  ∀ tx ∈ block.vtx.head?, ¬ block.getBlockTime > futureDrift p chainHeight tx.nTime.toNat

instance {chainHeight : ℤ} {block : CBlock} : Decidable (CoinBaseTimeOk p chainHeight block) :=
  inferInstanceAs (Decidable (∀ tx ∈ block.vtx.head?, _))

theorem checkBlock_at {chainHeight H : ℤ} {fCheckPOW fCheckMerkleRoot fCheckSig : Bool}
    (h : checkBlock crypto p chainHeight block fCheckPOW fCheckMerkleRoot fCheckSig = .ok ()) :
    checkBlock crypto p H block fCheckPOW fCheckMerkleRoot fCheckSig = .ok () ↔
      CoinBaseTimeOk p H block := by
  simp only [checkBlock, checkBlockBody, check_bind_eq_ok, ensure_eq_ok] at h ⊢
  obtain ⟨_, hheader, _, hmerkle, _, hsize, _, hcb, _, hothers, _, -, hrest⟩ := h
  constructor
  · rintro ⟨_, -, _, -, _, -, _, -, _, -, _, htime, -⟩
    exact htime
  · intro htime
    exact ⟨_, hheader, _, hmerkle, (), hsize, (), hcb, (), hothers, (), htime, hrest⟩

theorem checkStakeKernelHash_congr {pprev : CBlockIndex} {nBits : UInt32} {c c' : CCoins}
    {nTimeTx : UInt32} (htime : c'.nTime = c.nTime)
    (hvout : c'.vout[prevout.n.toNat]? = c.vout[prevout.n.toNat]?) :
    checkStakeKernelHash crypto pprev nBits c' prevout nTimeTx =
      checkStakeKernelHash crypto pprev nBits c prevout nTimeTx := by
  unfold checkStakeKernelHash
  rw [htime, hvout]

theorem checkStakeKernelHash_nil {pprev : CBlockIndex} {nBits : UInt32} {c : CCoins}
    {nTimeTx : UInt32} (hvout : c.vout = []) :
    checkStakeKernelHash crypto pprev nBits c prevout nTimeTx ≠ .ok true := by
  unfold checkStakeKernelHash
  simp only [hvout, List.getElem?_nil]
  split_ifs
  · simp [pure, Except.pure]
  · simp

/-- The kernel of a connected block is unspent, or its entry is empty. -/
theorem stakeKernel_available {txundos : List CTxUndo} (hblock : BlockOk block)
    (hall : updateAll crypto nHeight b block.vtx = some (b', txundos))
    (hpruned : ∀ tx ∈ block.vtx, (b.coinsAt (tx.getHash crypto)).isPruned = true)
    (hkernel : block.stakeKernel = some (tx, prevout)) :
    (∃ o, b.output prevout = some o) ∨ (b.coinsAt prevout.hash).isPruned = true := by
  unfold CBlock.stakeKernel at hkernel
  split at hkernel
  · next coinBase tx' rest hvtx =>
    split_ifs at hkernel
    obtain ⟨txin, hhead, heq⟩ := Option.map_eq_some_iff.mp hkernel
    obtain ⟨rfl, rfl⟩ : tx' = tx ∧ txin.prevout = prevout := by simpa using heq
    obtain ⟨vin, hvin⟩ := List.head?_eq_some_iff.mp hhead
    have hcb : tx'.isCoinBase = false := hblock.others tx' (by simp [hvtx])
    rw [hvtx] at hall hpruned
    obtain ⟨b₁, _, txundos₁, h₁, h₂, -⟩ := updateAll_cons_eq_some.mp hall
    obtain ⟨_, _, _, h₂, -, -⟩ := updateAll_cons_eq_some.mp h₂
    obtain ⟨_, hspend, -⟩ := updateCoins_eq_some.mp h₂
    rw [spendTxInputs, hcb, if_neg Bool.false_ne_true, hvin] at hspend
    obtain ⟨_, _, _, hspend, -, -⟩ := spendInputs_cons_eq_some.mp hspend
    obtain ⟨c, o, hc, ho, -, -⟩ := spendInput_eq_some hspend
    by_cases hid : txin.prevout.hash = coinBase.getHash crypto
    · exact .inr (hid ▸ hpruned coinBase List.mem_cons_self)
    · obtain ⟨_, _, hvtx', hisCB⟩ := hblock.coinBase
      obtain ⟨rfl, -⟩ := List.cons.inj (hvtx.symm.trans hvtx')
      obtain ⟨b₀, hspend₀, rfl⟩ := updateCoins_eq_some.mp h₁
      obtain ⟨rfl, -⟩ : b = b₀ ∧ [] = _ := by simpa [spendTxInputs, hisCB] using hspend₀
      rw [CoinsView.accessCoins_modifyNewCoins_ne hid] at hc
      exact .inl ⟨o, Option.bind_eq_some_iff.mpr ⟨c, hc, ho⟩⟩
  · cases hkernel

theorem checkKernel_alike {pprev pindex pindex' : CBlockIndex} (h : a.Alike b)
    (hheight : pindex'.nHeight = pindex.nHeight) (htidy : b.TidyOn Set.univ)
    (havail : ∀ tx prevout, block.stakeKernel = some (tx, prevout) →
      (∃ o, b.output prevout = some o) ∨ (b.coinsAt prevout.hash).isPruned = true)
    (hok : checkKernel crypto p pprev pindex b block = .ok ()) :
    checkKernel crypto p pprev pindex' a block = .ok () := by
  unfold checkKernel at hok ⊢
  cases hkernel : block.stakeKernel with
  | none => rfl
  | some kernel =>
    obtain ⟨tx, prevout⟩ := kernel
    simp only [hkernel, onlyIf_eq_ok, check_bind_eq_ok, orFail_eq_ok, ensure_eq_ok, hheight] at hok ⊢
    intro hv3
    obtain ⟨c, hc, _, hdepth, ok, hhash, hok⟩ := hok hv3
    rcases havail tx prevout hkernel with ⟨o, ho⟩ | hpruned
    · rw [CoinsView.output, hc, Option.bind_some] at ho
      obtain ⟨c', hc', ho', -, -, hheight', htime⟩ := h.exists_coins hc ho
      have hvout : c'.vout[prevout.n.toNat]? = c.vout[prevout.n.toNat]? :=
        (CCoins.output_eq_some.mp ho').1.trans (CCoins.output_eq_some.mp ho).1.symm
      refine ⟨c', hc', (), hheight' ▸ hdepth, ok, ?_, hok⟩
      rw [checkStakeKernelHash_congr htime hvout, hhash]
    · have htrim := (htidy prevout.hash trivial).trimmed
      rw [CoinsView.coinsAt_of_accessCoins hc] at hpruned htrim
      rw [hok] at hhash
      exact absurd hhash (checkStakeKernelHash_nil (CCoins.vout_eq_nil hpruned htrim))


/-- A connected block is connected again on a view that shows the same exactly when it passes the two
tests that depend on the height of the active chain. -/
theorem connectBlock_alike {chainHeight H : ℤ} {path : List CBlockIndex}
    {pindex pindex' : CBlockIndex} {r : ConnectResult}
    (hok : connectBlock crypto p chainHeight fScriptChecks path pindex b block false = .ok r)
    (hgen : block.getHash crypto ≠ p.hashGenesisBlock) (hbip30 : enforceBIP30 p path = true)
    (h : a.Alike b) (htidy : b.TidyOn Set.univ) (hbest : a.hashBlock = b.hashBlock)
    (hheight : pindex'.nHeight = pindex.nHeight) :
    ∃ (pprev : CBlockIndex) (s t : ConnectState), path.head? = some pprev ∧
      connectTxs crypto fScriptChecks (blockScriptFlags p block) (pprev.nHeight + 1) pindex.nHeight
        { view := b } block.vtx = .ok t ∧ s.Alike t ∧ r.view = t.view.setBestBlock pindex.hash ∧
      ∀ r', connectBlock crypto p H fScriptChecks path pindex' a block false = .ok r' ↔
        (CoinBaseTimeOk p H block ∧ checkReward p H block t = .ok ()) ∧
          r' = ⟨s.view.setBestBlock pindex'.hash, connectedIndex crypto path pindex' block,
            s.vtxundo.tail⟩ := by
  obtain ⟨hblock, -⟩ := connectBlock_ok hok hgen
  have hroot := connectBlock_hashBlock hok
  simp only [connectBlock, check_bind_eq_ok, ensure_eq_ok, if_neg hgen, connectBlockBody,
    orFail_eq_ok, check_pure_eq_ok, Bool.false_eq_true, if_false] at hok
  obtain ⟨_, hcheck, -, -, t, ⟨pprev, hpprev, _, hbits, _, hkernel, _, hover, _, hloop, _, -, rfl⟩,
    rfl⟩ := hok
  have hpruned : ∀ tx ∈ block.vtx, (b.coinsAt (tx.getHash crypto)).isPruned = true := fun tx ht =>
    isPruned_of_notOverwriting (hover.resolve_left (not_not.mpr hbip30) tx ht)
  obtain ⟨txundos, hall, -⟩ := connectTxs_updateAll hloop
  have hkernel' := checkKernel_alike h hheight htidy
    (fun tx prevout hk => stakeKernel_available hblock hall hpruned hk) hkernel
  have hinit : ConnectState.Alike { view := a } { view := b } := ⟨h, rfl, rfl, rfl⟩
  obtain ⟨s, hloop', hs⟩ := connectTxs_alike hinit hloop
  refine ⟨pprev, s, _, hpprev, hloop, hs, rfl, fun r' => ?_⟩
  simp only [connectBlock, check_bind_eq_ok, ensure_eq_ok, if_neg hgen, connectBlockBody,
    orFail_eq_ok, check_pure_eq_ok, Bool.false_eq_true, if_false, notOverwriting_alike h, hheight,
    hpprev, Option.some.injEq, exists_eq_left']
  have hcheck' := checkBlock_at (H := H) hcheck
  constructor
  · rintro ⟨_, hcheck₁, -, -, _, ⟨_, -, _, -, _, -, s', hloop'', _, hreward, rfl⟩, rfl⟩
    obtain rfl : s = s' := Except.ok.inj (hloop'.symm.trans hloop'')
    exact ⟨⟨hcheck'.mp hcheck₁, (checkReward_alike hs).symm.trans hreward⟩, rfl⟩
  · rintro ⟨⟨htime, hreward⟩, rfl⟩
    have hreward' : checkReward p H block s = .ok () :=
      (checkReward_alike hs).trans hreward
    have hroot' : ((some pprev).map CBlockIndex.hash).getD 0 = a.hashBlock := by
      rw [← hpprev, hroot, hbest]
    exact ⟨(), hcheck'.mpr htime, (), hroot', s, ⟨(), hbits, (), hkernel', (), hover, s, hloop', (),
      hreward', rfl⟩, rfl⟩

end

end X2XCoin
