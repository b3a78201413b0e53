import X2XCoin.Server.AddressScan

/-!
# Scanning a window of blocks

`mergeReverseFromTip` and `scanAddressWindow` of `ChainIndexer.java` with every request answered in
time.  What each of them collects under an outpoint is `netted`: what the blocks create there,
unless
one of them spends it.
-/

open ByteCodec

namespace X2XCoin

namespace Server

open Attribution

section

variable (hash256 : Bytes → Uint256) (address : String) (fetchBlock : ℤ → Block)

/-! ## The scans -/

/-- The heights from the first to the last one. -/
def heightsFrom (fromHeight toHeight : ℤ) : List ℤ :=
  (List.range (toHeight + 1 - fromHeight).toNat).map fun i : ℕ => fromHeight + i

/-- The transactions of a block with its height. -/
def transactionsAt (height : ℤ) : List (ℤ × Transaction) :=
  (fetchBlock height).map fun tx => (height, tx)

/-- The transactions of the blocks in the order of the chain. -/
def segment (fromHeight toHeight : ℤ) : List (ℤ × Transaction) :=
  (heightsFrom fromHeight toHeight).flatMap (transactionsAt fetchBlock)

/-- `values` of the source's maps. -/
def values (created : UtxoMap) : List IndexedUtxo := created.entries.map Sigma.snd

/-- `merged` and `seenSpent`. -/
structure ReverseScan where
  merged : UtxoMap := ∅
  seenSpent : List Key := []

/-- The turn of the loop of `mergeReverseFromTip` for a transaction. -/
def ReverseScan.transaction (s : ReverseScan) (p : ℤ × Transaction) : ReverseScan :=
  let scan := scanTransactionForAddress hash256 p.2 p.1 address ∅ []
  let s := scan.2.foldl (fun s key => ⟨s.merged.erase key, key :: s.seenSpent⟩) s
  { s with
    merged := (values scan.1).foldl (fun merged utxo =>
      if utxo.key ∈ s.seenSpent then merged else put merged utxo) s.merged }

/-- `fromHeight` of `mergeReverseFromTip`; the first two numbers are `START_HEIGHT` and
`REVERSE_SCAN_MAX_BLOCKS`, which the environment sets. -/
def reverseStart (startHeight maxBlocks tip : ℤ) : ℤ :=
  max startHeight ((tip - maxBlocks + 1).bmod (2 ^ 32))

def mergeReverseFromTip (startHeight maxBlocks tip : ℤ) (merged : UtxoMap) : UtxoMap :=
  let heights := (heightsFrom (reverseStart startHeight maxBlocks tip) tip).reverse
  (heights.foldl (fun s height => (transactionsAt fetchBlock height).foldl
    (ReverseScan.transaction hash256 address) s) ⟨merged, []⟩).merged

structure BlockScan where
  fromHeight : ℤ
  created : UtxoMap
  spentKeys : List Key

def scanAddressChunk (fromHeight toHeight : ℤ) : BlockScan :=
  let scan := (heightsFrom fromHeight toHeight).foldl (fun scan height =>
    (fetchBlock height).foldl (fun scan tx =>
      scanTransactionForAddress hash256 tx height address scan.1 scan.2) scan) (∅, [])
  ⟨fromHeight, scan.1, scan.2⟩

/-- The first and the last height of each chunk. -/
def chunkRanges (chunk : ℤ) (hchunk : 0 < chunk) (toHeight start : ℤ) : List (ℤ × ℤ) :=
  if start ≤ toHeight then
    (start, min toHeight (start + chunk - 1)) :: chunkRanges chunk hchunk toHeight (start + chunk)
  else []
termination_by (toHeight + 1 - start).toNat

/-- Take a chunk's outputs into the map and its spends out of it. -/
def BlockScan.mergeInto (live : UtxoMap) (scan : BlockScan) : UtxoMap :=
  scan.spentKeys.foldl (fun live key => live.erase key) ((values scan.created).foldl put live)

/-- The number of blocks of a chunk. -/
def chunkSize (workers fromHeight toHeight : ℤ) : ℤ :=
  max 10 ((toHeight - fromHeight + 1).tdiv workers)

theorem chunkSize_pos (workers fromHeight toHeight : ℤ) :
    0 < chunkSize workers fromHeight toHeight :=
  lt_max_of_lt_left (by decide)

/-- The outputs that `scanAddressWindow` is left with after the last chunk. -/
def scanChunks (workers fromHeight toHeight : ℤ) : UtxoMap :=
  let ranges := chunkRanges (chunkSize workers fromHeight toHeight)
    (chunkSize_pos workers fromHeight toHeight) toHeight fromHeight
  let chunks := ranges.map fun range => scanAddressChunk hash256 address fetchBlock range.1 range.2
  (chunks.insertionSort fun a b => a.fromHeight ≤ b.fromHeight).foldl BlockScan.mergeInto ∅

/-- `scanAddressWindow`, with the confirmations that it writes into each output.  A pool of no
threads is refused. -/
def scanAddressWindow (workers fromHeight toHeight minConfirmations tip : ℤ) :
    Option (List (IndexedUtxo × ℤ)) :=
  if workers ≤ 0 then none
  else
    let live := scanChunks hash256 address fetchBlock workers fromHeight toHeight
    some ((values live).filterMap fun utxo =>
      let confirmations := max 0 (tip - utxo.blockHeight + 1)
      if minConfirmations ≤ confirmations then some (utxo, confirmations) else none)

/-- Go through transactions in order: remove what each spends, then add its outputs for the
address. -/
def scanInOrder (transactions : List (ℤ × Transaction)) : UtxoMap :=
  transactions.foldl (fun live p =>
    let live := p.2.spentKeys.foldl (fun live key => live.erase key) live
    (received hash256 address p).foldl put live) ∅

/-! ## Creations net of spends -/

/-- The outpoints that the transactions spend. -/
def spentIn (transactions : List (ℤ × Transaction)) : List Key :=
  transactions.flatMap fun p => p.2.spentKeys

/-- What the transactions create for the address under the key. -/
def createdUnder (transactions : List (ℤ × Transaction)) (key : Key) : Option IndexedUtxo :=
  ((transactions.flatMap (received hash256 address)).foldl put ∅).lookup key

/-- What they create for the address under the key and none of them spends. -/
def netted (transactions : List (ℤ × Transaction)) (key : Key) : Option IndexedUtxo :=
  if key ∈ spentIn transactions then none else createdUnder hash256 address transactions key

variable {hash256 address fetchBlock}

theorem lookup_eraseAll (keys : List Key) (live : UtxoMap) (key : Key) :
    (keys.foldl (fun live key => live.erase key) live).lookup key =
      if key ∈ keys then none else live.lookup key := by
  induction keys generalizing live with
  | nil => rfl
  | cons k keys ih =>
    rw [List.foldl_cons, ih]
    by_cases h : key = k
    · subst h
      rw [AList.lookup_erase, ite_self, if_pos List.mem_cons_self]
    · rw [AList.lookup_erase_ne h]
      simp [h]

theorem lookup_putAll_eq_run (utxos : List IndexedUtxo) (created : UtxoMap) (key : Key) :
    (utxos.foldl put created).lookup key =
      LastWrite.run (Operation.write key) (utxos.map .addOutpoint) (created.lookup key) := by
  induction utxos generalizing created with
  | nil => rfl
  | cons utxo utxos ih =>
    rw [List.foldl_cons, ih, lookup_put]
    change _ = LastWrite.run _ (utxos.map _)
      ((if key = utxo.key then some (some utxo) else none).getD (created.lookup key))
    split_ifs <;> rfl

/-- To put the values of a map of outputs is to put the outputs. -/
theorem lookup_putValues (utxos : List IndexedUtxo) (live : UtxoMap) (key : Key) :
    ((values (utxos.foldl put ∅)).foldl put live).lookup key =
      ((utxos.foldl put ∅).lookup key).or (live.lookup key) := by
  rw [lookup_putAll_eq_run]
  exact run_write_entries (AList.nodupKeys _) key_of_mem_entries key _

theorem lookup_putUnseen (seen : List Key) (utxos : List IndexedUtxo) (live : UtxoMap) (key : Key) :
    (utxos.foldl (fun live utxo => if utxo.key ∈ seen then live else put live utxo) live).lookup
        key =
      if key ∈ seen then live.lookup key else (utxos.foldl put live).lookup key := by
  induction utxos generalizing live with
  | nil => rw [List.foldl_nil, List.foldl_nil, ite_self]
  | cons utxo utxos ih =>
    rw [List.foldl_cons, List.foldl_cons, ih]
    by_cases hseen : key ∈ seen
    · rw [if_pos hseen, if_pos hseen]
      split_ifs with hutxo
      · rfl
      · rw [lookup_put, if_neg fun h : key = utxo.key => hutxo (h ▸ hseen)]
    · rw [if_neg hseen, if_neg hseen, lookup_putAll]
      split_ifs with hutxo
      · have hne : key ≠ utxo.key := fun h => hseen (h ▸ hutxo)
        rw [lookup_putAll utxos (put live utxo), lookup_put, if_neg hne]
      · rw [← lookup_putAll]

@[simp]
theorem spentIn_append (earlier later : List (ℤ × Transaction)) :
    spentIn (earlier ++ later) = spentIn earlier ++ spentIn later :=
  List.flatMap_append

@[simp]
theorem spentIn_singleton (p : ℤ × Transaction) : spentIn [p] = p.2.spentKeys :=
  List.flatMap_singleton ..

theorem createdUnder_append (earlier later : List (ℤ × Transaction)) (key : Key) :
    createdUnder hash256 address (earlier ++ later) key =
      (createdUnder hash256 address later key).or (createdUnder hash256 address earlier key) := by
  rw [createdUnder, List.flatMap_append, List.foldl_append, lookup_putAll]
  rfl

theorem createdUnder_singleton (p : ℤ × Transaction) (key : Key) :
    createdUnder hash256 address [p] key = receivedUnder hash256 address key p := by
  rw [createdUnder, List.flatMap_singleton]
  rfl

variable {transactions : List (ℤ × Transaction)} {key : Key} {utxo : IndexedUtxo}

theorem mem_createdKeys_of_createdUnder (h : createdUnder hash256 address transactions key ≠ none) :
    ∃ p ∈ transactions, key ∈ p.2.createdKeys := by
  obtain ⟨utxo, hutxo⟩ := Option.ne_none_iff_exists'.mp h
  obtain ⟨hmem, rfl⟩ := mem_of_lookup_putAll hutxo
  obtain ⟨p, hp, hutxo⟩ := List.mem_flatMap.mp hmem
  obtain ⟨output, houtput, rfl⟩ := List.mem_map.mp hutxo
  exact ⟨p, hp, List.mem_map.mpr ⟨output, (List.mem_filter.mp houtput).1, rfl⟩⟩

/-- The later transactions create nothing that the earlier ones spent. -/
theorem netted_append {earlier later : List (ℤ × Transaction)}
    (h : ∀ p ∈ earlier, ∀ q ∈ later, List.Disjoint p.2.spentKeys q.2.createdKeys) (key : Key) :
    netted hash256 address (earlier ++ later) key =
      if key ∈ spentIn later then none
      else (createdUnder hash256 address later key).or (netted hash256 address earlier key) := by
  rw [netted, netted, createdUnder_append, spentIn_append]
  simp only [List.mem_append]
  by_cases hlater : key ∈ spentIn later
  · rw [if_pos hlater, if_pos (.inr hlater)]
  · rw [if_neg hlater]
    by_cases hearlier : key ∈ spentIn earlier
    · have hnone : createdUnder hash256 address later key = none := by
        by_contra hcreated
        obtain ⟨q, hq, hkq⟩ := mem_createdKeys_of_createdUnder hcreated
        obtain ⟨p, hp, hkp⟩ := List.mem_flatMap.mp hearlier
        exact h p hp q hq hkp hkq
      rw [if_pos hearlier, if_pos (.inl hearlier), hnone]
      rfl
    · rw [if_neg hearlier, if_neg (not_or.mpr ⟨hearlier, hlater⟩)]

/-! ## Each scan collects the netted outputs -/

/-- No outpoint is created twice, each spend comes after its creation, and no height leaves the
range in which the source's sums are exact. -/
structure ValidSegment (fetchBlock : ℤ → Block) (fromHeight tip : ℤ) : Prop where
  created : ((segment fetchBlock fromHeight tip).flatMap fun p => p.2.createdKeys).Nodup
  ordered : (segment fetchBlock fromHeight tip).Pairwise fun p q =>
    List.Disjoint p.2.spentKeys q.2.createdKeys
  notOwn : ∀ p ∈ segment fetchBlock fromHeight tip, List.Disjoint p.2.spentKeys p.2.createdKeys
  from_nonneg : 0 ≤ fromHeight
  tip_lt : tip < 2 ^ 30

theorem ReverseScan.foldl_spend (keys : List Key) (s : ReverseScan) :
    keys.foldl (fun s key => ⟨s.merged.erase key, key :: s.seenSpent⟩) s =
      (⟨keys.foldl (fun live key => live.erase key) s.merged, keys.reverse ++ s.seenSpent⟩ :
        ReverseScan) := by
  induction keys generalizing s with
  | nil => rfl
  | cons key keys ih =>
    rw [List.foldl_cons, ih, List.reverse_cons, List.append_assoc]
    rfl

/-- The reverse scan has seen the spends, and has netted the outputs, of what it went through, in
whatever order that was. -/
theorem ReverseScan.foldl_transaction (transactions : List (ℤ × Transaction)) (key : Key) :
    (key ∈ (transactions.foldl (ReverseScan.transaction hash256 address) {}).seenSpent ↔
      key ∈ spentIn transactions) ∧
    (transactions.foldl (ReverseScan.transaction hash256 address) {}).merged.lookup key =
      netted hash256 address transactions key := by
  induction transactions using List.reverseRecOn with
  | nil => exact ⟨Iff.rfl, rfl⟩
  | append_singleton transactions p ih =>
    obtain ⟨hseen, hmerged⟩ := ih
    rw [List.foldl_append, List.foldl_cons, List.foldl_nil, ReverseScan.transaction,
      scanTransactionForAddress_eq, foldl_spend]
    simp only [List.nil_append]
    generalize transactions.foldl (ReverseScan.transaction hash256 address) {} = s at hseen hmerged
    have hmem : key ∈ p.2.spentKeys.reverse ++ s.seenSpent ↔
        key ∈ spentIn transactions ∨ key ∈ p.2.spentKeys := by
      rw [List.mem_append, List.mem_reverse, hseen, or_comm]
    refine ⟨by rw [hmem, spentIn_append, spentIn_singleton, List.mem_append], ?_⟩
    rw [lookup_putUnseen, lookup_putValues, lookup_eraseAll, hmerged, netted, netted,
      createdUnder_append, createdUnder_singleton, spentIn_append, spentIn_singleton]
    simp only [hmem, List.mem_append]
    by_cases hspent : key ∈ p.2.spentKeys
    · simp [hspent]
    · by_cases hbefore : key ∈ spentIn transactions
      · simp [hspent, hbefore]
      · simp only [hspent, hbefore, or_self, if_false]
        rfl

theorem scanAddressChunk_eq (fromHeight toHeight : ℤ) :
    scanAddressChunk hash256 address fetchBlock fromHeight toHeight =
      let transactions := segment fetchBlock fromHeight toHeight
      ⟨fromHeight, (transactions.flatMap (received hash256 address)).foldl put ∅,
        spentIn transactions⟩ := by
  have hscan : ∀ (transactions : List (ℤ × Transaction)) (scan : UtxoMap × List Key),
      transactions.foldl (fun scan p =>
        scanTransactionForAddress hash256 p.2 p.1 address scan.1 scan.2) scan =
        ((transactions.flatMap (received hash256 address)).foldl put scan.1,
          scan.2 ++ spentIn transactions) := by
    intro transactions
    induction transactions with
    | nil => exact fun scan => by simp [spentIn]
    | cons p transactions ih =>
      intro scan
      rw [List.foldl_cons, ih, scanTransactionForAddress_eq, List.flatMap_cons, List.foldl_append,
        List.append_assoc]
      rfl
  have hheights : ∀ (heights : List ℤ) (scan : UtxoMap × List Key),
      heights.foldl (fun scan height => (fetchBlock height).foldl (fun scan tx =>
        scanTransactionForAddress hash256 tx height address scan.1 scan.2) scan) scan =
        (heights.flatMap (transactionsAt fetchBlock)).foldl (fun scan p =>
          scanTransactionForAddress hash256 p.2 p.1 address scan.1 scan.2) scan := by
    intro heights scan
    rw [List.foldl_flatMap]
    simp only [transactionsAt, List.foldl_map]
  rw [scanAddressChunk, hheights, hscan, List.nil_append]
  rfl

/-! ## The windows of the chunks -/

theorem heightsFrom_eq_nil {fromHeight toHeight : ℤ} (h : toHeight < fromHeight) :
    heightsFrom fromHeight toHeight = [] := by
  rw [heightsFrom, Int.toNat_of_nonpos (by omega)]
  rfl

theorem heightsFrom_append {fromHeight middle toHeight : ℤ} (hfrom : fromHeight ≤ middle + 1)
    (hto : middle ≤ toHeight) :
    heightsFrom fromHeight middle ++ heightsFrom (middle + 1) toHeight =
      heightsFrom fromHeight toHeight := by
  have hlength : (toHeight + 1 - fromHeight).toNat =
      (middle + 1 - fromHeight).toNat + (toHeight + 1 - (middle + 1)).toNat := by omega
  rw [heightsFrom, heightsFrom, heightsFrom, hlength, List.range_add, List.map_append, List.map_map]
  congr 1
  refine List.map_congr_left fun i _ => ?_
  simp only [Function.comp_apply, Nat.cast_add]
  omega

theorem flatMap_chunkRanges (chunk : ℤ) (hchunk : 0 < chunk) (toHeight start : ℤ) :
    ((chunkRanges chunk hchunk toHeight start).flatMap fun range =>
      segment fetchBlock range.1 range.2) = segment fetchBlock start toHeight := by
  induction start using chunkRanges.induct chunk hchunk toHeight with
  | case1 start hle ih =>
    rw [chunkRanges, if_pos hle, List.flatMap_cons, ih, segment, segment, segment,
      ← List.flatMap_append]
    congr 1
    obtain hlast | hmore := le_or_gt toHeight (start + chunk - 1)
    · rw [min_eq_left hlast, heightsFrom_eq_nil (by omega : toHeight < start + chunk),
        List.append_nil]
    · have hnext : start + chunk = start + chunk - 1 + 1 := by omega
      rw [min_eq_right hmore.le, hnext, add_sub_cancel_right]
      exact heightsFrom_append (by omega) hmore.le
  | case2 start hlt =>
    rw [chunkRanges, if_neg hlt, segment, heightsFrom_eq_nil (not_le.mp hlt)]
    rfl

theorem le_of_mem_chunkRanges (chunk : ℤ) (hchunk : 0 < chunk) (toHeight start : ℤ) :
    ∀ range ∈ chunkRanges chunk hchunk toHeight start, start ≤ range.1 := by
  induction start using chunkRanges.induct chunk hchunk toHeight with
  | case1 start hle ih =>
    rw [chunkRanges, if_pos hle, List.forall_mem_cons]
    exact ⟨le_rfl, fun range hrange => (by omega : start ≤ start + chunk).trans (ih range hrange)⟩
  | case2 start hlt =>
    rw [chunkRanges, if_neg hlt]
    exact List.forall_mem_nil _

theorem pairwise_chunkRanges (chunk : ℤ) (hchunk : 0 < chunk) (toHeight start : ℤ) :
    (chunkRanges chunk hchunk toHeight start).Pairwise fun a b => a.1 ≤ b.1 := by
  induction start using chunkRanges.induct chunk hchunk toHeight with
  | case1 start hle ih =>
    rw [chunkRanges, if_pos hle, List.pairwise_cons]
    refine ⟨fun range hrange => ?_, ih⟩
    have hnext := le_of_mem_chunkRanges chunk hchunk toHeight (start + chunk) range hrange
    exact (by omega : start ≤ start + chunk).trans hnext
  | case2 start hlt =>
    rw [chunkRanges, if_neg hlt]
    exact List.Pairwise.nil

theorem lookup_mergeInto (live : UtxoMap) (fromHeight toHeight : ℤ) (key : Key) :
    let chunk := scanAddressChunk hash256 address fetchBlock fromHeight toHeight
    let transactions := segment fetchBlock fromHeight toHeight
    (BlockScan.mergeInto live chunk).lookup key =
      if key ∈ spentIn transactions then none
      else (createdUnder hash256 address transactions key).or (live.lookup key) := by
  intro chunk transactions
  change (BlockScan.mergeInto live
    (scanAddressChunk hash256 address fetchBlock fromHeight toHeight)).lookup key = _
  rw [scanAddressChunk_eq, BlockScan.mergeInto, lookup_eraseAll, lookup_putValues]
  rfl

/-- Chunks that follow transactions whose outputs are netted. -/
theorem lookup_foldl_mergeInto (ranges : List (ℤ × ℤ)) {earlier : List (ℤ × Transaction)}
    {live : UtxoMap} (hlive : ∀ key, live.lookup key = netted hash256 address earlier key)
    (hordered : (earlier ++ ranges.flatMap fun range => segment fetchBlock range.1 range.2).Pairwise
      fun p q => List.Disjoint p.2.spentKeys q.2.createdKeys) (key : Key) :
    ((ranges.map fun range => scanAddressChunk hash256 address fetchBlock range.1 range.2).foldl
        BlockScan.mergeInto live).lookup key =
      netted hash256 address
        (earlier ++ ranges.flatMap fun range => segment fetchBlock range.1 range.2) key := by
  induction ranges generalizing earlier live with
  | nil =>
    rw [List.flatMap_nil, List.append_nil]
    exact hlive key
  | cons range ranges ih =>
    rw [List.flatMap_cons, ← List.append_assoc] at hordered ⊢
    refine ih (fun key => ?_) hordered
    have hbefore := (List.pairwise_append.mp (List.pairwise_append.mp hordered).1).2.2
    rw [lookup_mergeInto, hlive, netted_append hbefore]

theorem lookup_scanChunks {fromHeight tip workers : ℤ} (h : ValidSegment fetchBlock fromHeight tip)
    (key : Key) :
    (scanChunks hash256 address fetchBlock workers fromHeight tip).lookup key =
      netted hash256 address (segment fetchBlock fromHeight tip) key := by
  set ranges := chunkRanges (chunkSize workers fromHeight tip)
    (chunkSize_pos workers fromHeight tip) tip fromHeight with hranges
  have hchunks : (ranges.flatMap fun range => segment fetchBlock range.1 range.2) =
      segment fetchBlock fromHeight tip := flatMap_chunkRanges _ _ _ _
  have hsorted : (ranges.map fun range =>
      scanAddressChunk hash256 address fetchBlock range.1 range.2).Pairwise fun a b =>
        a.fromHeight ≤ b.fromHeight :=
    List.pairwise_map.mpr (pairwise_chunkRanges _ _ _ _)
  have hempty : ∀ key, (∅ : UtxoMap).lookup key = netted hash256 address [] key := fun key => rfl
  rw [scanChunks, ← hranges, hsorted.insertionSort_eq, lookup_foldl_mergeInto ranges hempty,
    List.nil_append, hchunks]
  rw [List.nil_append, hchunks]
  exact h.ordered

theorem lookup_scanInOrder
    (hordered : transactions.Pairwise fun p q => List.Disjoint p.2.spentKeys q.2.createdKeys)
    (hown : ∀ p ∈ transactions, List.Disjoint p.2.spentKeys p.2.createdKeys) (key : Key) :
    (scanInOrder hash256 address transactions).lookup key =
      netted hash256 address transactions key := by
  induction transactions using List.reverseRecOn with
  | nil => rfl
  | append_singleton transactions p ih =>
    obtain ⟨hbefore, -, hlast⟩ := List.pairwise_append.mp hordered
    have ih := ih hbefore fun q hq => hown q (List.mem_append_left _ hq)
    rw [netted_append hlast, spentIn_singleton, createdUnder_singleton, scanInOrder,
      List.foldl_append, List.foldl_cons, List.foldl_nil, lookup_putAll, lookup_eraseAll]
    change (receivedUnder hash256 address key p).or (if key ∈ p.2.spentKeys then none
      else (scanInOrder hash256 address transactions).lookup key) = _
    rw [ih]
    split_ifs with hspent
    · -- a transaction does not create what it spends
      have hnone : receivedUnder hash256 address key p = none := by
        by_contra hreceived
        exact hown p (by simp) hspent (mem_createdKeys_of_receivedUnder hreceived)
      rw [hnone]
      rfl
    · rfl

theorem key_sublist_createdKeys (transactions : List (ℤ × Transaction)) :
    ((transactions.flatMap (received hash256 address)).map IndexedUtxo.key).Sublist
      (transactions.flatMap fun p => p.2.createdKeys) := by
  induction transactions with
  | nil => exact List.Sublist.refl _
  | cons p transactions ih =>
    rw [List.flatMap_cons, List.flatMap_cons, List.map_append]
    refine List.Sublist.append ?_ ih
    rw [received, List.map_map]
    exact List.filter_sublist.map _

theorem createdUnder_eq_some_iff
    (hcreated : (transactions.flatMap fun p => p.2.createdKeys).Nodup) :
    createdUnder hash256 address transactions key = some utxo ↔
      utxo ∈ transactions.flatMap (received hash256 address) ∧ utxo.key = key := by
  constructor
  · exact mem_of_lookup_putAll
  · rintro ⟨hmem, rfl⟩
    obtain ⟨other, hother⟩ := Option.ne_none_iff_exists'.mp (lookup_putAll_ne_none hmem)
    obtain ⟨hmem', hkey⟩ := mem_of_lookup_putAll hother
    have hkeys : ((transactions.flatMap (received hash256 address)).map IndexedUtxo.key).Nodup :=
      hcreated.sublist (key_sublist_createdKeys transactions)
    rw [createdUnder, hother, List.inj_on_of_nodup_map hkeys hmem' hmem hkey]

/-- The order does not matter where no outpoint is created twice. -/
theorem netted_perm {transactions transactions' : List (ℤ × Transaction)}
    (hperm : transactions.Perm transactions')
    (hcreated : (transactions'.flatMap fun p => p.2.createdKeys).Nodup) (key : Key) :
    netted hash256 address transactions key = netted hash256 address transactions' key := by
  have hcreated' := (hperm.flatMap_right _).nodup_iff.mpr hcreated
  have hunder : createdUnder hash256 address transactions key =
      createdUnder hash256 address transactions' key := by
    refine Option.ext fun utxo => ?_
    rw [createdUnder_eq_some_iff hcreated, createdUnder_eq_some_iff hcreated',
      (hperm.flatMap_right _).mem_iff]
  rw [netted, netted, hunder]
  exact if_congr (hperm.flatMap_right _).mem_iff rfl rfl

theorem lookup_mergeReverseFromTip {startHeight maxBlocks tip : ℤ}
    (h : ValidSegment fetchBlock (reverseStart startHeight maxBlocks tip) tip) (key : Key) :
    (mergeReverseFromTip hash256 address fetchBlock startHeight maxBlocks tip ∅).lookup key =
      netted hash256 address (segment fetchBlock (reverseStart startHeight maxBlocks tip) tip)
        key := by
  set heights := heightsFrom (reverseStart startHeight maxBlocks tip) tip with hheights
  have hperm : (heights.reverse.flatMap (transactionsAt fetchBlock)).Perm
      (segment fetchBlock (reverseStart startHeight maxBlocks tip) tip) :=
    (List.reverse_perm heights).flatMap_right _
  rw [mergeReverseFromTip, ← netted_perm hperm h.created,
    ← (ReverseScan.foldl_transaction _ key).2, List.foldl_flatMap]

/-! ## The scans agree -/

theorem mem_values_iff {created : UtxoMap} :
    utxo ∈ values created ↔ ∃ key, created.lookup key = some utxo := by
  constructor
  · intro h
    obtain ⟨⟨key, utxo⟩, hentry, rfl⟩ := List.mem_map.mp h
    exact ⟨key, AList.mem_lookup_iff.mpr hentry⟩
  · rintro ⟨key, hkey⟩
    exact List.mem_map.mpr ⟨⟨key, utxo⟩, AList.mem_lookup_iff.mp hkey, rfl⟩

theorem mem_values_congr {a b : UtxoMap} (h : ∀ key, a.lookup key = b.lookup key)
    (utxo : IndexedUtxo) : utxo ∈ values a ↔ utxo ∈ values b := by
  simp only [mem_values_iff, h]

theorem blockHeight_le_of_netted {fromHeight tip : ℤ}
    (h : netted hash256 address (segment fetchBlock fromHeight tip) key = some utxo) :
    utxo.blockHeight ≤ tip := by
  rw [netted] at h
  split_ifs at h
  obtain ⟨p, hp, hutxo⟩ := List.mem_flatMap.mp (mem_of_lookup_putAll h).1
  obtain ⟨height, hheight, hp⟩ := List.mem_flatMap.mp hp
  obtain ⟨tx, -, rfl⟩ := List.mem_map.mp hp
  obtain ⟨output, -, rfl⟩ := List.mem_map.mp hutxo
  obtain ⟨i, hi, rfl⟩ := List.mem_map.mp hheight
  have hlt := List.mem_range.mp hi
  change fromHeight + (i : ℤ) ≤ tip
  omega

/-- With all blocks fetched in time, the backward scan, the scan by chunks and the pass in the order
of the chain collect the same outputs. -/
theorem scans_agree (hash256 : Bytes → Uint256) (address : String) (fetchBlock : ℤ → Block)
    (startHeight maxBlocks tip workers minConfirmations : ℤ)
    (hvalid : ValidSegment fetchBlock (reverseStart startHeight maxBlocks tip) tip)
    (hworkers : 1 ≤ workers) (hmin : minConfirmations ≤ 1) :
    let fromHeight := reverseStart startHeight maxBlocks tip
    let inOrder := scanInOrder hash256 address (segment fetchBlock fromHeight tip)
    let merged := mergeReverseFromTip hash256 address fetchBlock startHeight maxBlocks tip ∅
    (∀ utxo, utxo ∈ values merged ↔ utxo ∈ values inOrder) ∧
    ∃ result, scanAddressWindow hash256 address fetchBlock workers fromHeight tip minConfirmations
        tip = some result ∧
      ∀ utxo, utxo ∈ result.map Prod.fst ↔ utxo ∈ values inOrder := by
  intro fromHeight inOrder merged
  have hinOrder : ∀ key, inOrder.lookup key =
      netted hash256 address (segment fetchBlock fromHeight tip) key :=
    lookup_scanInOrder hvalid.ordered hvalid.notOwn
  have hchunks : ∀ key, (scanChunks hash256 address fetchBlock workers fromHeight tip).lookup key =
      netted hash256 address (segment fetchBlock fromHeight tip) key :=
    lookup_scanChunks hvalid
  refine ⟨mem_values_congr fun key => ?_, _, if_neg (by omega), fun utxo => ?_⟩
  · exact (lookup_mergeReverseFromTip hvalid key).trans (hinOrder key).symm
  · rw [← mem_values_congr fun key => (hchunks key).trans (hinOrder key).symm]
    constructor
    · intro h
      obtain ⟨⟨utxo, confirmations⟩, hresult, rfl⟩ := List.mem_map.mp h
      obtain ⟨live, hlive, heq⟩ := List.mem_filterMap.mp hresult
      dsimp only at heq
      split_ifs at heq
      cases heq
      exact hlive
    · intro hlive
      obtain ⟨key, hkey⟩ := mem_values_iff.mp hlive
      have hle := blockHeight_le_of_netted ((hchunks key).symm.trans hkey)
      refine List.mem_map.mpr ⟨_, List.mem_filterMap.mpr ⟨utxo, hlive, if_pos ?_⟩, rfl⟩
      omega

/-- A payment at height 5 that is spent at height 6, the tip. -/
def paidThenSpent (height : ℤ) : Block :=
  if height = 5 then [payment] else if height = 6 then [onward] else []

theorem scans_agree_paidThenSpent :
    let inOrder := scanInOrder (fun _ => 0) "Y" (segment paidThenSpent 0 6)
    let merged := mergeReverseFromTip (fun _ => 0) "Y" paidThenSpent 0 10000 6 ∅
    (∀ utxo, utxo ∈ values merged ↔ utxo ∈ values inOrder) ∧
    ∃ result, scanAddressWindow (fun _ => 0) "Y" paidThenSpent 4 0 6 1 6 = some result ∧
      ∀ utxo, utxo ∈ result.map Prod.fst ↔ utxo ∈ values inOrder := by
  have hsegment : segment paidThenSpent 0 6 = [(5, payment), (6, onward)] := rfl
  have hvalid : ValidSegment paidThenSpent (reverseStart 0 10000 6) 6 := by
    change ValidSegment paidThenSpent 0 6
    refine ⟨?_, ?_, ?_, le_rfl, by decide⟩ <;> rw [hsegment]
    · decide
    · simp [payment, onward, Transaction.spentKeys]
    · simp [payment, onward, Transaction.spentKeys, Transaction.createdKeys]
  exact scans_agree (fun _ => 0) "Y" paidThenSpent 0 10000 6 4 1 hvalid (by decide) le_rfl

end

end Server

end X2XCoin
