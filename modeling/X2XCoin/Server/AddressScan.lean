import X2XCoin.Server.Attribution
import X2XCoin.Server.Resumption

/-!
# Transactions of one address

`scanTransactionForAddress` and `applyAddressTransactions` of `ChainIndexer.java`.  The sort by
height
is stable, so transactions of one block stay in the order of the explorer.
-/

open ByteCodec

namespace X2XCoin

namespace Server

open Attribution

/-- The outpoints that a transaction spends. -/
def Transaction.spentKeys (tx : Transaction) : List Key := tx.vin.filterMap id

/-- The outpoints that a transaction creates. -/
def Transaction.createdKeys (tx : Transaction) : List Key :=
  tx.vout.map fun output => ⟨tx.txid, output.n⟩

abbrev UtxoMap := AList fun _ : Key => IndexedUtxo

section

variable (hash256 : Bytes → Uint256)

/-! ## Scanning a transaction -/

/-- `scanTransactionForAddress`: what is added to the two collections. -/
def scanTransactionForAddress (tx : Transaction) (blockHeight : ℤ) (address : String)
    (created : UtxoMap) (spentKeys : List Key) : UtxoMap × List Key :=
  (tx.vout.foldl (fun created output =>
    if outputHasAddress hash256 output address then
      created.insert ⟨tx.txid, output.n⟩ ⟨tx.txid, output.n, address, output.value, blockHeight⟩
    else created) created, spentKeys ++ tx.spentKeys)

/-- The outputs for the address, as they are stored. -/
def received (address : String) (p : ℤ × Transaction) : List IndexedUtxo :=
  (p.2.vout.filter fun output => outputHasAddress hash256 output address).map fun output =>
    ⟨p.2.txid, output.n, address, output.value, p.1⟩

/-- Store an output under its key. -/
def put (created : UtxoMap) (utxo : IndexedUtxo) : UtxoMap := created.insert utxo.key utxo

/-- The output for the address under the key, if the transaction has one. -/
def receivedUnder (address : String) (key : Key) (p : ℤ × Transaction) : Option IndexedUtxo :=
  ((received hash256 address p).foldl put ∅).lookup key

variable {hash256}

theorem scanTransactionForAddress_eq (tx : Transaction) (blockHeight : ℤ) (address : String)
    (created : UtxoMap) (spentKeys : List Key) :
    scanTransactionForAddress hash256 tx blockHeight address created spentKeys =
      ((received hash256 address (blockHeight, tx)).foldl put created,
        spentKeys ++ tx.spentKeys) := by
  rw [scanTransactionForAddress, received, List.foldl_map, List.foldl_filter]
  rfl

theorem lookup_put (created : UtxoMap) (utxo : IndexedUtxo) (key : Key) :
    (put created utxo).lookup key = if key = utxo.key then some utxo else created.lookup key := by
  rw [put]
  split_ifs with h
  · rw [h, AList.lookup_insert]
  · rw [AList.lookup_insert_ne h]

theorem lookup_putAll (utxos : List IndexedUtxo) (created : UtxoMap) (key : Key) :
    (utxos.foldl put created).lookup key =
      ((utxos.foldl put ∅).lookup key).or (created.lookup key) := by
  induction utxos using List.reverseRecOn with
  | nil => rfl
  | append_singleton utxos utxo ih =>
    simp only [List.foldl_append, List.foldl_cons, List.foldl_nil, lookup_put]
    split_ifs
    · rfl
    · exact ih

variable {key : Key} {utxos : List IndexedUtxo} {p : ℤ × Transaction}

theorem mem_of_lookup_putAll {utxo : IndexedUtxo} (h : (utxos.foldl put ∅).lookup key = some utxo) :
    utxo ∈ utxos ∧ utxo.key = key := by
  induction utxos using List.reverseRecOn with
  | nil => cases h
  | append_singleton utxos u ih =>
    rw [List.foldl_append, List.foldl_cons, List.foldl_nil, lookup_put] at h
    split_ifs at h with hkey
    · obtain rfl := Option.some.inj h
      exact ⟨List.mem_append_right _ List.mem_cons_self, hkey.symm⟩
    · exact ⟨List.mem_append_left _ (ih h).1, (ih h).2⟩

theorem lookup_putAll_ne_none {utxo : IndexedUtxo} (h : utxo ∈ utxos) :
    (utxos.foldl put ∅).lookup utxo.key ≠ none := by
  induction utxos using List.reverseRecOn with
  | nil => cases h
  | append_singleton utxos u ih =>
    rw [List.foldl_append, List.foldl_cons, List.foldl_nil, lookup_put]
    split_ifs with hkey
    · exact Option.some_ne_none u
    · refine ih ((List.mem_append.mp h).resolve_right fun hu => hkey ?_)
      rw [List.mem_singleton.mp hu]

theorem mem_createdKeys_of_receivedUnder {address : String}
    (h : receivedUnder hash256 address key p ≠ none) : key ∈ p.2.createdKeys := by
  obtain ⟨utxo, hutxo⟩ := Option.ne_none_iff_exists'.mp h
  obtain ⟨hmem, rfl⟩ := mem_of_lookup_putAll hutxo
  obtain ⟨output, houtput, rfl⟩ := List.mem_map.mp hmem
  exact List.mem_map.mpr ⟨output, (List.mem_filter.mp houtput).1, rfl⟩

/-! ## Applying transactions -/

variable (hash256) (address : String)

/-- The turn of the loop of `applyAddressTransactions` for a transaction. -/
def applyAddressTransaction (index : Index) (p : ℤ × Transaction) : Index :=
  let scan := scanTransactionForAddress hash256 p.2 p.1 address ∅ []
  if scan.1.entries = [] ∧ scan.2 = [] then index
  else
    let index := { index with chainTip := max index.chainTip p.1 }
    let index := (scan.1.entries.map Sigma.snd).foldl Index.addOutpoint index
    scan.2.foldl Index.removeOutpoint index

/-- `applyAddressTransactions`; a transaction that is not confirmed has no height.  The result is
whether something was applied. -/
def applyAddressTransactions (index : Index) (transactions : List (Option (ℤ × Transaction))) :
    Index × Bool :=
  let ordered := (transactions.filterMap id).insertionSort fun a b => a.1 ≤ b.1
  (ordered.foldl (applyAddressTransaction hash256 address) index,
    ordered.any fun p =>
      let scan := scanTransactionForAddress hash256 p.2 p.1 address ∅ []
      ¬ (scan.1.entries = [] ∧ scan.2 = []))

/-- What a transaction leaves under a key. -/
def addressWrite (key : Key) (p : ℤ × Transaction) : Option (Option IndexedUtxo) :=
  if key ∈ p.2.spentKeys then some none else (receivedUnder hash256 address key p).map some

variable {hash256 address}

theorem run_write_entries {entries : List (Sigma fun _ : Key => IndexedUtxo)}
    (hnodup : entries.NodupKeys) (hkeys : ∀ e ∈ entries, e.2.key = e.1) (key : Key)
    (cell : Option IndexedUtxo) :
    LastWrite.run (Operation.write key) ((entries.map Sigma.snd).map .addOutpoint) cell =
      (entries.dlookup key).or cell := by
  induction entries generalizing cell with
  | nil => rfl
  | cons e entries ih =>
    rw [List.forall_mem_cons] at hkeys
    rw [List.nodupKeys_cons] at hnodup
    change LastWrite.run _ ((entries.map Sigma.snd).map _) ((if key = e.2.key then some (some e.2)
      else none).getD cell) = _
    rw [ih hnodup.2 hkeys.2, hkeys.1]
    obtain ⟨k, utxo⟩ := e
    by_cases hkey : key = k
    · subst hkey
      rw [List.dlookup_cons_eq, List.dlookup_eq_none.mpr hnodup.1, if_pos rfl]
      rfl
    · rw [List.dlookup_cons_ne _ _ hkey, if_neg hkey]
      rfl

theorem key_of_mem_entries : ∀ e ∈ (utxos.foldl put ∅).entries, e.2.key = e.1 := by
  intro e he
  exact (mem_of_lookup_putAll (List.mem_dlookup (utxos.foldl put ∅).nodupKeys he)).2

/-- What a turn does to the index after the tip was raised. -/
def addressOperations (hash256 : Bytes → Uint256) (address : String) (p : ℤ × Transaction) :
    List Operation :=
  ((((received hash256 address p).foldl put ∅).entries.map Sigma.snd).map .addOutpoint) ++
    p.2.spentKeys.map .removeOutpoint

/-- The transaction concerns the address or spends something. -/
def Touches (hash256 : Bytes → Uint256) (address : String) (p : ℤ × Transaction) : Prop :=
  ¬ (((received hash256 address p).foldl put ∅).entries = [] ∧ p.2.spentKeys = [])

instance (p : ℤ × Transaction) : Decidable (Touches hash256 address p) :=
  inferInstanceAs (Decidable (¬ _))

theorem applyAddressTransaction_eq (index : Index) (p : ℤ × Transaction) :
    applyAddressTransaction hash256 address index p =
      (addressOperations hash256 address p).foldl Index.perform
        { index with chainTip := if Touches hash256 address p then max index.chainTip p.1
          else index.chainTip } := by
  rw [applyAddressTransaction, scanTransactionForAddress_eq, addressOperations, List.nil_append]
  by_cases h : Touches hash256 address p
  · rw [if_neg h, if_pos h, List.foldl_append, List.foldl_map, List.foldl_map]
    rfl
  · rw [if_neg h]
    obtain ⟨hcreated, hspent⟩ := not_not.mp h
    rw [if_pos ⟨hcreated, hspent⟩, hcreated, hspent]
    rfl

theorem lookup_applyAddressTransaction (index : Index) (p : ℤ × Transaction) (key : Key) :
    (applyAddressTransaction hash256 address index p).outpoints.lookup key =
      (addressWrite hash256 address key p).getD (index.outpoints.lookup key) := by
  have hspent : ∀ (keys : List Key) (cell : Option IndexedUtxo),
      LastWrite.run (Operation.write key) (keys.map .removeOutpoint) cell =
        if key ∈ keys then none else cell := by
    intro keys
    induction keys with
    | nil => exact fun cell => rfl
    | cons k keys ih =>
      intro cell
      change LastWrite.run _ (keys.map _) ((if key = k then some none else none).getD cell) = _
      rw [ih]
      by_cases h : key = k <;> simp [h]
  rw [applyAddressTransaction_eq, Index.lookup_performAll, addressOperations, LastWrite.run_append,
    run_write_entries (AList.nodupKeys _) key_of_mem_entries, hspent, addressWrite]
  by_cases hkey : key ∈ p.2.spentKeys
  · rw [if_pos hkey, if_pos hkey]
    rfl
  · rw [if_neg hkey, if_neg hkey]
    change (receivedUnder hash256 address key p).or (index.outpoints.lookup key) = _
    cases receivedUnder hash256 address key p <;> rfl

theorem lookup_applyAll (ordered : List (ℤ × Transaction)) (index : Index) (key : Key) :
    (ordered.foldl (applyAddressTransaction hash256 address) index).outpoints.lookup key =
      LastWrite.run (addressWrite hash256 address key) ordered (index.outpoints.lookup key) := by
  induction ordered generalizing index with
  | nil => rfl
  | cons p ordered ih =>
    rw [List.foldl_cons, ih, lookup_applyAddressTransaction]
    rfl

theorem Index.Coherent.withChainTip {index : Index} (h : index.Coherent) (tip : ℤ) :
    Index.Coherent { index with chainTip := tip } :=
  ⟨⟨h.nodup, h.ne_nil⟩, h.mem_keysOf⟩

theorem Index.Coherent.applyAll {index : Index} (h : index.Coherent)
    (ordered : List (ℤ × Transaction)) :
    (ordered.foldl (applyAddressTransaction hash256 address) index).Coherent := by
  refine List.foldlRecOn ordered _ h fun i hi p _ => ?_
  rw [applyAddressTransaction_eq]
  exact Index.Coherent.performAll (hi.withChainTip _) _

/-- The heights of the index after a transaction. -/
def raiseTip (hash256 : Bytes → Uint256) (address : String) (heights : ℤ × ℤ)
    (p : ℤ × Transaction) : ℤ × ℤ :=
  (heights.1, if Touches hash256 address p then max heights.2 p.1 else heights.2)

instance : RightCommutative (raiseTip hash256 address) where
  right_comm heights p q := by
    unfold raiseTip
    split_ifs <;> simp only [max_right_comm]

theorem heights_applyAll (ordered : List (ℤ × Transaction)) (index : Index) :
    (ordered.foldl (applyAddressTransaction hash256 address) index).heights =
      ordered.foldl (raiseTip hash256 address) index.heights := by
  induction ordered generalizing index with
  | nil => rfl
  | cons p ordered ih =>
    rw [List.foldl_cons, ih, applyAddressTransaction_eq, Index.heights_performAll]
    rfl

/-! ## The order of the list -/

/-- Confirmed transactions of one valid chain, in the order of the chain: an outpoint is created
once, spent once, and spent after it was created. -/
structure ValidChain (chain : List (ℤ × Transaction)) : Prop where
  created : (chain.flatMap fun p => p.2.createdKeys).Nodup
  spent : (chain.flatMap fun p => p.2.spentKeys).Nodup
  ordered : chain.Pairwise fun p q => p.1 ≤ q.1 ∧ List.Disjoint p.2.spentKeys q.2.createdKeys
  notOwn : ∀ p ∈ chain, List.Disjoint p.2.spentKeys p.2.createdKeys

/-- The list gives one index whatever its order, without the outpoints that it spends. -/
def OrderIndependent (hash256 : Bytes → Uint256) (address : String) (index : Index)
    (txs : List (ℤ × Transaction)) : Prop :=
  ∀ txs' : List (ℤ × Transaction), txs'.Perm txs →
    (applyAddressTransactions hash256 address index (txs'.map some)).1.Same
      (applyAddressTransactions hash256 address index (txs.map some)).1 ∧
    ∀ q ∈ txs, ∀ key ∈ q.2.spentKeys,
      (applyAddressTransactions hash256 address index (txs'.map some)).1.outpoints.lookup key = none

/-- Two transactions of the list are in one block and the second one spends what the first one pays
to the address. -/
def SpentInBlock (hash256 : Bytes → Uint256) (address : String)
    (txs : List (ℤ × Transaction)) : Prop :=
  ∃ p ∈ txs, ∃ q ∈ txs, p.1 = q.1 ∧ ∃ output ∈ p.2.vout,
    outputHasAddress hash256 output address ∧ ⟨p.2.txid, output.n⟩ ∈ q.2.spentKeys

theorem receivedUnder_ne_none_iff :
    receivedUnder hash256 address key p ≠ none ↔
      ∃ output ∈ p.2.vout, outputHasAddress hash256 output address ∧
        key = ⟨p.2.txid, output.n⟩ := by
  constructor
  · intro h
    obtain ⟨utxo, hutxo⟩ := Option.ne_none_iff_exists'.mp h
    obtain ⟨hmem, rfl⟩ := mem_of_lookup_putAll hutxo
    obtain ⟨output, houtput, rfl⟩ := List.mem_map.mp hmem
    obtain ⟨hvout, haddress⟩ := List.mem_filter.mp houtput
    exact ⟨output, hvout, haddress, rfl⟩
  · rintro ⟨output, hvout, haddress, rfl⟩
    have hmem : (⟨p.2.txid, output.n, address, output.value, p.1⟩ : IndexedUtxo) ∈
        received hash256 address p :=
      List.mem_map.mpr ⟨output, List.mem_filter.mpr ⟨hvout, haddress⟩, rfl⟩
    exact lookup_putAll_ne_none hmem

theorem addressWrite_ne_none_iff :
    addressWrite hash256 address key p ≠ none ↔
      key ∈ p.2.spentKeys ∨ receivedUnder hash256 address key p ≠ none := by
  rw [addressWrite]
  split_ifs with h
  · simp [h]
  · simp [h]

/-- A list in which no outpoint occurs twice names the transaction of each. -/
theorem eq_of_nodup_flatMap {chain : List (ℤ × Transaction)} {keys : ℤ × Transaction → List Key}
    (h : (chain.flatMap keys).Nodup) {p q : ℤ × Transaction} (hp : p ∈ chain) (hq : q ∈ chain)
    (hkp : key ∈ keys p) (hkq : key ∈ keys q) : p = q := by
  by_contra hne
  have : Std.Symm (Function.onFun List.Disjoint keys) := ⟨fun _ _ => List.Disjoint.symm⟩
  exact (List.nodup_flatMap.mp h).2.forall hp hq hne hkp hkq

namespace ValidChain

variable {chain txs : List (ℤ × Transaction)} (h : ValidChain chain)
include h

variable {key : Key} {p q : ℤ × Transaction}

theorem height_le (hp : p ∈ chain) (hq : q ∈ chain) (hkp : key ∈ p.2.createdKeys)
    (hkq : key ∈ q.2.spentKeys) : p.1 ≤ q.1 := by
  let below (p q : ℤ × Transaction) : Prop :=
    ¬ List.Disjoint p.2.createdKeys q.2.spentKeys → p.1 ≤ q.1
  have hbelow : chain.Pairwise fun p q => below p q ∧ below q p :=
    h.ordered.imp fun hpq => ⟨fun _ => hpq.1, fun hnot => absurd hpq.2.symm hnot⟩
  have : Std.Symm fun p q => below p q ∧ below q p := ⟨fun _ _ => And.symm⟩
  by_cases hne : p = q
  · rw [hne]
  · exact (hbelow.forall hp hq hne).1 fun hdisjoint => hdisjoint hkp hkq

variable (hsub : txs ⊆ chain)
include hsub

theorem eq_of_writes (hclash : ¬ SpentInBlock hash256 address txs) (hp : p ∈ txs) (hq : q ∈ txs)
    (hwp : addressWrite hash256 address key p ≠ none)
    (hwq : addressWrite hash256 address key q ≠ none) (heq : p.1 = q.1) : p = q := by
  have hnot : ∀ {p q : ℤ × Transaction}, p ∈ txs → q ∈ txs → p.1 = q.1 →
      receivedUnder hash256 address key p ≠ none → key ∉ q.2.spentKeys := by
    intro p q hp hq heq hreceived hspent
    obtain ⟨output, hvout, haddress, rfl⟩ := receivedUnder_ne_none_iff.mp hreceived
    exact hclash ⟨p, hp, q, hq, heq, output, hvout, haddress, hspent⟩
  rw [addressWrite_ne_none_iff] at hwp hwq
  obtain hsp | hrp := hwp <;> obtain hsq | hrq := hwq
  · exact eq_of_nodup_flatMap h.spent (hsub hp) (hsub hq) hsp hsq
  · exact absurd hsp (hnot hq hp heq.symm hrq)
  · exact absurd hsq (hnot hp hq heq hrp)
  · exact eq_of_nodup_flatMap h.created (hsub hp) (hsub hq) (mem_createdKeys_of_receivedUnder hrp)
      (mem_createdKeys_of_receivedUnder hrq)

/-- Two sorted lists of the same transactions leave the same under an outpoint. -/
theorem run_eq_of_perm (hclash : ¬ SpentInBlock hash256 address txs) {a b : List (ℤ × Transaction)}
    (ha : a.Perm txs) (hb : b.Perm txs) (hsa : a.Pairwise fun p q => p.1 ≤ q.1)
    (hsb : b.Pairwise fun p q => p.1 ≤ q.1) (key : Key) (cell : Option IndexedUtxo) :
    LastWrite.run (addressWrite hash256 address key) a cell =
      LastWrite.run (addressWrite hash256 address key) b cell := by
  rw [← LastWrite.run_filter a, ← LastWrite.run_filter b]
  congr 1
  refine List.Perm.eq_of_pairwise (fun p q hp hq hpq hqp => ?_) (hsa.filter _) (hsb.filter _)
    ((ha.trans hb.symm).filter _)
  obtain ⟨hp, hwp⟩ := List.mem_filter.mp hp
  obtain ⟨hq, hwq⟩ := List.mem_filter.mp hq
  exact h.eq_of_writes hsub hclash (ha.subset hp) (hb.subset hq) (Option.isSome_iff_ne_none.mp hwp)
    (Option.isSome_iff_ne_none.mp hwq) (le_antisymm hpq hqp)

theorem run_eq_none (hclash : ¬ SpentInBlock hash256 address txs) {a : List (ℤ × Transaction)}
    (ha : a.Perm txs) (hsa : a.Pairwise fun p q => p.1 ≤ q.1) {q : ℤ × Transaction} (hq : q ∈ txs)
    (hkey : key ∈ q.2.spentKeys) (cell : Option IndexedUtxo) :
    LastWrite.run (addressWrite hash256 address key) a cell = none := by
  have hwq : addressWrite hash256 address key q ≠ none := addressWrite_ne_none_iff.mpr (.inl hkey)
  obtain ⟨hnone, -⟩ | ⟨before, e, after, v, rfl, hwrite, hafter, hrun⟩ :=
    @LastWrite.run_cases _ _ (addressWrite hash256 address key) a cell
  · exact absurd (hnone q (ha.symm.subset hq)) hwq
  · rw [hrun]
    have he : e ∈ txs := ha.subset (by simp)
    have hwe : addressWrite hash256 address key e ≠ none := by simp [hwrite]
    obtain hspent | hreceived := addressWrite_ne_none_iff.mp hwe
    · rw [addressWrite, if_pos hspent] at hwrite
      exact (Option.some.inj hwrite).symm
    · -- the spender is not after the last write, so it is no higher than what it spends
      exfalso
      have hcreated := mem_createdKeys_of_receivedUnder hreceived
      have hle : q.1 ≤ e.1 := by
        obtain hmem | hmem := List.mem_append.mp (ha.symm.subset hq)
        · exact (List.pairwise_append.mp hsa).2.2 q hmem e List.mem_cons_self
        · obtain rfl | hmem := List.mem_cons.mp hmem
          · exact le_rfl
          · exact absurd (hafter q hmem) hwq
      have hheight := le_antisymm hle (h.height_le (hsub he) (hsub hq) hcreated hkey)
      obtain rfl := h.eq_of_writes hsub hclash hq he hwq hwe hheight
      exact h.notOwn _ (hsub hq) hkey hcreated

/-- The creation moved to the end of the list is applied after the spend of its block. -/
theorem run_moved_ne_none {rest : List (ℤ × Transaction)} (hperm : (rest ++ [p]).Perm txs)
    (hq : q ∈ txs) (heq : p.1 = q.1) (hreceived : receivedUnder hash256 address key p ≠ none)
    (hkey : key ∈ q.2.spentKeys) (cell : Option IndexedUtxo) :
    LastWrite.run (addressWrite hash256 address key)
      ((rest ++ [p]).insertionSort fun a b => a.1 ≤ b.1) cell ≠ none := by
  have hp : p ∈ txs := hperm.subset (by simp)
  have hcreated := mem_createdKeys_of_receivedUnder hreceived
  have hown : key ∉ p.2.spentKeys := fun hspent => h.notOwn p (hsub hp) hspent hcreated
  set W := fun e => (addressWrite hash256 address key e).isSome with hW
  set moved := rest ++ [p] with hmoved
  set sorted := moved.insertionSort fun a b => a.1 ≤ b.1 with hsorted
  have hheight : ∀ e ∈ moved.filter W, e.1 = p.1 := by
    intro e he
    obtain ⟨he, hwe⟩ := List.mem_filter.mp he
    have hechain := hsub (hperm.subset he)
    obtain hspent | hreceived' := addressWrite_ne_none_iff.mp (Option.isSome_iff_ne_none.mp hwe)
    · rw [eq_of_nodup_flatMap h.spent hechain (hsub hq) hspent hkey, heq]
    · rw [eq_of_nodup_flatMap h.created hechain (hsub hp)
        (mem_createdKeys_of_receivedUnder hreceived') hcreated]
  -- the writers have one height, and the sort is stable
  have hpairwise : (moved.filter W).Pairwise fun a b => a.1 ≤ b.1 :=
    List.pairwise_iff_forall_sublist.mpr fun {a b} hab =>
      ((hheight a (hab.subset (by simp))).trans (hheight b (hab.subset (by simp))).symm).le
  have hfilter : moved.filter W = sorted.filter W := by
    have hsublist := (List.sublist_insertionSort hpairwise List.filter_sublist).filter W
    rw [List.filter_filter] at hsublist
    simp only [Bool.and_self] at hsublist
    exact hsublist.eq_of_length
      ((List.perm_insertionSort _ moved).filter W).length_eq.symm
  have hlast : moved.filter W = rest.filter W ++ [p] := by
    rw [hmoved, List.filter_append]
    congr 1
    exact List.filter_cons_of_pos
      (Option.isSome_iff_ne_none.mpr (addressWrite_ne_none_iff.mpr (.inr hreceived)))
  rw [← LastWrite.run_filter sorted, ← hfilter, hlast, LastWrite.run_append_singleton,
    addressWrite, if_neg hown]
  obtain ⟨utxo, hutxo⟩ := Option.ne_none_iff_exists'.mp hreceived
  simp [hutxo]

end ValidChain

/-- The explorer's order matters exactly if the list spends in a block what the block pays to the
address. -/
theorem applyAddressTransactions_orderIndependent_iff (hash256 : Bytes → Uint256) (address : String)
    (index : Index) (hindex : index.Coherent) (chain txs : List (ℤ × Transaction))
    (hchain : ValidChain chain) (hsub : txs ⊆ chain) :
    OrderIndependent hash256 address index txs ↔ ¬ SpentInBlock hash256 address txs := by
  have hfilter : ∀ txs : List (ℤ × Transaction), (txs.map some).filterMap id = txs := by
    intro txs
    rw [List.filterMap_map]
    exact List.filterMap_some
  have hsorted : ∀ txs : List (ℤ × Transaction),
      (txs.insertionSort fun a b => a.1 ≤ b.1).Pairwise fun a b => a.1 ≤ b.1 := fun txs =>
    haveI : Std.Total fun a b : ℤ × Transaction => a.1 ≤ b.1 := ⟨fun a b => le_total a.1 b.1⟩
    haveI : IsTrans (ℤ × Transaction) fun a b => a.1 ≤ b.1 := ⟨fun _ _ _ => le_trans⟩
    List.pairwise_insertionSort _ txs
  simp only [OrderIndependent, applyAddressTransactions, hfilter, lookup_applyAll]
  constructor
  · rintro h ⟨p, hp, q, hq, heq, output, hvout, haddress, hspent⟩
    obtain ⟨before, after, rfl⟩ := List.append_of_mem hp
    have hperm : (before ++ after ++ [p]).Perm (before ++ p :: after) :=
      (List.perm_append_singleton p _).trans List.perm_middle.symm
    exact hchain.run_moved_ne_none hsub hperm hq heq
      (receivedUnder_ne_none_iff.mpr ⟨output, hvout, haddress, rfl⟩) hspent _
      ((h _ hperm).2 q hq _ hspent)
  · intro hclash txs' hperm
    have ha := (List.perm_insertionSort (fun a b : ℤ × Transaction => a.1 ≤ b.1) txs').trans hperm
    have hb := List.perm_insertionSort (fun a b : ℤ × Transaction => a.1 ≤ b.1) txs
    refine ⟨Index.Coherent.same (hindex.applyAll _) (hindex.applyAll _) ?_ fun key => ?_,
      fun q hq key hkey => hchain.run_eq_none hsub hclash ha (hsorted _) hq hkey _⟩
    · rw [heights_applyAll, heights_applyAll]
      exact (ha.trans hb.symm).foldl_eq _
    · rw [lookup_applyAll, lookup_applyAll]
      exact hchain.run_eq_of_perm hsub hclash ha hb (hsorted _) (hsorted _) key _

/-- A coinbase that pays to the address. -/
def payment : Transaction := ⟨"t1", [none], [⟨0, 100, some ["X"], none⟩]⟩

/-- It spends the payment. -/
def onward : Transaction := ⟨"t2", [some ⟨"t1", 0⟩], [⟨0, 90, some ["Y"], none⟩]⟩

theorem applyAddressTransactions_orderIndependent_twoBlocks :
    OrderIndependent (fun _ => 0) "X" { indexedHeight := 0 } [(6, onward), (5, payment)] := by
  have hchain : ValidChain [(5, payment), (6, onward)] :=
    ⟨by decide, by decide, by simp [payment, onward, Transaction.spentKeys],
      by simp [payment, onward, Transaction.spentKeys, Transaction.createdKeys]⟩
  have hsub : [(6, onward), (5, payment)] ⊆ [((5 : ℤ), payment), (6, onward)] := by simp
  refine (applyAddressTransactions_orderIndependent_iff (fun _ => 0) "X" _ (Index.coherent_empty 0)
    _ _ hchain hsub).mpr ?_
  simp [SpentInBlock, payment, onward, Transaction.spentKeys]

/-- The explorer lists the spend before the payment of the same block: the spent output stays. -/
theorem applyAddressTransactions_spendFirst :
    ValidChain [(5, payment), (5, onward)] ∧
    ¬ OrderIndependent (fun _ => 0) "X" { indexedHeight := 0 } [(5, onward), (5, payment)] := by
  refine ⟨⟨by decide, by decide, by simp [payment, onward, Transaction.spentKeys],
    by simp [payment, onward, Transaction.spentKeys, Transaction.createdKeys]⟩, fun h => ?_⟩
  have hnone := (h _ (List.Perm.refl _)).2 (5, onward) (by simp) ⟨"t1", 0⟩ (by decide)
  exact absurd hnone (by decide)

end

end Server

end X2XCoin
