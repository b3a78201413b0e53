import X2XCoin.Node.Run

/-!
# The active chain is a path of the tree
-/

namespace X2XCoin

namespace Tree

variable {t : Tree} {genesis hash : Uint256} {v : TreeNode}

/-- The hashes on the way from an entry to the root. -/
def chain (t : Tree) (hash : Uint256) : List Uint256 := (t.path hash).map TreeNode.hash

section

variable (ht : t.WellFormed genesis) (hv : t hash = some v)
include ht hv

theorem WellFormed.height_child {prev : Uint256} {v' : TreeNode} (hp : v.pprev = some prev)
    (hv' : t prev = some v') : v.nHeight = v'.nHeight + 1 := by
  obtain ⟨w, hw, hheight⟩ := ht.linked.parent_some hv hp
  rwa [Option.some.inj (hw.symm.trans hv')] at hheight

theorem WellFormed.chain_root (hp : v.pprev = none) : t.chain hash = [hash] := by
  rw [chain, path, ht.linked.path_root hv hp, List.map_singleton, ht.hash_eq hv]

theorem WellFormed.chain_child {prev : Uint256} (hp : v.pprev = some prev) :
    t.chain hash = hash :: t.chain prev := by
  rw [chain, path, ht.linked.path_child hv hp, List.map_cons, ht.hash_eq hv]
  rfl

theorem WellFormed.chain_head : (t.chain hash).head? = some hash := by
  cases hp : v.pprev with
  | none => rw [ht.chain_root hv hp, List.head?_singleton]
  | some prev => rw [ht.chain_child hv hp, List.head?_cons]

theorem WellFormed.chain_getLast : (t.chain hash).getLast? = some genesis := by
  refine ht.linked.induction (P := fun h _ => (t.chain h).getLast? = some genesis) ?_ ?_ hv
  · intro h v hv hp
    rw [ht.chain_root hv hp, List.getLast?_singleton, ht.root hv hp]
  · intro h v prev v' hv hp _ ih
    rw [ht.chain_child hv hp, List.getLast?_cons, ih, Option.getD_some]

/-- The nodes of a path are nodes of the tree that are not higher. -/
theorem WellFormed.of_mem_path {w : TreeNode} (hw : w ∈ t.path hash) :
    t w.hash = some w ∧ w.nHeight ≤ v.nHeight := by
  refine ht.linked.induction (P := fun h v => ∀ w ∈ t.path h, t w.hash = some w ∧
    w.nHeight ≤ v.nHeight) ?_ ?_ hv w hw
  · intro h v hv hp w hw
    rw [path, ht.linked.path_root hv hp, List.mem_singleton] at hw
    subst hw
    exact ⟨by rw [ht.hash_eq hv, hv], le_rfl⟩
  · intro h v prev v' hv hp hv' ih w hw
    rw [path, ht.linked.path_child hv hp, List.mem_cons] at hw
    obtain rfl | hw := hw
    · exact ⟨by rw [ht.hash_eq hv, hv], le_rfl⟩
    · have hheight := ht.height_child hv hp hv'
      have := ih w hw
      exact ⟨this.1, by omega⟩

theorem WellFormed.eq_of_height {w w' : TreeNode} (hw : w ∈ t.path hash) (hw' : w' ∈ t.path hash)
    (h : w.nHeight = w'.nHeight) : w = w' := by
  revert hw hw'
  refine ht.linked.induction (P := fun h _ => w ∈ t.path h → w' ∈ t.path h → w = w') ?_ ?_ hv
  · intro h v hv hp hw hw'
    rw [path, ht.linked.path_root hv hp, List.mem_singleton] at hw hw'
    rw [hw, hw']
  · intro h v prev v' hv hp hv' ih hw hw'
    have hheight := ht.height_child hv hp hv'
    rw [path, ht.linked.path_child hv hp, List.mem_cons] at hw hw'
    obtain rfl | hw := hw <;> obtain rfl | hw' := hw'
    · rfl
    · have := (ht.of_mem_path hv' hw').2
      omega
    · have := (ht.of_mem_path hv' hw).2
      omega
    · exact ih hw hw'

theorem WellFormed.chain_nodup : (t.chain hash).Nodup := by
  refine ht.linked.induction (P := fun h _ => (t.chain h).Nodup) ?_ ?_ hv
  · intro h v hv hp
    rw [ht.chain_root hv hp]
    exact List.nodup_singleton h
  · intro h v prev v' hv hp hv' ih
    rw [ht.chain_child hv hp, List.nodup_cons]
    refine ⟨fun hmem => ?_, ih⟩
    obtain ⟨w, hw, rfl⟩ := List.mem_map.mp hmem
    obtain ⟨hw', hle⟩ := ht.of_mem_path hv' hw
    obtain rfl : v = w := Option.some.inj (hv.symm.trans hw')
    have hheight := ht.height_child hv hp hv'
    omega

theorem WellFormed.mem_chain_self : hash ∈ t.chain hash :=
  List.mem_of_mem_head? (ht.chain_head hv)

/-- The rest of a chain is the chain of the entry it starts with. -/
theorem WellFormed.chain_suffix {above below : List Uint256} {a : Uint256}
    (h : t.chain hash = above ++ a :: below) : t.chain a = a :: below := by
  revert above
  refine ht.linked.induction (P := fun h _ => ∀ {above}, t.chain h = above ++ a :: below →
    t.chain a = a :: below) ?_ ?_ hv
  · intro h v hv hp above heq
    rw [ht.chain_root hv hp, eq_comm, List.append_eq_singleton_iff] at heq
    obtain ⟨-, heq⟩ | ⟨-, heq⟩ := heq
    · obtain ⟨rfl, rfl⟩ := List.cons.inj heq
      exact ht.chain_root hv hp
    · cases heq
  · intro h v prev v' hv hp hv' ih above heq
    cases above with
    | nil =>
      rw [List.nil_append] at heq
      obtain rfl : h = a := by
        rw [ht.chain_child hv hp] at heq
        exact (List.cons.inj heq).1
      exact heq
    | cons b above =>
      rw [ht.chain_child hv hp] at heq
      exact ih (List.cons.inj heq).2

theorem WellFormed.chain_subset {a : Uint256} (ha : a ∈ t.chain hash) :
    t.chain a ⊆ t.chain hash := by
  obtain ⟨above, below, heq⟩ := List.append_of_mem ha
  rw [ht.chain_suffix hv heq, heq]
  exact List.subset_append_right _ _

theorem WellFormed.path_eq_append :
    ∃ l w, t.path hash = l ++ [w] ∧ w.hash = genesis ∧ w.nHeight = 0 := by
  refine ht.linked.induction (P := fun h _ => ∃ l w, t.path h = l ++ [w] ∧ w.hash = genesis ∧
    w.nHeight = 0) ?_ ?_ hv
  · intro h v hv hp
    refine ⟨[], v, ?_, (ht.hash_eq hv).trans (ht.root hv hp), ht.linked.parent_none hv hp⟩
    rw [path, ht.linked.path_root hv hp]
    rfl
  · rintro h v prev - hv hp - ⟨l, w, heq, hw⟩
    refine ⟨v :: l, w, ?_, hw⟩
    rw [path, ht.linked.path_child hv hp, ← path, heq]
    rfl

end

end Tree

namespace Chainstate

/-- The entries form a tree and the active chain is a path of it. -/
structure Coherent (genesis : Uint256) (s : Chainstate) : Prop where
  tree : s.tree.WellFormed genesis
  active : ∃ tip v, s.tree tip = some v ∧ s.chainActive = s.tree.chain tip

variable {crypto : Crypto} {keys : PubKeys} {p : Params} {files : BlockFiles} {pblock : Option CBlock}
  {s s' : Chainstate} {genesis hash : Uint256}

theorem Coherent.congr (hs : s.Coherent genesis) (ht : s'.tree = s.tree)
    (hc : s'.chainActive = s.chainActive) : s'.Coherent genesis := by
  obtain ⟨tree, active⟩ := hs
  rw [← hc, ← ht] at active
  exact ⟨ht ▸ tree, active⟩

theorem Coherent.hash_eq (hs : s.Coherent genesis) {e : IndexEntry} (he : s.lookup hash = some e) :
    e.hash = hash :=
  hs.tree.hash_eq (tree_of_lookup he)

theorem map_hash_path : (s.path hash).map CBlockIndex.hash = s.tree.chain hash :=
  s.mapBlockIndex.map_path hash fun _ => rfl

variable {v : TreeNode} {i : CBlockIndex}

theorem Coherent.lookup_of_mem_path (hs : s.Coherent genesis) (hi : i ∈ s.path hash) :
    ∃ e, s.lookup i.hash = some e ∧ e.toCBlockIndex = i := by
  obtain ⟨e, he, rfl⟩ := List.mem_map.mp hi
  obtain ⟨h, hh⟩ := ParentMap.exists_get_of_mem_path he
  exact ⟨e, by rw [hs.hash_eq hh]; exact hh, rfl⟩

theorem Coherent.setTip (hs : s.Coherent genesis) {e : IndexEntry} (he : s.lookup hash = some e) :
    (s.setTip hash).Coherent genesis :=
  ⟨hs.tree, hash, e.treeNode, tree_of_lookup he, chainActive_setTip⟩

theorem Coherent.tip (hs : s.Coherent genesis) :
    ∃ tip e, s.lookup tip = some e ∧ s.tip = some e ∧ s.chainActive = s.tree.chain tip := by
  obtain ⟨tip, v, hv, hchain⟩ := hs.active
  obtain ⟨e, he, rfl⟩ := tree_eq_some.mp hv
  refine ⟨tip, e, he, ?_, hchain⟩
  rw [Chainstate.tip, hchain, hs.tree.chain_head hv]
  exact he

/-- A new header is a leaf, so the paths that were there stay. -/
theorem Coherent.add (hs : s.Coherent genesis) {prev : Uint256} {nBits : UInt32}
    (hnew : s.tree hash = none) (hv : s.tree prev = some v)
    (htree : s'.tree = s.tree.add v prev hash nBits) (hchain : s'.chainActive = s.chainActive) :
    s'.Coherent genesis := by
  obtain ⟨tip, w, hw, hactive⟩ := hs.active
  constructor
  · rw [htree]
    exact hs.tree.add hnew hv
  · rw [htree, hchain, hactive]
    refine ⟨tip, w, Tree.add_of_some hnew hw, ?_⟩
    rw [Tree.chain, Tree.chain, hs.tree.path_add hnew hv hw]

theorem Coherent.genesis_isSome (hs : s.Coherent genesis) : (s.lookup genesis).isSome := by
  obtain ⟨v, hv⟩ := hs.tree.genesis_mem
  obtain ⟨e, he, -⟩ := tree_eq_some.mp hv
  exact Option.isSome_iff_exists.mpr ⟨e, he⟩

theorem Coherent.acceptBlockHeader (hs : s.Coherent p.hashGenesisBlock) {nAdjustedTime : ℤ}
    {block : CBlockHeader} {fProofOfStake : Bool}
    (h : s.acceptBlockHeader crypto p nAdjustedTime block fProofOfStake = .ok s') :
    s'.Coherent p.hashGenesisBlock := by
  have hchain := acceptBlockHeader_chainActive h
  obtain ⟨-, htree⟩ | ⟨hnew, v, hv, htree⟩ := acceptBlockHeader_tree hs.genesis_isSome h
  · exact hs.congr htree hchain
  · exact hs.add (BlockMap.tree_eq_none.mpr hnew) hv htree hchain

/-! ## Moving the tip -/

theorem Coherent.disconnectTip (hs : s.Coherent genesis)
    (h : s.disconnectTip crypto keys p files = .ok s') :
    s'.Coherent genesis ∧ ∃ tip, s.chainActive = tip :: s'.chainActive := by
  obtain ⟨e, prev, pprev, view, htip, hp, hprev, rfl⟩ := disconnectTip_ok h
  obtain ⟨tip, e', he, htip', hchain⟩ := hs.tip
  obtain rfl : e = e' := Option.some.inj (htip.symm.trans htip')
  rw [hs.hash_eq hprev]
  have hs' : ({ s with pcoinsTip := view } : Chainstate).Coherent genesis := hs.congr rfl rfl
  refine ⟨hs'.setTip hprev, tip, ?_⟩
  rw [hchain, hs.tree.chain_child (tree_of_lookup he) hp, chainActive_setTip]
  rfl

@[simp] theorem chainActive_invalidBlockFound {f : Failure} :
    (s.invalidBlockFound hash f).chainActive = s.chainActive := by
  rw [invalidBlockFound]
  split_ifs
  · exact chainActive_condemn
  · rfl

@[simp] theorem chainActive_setModifier {pindex : IndexEntry} {block : CBlock} :
    (s.setModifier crypto p pindex block).chainActive = s.chainActive := by
  simp only [setModifier]
  split_ifs <;> rfl

theorem lookup_invalidBlockFound_ne {f : Failure} {h : Uint256} (hne : h ≠ hash) :
    (s.invalidBlockFound hash f).lookup h = s.lookup h := by
  rw [invalidBlockFound, condemn]
  split_ifs
  · exact lookup_modify_ne hne
  · rfl

theorem lookup_setModifier_ne {pindex : IndexEntry} {block : CBlock} {h : Uint256}
    (hne : h ≠ pindex.hash) : (s.setModifier crypto p pindex block).lookup h = s.lookup h := by
  simp only [setModifier]
  split_ifs
  · exact lookup_modify_ne hne
  · rfl

theorem Coherent.connectTip (hs : s.Coherent genesis) {pindexNew : IndexEntry}
    (he : s.lookup hash = some pindexNew) :
    (s.connectTip crypto keys p files pblock pindexNew).1.Coherent genesis := by
  rw [Chainstate.connectTip]
  split_ifs
  · exact hs
  · split
    · exact hs
    · split
      · exact hs.congr (tree_invalidBlockFound.trans tree_setModifier)
          (chainActive_invalidBlockFound.trans chainActive_setModifier)
      · next r _ =>
        have htree := @tree_connected crypto keys s pindexNew r
        refine ⟨by rw [htree]; exact hs.tree, hash, pindexNew.treeNode, ?_, ?_⟩
        · rw [htree]
          exact tree_of_lookup he
        · rw [← hs.hash_eq he]
          exact chainActive_setTip

/-! ## Choosing a chain -/

@[simp] theorem chainActive_dropChain (fFailedChain : Bool) (above : List CBlockIndex) :
    (s.dropChain fFailedChain above).chainActive = s.chainActive := by
  induction above generalizing s with
  | nil => rfl
  | cons i above ih =>
    rw [dropChain, List.foldl_cons, ← dropChain, ih]
    show Chainstate.chainActive (ite _ _ _) = _
    split_ifs
    · rfl
    · split <;> rfl

theorem bestCandidate_mem (h : s.bestCandidate = some i) :
    ∃ hash e, hash ∈ s.setBlockIndexCandidates ∧ s.lookup hash = some e ∧ e.toCBlockIndex = i := by
  rw [bestCandidate] at h
  set candidates := s.setBlockIndexCandidates.filterMap s.lookup
  have hmem : ∃ e ∈ candidates, e.toCBlockIndex = i := by
    refine List.foldlRecOn
      (motive := fun best => best = some i → ∃ e ∈ candidates, e.toCBlockIndex = i) _ _
      (fun h => by cases h) (fun best ih e he h => ?_) h
    cases best with
    | none => exact ⟨e, he, Option.some.inj h⟩
    | some b =>
      simp only at h
      split_ifs at h
      · exact ⟨e, he, Option.some.inj h⟩
      · exact ih h
  obtain ⟨e, he, rfl⟩ := hmem
  obtain ⟨hash, hcandidate, hlook⟩ := List.mem_filterMap.mp he
  exact ⟨hash, e, hcandidate, hlook, rfl⟩

/-- `FindMostWorkChain` leaves the active chain and finds an entry of the tree. -/
theorem Coherent.findMostWorkChain (hs : s.Coherent genesis) {n : ℕ} {w : Option Uint256}
    (h : s.findMostWorkChain n = .ok (s', w)) :
    s'.chainActive = s.chainActive ∧ ∀ hash, w = some hash → ∃ v, s.tree hash = some v := by
  induction n generalizing s with
  | zero =>
    obtain ⟨rfl, rfl⟩ := Prod.mk.inj (check_pure_eq_ok.mp h)
    exact ⟨rfl, nofun⟩
  | succ n ih =>
    rw [Chainstate.findMostWorkChain] at h
    split at h
    · obtain ⟨rfl, rfl⟩ := Prod.mk.inj (check_pure_eq_ok.mp h)
      exact ⟨rfl, nofun⟩
    · next i hi =>
      rw [check_bind_eq_ok] at h
      obtain ⟨-, -, h⟩ := h
      split at h
      · obtain ⟨rfl, rfl⟩ := Prod.mk.inj (check_pure_eq_ok.mp h)
        refine ⟨rfl, ?_⟩
        rintro _ ⟨⟩
        obtain ⟨hash, e, -, he, rfl⟩ := bestCandidate_mem hi
        rw [hs.hash_eq he]
        exact ⟨_, tree_of_lookup he⟩
      · -- The next turn starts with some candidates gone.
        have hdrop := fun fFailedChain above hash =>
          @Coherent.congr s ((s.dropChain fFailedChain above).eraseCandidate hash) genesis hs
            (tree_dropChain _ _) (chainActive_dropChain _ _)
        obtain ⟨hc, hw⟩ := ih (hdrop _ _ _) h
        refine ⟨hc.trans (chainActive_dropChain _ _), fun hash hhash => ?_⟩
        have hv := hw hash hhash
        rwa [tree_eraseCandidate, tree_dropChain] at hv

theorem Coherent.target (hs : s.Coherent genesis) {w w' : Option Uint256}
    (hw : ∀ hash, w = some hash → ∃ v, s.tree hash = some v) (h : s.target w = .ok (s', w')) :
    s'.Coherent genesis ∧ s'.chainActive = s.chainActive ∧
      ∀ hash, w' = some hash → ∃ v, s'.tree hash = some v := by
  have htree := target_tree h
  cases w with
  | some hash =>
    obtain ⟨rfl, rfl⟩ := Prod.mk.inj (check_pure_eq_ok.mp h)
    exact ⟨hs, rfl, hw⟩
  | none =>
    obtain ⟨hc, hw'⟩ := hs.findMostWorkChain h
    rw [htree]
    exact ⟨hs.congr htree hc, hc, hw'⟩

/-! ## The fork -/

theorem mem_path_of_tree (hv : v ∈ s.tree.path hash) :
    ∃ i ∈ s.path hash, i.hash = v.hash ∧ i.nHeight = v.nHeight := by
  rw [Chainstate.tree, BlockMap.path_map_treeNode, List.mem_map] at hv
  obtain ⟨e, he, rfl⟩ := hv
  exact ⟨e.toCBlockIndex, List.mem_map_of_mem he, rfl, rfl⟩

theorem tree_of_mem_path (hi : i ∈ s.path hash) :
    ∃ v ∈ s.tree.path hash, v.hash = i.hash ∧ v.nHeight = i.nHeight := by
  obtain ⟨e, he, rfl⟩ := List.mem_map.mp hi
  refine ⟨e.treeNode, ?_, rfl, rfl⟩
  rw [Chainstate.tree, BlockMap.path_map_treeNode]
  exact List.mem_map_of_mem he

/-- `GetAncestor` finds an entry at its own height exactly on the paths it is on. -/
theorem Coherent.getAncestor_iff (hs : s.Coherent genesis) (hv : s.tree hash = some v) (h : Uint256)
    : (getAncestor (s.path h) v.nHeight).map CBlockIndex.hash = some hash ↔
      hash ∈ s.tree.chain h := by
  rw [Option.map_eq_some_iff]
  constructor
  · rintro ⟨i, hi, rfl⟩
    rw [← map_hash_path]
    exact List.mem_map_of_mem (List.mem_of_find?_eq_some hi)
  · intro hmem
    obtain ⟨w, hw, hhash⟩ := List.mem_map.mp hmem
    obtain ⟨u, hu⟩ : ∃ u, s.tree h = some u := by
      cases hu : s.tree h with
      | some u => exact ⟨u, rfl⟩
      | none =>
        rw [Tree.path, ParentMap.path_eq_nil hu] at hw
        cases hw
    obtain rfl : w = v := by
      have hw' := (hs.tree.of_mem_path hu hw).1
      rw [hhash] at hw'
      exact Option.some.inj (hw'.symm.trans hv)
    obtain ⟨i, hi, -, hheight⟩ := mem_path_of_tree hw
    have hsome : (getAncestor (s.path h) w.nHeight).isSome := by
      rw [getAncestor, List.find?_isSome]
      exact ⟨i, hi, by rw [hheight]; exact decide_eq_true rfl⟩
    obtain ⟨j, hj⟩ := Option.isSome_iff_exists.mp hsome
    refine ⟨j, hj, ?_⟩
    obtain ⟨w', hw', hhash', hheight'⟩ := tree_of_mem_path (List.mem_of_find?_eq_some hj)
    have hj' : (j.nHeight : ℤ) = w.nHeight := by simpa using List.find?_some hj
    rw [← hhash', hs.tree.eq_of_height hu hw' hw (by omega), hhash]

/-- The active chain and the chain of an entry fork at a block of the active chain. -/
theorem Coherent.findFork (hs : s.Coherent genesis) (hv : s.tree hash = some v) :
    ∃ fork above below, s.findFork hash = some fork ∧
      s.chainActive = above ++ fork.hash :: below ∧ below.length = fork.nHeight ∧
      fork.hash ∉ above := by
  obtain ⟨tip, vtip, hvtip, hchain⟩ := hs.active
  obtain ⟨l, w, hpath, hw, hheight⟩ := hs.tree.path_eq_append hv
  obtain ⟨l', w', hpath', hw', -⟩ := hs.tree.path_eq_append hvtip
  have hsome : (s.findFork hash).isSome := by
    obtain ⟨i, hi, hhash, hi0⟩ := @mem_path_of_tree s hash w
      (by rw [hpath]; exact List.mem_append_right l List.mem_cons_self)
    rw [Chainstate.findFork, List.find?_isSome]
    refine ⟨i, hi, ?_⟩
    rw [contains, hchain, Tree.chain, hpath', hhash, hw, hi0, hheight]
    simp [hw']
  obtain ⟨fork, hfork⟩ := Option.isSome_iff_exists.mp hsome
  have hcontains : s.chainActive.reverse[fork.nHeight]? = some fork.hash := by
    simpa [contains] using List.find?_some hfork
  obtain ⟨hlt, hget⟩ := List.getElem?_eq_some_iff.mp hcontains
  rw [List.length_reverse] at hlt
  rw [List.getElem_reverse] at hget
  have hsplit := List.take_append_drop (s.chainActive.length - 1 - fork.nHeight) s.chainActive
  rw [List.drop_eq_getElem_cons (by omega), hget] at hsplit
  refine ⟨fork, _, _, hfork, hsplit.symm, by rw [List.length_drop]; omega, fun hmem => ?_⟩
  have hnodup : s.chainActive.Nodup := by
    rw [hchain]
    exact hs.tree.chain_nodup hvtip
  rw [← hsplit] at hnodup
  exact (List.nodup_append.mp hnodup).2.2 _ hmem _ List.mem_cons_self rfl

/-! ## One turn -/

theorem turnInvariant_coherent (genesis : Uint256) :
    TurnInvariant crypto keys p files (Coherent genesis) where
  disconnect hs h := (hs.disconnectTip h).1
  connect _ hs he := hs.connectTip he
  prune hs h := by
    simp only [pruneBlockIndexCandidates, check_bind_eq_ok, check_pure_eq_ok] at h
    obtain ⟨-, -, rfl⟩ := h
    exact hs.congr rfl rfl
  drop hs _ _ _ := hs.congr (tree_dropChain _ _) (chainActive_dropChain _ _)

/-- At most the blocks above the fork are disconnected, and exactly these if no `DisconnectTip`
fails. -/
theorem Coherent.disconnectTo_fork (hs : s.Coherent genesis) {fork : Uint256}
    {above below : List Uint256} (hchain : s.chainActive = above ++ fork :: below) (n : ℕ) :
    let d := Chainstate.disconnectTo (Chainstate.disconnectTip crypto keys p files) (some fork) n s
    d.1 ≤ above.length ∧
      (fork ∉ above → above.length ≤ n → d.2.2 = .ok () →
        d.1 = above.length ∧ d.2.1.chainActive = fork :: below) := by
  intro d
  induction n generalizing s above with
  | zero =>
    refine ⟨Nat.zero_le _, fun _ hn _ => ?_⟩
    obtain rfl := List.eq_nil_of_length_eq_zero (Nat.le_zero.mp hn)
    exact ⟨rfl, hchain⟩
  | succ n ih =>
    simp only [d, Chainstate.disconnectTo]
    split_ifs with hstop
    · refine ⟨Nat.zero_le _, fun hfork _ _ => ?_⟩
      cases above with
      | nil => exact ⟨rfl, hchain⟩
      | cons a above =>
        rw [hchain] at hstop
        obtain hnone | hhead := hstop
        · cases hnone
        · exact absurd (Option.some.inj hhead ▸ List.mem_cons_self) hfork
    · cases hdis : s.disconnectTip crypto keys p files with
      | error f => exact ⟨Nat.zero_le _, fun _ _ h => by cases h⟩
      | ok s₁ =>
        obtain ⟨hs₁, tip, htip⟩ := hs.disconnectTip hdis
        cases above with
        | nil =>
          rw [hchain] at hstop
          exact absurd (.inr rfl) hstop
        | cons a above =>
          obtain ⟨-, hchain₁⟩ := List.cons.inj (htip.symm.trans hchain)
          obtain ⟨hle, heq⟩ := ih hs₁ hchain₁
          refine ⟨Nat.succ_le_succ hle, fun hfork hn hok => ?_⟩
          obtain ⟨hcount, hrest⟩ := heq (fun hmem => hfork (List.mem_cons_of_mem a hmem))
            (Nat.le_of_succ_le_succ hn) hok
          exact ⟨congrArg (· + 1) hcount, hrest⟩

/-- A turn keeps the invariant, and what it goes on with is in the tree. -/
theorem Coherent.activateTurn (hs : s.Coherent genesis) {w : Option Uint256}
    (hw : ∀ hash, w = some hash → ∃ v, s.tree hash = some v) :
    (s.activateTurn crypto keys p files pblock w).state.Coherent genesis ∧
      ∀ hash, (s.activateTurn crypto keys p files pblock w).pindexMostWork = some hash →
        ∃ v, s.tree hash = some v := by
  refine ⟨(turnInvariant_coherent genesis).activateTurn hs w, ?_⟩
  rw [Chainstate.activateTurn]
  split
  · rintro _ ⟨⟩
  · rintro _ ⟨⟩
  · next s₁ hash htarget =>
    obtain ⟨-, -, hmem⟩ := hs.target hw htarget
    rw [target_tree htarget] at hmem
    split_ifs
    · rintro _ ⟨⟩
    · simp only
      split
      · rintro _ ⟨⟩
      · split_ifs
        · rintro _ ⟨⟩
        · rintro _ ⟨⟩
        · rintro _ ⟨⟩
          exact hmem hash rfl

end Chainstate

namespace Running

variable {crypto : Crypto} {keys : PubKeys} {p : Params} {r : Running} {genesis : CBlock}

structure Coherent (p : Params) (r : Running) : Prop where
  state : r.toChainstate.Coherent p.hashGenesisBlock
  mostWork : ∀ thread hash, r.pindexMostWork thread = some hash → ∃ v, r.tree hash = some v

theorem chainActive_step {op : NodeOp} (hop : ∀ thread pblock, op ≠ .activate thread pblock) :
    (r.step crypto keys p op).chainActive = r.chainActive ∧
      (r.step crypto keys p op).pindexMostWork = r.pindexMostWork := by
  cases op with
  | header nAdjustedTime block =>
    simp only [step]
    split
    · exact ⟨rfl, rfl⟩
    · next hacc => exact ⟨Chainstate.acceptBlockHeader_chainActive hacc, rfl⟩
  | block nAdjustedTime block fRequested => exact ⟨Node.chainActive_acceptBlock fRequested, rfl⟩
  | activate thread pblock => exact absurd rfl (hop thread pblock)

theorem start_coherent : (start p genesis).Coherent p where
  state :=
    ⟨start_wellFormed, p.hashGenesisBlock, _, (congrFun tree_start _).trans (Function.update_self ..),
      (start_wellFormed.chain_root ((congrFun tree_start _).trans (Function.update_self ..)) rfl).symm⟩
  mostWork := nofun

theorem step_coherent (hr : r.Coherent p) (op : NodeOp) : (r.step crypto keys p op).Coherent p := by
  by_cases hop : ∃ thread pblock, op = .activate thread pblock
  · obtain ⟨thread, pblock, rfl⟩ := hop
    obtain ⟨hstate, hmost⟩ := @Chainstate.Coherent.activateTurn crypto keys p r.blockFiles pblock
      r.toChainstate p.hashGenesisBlock hr.state (r.pindexMostWork thread) (hr.mostWork thread)
    refine ⟨hstate, fun thread' hash h => ?_⟩
    have htree : (r.step crypto keys p (.activate thread pblock)).tree = r.tree :=
      Chainstate.tree_activateTurn
    rw [htree]
    simp only [step] at h
    by_cases heq : thread' = thread
    · subst heq
      rw [Function.update_self] at h
      exact hmost hash h
    · rw [Function.update_of_ne heq] at h
      exact hr.mostWork thread' hash h
  · simp only [not_exists] at hop
    obtain ⟨hchain, hmost⟩ := @chainActive_step crypto keys p r op hop
    have ht := hr.state.tree
    obtain ⟨-, htree⟩ | ⟨block, pprev, hnew, htree⟩ := tree_step_cases ht op
    · exact ⟨hr.state.congr htree hchain, by rw [htree, hmost]; exact hr.mostWork⟩
    · have hnone : r.tree (block.getHash crypto) = none := BlockMap.tree_eq_none.mpr hnew.unknown
      have hv := Chainstate.tree_of_lookup hnew.parent
      refine ⟨hr.state.add hnone hv htree hchain, fun thread hash h => ?_⟩
      rw [hmost] at h
      obtain ⟨w, hw⟩ := hr.mostWork thread hash h
      rw [htree]
      exact ⟨w, Tree.add_of_some hnone hw⟩

theorem run_coherent (ops : List NodeOp) :
    (ops.foldl (step crypto keys p) (start p genesis)).Coherent p := by
  induction ops using List.reverseRecOn with
  | nil => exact start_coherent
  | append_singleton ops op ih =>
    rw [List.foldl_append]
    exact step_coherent ih op

end Running

end X2XCoin
