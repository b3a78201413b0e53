import X2XCoin.Coins.Cache
import X2XCoin.Lib.Run

/-!
# A stack of caches is one flat map

The flags of `coins.h` are read as a coherence condition between a cache and what the view below it
shows.  `ModifyNewCoins` marks an entry fresh without looking there, so a caller that creates a
transaction again after spending it in the same cache can make the old outputs reappear.
-/

namespace X2XCoin

theorem outputsOf_eq_none {coins : Option CCoins} (h : coins.all CCoins.isPruned = true) (n : ℕ) :
    outputsOf coins n = none := by
  cases coins with
  | none => rfl
  | some c => exact CCoins.isPruned_iff.mp h n

/-! ## One cache -/

/-- The flags of an entry agree with the outputs that the view below shows. -/
structure CCoinsCacheEntry.Coherent (entry : CCoinsCacheEntry) (below : ℕ → Option CTxOut) :
    Prop where
  fresh : entry.fresh = true → ∀ n, below n = none
  clean : entry.dirty = false → entry.coins.output = below

namespace CacheLayer

/-- What a cache shows over a view that shows `below`. -/
def outputs (layer : CacheLayer) (below : Outputs) : Outputs := fun txid =>
  (layer.cacheCoins.lookup txid).elim (below txid) fun entry => entry.coins.output

def Coherent (layer : CacheLayer) (below : Outputs) : Prop :=
  ∀ txid entry, layer.cacheCoins.lookup txid = some entry → entry.Coherent (below txid)

variable {layer : CacheLayer} {below : Outputs} {txid : Uint256} {entry : CCoinsCacheEntry}

theorem outputs_of_lookup (h : layer.cacheCoins.lookup txid = some entry) :
    layer.outputs below txid = entry.coins.output := by
  simp [outputs, h]

theorem outputs_of_lookup_none (h : layer.cacheCoins.lookup txid = none) :
    layer.outputs below txid = below txid := by
  simp [outputs, h]

theorem outputs_insert :
    outputs { layer with cacheCoins := layer.cacheCoins.insert txid entry } below =
      Function.update (layer.outputs below) txid entry.coins.output := by
  funext txid'
  by_cases h : txid' = txid
  · subst h
    simp [outputs]
  · simp [outputs, h]

theorem outputs_erase :
    outputs { layer with cacheCoins := layer.cacheCoins.erase txid } below =
      Function.update (layer.outputs below) txid (below txid) := by
  funext txid'
  by_cases h : txid' = txid
  · subst h
    simp [outputs]
  · simp [outputs, h]

theorem Coherent.insert (h : layer.Coherent below) (he : entry.Coherent (below txid)) :
    Coherent { layer with cacheCoins := layer.cacheCoins.insert txid entry } below := by
  intro txid' entry' hlookup
  by_cases heq : txid' = txid
  · subst heq
    rw [AList.lookup_insert, Option.some.injEq] at hlookup
    exact hlookup ▸ he
  · rw [AList.lookup_insert_ne heq] at hlookup
    exact h txid' entry' hlookup

theorem Coherent.erase (h : layer.Coherent below) :
    Coherent { layer with cacheCoins := layer.cacheCoins.erase txid } below := by
  intro txid' entry' hlookup
  by_cases heq : txid' = txid
  · subst heq
    simp at hlookup
  · rw [AList.lookup_erase_ne heq] at hlookup
    exact h txid' entry' hlookup

/-- A fresh entry that is pruned may be dropped: nothing is below it. -/
theorem output_eq_below (hfresh : ∀ n, below txid n = none) {coins : CCoins}
    (hpruned : coins.isPruned = true) : below txid = coins.output := by
  funext n
  rw [hfresh n, CCoins.isPruned_iff.mp hpruned n]

theorem modify_spec (h : layer.Coherent below) (hdirty : entry.dirty = true)
    (hfresh : entry.fresh = true → ∀ n, below txid n = none) (f : CCoins → CCoins) :
    (layer.modify txid entry f).Coherent below ∧
      (layer.modify txid entry f).outputs below =
        Function.update (layer.outputs below) txid (f entry.coins).output := by
  have hcleanup : (f entry.coins).cleanup.output = (f entry.coins).output :=
    funext fun n => CCoins.output_cleanup _ n
  unfold modify
  simp only
  split_ifs with hdrop
  · rw [Bool.and_eq_true] at hdrop
    refine ⟨h.erase, ?_⟩
    rw [outputs_erase, output_eq_below (hfresh hdrop.1) hdrop.2, hcleanup]
  · refine ⟨h.insert ⟨hfresh, fun hclean => ?_⟩, ?_⟩
    · simp [hdirty] at hclean
    · rw [outputs_insert, hcleanup]

/-- A fresh entry that ends pruned is dropped and lets the view below show through. -/
theorem outputs_modify_of_drop {f : CCoins → CCoins} (hfresh : entry.fresh = true)
    (hpruned : (f entry.coins).cleanup.isPruned = true) :
    (layer.modify txid entry f).outputs below txid = below txid := by
  unfold modify
  simp only [hfresh, hpruned, Bool.and_self, if_true]
  rw [outputs_erase, Function.update_self]

variable {σ : Type}

/-- A read answers with what the cache shows and leaves what it shows alone. -/
theorem fetchCoins_spec (layer : CacheLayer) (lower : σ) {getBelow : Option CCoins × σ}
    (hbelow : outputsOf getBelow.1 = below txid) :
    outputsOf (layer.fetchCoins lower txid getBelow).1 = layer.outputs below txid ∧
      (layer.fetchCoins lower txid getBelow).2.1.outputs below = layer.outputs below ∧
      (layer.Coherent below → (layer.fetchCoins lower txid getBelow).2.1.Coherent below) := by
  unfold fetchCoins
  cases hlookup : layer.cacheCoins.lookup txid with
  | some entry => exact ⟨(outputs_of_lookup hlookup).symm, rfl, id⟩
  | none =>
    have hshow : layer.outputs below txid = below txid := outputs_of_lookup_none hlookup
    rw [hshow, ← hbelow]
    cases hget : getBelow.1 with
    | none => exact ⟨rfl, rfl, id⟩
    | some tmp =>
      have htmp : tmp.output = below txid := by rw [← hbelow, hget]; rfl
      refine ⟨rfl, ?_, fun h => h.insert ⟨fun hpruned n => ?_, fun _ => htmp⟩⟩
      · rw [outputs_insert, htmp, ← hshow, Function.update_eq_self]
      · rw [← htmp, CCoins.isPruned_iff.mp hpruned n]

theorem fetchCoins_lower (layer : CacheLayer) (lower : σ) (txid : Uint256)
    (getBelow : Option CCoins × σ) :
    (layer.fetchCoins lower txid getBelow).2.2 = lower ∨
      (layer.fetchCoins lower txid getBelow).2.2 = getBelow.2 := by
  unfold fetchCoins
  cases layer.cacheCoins.lookup txid with
  | some entry => exact .inl rfl
  | none => cases getBelow.1 <;> exact .inr rfl

theorem entryToModify_lower (layer : CacheLayer) (lower : σ) (txid : Uint256)
    (getBelow : Option CCoins × σ) :
    (layer.entryToModify lower txid getBelow).2 = lower ∨
      (layer.entryToModify lower txid getBelow).2 = getBelow.2 := by
  unfold entryToModify
  cases layer.cacheCoins.lookup txid with
  | some entry => exact .inl rfl
  | none => cases getBelow.1 <;> exact .inr rfl

/-- `ModifyCoins` hands out what the cache shows, and marks it fresh only where nothing is below. -/
theorem entryToModify_spec (lower : σ) {getBelow : Option CCoins × σ} (h : layer.Coherent below)
    (hbelow : outputsOf getBelow.1 = below txid) :
    (layer.entryToModify lower txid getBelow).1.coins.output = layer.outputs below txid ∧
      (layer.entryToModify lower txid getBelow).1.dirty = true ∧
      ((layer.entryToModify lower txid getBelow).1.fresh = true → ∀ n, below txid n = none) := by
  unfold entryToModify
  cases hlookup : layer.cacheCoins.lookup txid with
  | some entry => exact ⟨(outputs_of_lookup hlookup).symm, rfl, (h txid entry hlookup).fresh⟩
  | none =>
    rw [outputs_of_lookup_none hlookup, ← hbelow]
    cases hget : getBelow.1 with
    | none => exact ⟨funext fun n => CCoins.output_empty n, rfl, fun _ n => rfl⟩
    | some tmp => exact ⟨rfl, rfl, fun hpruned n => CCoins.isPruned_iff.mp hpruned n⟩

theorem writeEntry_spec (h : layer.Coherent below)
    (hfresh : entry.fresh = true → ∀ n, layer.outputs below txid n = none) :
    (layer.writeEntry txid entry).Coherent below ∧
      (layer.writeEntry txid entry).outputs below =
        Function.update (layer.outputs below) txid
          (entry.written (layer.outputs below txid)) := by
  unfold writeEntry CCoinsCacheEntry.written
  by_cases hdirty : entry.dirty
  · rw [if_pos hdirty, if_pos hdirty]
    cases hlookup : layer.cacheCoins.lookup txid with
    | none =>
      have hshow : layer.outputs below txid = below txid := outputs_of_lookup_none hlookup
      rw [hshow] at hfresh
      simp only
      split_ifs with hdrop
      · rw [Bool.and_eq_true] at hdrop
        rw [← output_eq_below (hfresh hdrop.1) hdrop.2, ← hshow, Function.update_eq_self]
        exact ⟨h, rfl⟩
      · exact ⟨h.insert ⟨hfresh, nofun⟩, outputs_insert⟩
    | some us =>
      have hus := (h txid us hlookup).fresh
      simp only
      split_ifs with hdrop
      · rw [Bool.and_eq_true] at hdrop
        rw [← output_eq_below (hus hdrop.1) hdrop.2]
        exact ⟨h.erase, outputs_erase⟩
      · exact ⟨h.insert ⟨hus, nofun⟩, outputs_insert⟩
  · rw [if_neg hdirty, if_neg hdirty, Function.update_eq_self]
    exact ⟨h, rfl⟩

/-- Storing the dirty entries of a cache in the view below makes that view show what the cache
shows. -/
theorem Coherent.written_eq (h : layer.Coherent below) (txid : Uint256) :
    ((layer.cacheCoins.lookup txid).elim (below txid) fun entry => entry.written (below txid)) =
      layer.outputs below txid := by
  unfold outputs
  cases hlookup : layer.cacheCoins.lookup txid with
  | none => rfl
  | some entry =>
    simp only [Option.elim_some, CCoinsCacheEntry.written]
    split_ifs with hdirty
    · rfl
    · exact ((h txid entry hlookup).clean (by simpa using hdirty)).symm

/-- Writing a child's entries down shows them here; the child's flags are about this cache. -/
theorem batchWrite_spec (h : layer.Coherent below) {child : CacheLayer}
    (hchild : child.Coherent (layer.outputs below)) (hashBlock : Uint256) :
    (layer.batchWrite child.cacheCoins hashBlock).Coherent below ∧
      (layer.batchWrite child.cacheCoins hashBlock).outputs below =
        child.outputs (layer.outputs below) := by
  obtain ⟨hcoherent, hshow⟩ := AList.foldl_entries_view writeEntry (fun layer => layer.outputs below)
    CCoinsCacheEntry.written (I := fun layer => layer.Coherent below)
    (P := fun outputs entry => entry.fresh = true → ∀ n, outputs n = none)
    (fun layer k e hl he =>
      ⟨(writeEntry_spec hl he).1, fun k' => by
        rw [(writeEntry_spec hl he).2, Function.update_apply]⟩)
    child.cacheCoins h fun k e hlookup => (hchild k e hlookup).fresh
  exact ⟨hcoherent, funext fun txid => (hshow txid).trans (hchild.written_eq txid)⟩

end CacheLayer

/-! ## The stack -/

section

variable {β : Type} [BaseView β]

/-- What caches, the top one first, show over a base view. -/
def stackOutputs (base : β) : List CacheLayer → Outputs
  | [] => fun txid => outputsOf (BaseView.getCoins base txid)
  | layer :: lower => layer.outputs (stackOutputs base lower)

def StackCoherent (base : β) : List CacheLayer → Prop
  | [] => True
  | layer :: lower => layer.Coherent (stackOutputs base lower) ∧ StackCoherent base lower

/-- What a read may do to caches: they show the same, and their flags stay right. -/
structure Unchanged (base : β) (layers layers' : List CacheLayer) : Prop where
  outputs : stackOutputs base layers' = stackOutputs base layers
  coherent : StackCoherent base layers → StackCoherent base layers'

section

variable {base : β} {layer : CacheLayer} {lower lower' : List CacheLayer}

theorem Unchanged.stackOutputs_cons (h : Unchanged base lower lower') :
    stackOutputs base (layer :: lower') = layer.outputs (stackOutputs base lower) := by
  rw [stackOutputs, h.outputs]

theorem Unchanged.stackCoherent_cons (h : Unchanged base lower lower')
    (hlayer : layer.Coherent (stackOutputs base lower)) (hlower : StackCoherent base lower) :
    StackCoherent base (layer :: lower') :=
  ⟨h.outputs ▸ hlayer, h.coherent hlower⟩

end

theorem Unchanged.of_or {base : β} {lower lower' lower'' : List CacheLayer}
    (h : Unchanged base lower lower') (hor : lower'' = lower ∨ lower'' = lower') :
    Unchanged base lower lower'' := by
  rcases hor with rfl | rfl
  · exact ⟨rfl, id⟩
  · exact h

theorem getCoins_spec (base : β) (layers : List CacheLayer) (txid : Uint256) :
    outputsOf (getCoins base layers txid).1 = stackOutputs base layers txid ∧
      Unchanged base layers (getCoins base layers txid).2 := by
  induction layers with
  | nil => exact ⟨rfl, rfl, id⟩
  | cons layer lower ih =>
    obtain ⟨hanswer, hlower⟩ := ih
    replace hlower := hlower.of_or (CacheLayer.fetchCoins_lower layer lower txid _)
    obtain ⟨hread, hshow, hlayer⟩ := CacheLayer.fetchCoins_spec layer lower hanswer
    exact ⟨hread, hlower.stackOutputs_cons.trans hshow,
      fun h => hlower.stackCoherent_cons (hlayer h.1) h.2⟩

namespace CCoinsViewCache

/-- The unspent outputs seen through `GetCoins`. -/
def outputs (view : CCoinsViewCache β) : Outputs := fun txid => outputsOf (view.getCoins txid).1

/-- Those seen through `GetCoins` of the view below the top cache. -/
def outputsBelow (view : CCoinsViewCache β) : Outputs := fun txid =>
  outputsOf (X2XCoin.getCoins view.base view.lower txid).1

def Coherent (view : CCoinsViewCache β) : Prop :=
  StackCoherent view.base (view.top :: view.lower)

variable {view : CCoinsViewCache β}

theorem outputsBelow_eq (view : CCoinsViewCache β) :
    view.outputsBelow = stackOutputs view.base view.lower :=
  funext fun txid => (getCoins_spec view.base view.lower txid).1

theorem outputs_eq (view : CCoinsViewCache β) :
    view.outputs = stackOutputs view.base (view.top :: view.lower) :=
  funext fun txid => (getCoins_spec view.base (view.top :: view.lower) txid).1

theorem getCoins_coherent (h : view.Coherent) (txid : Uint256) :
    (view.getCoins txid).2.Coherent ∧ (view.getCoins txid).2.outputs = view.outputs := by
  obtain ⟨-, hshow, hcoherent⟩ := getCoins_spec view.base (view.top :: view.lower) txid
  rw [outputs_eq, outputs_eq]
  exact ⟨hcoherent h, hshow⟩

theorem modifyCoins_coherent (h : view.Coherent) (txid : Uint256) (f : CCoins → CCoins) :
    (view.modifyCoins txid f).Coherent ∧ ∃ c : CCoins, c.output = view.outputs txid ∧
      (view.modifyCoins txid f).outputs = Function.update view.outputs txid (f c).output := by
  obtain ⟨hanswer, hlower⟩ := getCoins_spec view.base view.lower txid
  replace hlower := hlower.of_or (CacheLayer.entryToModify_lower view.top view.lower txid _)
  obtain ⟨hcoins, hdirty, hfresh⟩ :=
    CacheLayer.entryToModify_spec view.lower h.1 hanswer
  obtain ⟨hcoherent, hshow⟩ := CacheLayer.modify_spec h.1 hdirty hfresh f
  rw [outputs_eq, outputs_eq]
  exact ⟨hlower.stackCoherent_cons hcoherent h.2, _, hcoins, hlower.stackOutputs_cons.trans hshow⟩

theorem modifyNewCoins_coherent (h : view.Coherent) {txid : Uint256} {coinbase : Bool}
    (hfresh : coinbase = false → ∀ n, view.outputsBelow txid n = none) (f : CCoins → CCoins) :
    (view.modifyNewCoins txid coinbase f).Coherent ∧
      (view.modifyNewCoins txid coinbase f).outputs =
        Function.update view.outputs txid (f {}).output := by
  rw [outputsBelow_eq] at hfresh
  have hnew : (view.top.newEntry txid coinbase).fresh = true →
      ∀ n, stackOutputs view.base view.lower txid n = none := by
    intro hf
    cases coinbase with
    | false => exact hfresh rfl
    | true =>
      cases hlookup : view.top.cacheCoins.lookup txid with
      | none => simp [CacheLayer.newEntry, hlookup] at hf
      | some entry =>
        apply (h.1 txid entry hlookup).fresh
        simpa [CacheLayer.newEntry, hlookup] using hf
  have hdirty : (view.top.newEntry txid coinbase).dirty = true := rfl
  obtain ⟨hcoherent, hshow⟩ := CacheLayer.modify_spec h.1 hdirty hnew f
  rw [outputs_eq, outputs_eq]
  exact ⟨⟨hcoherent, h.2⟩, hshow⟩

theorem uncache_coherent (h : view.Coherent) (txid : Uint256) :
    (view.uncache txid).Coherent ∧ (view.uncache txid).outputs = view.outputs := by
  unfold uncache
  cases hlookup : view.top.cacheCoins.lookup txid with
  | none => exact ⟨h, rfl⟩
  | some entry =>
    simp only
    split_ifs with hflags
    · have hdirty : entry.dirty = false := by
        simpa using (Bool.and_eq_true_iff.mp hflags).1
      refine ⟨⟨h.1.erase, h.2⟩, ?_⟩
      rw [outputs_eq, outputs_eq]
      show CacheLayer.outputs _ _ = CacheLayer.outputs _ _
      rw [CacheLayer.outputs_erase, ← (h.1 txid entry hlookup).clean hdirty,
        ← CacheLayer.outputs_of_lookup hlookup, Function.update_eq_self]
    · exact ⟨h, rfl⟩

theorem flush_coherent (h : view.Coherent) :
    view.flush.Coherent ∧ view.flush.outputs = view.outputs := by
  have hempty : ∀ (below : Outputs), CacheLayer.outputs { view.top with cacheCoins := ∅ } below =
      below := fun below => rfl
  have hcoherent : ∀ (below : Outputs), CacheLayer.Coherent { view.top with cacheCoins := ∅ } below :=
    fun below txid entry hlookup => by simp at hlookup
  rw [outputs_eq, outputs_eq]
  unfold flush Coherent
  cases hlower : view.lower with
  | nil =>
    have htop : view.top.Coherent (stackOutputs view.base []) := hlower ▸ h.1
    refine ⟨⟨hcoherent _, trivial⟩, funext fun txid => ?_⟩
    exact (BaseView.outputs_batchWrite _ _ _ txid).trans (htop.written_eq txid)
  | cons layer lower =>
    obtain ⟨htop, hlayer, hrest⟩ : StackCoherent view.base (view.top :: layer :: lower) := by
      rw [← hlower]
      exact h
    obtain ⟨hwritten, hshow⟩ := CacheLayer.batchWrite_spec hlayer htop view.top.hashBlock
    exact ⟨⟨hcoherent _, hwritten, hrest⟩, hshow⟩

end CCoinsViewCache

end

/-! ## Operations and the flat map -/

/-- A modification of an entry together with what it does to the unspent outputs.  Every constant
is one, so the entry can be left with any content. -/
structure Modification where
  apply : CCoins → CCoins
  effect : (ℕ → Option CTxOut) → ℕ → Option CTxOut
  output_apply : ∀ c, (apply c).output = effect c.output

/-- The entry is replaced. -/
def Modification.assign (coins : CCoins) : Modification :=
  ⟨fun _ => coins, fun _ => coins.output, fun _ => rfl⟩

/-- Output `nPos` is spent. -/
def Modification.spend (nPos : ℕ) : Modification :=
  ⟨fun c => c.spend nPos, fun o n => if n = nPos then none else o n,
    fun c => funext fun n => c.output_spend nPos n⟩

/-- The operations on the top cache. -/
inductive CacheOp where
  | getCoins (txid : Uint256)
  | accessCoins (txid : Uint256)
  | haveCoins (txid : Uint256)
  | modifyCoins (txid : Uint256) (modification : Modification)
  | modifyNewCoins (txid : Uint256) (coinbase : Bool) (coins : CCoins)
  | setBestBlock (hashBlock : Uint256)
  | uncache (txid : Uint256)
  | flush

namespace CacheOp

/-- The same operation on one flat map. -/
def flat (outputs : Outputs) : CacheOp → Outputs
  | modifyCoins txid m => Function.update outputs txid (m.effect (outputs txid))
  | modifyNewCoins txid _ coins => Function.update outputs txid coins.output
  | _ => outputs

/-- The operation can make output `n` of `txid` appear. -/
def Creates (txid : Uint256) (n : ℕ) (op : CacheOp) : Prop :=
  ∃ outputs : Outputs, outputs txid n = none ∧ op.flat outputs txid n ≠ none

variable {β : Type} [BaseView β]

def run (view : CCoinsViewCache β) : CacheOp → CCoinsViewCache β
  | getCoins txid => (view.getCoins txid).2
  | accessCoins txid => (view.getCoins txid).2
  | haveCoins txid => (view.haveCoins txid).2
  | modifyCoins txid m => view.modifyCoins txid m.apply
  | modifyNewCoins txid coinbase coins => view.modifyNewCoins txid coinbase fun _ => coins
  | setBestBlock hashBlock => view.setBestBlock hashBlock
  | uncache txid => view.uncache txid
  | flush => view.flush

/-- `ModifyNewCoins` is called only where the view shows no unspent output. -/
def Allowed (view : CCoinsViewCache β) : CacheOp → Prop
  | modifyNewCoins txid _ _ => ∀ n, view.outputs txid n = none
  | _ => True

/-- What the fresh flag set by `ModifyNewCoins` says about the view below is true. -/
def FreshBelow (view : CCoinsViewCache β) : CacheOp → Prop
  | modifyNewCoins txid false _ => ∀ n, view.outputsBelow txid n = none
  | _ => True

theorem run_coherent {view : CCoinsViewCache β} (h : view.Coherent) (op : CacheOp)
    (hfresh : op.FreshBelow view) :
    (op.run view).Coherent ∧ (op.run view).outputs = op.flat view.outputs := by
  cases op with
  | getCoins txid => exact CCoinsViewCache.getCoins_coherent h txid
  | accessCoins txid => exact CCoinsViewCache.getCoins_coherent h txid
  | haveCoins txid => exact CCoinsViewCache.getCoins_coherent h txid
  | modifyCoins txid m =>
    obtain ⟨hcoherent, c, hc, hshow⟩ := CCoinsViewCache.modifyCoins_coherent h txid m.apply
    exact ⟨hcoherent, by rw [run, hshow, flat, ← hc, m.output_apply]⟩
  | modifyNewCoins txid coinbase coins =>
    apply CCoinsViewCache.modifyNewCoins_coherent h
    rintro rfl
    exact hfresh
  | setBestBlock hashBlock =>
    refine ⟨h, ?_⟩
    rw [CCoinsViewCache.outputs_eq, CCoinsViewCache.outputs_eq]
    rfl
  | uncache txid => exact CCoinsViewCache.uncache_coherent h txid
  | flush => exact CCoinsViewCache.flush_coherent h

theorem foldl_flat_none {txid : Uint256} {n : ℕ} {outputs : Outputs} (hnone : outputs txid n = none)
    {ops : List CacheOp} (hops : ∀ op ∈ ops, ¬ op.Creates txid n) :
    ops.foldl flat outputs txid n = none := by
  induction ops generalizing outputs with
  | nil => exact hnone
  | cons op ops ih =>
    apply ih
    · by_contra hsome
      exact hops op List.mem_cons_self ⟨outputs, hnone, hsome⟩
    · intro op' hop'
      exact hops op' (List.mem_cons_of_mem op hop')

end CacheOp

namespace CCoinsViewCache

variable {β : Type} [BaseView β]

/-- The stacks there are: caches are put over a base view, used while they are on top, and
destroyed. -/
inductive Stack : CCoinsViewCache β → Prop
  | new (base : β) : Stack (new base)
  | layered {view : CCoinsViewCache β} : Stack view → Stack view.layered
  | destroyed {view : CCoinsViewCache β} {layer : CacheLayer} {lower : List CacheLayer} :
    Stack view → view.lower = layer :: lower → Stack ⟨layer, lower, view.base⟩
  | run {view : CCoinsViewCache β} {op : CacheOp} :
    Stack view → op.Allowed view → op.FreshBelow view → Stack (op.run view)

variable {view : CCoinsViewCache β}

theorem Stack.coherent (h : Stack view) : view.Coherent := by
  induction h with
  | new base => exact ⟨fun txid entry hlookup => by simp [CCoinsViewCache.new] at hlookup, trivial⟩
  | layered _ ih => exact ⟨fun txid entry hlookup => by simp [CCoinsViewCache.layered] at hlookup, ih⟩
  | destroyed _ hlower ih =>
    rw [Coherent, hlower] at ih
    exact ih.2
  | run _ _ hfresh ih => exact (CacheOp.run_coherent ih _ hfresh).1

theorem outputs_modifyNewCoins_pruned (view : CCoinsViewCache β) (txid : Uint256) {coins : CCoins}
    (hpruned : coins.cleanup.isPruned = true) :
    (view.modifyNewCoins txid false fun _ => coins).outputs txid = view.outputsBelow txid := by
  rw [outputs_eq, outputsBelow_eq]
  exact CacheLayer.outputs_modify_of_drop rfl hpruned

theorem outputs_modifyNewCoins_cleared (view : CCoinsViewCache β) (txid : Uint256) {coins : CCoins}
    (hpruned : ¬ coins.cleanup.isPruned = true) :
    ((view.modifyNewCoins txid false fun _ => coins).modifyCoins txid fun _ => {}).outputs txid =
      view.outputsBelow txid := by
  have htop : (view.modifyNewCoins txid false fun _ => coins).top.cacheCoins.lookup txid =
      some { view.top.newEntry txid false with coins := coins.cleanup } := by
    simp [modifyNewCoins, CacheLayer.modify, hpruned]
  rw [outputs_eq, outputsBelow_eq]
  simp only [modifyCoins, CacheLayer.entryToModify, htop]
  exact CacheLayer.outputs_modify_of_drop rfl rfl

/-- Creating a transaction where the view below still shows outputs of it brings these back. -/
theorem resurrected {op : CacheOp} (hfresh : ¬ op.FreshBelow view) :
    ∃ ops : List CacheOp,
      Run.Meets CacheOp.run (fun v op => op.Allowed v ∧ op.FreshBelow v) (op.run view) ops ∧
        ((op :: ops).foldl CacheOp.run view).outputs ≠
          (op :: ops).foldl CacheOp.flat view.outputs := by
  cases op with
  | modifyNewCoins txid coinbase coins =>
    cases coinbase with
    | true => exact absurd trivial hfresh
    | false =>
      obtain ⟨n, hn⟩ := not_forall.mp hfresh
      by_cases hpruned : coins.cleanup.isPruned
      · refine ⟨[], trivial, fun heq => hn ?_⟩
        rw [← outputs_modifyNewCoins_pruned view txid hpruned]
        refine (congrFun (congrFun heq txid) n).trans ?_
        simp only [List.foldl_cons, List.foldl_nil, CacheOp.flat, Function.update_self]
        rw [← CCoins.output_cleanup, CCoins.isPruned_iff.mp hpruned n]
      · refine ⟨[.modifyCoins txid (.assign {})], ⟨⟨trivial, trivial⟩, trivial⟩, fun heq => hn ?_⟩
        rw [← outputs_modifyNewCoins_cleared view txid hpruned]
        refine (congrFun (congrFun heq txid) n).trans ?_
        simp [CacheOp.flat, Modification.assign]
  | _ => exact absurd trivial hfresh

theorem foldl_run_coherent (h : view.Coherent) {ops : List CacheOp}
    (hops : Run.Meets CacheOp.run (fun v op => op.Allowed v ∧ op.FreshBelow v) view ops) :
    (ops.foldl CacheOp.run view).Coherent ∧
      (ops.foldl CacheOp.run view).outputs = ops.foldl CacheOp.flat view.outputs := by
  refine Run.simulation (R := fun (v : CCoinsViewCache β) o => v.Coherent ∧ v.outputs = o)
    (fun v o op hv hop => ?_) ⟨h, rfl⟩ hops
  obtain ⟨hcoherent, hshow⟩ := CacheOp.run_coherent hv.1 op hop.2
  exact ⟨hcoherent, by rw [hshow, hv.2]⟩

/-- A database with one transaction that has one unspent output. -/
def oneCoinDB : CCoinsViewDB :=
  ⟨(∅ : AList fun _ : Uint256 => CCoins).insert 1 { vout := [⟨5, []⟩], nHeight := 3 }, 9⟩

/-- The output is spent and a transaction with the id `txid` is created. -/
def spendAndCreate (txid : Uint256) : List CacheOp :=
  [.modifyCoins 1 (.spend 0), .modifyNewCoins txid false { vout := [⟨7, []⟩] }]

end CCoinsViewCache

end X2XCoin
