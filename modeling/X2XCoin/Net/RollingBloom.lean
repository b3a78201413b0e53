import X2XCoin.Lib.Bytes
import Mathlib.Data.BitVec

/-!
# The rolling bloom filter

`CRollingBloomFilter` of `bloom.cpp`.  A position of the filter is tagged with the generation that
last set it; the tag is a pair of bits in two words.
-/

open ByteCodec

namespace X2XCoin

/-- The words come in pairs, so `data.size()` is even: entry `i` holds `data[2 * i]` and
`data[2 * i + 1]`. -/
structure CRollingBloomFilter where
  nEntriesPerGeneration : ℕ
  nEntriesThisGeneration : ℕ
  nGeneration : ℕ
  data : List (BitVec 64 × BitVec 64)
  nTweak : UInt32
  nHashFuncs : ℕ

namespace CRollingBloomFilter

variable (murmurHash3 : UInt32 → Bytes → UInt32)

/-- `reset`, with the random tweak. -/
def reset (f : CRollingBloomFilter) (nTweak : UInt32) : CRollingBloomFilter :=
  { f with
    nTweak := nTweak
    nEntriesThisGeneration := 0
    nGeneration := 1
    data := f.data.map fun _ => (0, 0) }

/-- `nEntriesPerGeneration` in the constructor, where `nElements + 1` can overflow. -/
def entriesPerGeneration (nElements : UInt32) : ℕ := (nElements.toNat + 1) % 2 ^ 32 / 2

def rollingBloomHash (nHashNum : ℕ) (nTweak : UInt32) (vDataToHash : Bytes) : UInt32 :=
  murmurHash3 (UInt32.ofNat nHashNum * 0xFBA4C795 + nTweak) vDataToHash

/-- The pair of words and the bit for a hash, where the lowest bit of `pos` is ignored. -/
def position (words : ℕ) (h : UInt32) : ℕ × ℕ := (h.toNat / 64 % (2 * words) / 2, h.toNat % 64)

/-- The words with the tags of generation `g` cleared. -/
def wipe (g : ℕ) (p : BitVec 64 × BitVec 64) : BitVec 64 × BitVec 64 :=
  let mask := (p.1 ^^^ -BitVec.ofNat 64 (g % 2)) ||| (p.2 ^^^ -BitVec.ofNat 64 (g / 2))
  (p.1 &&& mask, p.2 &&& mask)

/-- The words with the tag of `bit` replaced by generation `g`. -/
def setTag (g bit : ℕ) (p : BitVec 64 × BitVec 64) : BitVec 64 × BitVec 64 :=
  ((p.1 &&& ~~~(1#64 <<< bit)) ||| BitVec.ofNat 64 (g % 2) <<< bit,
    (p.2 &&& ~~~(1#64 <<< bit)) ||| BitVec.ofNat 64 (g / 2) <<< bit)

/-- The start of a generation if the last one is full. -/
def roll (f : CRollingBloomFilter) : CRollingBloomFilter :=
  if f.nEntriesThisGeneration = f.nEntriesPerGeneration then
    let nGeneration := if f.nGeneration + 1 = 4 then 1 else f.nGeneration + 1
    { f with
      nEntriesThisGeneration := 0
      nGeneration := nGeneration
      data := f.data.map (wipe nGeneration) }
  else f

/-- One turn of the loop of `insert`. -/
def setPosition (g : ℕ) (data : List (BitVec 64 × BitVec 64)) (h : UInt32) :
    List (BitVec 64 × BitVec 64) :=
  data.modify (position data.length h).1 (setTag g (position data.length h).2)

/-- The hashes of a key that `insert` and `contains` go through. -/
def hashes (f : CRollingBloomFilter) (vKey : Bytes) : List UInt32 :=
  (List.range f.nHashFuncs).map fun n => rollingBloomHash murmurHash3 n f.nTweak vKey

def insert (f : CRollingBloomFilter) (vKey : Bytes) : CRollingBloomFilter :=
  let f := f.roll
  { f with
    nEntriesThisGeneration := (f.nEntriesThisGeneration + 1) % 2 ^ 32
    data := (f.hashes murmurHash3 vKey).foldl (setPosition f.nGeneration) f.data }

def tagOf (p : BitVec 64 × BitVec 64) (bit : ℕ) : Bool × Bool := (p.1.getLsbD bit, p.2.getLsbD bit)

/-- The tag at the position of a hash. -/
def tag (data : List (BitVec 64 × BitVec 64)) (h : UInt32) : Bool × Bool :=
  tagOf (data.getD (position data.length h).1 0) (position data.length h).2

def contains (f : CRollingBloomFilter) (vKey : Bytes) : Bool :=
  (f.hashes murmurHash3 vKey).all fun h => (tag f.data h).1 || (tag f.data h).2

/-! ## Tags -/

def generationTag (g : ℕ) : Bool × Bool := (g % 2 == 1, g / 2 == 1)

theorem getLsbD_neg_ofNat {x bit : ℕ} (hx : x < 2) (hbit : bit < 64) :
    (-BitVec.ofNat 64 x).getLsbD bit = (x == 1) := by
  interval_cases x
  · simp
  · rw [show -BitVec.ofNat 64 1 = BitVec.allOnes 64 by decide, BitVec.getLsbD_allOnes]
    simpa using hbit

variable {g : ℕ}

theorem tagOf_wipe (hg : g < 4) (p : BitVec 64 × BitVec 64) {bit : ℕ} (hbit : bit < 64) :
    tagOf (wipe g p) bit =
      if tagOf p bit = generationTag g then (false, false) else tagOf p bit := by
  have h₁ := getLsbD_neg_ofNat (Nat.mod_lt g two_pos) hbit
  have h₂ := getLsbD_neg_ofNat (show g / 2 < 2 by omega) hbit
  simp only [tagOf, wipe, generationTag, BitVec.getLsbD_and, BitVec.getLsbD_or, BitVec.getLsbD_xor,
    h₁, h₂, Prod.mk.injEq]
  grind

theorem getLsbD_setBit (w : BitVec 64) {x bit b : ℕ} (hx : x < 2) (hb : b < 64) :
    ((w &&& ~~~(1#64 <<< bit)) ||| BitVec.ofNat 64 x <<< bit).getLsbD b =
      if b = bit then x == 1 else w.getLsbD b := by
  interval_cases x <;> simp [hb] <;> grind

theorem tagOf_setTag (hg : g < 4) (p : BitVec 64 × BitVec 64) {bit b : ℕ} (hb : b < 64) :
    tagOf (setTag g bit p) b = if b = bit then generationTag g else tagOf p b := by
  rw [tagOf, setTag, getLsbD_setBit _ (by omega) hb, getLsbD_setBit _ (by omega) hb]
  split_ifs <;> rfl

variable {data : List (BitVec 64 × BitVec 64)}

theorem position_lt (hdata : data ≠ []) (h : UInt32) :
    (position data.length h).1 < data.length ∧ (position data.length h).2 < 64 := by
  have hpos := List.length_pos_iff.mpr hdata
  have := Nat.mod_lt (h.toNat / 64) (show 2 * data.length > 0 by omega)
  exact ⟨by rw [position]; omega, Nat.mod_lt _ (by decide)⟩

theorem tag_map_wipe (hg : g < 4) (hdata : data ≠ []) (h : UInt32) :
    tag (data.map (wipe g)) h =
      if tag data h = generationTag g then (false, false) else tag data h := by
  obtain ⟨hpos, hbit⟩ := position_lt hdata h
  simp only [tag, List.length_map, List.getD_eq_getElem?_getD, List.getElem?_map,
    List.getElem?_eq_getElem hpos, Option.map_some, Option.getD_some, tagOf_wipe hg _ hbit]

theorem tag_setPosition (hg : g < 4) (hdata : data ≠ []) (h h' : UInt32) :
    tag (setPosition g data h) h' =
      if position data.length h = position data.length h' then generationTag g
      else tag data h' := by
  obtain ⟨hpos, hbit⟩ := position_lt hdata h'
  simp only [tag, setPosition, List.length_modify, List.getD_eq_getElem?_getD,
    List.getElem?_modify, List.getElem?_eq_getElem hpos, Option.map_eq_map, Option.map_some,
    Option.getD_some]
  by_cases hi : (position data.length h).1 = (position data.length h').1
  · rw [if_pos hi, tagOf_setTag hg _ hbit]
    simp only [Prod.ext_iff, hi, true_and, eq_comm]
  · rw [if_neg hi, if_neg fun h => hi (congrArg Prod.fst h)]

/-- The loop of `insert` keeps the size, tags what it goes through and nothing else. -/
theorem foldl_setPosition (hg : g < 4) (hdata : data ≠ []) (hs : List UInt32) :
    (hs.foldl (setPosition g) data).length = data.length ∧
      (∀ h ∈ hs, tag (hs.foldl (setPosition g) data) h = generationTag g) ∧
      ∀ h, tag (hs.foldl (setPosition g) data) h = generationTag g ∨
        tag (hs.foldl (setPosition g) data) h = tag data h := by
  induction hs using List.reverseRecOn with
  | nil => exact ⟨rfl, nofun, fun _ => .inr rfl⟩
  | append_singleton hs h ih =>
    obtain ⟨hlen, hin, hout⟩ := ih
    have hdata' : hs.foldl (setPosition g) data ≠ [] := by
      rwa [← List.length_pos_iff, hlen, List.length_pos_iff]
    simp only [List.foldl_append, List.foldl_cons, List.foldl_nil, tag_setPosition hg hdata']
    refine ⟨(List.length_modify ..).trans hlen, fun h' hh' => ?_, fun h' => ?_⟩
    · split_ifs with heq
      · rfl
      · refine hin h' ((List.mem_append.mp hh').resolve_right fun h => heq ?_)
        rw [List.mem_singleton.mp h]
    · split_ifs
      · exact .inl rfl
      · exact hout h'

/-! ## The generations -/

/-- The tags that a position set `age` generations before `g` can have. -/
def Recent (g age : ℕ) (t : Bool × Bool) : Prop :=
  t ≠ (false, false) ∧ (age ≤ 1 → t ≠ generationTag (g % 3 + 1)) ∧ (age = 0 → t = generationTag g)

theorem recent_generationTag (hg : g = 1 ∨ g = 2 ∨ g = 3) (age : ℕ) :
    Recent g age (generationTag g) := by
  obtain rfl | rfl | rfl := hg <;> exact ⟨by decide, fun _ => by decide, fun _ => rfl⟩

/-- A tag that is not too old outlasts the start of the next generation. -/
theorem Recent.next {g age : ℕ} {t : Bool × Bool} (hg : g = 1 ∨ g = 2 ∨ g = 3) (hage : age < 2)
    (h : Recent g age t) :
    Recent (g % 3 + 1) (age + 1) (if t = generationTag (g % 3 + 1) then (false, false) else t) := by
  obtain ⟨hne, hnext, heq⟩ := h
  rw [if_neg (hnext (by omega))]
  refine ⟨hne, fun hle => ?_, fun h => absurd h (Nat.succ_ne_zero _)⟩
  rw [heq (by omega)]
  obtain rfl | rfl | rfl := hg <;> decide

/-- The keys of the last generations are tagged; those of older ones are only left out once the two
generations before the current one hold enough. -/
structure Remembers (murmurHash3 : UInt32 → Bytes → UInt32) (nElements : ℕ)
    (f : CRollingBloomFilter) (keys : ℕ → List Bytes) (old : List Bytes) : Prop where
  generation : f.nGeneration = 1 ∨ f.nGeneration = 2 ∨ f.nGeneration = 3
  words : f.data ≠ []
  perGeneration : f.nEntriesPerGeneration = (nElements + 1) % 2 ^ 32 / 2
  thisGeneration : f.nEntriesThisGeneration = (keys 0).length % 2 ^ 32
  tagged : ∀ age < 3, ∀ k ∈ keys age, ∀ h ∈ f.hashes murmurHash3 k,
    Recent f.nGeneration age (tag f.data h)
  second : keys 2 ++ old ≠ [] → nElements ≤ 2 * (keys 1).length
  third : old ≠ [] → nElements ≤ 2 * (keys 2).length

variable {murmurHash3} {f : CRollingBloomFilter} {nElements : ℕ} {keys : ℕ → List Bytes}
  {old : List Bytes}

/-- Starting a generation forgets the keys of the oldest one. -/
theorem Remembers.roll (hf : f.Remembers murmurHash3 nElements keys old)
    (hfirst : keys 0 = [] → keys 1 ++ keys 2 ++ old = []) (hn : nElements < 2 ^ 32)
    (hfull : f.nEntriesThisGeneration = f.nEntriesPerGeneration) :
    f.roll.Remembers murmurHash3 nElements
      (fun | 0 => [] | age + 1 => keys age) (keys 2 ++ old) := by
  have hnext :
      (if f.nGeneration + 1 = 4 then 1 else f.nGeneration + 1) = f.nGeneration % 3 + 1 := by
    obtain h | h | h := hf.generation <;> rw [h] <;> rfl
  have hcur := hf.thisGeneration.symm.trans (hfull.trans hf.perGeneration)
  rw [CRollingBloomFilter.roll, if_pos hfull, hnext]
  refine ⟨show _ % 3 + 1 = 1 ∨ _ % 3 + 1 = 2 ∨ _ % 3 + 1 = 3 by omega, by simpa using hf.words,
    hf.perGeneration, rfl, ?_, fun hne => ?_, hf.second⟩
  · intro age hage k hk h hh
    cases age with
    | zero => cases hk
    | succ age =>
      dsimp only
      rw [tag_map_wipe (by omega) hf.words]
      exact (hf.tagged age (by omega) k hk h hh).next hf.generation (by omega)
  · have hpos := List.length_pos_iff.mpr fun h => hne (by simpa using hfirst h)
    dsimp only
    omega

theorem Remembers.insert (hf : f.Remembers murmurHash3 nElements keys old)
    (hfirst : keys 0 = [] → keys 1 ++ keys 2 ++ old = []) (hn : nElements < 2 ^ 32) (k : Bytes) :
    ∃ keys' old', keys' 0 ++ keys' 1 ++ keys' 2 ++ old' =
        k :: (keys 0 ++ keys 1 ++ keys 2 ++ old) ∧ keys' 0 ≠ [] ∧
      (f.insert murmurHash3 k).Remembers murmurHash3 nElements keys' old' := by
  obtain ⟨keys', old', hkeys, hf'⟩ : ∃ keys' old', keys' 0 ++ keys' 1 ++ keys' 2 ++ old' =
      keys 0 ++ keys 1 ++ keys 2 ++ old ∧
      f.roll.Remembers murmurHash3 nElements keys' old' := by
    by_cases hfull : f.nEntriesThisGeneration = f.nEntriesPerGeneration
    · exact ⟨_, _, by simp, hf.roll hfirst hn hfull⟩
    · exact ⟨keys, old, rfl, by rwa [CRollingBloomFilter.roll, if_neg hfull]⟩
  have hg : f.roll.nGeneration < 4 := by
    have := hf'.generation
    omega
  obtain ⟨hlen, hin, hout⟩ := foldl_setPosition hg hf'.words (f.roll.hashes murmurHash3 k)
  refine ⟨fun | 0 => k :: keys' 0 | age + 1 => keys' (age + 1), old', congrArg (k :: ·) hkeys,
    List.cons_ne_nil _ _, hf'.generation, ?_, hf'.perGeneration, ?_, fun age hage k' hk' h hh => ?_,
    hf'.second, hf'.third⟩
  · exact List.length_pos_iff.mp (hlen ▸ List.length_pos_iff.mpr hf'.words)
  · change (f.roll.nEntriesThisGeneration + 1) % 2 ^ 32 = _
    rw [hf'.thisGeneration, List.length_cons, Nat.mod_add_mod]
  · have hself := recent_generationTag hf'.generation age
    obtain htag | htag := hout h
    · exact htag.symm ▸ hself
    · -- a key that was there keeps its tag, and the new one has the current tag
      have hkept : ∀ {age}, age < 3 → k' ∈ keys' age → Recent f.roll.nGeneration age _ :=
        fun hage hk => htag.symm ▸ hf'.tagged _ hage k' hk h hh
      cases age with
      | zero =>
        obtain rfl | hk' := List.mem_cons.mp hk'
        · exact (hin h hh).symm ▸ hself
        · exact hkept hage hk'
      | succ age => exact hkept hage hk'

variable (murmurHash3)

/-- After a reset the filter contains every key among the last `nElements` that were inserted. -/
theorem contains_of_mem_last (nElements : UInt32) (f : CRollingBloomFilter) (hdata : f.data ≠ [])
    (hf : f.nEntriesPerGeneration = entriesPerGeneration nElements) (nTweak : UInt32)
    {keys : List Bytes} {k : Bytes} (hk : k ∈ keys.drop (keys.length - nElements.toNat)) :
    (keys.foldl (insert murmurHash3) (f.reset nTweak)).contains murmurHash3 k = true := by
  obtain ⟨gens, old, hall, hfirst, hf⟩ : ∃ gens old,
      gens 0 ++ gens 1 ++ gens 2 ++ old = keys.reverse ∧
      (gens 0 = [] → gens 1 ++ gens 2 ++ old = []) ∧
      (keys.foldl (insert murmurHash3) (f.reset nTweak)).Remembers murmurHash3 nElements.toNat
        gens old := by
    clear hk
    induction keys using List.reverseRecOn with
    | nil =>
      refine ⟨fun _ => [], [], rfl, fun _ => rfl, .inl rfl, ?_, hf, rfl, nofun, nofun, nofun⟩
      simpa [reset] using hdata
    | append_singleton keys k ih =>
      obtain ⟨gens, old, hall, hfirst, hf⟩ := ih
      obtain ⟨gens', old', hall', hne, hf'⟩ := hf.insert hfirst nElements.toNat_lt k
      exact ⟨gens', old', by rw [hall', hall]; simp, fun h => absurd h hne, by simpa using hf'⟩
  have hmem : ∃ age < 3, k ∈ gens age := by
    rw [← List.mem_reverse, ← List.take_reverse, ← hall] at hk
    have hk' : k ∈ gens 0 ++ gens 1 ++ gens 2 := by
      by_cases hold : old = []
      · exact List.mem_of_mem_take (by simpa [hold] using hk)
      · have h₁ := hf.second (by simp [hold])
        have h₂ := hf.third hold
        rw [List.take_append_of_le_length (by simp only [List.length_append]; omega)] at hk
        exact List.mem_of_mem_take hk
    obtain (h | h) | h := by simpa only [List.mem_append] using hk'
    exacts [⟨0, by omega, h⟩, ⟨1, by omega, h⟩, ⟨2, by omega, h⟩]
  obtain ⟨age, hage, hk⟩ := hmem
  rw [contains, List.all_eq_true]
  intro h hh
  have hne := (hf.tagged age hage k hk h hh).1
  generalize tag _ h = t at hne ⊢
  obtain ⟨_ | _, _ | _⟩ := t <;> first | rfl | exact absurd rfl hne

/-- Three insertions into a filter for two keys. -/
theorem contains_of_mem_last_two :
    let hash : UInt32 → Bytes → UInt32 := fun seed key => seed + key.length.toUInt32
    ([[1], [2], [3]].foldl (insert hash) (reset ⟨1, 0, 1, [(5, 9)], 0, 3⟩ 7)).contains hash [2] =
      true :=
  contains_of_mem_last _ 2 ⟨1, 0, 1, [(5, 9)], 0, 3⟩ (by simp) rfl 7 (by decide)

end CRollingBloomFilter

end X2XCoin
