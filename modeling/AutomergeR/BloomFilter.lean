import Mathlib.Data.List.Basic
import Mathlib.Tactic.Common

/-! # Bloom filters

What the sync protocol relies on in a summary of a set of hashes is that it never
denies a member (`BloomScheme`); which other hashes it claims is left open. The
filter of `sync/bloom.rs` is such a scheme (`BloomFilter.scheme`).
-/

namespace AutomergeR

/-- Summaries of sets of hashes, without false negatives. -/
structure BloomScheme (H : Type) where
  Filter : Type
  /-- `BloomFilter::default` -/
  default : Filter
  fromHashes : List H → Filter
  containsHash : Filter → H → Bool
  contains_default : ∀ h, containsHash default h = false
  contains_fromHashes : ∀ hs, ∀ h ∈ hs, containsHash (fromHashes hs) h = true

/-! ## The filter of the code -/

/-- `BloomFilter`, its bits one by one. -/
structure BloomFilter where
  numEntries : ℕ
  numBitsPerEntry : ℕ
  numProbes : ℕ
  bits : List Bool
  deriving DecidableEq

namespace BloomFilter

def BITS_PER_ENTRY : ℕ := 10
def NUM_PROBES : ℕ := 7

def default : BloomFilter := ⟨0, BITS_PER_ENTRY, NUM_PROBES, []⟩

/-- `bits_capacity`, in bytes. -/
def bitsCapacity (numEntries numBitsPerEntry : ℕ) : ℕ := (numEntries * numBitsPerEntry + 7) / 8

/-- The loop of `get_probes`: `n` further probes. -/
def probesFrom (modulo : ℕ) : ℕ → ℕ → ℕ → ℕ → List ℕ
  | 0, _, _, _ => []
  | n + 1, x, y, z =>
    let x := (x + y) % modulo
    let y := (y + z) % modulo
    x :: probesFrom modulo n x y z

/-- `get_probes`, from the first three 32-bit words of the hash. -/
def getProbes (filter : BloomFilter) (words : ℕ × ℕ × ℕ) : List ℕ :=
  let modulo := filter.bits.length
  let x := words.1 % modulo
  let y := words.2.1 % modulo
  let z := words.2.2 % modulo
  x :: probesFrom modulo (filter.numProbes - 1) x y z

def setBit (filter : BloomFilter) (probe : ℕ) : BloomFilter :=
  { filter with bits := filter.bits.set probe true }

def addHash (filter : BloomFilter) (words : ℕ × ℕ × ℕ) : BloomFilter :=
  (filter.getProbes words).foldl setBit filter

/-- A probe outside the bits does not count against the hash. -/
def containsHash (filter : BloomFilter) (words : ℕ × ℕ × ℕ) : Bool :=
  if filter.numEntries = 0 then false
  else (filter.getProbes words).all fun probe => filter.bits[probe]?.getD true

def fromHashes (hashes : List (ℕ × ℕ × ℕ)) : BloomFilter :=
  hashes.foldl addHash
    { numEntries := hashes.length
      numBitsPerEntry := BITS_PER_ENTRY
      numProbes := NUM_PROBES
      bits := List.replicate (8 * bitsCapacity hashes.length BITS_PER_ENTRY) false }

/-! ### No false negatives

Adding a hash only sets bits: the shape of the filter, hence the probes of a hash,
stay as they are. -/

/-- The same filter with more bits set. -/
structure Grows (f f' : BloomFilter) : Prop where
  entries : f'.numEntries = f.numEntries
  probes : f'.numProbes = f.numProbes
  length : f'.bits.length = f.bits.length
  bits : ∀ i : ℕ, f.bits[i]? = some true → f'.bits[i]? = some true

theorem Grows.refl (f : BloomFilter) : f.Grows f := ⟨rfl, rfl, rfl, fun _ h => h⟩

theorem Grows.trans {f g h : BloomFilter} (hfg : f.Grows g) (hgh : g.Grows h) : f.Grows h :=
  ⟨hgh.entries.trans hfg.entries, hgh.probes.trans hfg.probes, hgh.length.trans hfg.length,
    fun i hi => hgh.bits i (hfg.bits i hi)⟩

theorem Grows.getProbes {f f' : BloomFilter} (h : f.Grows f') (words : ℕ × ℕ × ℕ) :
    f'.getProbes words = f.getProbes words := by
  simp only [BloomFilter.getProbes, h.length, h.probes]

theorem grows_setBit (f : BloomFilter) (probe : ℕ) : f.Grows (f.setBit probe) := by
  refine ⟨rfl, rfl, List.length_set, fun i hi => ?_⟩
  have hlt := (List.getElem?_eq_some_iff.mp hi).1
  rw [setBit, List.getElem?_set]
  split
  · rename_i h
    simp [h, hlt]
  · exact hi

theorem grows_foldl_setBit : ∀ (probes : List ℕ) (f : BloomFilter),
    f.Grows (probes.foldl setBit f)
  | [], f => .refl f
  | p :: probes, f => (grows_setBit f p).trans (grows_foldl_setBit probes _)

theorem getElem?_foldl_setBit : ∀ (probes : List ℕ) (f : BloomFilter) (p : ℕ), p ∈ probes →
    (probes.foldl setBit f).bits[p]?.getD true = true
  | q :: probes, f, p, hp => by
    rcases List.mem_cons.mp hp with rfl | hp
    · have hset : (f.setBit p).bits[p]?.getD true = true := by
        rw [setBit, List.getElem?_set, if_pos rfl]
        split <;> rfl
      rcases hb : (f.setBit p).bits[p]? with _ | b
      · have hlen := (grows_foldl_setBit probes (f.setBit p)).length
        rw [List.getElem?_eq_none_iff] at hb
        rw [List.foldl_cons, List.getElem?_eq_none_iff.mpr (by omega)]
        rfl
      · rw [hb, Option.getD_some] at hset
        rw [List.foldl_cons, (grows_foldl_setBit probes _).bits p (hset ▸ hb)]
        rfl
    · exact getElem?_foldl_setBit probes _ p hp

theorem grows_addHash (f : BloomFilter) (words : ℕ × ℕ × ℕ) : f.Grows (f.addHash words) :=
  grows_foldl_setBit _ _

theorem grows_foldl_addHash : ∀ (hashes : List (ℕ × ℕ × ℕ)) (f : BloomFilter),
    f.Grows (hashes.foldl addHash f)
  | [], f => .refl f
  | w :: hashes, f => (grows_addHash f w).trans (grows_foldl_addHash hashes _)

/-- All probes of `words` are set. -/
def Marked (f : BloomFilter) (words : ℕ × ℕ × ℕ) : Prop :=
  ∀ p ∈ f.getProbes words, f.bits[p]?.getD true = true

theorem Marked.grows {f f' : BloomFilter} {words : ℕ × ℕ × ℕ} (hm : f.Marked words)
    (h : f.Grows f') : f'.Marked words := by
  intro p hp
  have hset := hm p (h.getProbes words ▸ hp)
  rcases hb : f.bits[p]? with _ | b
  · have hlen := h.length
    rw [List.getElem?_eq_none_iff] at hb
    rw [List.getElem?_eq_none_iff.mpr (by omega)]
    rfl
  · rw [hb, Option.getD_some] at hset
    rw [h.bits p (hset ▸ hb)]
    rfl

theorem marked_addHash (f : BloomFilter) (words : ℕ × ℕ × ℕ) : (f.addHash words).Marked words := by
  intro p hp
  rw [(grows_addHash f words).getProbes] at hp
  exact getElem?_foldl_setBit _ f p hp

theorem marked_foldl_addHash : ∀ (hashes : List (ℕ × ℕ × ℕ)) (f : BloomFilter),
    ∀ w ∈ hashes, (hashes.foldl addHash f).Marked w
  | v :: hashes, f, w, hw => by
    rcases List.mem_cons.mp hw with rfl | hw
    · exact (marked_addHash f w).grows (grows_foldl_addHash hashes _)
    · exact marked_foldl_addHash hashes _ w hw

theorem containsHash_fromHashes (hashes : List (ℕ × ℕ × ℕ)) (w : ℕ × ℕ × ℕ) (hw : w ∈ hashes) :
    (fromHashes hashes).containsHash w = true := by
  have hentries : (fromHashes hashes).numEntries = hashes.length :=
    (grows_foldl_addHash hashes _).entries
  have hpos : hashes.length ≠ 0 := by
    rintro h0
    rw [List.length_eq_zero_iff.mp h0] at hw
    cases hw
  rw [containsHash, if_neg (by omega), List.all_eq_true]
  exact marked_foldl_addHash hashes _ w hw

/-- **The filter of the code never denies a hash it was built from.** -/
def scheme {H : Type} (words : H → ℕ × ℕ × ℕ) : BloomScheme H where
  Filter := BloomFilter
  default := default
  fromHashes hs := fromHashes (hs.map words)
  containsHash filter h := filter.containsHash (words h)
  contains_default _ := rfl
  contains_fromHashes _ _ hh := containsHash_fromHashes _ _ (List.mem_map_of_mem hh)

end BloomFilter

end AutomergeR
