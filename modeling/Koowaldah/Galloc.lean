import Koowaldah.Klib
import Koowaldah.Slice.Pool

/-!
# The general allocator

A model of `kernel/galloc.c`.  Nine slice pools hold objects of 8, 12, 20, … 1028 bytes.  A
request is rounded up to a multiple of `GALLOC_MIN_CHUNK` and goes to the pool of the next
power of two, and to whole pages when there is no such pool or the pool has no slice.  The
word before a chunk, its `struct chunk_info`, tells `gfree` where the chunk came from.

The comparison in `galloc_from_slice` is `i > NPOOLS`, so the sizes between the last pool and
twice its room read the table one entry past its end.  Such a read is `GallocFault.outside`.
-/

namespace Koowaldah

open SysLib

variable {size n : Nat}

def GALLOC_MIN_CHUNK : Nat := 4

/-- `CI_SIZE`.  `struct chunk_info` has four bytes. -/
def CI_SIZE : Nat := roundupL2 4 GALLOC_MIN_CHUNK

def NPOOLS : Nat := 9

def poolSize (pool : Nat) : Nat := GALLOC_MIN_CHUNK * 2 ^ pool + CI_SIZE

def inpages (x : Nat) : Nat := roundupL2 x PAGE_SIZE / PAGE_SIZE

def FROM_SLICE : Nat := 0

def FROM_PAGES : Nat := 1

/-- What stops the kernel: a read of `galloc_sp` past its end, a `bug ()` of the slice
allocator or of `gfree`, a use of the `NULL` that stands for no page. -/
inductive GallocFault where
  | outside (i : Nat)
  | bug
  | nullPage
deriving DecidableEq, Repr

/-- The boot zone, the memory and `galloc_sp`. -/
structure GallocState where
  zone : Zone
  mem : Words
  pools : List SlicePool

/-- A `struct chunk_info` with `origin` and `info` stored over a word.  The byte `nop` is
kept. -/
def chunkInfo (old : BitVec 32) (origin info : Nat) : BitVec 32 :=
  BitVec.ofNat 32 (origin + old.toNat / 2 ^ 8 % 2 ^ 8 * 2 ^ 8 + info % 2 ^ 16 * 2 ^ 16)

/-- `ci->origin`. -/
def ciOrigin (ci : BitVec 32) : Nat := ci.toNat % 2 ^ 8

/-- `ci->info`. -/
def ciInfo (ci : BitVec 32) : Nat := ci.toNat / 2 ^ 16

/-- The index that `galloc_from_slice` gives to `galloc_sp`, if it comes to that. -/
def slicePoolIndex (size : Nat) : Option Nat :=
  let i := log2 (size / GALLOC_MIN_CHUNK)
  if i > NPOOLS then none else some i

def gallocSize (size : Nat) : Nat :=
  let size := if size = 0 then GALLOC_MIN_CHUNK else size
  roundupL2 size GALLOC_MIN_CHUNK

namespace GallocState

variable {g g' : GallocState} {i size : Nat} {chunk : Option Nat}

def heap (g : GallocState) (pool : SlicePool) : SliceHeap := ⟨g.zone, g.mem, pool⟩

/-- The state after a call on pool `i` left `h`. -/
def setHeap (g : GallocState) (i : Nat) (h : SliceHeap) : GallocState :=
  ⟨h.zone, h.mem, g.pools.set i h.pool⟩

/-- Store the `struct chunk_info` at `ci`. -/
def storeInfo (g : GallocState) (ci origin info : Nat) : GallocState :=
  { g with mem := setWord g.mem (ci / 4) (chunkInfo (g.mem (ci / 4)) origin info) }

/-- `galloc_from_slice`.  No chunk is `NULL`. -/
def gallocFromSlice (size : Nat) (g : GallocState) :
    Except GallocFault (Option Nat × GallocState) :=
  match slicePoolIndex size with
  | none => .ok (none, g)
  | some i =>
    match g.pools[i]? with
    | none => .error (.outside i)
    | some pool =>
      match sliceAlloc (g.heap pool) with
      | none => .error .bug
      | some (h, none) => .ok (none, g.setHeap i h)
      | some (h, some ci) => .ok (some (ci + CI_SIZE), (g.setHeap i h).storeInfo ci FROM_SLICE i)

/-- `galloc_from_pages`.  `get_pages` hands `NULL` to `page_to_addr` when there is no pile, so
the test for `NULL` that follows comes too late. -/
def gallocFromPages (size : Nat) (g : GallocState) :
    Except GallocFault (Option Nat × GallocState) :=
  let i := log2 (inpages (addWord size CI_SIZE))
  let (z, pg) := rawAllocPages g.zone i
  match pg with
  | none => .error .nullPage
  | some pg =>
    let ci := pageToAddr z pg
    .ok (some (ci + CI_SIZE), { g with zone := z }.storeInfo ci FROM_PAGES i)

def galloc (size : Nat) (g : GallocState) : Except GallocFault (Option Nat × GallocState) := do
  let size := gallocSize size
  let (chunk, g) ← g.gallocFromSlice size
  match chunk with
  | some chunk => return (some chunk, g)
  | none => g.gallocFromPages size

def gfree (chunk : Nat) (g : GallocState) : Except GallocFault GallocState :=
  let ci := chunk - CI_SIZE
  let info := g.mem (ci / 4)
  if ciOrigin info = FROM_SLICE then
    match g.pools[ciInfo info]? with
    | none => .error (.outside (ciInfo info))
    | some pool =>
      match sliceFree (g.heap pool) ci with
      | none => .error .bug
      | some h => .ok (g.setHeap (ciInfo info) h)
  else if ciOrigin info = FROM_PAGES then
    match putPages g.zone ci with
    | none => .error .nullPage
    | some z => .ok { g with zone := z }
  else .error .bug

/-- The loop of `galloc_init` over the pools from `i` on, with the rounds left.  `none` is its
`panic`. -/
def gallocInitLoop : Nat → Nat → GallocState → Option GallocState
  | 0, _, g => some g
  | n + 1, i, g =>
    match slicePoolCreate g.zone g.mem (poolSize i) with
    | none => none
    | some h => gallocInitLoop n (i + 1) ⟨h.zone, h.mem, g.pools ++ [h.pool]⟩

def gallocInit (z : Zone) (mem : Words) : Option GallocState :=
  gallocInitLoop NPOOLS 0 ⟨z, mem, []⟩

/-! ## The table of pools -/

inductive Call where
  | galloc (size : Nat)
  | gfree (chunk : Nat)
  | store (addr : Nat) (v : BitVec 32)
deriving DecidableEq, Repr

/-- One call.  `none` when it stops the kernel. -/
def call (g : GallocState) : Call → Option GallocState
  | .galloc size =>
    match g.galloc size with
    | .ok (_, g) => some g
    | .error _ => none
  | .gfree chunk =>
    match g.gfree chunk with
    | .ok g => some g
    | .error _ => none
  | .store addr v => some { g with mem := setWord g.mem (addr / 4) v }

/-- The table has a pool for every index below `NPOOLS`, of the size for the index. -/
def Ready (g : GallocState) : Prop :=
  g.pools.map SlicePool.objSize = (List.range NPOOLS).map poolSize

theorem setHeap_ready {pool : SlicePool} {h : SliceHeap} (hready : g.Ready)
    (hpool : g.pools[i]? = some pool) (hobj : h.pool.objSize = pool.objSize) :
    (g.setHeap i h).Ready := by
  have hset : (g.pools.set i h.pool).map SlicePool.objSize = g.pools.map SlicePool.objSize := by
    rw [List.map_set, hobj]
    refine List.ext_getElem? (fun j => ?_)
    rw [List.getElem?_set]
    split
    · rename_i hij
      subst hij
      obtain ⟨hlt, hget⟩ := List.getElem?_eq_some_iff.mp hpool
      simp [hlt, hget]
    · rfl
  exact hset.trans hready

theorem gallocFromSlice_ready (hready : g.Ready)
    (hcall : g.gallocFromSlice size = .ok (chunk, g')) : g'.Ready := by
  unfold gallocFromSlice at hcall
  split at hcall
  · cases hcall
    exact hready
  · split at hcall
    · cases hcall
    · rename_i pool hpool
      split at hcall
      · cases hcall
      · rename_i h halloc
        cases hcall
        exact setHeap_ready hready hpool (SliceHeap.allocStep_of_some halloc).objSize
      · rename_i h ci halloc
        cases hcall
        exact setHeap_ready hready hpool (SliceHeap.allocStep_of_some halloc).objSize

theorem gallocFromPages_ready (hready : g.Ready)
    (hcall : g.gallocFromPages size = .ok (chunk, g')) : g'.Ready := by
  unfold gallocFromPages at hcall
  dsimp only at hcall
  split at hcall
  · cases hcall
  · cases hcall
    exact hready

theorem galloc_ready (hready : g.Ready) (hcall : g.galloc size = .ok (chunk, g')) : g'.Ready := by
  obtain ⟨⟨chunk₁, g₁⟩, hslice, hrest⟩ := bind_eq_ok.mp hcall
  have hready₁ := gallocFromSlice_ready hready hslice
  cases chunk₁ with
  | some c =>
    cases hrest
    exact hready₁
  | none => exact gallocFromPages_ready hready₁ hrest

theorem gfree_ready {chunk : Nat} (hready : g.Ready) (hcall : g.gfree chunk = .ok g') :
    g'.Ready := by
  unfold gfree at hcall
  dsimp only at hcall
  split at hcall
  · split at hcall
    · cases hcall
    · rename_i pool hpool
      split at hcall
      · cases hcall
      · rename_i h hfree
        cases hcall
        exact setHeap_ready hready hpool (sliceFree_objSize hfree)
  · split at hcall
    · split at hcall
      · cases hcall
      · cases hcall
        exact hready
    · cases hcall

theorem call_ready {c : Call} (hready : g.Ready) (hcall : g.call c = some g') : g'.Ready := by
  cases c with
  | galloc size =>
    simp only [call] at hcall
    split at hcall
    · rename_i hok
      cases hcall
      exact galloc_ready hready hok
    · cases hcall
  | gfree chunk =>
    simp only [call] at hcall
    split at hcall
    · rename_i hok
      cases hcall
      exact gfree_ready hready hok
    · cases hcall
  | store addr v =>
    cases hcall
    exact hready

theorem gallocInitLoop_pools : ∀ (n i : Nat) (g g' : GallocState),
    gallocInitLoop n i g = some g' → g.pools.map SlicePool.objSize = (List.range i).map poolSize →
    g'.pools.map SlicePool.objSize = (List.range (i + n)).map poolSize
  | 0, i, g, g', hloop, hpools => by
    cases hloop
    exact hpools
  | n + 1, i, g, g', hloop, hpools => by
    unfold gallocInitLoop at hloop
    split at hloop
    · cases hloop
    · rename_i h hcreate
      have hobj : h.pool.objSize = poolSize i := slicePoolCreate_objSize hcreate
      have hnext := gallocInitLoop_pools n (i + 1) _ g' hloop (by
        rw [List.map_append, hpools, List.range_succ, List.map_append]
        simp [hobj])
      rw [hnext, Nat.add_right_comm, Nat.add_assoc]

theorem gallocInit_ready {z : Zone} {mem : Words} (hinit : gallocInit z mem = some g) :
    g.Ready := by
  have hpools := gallocInitLoop_pools NPOOLS 0 _ g hinit rfl
  exact hpools

theorem Ready.pool (hready : g.Ready) (hi : i < NPOOLS) :
    ∃ pool, g.pools[i]? = some pool ∧ pool.objSize = poolSize i := by
  have hget : (g.pools.map SlicePool.objSize)[i]? = some (poolSize i) := by
    rw [hready]
    simp [hi]
  rw [List.getElem?_map] at hget
  exact Option.map_eq_some_iff.mp hget

theorem Ready.outside (hready : g.Ready) (hi : NPOOLS ≤ i) : g.pools[i]? = none := by
  have hlen := congrArg List.length hready
  rw [List.length_map] at hlen
  rw [List.getElem?_eq_none_iff, hlen]
  exact hi

/-! ## The pool of a size -/

end GallocState

/-- The size rounded up to whole chunks, as a number. -/
def wholeChunks (size : Nat) : Nat :=
  ((if size = 0 then GALLOC_MIN_CHUNK else size) + (GALLOC_MIN_CHUNK - 1)) / GALLOC_MIN_CHUNK *
    GALLOC_MIN_CHUNK

theorem gallocSize_of_le (hle : size ≤ WORD_RANGE - GALLOC_MIN_CHUNK) :
    gallocSize size = wholeChunks size := by
  refine roundupL2_of_le ?_
  unfold GALLOC_MIN_CHUNK WORD_RANGE at *
  split <;> omega

theorem gallocSize_of_gt (hgt : WORD_RANGE - GALLOC_MIN_CHUNK < size) (hword : size < WORD_RANGE) :
    gallocSize size = 0 := by
  have hne : size ≠ 0 := by omega
  unfold gallocSize
  simp only [hne, if_false]
  refine roundupL2_of_gt hword (by decide) ?_
  omega

theorem wholeChunks_eq (size : Nat) : ∃ n, wholeChunks size = n * GALLOC_MIN_CHUNK ∧ 1 ≤ n ∧
    size ≤ 4 * n ∧ 4 * n < size + 4 + (if size = 0 then 1 else 0) := by
  refine ⟨_, rfl, ?_⟩
  unfold GALLOC_MIN_CHUNK
  split <;> omega

theorem slicePoolIndex_of_le (hpos : 1 ≤ n) (hle : n ≤ 512) :
    slicePoolIndex (n * GALLOC_MIN_CHUNK) = some (log2 n) := by
  have hlog : log2 n ≤ 9 := (log2_le_iff hpos (by unfold WORD_RANGE; omega)).mpr hle
  unfold slicePoolIndex
  rw [Nat.mul_div_cancel n (by decide)]
  exact if_neg (Nat.not_lt.mpr hlog)

theorem slicePoolIndex_of_gt (hgt : 512 < n) (hword : n < WORD_RANGE) :
    slicePoolIndex (n * GALLOC_MIN_CHUNK) = none := by
  have hlog : ¬ log2 n ≤ 9 :=
    fun hlog => Nat.not_le.mpr hgt ((log2_le_iff (by omega) hword).mp hlog)
  unfold slicePoolIndex
  rw [Nat.mul_div_cancel n (by decide)]
  exact if_pos (Nat.not_le.mp hlog)

theorem le_poolSize_log2 (hpos : 1 ≤ n) (hword : n < WORD_RANGE) :
    CI_SIZE + n * GALLOC_MIN_CHUNK ≤ poolSize (log2 n) := by
  have hle := (log2_spec hpos hword).1
  unfold poolSize GALLOC_MIN_CHUNK
  omega

namespace GallocState

variable {size : Nat}

/-- The index that `galloc_from_slice` gives to `galloc_sp` is one of the table, the pool there
has room for the chunk, and what the last pool has no room for comes from whole pages. -/
structure UsesPools (g : GallocState) (size : Nat) : Prop where
  pool : ∀ i, slicePoolIndex (gallocSize size) = some i → i < NPOOLS ∧
    ∃ pool, g.pools[i]? = some pool ∧ CI_SIZE + wholeChunks size ≤ pool.objSize
  pages : poolSize (NPOOLS - 1) < CI_SIZE + wholeChunks size →
    g.galloc size = g.gallocFromPages (gallocSize size)

theorem usesPools_of_le {g : GallocState} (hready : g.Ready) (hle : size ≤ 1024) :
    g.UsesPools size := by
  obtain ⟨n, hchunks, hpos, hlow, hhigh⟩ := wholeChunks_eq size
  have hn : n ≤ 256 := by
    split at hhigh <;> omega
  have hword : n < WORD_RANGE := Nat.lt_of_le_of_lt hn (by decide)
  have hsize : gallocSize size = n * GALLOC_MIN_CHUNK := by
    rw [gallocSize_of_le (Nat.le_trans hle (by decide)), hchunks]
  constructor
  · intro i hi
    rw [hsize, slicePoolIndex_of_le hpos (by omega)] at hi
    cases hi
    have hlog : log2 n ≤ 8 := (log2_le_iff hpos hword).mpr hn
    have hlt : log2 n < NPOOLS := Nat.lt_succ_of_le hlog
    obtain ⟨pool, hpool, hobj⟩ := hready.pool hlt
    refine ⟨hlt, pool, hpool, ?_⟩
    rw [hobj, hchunks]
    exact le_poolSize_log2 hpos hword
  · intro hlarge
    rw [hchunks] at hlarge
    have hroom : poolSize (NPOOLS - 1) = 1024 + CI_SIZE := by decide
    unfold GALLOC_MIN_CHUNK at hlarge
    omega

theorem usesPools_of_gt {g : GallocState} (hgt : 2048 < size)
    (hword : size ≤ WORD_RANGE - GALLOC_MIN_CHUNK) : g.UsesPools size := by
  obtain ⟨n, hchunks, -, hlow, hhigh⟩ := wholeChunks_eq size
  have hnone : slicePoolIndex (gallocSize size) = none := by
    rw [gallocSize_of_le hword, hchunks]
    refine slicePoolIndex_of_gt (by omega) ?_
    split at hhigh <;> omega
  constructor
  · intro i hi
    rw [hnone] at hi
    cases hi
  · intro _
    unfold galloc gallocFromSlice
    simp only [hnone]
    rfl

/-- Between the two `galloc_from_slice` reads the table one past its end. -/
theorem slicePoolIndex_band (hgt : 1024 < size) (hle : size ≤ 2048) :
    slicePoolIndex (gallocSize size) = some NPOOLS := by
  obtain ⟨n, hchunks, hpos, hlow, hhigh⟩ := wholeChunks_eq size
  have hn : 256 < n ∧ n ≤ 512 := by
    split at hhigh <;> omega
  have hword : n < WORD_RANGE := Nat.lt_of_le_of_lt hn.2 (by decide)
  rw [gallocSize_of_le (Nat.le_trans hle (by decide)), hchunks, slicePoolIndex_of_le hpos hn.2]
  have hle9 : log2 n ≤ 9 := (log2_le_iff hpos hword).mpr hn.2
  have hgt8 : ¬ log2 n ≤ 8 := fun h => Nat.not_le.mpr hn.1 ((log2_le_iff hpos hword).mp h)
  have heq : log2 n = 9 := by omega
  rw [heq]
  rfl

theorem galloc_band {g : GallocState} (hready : g.Ready) (hgt : 1024 < size) (hle : size ≤ 2048) :
    g.galloc size = .error (.outside NPOOLS) := by
  unfold galloc gallocFromSlice
  simp only [slicePoolIndex_band hgt hle, hready.outside (Nat.le_refl _)]
  rfl

/-- After any calls, `galloc` uses the pools as it should exactly for the sizes up to that of
the last pool and, as long as the rounding stays in the word, those above twice that. -/
theorem galloc_usesPools_iff {z : Zone} {mem : Words} {g₀ g : GallocState} {calls : List Call}
    (hinit : gallocInit z mem = some g₀) (hrun : run call g₀ calls = some g) {size : Nat}
    (hword : size < WORD_RANGE) : g.UsesPools size ↔
      size ≤ 1024 ∨ (2048 < size ∧ size ≤ WORD_RANGE - GALLOC_MIN_CHUNK) := by
  have hready : g.Ready := run_invariant Ready (fun _ _ _ h hc => call_ready h hc)
    (gallocInit_ready hinit) hrun
  constructor
  · intro huses
    by_contra hnot
    rw [not_or, not_le, not_and_or, not_lt, not_le] at hnot
    obtain ⟨hgt, hle | hwrap⟩ := hnot
    · exact Nat.lt_irrefl _ (huses.pool NPOOLS (slicePoolIndex_band hgt hle)).1
    · -- the size is rounded to 0 and the chunk comes from the first pool
      have hzero : slicePoolIndex (gallocSize size) = some 0 := by
        rw [gallocSize_of_gt hwrap hword]
        decide
      obtain ⟨-, pool, hpool, hroom⟩ := huses.pool 0 hzero
      obtain ⟨pool', hpool', hobj⟩ := hready.pool (i := 0) (by decide)
      obtain rfl : pool' = pool := Option.some.inj (hpool'.symm.trans hpool)
      obtain ⟨n, hchunks, -, hlow, -⟩ := wholeChunks_eq size
      have hsmall : poolSize 0 = 8 := by decide
      rw [hchunks] at hroom
      unfold GALLOC_MIN_CHUNK at hroom
      omega
  · intro hcond
    rcases hcond with hle | ⟨hgt, hle⟩
    · exact usesPools_of_le hready hle
    · exact usesPools_of_gt hgt hle

theorem exists_gallocInit : ∃ g, gallocInit (memZoneInit (rawZone 16)) (fun _ => 0#32) = some g :=
  ⟨Option.get _ (by decide +kernel), (Option.some_get _).symm⟩

theorem galloc_usesPools_1024 :
    ∃ g, gallocInit (memZoneInit (rawZone 16)) (fun _ => 0#32) = some g ∧
      run call g [] = some g ∧ g.UsesPools 1024 := by
  obtain ⟨g, hinit⟩ := exists_gallocInit
  have hrun := run_nil call g
  exact ⟨g, hinit, hrun,
    (galloc_usesPools_iff hinit hrun (by decide)).mpr (Or.inl (Nat.le_refl _))⟩

/-- One byte more reads past the end of the table. -/
theorem galloc_1025_outside : ∃ g, gallocInit (memZoneInit (rawZone 16)) (fun _ => 0#32) = some g ∧
      g.galloc 1025 = .error (.outside NPOOLS) ∧ ¬ g.UsesPools 1025 := by
  have hindex : slicePoolIndex (gallocSize 1025) = some NPOOLS :=
    slicePoolIndex_band (by decide) (by decide)
  obtain ⟨g, hinit⟩ := exists_gallocInit
  exact ⟨g, hinit, galloc_band (gallocInit_ready hinit) (by decide) (by decide),
    fun huses => Nat.lt_irrefl _ (huses.pool NPOOLS hindex).1⟩

/-! ## The memory behind a chunk -/

end GallocState

namespace GallocState

variable {g g' : GallocState} {size chunk : Nat}

end GallocState

namespace GallocState

end GallocState

end Koowaldah
