import Koowaldah.PageAlloc.Spec

/-!
# The list of memory zones

A model of `init_mem_info` of `kernel/mm_zone.c`, of `arch_init_boot_zone` of
`arch/i386/bootmem_zone.c`, and of `addr_to_page` of `kernel/page_alloc.c` with its
walk over the zones.

There are two heads of a zone list.  `mem_zone_init` links a zone into
`global_mem_info.zone_list`, which `addr_to_page` walks.  `init_mem_info` then
links every zone into `memory_info.zone_list`, and does not unlink it first.  After
boot the walk goes from `global_mem_info` to the user zone, to the boot zone and on
to `memory_info`, and from there round the other ring.  It does not come back
(`MemInfo.Crossed`, `initMemInfo_crossed`).

`addrToPage_looksUp_iff` says for which addresses the lookup does what it is for.  The
pages that the allocator hands out are among them (`Crossed.addrToPage_of_page`).
-/

namespace Koowaldah

open SysLib

def KERN_ALLOWANCE : Nat := 8

/-- `enum zone_type`. -/
inductive ZoneType where
  | boot
  | user
  | vmap
deriving DecidableEq, Repr

/-- A node of a zone list: the `list` of a zone, `global_mem_info.zone_list`, or
`memory_info.zone_list`. -/
inductive ZoneNode where
  | zone (z : ZoneType)
  | globalMemInfo
  | memoryInfo
deriving DecidableEq, Repr

/-- The `base` and the `total_pages` of a zone. -/
structure ZoneSpan where
  base : Nat
  totalPages : Nat
deriving DecidableEq, Repr

def Zone.span (zone : Zone) : ZoneSpan := ⟨zone.base, zone.totalPages⟩

/-- The zone lists.  `zoneOf` is `klist0_entry`, the structure around a node.  Around
the head of a list there is no zone, and `klist0_entry` reads other data as one. -/
structure MemInfo where
  links : Links ZoneNode
  zoneOf : ZoneNode → Zone

/-! ## Initialisation -/

/-- The number of bytes from `kernel_end` up that `arch_init_boot_zone` shares out.
`mem_upper` counts kilobytes from the first megabyte up. -/
def totalMem (kernelEnd memUpper : Nat) : Nat :=
  (memUpper * 1024 % WORD_RANGE + WORD_RANGE - (kernelEnd - 0x100000)) % WORD_RANGE

/-- The boot zone of `arch_init_boot_zone`. -/
def bootSpan (kernelEnd memUpper : Nat) : ZoneSpan where
  base := kernelEnd
  totalPages := totalMem kernelEnd memUpper / PAGE_SIZE / KERN_ALLOWANCE

/-- The user zone of `arch_init_boot_zone`. -/
def userSpan (kernelEnd memUpper : Nat) : ZoneSpan where
  base := kernelEnd + (bootSpan kernelEnd memUpper).totalPages * PAGE_SIZE
  totalPages :=
    totalMem kernelEnd memUpper / PAGE_SIZE - (bootSpan kernelEnd memUpper).totalPages

namespace MemInfo

/-- Set `base` and `total_pages` of a zone. -/
def setSpan (m : MemInfo) (z : ZoneType) (span : ZoneSpan) : MemInfo :=
  { m with
    zoneOf := Function.update m.zoneOf (.zone z)
      { m.zoneOf (.zone z) with base := span.base, totalPages := span.totalPages } }

/-- `mem_zone_init`, with the list the zone is linked into. -/
def zoneInit (m : MemInfo) (z : ZoneType) : MemInfo where
  links := klist0Append (.zone z) .globalMemInfo (klist0Init (.zone z) m.links)
  zoneOf := Function.update m.zoneOf (.zone z) (memZoneInit (m.zoneOf (.zone z)))

/-- `arch_init_boot_zone`, for the spans of the two zones. -/
def archInitBootZone (m : MemInfo) (boot user : ZoneSpan) : MemInfo :=
  let m := (m.setSpan .boot boot).zoneInit .boot
  (m.setSpan .user user).zoneInit .user

def initMemInfo (m : MemInfo) (boot user : ZoneSpan) : MemInfo :=
  let links := klist0Init .memoryInfo m.links
  let links := klist0Init (.zone .boot) links
  let links := klist0Init (.zone .user) links
  let links := klist0Init (.zone .vmap) links
  let m := { m with links := links }.archInitBootZone boot user
  let links := klist0Append (.zone .boot) .memoryInfo m.links
  let links := klist0Append (.zone .user) .memoryInfo links
  let links := klist0Append (.zone .vmap) .memoryInfo links
  { m with links := links }

/-- The image of the kernel before `init_mem_info`: `global_mem_info` is initialised,
and the zones are in the part of the memory that is cleared. -/
structure Loaded (m : MemInfo) : Prop where
  globalMemInfo_empty : m.links.IsRing .globalMemInfo []
  span_eq_zero : ∀ z, (m.zoneOf (.zone z)).span = ⟨0, 0⟩

end MemInfo

/-! ## The lookup -/

/-- The test of `addr_to_page` on one zone.  The end of the zone is computed in a
machine word. -/
def ZoneSpan.Has (span : ZoneSpan) (addr : Nat) : Prop :=
  addr > span.base ∧ addr < (span.base + span.totalPages * PAGE_SIZE) % WORD_RANGE

instance (span : ZoneSpan) (addr : Nat) : Decidable (span.Has addr) :=
  inferInstanceAs (Decidable (_ ∧ _))

namespace MemInfo

/-- The loop of `addr_to_page` from `tmp` on.  A page is the zone it was found in and
its index, and `some none` is `NULL`.  `none` says that the loop is not over after the
rounds it was given. -/
def addrToPageLoop (m : MemInfo) (addr : Nat) :
    Nat → ZoneNode → Option (Option (ZoneNode × Nat))
  | 0, _ => none
  | n + 1, tmp =>
    if tmp = .globalMemInfo then some none
    else
      let zone := (m.zoneOf tmp).span
      if zone.Has addr then some (some (tmp, (addr - zone.base) / PAGE_SIZE))
      else m.addrToPageLoop addr n (m.links.next tmp)

/-- `addr_to_page`, in a number of rounds. -/
def addrToPage (m : MemInfo) (addr rounds : Nat) : Option (Option (ZoneNode × Nat)) :=
  m.addrToPageLoop addr rounds (m.links.next .globalMemInfo)

end MemInfo

def ZoneSpan.InPage (span : ZoneSpan) (addr i : Nat) : Prop :=
  i < span.totalPages ∧
    span.base + i * PAGE_SIZE ≤ addr ∧ addr < span.base + (i + 1) * PAGE_SIZE

/-- The two zones lie in the address space and have no byte in common. -/
structure ZonesApart (boot user : ZoneSpan) : Prop where
  boot_le : boot.base + boot.totalPages * PAGE_SIZE ≤ WORD_RANGE
  user_le : user.base + user.totalPages * PAGE_SIZE ≤ WORD_RANGE
  apart : boot.base + boot.totalPages * PAGE_SIZE ≤ user.base ∨
    user.base + user.totalPages * PAGE_SIZE ≤ boot.base

/-- What the lookup of an address is for: it ends, finds every page of the two zones
but the first, and nothing outside the zones. -/
def MemInfo.LooksUp (m : MemInfo) (boot user : ZoneSpan) (addr : Nat) : Prop :=
  ∃ rounds r, m.addrToPage addr rounds = some r ∧
    (∀ i, 1 ≤ i → boot.InPage addr i → r = some (.zone .boot, i)) ∧
    (∀ i, 1 ≤ i → user.InPage addr i → r = some (.zone .user, i)) ∧
    ((∀ i, ¬boot.InPage addr i) → (∀ i, ¬user.InPage addr i) → r = none)

/-- When the lookup does what it is for: the address passes the test of a zone, or it
is in the first page of one and the data around `memory_info` stops the walk. -/
def MemInfo.Stops (m : MemInfo) (boot user : ZoneSpan) (addr : Nat) : Prop :=
  boot.Has addr ∨ user.Has addr ∨
    ((m.zoneOf .memoryInfo).span.Has addr ∧ (boot.InPage addr 0 ∨ user.InPage addr 0))

/-! ## The links after boot -/

theorem memZoneInit_span (z : Zone) : (memZoneInit z).span = z.span := by
  rcases memZoneInit_samePages z with ⟨hbase, htotal⟩
  unfold Zone.span
  rw [hbase, htotal]

namespace MemInfo

/-- The lists of zones that `init_mem_info` leaves: the links that the walk follows, and
the spans of the nodes on its way. -/
structure Crossed (m : MemInfo) (boot user around : ZoneSpan) : Prop where
  next_globalMemInfo : m.links.next .globalMemInfo = .zone .user
  next_user : m.links.next (.zone .user) = .zone .boot
  next_boot : m.links.next (.zone .boot) = .memoryInfo
  next_memoryInfo : m.links.next .memoryInfo = .zone .vmap
  next_vmap : m.links.next (.zone .vmap) = .zone .user
  span_user : (m.zoneOf (.zone .user)).span = user
  span_boot : (m.zoneOf (.zone .boot)).span = boot
  span_memoryInfo : (m.zoneOf .memoryInfo).span = around
  span_vmap : (m.zoneOf (.zone .vmap)).span = ⟨0, 0⟩

variable {m : MemInfo} {boot user around : ZoneSpan} {addr : Nat}

theorem initMemInfo_crossed (hm : m.Loaded) (boot user : ZoneSpan) :
    (m.initMemInfo boot user).Crossed boot user (m.zoneOf .memoryInfo).span := by
  have hnext := (Links.isRing_nil_iff.mp hm.globalMemInfo_empty).1
  constructor
  all_goals
    simp [initMemInfo, archInitBootZone, zoneInit, setSpan, klist0Init, klist0Append, hnext,
      memZoneInit_span, hm.span_eq_zero]
  · rfl
  · rfl

/-! ## The walk -/

/-- A walk over nodes that never lead to `global_mem_info` does not return `NULL`: it
returns a page of one of the nodes, or goes on. -/
theorem addrToPageLoop_lost
    (hnext : ∀ node, node ≠ .globalMemInfo → m.links.next node ≠ .globalMemInfo) {n : Nat}
    {tmp : ZoneNode} (htmp : tmp ≠ .globalMemInfo) {r : Option (ZoneNode × Nat)}
    (hr : m.addrToPageLoop addr n tmp = some r) :
    ∃ node, node ≠ .globalMemInfo ∧ (m.zoneOf node).span.Has addr ∧
      r = some (node, (addr - (m.zoneOf node).span.base) / PAGE_SIZE) := by
  induction n generalizing tmp with
  | zero => cases hr
  | succ n ih =>
    unfold addrToPageLoop at hr
    rw [if_neg htmp] at hr
    by_cases hhas : (m.zoneOf tmp).span.Has addr
    · rw [if_pos hhas] at hr
      exact ⟨tmp, htmp, hhas, (Option.some.inj hr).symm⟩
    · rw [if_neg hhas] at hr
      exact ih (hnext tmp htmp) hr

theorem addrToPageLoop_of_has {tmp : ZoneNode} (hne : tmp ≠ .globalMemInfo) (n : Nat)
    (hhas : (m.zoneOf tmp).span.Has addr) : m.addrToPageLoop addr (n + 1) tmp =
      some (some (tmp, (addr - (m.zoneOf tmp).span.base) / PAGE_SIZE)) := by
  unfold addrToPageLoop
  rw [if_neg hne, if_pos hhas]

theorem addrToPageLoop_of_not_has {tmp : ZoneNode} (hne : tmp ≠ .globalMemInfo) (n : Nat)
    (hhas : ¬(m.zoneOf tmp).span.Has addr) :
    m.addrToPageLoop addr (n + 1) tmp = m.addrToPageLoop addr n (m.links.next tmp) := by
  rw [addrToPageLoop, if_neg hne, if_neg hhas]

theorem Crossed.next_ne (hm : m.Crossed boot user around) (node : ZoneNode)
    (hne : node ≠ .globalMemInfo) : m.links.next node ≠ .globalMemInfo := by
  match node with
  | .zone .boot =>
    rw [hm.next_boot]
    decide
  | .zone .user =>
    rw [hm.next_user]
    decide
  | .zone .vmap =>
    rw [hm.next_vmap]
    decide
  | .memoryInfo =>
    rw [hm.next_memoryInfo]
    decide
  | .globalMemInfo => exact absurd rfl hne

section

variable (hm : m.Crossed boot user around)

include hm

/-- What `addr_to_page` can return after boot: a page of a zone that passes the test, or
of what it takes for the zone around `memory_info`. -/
theorem Crossed.lost {rounds : Nat}
    {r : Option (ZoneNode × Nat)} (hr : m.addrToPage addr rounds = some r) :
    boot.Has addr ∨ user.Has addr ∨ (around.Has addr ∧ ∃ i, r = some (.memoryInfo, i)) := by
  unfold addrToPage at hr
  rw [hm.next_globalMemInfo] at hr
  rcases addrToPageLoop_lost hm.next_ne (by decide) hr with ⟨node, hne, hhas, hr⟩
  match node with
  | .zone .boot => exact .inl (hm.span_boot ▸ hhas)
  | .zone .user => exact .inr (.inl (hm.span_user ▸ hhas))
  | .zone .vmap =>
    rw [hm.span_vmap] at hhas
    exact absurd hhas.2 (Nat.not_lt_zero _)
  | .memoryInfo => exact .inr (.inr ⟨hm.span_memoryInfo ▸ hhas, _, hr⟩)
  | .globalMemInfo => exact absurd rfl hne

theorem Crossed.addrToPage_user (huser : user.Has addr) :
    m.addrToPage addr 1 = some (some (.zone .user, (addr - user.base) / PAGE_SIZE)) := by
  rw [← hm.span_user] at huser
  unfold addrToPage
  rw [hm.next_globalMemInfo, addrToPageLoop_of_has (by decide) 0 huser, hm.span_user]

theorem Crossed.addrToPage_of_not_user (huser : ¬user.Has addr)
    (n : Nat) : m.addrToPage addr (n + 1) = m.addrToPageLoop addr n (.zone .boot) := by
  rw [← hm.span_user] at huser
  unfold addrToPage
  rw [hm.next_globalMemInfo, addrToPageLoop_of_not_has (by decide) n huser, hm.next_user]

theorem Crossed.addrToPage_boot (huser : ¬user.Has addr) (hboot : boot.Has addr) :
    m.addrToPage addr 2 = some (some (.zone .boot, (addr - boot.base) / PAGE_SIZE)) := by
  rw [← hm.span_boot] at hboot
  rw [hm.addrToPage_of_not_user huser, addrToPageLoop_of_has (by decide) 0 hboot, hm.span_boot]

theorem Crossed.addrToPage_memoryInfo
    (huser : ¬user.Has addr) (hboot : ¬boot.Has addr) (haround : around.Has addr) :
    m.addrToPage addr 3 = some (some (.memoryInfo, (addr - around.base) / PAGE_SIZE)) := by
  rw [← hm.span_boot] at hboot
  rw [← hm.span_memoryInfo] at haround
  rw [hm.addrToPage_of_not_user huser, addrToPageLoop_of_not_has (by decide) 1 hboot,
    hm.next_boot, addrToPageLoop_of_has (by decide) 0 haround, hm.span_memoryInfo]

end

end MemInfo

/-! ## Pages and the test -/

namespace ZoneSpan

variable {span : ZoneSpan} {addr i : Nat}

theorem InPage.eq (h : span.InPage addr i) : (addr - span.base) / PAGE_SIZE = i := by
  rcases h with ⟨-, hlo, hhi⟩
  unfold PAGE_SIZE at *
  omega

theorem InPage.lt (h : span.InPage addr i) :
    span.base ≤ addr ∧ addr < span.base + span.totalPages * PAGE_SIZE := by
  rcases h with ⟨hi, hlo, hhi⟩
  have := Nat.mul_le_mul_right PAGE_SIZE (show i + 1 ≤ span.totalPages from hi)
  omega

theorem Has.inPage (h : span.Has addr) : span.InPage addr ((addr - span.base) / PAGE_SIZE) := by
  have hlt := Nat.lt_of_lt_of_le h.2 (Nat.mod_le ..)
  have hbase := h.1
  unfold InPage PAGE_SIZE at *
  omega

end ZoneSpan

theorem inPage_pageToAddr {zone : Zone} {pg : Nat} (hpg : pg < zone.totalPages) :
    zone.span.InPage (pageToAddr zone pg) pg := by
  refine ⟨hpg, Nat.le_refl _, ?_⟩
  show zone.base + pg * PAGE_SIZE < zone.base + (pg + 1) * PAGE_SIZE
  unfold PAGE_SIZE
  omega

/-- The address of a page but the first passes the test of the zone, when the end of the
zone is an address. -/
theorem has_pageToAddr {zone : Zone} {pg : Nat} (hpos : 1 ≤ pg) (hpg : pg < zone.totalPages)
    (hend : pageToAddr zone zone.totalPages < WORD_RANGE) : zone.span.Has (pageToAddr zone pg) := by
  unfold pageToAddr at *
  constructor
  · show zone.base + pg * PAGE_SIZE > zone.base
    unfold PAGE_SIZE
    omega
  · show zone.base + pg * PAGE_SIZE < (zone.base + zone.totalPages * PAGE_SIZE) % WORD_RANGE
    rw [Nat.mod_eq_of_lt hend]
    unfold PAGE_SIZE
    omega

theorem ZonesApart.not_inPage {boot user : ZoneSpan} (hz : ZonesApart boot user)
    {addr i j : Nat} (hboot : boot.InPage addr i) : ¬user.InPage addr j := by
  intro huser
  have hb := hboot.lt
  have hu := huser.lt
  have := hz.apart
  omega

/-- The zones of `arch_init_boot_zone` are apart when the memory reaches past the kernel
and ends in the address space. -/
theorem zonesApart_bootSpan {kernelEnd memUpper : Nat} (hlo : 0x100000 ≤ kernelEnd)
    (hmem : kernelEnd ≤ 0x100000 + memUpper * 1024)
    (hhi : 0x100000 + memUpper * 1024 ≤ WORD_RANGE) :
    ZonesApart (bootSpan kernelEnd memUpper) (userSpan kernelEnd memUpper) := by
  have htotal : kernelEnd + totalMem kernelEnd memUpper ≤ WORD_RANGE := by
    unfold totalMem WORD_RANGE at *
    omega
  constructor
  · show kernelEnd + totalMem kernelEnd memUpper / 4096 / 8 * 4096 ≤ WORD_RANGE
    omega
  · show kernelEnd + totalMem kernelEnd memUpper / 4096 / 8 * 4096 +
      (totalMem kernelEnd memUpper / 4096 - totalMem kernelEnd memUpper / 4096 / 8) * 4096 ≤
        WORD_RANGE
    omega
  · exact .inl (Nat.le_refl _)

/-! ## Main results -/

namespace MemInfo

variable {m : MemInfo} {boot user around : ZoneSpan} {addr : Nat}

theorem looksUp_of_user (hz : ZonesApart boot user) (hm : m.Crossed boot user around)
    (huser : user.Has addr) : m.LooksUp boot user addr := by
  have hpage := huser.inPage
  refine ⟨1, _, hm.addrToPage_user huser, ?_, ?_, ?_⟩
  · intro i _ hboot
    exact absurd hpage (hz.not_inPage hboot)
  · intro i _ hi
    rw [hi.eq]
  · intro _ hnot
    exact absurd hpage (hnot _)

theorem looksUp_of_boot (hz : ZonesApart boot user) (hm : m.Crossed boot user around)
    (hboot : boot.Has addr) : m.LooksUp boot user addr := by
  have hpage := hboot.inPage
  have huser : ¬user.Has addr := fun huser => hz.not_inPage hpage huser.inPage
  refine ⟨2, _, hm.addrToPage_boot huser hboot, ?_, ?_, ?_⟩
  · intro i _ hi
    rw [hi.eq]
  · intro i _ hi
    exact absurd hi (hz.not_inPage hpage)
  · intro hnot _
    exact absurd hpage (hnot _)

theorem looksUp_of_first (hz : ZonesApart boot user)
    (hfirst : boot.InPage addr 0 ∨ user.InPage addr 0) {rounds : Nat} {r : Option (ZoneNode × Nat)}
    (hr : m.addrToPage addr rounds = some r) : m.LooksUp boot user addr := by
  refine ⟨rounds, r, hr, ?_, ?_, ?_⟩
  · intro i hi hboot
    rcases hfirst with hfirst | hfirst
    · have := hboot.eq.symm.trans hfirst.eq
      omega
    · exact absurd hfirst (hz.not_inPage hboot)
  · intro i hi huser
    rcases hfirst with hfirst | hfirst
    · exact absurd huser (hz.not_inPage hfirst)
    · have := huser.eq.symm.trans hfirst.eq
      omega
  · intro hboot huser
    rcases hfirst with hfirst | hfirst
    · exact absurd hfirst (hboot 0)
    · exact absurd hfirst (huser 0)

/-- A page but the first of a zone is found again by its address, when the end of the
zone is an address. -/
theorem Crossed.addrToPage_of_page (hz : ZonesApart boot user) (hm : m.Crossed boot user around)
    {z : ZoneType} {pg : Nat} (hpos : 1 ≤ pg) (hpg : pg < (m.zoneOf (.zone z)).totalPages)
    (hend : pageToAddr (m.zoneOf (.zone z)) (m.zoneOf (.zone z)).totalPages < WORD_RANGE) :
    ∃ rounds, m.addrToPage (pageToAddr (m.zoneOf (.zone z)) pg) rounds =
      some (some (.zone z, pg)) := by
  have hpage := inPage_pageToAddr hpg
  have hhas := has_pageToAddr hpos hpg hend
  have heq := hpage.eq
  match z with
  | .boot =>
    rw [hm.span_boot] at hpage hhas heq
    refine ⟨2, ?_⟩
    rw [hm.addrToPage_boot (fun huser => hz.not_inPage hpage huser.inPage) hhas, heq]
  | .user =>
    rw [hm.span_user] at hhas heq
    refine ⟨1, ?_⟩
    rw [hm.addrToPage_user hhas, heq]
  | .vmap =>
    have hzero : (m.zoneOf (.zone .vmap)).totalPages = 0 :=
      congrArg ZoneSpan.totalPages hm.span_vmap
    rw [hzero] at hpg
    exact absurd hpg (Nat.not_lt_zero _)

/-- After boot the lookup does what it is for at the addresses that pass the test of a
zone, and at those of a first page where the data around `memory_info` stops it. -/
theorem addrToPage_looksUp_iff (hm : m.Loaded) (hz : ZonesApart boot user) (addr : Nat) :
    (m.initMemInfo boot user).LooksUp boot user addr ↔ m.Stops boot user addr := by
  have hcrossed := initMemInfo_crossed hm boot user
  constructor
  · intro hlooks
    rcases hlooks with ⟨rounds, r, hr, hboot, huser, hnone⟩
    rcases hcrossed.lost hr with hhas | hhas | ⟨haround, k, rfl⟩
    · exact .inl hhas
    · exact .inr (.inl hhas)
    · refine .inr (.inr ⟨haround, ?_⟩)
      by_contra hfirst
      rw [not_or] at hfirst
      -- The result is no page of a zone, so the address is in no zone at all.
      have hb : ∀ i, ¬boot.InPage addr i := by
        intro i hi
        cases i with
        | zero => exact hfirst.1 hi
        | succ i => exact absurd (hboot _ (Nat.succ_pos i) hi) (by simp)
      have hu : ∀ i, ¬user.InPage addr i := by
        intro i hi
        cases i with
        | zero => exact hfirst.2 hi
        | succ i => exact absurd (huser _ (Nat.succ_pos i) hi) (by simp)
      exact absurd (hnone hb hu) (by simp)
  · intro hstops
    by_cases hboot : boot.Has addr
    · exact looksUp_of_boot hz hcrossed hboot
    by_cases huser : user.Has addr
    · exact looksUp_of_user hz hcrossed huser
    rcases hstops with h | h | ⟨haround, hfirst⟩
    · exact absurd h hboot
    · exact absurd h huser
    · exact looksUp_of_first hz hfirst (hcrossed.addrToPage_memoryInfo huser hboot haround)

/-- An image of the kernel in memory that is zero around the two heads. -/
def loadedImage : MemInfo where
  links := klist0Init .globalMemInfo ⟨id, id⟩
  zoneOf := fun _ => ⟨0, 0, 0, fun _ => [], fun _ => 0, fun _ => 0, ⟨id, id⟩⟩

theorem loadedImage_loaded : loadedImage.Loaded :=
  ⟨klist0Init_isRing .., fun _ => rfl⟩

theorem addrToPage_looksUp_second :
    (loadedImage.initMemInfo (bootSpan 0x200000 15360) (userSpan 0x200000 15360)).LooksUp
      (bootSpan 0x200000 15360) (userSpan 0x200000 15360) 0x201000 :=
  (addrToPage_looksUp_iff loadedImage_loaded
    (zonesApart_bootSpan (by decide) (by decide) (by decide)) 0x201000).mpr
    (.inl ⟨by decide, by decide⟩)

theorem addrToPage_of_page_second : ∃ rounds,
    (loadedImage.initMemInfo (bootSpan 0x200000 15360) (userSpan 0x200000 15360)).addrToPage
      0x201000 rounds = some (some (.zone .boot, 1)) := by
  have hm := MemInfo.initMemInfo_crossed loadedImage_loaded (bootSpan 0x200000 15360)
    (userSpan 0x200000 15360)
  have haddr : ∀ pg, pageToAddr (MemInfo.zoneOf _ (.zone .boot)) pg = 0x200000 + pg * PAGE_SIZE :=
    fun pg => congrArg (fun span => span.base + pg * PAGE_SIZE) hm.span_boot
  have htotal : Zone.totalPages (MemInfo.zoneOf _ (.zone .boot)) = 448 :=
    congrArg ZoneSpan.totalPages hm.span_boot
  have hfound := hm.addrToPage_of_page (z := .boot)
    (zonesApart_bootSpan (by decide) (by decide) (by decide)) (Nat.le_refl 1)
    (by rw [htotal]; decide) (by rw [haddr, htotal]; decide)
  rwa [haddr] at hfound

/-- On that machine the lookup of an address of the video memory, which is in no zone,
does not end. -/
theorem addrToPage_video_lost : (∀ i, ¬(bootSpan 0x200000 15360).InPage 0xb8000 i) ∧
      (∀ i, ¬(userSpan 0x200000 15360).InPage 0xb8000 i) ∧
      ∀ rounds, (loadedImage.initMemInfo (bootSpan 0x200000 15360)
        (userSpan 0x200000 15360)).addrToPage 0xb8000 rounds = none := by
  have hcrossed := initMemInfo_crossed loadedImage_loaded (bootSpan 0x200000 15360)
    (userSpan 0x200000 15360)
  refine ⟨?_, ?_, ?_⟩
  · intro i hi
    exact absurd hi.lt.1 (by decide)
  · intro i hi
    exact absurd hi.lt.1 (by decide)
  · intro rounds
    rw [Option.eq_none_iff_forall_ne_some]
    intro r hr
    rcases hcrossed.lost hr with h | h | ⟨h, -⟩
    · exact absurd h.1 (by decide)
    · exact absurd h.1 (by decide)
    · exact absurd h.2 (by decide)

end MemInfo

end Koowaldah
