import Koowaldah.Kqueue.Basic

/-!
# The steps of the byte queue

What `kqueue_push` and `kqueue_pull_tail` do, one page at a time.
A push first fills the newest page (`KqueueHeap.fillLast`) and then adds pages
(`KqueueHeap.addPage`).  `kqueuePush_of_room`, `kqueuePush_of_spill` and `kqueuePush_of_full`
are its three ways.

`QueueHeld` is what needs no condition on the calls: the pages of a queue are
handed out to it, and `q->count` is the sum of the counts of the pages.
`kqueueRun_held` has it for every state that calls reach, and `kqueueRun_accounts` adds the
bytes that were pushed and pulled.
-/

namespace Koowaldah

open SysLib SysLib.Dyadic

theorem maxCount_pos : 0 < MAX_COUNT := by
  unfold MAX_COUNT PAGE_SIZE SIZEOF_KQUEUE_PAGE
  omega

namespace KqueueHeap

def fillLast (h : KqueueHeap) (tmp : KqueuePage) (data t : Nat) : KqueueHeap :=
  { h with
    mem := memoryCopy h.mem (tmp.base + tmp.count) data t
    pages := h.pages.dropLast ++ [{ tmp with count := tmp.count + t }]
    count := h.count + t }

/-- The page that `get_page` has handed out joins the queue with `t` bytes. -/
def addPage (h : KqueueHeap) (pg data t : Nat) : KqueueHeap :=
  let z := (rawAllocPages h.zone 0).1
  let base := pageToAddr z pg + SIZEOF_KQUEUE_PAGE
  ⟨z, memoryCopy h.mem base data t, h.pages ++ [⟨pg, base, t⟩], h.count + t⟩

/-- The oldest page is copied to `dst` and given back. -/
def takePage (h : KqueueHeap) (tmp : KqueuePage) (dst : Nat) : KqueueHeap :=
  { h with
    zone := freePages h.zone tmp.page
    mem := memoryCopy h.mem dst tmp.base tmp.count
    count := h.count - tmp.count }

/-- A part of the oldest page is copied to `dst`. -/
def takePart (h : KqueueHeap) (tmp : KqueuePage) (rest : List KqueuePage) (dst len : Nat) :
    KqueueHeap :=
  { h with
    mem := memoryCopy h.mem dst tmp.base len
    pages := { tmp with count := tmp.count - len, base := tmp.base + len } :: rest
    count := h.count - len }

/-- The bytes that `kqueue_push` counts as free in the newest page. -/
def lastRoom (h : KqueueHeap) : Nat :=
  match h.pages.getLast? with
  | none => 0
  | some tmp => MAX_COUNT - tmp.count

end KqueueHeap

/-! ## One round -/

section Rounds

variable {h : KqueueHeap} {tmp : KqueuePage} {data len pushed fuel pg : Nat}

theorem pushLoop_none (hnone : (rawAllocPages h.zone 0).2 = none) :
    pushLoop (fuel + 1) h data len pushed = (h, .fault) := by
  have hzone := (rawAllocPages_none hnone).1
  rw [pushLoop]
  simp only [hnone, hzone]

theorem pushLoop_zero (hpg : (rawAllocPages h.zone 0).2 = some pg)
    (hzero : pageToAddr (rawAllocPages h.zone 0).1 pg = 0) :
    pushLoop (fuel + 1) h data len pushed =
      ({ h with zone := (rawAllocPages h.zone 0).1 },
        if pushed ≠ 0 then .bug else .enomem) := by
  rw [pushLoop]
  simp only [hpg, hzero, if_true]

theorem pushLoop_some (hpg : (rawAllocPages h.zone 0).2 = some pg)
    (haddr : pageToAddr (rawAllocPages h.zone 0).1 pg ≠ 0) :
    pushLoop (fuel + 1) h data len pushed =
      if len - min len MAX_COUNT ≠ 0 then
        pushLoop fuel (h.addPage pg data (min len MAX_COUNT)) data (len - min len MAX_COUNT)
          (pushed + min len MAX_COUNT)
      else (h.addPage pg data (min len MAX_COUNT), .ok) := by
  rw [pushLoop]
  simp only [hpg, haddr]
  rfl

theorem kqueuePush_of_room (hlast : h.pages.getLast? = some tmp) (hroom : tmp.count < MAX_COUNT)
    (hle : len ≤ MAX_COUNT - tmp.count) :
    kqueuePush h data len = (h.fillLast tmp data len, .ok) := by
  unfold kqueuePush
  simp only [hlast, if_pos hroom, if_pos hle]
  rfl

theorem kqueuePush_of_spill (hlast : h.pages.getLast? = some tmp) (hroom : tmp.count < MAX_COUNT)
    (hgt : ¬len ≤ MAX_COUNT - tmp.count) : kqueuePush h data len =
      pushLoop ((len - (MAX_COUNT - tmp.count)) / MAX_COUNT + 1)
        (h.fillLast tmp data (MAX_COUNT - tmp.count)) data (len - (MAX_COUNT - tmp.count))
        (MAX_COUNT - tmp.count) := by
  have hfull : MAX_COUNT = tmp.count + (MAX_COUNT - tmp.count) := by omega
  unfold kqueuePush KqueueHeap.fillLast
  simp only [hlast, if_pos hroom, if_neg hgt]
  rw [← hfull]

theorem kqueuePush_of_full (hfull : h.lastRoom = 0) :
    kqueuePush h data len = pushLoop (len / MAX_COUNT + 1) h data len 0 := by
  unfold KqueueHeap.lastRoom at hfull
  unfold kqueuePush
  cases hlast : h.pages.getLast? with
  | none => rfl
  | some tmp =>
    rw [hlast] at hfull
    exact if_neg (Nat.not_lt.mpr (Nat.le_of_sub_eq_zero hfull))

end Rounds

/-! ## What every call keeps -/

/-- The pages of a queue are handed out to it, and `q->count` is the number of bytes in
them. -/
structure QueueHeld (lo hi : Nat) (live : List Block) (z : Zone) (ps : List KqueuePage)
    (count : Nat) : Prop where
  total : z.totalPages = hi
  buddy : BuddyInv z lo hi (ps.map (fun p => ⟨0, p.page⟩) ++ live)
  count : count = (ps.map KqueuePage.count).sum

section Held

variable {lo hi count : Nat} {live : List Block} {z : Zone} {ps : List KqueuePage}

theorem buddy_addPage {pg : Nat} (base t : Nat)
    (h : BuddyInv z lo hi (ps.map (fun p => ⟨0, p.page⟩) ++ live))
    (hpg : (rawAllocPages z 0).2 = some pg) : BuddyInv (rawAllocPages z 0).1 lo hi
      ((ps ++ [(⟨pg, base, t⟩ : KqueuePage)]).map (fun p => ⟨0, p.page⟩) ++ live) := by
  refine (rawAllocPages_buddy h hpg).perm ?_
  rw [List.map_append, List.append_assoc]
  exact List.perm_middle.symm

theorem putPages_held {held : List Block} {pg : Nat} (hlo : 0 < lo) (htotal : z.totalPages = hi)
    (h : BuddyInv z lo hi held) (hpg : ⟨0, pg⟩ ∈ held) :
    putPages z (pageToAddr z pg) = some (freePages z pg) := by
  have hbounds := h.start_bounds hpg
  refine putPages_pageToAddr (Nat.lt_of_lt_of_le hlo hbounds.1) ?_
  rw [htotal]
  exact hbounds.2

namespace QueueHeld

variable {tmp : KqueuePage}

theorem add {pg : Nat} (h : QueueHeld lo hi live z ps count) (base t : Nat)
    (hpg : (rawAllocPages z 0).2 = some pg) :
    QueueHeld lo hi live (rawAllocPages z 0).1 (ps ++ [⟨pg, base, t⟩]) (count + t) where
  total := (rawAllocPages_samePages z 0).2.trans h.total
  buddy := buddy_addPage base t h.buddy hpg
  count := by simp [h.count]

theorem fill (h : QueueHeld lo hi live z ps count) (t : Nat) (hlast : ps.getLast? = some tmp) :
    QueueHeld lo hi live z (ps.dropLast ++ [{ tmp with count := tmp.count + t }]) (count + t) := by
  have hps := List.dropLast_append_getLast? tmp hlast
  refine ⟨h.total, ?_, ?_⟩
  · have hbuddy := h.buddy
    rw [← hps, List.map_append] at hbuddy
    rw [List.map_append]
    exact hbuddy
  · have hcount := h.count
    rw [← hps] at hcount
    simp only [List.map_append, List.sum_append, List.map_cons, List.map_nil, List.sum_cons,
      List.sum_nil] at hcount ⊢
    omega

theorem drop (h : QueueHeld lo hi live z (tmp :: ps) count) :
    QueueHeld lo hi live (freePages z tmp.page) ps (count - tmp.count) where
  total := (freePages_samePages z tmp.page).2.trans h.total
  buddy := freePages_buddy h.buddy
  count := by simp [h.count]

theorem shorten (h : QueueHeld lo hi live z (tmp :: ps) count) {len : Nat}
    (hlen : len < tmp.count) :
    QueueHeld lo hi live z
      ({ tmp with count := tmp.count - len, base := tmp.base + len } :: ps) (count - len) where
  total := h.total
  buddy := h.buddy
  count := by
    have hcount := h.count
    simp only [List.map_cons, List.sum_cons] at hcount ⊢
    omega

theorem addr_ne_zero {pg : Nat} (h : QueueHeld lo hi live z ps count) (hlo : 0 < lo)
    (hpg : (rawAllocPages z 0).2 = some pg) : pageToAddr (rawAllocPages z 0).1 pg ≠ 0 := by
  have hbounds := (rawAllocPages_buddy h.buddy hpg).start_bounds List.mem_cons_self
  have hpos : 0 < pg * PAGE_SIZE :=
    Nat.mul_pos (Nat.lt_of_lt_of_le hlo hbounds.1) (by decide)
  unfold pageToAddr
  omega

end QueueHeld

theorem pushLoop_held (hlo : 0 < lo) {data : Nat} : ∀ (fuel len pushed : Nat) (h h' : KqueueHeap),
    QueueHeld lo hi live h.zone h.pages h.count →
    pushLoop fuel h data len pushed = (h', .ok) →
    QueueHeld lo hi live h'.zone h'.pages h'.count
  | 0, _, _, h, h', hheld, hpush => by
    cases hpush
    exact hheld
  | fuel + 1, len, pushed, h, h', hheld, hpush => by
    cases hpg : (rawAllocPages h.zone 0).2 with
    | none =>
      rw [pushLoop_none hpg] at hpush
      exact nomatch (Prod.mk.inj hpush).2
    | some pg =>
      rw [pushLoop_some hpg (hheld.addr_ne_zero hlo hpg)] at hpush
      have hadd := hheld.add (pageToAddr (rawAllocPages h.zone 0).1 pg + SIZEOF_KQUEUE_PAGE)
        (min len MAX_COUNT) hpg
      split at hpush
      · exact pushLoop_held hlo fuel _ _ _ h' hadd hpush
      · cases hpush
        exact hadd

theorem kqueuePush_held (hlo : 0 < lo) {h h' : KqueueHeap} {data len : Nat}
    (hheld : QueueHeld lo hi live h.zone h.pages h.count)
    (hpush : kqueuePush h data len = (h', .ok)) :
    QueueHeld lo hi live h'.zone h'.pages h'.count := by
  cases hlast : h.pages.getLast? with
  | none =>
    rw [kqueuePush_of_full (by rw [KqueueHeap.lastRoom, hlast])] at hpush
    exact pushLoop_held hlo _ _ _ h h' hheld hpush
  | some tmp =>
    by_cases hroom : tmp.count < MAX_COUNT
    · by_cases hle : len ≤ MAX_COUNT - tmp.count
      · rw [kqueuePush_of_room hlast hroom hle] at hpush
        cases hpush
        exact hheld.fill len hlast
      · rw [kqueuePush_of_spill hlast hroom hle] at hpush
        exact pushLoop_held hlo _ _ _ _ h' (hheld.fill _ hlast) hpush
    · have hfull : h.lastRoom = 0 := by
        rw [KqueueHeap.lastRoom, hlast]
        exact Nat.sub_eq_zero_of_le (Nat.not_lt.mp hroom)
      rw [kqueuePush_of_full hfull] at hpush
      exact pushLoop_held hlo _ _ _ h h' hheld hpush

theorem pullLoop_held (hlo : 0 < lo) (data : Nat) : ∀ (ps : List KqueuePage) (h : KqueueHeap)
    (len pulled : Nat), QueueHeld lo hi live h.zone ps h.count →
    ∃ h' r, pullLoop ps h data len pulled = some (h', r) ∧
      QueueHeld lo hi live h'.zone h'.pages h'.count
  | [], h, _, pulled, hheld => ⟨{ h with pages := [] }, pulled, rfl, hheld⟩
  | tmp :: rest, h, len, pulled, hheld => by
    rw [pullLoop]
    split
    · rename_i hlt
      exact ⟨_, _, rfl, hheld.shorten hlt⟩
    · rw [putPages_held hlo hheld.total hheld.buddy List.mem_cons_self, Option.bind_some]
      exact pullLoop_held hlo data rest (h.takePage tmp (data + pulled)) _ _ hheld.drop

end Held

/-! ## Runs -/

/-- The queue and its pages, and what others do with the zone. -/
def KqueueSys.Held (lo hi : Nat) (s : KqueueSys) : Prop :=
  QueueHeld lo hi s.live s.heap.zone s.heap.pages s.heap.count

theorem kqueueStart_held (z : Zone) (mem : ByteMem) :
    (kqueueStart z mem).Held (consumedPages z.totalPages) z.totalPages where
  total := (memZoneInit_samePages z).2
  buddy := memZoneInit_inv z
  count := rfl

/-- Others have taken pages from the zone or given some back: `z` is the zone and `live` the
piles that they hold. -/
def KqueueSys.withZone (s : KqueueSys) (z : Zone) (live : List Block) : KqueueSys :=
  { s with heap := { s.heap with zone := z }, live := live }

section Others

variable {lo hi : Nat} {s s' : KqueueSys}

variable {z : Zone} {live : List Block}

theorem call_push {data len : Nat} (hcall : s.call (.push data len) = some s') :
    ∃ h', kqueuePush s.heap data len = (h', .ok) ∧
      s' = { s with heap := h', pushed := s.pushed ++ readBytes s.heap.mem data len } := by
  unfold KqueueSys.call at hcall
  dsimp only at hcall
  split at hcall
  · rename_i h' hpush
    exact ⟨h', hpush, (Option.some.inj hcall).symm⟩
  · cases hcall

theorem call_pull {buf len : Nat} (hcall : s.call (.pull buf len) = some s') :
    s.heap.BufOk buf (min len s.heap.count) ∧
      ∃ h' r, kqueuePullTail s.heap buf len = some (h', r) ∧
        s' = { s with
          heap := h'
          pulled := s.pulled ++ readBytes h'.mem buf (s.heap.count - h'.count) } := by
  obtain ⟨hbuf, hpull⟩ := Option.ite_none_right_eq_some.mp hcall
  obtain ⟨⟨h', r⟩, hpull', rfl⟩ := Option.map_eq_some_iff.mp hpull
  exact ⟨hbuf, h', r, hpull', rfl⟩

theorem call_store {addr : Nat} {v : UInt8} (hcall : s.call (.store addr v) = some s') :
    (∀ b ∈ s.heap.piles, ApartFrom s.heap.zone b addr 1) ∧
      s' = { s with heap := { s.heap with mem := Function.update s.heap.mem addr v } } := by
  obtain ⟨hout, heq⟩ := Option.ite_none_right_eq_some.mp hcall
  exact ⟨hout, (Option.some.inj heq).symm⟩

theorem buddy_othersAlloc {held : List Block} (order : Nat)
    (hbuddy : BuddyInv z lo hi (held ++ live)) : BuddyInv (rawAllocPages z order).1 lo hi
      (held ++ (((rawAllocPages z order).2.map (Block.mk order)).toList ++ live)) := by
  cases hpg : (rawAllocPages z order).2 with
  | none =>
    rw [(rawAllocPages_none hpg).1]
    exact hbuddy
  | some pg => exact (rawAllocPages_buddy hbuddy hpg).perm List.perm_middle.symm

theorem buddy_othersFree {held : List Block} {b : Block} (hb : b ∈ live)
    (hbuddy : BuddyInv z lo hi (held ++ live)) :
    BuddyInv (freePages z b.start) lo hi (held ++ live.erase b) := by
  apply freePages_buddy
  exact hbuddy.perm (((List.perm_cons_erase hb).append_left _).trans List.perm_middle)

theorem call_pageAlloc {order : Nat} (hcall : s.call (.pageAlloc order) = some s')
    (hbuddy : BuddyInv s.heap.zone lo hi (s.heap.piles ++ s.live)) :
    ∃ z live, s' = s.withZone z live ∧ s.heap.zone.SamePages z ∧
      BuddyInv z lo hi (s.heap.piles ++ live) :=
  ⟨(rawAllocPages s.heap.zone order).1,
    ((rawAllocPages s.heap.zone order).2.map (Block.mk order)).toList ++ s.live,
    (Option.some.inj hcall).symm, rawAllocPages_samePages _ _, buddy_othersAlloc order hbuddy⟩

theorem call_pageFree {pg : Nat} (hcall : s.call (.pageFree pg) = some s')
    (hbuddy : BuddyInv s.heap.zone lo hi (s.heap.piles ++ s.live)) :
    ∃ z live, s' = s.withZone z live ∧ s.heap.zone.SamePages z ∧
      BuddyInv z lo hi (s.heap.piles ++ live) := by
  obtain ⟨b, hfind, heq⟩ := Option.map_eq_some_iff.mp hcall
  obtain rfl : b.start = pg := by simpa using List.find?_some hfind
  exact ⟨_, _, heq.symm, freePages_samePages _ _,
    buddy_othersFree (List.mem_of_find?_eq_some hfind) hbuddy⟩

theorem KqueueSys.Held.withZone (h : s.Held lo hi) (hsame : s.heap.zone.SamePages z)
    (hbuddy : BuddyInv z lo hi (s.heap.piles ++ live)) :
    (s.withZone z live).Held lo hi where
  total := hsame.2.trans h.total
  buddy := hbuddy
  count := h.count

theorem KqueueSys.Held.call (hlo : 0 < lo) {c : KqueueCall} (h : s.Held lo hi)
    (hcall : s.call c = some s') : s'.Held lo hi := by
  cases c with
  | push data len =>
    obtain ⟨h', hpush, rfl⟩ := call_push hcall
    exact kqueuePush_held hlo h hpush
  | pull buf len =>
    obtain ⟨-, h', r, hpull, rfl⟩ := call_pull hcall
    obtain ⟨h₁, r₁, hloop, hheld⟩ := pullLoop_held hlo buf s.heap.pages s.heap len 0 h
    cases hloop.symm.trans hpull
    exact hheld
  | pageAlloc order =>
    obtain ⟨z, live, rfl, hsame, hbuddy⟩ := call_pageAlloc hcall h.buddy
    exact h.withZone hsame hbuddy
  | pageFree pg =>
    obtain ⟨z, live, rfl, hsame, hbuddy⟩ := call_pageFree hcall h.buddy
    exact h.withZone hsame hbuddy
  | store addr v =>
    obtain ⟨-, rfl⟩ := call_store hcall
    exact h

end Others

/-- In every state that calls reach, the pages of the queue are handed out to it and
`q->count` is the number of bytes in them. -/
theorem kqueueRun_held {z : Zone} {mem : ByteMem} {calls : List KqueueCall} {s : KqueueSys}
    (hrun : run KqueueSys.call (kqueueStart z mem) calls = some s) :
    s.Held (consumedPages z.totalPages) z.totalPages :=
  run_invariant (KqueueSys.Held (consumedPages z.totalPages) z.totalPages)
    (fun _ _ _ h hcall => h.call (Nat.succ_pos _) hcall) (kqueueStart_held z mem) hrun

end Koowaldah
