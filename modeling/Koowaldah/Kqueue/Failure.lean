import Koowaldah.GetPages
import Koowaldah.Kqueue.Fifo

/-!
# Pushes that run out of pages

`kqueue_push` returns `-ENOMEM` when `get_page` returns `NULL`, and calls `queue_shrink` before
that when it has already put bytes into the queue.  `queue_shrink` is not written yet: it is a
`bug ()`.

`kqueuePush` stops where `get_page` has no page, since `page_to_addr` then reads through
`NULL`.  `kqueuePushVia` looks at what the words at the bottom of memory make of it, and takes
the error path when that is `NULL`.  It still stops where it is an address, although the code
goes on with it; so the two are the same then (`kqueuePushVia_eq`).
-/

namespace Koowaldah

open SysLib SysLib.Dyadic

/-- The `do` loop of `kqueue_push`, on what `get_page` returns. -/
def pushLoopVia (read : Nat → Option Nat) :
    Nat → KqueueHeap → Nat → Nat → Nat → KqueueHeap × PushOutcome
  | 0, h, _, _, _ => (h, .ok)
  | fuel + 1, h, data, len, pushed =>
    let got := getPage read h.zone
    match got.branch with
    | .fault => ({ h with zone := got.zone }, .fault)
    | .error => ({ h with zone := got.zone }, if pushed ≠ 0 then .bug else .enomem)
    | .goesOn tmp =>
      match got.page with
      -- the code goes on with an address that is no page's
      | none => ({ h with zone := got.zone }, .fault)
      | some pg =>
        let base := tmp + SIZEOF_KQUEUE_PAGE
        let t := min len MAX_COUNT
        let h : KqueueHeap :=
          ⟨got.zone, memoryCopy h.mem base data t, h.pages ++ [⟨pg, base, t⟩], h.count + t⟩
        if len - t ≠ 0 then pushLoopVia read fuel h data (len - t) (pushed + t) else (h, .ok)

/-- `kqueue_push`, on what `get_page` returns. -/
def kqueuePushVia (read : Nat → Option Nat) (h : KqueueHeap) (data len : Nat) :
    KqueueHeap × PushOutcome :=
  match h.pages.getLast? with
  | none => pushLoopVia read (len / MAX_COUNT + 1) h data len 0
  | some tmp =>
    if tmp.count < MAX_COUNT then
      if len ≤ MAX_COUNT - tmp.count then (h.fillLast tmp data len, .ok)
      else
        let t := MAX_COUNT - tmp.count
        pushLoopVia read ((len - t) / MAX_COUNT + 1) (h.fillLast tmp data t) data (len - t) t
    else pushLoopVia read (len / MAX_COUNT + 1) h data len 0

/-- The pages that the loop adds for `len` bytes: at least one. -/
def pagesFor (len : Nat) : Nat := max 1 ((len + MAX_COUNT - 1) / MAX_COUNT)

/-- The pages that a push of `len` bytes adds to the queue. -/
def KqueueHeap.pagesNeeded (h : KqueueHeap) (len : Nat) : Nat :=
  if h.lastRoom ≠ 0 ∧ len ≤ h.lastRoom then 0 else pagesFor (len - h.lastRoom)

/-- A push fails cleanly: when it returns `-ENOMEM` the queue is as it was, and it does not
reach `bug ()`. -/
structure FailsClean (h : KqueueHeap) (res : KqueueHeap × PushOutcome) : Prop where
  kept : res.2 = .enomem → res.1.contents = h.contents ∧ res.1.count = h.count
  noBug : res.2 ≠ .bug

/-- The condition on a push, where `get_page` returns `NULL` when there is no page: there are
enough pages, or there is none and the newest page of the queue takes nothing. -/
def KqueueHeap.PagesSuffice (h : KqueueHeap) (len : Nat) : Prop :=
  h.pagesNeeded len ≤ pagesIn h.zone ∨ h.lastRoom = 0 ∧ pagesIn h.zone = 0

theorem pagesFor_of_le {len : Nat} (hle : len ≤ MAX_COUNT) : pagesFor len = 1 := by
  have hpos := maxCount_pos
  unfold pagesFor
  have hdiv : (len + MAX_COUNT - 1) / MAX_COUNT ≤ 1 :=
    Nat.lt_succ_iff.mp (Nat.div_lt_of_lt_mul (by omega))
  omega

theorem pagesFor_of_gt {len : Nat} (hgt : MAX_COUNT < len) :
    pagesFor len = pagesFor (len - MAX_COUNT) + 1 := by
  have hpos := maxCount_pos
  unfold pagesFor
  have hstep : (len + MAX_COUNT - 1) / MAX_COUNT =
      (len - MAX_COUNT + MAX_COUNT - 1) / MAX_COUNT + 1 := by
    rw [← Nat.add_div_right _ hpos]
    congr 1
    omega
  have hone : 1 ≤ (len - MAX_COUNT + MAX_COUNT - 1) / MAX_COUNT :=
    (Nat.one_le_div_iff hpos).mpr (by omega)
  omega

/-! ## One round -/

section Rounds

variable {read : Nat → Option Nat} {h : KqueueHeap} {data len pushed fuel pg : Nat}

theorem getPage_some {z : Zone} (hpg : (rawAllocPages z 0).2 = some pg) : getPage read z =
      ⟨some pg, some (pageToAddr (rawAllocPages z 0).1 pg), (rawAllocPages z 0).1⟩ := by
  unfold getPage getPages
  simp only [hpg]
  rfl

theorem pushLoopVia_none (hnone : (rawAllocPages h.zone 0).2 = none) :
    pushLoopVia read (fuel + 1) h data len pushed =
      (h, if nullAddr read = some 0 then if pushed ≠ 0 then .bug else .enomem else .fault) := by
  have hgot : getPage read h.zone = ⟨none, nullAddr read, h.zone⟩ := by
    unfold getPage getPages
    rw [show rawAllocPages h.zone 0 = (h.zone, none) from
      Prod.ext (rawAllocPages_none hnone).1 hnone]
    rfl
  rw [pushLoopVia]
  simp only [hgot, GotPages.branch]
  cases haddr : nullAddr read with
  | none => simp
  | some addr =>
    by_cases hzero : addr = 0
    · simp [hzero]
    · simp [hzero]

theorem pushLoopVia_zero (hpg : (rawAllocPages h.zone 0).2 = some pg)
    (hzero : pageToAddr (rawAllocPages h.zone 0).1 pg = 0) :
    pushLoopVia read (fuel + 1) h data len pushed =
      ({ h with zone := (rawAllocPages h.zone 0).1 },
        if pushed ≠ 0 then .bug else .enomem) := by
  rw [pushLoopVia]
  simp only [getPage_some hpg, GotPages.branch, hzero, if_true]

theorem pushLoopVia_some (hpg : (rawAllocPages h.zone 0).2 = some pg)
    (haddr : pageToAddr (rawAllocPages h.zone 0).1 pg ≠ 0) :
    pushLoopVia read (fuel + 1) h data len pushed =
      if len - min len MAX_COUNT ≠ 0 then
        pushLoopVia read fuel (h.addPage pg data (min len MAX_COUNT)) data
          (len - min len MAX_COUNT) (pushed + min len MAX_COUNT)
      else (h.addPage pg data (min len MAX_COUNT), .ok) := by
  rw [pushLoopVia]
  simp only [getPage_some hpg, GotPages.branch, haddr]
  rfl

/-- Where `page_to_addr (NULL)` is not `NULL`, a push without a page stops. -/
theorem pushLoopVia_eq (hnull : nullAddr read ≠ some 0) :
    ∀ (fuel : Nat) (h : KqueueHeap) (len pushed : Nat),
      pushLoopVia read fuel h data len pushed = pushLoop fuel h data len pushed
  | 0, _, _, _ => rfl
  | fuel + 1, h, len, pushed => by
    cases hpg : (rawAllocPages h.zone 0).2 with
    | none => rw [pushLoopVia_none hpg, pushLoop_none hpg, if_neg hnull]
    | some pg =>
      by_cases hzero : pageToAddr (rawAllocPages h.zone 0).1 pg = 0
      · rw [pushLoopVia_zero hpg hzero, pushLoop_zero hpg hzero]
      · rw [pushLoopVia_some hpg hzero, pushLoop_some hpg hzero, pushLoopVia_eq hnull fuel]

theorem kqueuePushVia_eq (hnull : nullAddr read ≠ some 0) :
    kqueuePushVia read h data len = kqueuePush h data len := by
  unfold kqueuePushVia
  cases hlast : h.pages.getLast? with
  | none =>
    rw [kqueuePush_of_full (by rw [KqueueHeap.lastRoom, hlast])]
    exact pushLoopVia_eq hnull _ _ _ _
  | some tmp =>
    by_cases hroom : tmp.count < MAX_COUNT
    · by_cases hle : len ≤ MAX_COUNT - tmp.count
      · simp only [if_pos hroom, if_pos hle, kqueuePush_of_room hlast hroom hle]
      · simp only [if_pos hroom, if_neg hle, kqueuePush_of_spill hlast hroom hle]
        exact pushLoopVia_eq hnull _ _ _ _
    · simp only [if_neg hroom]
      rw [kqueuePush_of_full (by
        rw [KqueueHeap.lastRoom, hlast]
        exact Nat.sub_eq_zero_of_le (Nat.not_lt.mp hroom))]
      exact pushLoopVia_eq hnull _ _ _ _

end Rounds

/-! ## How a push ends -/

/-- The outcome of a push that needs `need` pages and finds `left`.  `started` says that it has
put bytes into the queue before it looks for a page. -/
def pushOutcome (read : Nat → Option Nat) (need left : Nat) (started : Prop) [Decidable started] :
    PushOutcome :=
  if need ≤ left then .ok
  else if nullAddr read = some 0 then if started ∨ left ≠ 0 then .bug else .enomem
  else .fault

theorem pushOutcome_clean_iff (read : Nat → Option Nat) (need left : Nat) (started : Prop)
    [Decidable started] : (pushOutcome read need left started ≠ .bug) ↔
      (nullAddr read = some 0 → need ≤ left ∨ ¬started ∧ left = 0) := by
  unfold pushOutcome
  split
  · rename_i hle
    exact iff_of_true nofun (fun _ => Or.inl hle)
  · rename_i hlt
    split
    · rename_i hnull
      split
      · rename_i hstarted
        refine iff_of_false (fun h => h rfl) (fun hcond => ?_)
        rcases hcond hnull with hle | ⟨hnot, hzero⟩
        · exact hlt hle
        · exact hstarted.elim hnot (fun hne => hne hzero)
      · rename_i hfresh
        rw [not_or, not_not] at hfresh
        exact iff_of_true nofun (fun _ => Or.inr hfresh)
    · rename_i hnull
      exact iff_of_true nofun (fun h => absurd h hnull)

theorem pushOutcome_enomem {read : Nat → Option Nat} {need left : Nat} {started : Prop}
    [Decidable started] (hout : pushOutcome read need left started = .enomem) : ¬started := by
  intro hstarted
  simp only [pushOutcome, if_pos (Or.inl hstarted : started ∨ left ≠ 0)] at hout
  split at hout
  · cases hout
  · split at hout
    · cases hout
    · cases hout

section Outcome

variable {lo hi : Nat} {live : List Block}

theorem pushLoopVia_outcome (hlo : 0 < lo) (read : Nat → Option Nat) (data : Nat) :
    ∀ (fuel len pushed : Nat) (h : KqueueHeap),
    QueueHeld lo hi live h.zone h.pages h.count → len / MAX_COUNT < fuel →
    (pushLoopVia read fuel h data len pushed).2 =
        pushOutcome read (pagesFor len) (pagesIn h.zone) (pushed ≠ 0) ∧
      ((pushLoopVia read fuel h data len pushed).2 = .enomem →
        (pushLoopVia read fuel h data len pushed).1 = h)
  | 0, _, _, _, _, hfuel => absurd hfuel (Nat.not_lt_zero _)
  | fuel + 1, len, pushed, h, hheld, hfuel => by
    have hone : 1 ≤ pagesFor len := Nat.le_max_left _ _
    cases hpg : (rawAllocPages h.zone 0).2 with
    | none =>
      have hleft := rawAllocPages_eq_none_iff.mp hpg
      rw [pushLoopVia_none hpg]
      refine ⟨?_, fun _ => rfl⟩
      have hmore : ¬pagesFor len ≤ pagesIn h.zone := by omega
      unfold pushOutcome
      rw [if_neg hmore]
      simp [hleft]
    | some pg =>
      have hleft := rawAllocPages_pagesIn hpg
      rw [Nat.pow_zero] at hleft
      rw [pushLoopVia_some hpg (hheld.addr_ne_zero hlo hpg)]
      by_cases hle : len ≤ MAX_COUNT
      · have hdone : ¬len - len ≠ 0 := by omega
        rw [Nat.min_eq_left hle, if_neg hdone]
        refine ⟨?_, nofun⟩
        unfold pushOutcome
        rw [pagesFor_of_le hle, ← hleft, if_pos (Nat.le_add_left 1 _)]
      · have hgt : MAX_COUNT < len := Nat.lt_of_not_le hle
        have hmore : len - MAX_COUNT ≠ 0 := by omega
        rw [Nat.min_eq_right (Nat.le_of_lt hgt), if_pos hmore]
        have hpos := maxCount_pos
        have hdiv : len / MAX_COUNT = (len - MAX_COUNT) / MAX_COUNT + 1 := by
          rw [← Nat.add_div_right _ hpos, Nat.sub_add_cancel (Nat.le_of_lt hgt)]
        obtain ⟨hout, -⟩ := pushLoopVia_outcome hlo read data fuel (len - MAX_COUNT)
          (pushed + MAX_COUNT) (h.addPage pg data MAX_COUNT) (hheld.add _ _ hpg) (by omega)
        have hzone : pagesIn (h.addPage pg data MAX_COUNT).zone + 1 = pagesIn h.zone := hleft
        -- a round has put bytes into the queue, so the rounds after it do not end in `enomem`
        have hstarted : pushed + MAX_COUNT ≠ 0 := by omega
        have hsame : pushOutcome read (pagesFor (len - MAX_COUNT))
            (pagesIn (h.addPage pg data MAX_COUNT).zone) (pushed + MAX_COUNT ≠ 0) =
            pushOutcome read (pagesFor len) (pagesIn h.zone) (pushed ≠ 0) := by
          unfold pushOutcome
          rw [pagesFor_of_gt hgt, ← hzone, if_pos (Or.inl hstarted),
            if_pos (Or.inr (Nat.succ_ne_zero _))]
          simp only [Nat.add_le_add_iff_right]
        refine ⟨hout.trans hsame, ?_⟩
        intro henomem
        exact absurd hstarted (pushOutcome_enomem (hout.symm.trans henomem))

theorem kqueuePushVia_outcome (hlo : 0 < lo) {h : KqueueHeap}
    (hheld : QueueHeld lo hi live h.zone h.pages h.count) (read : Nat → Option Nat)
    (data len : Nat) : (kqueuePushVia read h data len).2 =
        pushOutcome read (h.pagesNeeded len) (pagesIn h.zone) (h.lastRoom ≠ 0) ∧
      ((kqueuePushVia read h data len).2 = .enomem → h.lastRoom = 0 →
        (kqueuePushVia read h data len).1 = h) := by
  by_cases hfull : h.lastRoom = 0
  · have hloop : kqueuePushVia read h data len =
        pushLoopVia read (len / MAX_COUNT + 1) h data len 0 := by
      unfold KqueueHeap.lastRoom at hfull
      unfold kqueuePushVia
      cases hlast : h.pages.getLast? with
      | none => rfl
      | some tmp =>
        rw [hlast] at hfull
        exact if_neg (Nat.not_lt.mpr (Nat.le_of_sub_eq_zero hfull))
    have hneed : h.pagesNeeded len = pagesFor len := by
      unfold KqueueHeap.pagesNeeded
      rw [if_neg (fun hroom => hroom.1 hfull), hfull, Nat.sub_zero]
    obtain ⟨hout, hkept⟩ := pushLoopVia_outcome hlo read data
      (len / MAX_COUNT + 1) len 0 h hheld (Nat.lt_succ_self _)
    rw [hloop, hneed]
    refine ⟨?_, fun henomem _ => hkept henomem⟩
    rw [hout]
    simp [hfull]
  · refine ⟨?_, fun _ hzero => absurd hzero hfull⟩
    cases hlast : h.pages.getLast? with
    | none => simp [KqueueHeap.lastRoom, hlast] at hfull
    | some tmp =>
      have hroom : h.lastRoom = MAX_COUNT - tmp.count := by simp [KqueueHeap.lastRoom, hlast]
      have hlt : tmp.count < MAX_COUNT := by omega
      unfold kqueuePushVia
      simp only [hlast, if_pos hlt]
      by_cases hle : len ≤ MAX_COUNT - tmp.count
      · have hneed : h.pagesNeeded len = 0 := by
          exact if_pos ⟨hfull, hroom ▸ hle⟩
        rw [if_pos hle, hneed]
        simp [pushOutcome]
      · have hneed : h.pagesNeeded len = pagesFor (len - (MAX_COUNT - tmp.count)) := by
          unfold KqueueHeap.pagesNeeded
          rw [if_neg (fun hfits => hle (hroom ▸ hfits.2)), hroom]
        obtain ⟨hout, -⟩ := pushLoopVia_outcome hlo read data
          ((len - (MAX_COUNT - tmp.count)) / MAX_COUNT + 1) (len - (MAX_COUNT - tmp.count))
          (MAX_COUNT - tmp.count) (h.fillLast tmp data (MAX_COUNT - tmp.count))
          (hheld.fill _ hlast) (Nat.lt_succ_self _)
        rw [if_neg hle, hneed, hout, ← hroom]
        rfl

end Outcome

/-- When a push fails cleanly.  In every state that calls reach, and whatever the words at the
bottom of memory are, a push leaves the queue as it was if it returns `-ENOMEM`, and does not
reach `bug ()`, exactly when `get_page` does not return `NULL` for want of a page, or there are
enough pages, or there is none and the newest page of the queue takes nothing. -/
theorem kqueuePushVia_failsClean_iff (z : Zone) (mem : ByteMem) (calls : List KqueueCall)
    (s : KqueueSys) (hrun : run KqueueSys.call (kqueueStart z mem) calls = some s)
    (read : Nat → Option Nat) (data len : Nat) :
    FailsClean s.heap (kqueuePushVia read s.heap data len) ↔
      (nullAddr read = some 0 → s.heap.PagesSuffice len) := by
  obtain ⟨hout, hkept⟩ :=
    kqueuePushVia_outcome (Nat.succ_pos _) (kqueueRun_held hrun) read data len
  have hclean := pushOutcome_clean_iff read (s.heap.pagesNeeded len) (pagesIn s.heap.zone)
    (s.heap.lastRoom ≠ 0)
  rw [← hout, not_not] at hclean
  constructor
  · intro hfails
    exact hclean.mp hfails.noBug
  · intro hcond
    refine ⟨?_, hclean.mpr hcond⟩
    intro henomem
    have hfull : s.heap.lastRoom = 0 := not_not.mp (pushOutcome_enomem (hout.symm.trans henomem))
    rw [hkept henomem hfull]
    exact ⟨rfl, rfl⟩

theorem kqueuePushVia_failsClean_five :
    FailsClean (kqueueStart (rawZone 4) (fun x => UInt8.ofNat x)).heap
      (kqueuePushVia (fun _ => some 0) (kqueueStart (rawZone 4) (fun x => UInt8.ofNat x)).heap
        20000 5) := by
  refine (kqueuePushVia_failsClean_iff (rawZone 4) (fun x => UInt8.ofNat x) [] _ rfl
    (fun _ => some 0) 20000 5).mpr (fun _ => Or.inl ?_)
  decide +kernel

/-- An empty queue and one page that is left, with zeros at the bottom of memory.  A push of
4081 bytes puts 4080 of them into the page, does not get another one and is in `bug ()`. -/
theorem kqueuePush_second_page_bug :
    let h := (kqueueStart (rawZone 2) (fun x => UInt8.ofNat x)).heap
    nullAddr (fun _ => some 0) = some 0 ∧ pagesIn h.zone = 1 ∧
      (kqueuePushVia (fun _ => some 0) h 20000 4081).2 = .bug ∧
      (kqueuePushVia (fun _ => some 0) h 20000 4081).1.count = 4080 := by
  decide +kernel

end Koowaldah
