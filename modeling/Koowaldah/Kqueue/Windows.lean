import Koowaldah.Kqueue.Fifo

/-!
# The windows of the byte queue

The bytes of a page that are in the queue are the window `[base, base + count)`.
`kqueue_pull_tail` moves `base` up when it takes a part of a page, and
`kqueue_push` looks at `count` alone to see how much the newest page still
takes.  `kqueueRun_windows_iff` says in which runs the windows stay in their pages.
-/

namespace Koowaldah

open SysLib SysLib.Dyadic

/-! ## The copies of a push -/

/-- The calls of `memory_copy` of the loop of `kqueue_push`. -/
def pushLoopCopies : Nat → Zone → Nat → Nat → List Copy
  | 0, _, _, _ => []
  | fuel + 1, z, data, len =>
    let (z, pg) := rawAllocPages z 0
    match pg with
    | none => []
    | some pg =>
      if pageToAddr z pg = 0 then []
      else
        let t := min len MAX_COUNT
        ⟨pageToAddr z pg + SIZEOF_KQUEUE_PAGE, data, t⟩ ::
          if len - t ≠ 0 then pushLoopCopies fuel z data (len - t) else []

/-- The calls of `memory_copy` of `kqueue_push`. -/
def pushCopies (h : KqueueHeap) (data len : Nat) : List Copy :=
  match h.pages.getLast? with
  | none => pushLoopCopies (len / MAX_COUNT + 1) h.zone data len
  | some tmp =>
    if tmp.count < MAX_COUNT then
      if len ≤ MAX_COUNT - tmp.count then [⟨tmp.base + tmp.count, data, len⟩]
      else
        let t := MAX_COUNT - tmp.count
        ⟨tmp.base + tmp.count, data, t⟩ ::
          pushLoopCopies ((len - t) / MAX_COUNT + 1) h.zone data (len - t)
    else pushLoopCopies (len / MAX_COUNT + 1) h.zone data len

section Copies

variable {h : KqueueHeap} {data len : Nat}

theorem pushLoopCopies_none {z : Zone} {fuel : Nat} (hnone : (rawAllocPages z 0).2 = none) :
    pushLoopCopies (fuel + 1) z data len = [] := by
  rw [pushLoopCopies]
  simp only [hnone]

theorem pushLoopCopies_zero {z : Zone} {fuel pg : Nat} (hpg : (rawAllocPages z 0).2 = some pg)
    (hzero : pageToAddr (rawAllocPages z 0).1 pg = 0) :
    pushLoopCopies (fuel + 1) z data len = [] := by
  rw [pushLoopCopies]
  simp only [hpg, hzero, if_true]

theorem pushLoopCopies_some {z : Zone} {fuel pg : Nat} (hpg : (rawAllocPages z 0).2 = some pg)
    (haddr : pageToAddr (rawAllocPages z 0).1 pg ≠ 0) :
    pushLoopCopies (fuel + 1) z data len =
      ⟨pageToAddr (rawAllocPages z 0).1 pg + SIZEOF_KQUEUE_PAGE, data, min len MAX_COUNT⟩ ::
        if len - min len MAX_COUNT ≠ 0 then
          pushLoopCopies fuel (rawAllocPages z 0).1 data (len - min len MAX_COUNT)
        else [] := by
  rw [pushLoopCopies]
  simp only [hpg, haddr, if_false]

theorem pushLoop_eq_copies : ∀ (fuel : Nat) (h : KqueueHeap) (len pushed : Nat),
    (pushLoop fuel h data len pushed).1.mem =
      (pushLoopCopies fuel h.zone data len).foldl Copy.run h.mem
  | 0, _, _, _ => rfl
  | fuel + 1, h, len, pushed => by
    cases hpg : (rawAllocPages h.zone 0).2 with
    | none => rw [pushLoop_none hpg, pushLoopCopies_none hpg, List.foldl_nil]
    | some pg =>
      by_cases hzero : pageToAddr (rawAllocPages h.zone 0).1 pg = 0
      · rw [pushLoop_zero hpg hzero, pushLoopCopies_zero hpg hzero, List.foldl_nil]
      · rw [pushLoop_some hpg hzero, pushLoopCopies_some hpg hzero, List.foldl_cons]
        split
        · exact pushLoop_eq_copies fuel _ _ _
        · rfl

theorem kqueuePush_eq_copies (h : KqueueHeap) (data len : Nat) :
    (kqueuePush h data len).1.mem = (pushCopies h data len).foldl Copy.run h.mem := by
  unfold kqueuePush pushCopies
  cases h.pages.getLast? with
  | none => exact pushLoop_eq_copies _ h _ _
  | some tmp =>
    dsimp only
    split
    · split
      · rfl
      · exact pushLoop_eq_copies _ _ _ _
    · exact pushLoop_eq_copies _ h _ _

end Copies

/-! ## Windows and destinations -/

/-- The windows of the queue are in the payload of their pages. -/
def KqueueHeap.Windows (h : KqueueHeap) : Prop := ∀ p ∈ h.pages, p.InPage h.zone

/-- The destination of a copy is in the payload of a page. -/
def KqueuePage.Holds (z : Zone) (p : KqueuePage) (c : Copy) : Prop :=
  pageToAddr z p.page + SIZEOF_KQUEUE_PAGE ≤ c.dst ∧
    c.dst + c.n ≤ pageToAddr z p.page + PAGE_SIZE

/-- After a push, the windows are in the payload of their pages, and so is every
byte that it has copied to. -/
structure PushedInPages (h : KqueueHeap) (data len : Nat) : Prop where
  windows : (kqueuePush h data len).1.Windows
  copies : ∀ c ∈ pushCopies h data len, ∃ p ∈ (kqueuePush h data len).1.pages,
    p.Holds (kqueuePush h data len).1.zone c

/-- What keeps a push in the payload: the bytes that it puts into the newest page
end before the page does. -/
def PushInPage (h : KqueueHeap) (len : Nat) : Prop :=
  ∀ tmp, h.pages.getLast? = some tmp → tmp.count < MAX_COUNT →
    tmp.base + tmp.count + min len (MAX_COUNT - tmp.count) ≤
      pageToAddr h.zone tmp.page + PAGE_SIZE

section Windows

variable {h : KqueueHeap} {data len : Nat} {tmp : KqueuePage}

theorem inPage_new (z : Zone) (pg : Nat) {t : Nat} (ht : t ≤ MAX_COUNT) :
    (⟨pg, pageToAddr z pg + SIZEOF_KQUEUE_PAGE, t⟩ : KqueuePage).InPage z := by
  have hsize : SIZEOF_KQUEUE_PAGE ≤ PAGE_SIZE := by decide
  unfold KqueuePage.InPage
  unfold MAX_COUNT at ht
  dsimp only
  omega

theorem pushLoop_windows (data : Nat) : ∀ (fuel : Nat) (h : KqueueHeap) (len pushed : Nat),
    ∃ added, (pushLoop fuel h data len pushed).1.pages = h.pages ++ added ∧
      h.zone.SamePages (pushLoop fuel h data len pushed).1.zone ∧
      (∀ p ∈ added, p.InPage h.zone) ∧
      ∀ c ∈ pushLoopCopies fuel h.zone data len, ∃ p ∈ added, p.Holds h.zone c
  | 0, h, _, _ => ⟨[], (List.append_nil _).symm, ⟨rfl, rfl⟩, nofun, nofun⟩
  | fuel + 1, h, len, pushed => by
    have hsame := rawAllocPages_samePages h.zone 0
    cases hpg : (rawAllocPages h.zone 0).2 with
    | none =>
      rw [pushLoop_none hpg, pushLoopCopies_none hpg]
      exact ⟨[], (List.append_nil _).symm, ⟨rfl, rfl⟩, nofun, nofun⟩
    | some pg =>
      by_cases hzero : pageToAddr (rawAllocPages h.zone 0).1 pg = 0
      · rw [pushLoop_zero hpg hzero, pushLoopCopies_zero hpg hzero]
        exact ⟨[], (List.append_nil _).symm, hsame, nofun, nofun⟩
      · rw [pushLoop_some hpg hzero, pushLoopCopies_some hpg hzero, pageToAddr_congr hsame]
        have hin := inPage_new h.zone pg (Nat.min_le_right len MAX_COUNT)
        -- a window that starts with the payload is where its copy goes
        generalize hp : (⟨pg, pageToAddr h.zone pg + SIZEOF_KQUEUE_PAGE, min len MAX_COUNT⟩ :
          KqueuePage) = p at hin
        have hpage : (h.addPage pg data (min len MAX_COUNT)).pages = h.pages ++ [p] := by
          rw [← hp, ← pageToAddr_congr hsame]
          rfl
        have hholds : p.Holds h.zone
            ⟨pageToAddr h.zone pg + SIZEOF_KQUEUE_PAGE, data, min len MAX_COUNT⟩ := by
          rw [← hp] at hin ⊢
          exact hin
        split
        · obtain ⟨added, hpages, hsame', hin', hcopies⟩ := pushLoop_windows data fuel
            (h.addPage pg data (min len MAX_COUNT)) (len - min len MAX_COUNT)
            (pushed + min len MAX_COUNT)
          have hback : (rawAllocPages h.zone 0).1.SamePages h.zone := ⟨hsame.1.symm, hsame.2.symm⟩
          refine ⟨p :: added, ?_, ⟨hsame'.1.trans hsame.1, hsame'.2.trans hsame.2⟩, ?_, ?_⟩
          · rw [hpages, hpage, List.append_assoc]
            rfl
          · intro q hq
            rcases List.mem_cons.mp hq with rfl | hq
            · exact hin
            · exact (hin' q hq).congr hback
          · intro c hc
            rcases List.mem_cons.mp hc with rfl | hc
            · exact ⟨p, List.mem_cons_self, hholds⟩
            · obtain ⟨q, hq, hqc⟩ := hcopies c hc
              refine ⟨q, List.mem_cons_of_mem p hq, ?_⟩
              unfold KqueuePage.Holds at *
              rw [pageToAddr_congr hback]
              exact hqc
        · refine ⟨[p], hpage, hsame, ?_, ?_⟩
          · intro q hq
            rw [List.mem_singleton.mp hq]
            exact hin
          · intro c hc
            rw [List.mem_singleton.mp hc]
            exact ⟨p, List.mem_singleton_self p, hholds⟩

theorem pushLoop_inPages (hwin : h.Windows) (data fuel len pushed : Nat) :
    (pushLoop fuel h data len pushed).1.Windows ∧
      (∀ p ∈ h.pages, p ∈ (pushLoop fuel h data len pushed).1.pages) ∧
      h.zone.SamePages (pushLoop fuel h data len pushed).1.zone ∧
      ∀ c ∈ pushLoopCopies fuel h.zone data len, ∃ p ∈ (pushLoop fuel h data len pushed).1.pages,
          p.Holds (pushLoop fuel h data len pushed).1.zone c := by
  obtain ⟨added, hpages, hsame, hin, hcopies⟩ :=
    pushLoop_windows data fuel h len pushed
  generalize (pushLoop fuel h data len pushed).1 = h' at hpages hsame ⊢
  refine ⟨?_, ?_, hsame, ?_⟩
  · intro p hp
    rw [hpages] at hp
    rcases List.mem_append.mp hp with hp | hp
    · exact (hwin p hp).congr hsame
    · exact (hin p hp).congr hsame
  · intro p hp
    rw [hpages]
    exact List.mem_append_left added hp
  · intro c hc
    obtain ⟨p, hp, hpc⟩ := hcopies c hc
    refine ⟨p, ?_, ?_⟩
    · rw [hpages]
      exact List.mem_append_right h.pages hp
    · unfold KqueuePage.Holds at *
      rw [pageToAddr_congr hsame]
      exact hpc

theorem fillLast_windows (hwin : h.Windows) (hlast : h.pages.getLast? = some tmp) (data : Nat)
    {t : Nat} (hfits : tmp.base + tmp.count + t ≤ pageToAddr h.zone tmp.page + PAGE_SIZE) :
    (h.fillLast tmp data t).Windows := by
  intro p hp
  rcases List.mem_append.mp hp with hp | hp
  · exact hwin p (List.mem_of_mem_dropLast hp)
  · have htmp := hwin tmp (List.mem_of_getLast? hlast)
    rw [List.mem_singleton.mp hp]
    refine ⟨htmp.1, ?_⟩
    show tmp.base + (tmp.count + t) ≤ pageToAddr h.zone tmp.page + PAGE_SIZE
    omega

theorem holds_fill (hwin : h.Windows) (hlast : h.pages.getLast? = some tmp) {t : Nat}
    (hfits : tmp.base + tmp.count + t ≤ pageToAddr h.zone tmp.page + PAGE_SIZE) :
    KqueuePage.Holds h.zone { tmp with count := tmp.count + t }
      ⟨tmp.base + tmp.count, data, t⟩ := by
  have htmp := hwin tmp (List.mem_of_getLast? hlast)
  exact ⟨Nat.le_trans htmp.1 (Nat.le_add_right _ _), hfits⟩

theorem mem_fillLast (h : KqueueHeap) (tmp : KqueuePage) (data t : Nat) :
    ({ tmp with count := tmp.count + t } : KqueuePage) ∈ (h.fillLast tmp data t).pages :=
  List.mem_append_right _ (List.mem_singleton_self _)

theorem pushedInPages_of_full (hwin : h.Windows) (hfull : h.lastRoom = 0) :
    PushedInPages h data len := by
  have hcopies : pushCopies h data len = pushLoopCopies (len / MAX_COUNT + 1) h.zone data len := by
    unfold KqueueHeap.lastRoom at hfull
    unfold pushCopies
    cases hlast : h.pages.getLast? with
    | none => rfl
    | some tmp =>
      rw [hlast] at hfull
      exact if_neg (Nat.not_lt.mpr (Nat.le_of_sub_eq_zero hfull))
  obtain ⟨hwin', -, -, hholds⟩ :=
    pushLoop_inPages hwin data (len / MAX_COUNT + 1) len 0
  rw [← kqueuePush_of_full hfull] at hwin' hholds
  exact ⟨hwin', hcopies ▸ hholds⟩

theorem kqueuePush_last (hlast : h.pages.getLast? = some tmp) (hroom : tmp.count < MAX_COUNT)
    (data len : Nat) :
    ({ tmp with count := tmp.count + min len (MAX_COUNT - tmp.count) } : KqueuePage) ∈
        (kqueuePush h data len).1.pages ∧
      h.zone.SamePages (kqueuePush h data len).1.zone := by
  by_cases hle : len ≤ MAX_COUNT - tmp.count
  · rw [kqueuePush_of_room hlast hroom hle, Nat.min_eq_left hle]
    exact ⟨mem_fillLast h tmp data len, rfl, rfl⟩
  · rw [kqueuePush_of_spill hlast hroom hle, Nat.min_eq_right (by omega)]
    obtain ⟨added, hpages, hsame, -, -⟩ := pushLoop_windows data
      ((len - (MAX_COUNT - tmp.count)) / MAX_COUNT + 1)
      (h.fillLast tmp data (MAX_COUNT - tmp.count)) (len - (MAX_COUNT - tmp.count))
      (MAX_COUNT - tmp.count)
    refine ⟨?_, hsame⟩
    rw [hpages]
    exact List.mem_append_left added (mem_fillLast h tmp data _)

theorem pushedInPages_of_room (hwin : h.Windows) (hlast : h.pages.getLast? = some tmp)
    (hroom : tmp.count < MAX_COUNT)
    (hfits : tmp.base + tmp.count + min len (MAX_COUNT - tmp.count) ≤
      pageToAddr h.zone tmp.page + PAGE_SIZE) : PushedInPages h data len := by
  by_cases hle : len ≤ MAX_COUNT - tmp.count
  · rw [Nat.min_eq_left hle] at hfits
    have hcopies : pushCopies h data len = [⟨tmp.base + tmp.count, data, len⟩] := by
      simp [pushCopies, hlast, hroom, hle]
    constructor
    · rw [kqueuePush_of_room hlast hroom hle]
      exact fillLast_windows hwin hlast data hfits
    · intro c hc
      rw [hcopies, List.mem_singleton] at hc
      rw [kqueuePush_of_room hlast hroom hle, hc]
      exact ⟨_, mem_fillLast h tmp data len, holds_fill hwin hlast hfits⟩
  · rw [Nat.min_eq_right (by omega)] at hfits
    generalize ht : MAX_COUNT - tmp.count = t at hfits hle
    have hcopies : pushCopies h data len = ⟨tmp.base + tmp.count, data, t⟩ ::
        pushLoopCopies ((len - t) / MAX_COUNT + 1) h.zone data (len - t) := by
      simp [pushCopies, hlast, hroom, ht, hle]
    have hpush : kqueuePush h data len =
        pushLoop ((len - t) / MAX_COUNT + 1) (h.fillLast tmp data t) data (len - t) t := by
      rw [kqueuePush_of_spill hlast hroom (ht ▸ hle), ht]
    obtain ⟨hwin', hkept, hsame, hholds⟩ := pushLoop_inPages
      (fillLast_windows hwin hlast data hfits) data ((len - t) / MAX_COUNT + 1) (len - t) t
    rw [← hpush] at hwin' hkept hsame hholds
    refine ⟨hwin', ?_⟩
    intro c hc
    rw [hcopies] at hc
    rcases List.mem_cons.mp hc with rfl | hc
    · refine ⟨_, hkept _ (mem_fillLast h tmp data t), ?_⟩
      unfold KqueuePage.Holds
      rw [pageToAddr_congr hsame]
      exact holds_fill hwin hlast hfits
    · exact hholds c hc

theorem pushedInPages_iff (hwin : h.Windows) : PushedInPages h data len ↔ PushInPage h len := by
  constructor
  · intro hpushed tmp hlast hroom
    obtain ⟨hmem, hsame⟩ := kqueuePush_last hlast hroom data len
    have hin := (hpushed.windows _ hmem).2
    rw [pageToAddr_congr hsame, ← Nat.add_assoc] at hin
    exact hin
  · intro hfits
    by_cases hfull : h.lastRoom = 0
    · exact pushedInPages_of_full hwin hfull
    · unfold KqueueHeap.lastRoom at hfull
      cases hlast : h.pages.getLast? with
      | none => simp [hlast] at hfull
      | some tmp =>
        have hroom : tmp.count < MAX_COUNT := by
          simp only [hlast] at hfull
          omega
        exact pushedInPages_of_room hwin hlast hroom (hfits tmp hlast hroom)

/-- A push that keeps to the payload leaves the memory outside the pages of the queue alone. -/
theorem PushedInPages.frame (h₁ : PushedInPages h data len) {x : Nat}
    (hx : ∀ b ∈ (kqueuePush h data len).1.piles,
      ApartFrom (kqueuePush h data len).1.zone b x 1) :
    (kqueuePush h data len).1.mem x = h.mem x := by
  rw [kqueuePush_eq_copies]
  apply Copy.foldl_run_of_not_stores
  intro c hc hstores
  obtain ⟨p, hp, hholds⟩ := h₁.copies c hc
  have hapart := apartFrom_page.mp (hx ⟨0, p.page⟩ (List.mem_map.mpr ⟨p, hp, rfl⟩))
  have hlo := hholds.1
  have hhi := hholds.2
  have hin := hstores.2
  omega

theorem pullLoop_windows : ∀ (ps : List KqueuePage) (h h' : KqueueHeap) (len pulled r : Nat),
    (∀ p ∈ ps, p.InPage h.zone) → pullLoop ps h data len pulled = some (h', r) → h'.Windows
  | [], h, h', _, _, r, _, hpull => by
    cases hpull
    exact nofun
  | tmp :: rest, h, h', len, pulled, r, hin, hpull => by
    rw [pullLoop] at hpull
    split at hpull
    · rename_i hlt
      cases hpull
      intro p hp
      rcases List.mem_cons.mp hp with rfl | hp
      · have htmp := hin tmp List.mem_cons_self
        refine ⟨Nat.le_trans htmp.1 (Nat.le_add_right _ _), ?_⟩
        show tmp.base + len + (tmp.count - len) ≤ pageToAddr h.zone tmp.page + PAGE_SIZE
        have hend := htmp.2
        omega
      · exact hin p (List.mem_cons_of_mem tmp hp)
    · obtain ⟨z, hput, hrest⟩ := Option.bind_eq_some_iff.mp hpull
      obtain ⟨pg, -, rfl⟩ := Option.map_eq_some_iff.mp hput
      refine pullLoop_windows rest _ h' _ _ r ?_ hrest
      intro p hp
      exact (hin p (List.mem_cons_of_mem tmp hp)).congr (freePages_samePages h.zone pg)

end Windows

/-! ## Runs -/

/-- What a call is to do: after it, the windows are in the payload of their pages, and a push
has copied to nothing else. -/
def KqueueSys.InWindows (s : KqueueSys) : KqueueCall → Prop
  | .push data len => PushedInPages s.heap data len
  | .pull buf len => ∀ h' r, kqueuePullTail s.heap buf len = some (h', r) → h'.Windows
  | _ => s.heap.Windows

def KqueueSys.PushesInPage (s : KqueueSys) : KqueueCall → Prop
  | .push _ len => PushInPage s.heap len
  | _ => True

theorem inWindows_iff {s : KqueueSys} (c : KqueueCall) (hwin : s.heap.Windows) :
    s.InWindows c ↔ s.PushesInPage c := by
  cases c with
  | push data len => exact pushedInPages_iff hwin
  | pull buf len =>
    exact iff_of_true (fun h' r hpull => pullLoop_windows s.heap.pages s.heap h' len 0 r hwin hpull)
      trivial
  | pageAlloc order => exact iff_of_true hwin trivial
  | pageFree pg => exact iff_of_true hwin trivial
  | store addr v => exact iff_of_true hwin trivial

theorem windows_call {s s' : KqueueSys} {c : KqueueCall} (hwin : s.heap.Windows)
    (hcond : s.PushesInPage c) (hcall : s.call c = some s') : s'.heap.Windows := by
  have hin := (inWindows_iff c hwin).mpr hcond
  cases c with
  | push data len =>
    obtain ⟨h', hpush, rfl⟩ := call_push hcall
    have hafter := hin.windows
    rw [hpush] at hafter
    exact hafter
  | pull buf len =>
    obtain ⟨-, h', r, hpull, rfl⟩ := call_pull hcall
    exact hin h' r hpull
  | pageAlloc order =>
    cases hcall
    exact fun p hp => (hwin p hp).congr (rawAllocPages_samePages s.heap.zone order)
  | pageFree pg =>
    obtain ⟨b, -, rfl⟩ := Option.map_eq_some_iff.mp hcall
    exact fun p hp => (hwin p hp).congr (freePages_samePages s.heap.zone pg)
  | store addr v =>
    obtain ⟨-, rfl⟩ := call_store hcall
    exact hwin

/-- When the windows of a queue stay in their pages.  In a run, every call leaves every window
in the payload of its page and every push copies to such payloads only, exactly when every push
of the run puts no more into the newest page than there is between its window and its end. -/
theorem kqueueRun_windows_iff (z : Zone) (mem : ByteMem) (calls : List KqueueCall) :
    Meets KqueueSys.call KqueueSys.InWindows (kqueueStart z mem) calls ↔
      Meets KqueueSys.call KqueueSys.PushesInPage (kqueueStart z mem) calls :=
  meets_congr (fun s => s.heap.Windows) (fun _ c hwin => inWindows_iff c hwin)
    (fun _ _ _ hwin hcond hcall => windows_call hwin hcond hcall) nofun

/-- Five bytes pushed, three of them pulled and 4078 more pushed.  The page counts as having
room for them, since two bytes are in it; they are copied to the three bytes after it too. -/
theorem kqueue_window_overruns :
    ∃ s h', run KqueueSys.call (kqueueStart (rawZone 4) (fun x => UInt8.ofNat x))
        [.push 20000 5, .pull 30000 3] = some s ∧
      kqueuePush s.heap 20000 4078 = (h', .ok) ∧
      pushCopies s.heap 20000 4078 = [⟨4117, 20000, 4078⟩] ∧
      h'.pages.map (fun p => (pageToAddr h'.zone p.page + PAGE_SIZE, p.base + p.count)) =
        [(8192, 8195)] := by
  have hsome : (run KqueueSys.call (kqueueStart (rawZone 4) (fun x => UInt8.ofNat x))
      [.push 20000 5, .pull 30000 3]).map (fun s =>
        ((kqueuePush s.heap 20000 4078).2, pushCopies s.heap 20000 4078,
          (kqueuePush s.heap 20000 4078).1.pages.map (fun p =>
            (pageToAddr (kqueuePush s.heap 20000 4078).1.zone p.page + PAGE_SIZE,
              p.base + p.count)))) =
      some (.ok, [⟨4117, 20000, 4078⟩], [(8192, 8195)]) := by
    decide +kernel
  obtain ⟨s, hrun, hvals⟩ := Option.map_eq_some_iff.mp hsome
  simp only [Prod.mk.injEq] at hvals
  exact ⟨s, _, hrun, Prod.ext rfl hvals.1, hvals.2.1, hvals.2.2⟩

end Koowaldah
