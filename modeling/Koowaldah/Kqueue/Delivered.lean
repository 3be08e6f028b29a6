import Koowaldah.Kqueue.Steps

/-!
# What a pull reports

`kqueue_pull_tail` counts the bytes of the pages that it empties in `pulled` and
takes them off `len`.  It has two exits: it returns `pulled` when the queue has
no page left, and `len` when it takes a part of a page.  At the second exit
`len` is what is still missing, not what was asked for.
-/

namespace Koowaldah

open SysLib SysLib.Dyadic

/-- The calls of `memory_copy` of the loop of `kqueue_pull_tail`. -/
def pullCopies : List KqueuePage → Nat → Nat → Nat → List Copy
  | [], _, _, _ => []
  | tmp :: rest, data, len, pulled =>
    if len < tmp.count then [⟨data + pulled, tmp.base, len⟩]
    else
      ⟨data + pulled, tmp.base, tmp.count⟩ ::
        pullCopies rest data (len - tmp.count) (pulled + tmp.count)

/-- Some copies fill `n` bytes from `a` on, one after another. -/
def Fills : Nat → Nat → List Copy → Prop
  | _, n, [] => n = 0
  | a, n, c :: cs => c.dst = a ∧ c.n ≤ n ∧ Fills (a + c.n) (n - c.n) cs

/-- A pull has delivered `n` bytes: `kqueue_size` is down by `n`, and the memory is that of
copies that fill `n` bytes of the buffer. -/
structure Delivered (h h' : KqueueHeap) (copies : List Copy) (buf n : Nat) : Prop where
  size : h'.count + n = h.count
  mem : h'.mem = copies.foldl Copy.run h.mem
  fills : Fills buf n copies

/-- The condition on a pull: it empties the queue, or it ends in the first page that has bytes. -/
def KqueueHeap.PullsWhole (h : KqueueHeap) (len : Nat) : Prop :=
  h.count ≤ len ∨ ∀ p, h.pages.find? (fun p => 0 < p.count) = some p → len < p.count

section Pull

variable {data : Nat} {h' : KqueueHeap} {r : Nat}

theorem pullLoop_delivered : ∀ (ps : List KqueuePage) (h : KqueueHeap) (len pulled : Nat),
    h.count = (ps.map KqueuePage.count).sum → pullLoop ps h data len pulled = some (h', r) →
    Delivered h h' (pullCopies ps data len pulled) (data + pulled) (min len h.count)
  | [], h, len, pulled, hcount, hpull => by
    cases hpull
    have hzero : h.count = 0 := hcount
    refine ⟨?_, rfl, ?_⟩
    · show h.count + min len h.count = h.count
      omega
    · show min len h.count = 0
      omega
  | tmp :: rest, h, len, pulled, hcount, hpull => by
    rw [List.map_cons, List.sum_cons] at hcount
    rw [pullLoop] at hpull
    rw [pullCopies]
    split at hpull
    · rename_i hlt
      rw [← (Prod.mk.inj (Option.some.inj hpull)).1, if_pos hlt]
      have hmin : min len h.count = len := by omega
      rw [hmin]
      refine ⟨?_, rfl, rfl, Nat.le_refl len, Nat.sub_self len⟩
      show h.count - len + len = h.count
      omega
    · rename_i hge
      obtain ⟨z, -, hrest⟩ := Option.bind_eq_some_iff.mp hpull
      have hdone := pullLoop_delivered rest _ _ _ (Nat.sub_eq_of_eq_add' hcount) hrest
      have hmin : min len h.count = tmp.count + min (len - tmp.count) (h.count - tmp.count) := by
        omega
      rw [if_neg hge, hmin]
      refine ⟨?_, hdone.mem, rfl, Nat.le_add_right _ _, ?_⟩
      · have hsize : h'.count + min (len - tmp.count) (h.count - tmp.count) =
            h.count - tmp.count := hdone.size
        omega
      · rw [Nat.add_sub_cancel_left, Nat.add_assoc]
        exact hdone.fills

/-- When the loop of `kqueue_pull_tail` returns the number of bytes that it has delivered.  A
partial pull returns what was missing when it came to its last page. -/
theorem pullLoop_value : ∀ (ps : List KqueuePage) (h : KqueueHeap) (len pulled : Nat),
    pullLoop ps h data len pulled = some (h', r) →
    (r = pulled + min len (ps.map KqueuePage.count).sum ↔
      (ps.map KqueuePage.count).sum ≤ len ∨
        pulled = 0 ∧ ∀ p, ps.find? (fun p => 0 < p.count) = some p → len < p.count)
  | [], h, len, pulled, hpull => by
    cases hpull
    simp
  | tmp :: rest, h, len, pulled, hpull => by
    rw [List.map_cons, List.sum_cons]
    rw [pullLoop] at hpull
    split at hpull
    · rename_i hlt
      have hfind : (tmp :: rest).find? (fun p => 0 < p.count) = some tmp :=
        List.find?_cons_of_pos (decide_eq_true (Nat.zero_lt_of_lt hlt))
      have hfirst : ∀ p, (tmp :: rest).find? (fun p => 0 < p.count) = some p → len < p.count := by
        intro p hp
        cases hfind.symm.trans hp
        exact hlt
      rw [← (Prod.mk.inj (Option.some.inj hpull)).2, and_iff_left hfirst]
      omega
    · rename_i hge
      obtain ⟨z, -, hrest⟩ := Option.bind_eq_some_iff.mp hpull
      have hvalue := pullLoop_value rest _ _ _ hrest
      have hsum : pulled + min len (tmp.count + (rest.map KqueuePage.count).sum) =
          pulled + tmp.count + min (len - tmp.count) (rest.map KqueuePage.count).sum := by
        omega
      rw [hsum, hvalue]
      by_cases hzero : tmp.count = 0
      · have hskip : (tmp :: rest).find? (fun p => 0 < p.count) =
            rest.find? (fun p => 0 < p.count) :=
          List.find?_cons_of_neg (by simp [hzero])
        rw [hskip, hzero, Nat.add_zero, Nat.sub_zero, Nat.zero_add]
      · -- the page has been emptied, so the pull has not ended in the first page with bytes
        have hfind : (tmp :: rest).find? (fun p => 0 < p.count) = some tmp :=
          List.find?_cons_of_pos (decide_eq_true (Nat.pos_of_ne_zero hzero))
        have hnot : ¬∀ p, (tmp :: rest).find? (fun p => 0 < p.count) = some p → len < p.count :=
          fun hfirst => hge (hfirst tmp hfind)
        constructor
        · rintro (hle | ⟨hpulled, -⟩) <;> omega
        · rintro (hle | ⟨-, hfirst⟩)
          · exact Or.inl (by omega)
          · exact absurd hfirst hnot

end Pull

/-- When a pull reports what it has delivered.  In every state that calls reach, a pull delivers
the bytes that were asked for and are in the queue; the value that it returns is their number
exactly when it empties the queue or ends in the first page that has bytes. -/
theorem kqueuePullTail_reports_iff (z : Zone) (mem : ByteMem) (calls : List KqueueCall)
    (s : KqueueSys) (hrun : run KqueueSys.call (kqueueStart z mem) calls = some s) (buf len : Nat) :
    ∃ h' r, kqueuePullTail s.heap buf len = some (h', r) ∧
      Delivered s.heap h' (pullCopies s.heap.pages buf len 0) buf (min len s.heap.count) ∧
      (r = min len s.heap.count ↔ s.heap.PullsWhole len) := by
  have hheld := kqueueRun_held hrun
  obtain ⟨h', r, hpull, -⟩ :=
    pullLoop_held (Nat.succ_pos _) buf s.heap.pages s.heap len 0 hheld
  refine ⟨h', r, hpull, pullLoop_delivered _ _ _ _ hheld.count hpull, ?_⟩
  have hvalue := pullLoop_value _ _ _ _ hpull
  rw [← hheld.count, Nat.zero_add] at hvalue
  rw [hvalue, and_iff_right rfl]
  rfl

theorem kqueuePullTail_reports_three :
    ∃ s, run KqueueSys.call (kqueueStart (rawZone 4) (fun x => UInt8.ofNat x)) [.push 20000 5] =
        some s ∧
      ∃ h', kqueuePullTail s.heap 30000 3 = some (h', 3) ∧ h'.count + 3 = s.heap.count := by
  have hsome : (run KqueueSys.call (kqueueStart (rawZone 4) (fun x => UInt8.ofNat x))
      [.push 20000 5]).map (fun s => (s.heap.count, s.heap.pages.map KqueuePage.count)) =
      some (5, [5]) := by
    decide +kernel
  obtain ⟨s, hrun, hvals⟩ := Option.map_eq_some_iff.mp hsome
  obtain ⟨hcount, hpages⟩ := Prod.mk.inj hvals
  obtain ⟨h', r, hpull, hdone, hiff⟩ := kqueuePullTail_reports_iff _ _ _ s hrun 30000 3
  rw [hcount] at hdone hiff
  have hwhole : s.heap.PullsWhole 3 := by
    right
    intro p hp
    have hmem : p.count ∈ [5] :=
      hpages ▸ List.mem_map_of_mem (List.mem_of_find?_eq_some hp)
    rw [List.mem_singleton.mp hmem]
    decide
  obtain rfl : r = 3 := hiff.mpr hwhole
  exact ⟨s, hrun, h', hpull, hdone.size⟩

/-- A queue with a full page and a second page with five bytes.  A pull of 4082 bytes takes as
many out of the queue and returns 2; a pull of 4080 bytes, which ends with the first page,
returns 0. -/
theorem kqueuePullTail_reports_rest :
    ∃ s, run KqueueSys.call (kqueueStart (rawZone 4) (fun x => UInt8.ofNat x))
        [.push 20000 4080, .push 20000 5] = some s ∧ s.heap.count = 4085 ∧
      (kqueuePullTail s.heap 30000 4082).map (fun x => (x.1.count, x.2)) = some (3, 2) ∧
      (kqueuePullTail s.heap 30000 4080).map (fun x => (x.1.count, x.2)) = some (5, 0) := by
  have hsome : (run KqueueSys.call (kqueueStart (rawZone 4) (fun x => UInt8.ofNat x))
      [.push 20000 4080, .push 20000 5]).map (fun s => (s.heap.count,
        (kqueuePullTail s.heap 30000 4082).map (fun x => (x.1.count, x.2)),
        (kqueuePullTail s.heap 30000 4080).map (fun x => (x.1.count, x.2)))) =
      some (4085, some (3, 2), some (5, 0)) := by
    decide +kernel
  obtain ⟨s, hrun, hvals⟩ := Option.map_eq_some_iff.mp hsome
  simp only [Prod.mk.injEq] at hvals
  exact ⟨s, hrun, hvals⟩

/-! ## Accounts -/

/-- No page holds more than there is room for in a new one. -/
def KqueueHeap.PagesFit (h : KqueueHeap) : Prop := ∀ p ∈ h.pages, p.count ≤ MAX_COUNT

theorem pushLoop_accounts {data : Nat} : ∀ (fuel len pushed : Nat) (h h' : KqueueHeap),
    len < fuel * MAX_COUNT → h.PagesFit → pushLoop fuel h data len pushed = (h', .ok) →
    h'.count = h.count + len ∧ h'.PagesFit
  | 0, len, _, _, _, hfuel, _, _ => by omega
  | fuel + 1, len, pushed, h, h', hfuel, hfit, hpush => by
    have hsucc : (fuel + 1) * MAX_COUNT = fuel * MAX_COUNT + MAX_COUNT := Nat.succ_mul ..
    cases hpg : (rawAllocPages h.zone 0).2 with
    | none =>
      rw [pushLoop_none hpg] at hpush
      cases hpush
    | some pg =>
      by_cases hzero : pageToAddr (rawAllocPages h.zone 0).1 pg = 0
      · rw [pushLoop_zero hpg hzero] at hpush
        split at hpush <;> cases hpush
      · rw [pushLoop_some hpg hzero] at hpush
        have hfit' : (h.addPage pg data (min len MAX_COUNT)).PagesFit :=
          List.forall_mem_append.mpr ⟨hfit, by simp⟩
        have hcount : (h.addPage pg data (min len MAX_COUNT)).count =
            h.count + min len MAX_COUNT := rfl
        split at hpush
        · obtain ⟨hrest, hall⟩ := pushLoop_accounts fuel _ _ _ h' (by omega) hfit' hpush
          exact ⟨by omega, hall⟩
        · cases hpush
          exact ⟨by omega, hfit'⟩

theorem kqueuePush_accounts {h h' : KqueueHeap} {data len : Nat} (hfit : h.PagesFit)
    (hpush : kqueuePush h data len = (h', .ok)) : h'.count = h.count + len ∧ h'.PagesFit := by
  have henough : ∀ len, len < (len / MAX_COUNT + 1) * MAX_COUNT := fun len => by
    rw [Nat.mul_comm]
    exact Nat.lt_mul_div_succ len maxCount_pos
  have hfill : ∀ {tmp : KqueuePage} {t : Nat}, t ≤ MAX_COUNT - tmp.count → tmp.count < MAX_COUNT →
      (h.fillLast tmp data t).PagesFit := by
    intro tmp t ht hroom
    refine List.forall_mem_append.mpr ⟨fun p hp => hfit p (List.mem_of_mem_dropLast hp), ?_⟩
    rw [List.forall_mem_singleton]
    dsimp only
    omega
  cases hlast : h.pages.getLast? with
  | none =>
    rw [kqueuePush_of_full (by simp [KqueueHeap.lastRoom, hlast])] at hpush
    exact pushLoop_accounts _ _ _ _ _ (henough len) hfit hpush
  | some tmp =>
    by_cases hroom : tmp.count < MAX_COUNT
    · by_cases hle : len ≤ MAX_COUNT - tmp.count
      · rw [kqueuePush_of_room hlast hroom hle] at hpush
        cases hpush
        exact ⟨rfl, hfill hle hroom⟩
      · rw [kqueuePush_of_spill hlast hroom hle] at hpush
        obtain ⟨hcount, hall⟩ :=
          pushLoop_accounts _ _ _ _ _ (henough _) (hfill (Nat.le_refl _) hroom) hpush
        rw [show (h.fillLast tmp data (MAX_COUNT - tmp.count)).count =
          h.count + (MAX_COUNT - tmp.count) from rfl] at hcount
        exact ⟨by omega, hall⟩
    · rw [kqueuePush_of_full (by simp [KqueueHeap.lastRoom, hlast]; omega)] at hpush
      exact pushLoop_accounts _ _ _ _ _ (henough len) hfit hpush

theorem pullLoop_accounts {data r : Nat} {h' : KqueueHeap} : ∀ (ps : List KqueuePage)
    (h : KqueueHeap) (len pulled : Nat), (∀ p ∈ ps, p.count ≤ MAX_COUNT) →
    pullLoop ps h data len pulled = some (h', r) → h'.count ≤ h.count ∧ h'.PagesFit
  | [], h, _, _, _, hpull => by
    cases hpull
    exact ⟨Nat.le_refl _, nofun⟩
  | tmp :: rest, h, len, pulled, hfit, hpull => by
    rw [List.forall_mem_cons] at hfit
    rw [pullLoop] at hpull
    split at hpull
    · cases hpull
      refine ⟨Nat.sub_le _ _, List.forall_mem_cons.mpr ⟨?_, hfit.2⟩⟩
      exact Nat.le_trans (Nat.sub_le _ _) hfit.1
    · obtain ⟨z, -, hpull⟩ := Option.bind_eq_some_iff.mp hpull
      obtain ⟨hle, hall⟩ := pullLoop_accounts rest _ _ _ hfit.2 hpull
      exact ⟨Nat.le_trans hle (Nat.sub_le _ _), hall⟩

/-- The size of the queue and the bytes that were pulled are the bytes that were pushed. -/
structure KqueueSys.Accounts (s : KqueueSys) : Prop where
  fit : s.heap.PagesFit
  sum : s.heap.count + s.pulled.length = s.pushed.length

theorem KqueueSys.Accounts.call {s s' : KqueueSys} {c : KqueueCall} (h : s.Accounts)
    (hcall : s.call c = some s') : s'.Accounts := by
  cases c with
  | push data len =>
    obtain ⟨h', hpush, rfl⟩ := call_push hcall
    obtain ⟨hcount, hfit⟩ := kqueuePush_accounts h.fit hpush
    refine ⟨hfit, ?_⟩
    have := h.sum
    simp only [List.length_append, readBytes_length, hcount]
    omega
  | pull buf len =>
    obtain ⟨-, h', r, hpull, rfl⟩ := call_pull hcall
    obtain ⟨hle, hfit⟩ := pullLoop_accounts _ _ _ _ h.fit hpull
    refine ⟨hfit, ?_⟩
    have := h.sum
    simp only [List.length_append, readBytes_length]
    omega
  | pageAlloc order =>
    cases hcall
    exact ⟨h.fit, h.sum⟩
  | pageFree pg =>
    obtain ⟨b, -, rfl⟩ := Option.map_eq_some_iff.mp hcall
    exact ⟨h.fit, h.sum⟩
  | store addr v =>
    obtain ⟨-, rfl⟩ := call_store hcall
    exact ⟨h.fit, h.sum⟩

end Koowaldah
