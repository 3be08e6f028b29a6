import Koowaldah.Kqueue.Steps

/-!
# The byte queue is a FIFO

The bytes of a queue are those of its pages, the oldest page first
(`KqueueHeap.contents`).  A pull takes bytes from the front
(`pullLoop_spec`).  A push adds bytes at the back when they go to one page and
end before its end (`PushFits`).  `KqueueInv` ties the contents to the bytes
pushed and pulled so far, and `kqueueRun_fifo` carries it over every run whose
pushes fit.

A push that does not fit goes wrong in one of two ways.  The loop that adds
pages does not advance `data`, so every page it adds starts with the same
bytes (`kqueue_spill_not_fifo`).  And a page that has been drained in part
takes bytes as if it had not, so that the copy runs over the end of the page.
-/

namespace Koowaldah

open SysLib SysLib.Dyadic

variable {z : Zone} {ps : List KqueuePage}

/-- The bytes that the windows of some pages hold. -/
def pagesBytes (mem : ByteMem) (ps : List KqueuePage) : List UInt8 :=
  ps.flatMap (fun p => readBytes mem p.base p.count)

def KqueueHeap.contents (h : KqueueHeap) : List UInt8 := pagesBytes h.mem h.pages

@[simp] theorem pagesBytes_nil (mem : ByteMem) : pagesBytes mem [] = [] := rfl

@[simp] theorem pagesBytes_cons (mem : ByteMem) (p : KqueuePage) (ps : List KqueuePage) :
    pagesBytes mem (p :: ps) = readBytes mem p.base p.count ++ pagesBytes mem ps :=
  List.flatMap_cons

@[simp] theorem pagesBytes_append (mem : ByteMem) (ps qs : List KqueuePage) :
    pagesBytes mem (ps ++ qs) = pagesBytes mem ps ++ pagesBytes mem qs :=
  List.flatMap_append

/-- The window of a page lies in its payload. -/
def KqueuePage.InPage (z : Zone) (p : KqueuePage) : Prop :=
  pageToAddr z p.page + SIZEOF_KQUEUE_PAGE ≤ p.base ∧
    p.base + p.count ≤ pageToAddr z p.page + PAGE_SIZE

theorem KqueuePage.InPage.congr {z' : Zone} {p : KqueuePage} (h : p.InPage z)
    (hsame : z.SamePages z') : p.InPage z' := by
  unfold KqueuePage.InPage at *
  rw [pageToAddr_congr hsame]
  exact h

theorem pagesBytes_congr {mem mem' : ByteMem} (hin : ∀ p ∈ ps, p.InPage z)
    (hmem : ∀ p ∈ ps, ∀ x, pageToAddr z p.page ≤ x → x < pageToAddr z p.page + PAGE_SIZE →
      mem' x = mem x) : pagesBytes mem' ps = pagesBytes mem ps := by
  apply List.flatMap_congr
  intro p hp
  have hwin := hin p hp
  unfold KqueuePage.InPage at hwin
  apply readBytes_congr
  intro x hlo hhi
  exact hmem p hp x (by omega) (by omega)

theorem pagesBytes_moveBytes {mem : ByteMem} {dst src n : Nat} (hin : ∀ p ∈ ps, p.InPage z)
    (hapart : n = 0 ∨ ∀ p ∈ ps, ApartFrom z ⟨0, p.page⟩ dst n) :
    pagesBytes (moveBytes mem dst src n) ps = pagesBytes mem ps := by
  apply pagesBytes_congr hin
  intro p hp x hlo hhi
  apply moveBytes_of_outside
  rcases hapart with hzero | hapart
  · omega
  · have := apartFrom_page.mp (hapart p hp)
    omega

theorem pagesBytes_update {addr : Nat} (mem : ByteMem) (v : UInt8) (hin : ∀ p ∈ ps, p.InPage z)
    (hapart : ∀ b ∈ ps.map (fun p => (⟨0, p.page⟩ : Block)), ApartFrom z b addr 1) :
    pagesBytes (Function.update mem addr v) ps = pagesBytes mem ps := by
  apply pagesBytes_congr hin
  intro p hp x hlo hhi
  have := apartFrom_page.mp (hapart ⟨0, p.page⟩ (List.mem_map.mpr ⟨p, hp, rfl⟩))
  rw [Function.update_apply, if_neg (by omega)]

/-! ## Pulling -/

/-- What a pull of `len` bytes out of `bytes` to `dst` does: it stores the
first of them, touches no other memory and leaves the others in the queue. -/
structure PullPost (h : KqueueHeap) (bytes : List UInt8) (dst len : Nat)
    (h' : KqueueHeap) : Prop where
  stored : readBytes h'.mem dst (min len bytes.length) = bytes.take len
  frame : ∀ x, x < dst ∨ dst + min len bytes.length ≤ x → h'.mem x = h.mem x
  rest : h'.contents = bytes.drop len
  count : h'.count = h.count - min len bytes.length

/-- The pages of a queue are handed out to it, and its windows are in them. -/
structure PagesInv (lo hi : Nat) (live : List Block) (z : Zone) (ps : List KqueuePage) :
    Prop where
  total : z.totalPages = hi
  buddy : BuddyInv z lo hi (ps.map (fun p => ⟨0, p.page⟩) ++ live)
  inPage : ∀ p ∈ ps, p.InPage z

section Pull

variable {lo hi : Nat} {live : List Block}

variable {tmp : KqueuePage} {rest : List KqueuePage} {len : Nat}

theorem PagesInv.drop {z : Zone} (h : PagesInv lo hi live z (tmp :: rest)) :
    PagesInv lo hi live (freePages z tmp.page) rest where
  total := (freePages_samePages z tmp.page).2.trans h.total
  buddy := freePages_buddy h.buddy
  inPage p hp := (h.inPage p (List.mem_cons_of_mem tmp hp)).congr (freePages_samePages z tmp.page)

theorem pull_part {h : KqueueHeap} {dst : Nat} (hinv : PagesInv lo hi live h.zone (tmp :: rest))
    (hlen : len ≤ tmp.count)
    (hapart : len = 0 ∨ ∀ p ∈ tmp :: rest, ApartFrom h.zone ⟨0, p.page⟩ dst len) :
    PullPost h (pagesBytes h.mem (tmp :: rest)) dst len { h with
        mem := memoryCopy h.mem dst tmp.base len
        pages := { tmp with count := tmp.count - len, base := tmp.base + len } :: rest
        count := h.count - len } := by
  have hmin : min len (pagesBytes h.mem (tmp :: rest)).length = len := by
    simp
    omega
  have hkeep : pagesBytes (moveBytes h.mem dst tmp.base len) (tmp :: rest) =
      pagesBytes h.mem (tmp :: rest) := pagesBytes_moveBytes hinv.inPage hapart
  rw [memoryCopy_eq]
  refine ⟨?_, ?_, ?_, by rw [hmin]⟩
  · rw [hmin, readBytes_moveBytes, pagesBytes_cons,
      List.take_append_of_le_length (by simp; omega), readBytes_take _ _ (by omega)]
  · intro x hx
    rw [hmin] at hx
    exact moveBytes_of_outside hx
  · rw [← hkeep, pagesBytes_cons, List.drop_append_of_le_length (by simp; omega),
      readBytes_drop _ _ (by omega)]
    rfl

theorem PagesInv.shorten {z : Zone} (h : PagesInv lo hi live z (tmp :: rest))
    (hlen : len < tmp.count) : PagesInv lo hi live z
      ({ tmp with count := tmp.count - len, base := tmp.base + len } :: rest) := by
  refine ⟨h.total, h.buddy, ?_⟩
  intro p hp
  rcases List.mem_cons.mp hp with rfl | hp
  · have hin := h.inPage tmp List.mem_cons_self
    unfold KqueuePage.InPage at *
    dsimp only
    omega
  · exact h.inPage p (List.mem_cons_of_mem tmp hp)

theorem PullPost.cons {h h' : KqueueHeap} (z : Zone) {first rest : List UInt8} {dst : Nat}
    (src : Nat) (hsrc : readBytes h.mem src first.length = first) (hlen : first.length ≤ len)
    (hrest : PullPost
      { h with
        zone := z
        mem := moveBytes h.mem dst src first.length
        count := h.count - first.length } rest (dst + first.length) (len - first.length) h') :
    PullPost h (first ++ rest) dst len h' := by
  have hmin : min len (first ++ rest).length =
      first.length + min (len - first.length) rest.length := by
    rw [List.length_append]
    omega
  have htake : (first ++ rest).take len = first ++ rest.take (len - first.length) := by
    rw [List.take_append, List.take_of_length_le hlen]
  refine ⟨?_, ?_, ?_, ?_⟩
  · have hfirst : readBytes h'.mem dst first.length = first := by
      rw [← hsrc, readBytes_length, ← readBytes_moveBytes h.mem dst src]
      apply readBytes_congr
      intro x _ hx
      exact hrest.frame x (Or.inl hx)
    rw [hmin, readBytes_add, hfirst, hrest.stored, htake]
  · intro x hx
    rw [hrest.frame x (by omega)]
    exact moveBytes_of_outside (by omega)
  · rw [hrest.rest, List.drop_append, List.drop_of_length_le hlen, List.nil_append]
  · rw [hrest.count, hmin]
    exact Nat.sub_sub _ _ _

theorem pullLoop_spec (hlo : 0 < lo) (data : Nat) :
    ∀ (ps : List KqueuePage) (h : KqueueHeap) (len pulled : Nat), PagesInv lo hi live h.zone ps →
      (min len (pagesBytes h.mem ps).length = 0 ∨ ∀ p ∈ ps,
        ApartFrom h.zone ⟨0, p.page⟩ (data + pulled) (min len (pagesBytes h.mem ps).length)) →
      ∃ h' ret, pullLoop ps h data len pulled = some (h', ret) ∧
        h.zone.SamePages h'.zone ∧ PagesInv lo hi live h'.zone h'.pages ∧
        PullPost h (pagesBytes h.mem ps) (data + pulled) len h' := by
  intro ps
  induction ps with
  | nil =>
    intro h len pulled hinv _
    refine ⟨{ h with pages := [] }, pulled, rfl, ⟨rfl, rfl⟩, hinv, ?_, ?_, ?_, ?_⟩
    · simp
    · intro x _
      rfl
    · simp [KqueueHeap.contents]
    · simp
  | cons tmp rest ih =>
    intro h len pulled hinv hbuf
    unfold pullLoop
    by_cases hlen : len < tmp.count
    · have hmin : min len (pagesBytes h.mem (tmp :: rest)).length = len := by
        simp
        omega
      rw [hmin] at hbuf
      rw [if_pos hlen]
      exact ⟨_, _, rfl, ⟨rfl, rfl⟩, hinv.shorten hlen, pull_part hinv (Nat.le_of_lt hlen) hbuf⟩
    · have hput := putPages_held hlo hinv.total hinv.buddy List.mem_cons_self
      have hsame := freePages_samePages h.zone tmp.page
      have hlength : (pagesBytes h.mem (tmp :: rest)).length =
          tmp.count + (pagesBytes h.mem rest).length := by simp
      have hrest : pagesBytes (moveBytes h.mem (data + pulled) tmp.base tmp.count) rest =
          pagesBytes h.mem rest := by
        refine pagesBytes_moveBytes (fun p hp => hinv.inPage p (by simp [hp])) ?_
        rcases hbuf with hzero | hbuf
        · left
          omega
        · right
          intro p hp
          exact (hbuf p (by simp [hp])).mono (Nat.le_refl _) (by omega)
      rw [if_neg hlen, hput, memoryCopy_eq]
      have hstep := ih
        { h with
          zone := freePages h.zone tmp.page
          mem := moveBytes h.mem (data + pulled) tmp.base tmp.count
          count := h.count - tmp.count } (len - tmp.count) (pulled + tmp.count) hinv.drop
      rw [hrest] at hstep
      rcases hstep (by
        rcases hbuf with hzero | hbuf
        · left
          omega
        · right
          intro p hp
          exact ((hbuf p (by simp [hp])).mono (by omega) (by omega)).congr hsame) with
        ⟨h', ret, hloop, hsame', hinv', hpost⟩
      refine ⟨h', ret, hloop, ?_, hinv', ?_⟩
      · exact ⟨hsame'.1.trans hsame.1, hsame'.2.trans hsame.2⟩
      · apply PullPost.cons (freePages h.zone tmp.page) tmp.base
        · rw [readBytes_length]
        · rw [readBytes_length]
          omega
        · rw [readBytes_length, Nat.add_assoc]
          exact hpost

end Pull

/-! ## Pushing -/

section Push

variable {lo hi : Nat} {live : List Block}

variable {z : Zone} {older : List KqueuePage} {len data : Nat} {h h' : KqueueHeap}

theorem pagesBytes_push (mem : ByteMem) {pg : Nat} (base count data : Nat)
    (hin : ∀ p ∈ older, p.InPage z) (hne : ∀ p ∈ older, p.page ≠ pg)
    (hlo : pageToAddr z pg ≤ base + count)
    (hhi : base + count + len ≤ pageToAddr z pg + PAGE_SIZE) :
    pagesBytes (memoryCopy mem (base + count) data len) (older ++ [⟨pg, base, count + len⟩]) =
      pagesBytes mem (older ++ [⟨pg, base, count⟩]) ++ readBytes mem data len := by
  have holder : pagesBytes (moveBytes mem (base + count) data len) older =
      pagesBytes mem older := by
    refine pagesBytes_moveBytes hin (Or.inr ?_)
    intro p hp
    have := hne p hp
    rw [apartFrom_page]
    unfold pageToAddr PAGE_SIZE at *
    omega
  rw [memoryCopy_eq]
  simp only [pagesBytes_append, pagesBytes_cons, pagesBytes_nil, List.append_nil, holder]
  rw [readBytes_add, readBytes_moveBytes,
    readBytes_moveBytes_of_disjoint mem (Or.inl (Nat.le_refl _)), List.append_assoc]

theorem PagesInv.older_ne {tmp : KqueuePage} (h : PagesInv lo hi live z (older ++ [tmp])) :
    ∀ p ∈ older, p.page ≠ tmp.page := by
  intro p hp
  have hperm : ((older ++ [tmp]).map (fun p => (⟨0, p.page⟩ : Block)) ++ live).Perm
      (⟨0, tmp.page⟩ :: (older.map (fun p => (⟨0, p.page⟩ : Block)) ++ live)) := by
    rw [List.map_append, List.append_assoc]
    exact List.perm_middle
  have hmem : (⟨0, p.page⟩ : Block) ∈ older.map (fun p => (⟨0, p.page⟩ : Block)) ++ live :=
    List.mem_append_left _ (List.mem_map.mpr ⟨p, hp, rfl⟩)
  exact (h.buddy.perm hperm).piles.start_ne_of_mem hmem

theorem PagesInv.add {ps : List KqueuePage} {pg : Nat} (h : PagesInv lo hi live z ps)
    (hpg : (rawAllocPages z 0).2 = some pg) (hlen : len ≤ MAX_COUNT) :
    PagesInv lo hi live (rawAllocPages z 0).1
      (ps ++ [⟨pg, pageToAddr (rawAllocPages z 0).1 pg + SIZEOF_KQUEUE_PAGE, len⟩]) := by
  have hsame := rawAllocPages_samePages z 0
  refine ⟨hsame.2.trans h.total, ?_, ?_⟩
  · exact buddy_addPage _ len h.buddy hpg
  · intro p hp
    rcases List.mem_append.mp hp with hp | hp
    · exact (h.inPage p hp).congr hsame
    · rw [List.mem_singleton.mp hp]
      unfold KqueuePage.InPage
      unfold MAX_COUNT at hlen
      have : SIZEOF_KQUEUE_PAGE ≤ PAGE_SIZE := by decide
      dsimp only
      omega

theorem PagesInv.extend {tmp : KqueuePage} (h : PagesInv lo hi live z (older ++ [tmp]))
    (hfits : tmp.base + tmp.count + len ≤ pageToAddr z tmp.page + PAGE_SIZE) :
    PagesInv lo hi live z (older ++ [{ tmp with count := tmp.count + len }]) := by
  refine ⟨h.total, ?_, ?_⟩
  · have hbuddy := h.buddy
    rw [List.map_append] at hbuddy ⊢
    exact hbuddy
  · intro p hp
    rcases List.mem_append.mp hp with hp | hp
    · exact h.inPage p (List.mem_append_left _ hp)
    · have htmp := h.inPage tmp (by simp)
      rw [List.mem_singleton.mp hp]
      unfold KqueuePage.InPage at *
      dsimp only
      omega

structure PushPost (lo hi : Nat) (live : List Block) (h : KqueueHeap) (data len : Nat)
    (h' : KqueueHeap) : Prop where
  pages : PagesInv lo hi live h'.zone h'.pages
  contents : h'.contents = h.contents ++ readBytes h.mem data len
  count : h'.count = h.count + len

theorem pushLoop_round {pushed fuel : Nat} (hinv : PagesInv lo hi live h.zone h.pages)
    (hpush : pushLoop (fuel + 1) h data len pushed = (h', .ok)) :
    ∃ h₁, PushPost lo hi live h data (min len MAX_COUNT) h₁ ∧ h.zone.SamePages h₁.zone ∧
      (∀ x, (∀ pg, lo ≤ pg → pg < hi → ApartFrom h.zone ⟨0, pg⟩ x 1) → h₁.mem x = h.mem x) ∧
      (len - min len MAX_COUNT ≠ 0 →
        pushLoop fuel h₁ data (len - min len MAX_COUNT) (pushed + min len MAX_COUNT) =
          (h', .ok)) ∧
      (len - min len MAX_COUNT = 0 → h₁ = h') := by
  unfold pushLoop at hpush
  cases hpg : (rawAllocPages h.zone 0).2 with
  | none => simp [hpg] at hpush
  | some pg =>
    have hlen : min len MAX_COUNT ≤ MAX_COUNT := Nat.min_le_right _ _
    have hadd := hinv.add hpg hlen
    have hsame := rawAllocPages_samePages h.zone 0
    have hbounds := (rawAllocPages_buddy hinv.buddy hpg).start_bounds List.mem_cons_self
    revert hadd hsame hpush
    simp only [hpg]
    generalize (rawAllocPages h.zone 0).1 = z
    generalize min len MAX_COUNT = t at *
    intro hpush hadd hsame
    have hne : ∀ p ∈ h.pages, p.page ≠ pg := hadd.older_ne
    have hroom : pageToAddr z pg + SIZEOF_KQUEUE_PAGE + 0 + t ≤
        pageToAddr z pg + PAGE_SIZE := by
      have : SIZEOF_KQUEUE_PAGE ≤ PAGE_SIZE := by decide
      unfold MAX_COUNT at hlen
      omega
    have hcopy := pagesBytes_push h.mem (pageToAddr z pg + SIZEOF_KQUEUE_PAGE) 0 data
      (fun p hp => (hinv.inPage p hp).congr hsame) hne (by omega) hroom
    split at hpush
    · have hout := (Prod.mk.inj hpush).2
      split at hout
      · exact PushOutcome.noConfusion hout
      · exact PushOutcome.noConfusion hout
    · refine ⟨⟨z, memoryCopy h.mem (pageToAddr z pg + SIZEOF_KQUEUE_PAGE) data t,
        h.pages ++ [⟨pg, pageToAddr z pg + SIZEOF_KQUEUE_PAGE, t⟩], h.count + t⟩,
        ⟨hadd, ?_, rfl⟩, hsame, ?_, ?_, ?_⟩
      · simpa [KqueueHeap.contents] using hcopy
      · intro x hx
        have := apartFrom_page.mp (hx pg hbounds.1 hbounds.2)
        rw [memoryCopy_eq, pageToAddr_congr hsame]
        exact moveBytes_of_outside (by omega)
      · intro hmore
        rw [if_pos hmore] at hpush
        exact hpush
      · intro hdone
        rw [if_neg (not_not.mpr hdone)] at hpush
        exact (Prod.mk.inj hpush).1

theorem pushLoop_spec {fuel : Nat} (hinv : PagesInv lo hi live h.zone h.pages)
    (hlen : len ≤ MAX_COUNT) (hpush : pushLoop (fuel + 1) h data len 0 = (h', .ok)) :
    PushPost lo hi live h data len h' := by
  rcases pushLoop_round hinv hpush with ⟨h₁, hpost, -, -, -, hdone⟩
  rw [Nat.min_eq_left hlen] at hpost hdone
  rw [← hdone (Nat.sub_self len)]
  exact hpost

theorem kqueuePush_spec (hinv : PagesInv lo hi live h.zone h.pages) (hfits : PushFits h len)
    (hpush : kqueuePush h data len = (h', .ok)) : PushPost lo hi live h data len h' := by
  unfold kqueuePush at hpush
  unfold PushFits at hfits
  cases hlast : h.pages.getLast? with
  | none =>
    rw [hlast] at hpush hfits
    exact pushLoop_spec hinv hfits hpush
  | some tmp =>
    simp only [hlast] at hpush hfits
    by_cases hroom : tmp.count < MAX_COUNT
    · rw [if_pos hroom] at hpush hfits
      have hpages : h.pages = h.pages.dropLast ++ [tmp] :=
        (List.dropLast_append_getLast? tmp hlast).symm
      generalize h.pages.dropLast = older at hpages hpush
      rw [hpages] at hinv
      have htmp := hinv.inPage tmp (by simp)
      unfold KqueuePage.InPage at htmp
      have hsmall : len ≤ MAX_COUNT - tmp.count := by
        unfold MAX_COUNT
        omega
      rw [if_pos hsmall] at hpush
      cases hpush
      refine ⟨hinv.extend hfits, ?_, rfl⟩
      have hcopy := pagesBytes_push h.mem tmp.base tmp.count data
        (fun p hp => hinv.inPage p (List.mem_append_left _ hp)) hinv.older_ne (by omega) hfits
      show pagesBytes _ _ = pagesBytes h.mem h.pages ++ _
      rw [hpages]
      exact hcopy
    · rw [if_neg hroom] at hpush hfits
      exact pushLoop_spec hinv hfits hpush

end Push

/-! ## Runs -/

/-- The pages are in order, `q->count` is the number of bytes in the queue, and
what has been pulled and what is in the queue is what has been pushed. -/
structure KqueueInv (lo hi : Nat) (s : KqueueSys) : Prop where
  pages : PagesInv lo hi s.live s.heap.zone s.heap.pages
  count : s.heap.count = s.heap.contents.length
  log : s.pulled ++ s.heap.contents = s.pushed

section Run

variable {lo hi : Nat} {s : KqueueSys}

theorem KqueueInv.pull_spec (hlo : 0 < lo) (h : KqueueInv lo hi s) {buf len : Nat}
    (hbuf : s.heap.BufOk buf (min len s.heap.count)) :
    ∃ h' ret, kqueuePullTail s.heap buf len = some (h', ret) ∧
      PagesInv lo hi s.live h'.zone h'.pages ∧ PullPost s.heap s.heap.contents buf len h' := by
  have hbuf' : min len (pagesBytes s.heap.mem s.heap.pages).length = 0 ∨
      ∀ p ∈ s.heap.pages, ApartFrom s.heap.zone ⟨0, p.page⟩ (buf + 0)
        (min len (pagesBytes s.heap.mem s.heap.pages).length) := by
    rw [h.count] at hbuf
    rcases hbuf with hzero | hbuf
    · exact Or.inl hzero
    · right
      intro p hp
      exact hbuf ⟨0, p.page⟩ (List.mem_map.mpr ⟨p, hp, rfl⟩)
  rcases pullLoop_spec hlo buf s.heap.pages s.heap len 0 h.pages hbuf' with
    ⟨h', ret, hloop, -, hpages, hpost⟩
  exact ⟨h', ret, hloop, hpages, hpost⟩

theorem KqueueInv.withZone {z : Zone} {live : List Block} (h : KqueueInv lo hi s)
    (hsame : s.heap.zone.SamePages z) (hbuddy : BuddyInv z lo hi (s.heap.piles ++ live)) :
    KqueueInv lo hi (s.withZone z live) where
  pages := ⟨hsame.2.trans h.pages.total, hbuddy, fun p hp => (h.pages.inPage p hp).congr hsame⟩
  count := h.count
  log := h.log

theorem KqueueInv.call (hlo : 0 < lo) {s' : KqueueSys} {c : KqueueCall} (h : KqueueInv lo hi s)
    (hfits : s.Fits c) (hcall : s.call c = some s') : KqueueInv lo hi s' := by
  cases c with
  | push data len =>
    rcases call_push hcall with ⟨h', hpush, rfl⟩
    have hpost := kqueuePush_spec h.pages hfits hpush
    refine ⟨hpost.pages, ?_, ?_⟩
    · rw [hpost.count, hpost.contents, h.count]
      simp
    · rw [hpost.contents, ← List.append_assoc, h.log]
  | pull buf len =>
    rcases call_pull hcall with ⟨hbuf, h', r, hpull, rfl⟩
    rcases h.pull_spec hlo hbuf with ⟨h₁, r₁, hpull₁, hpages, hpost⟩
    rcases Prod.mk.inj (Option.some.inj (hpull₁.symm.trans hpull)) with ⟨rfl, -⟩
    have hcount : s.heap.count - h₁.count = min len s.heap.contents.length := by
      rw [hpost.count, h.count]
      omega
    refine ⟨hpages, ?_, ?_⟩
    · rw [hpost.count, hpost.rest, h.count, List.length_drop]
      omega
    · rw [hcount, hpost.stored, hpost.rest, List.append_assoc, List.take_append_drop]
      exact h.log
  | pageAlloc order =>
    rcases call_pageAlloc hcall h.pages.buddy with ⟨z, live, rfl, hsame, hbuddy⟩
    exact h.withZone hsame hbuddy
  | pageFree pg =>
    rcases call_pageFree hcall h.pages.buddy with ⟨z, live, rfl, hsame, hbuddy⟩
    exact h.withZone hsame hbuddy
  | store addr v =>
    rcases call_store hcall with ⟨hout, rfl⟩
    have hsame := pagesBytes_update s.heap.mem v h.pages.inPage hout
    refine ⟨h.pages, ?_, ?_⟩
    · show s.heap.count = (pagesBytes _ _).length
      rw [hsame]
      exact h.count
    · show s.pulled ++ pagesBytes _ _ = _
      rw [hsame]
      exact h.log

end Run

end Koowaldah
