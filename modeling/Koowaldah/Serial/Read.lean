import Koowaldah.Serial.Basic

/-!
# A serial read fills exactly the request

In a run whose events are orderly, every read goes right (`serialRun_readsRight`).

`CallInv` is what holds between two statements while a call is under way: so many bytes are in
the buffer, and together with those in the queue they are what has arrived since the call was
made.  `SerialInv` says it for every statement; inside a round of `kqueue_pull_tail` it is about
the end of the round.

Runs that are not orderly go wrong (`serialRead_overruns`).
-/

namespace Koowaldah

open SysLib SysLib.Dyadic

/-! ## The invariant -/

/-- `got` bytes of the call are in the buffer.  `pending` is the page that the thread has taken
off the queue and not given back yet. -/
structure CallInv (lo hi : Nat) (s : SerialState) (pending : List Block) (got : Nat) : Prop where
  pages : PagesInv lo hi (pending ++ s.live) s.heap.zone s.heap.pages
  count : s.heap.count = s.heap.contents.length
  stored : readBytes s.heap.mem s.buf got ++ s.heap.contents = s.arrived.drop s.before
  before : s.before ≤ s.arrived.length
  room : got ≤ s.size
  buf : s.heap.BufOk s.buf s.size
  size : s.size < WORD_RANGE

structure IdleInv (lo hi : Nat) (s : SerialState) : Prop where
  pages : PagesInv lo hi s.live s.heap.zone s.heap.pages
  count : s.heap.count = s.heap.contents.length
  left : s.heap.contents <:+ s.arrived

/-- A pull is under way, between two rounds. -/
structure PullInv (lo hi : Nat) (s : SerialState) (v : PullVars) (pending : List Block) :
    Prop where
  read : CallInv lo hi s pending (s.numRead + v.pulled)
  data : v.data = s.buf + s.numRead
  len : v.len + v.pulled = s.size
  fits : s.numRead + v.pulled + s.heap.count ≤ s.size ∨
    s.numRead = 0 ∧ v.pulled = 0 ∧
      ∀ p ∈ s.heap.pages.find? (fun p => 0 < p.count), v.len < p.count
  more : s.numRead < s.size

/-- The thread has found nothing in the queue. -/
structure WaitInv (lo hi : Nat) (s : SerialState) : Prop where
  read : CallInv lo hi s [] s.numRead
  empty : s.heap.count = 0
  more : s.numRead < s.size

/-- The invariant at the end of a round of `kqueue_pull_tail`. -/
def SettledInv (lo hi : Nat) (s : SerialState) (v : PullVars) : Prop :=
  match v.pc with
  | .head => PullInv lo hi s v []
  | .wholePut pg => PullInv lo hi s v [⟨0, pg⟩]
  | .ret t =>
    CallInv lo hi s [] (s.numRead + t) ∧ (t = 0 → s.heap.count = 0) ∧ s.numRead < s.size
  | _ => False

/-- What the next statement copies goes to the buffer. -/
def SerialState.CopyInBuf (s : SerialState) : Prop :=
  ∀ c, s.copy = some c → s.buf ≤ c.dst ∧ c.dst + c.n ≤ s.buf + s.size

def SerialInv (lo hi : Nat) (s : SerialState) : Prop :=
  match s.pc with
  | .idle => IdleInv lo hi s
  | .test | .yield false => CallInv lo hi s [] s.numRead
  | .pulling v =>
    (∃ h' v', settle s.heap v = some (h', v') ∧ SettledInv lo hi { s with heap := h' } v') ∧
      s.CopyInBuf
  | .dequeue | .yield true | .asleep => WaitInv lo hi s
  | .finished value => value = s.size ∧ CallInv lo hi s [] s.size

section Rounds

variable {lo hi got n : Nat} {s : SerialState} {pending pending' : List Block} {h' : KqueueHeap}

theorem KqueueHeap.contents_length (h : KqueueHeap) :
    h.contents.length = (h.pages.map KqueuePage.count).sum := by
  unfold KqueueHeap.contents pagesBytes
  simp

theorem CallInv.apart (h : CallInv lo hi s pending got) (hroom : got + n ≤ s.size) :
    n = 0 ∨ ∀ p ∈ s.heap.pages, ApartFrom s.heap.zone ⟨0, p.page⟩ (s.buf + got) n := by
  rcases h.buf with hzero | hapart
  · left
    omega
  · right
    intro p hp
    exact (hapart ⟨0, p.page⟩ (List.mem_map.mpr ⟨p, hp, rfl⟩)).mono (by omega) (by omega)

theorem CallInv.goto (h : CallInv lo hi s pending got) (m : Nat) (pc : ReadPc) :
    CallInv lo hi { s with numRead := m, pc := pc } pending got :=
  ⟨h.pages, h.count, h.stored, h.before, h.room, h.buf, h.size⟩

theorem KqueueHeap.BufOk.of_subset {h : KqueueHeap} {a m : Nat} (hbuf : h.BufOk a m)
    (hsub : ∀ b ∈ h'.piles, b ∈ h.piles) (hsame : h.zone.SamePages h'.zone) : h'.BufOk a m :=
  hbuf.imp id (fun hapart b hb => (hapart b (hsub b hb)).congr hsame)

theorem CallInv.take (h : CallInv lo hi s pending got) (hn : n ≤ s.heap.count)
    (hpost : PullPost s.heap s.heap.contents (s.buf + got) n h')
    (hpages : PagesInv lo hi (pending' ++ s.live) h'.zone h'.pages) (hroom : got + n ≤ s.size)
    (hbuf : h'.BufOk s.buf s.size) : CallInv lo hi { s with heap := h' } pending' (got + n) := by
  have hmin : min n s.heap.contents.length = n := by
    have := h.count
    omega
  have hstored := hpost.stored
  have hcount := hpost.count
  rw [hmin] at hstored hcount
  refine ⟨hpages, ?_, ?_, h.before, hroom, hbuf, h.size⟩
  · rw [hcount, hpost.rest, List.length_drop, h.count]
  · have hkept : readBytes h'.mem s.buf got = readBytes s.heap.mem s.buf got := by
      apply readBytes_congr
      intro x _ hx
      exact hpost.frame x (Or.inl hx)
    rw [readBytes_add, hkept, hstored, hpost.rest, List.append_assoc, List.take_append_drop]
    exact h.stored

theorem pull_whole {live : List Block} {h : KqueueHeap} {tmp : KqueuePage}
    {rest : List KqueuePage} {dst : Nat} (hinv : PagesInv lo hi live h.zone (tmp :: rest))
    (hapart : tmp.count = 0 ∨ ∀ p ∈ tmp :: rest, ApartFrom h.zone ⟨0, p.page⟩ dst tmp.count) :
    PullPost h (pagesBytes h.mem (tmp :: rest)) dst tmp.count (h.unlinkPage tmp rest dst) := by
  have hpart := pull_part hinv (Nat.le_refl tmp.count) hapart
  refine ⟨hpart.stored, hpart.frame, ?_, hpart.count⟩
  have hrest := hpart.rest
  simp only [KqueueHeap.contents, pagesBytes_cons, Nat.sub_self, readBytes_zero,
    List.nil_append] at hrest
  exact hrest

theorem PagesInv.unlink {live : List Block} {z : Zone} {tmp : KqueuePage}
    {rest : List KqueuePage} (h : PagesInv lo hi live z (tmp :: rest)) :
    PagesInv lo hi ([⟨0, tmp.page⟩] ++ live) z rest where
  total := h.total
  buddy := h.buddy.perm List.perm_middle.symm
  inPage p hp := h.inPage p (List.mem_cons_of_mem tmp hp)

variable {v v' : PullVars} {tmp : KqueuePage} {rest : List KqueuePage}

theorem CallInv.le_count (h : CallInv lo hi s pending got) (hpages : s.heap.pages = tmp :: rest) :
    tmp.count ≤ s.heap.count := by
  rw [h.count, KqueueHeap.contents_length, hpages]
  exact Nat.le_add_right _ _

theorem find_nonempty (hpages : s.heap.pages = tmp :: rest) (hpos : 0 < tmp.count) :
    tmp ∈ s.heap.pages.find? (fun p => 0 < p.count) := by
  rw [hpages]
  exact List.find?_cons_of_pos (decide_eq_true hpos)

theorem PullInv.part (h : PullInv lo hi s v []) (hpages : s.heap.pages = tmp :: rest)
    (hlt : v.len < tmp.count) :
    SerialInv lo hi { s with pc := .pulling { v with pc := .partCopy } } := by
  have hle := h.read.le_count hpages
  have hlen := h.len
  obtain ⟨hnum, hpulled, -⟩ : s.numRead = 0 ∧ v.pulled = 0 ∧ _ := by
    rcases h.fits with hfew | hfirst
    · omega
    · exact hfirst
  have hsize : v.len = s.size := by omega
  have hdst : v.data + v.pulled = s.buf + (s.numRead + v.pulled) := by
    rw [h.data]
    omega
  have hroom : s.numRead + v.pulled + v.len ≤ s.size := by omega
  refine ⟨⟨_, _, settle_part hpages, ?_⟩, ?_⟩
  · have hinv := h.read.pages
    have hapart := h.read.apart hroom
    rw [hpages] at hinv hapart
    have hpost : PullPost s.heap s.heap.contents (s.buf + (s.numRead + v.pulled)) v.len
        (s.heap.takePart tmp rest (v.data + v.pulled) v.len) := by
      rw [hdst, KqueueHeap.contents, hpages]
      exact pull_part hinv (Nat.le_of_lt hlt) hapart
    have hbuf : (s.heap.takePart tmp rest (v.data + v.pulled) v.len).BufOk s.buf s.size := by
      refine KqueueHeap.BufOk.of_subset h.read.buf ?_ ⟨rfl, rfl⟩
      simp [KqueueHeap.piles, KqueueHeap.takePart, hpages]
    have hread := h.read.take (Nat.le_trans (Nat.le_of_lt hlt) hle) hpost (hinv.shorten hlt) hroom
      hbuf
    have hgot : s.numRead + v.len = s.numRead + v.pulled + v.len := by omega
    have hmore := h.more
    refine ⟨?_, fun hzero => absurd hzero (by omega), hmore⟩
    rw [hgot]
    exact hread.goto s.numRead (.pulling { v with pc := .partCopy })
  · intro c hc
    simp only [SerialState.copy, pullCopy, hpages] at hc
    cases hc
    show s.buf ≤ v.data + v.pulled ∧ v.data + v.pulled + v.len ≤ s.buf + s.size
    omega

theorem PullInv.whole (h : PullInv lo hi s v []) (hpages : s.heap.pages = tmp :: rest)
    (hge : ¬v.len < tmp.count) :
    SerialInv lo hi { s with pc := .pulling { v with pc := .wholeCopy } } := by
  have hle := h.read.le_count hpages
  have hlen := h.len
  have hnum := h.more
  have hdst : v.data + v.pulled = s.buf + (s.numRead + v.pulled) := by
    rw [h.data]
    omega
  have hfits : s.numRead + v.pulled + s.heap.count ≤ s.size ∨
      s.numRead = 0 ∧ v.pulled = 0 ∧ tmp.count = 0 ∧
        ∀ p ∈ rest.find? (fun p => 0 < p.count), v.len < p.count := by
    rcases h.fits with hfew | ⟨hzero, hpulled, hfirst⟩
    · exact Or.inl hfew
    · have hempty : tmp.count = 0 := by
        by_contra hne
        exact hge (hfirst tmp (find_nonempty hpages (Nat.pos_of_ne_zero hne)))
      rw [hpages, List.find?_cons_of_neg (by simp [hempty])] at hfirst
      exact Or.inr ⟨hzero, hpulled, hempty, hfirst⟩
  have hroom : s.numRead + v.pulled + tmp.count ≤ s.size := by
    rcases hfits with hfew | ⟨_, _, hempty, -⟩ <;> omega
  have hsub : subWord v.len tmp.count = v.len - tmp.count :=
    subWord_of_le (Nat.le_of_not_lt hge) (by have := h.read.size; omega)
  refine ⟨⟨_, _, settle_whole hpages, ?_⟩, ?_⟩
  · have hinv := h.read.pages
    have hapart := h.read.apart hroom
    rw [hpages] at hinv hapart
    have hpost : PullPost s.heap s.heap.contents (s.buf + (s.numRead + v.pulled)) tmp.count
        (s.heap.unlinkPage tmp rest (v.data + v.pulled)) := by
      rw [hdst, KqueueHeap.contents, hpages]
      exact pull_whole hinv hapart
    have hbuf : (s.heap.unlinkPage tmp rest (v.data + v.pulled)).BufOk s.buf s.size := by
      refine KqueueHeap.BufOk.of_subset h.read.buf ?_ ⟨rfl, rfl⟩
      intro b hb
      simp only [KqueueHeap.piles, hpages]
      exact List.mem_cons_of_mem _ hb
    have hread := h.read.take hle hpost hinv.unlink hroom hbuf
    refine ⟨?_, h.data, ?_, ?_, hnum⟩
    · rw [← Nat.add_assoc]
      exact hread.goto s.numRead (.pulling { v with pc := .wholeCopy })
    · show subWord v.len tmp.count + (v.pulled + tmp.count) = s.size
      omega
    · show s.numRead + (v.pulled + tmp.count) + (s.heap.count - tmp.count) ≤ s.size ∨
        s.numRead = 0 ∧ v.pulled + tmp.count = 0 ∧
          ∀ p ∈ rest.find? (fun p => 0 < p.count), subWord v.len tmp.count < p.count
      rw [hsub]
      rcases hfits with hfew | ⟨hzero, hpulled, hempty, hfirst⟩
      · left
        omega
      · right
        rw [hempty]
        exact ⟨hzero, hpulled, hfirst⟩
  · intro c hc
    simp only [SerialState.copy, pullCopy, hpages] at hc
    cases hc
    show s.buf ≤ v.data + v.pulled ∧ v.data + v.pulled + tmp.count ≤ s.buf + s.size
    omega

theorem PullInv.put (hlo : 0 < lo) {pg : Nat} (h : PullInv lo hi s v [⟨0, pg⟩]) :
    putPages s.heap.zone (pageToAddr s.heap.zone pg) = some (freePages s.heap.zone pg) ∧
      PullInv lo hi { s with heap := { s.heap with zone := freePages s.heap.zone pg } } v [] := by
  have hsame := freePages_samePages s.heap.zone pg
  have hbuddy := h.read.pages.buddy.perm List.perm_middle
  constructor
  · exact putPages_held hlo h.read.pages.total hbuddy List.mem_cons_self
  · refine ⟨⟨⟨hsame.2.trans h.read.pages.total, freePages_buddy hbuddy, ?_⟩, h.read.count,
      h.read.stored, h.read.before, h.read.room, ?_, h.read.size⟩, h.data, h.len, h.fits, h.more⟩
    · intro p hp
      exact (h.read.pages.inPage p hp).congr hsame
    · exact KqueueHeap.BufOk.of_subset h.read.buf (fun _ hb => hb) hsame

end Rounds

/-! ## The thread -/

section Thread

variable {lo hi : Nat} {s s' : SerialState} {v v' : PullVars} {h' : KqueueHeap}

theorem pullCopy_step {h : KqueueHeap} (hmid : v.pc.left ≠ 0)
    (hstep : pullStep h v = some (h', v')) : pullCopy h' v' = none := by
  obtain ⟨zone, mem, pages, count⟩ := h
  obtain ⟨data, len, pulled, pc⟩ := v
  cases pc with
  | head | wholePut | ret => exact absurd rfl hmid
  | partCopy | partCount | partBase | partSize | wholeCopy | wholeSize | wholePulled
  | wholeLen | wholeUnlink => cases pages <;> cases hstep <;> rfl

theorem PullInv.goto {pending : List Block} (h : PullInv lo hi s v pending) (pc : ReadPc) :
    PullInv lo hi { s with pc := pc } v pending :=
  ⟨h.read.goto s.numRead pc, h.data, h.len, h.fits, h.more⟩

theorem SettledInv.goto (h : SettledInv lo hi s v) (pc : ReadPc) :
    SettledInv lo hi { s with pc := pc } v := by
  unfold SettledInv at *
  split at h
  · exact PullInv.goto h pc
  · exact PullInv.goto h pc
  · exact ⟨h.1.goto s.numRead pc, h.2⟩
  · exact h

theorem PullInv.head (h : PullInv lo hi s v []) (hpc : v.pc = .head)
    (hstep : pullStep s.heap v = some (h', v')) :
    SerialInv lo hi { s with heap := h', pc := .pulling v' } := by
  unfold pullStep at hstep
  cases hpages : s.heap.pages with
  | nil =>
    rw [hpc, hpages] at hstep
    cases hstep
    have hempty : s.heap.count = 0 := by
      rw [h.read.count, KqueueHeap.contents, hpages]
      rfl
    refine ⟨⟨_, _, rfl, h.read.goto s.numRead _, fun _ => hempty, h.more⟩, ?_⟩
    rintro _ ⟨⟩
  | cons tmp rest =>
    rw [hpc, hpages] at hstep
    cases hstep
    by_cases hlt : v.len < tmp.count
    · rw [if_pos hlt]
      exact h.part hpages hlt
    · rw [if_neg hlt]
      exact h.whole hpages hlt

theorem SerialInv.test (h : SerialInv lo hi s) (hpc : s.pc = .test) :
    CallInv lo hi s [] s.numRead := by
  unfold SerialInv at h
  rw [hpc] at h
  exact h

theorem SerialInv.pulling (h : SerialInv lo hi s) (hpc : s.pc = .pulling v) :
    (∃ h' v', settle s.heap v = some (h', v') ∧ SettledInv lo hi { s with heap := h' } v') ∧
      s.CopyInBuf := by
  obtain ⟨heap, live, arrived, before, buf, size, numRead, pc⟩ := s
  obtain rfl : pc = .pulling v := hpc
  exact h

theorem SerialInv.settled (h : SerialInv lo hi s) (hpc : s.pc = .pulling v)
    (hrest : v.pc.left = 0) : SettledInv lo hi s v := by
  obtain ⟨⟨h₁, v₁, hsettle, hset⟩, -⟩ := h.pulling hpc
  rw [settle_of_left s.heap hrest] at hsettle
  cases hsettle
  exact hset

theorem SerialInv.pull (hlo : 0 < lo) (h : SerialInv lo hi s) (hpc : s.pc = .pulling v)
    (hstep : pullStep s.heap v = some (h', v')) :
    SerialInv lo hi { s with heap := h', pc := .pulling v' } := by
  by_cases hmid : v.pc.left = 0
  · have hset := h.settled hpc hmid
    unfold SettledInv at hset
    cases hv : v.pc with
    | head =>
      rw [hv] at hset
      exact PullInv.head hset hv hstep
    | wholePut pg =>
      rw [hv] at hset
      obtain ⟨hput, hnext⟩ := PullInv.put hlo hset
      have hput' : pullStep s.heap v = some ({ s.heap with zone := freePages s.heap.zone pg },
          { v with pc := .head }) := by
        unfold pullStep
        rw [hv]
        exact congrArg (Option.map _) hput
      cases hput'.symm.trans hstep
      refine ⟨⟨_, _, rfl, ?_⟩, nofun⟩
      exact ⟨hnext.read.goto s.numRead _, hnext.data, hnext.len, hnext.fits, hnext.more⟩
    | ret t =>
      unfold pullStep at hstep
      rw [hv] at hstep
      cases hstep
    | partCopy | partCount | partBase | partSize | wholeCopy | wholeSize | wholePulled
    | wholeLen | wholeUnlink =>
      rw [hv] at hmid
      cases hmid
  · obtain ⟨⟨h₁, v₁, hsettle, hset⟩, -⟩ := h.pulling hpc
    rw [settle_step hmid hstep] at hsettle
    refine ⟨⟨h₁, v₁, hsettle, hset.goto _⟩, ?_⟩
    intro c hc
    have hnone : pullCopy h' v' = some c := hc
    rw [pullCopy_step hmid hstep] at hnone
    cases hnone

theorem SerialInv.loop (h : SerialInv lo hi s) (hpc : s.pc = .test)
    (hfits : s.numRead < s.size → s.PullFits) (hstep : s.serial8250Read = some s') :
    SerialInv lo hi s' := by
  have hread := h.test hpc
  unfold SerialState.serial8250Read at hstep
  rw [hpc] at hstep
  dsimp only at hstep
  split at hstep
  · rename_i hlt
    cases hstep
    refine ⟨⟨_, _, rfl, hread.goto s.numRead _, rfl, rfl, ?_, hlt⟩, nofun⟩
    rcases hfits hlt with hfew | ⟨hzero, hfirst⟩
    · exact Or.inl hfew
    · exact Or.inr ⟨hzero, rfl, hfirst⟩
  · rename_i hge
    have hall : s.numRead = s.size := Nat.le_antisymm hread.room (Nat.le_of_not_lt hge)
    cases hstep
    exact ⟨hall, hall ▸ hread.goto s.numRead _⟩

theorem SerialInv.pulled {t : Nat} (h : SerialInv lo hi s) (hpc : s.pc = .pulling v)
    (hret : v.pc = .ret t) :
    SerialInv lo hi
      { s with numRead := s.numRead + t, pc := if t = 0 then .dequeue else .test } := by
  have hset := h.settled hpc (by rw [hret]; rfl)
  unfold SettledInv at hset
  rw [hret] at hset
  obtain ⟨hread, hempty, hmore⟩ := hset
  by_cases hzero : t = 0
  · subst hzero
    exact ⟨hread.goto _ _, hempty rfl, hmore⟩
  · rw [if_neg hzero]
    exact hread.goto _ _

theorem SerialInv.thread (hlo : 0 < lo) (h : SerialInv lo hi s)
    (hfits : s.pc = .test → s.numRead < s.size → s.PullFits) (hstep : s.serial8250Read = some s') :
    SerialInv lo hi s' := by
  obtain ⟨heap, live, arrived, before, buf, size, numRead, pc⟩ := s
  cases pc with
  | test => exact h.loop rfl (hfits rfl) hstep
  | idle | asleep => cases hstep
  | pulling v =>
    unfold SerialState.serial8250Read at hstep
    dsimp only at hstep
    split at hstep
    · rename_i t hret
      cases hstep
      exact h.pulled rfl hret
    · obtain ⟨⟨h', v'⟩, hpull, rfl⟩ := Option.map_eq_some_iff.mp hstep
      exact h.pull hlo rfl hpull
  | dequeue =>
    cases hstep
    exact ⟨(WaitInv.read h).goto _ _, h.empty, h.more⟩
  | yield queued =>
    cases queued with
    | true =>
      cases hstep
      exact ⟨(WaitInv.read h).goto _ _, h.empty, h.more⟩
    | false =>
      cases hstep
      exact CallInv.goto h _ _
  | finished value =>
    cases hstep
    exact ⟨h.2.pages, h.2.count, List.IsSuffix.trans ⟨_, h.2.stored⟩ (List.drop_suffix _ _)⟩

end Thread

/-! ## A byte that arrives -/

section Received

variable {lo hi : Nat} {s s' : SerialState} {c : UInt8} {addr : Nat} {h' : KqueueHeap}

/-- What a push of one byte has done to the queue. -/
structure Arrived (lo hi : Nat) (s : SerialState) (c : UInt8) (addr : Nat) (h' : KqueueHeap) :
    Prop where
  pages : PagesInv lo hi s.live h'.zone h'.pages
  contents : h'.contents = s.heap.contents ++ [c]
  count : h'.count = s.heap.count + 1
  frame : ∀ x, x ≠ addr → (∀ b ∈ h'.piles, ApartFrom h'.zone b x 1) → h'.mem x = s.heap.mem x

theorem arrived_of_push (hpages : PagesInv lo hi s.live s.heap.zone s.heap.pages)
    (haddr : ∀ b ∈ s.heap.piles, ApartFrom s.heap.zone b addr 1) (hfits : PushFits s.heap 1)
    (hpush : kqueuePush { s.heap with mem := Function.update s.heap.mem addr c } addr 1 =
      (h', .ok)) : Arrived lo hi s c addr h' := by
  have hpost := kqueuePush_spec (h := { s.heap with mem := Function.update s.heap.mem addr c })
    hpages hfits hpush
  have hkept : pagesBytes (Function.update s.heap.mem addr c) s.heap.pages = s.heap.contents :=
    pagesBytes_update s.heap.mem c hpages.inPage haddr
  have hinPage : PushInPage { s.heap with mem := Function.update s.heap.mem addr c } 1 := by
    intro tmp hlast hroom
    have hlast' : s.heap.pages.getLast? = some tmp := hlast
    unfold PushFits at hfits
    simp only [hlast', if_pos hroom] at hfits
    rw [Nat.min_eq_left (by omega)]
    exact hfits
  refine ⟨hpost.pages, ?_, hpost.count, ?_⟩
  · rw [hpost.contents]
    show pagesBytes _ _ ++ _ = _
    rw [hkept]
    simp [readBytes]
  · intro x hne hx
    have hwin : KqueueHeap.Windows { s.heap with mem := Function.update s.heap.mem addr c } :=
      hpages.inPage
    have hpushed : PushedInPages _ addr 1 := (pushedInPages_iff hwin).mpr hinPage
    have hframe := hpushed.frame (x := x)
    rw [hpush] at hframe
    exact (hframe hx).trans (Function.update_of_ne hne c s.heap.mem)

theorem CallInv.arrived {got : Nat} (h : CallInv lo hi s [] got) (harr : Arrived lo hi s c addr h')
    (hout : addr < s.buf ∨ s.buf + s.size ≤ addr) (hbuf : h'.BufOk s.buf s.size) :
    CallInv lo hi { s with heap := h', arrived := s.arrived ++ [c] } [] got := by
  refine ⟨harr.pages, ?_, ?_, ?_, h.room, hbuf, h.size⟩
  · rw [harr.count, harr.contents, List.length_append, h.count]
    rfl
  · have hkept : readBytes h'.mem s.buf got = readBytes s.heap.mem s.buf got := by
      have hroom := h.room
      apply readBytes_congr
      intro x hlo hhi
      refine harr.frame x (by omega) ?_
      rcases hbuf with hzero | hapart
      · omega
      · intro b hb
        exact (hapart b hb).mono (by omega) (by omega)
    rw [hkept, harr.contents, ← List.append_assoc, h.stored,
      List.drop_append_of_le_length h.before]
  · rw [List.length_append]
    exact Nat.le_trans h.before (Nat.le_add_right _ _)

theorem SerialInv.arrived (h : SerialInv lo hi s) (hquiet : s.pc.quiet) (hfree : s.AddrFree addr)
    (hbuf : s.BufFree h')
    (harr : PagesInv lo hi s.live s.heap.zone s.heap.pages → Arrived lo hi s c addr h') :
    SerialInv lo hi ({ s with heap := h', arrived := s.arrived ++ [c] }.wakeUp) := by
  have hread : ∀ {got}, s.pc ≠ .idle → CallInv lo hi s [] got →
      CallInv lo hi { s with heap := h', arrived := s.arrived ++ [c] } [] got := by
    intro got hpc hread
    exact hread.arrived (harr hread.pages) (hfree.2.resolve_left hpc) (hbuf.resolve_left hpc)
  obtain ⟨heap, live, arrived, before, buf, size, numRead, pc⟩ := s
  cases pc with
  | idle =>
    have hidle : IdleInv lo hi _ := h
    have hnew := harr hidle.pages
    refine ⟨hnew.pages, ?_, ?_⟩
    · show h'.count = h'.contents.length
      rw [hnew.count, hnew.contents, List.length_append, hidle.count]
      rfl
    · show h'.contents <:+ arrived ++ [c]
      rw [hnew.contents]
      exact (List.suffix_append_inj_of_length_eq rfl).mpr ⟨hidle.left, rfl⟩
  | test => exact hread nofun h
  | pulling v =>
    obtain ⟨⟨h₁, v₁, hsettle, hset⟩, -⟩ := h
    obtain ⟨data, len, pulled, pc⟩ := v
    cases pc with
    | ret t =>
      cases hsettle
      obtain ⟨hgot, -, hmore⟩ := hset
      refine ⟨⟨_, _, rfl, hread nofun hgot, fun hzero => ?_, hmore⟩, nofun⟩
      exact absurd hzero (of_decide_eq_true hquiet)
    | _ => exact nomatch hquiet
  | dequeue => exact nomatch hquiet
  | yield queued =>
    cases queued with
    | true => exact (hread nofun (WaitInv.read h)).goto _ _
    | false => exact hread nofun h
  | asleep => exact (hread nofun (WaitInv.read h)).goto _ _
  | finished value => exact ⟨h.1, hread nofun h.2⟩

theorem SerialInv.received (h : SerialInv lo hi s) (hquiet : s.pc.quiet) (hfits : PushFits s.heap 1)
    (hstep : s.serial8250Intr c addr = some s') : SerialInv lo hi s' := by
  unfold SerialState.serial8250Intr at hstep
  split at hstep
  · rename_i hfree
    split at hstep
    · rename_i h' hpush
      split at hstep
      · rename_i hbuf
        cases hstep
        exact h.arrived hquiet hfree hbuf
          (fun hpages => arrived_of_push hpages hfree.1 hfits hpush)
      · cases hstep
    · cases hstep
  · cases hstep

end Received

/-! ## What else may happen -/

section Others

variable {lo hi : Nat} {s s' : SerialState}

/-- The zone and the piles of others have changed. -/
structure ZoneMoves (lo hi : Nat) (s : SerialState) (z : Zone) (live : List Block) : Prop where
  same : s.heap.zone.SamePages z
  buddy : ∀ held, BuddyInv s.heap.zone lo hi (held ++ s.live) → BuddyInv z lo hi (held ++ live)

variable {z : Zone} {live : List Block}

theorem PagesInv.moveZone {ps : List KqueuePage} (pending : List Block)
    (h : PagesInv lo hi (pending ++ s.live) s.heap.zone ps) (hz : ZoneMoves lo hi s z live) :
    PagesInv lo hi (pending ++ live) z ps where
  total := hz.same.2.trans h.total
  buddy := by
    have hbuddy := h.buddy
    rw [← List.append_assoc] at hbuddy ⊢
    exact hz.buddy _ hbuddy
  inPage p hp := (h.inPage p hp).congr hz.same

theorem CallInv.moveZone {pending : List Block} {got : Nat} (h : CallInv lo hi s pending got)
    (hz : ZoneMoves lo hi s z live) :
    CallInv lo hi { s with heap := { s.heap with zone := z }, live := live } pending got :=
  ⟨h.pages.moveZone pending hz, h.count, h.stored, h.before, h.room,
    KqueueHeap.BufOk.of_subset h.buf (fun _ hb => hb) hz.same, h.size⟩

theorem SettledInv.moveZone {v : PullVars} (h : SettledInv lo hi s v)
    (hz : ZoneMoves lo hi s z live) :
    SettledInv lo hi { s with heap := { s.heap with zone := z }, live := live } v := by
  unfold SettledInv at *
  split at h
  · exact ⟨h.read.moveZone hz, h.data, h.len, h.fits, h.more⟩
  · exact ⟨h.read.moveZone hz, h.data, h.len, h.fits, h.more⟩
  · exact ⟨h.1.moveZone hz, h.2⟩
  · exact h

theorem settle_zone {h h' : KqueueHeap} {v v' : PullVars} (hsettle : settle h v = some (h', v')) :
    h'.zone = h.zone := by
  have hself := settle_withZone h v h.zone
  rw [hsettle] at hself
  have hzone : h' = { h' with zone := h.zone } := (Prod.mk.inj (Option.some.inj hself)).1
  rw [hzone]

theorem SerialInv.moveZone (h : SerialInv lo hi s) (hz : ZoneMoves lo hi s z live) :
    SerialInv lo hi { s with heap := { s.heap with zone := z }, live := live } := by
  unfold SerialInv at *
  dsimp only
  split at h
  · exact ⟨h.pages.moveZone [] hz, h.count, h.left⟩
  · exact CallInv.moveZone h hz
  · exact CallInv.moveZone h hz
  · obtain ⟨⟨h', v', hsettle, hset⟩, hcopy⟩ := h
    have hz' : ZoneMoves lo hi { s with heap := h' } z live := by
      have hzone := settle_zone hsettle
      exact ⟨hzone ▸ hz.same, hzone ▸ hz.buddy⟩
    refine ⟨⟨{ h' with zone := z }, v', ?_, hset.moveZone hz'⟩, hcopy⟩
    rw [settle_withZone, hsettle]
    rfl
  · exact ⟨h.read.moveZone hz, h.empty, h.more⟩
  · exact ⟨h.read.moveZone hz, h.empty, h.more⟩
  · exact ⟨h.read.moveZone hz, h.empty, h.more⟩
  · exact ⟨h.1, h.2.moveZone hz⟩

theorem SerialInv.wakeUp (h : SerialInv lo hi s) : SerialInv lo hi s.wakeUp := by
  obtain ⟨heap, live, arrived, before, buf, size, numRead, pc⟩ := s
  cases pc with
  | yield queued =>
    cases queued with
    | true => exact (WaitInv.read h).goto numRead (.yield false)
    | false => exact h
  | asleep => exact (WaitInv.read h).goto numRead .test
  | _ => exact h

theorem SerialInv.step (hlo : 0 < lo) {e : SerialEvent} (h : SerialInv lo hi s)
    (horderly : s.Orderly e) (hstep : s.step e = some s') : SerialInv lo hi s' := by
  cases e with
  | read buf size =>
    obtain ⟨⟨hpc, hsize, hbuf⟩, heq⟩ := Option.ite_none_right_eq_some.mp hstep
    unfold SerialInv at h
    rw [hpc] at h
    have hdrop : s.heap.contents = s.arrived.drop (s.arrived.length - s.heap.count) := by
      rw [h.count]
      exact List.suffix_iff_eq_drop.mp h.left
    cases heq
    exact ⟨h.pages, h.count, hdrop, Nat.sub_le _ _, Nat.zero_le _, hbuf, hsize⟩
  | run => exact h.thread hlo horderly hstep
  | byte c addr => exact h.received horderly.1 horderly.2 hstep
  | wake =>
    cases hstep
    exact h.wakeUp
  | pageAlloc order =>
    cases hstep
    exact h.moveZone ⟨rawAllocPages_samePages _ _, fun _ hbuddy => buddy_othersAlloc order hbuddy⟩
  | pageFree pg =>
    obtain ⟨b, hfind, rfl⟩ := Option.map_eq_some_iff.mp hstep
    obtain rfl : b.start = pg := by simpa using List.find?_some hfind
    exact h.moveZone ⟨freePages_samePages _ _,
      fun _ hbuddy => buddy_othersFree (List.mem_of_find?_eq_some hfind) hbuddy⟩

theorem serialStart_inv (z : Zone) (mem : ByteMem) :
    SerialInv (consumedPages z.totalPages) z.totalPages (SerialState.start z mem) :=
  ⟨⟨(memZoneInit_samePages z).2, memZoneInit_inv z, nofun⟩, rfl, List.suffix_refl _⟩

end Others

/-! ## A thread that is left alone -/

section Progress

variable {lo hi : Nat} {s s' : SerialState} {h' : KqueueHeap}

/-- The statements of the thread, in an orderly way, lead from `s` to `s'`. -/
def SerialState.GoesTo : SerialState → SerialState → Prop :=
  Relation.ReflTransGen (fun s s' => s.Orderly .run ∧ s.serial8250Read = some s')

theorem SerialState.GoesTo.run (h : s.GoesTo s') :
    ∃ k, SysLib.run SerialState.step s (List.replicate k .run) = some s' ∧
      Meets SerialState.step SerialState.Orderly s (List.replicate k .run) := by
  induction h using Relation.ReflTransGen.head_induction_on with
  | refl => exact ⟨0, rfl, trivial⟩
  | head hstep _ ih =>
    obtain ⟨k, hrun, hmeets⟩ := ih
    exact ⟨k + 1, run_cons_eq_some.mpr ⟨_, hstep.2, hrun⟩,
      (meets_cons_some hstep.2).mpr ⟨hstep.1, hmeets⟩⟩

theorem SerialState.goesTo_thread (hpc : s.pc ≠ .test) (hstep : s.serial8250Read = some s') :
    s.GoesTo s' :=
  Relation.ReflTransGen.single ⟨fun htest => absurd htest hpc, hstep⟩

theorem goesTo_pullSteps {v' : PullVars} : ∀ (k : Nat) (s : SerialState) (v : PullVars),
    s.pc = .pulling v → pullSteps k (s.heap, v) = some (h', v') →
    s.GoesTo { s with heap := h', pc := .pulling v' }
  | 0, s, v, hpc, hsteps => by
    cases hsteps
    rw [← hpc]
    exact Relation.ReflTransGen.refl
  | k + 1, s, v, hpc, hsteps => by
    obtain ⟨⟨h₁, v₁⟩, hstep, hrest⟩ := Option.bind_eq_some_iff.mp hsteps
    have hthread : s.serial8250Read = some { s with heap := h₁, pc := .pulling v₁ } := by
      unfold SerialState.serial8250Read
      rw [hpc]
      dsimp only
      split
      · rename_i t hret
        unfold pullStep at hstep
        rw [hret] at hstep
        cases hstep
      · rw [hstep]
        rfl
    exact (SerialState.goesTo_thread (by rw [hpc]; nofun) hthread).trans
      (goesTo_pullSteps k { s with heap := h₁, pc := .pulling v₁ } v₁ rfl hrest)

theorem SerialInv.goesTo_pulled (hlo : 0 < lo) (h : SerialInv lo hi s) (hpc : s.pc = .test)
    (hlt : s.numRead < s.size) (hfits : s.PullFits) :
    ∃ h', h'.count + min s.size s.heap.count = s.heap.count ∧
      s.GoesTo
        { s with
          heap := h'
          numRead := s.numRead + min s.size s.heap.count
          pc := if min s.size s.heap.count = 0 then .dequeue else .test } := by
  have hread := h.test hpc
  have hcount : s.heap.count = (s.heap.pages.map KqueuePage.count).sum := by
    rw [hread.count, KqueueHeap.contents_length]
  have hheld : QueueHeld lo hi s.live s.heap.zone s.heap.pages s.heap.count :=
    ⟨hread.pages.total, hread.pages.buddy, hcount⟩
  obtain ⟨h', r, hpull, -⟩ :=
    pullLoop_held hlo (s.buf + s.numRead) s.heap.pages s.heap s.size 0 hheld
  obtain ⟨k, v', hsteps, hret⟩ := pullStep_refines _ _ _ _ rfl hread.size hpull
  have hr : r = min s.size s.heap.count := by
    have hvalue := pullLoop_value _ _ _ _ hpull
    rw [← hcount, Nat.zero_add] at hvalue
    refine hvalue.mpr ?_
    rcases hfits with hfew | ⟨-, hfirst⟩
    · left
      omega
    · exact Or.inr ⟨rfl, hfirst⟩
  refine ⟨h', (pullLoop_delivered _ _ _ _ hcount hpull).size, ?_⟩
  rw [← hr]
  have hstart : s.serial8250Read =
      some { s with pc := .pulling ⟨s.buf + s.numRead, s.size, 0, .head⟩ } := by
    unfold SerialState.serial8250Read
    rw [hpc]
    exact if_pos hlt
  have hend : SerialState.serial8250Read { s with heap := h', pc := .pulling v' } =
      some { s with
        heap := h'
        numRead := s.numRead + r
        pc := if r = 0 then .dequeue else .test } := by
    simp only [SerialState.serial8250Read, hret]
  exact (Relation.ReflTransGen.single ⟨fun _ _ => hfits, hstart⟩).trans
    ((goesTo_pullSteps k { s with pc := .pulling ⟨s.buf + s.numRead, s.size, 0, .head⟩ } _ rfl
      hsteps).trans (SerialState.goesTo_thread nofun hend))

theorem SerialInv.goesTo (hlo : 0 < lo) (h : SerialInv lo hi s) (hgoes : s.GoesTo s') :
    SerialInv lo hi s' := by
  induction hgoes with
  | refl => exact h
  | tail _ hstep ih => exact ih.thread hlo hstep.1 hstep.2

theorem goesTo_finished (hpc : s.pc = .test) (hge : ¬s.numRead < s.size) :
    s.GoesTo { s with pc := .finished s.numRead } := by
  have hstep : s.serial8250Read = some { s with pc := .finished s.numRead } := by
    unfold SerialState.serial8250Read
    rw [hpc]
    exact if_neg hge
  exact Relation.ReflTransGen.single ⟨fun _ hlt => absurd hlt hge, hstep⟩

theorem goesTo_asleep (hpc : s.pc = .dequeue) : s.GoesTo { s with pc := .asleep } := by
  have hdequeue : s.serial8250Read = some { s with pc := .yield true } := by
    unfold SerialState.serial8250Read
    rw [hpc]
  have hyield : SerialState.serial8250Read { s with pc := .yield true } =
      some { s with pc := .asleep } := rfl
  exact (SerialState.goesTo_thread (by rw [hpc]; nofun) hdequeue).trans
    (SerialState.goesTo_thread nofun hyield)

/-- The thread gets to the end of the call or goes to sleep.  A pull leaves less in the queue,
and what it leaves fits the next one. -/
theorem SerialInv.goesOn (hlo : 0 < lo) : ∀ (n : Nat) (s : SerialState), s.heap.count < n →
    SerialInv lo hi s → s.pc = .test → (s.numRead < s.size → s.PullFits) →
    ∃ s', s.GoesTo s' ∧ ((∃ value, s'.pc = .finished value) ∨ s'.pc = .asleep) ∧
      s'.arrived = s.arrived ∧ s'.before = s.before ∧ s'.size = s.size
  | 0, _, hn, _, _, _ => absurd hn (Nat.not_lt_zero _)
  | n + 1, s, hn, h, hpc, hfits => by
    by_cases hlt : s.numRead < s.size
    · obtain ⟨h', hcount, hgoes⟩ := h.goesTo_pulled hlo hpc hlt (hfits hlt)
      by_cases hzero : min s.size s.heap.count = 0
      · rw [if_pos hzero] at hgoes
        exact ⟨_, hgoes.trans (goesTo_asleep rfl), Or.inr rfl, rfl, rfl, rfl⟩
      · rw [if_neg hzero] at hgoes
        have hnext : s.numRead + min s.size s.heap.count < s.size →
            s.numRead + min s.size s.heap.count + h'.count ≤ s.size := by
          intro hmore
          rcases hfits hlt with hfew | ⟨hnum, hfirst⟩
          · omega
          · omega
        obtain ⟨s', hrest, hend, heqs⟩ := SerialInv.goesOn hlo n _
          (show h'.count < n by omega) (h.goesTo hlo hgoes) rfl (fun hmore => Or.inl (hnext hmore))
        exact ⟨s', hgoes.trans hrest, hend, heqs⟩
    · exact ⟨_, goesTo_finished hpc hlt, Or.inl ⟨_, rfl⟩, rfl, rfl, rfl⟩

theorem CallInv.length {pending : List Block} {got : Nat} (h : CallInv lo hi s pending got) :
    s.before + got + s.heap.count = s.arrived.length := by
  have hlen := congrArg List.length h.stored
  rw [List.length_append, readBytes_length, List.length_drop, ← h.count] at hlen
  have := h.before
  omega

end Progress

/-! ## Runs -/

/-- Outside `kqueue_pull_tail` the thread leaves the queue and the memory alone. -/
theorem thread_heap {s s' : SerialState} (hpc : ∀ v, s.pc ≠ .pulling v)
    (hstep : s.serial8250Read = some s') : s'.heap = s.heap := by
  obtain ⟨heap, live, arrived, before, buf, size, numRead, pc⟩ := s
  cases pc with
  | pulling v => exact absurd rfl (hpc v)
  | test =>
    unfold SerialState.serial8250Read at hstep
    dsimp only at hstep
    split at hstep <;> cases hstep <;> rfl
  | yield queued => cases queued <;> cases hstep <;> rfl
  | idle | dequeue | asleep | finished => cases hstep <;> rfl

theorem thread_frame {s s' : SerialState} {v : PullVars} (hpc : s.pc = .pulling v)
    (hcopy : s.CopyInBuf) (hstep : s.serial8250Read = some s') {x : Nat}
    (hx : x < s.buf ∨ s.buf + s.size ≤ x) : s'.heap.mem x = s.heap.mem x := by
  unfold SerialState.serial8250Read at hstep
  rw [hpc] at hstep
  dsimp only at hstep
  split at hstep
  · rw [← Option.some.inj hstep]
  · obtain ⟨⟨h', v'⟩, hpull, rfl⟩ := Option.map_eq_some_iff.mp hstep
    rw [pullStep_mem hpull]
    split
    · rfl
    · rename_i c hc
      have hin := hcopy c (by rw [SerialState.copy, hpc]; exact hc)
      refine Copy.run_of_not_stores s.heap.mem (fun hstores => ?_)
      have hrange := hstores.2
      omega

theorem SerialInv.readsRight {lo hi : Nat} {s : SerialState} (hlo : 0 < lo)
    (h : SerialInv lo hi s) : s.ReadsRight where
  inBuf := by
    intro c hc
    cases hpc : s.pc with
    | pulling v => exact (h.pulling hpc).2 c hc
    | idle | test | dequeue | yield | asleep | finished =>
      simp [SerialState.copy, hpc] at hc
  frame := by
    intro s' hstep x hx
    cases hpc : s.pc with
    | pulling v => exact thread_frame hpc (h.pulling hpc).2 hstep hx
    | idle | test | dequeue | yield | asleep | finished =>
      rw [thread_heap (by rw [hpc]; exact fun v => nofun) hstep]
  returns := by
    intro value hpc
    unfold SerialInv at h
    rw [hpc] at h
    exact ⟨h.1, h.2.stored, h.2.length⟩
  awake := by
    intro hpc
    unfold SerialInv at h
    rw [hpc] at h
    exact ⟨h.empty, h.more⟩
  goesOn := by
    intro hpc hfits
    obtain ⟨s', hgoes, hend, harrived, hbefore, hsize⟩ :=
      SerialInv.goesOn hlo (s.heap.count + 1) s (Nat.lt_succ_self _) h hpc hfits
    obtain ⟨k, hrun, hmeets⟩ := hgoes.run
    refine ⟨k, s', hrun, hmeets, ?_⟩
    have hinv := h.goesTo hlo hgoes
    unfold SerialInv at hinv
    rw [← harrived, ← hsize]
    rcases hend with ⟨value, hfin⟩ | hsleep
    · rw [hfin] at hinv
      have hlen := hinv.2.length
      rw [if_pos (by omega), hfin, hinv.1]
    · rw [hsleep] at hinv
      have hlen := hinv.read.length
      have hempty := hinv.empty
      have hmore := hinv.more
      rw [if_neg (by omega)]
      exact ⟨hsleep, by omega⟩

/-- Every read of an orderly run goes right. -/
theorem serialRun_readsRight (z : Zone) (mem : ByteMem) (events : List SerialEvent)
    (s : SerialState)
    (hmeets : Meets SerialState.step SerialState.Orderly (SerialState.start z mem) events)
    (hrun : run SerialState.step (SerialState.start z mem) events = some s) : s.ReadsRight := by
  have hlo : 0 < consumedPages z.totalPages := Nat.succ_pos _
  exact (run_invariant_of_meets (SerialInv (consumedPages z.totalPages) z.totalPages)
    (fun _ _ _ h horderly hstep => h.step hlo horderly hstep) (serialStart_inv z mem) hmeets
    hrun).readsRight hlo

/-- A read of two bytes that arrive one after the other. -/
def twoBytes : List SerialEvent :=
  [SerialEvent.read 20000 2, SerialEvent.byte 65 30000] ++ List.replicate 10 SerialEvent.run ++
    [SerialEvent.byte 66 30000] ++ List.replicate 11 SerialEvent.run

theorem serialRun_readsRight_two :
    ∃ s, run SerialState.step (SerialState.start (rawZone 4) (fun _ => 0)) twoBytes = some s ∧
      s.pc = .finished 2 ∧ s.ReadsRight := by
  have hsome : (run SerialState.step (SerialState.start (rawZone 4) (fun _ => 0)) twoBytes).map
      SerialState.pc = some (.finished 2) := by
    decide +kernel
  obtain ⟨s, hrun, hpc⟩ := Option.map_eq_some_iff.mp hsome
  exact ⟨s, hrun, hpc, serialRun_readsRight _ _ _ s (by decide +kernel) hrun⟩

/-- A read of four bytes, up to the second copy: three have arrived when the thread pulls first,
and three more when it pulls again. -/
def threeAndThree : List SerialEvent :=
  [SerialEvent.read 20000 4] ++ List.replicate 3 (SerialEvent.byte 65 30000) ++
    List.replicate 10 SerialEvent.run ++ List.replicate 3 (SerialEvent.byte 66 30000) ++
    List.replicate 2 SerialEvent.run

/-- The second pull copies three bytes to the last byte of the buffer and the two after it, and
the call returns 6. -/
theorem serialRead_overruns :
    ∃ s s', run SerialState.step (SerialState.start (rawZone 4) (fun _ => 0)) threeAndThree =
        some s ∧ s.copy = some ⟨20003, 4112, 3⟩ ∧
      run SerialState.step s (List.replicate 9 .run) = some s' ∧ s'.pc = .finished 6 := by
  have hsome : (run SerialState.step (SerialState.start (rawZone 4) (fun _ => 0))
      threeAndThree).map (fun s => (s.copy,
        (run SerialState.step s (List.replicate 9 .run)).map SerialState.pc)) =
      some (some ⟨20003, 4112, 3⟩, some (.finished 6)) := by
    decide +kernel
  obtain ⟨s, hrun, hvals⟩ := Option.map_eq_some_iff.mp hsome
  obtain ⟨hcopy, hrest⟩ := Prod.mk.inj hvals
  obtain ⟨s', hrun', hpc⟩ := Option.map_eq_some_iff.mp hrest
  exact ⟨s, s', hrun, hcopy, hrun', hpc⟩

end Koowaldah
