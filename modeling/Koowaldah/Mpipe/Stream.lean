import Koowaldah.Mpipe.Basic

/-!
# The stream of a message pipe

A pipe is whole while every writer that is about to copy meets a reader.  The
proof follows the rendezvous.  `Mpipe.Phase` has its four phases:

* `idle`: no write is in progress, and the reads were given all that was written;
* `handed`: a chunk was copied, and the reader was woken and has not run yet;
* `taken`: the reader has run and set `MC_READ_FROM`;
* `stuck`: the writer copied nothing because there was no reader, and waits for
  one that nobody will wake.

In `idle`, `taken` and `stuck` the reader is in no read, or sleeps in one
(`Mpipe.Quiet`).  `MpipeInv.read`, `MpipeInv.chunk`, `MpipeInv.readEnd` and
`MpipeInv.writeGo` carry the invariant over what a step does to the pipe,
`MpipeInv.call` over a step, and `mpipeRun_stream` reads it in every state that is
reached.
-/

namespace Koowaldah

open Function SysLib

/-! ## Logs -/

section Log

variable (log : List MpipeEvent)

@[simp] theorem written_wrote (bytes : List UInt8) :
    written (log ++ [.wrote bytes]) = written log ++ bytes := by
  simp [written]

@[simp] theorem delivered_wrote (bytes : List UInt8) :
    delivered (log ++ [.wrote bytes]) = delivered log := by
  simp [delivered]

@[simp] theorem written_copied (addr : Nat) (bytes : List UInt8) (into : Option (Nat × Nat)) :
    written (log ++ [.copied addr bytes into]) = written log := by
  simp [written]

@[simp] theorem delivered_copied (addr : Nat) (bytes : List UInt8) (into : Option (Nat × Nat)) :
    delivered (log ++ [.copied addr bytes into]) = delivered log := by
  simp [delivered]

@[simp] theorem written_returned (value : Nat) (got : List UInt8) (seen : Option (List UInt8)) :
    written (log ++ [.returned value got seen]) = written log := by
  simp [written]

@[simp] theorem delivered_returned (value : Nat) (got : List UInt8) (seen : Option (List UInt8)) :
    delivered (log ++ [.returned value got seen]) = delivered log ++ got := by
  simp [delivered]

theorem events_concat {pgtable : Nat → Option Nat} {log : List MpipeEvent} {e : MpipeEvent}
    (hlog : ∀ e ∈ log, e.Ok pgtable) (he : e.Ok pgtable) : ∀ x ∈ log ++ [e], x.Ok pgtable := by
  intro x hx
  rcases List.mem_append.mp hx with hx | hx
  · exact hlog x hx
  · rw [List.mem_singleton.mp hx]
    exact he

end Log

/-! ## The invariant -/

/-- Who may stand where.  Nobody sleeps on the mutex. -/
def MpipePc.Role (reader writer t : Nat) : MpipePc → Prop
  | .user => True
  | .reading _ _ _ => t = reader
  | .locking _ _ => False
  | .writing _ _ _ _ => t = writer

theorem inProgress_receive (bytes : List UInt8) (pc : MpipePc) :
    (pc.receive bytes).inProgress = pc.inProgress := by
  cases pc <;> rfl

theorem role_receive {bytes : List UInt8} {pc : MpipePc} {reader writer t : Nat}
    (h : pc.Role reader writer t) : (pc.receive bytes).Role reader writer t := by
  cases pc <;> exact h

namespace Mpipe

/-- The reader is in no read, or sleeps in one.  `tq` are the threads on the queue
of the pipe. -/
inductive Quiet (p : Mpipe) (tq : List Nat) : Prop where
  | away (htq : tq = []) (hpc : (p.pc p.reader).inProgress = none)
  | asleep (buf : Nat) (htq : tq = [p.reader]) (hpc : p.pc p.reader = .reading buf p.mc.len [])
      (hpiece : ∀ i < p.mc.len, translate p.pgtable (buf + i) = some (p.mc.buf + i))

/-- The phases of the rendezvous. -/
inductive Phase (p : Mpipe) (tq : List Nat) : Prop where
  | idle (hword : p.mc.mutex.lock ≠ 0)
      (hpc : ∀ src len done left, p.pc p.writer ≠ .writing src len done left)
      (hquiet : p.Quiet tq) (hstream : delivered p.log = written p.log)
  | handed (src : ByteMem) (len done left buf : Nat) (got : List UInt8)
      (hword : p.mc.mutex.lock = 0) (hstate : p.mc.state = .writtenTo)
      (hpc : p.pc p.writer = .writing src len done left)
      (hread : p.pc p.reader = .reading buf p.mc.len got) (htq : tq = [])
      (hpiece : ∀ i < p.mc.len, translate p.pgtable (buf + i) = some (p.mc.buf + i))
      (hgot : readBytes p.mem p.mc.buf p.mc.len = got)
      (hlen : len < WORD_RANGE) (hleft : done + left = len)
      (hstream : delivered p.log ++ (got ++ readBytes src done left) = written p.log)
  | taken (src : ByteMem) (len done left : Nat)
      (hword : p.mc.mutex.lock = 0) (hstate : p.mc.state = .readFrom)
      (hpc : p.pc p.writer = .writing src len done left) (hquiet : p.Quiet tq)
      (hlen : len < WORD_RANGE) (hleft : done + left = len)
      (hstream : delivered p.log ++ readBytes src done left = written p.log)
  | stuck (src : ByteMem) (len done left : Nat)
      (hword : p.mc.mutex.lock = 0) (hstate : p.mc.state = .writtenTo)
      (hpc : p.pc p.writer = .writing src len done left) (hquiet : p.Quiet tq)
      (hstream : delivered p.log <+: written p.log)

end Mpipe

/-- The state between two steps, whatever the phase, with the threads of the
queues `qs`. -/
structure MpipeBase (s : MpipeState) (qs : Queues) : Prop where
  repr : s.sched.Repr qs
  unlocked : s.sched.Unlocked
  cur : s.sched.current ∈ qs .rq
  apart : s.mc.tq ≠ s.mc.mutex.sleepers
  sleepers : qs s.mc.mutex.queue = []
  len : s.mc.len < WORD_RANGE
  roles : ∀ t, (s.pc t).Role s.reader s.writer t
  events : ∀ e ∈ s.log, e.Ok s.pgtable

/-- The state between two steps. -/
structure MpipeInv (s : MpipeState) (qs : Queues) : Prop extends MpipeBase s qs where
  phase : s.Phase (qs s.mc.queue)

section Inv

variable {s s' : MpipeState} {qs : Queues}

variable {len done left : Nat} {src : ByteMem}

theorem MpipeCtl.queue_ne_rq (mc : MpipeCtl) : mc.queue ≠ .rq := wait_ne_rq mc.tq

theorem MpipeBase.queue_ne (h : MpipeBase s qs) : s.mc.queue ≠ s.mc.mutex.queue :=
  fun heq => h.apart (Queue.wait.inj heq)

theorem MpipeBase.cur_not_mem (h : MpipeBase s qs) : s.sched.current ∉ qs s.mc.queue :=
  fun hmem => wait_ne_rq _ (h.repr.queue_unique hmem h.cur)

theorem MpipeBase.roles_user (h : MpipeBase s qs) (t : Nat) :
    (Function.update s.pc s.sched.current .user t).Role s.reader s.writer t := by
  by_cases ht : t = s.sched.current
  · rw [ht, update_self]
    trivial
  · rw [update_of_ne ht]
    exact h.roles t

theorem MpipeInv.resched (h : MpipeInv s qs) {sched : SchedState} {qs' : Queues}
    (hrepr : sched.Repr qs') (hlock : sched.Unlocked) (hcur : sched.current ∈ qs' .rq)
    (htq : qs' s.mc.queue = qs s.mc.queue)
    (hsleepers : qs' s.mc.mutex.queue = qs s.mc.mutex.queue) :
    MpipeInv { s with sched := sched } qs' where
  repr := hrepr
  unlocked := hlock
  cur := hcur
  apart := h.apart
  sleepers := hsleepers.trans h.sleepers
  len := h.len
  roles := h.roles
  events := h.events
  phase := htq ▸ h.phase

theorem MpipeInv.other (h : MpipeInv s qs) {c : MpipeCall} {sched : SchedState}
    (hop : s.other c = some sched) : ∃ qs', MpipeInv { s with sched := sched } qs' := by
  cases c with
  | yield =>
    rcases yield_spec h.repr hop with ⟨qs', hrepr, hlock, hcur, hother, -⟩
    exact ⟨qs', h.resched hrepr (h.unlocked.of_lock_eq hlock) hcur (hother _ s.mc.queue_ne_rq)
      (hother _ s.mc.mutex.queue_ne_rq)⟩
  | block q =>
    unfold MpipeState.other at hop
    dsimp only at hop
    split at hop
    · cases hop
    · rename_i hne
      rcases not_or.mp hne with ⟨htq, hsleepers⟩
      rcases Option.bind_eq_some_iff.mp hop with ⟨sched₁, hdeq, hyield⟩
      rcases dequeue_yield_spec h.repr (wait_ne_rq q) hdeq hyield with
        ⟨qs', hrepr, hlock, -, hcur, -, hother, -⟩
      refine ⟨qs', h.resched hrepr (h.unlocked.of_lock_eq hlock) hcur ?_ ?_⟩
      · exact hother _ s.mc.queue_ne_rq (fun heq => htq (Queue.wait.inj heq).symm)
      · exact hother _ s.mc.mutex.queue_ne_rq (fun heq => hsleepers (Queue.wait.inj heq).symm)
  | wake q =>
    unfold MpipeState.other at hop
    dsimp only at hop
    split at hop
    · cases hop
    · rename_i hne
      rcases not_or.mp hne with ⟨htq, hsleepers⟩
      rcases Option.map_eq_some_iff.mp hop with ⟨⟨sched', moved⟩, henq, rfl⟩
      rcases enqueue_spec h.repr h.unlocked (wait_ne_rq q) henq with
        ⟨qs', hrepr, hlock, hcur, hrq, -, hother⟩
      refine ⟨qs', h.resched hrepr hlock ?_ ?_ ?_⟩
      · rw [hcur]
        exact hrq _ h.cur
      · exact hother _ s.mc.queue_ne_rq (fun heq => htq (Queue.wait.inj heq).symm)
      · exact hother _ s.mc.mutex.queue_ne_rq (fun heq => hsleepers (Queue.wait.inj heq).symm)
  | read buf len => exact nomatch hop
  | write src len => exact nomatch hop
  | go => exact nomatch hop

/-! ## Reading -/

theorem Mpipe.Quiet.away_of_user {p : Mpipe} {tq : List Nat} (h : p.Quiet tq)
    (hpc : p.pc p.reader = .user) : tq = [] := by
  cases h with
  | away htq _ => exact htq
  | asleep buf _ hread _ =>
    rw [hpc] at hread
    cases hread

theorem Mpipe.Quiet.set_user {p : Mpipe} {tq : List Nat} {t : Nat} (h : p.Quiet tq)
    (ht : (p.pc t).inProgress = none) (mutex : Mutex) : Mpipe.Quiet
      { p with mc := { p.mc with mutex := mutex }, pc := Function.update p.pc t .user } tq := by
  cases h with
  | away htq hpc =>
    refine .away htq ?_
    dsimp only
    by_cases heq : p.reader = t
    · rw [heq, update_self]
      rfl
    · rw [update_of_ne heq, hpc]
  | asleep buf htq hpc hpiece =>
    refine .asleep buf htq ?_ hpiece
    dsimp only
    rw [update_of_ne, hpc]
    intro heq
    rw [← heq, hpc] at ht
    cases ht

theorem MpipeInv.read (h : MpipeInv s qs) {buf : Nat} (hcur : s.sched.current = s.reader)
    (hpc : s.pc s.sched.current = .user) (hlen : len < WORD_RANGE)
    (hpiece : ∀ i < len, translate s.pgtable (buf + i) = some (rawVirt2phys s.pgtable buf + i))
    (hop : s.mpipeRead buf len = some s') : ∃ qs', MpipeInv s' qs' := by
  rcases Option.map_eq_some_iff.mp hop with ⟨sched, hsleep, rfl⟩
  rcases Option.bind_eq_some_iff.mp hsleep with ⟨sched₁, hdeq, hyield⟩
  rcases dequeue_yield_spec h.repr s.mc.queue_ne_rq hdeq hyield with
    ⟨qs', hrepr, hlock, -, hcur', hq, hother, -⟩
  rw [hcur] at hpc hq
  -- the reader sleeps in its read, whatever the writer does
  have hquiet : s.Quiet (qs s.mc.queue) → Mpipe.Quiet
      { s.toMpipe with
        mc := { s.mc with buf := rawVirt2phys s.pgtable buf, len := len }
        pc := Function.update s.pc s.sched.current (.reading buf len []) } (qs' s.mc.queue) := by
    intro hquiet
    refine .asleep buf ?_ ?_ hpiece
    · rw [hq, hquiet.away_of_user hpc]
      rfl
    · dsimp only
      rw [hcur, update_self]
  have hwriter : ∀ {src len' done left}, s.pc s.writer = .writing src len' done left →
      Function.update s.pc s.sched.current (.reading buf len []) s.writer =
        .writing src len' done left := by
    intro src len' done left hw
    rw [update_of_ne, hw]
    intro heq
    rw [heq, hcur, hpc] at hw
    cases hw
  refine ⟨qs', ⟨hrepr, h.unlocked.of_lock_eq hlock, hcur', h.apart, ?_, hlen, ?_, h.events⟩, ?_⟩
  · exact (hother _ s.mc.mutex.queue_ne_rq h.queue_ne.symm).trans h.sleepers
  · intro t
    dsimp only
    by_cases ht : t = s.sched.current
    · rw [ht, update_self]
      exact hcur
    · rw [update_of_ne ht]
      exact h.roles t
  · cases h.phase with
    | idle hword hnot hq hstream =>
      refine .idle hword ?_ (hquiet hq) hstream
      intro src len done left hw
      dsimp only at hw
      by_cases heq : s.writer = s.sched.current
      · rw [heq, update_self] at hw
        cases hw
      · rw [update_of_ne heq] at hw
        exact hnot _ _ _ _ hw
    | handed src len done left buf' got hword hstate hw hread =>
      rw [hpc] at hread
      cases hread
    | taken src len done left hword hstate hw hq hlen hleft hstream =>
      exact .taken src len done left hword hstate (hwriter hw) (hquiet hq) hlen hleft hstream
    | stuck src len done left hword hstate hw hq hstream =>
      exact .stuck src len done left hword hstate (hwriter hw) (hquiet hq) hstream

theorem MpipeInv.readEnd (h : MpipeInv s qs) {buf : Nat} {got : List UInt8}
    (hpc : s.pc s.sched.current = .reading buf len got) :
    ∃ qs', MpipeInv (s.mpipeReadEnd buf got) qs' := by
  have hcur : s.sched.current = s.reader := by
    have hrole := h.roles s.sched.current
    rw [hpc] at hrole
    exact hrole
  -- a reader that is quiet does not run in `mpipe_read`
  have hloud : ¬s.Quiet (qs s.mc.queue) := by
    intro hquiet
    cases hquiet with
    | away _ hnone =>
      rw [← hcur, hpc] at hnone
      cases hnone
    | asleep _ htq _ _ =>
      apply h.cur_not_mem
      rw [htq, hcur]
      exact List.mem_singleton_self _
  cases h.phase with
  | idle _ _ hquiet _ => exact absurd hquiet hloud
  | taken _ _ _ _ _ _ _ hquiet _ _ _ => exact absurd hquiet hloud
  | stuck _ _ _ _ _ _ _ hquiet _ => exact absurd hquiet hloud
  | handed src len' done left buf' got' hword hstate hw hread htq hpiece hgot hlen hleft hstream =>
    have heq := hread
    rw [← hcur, hpc] at heq
    cases heq
    have hseen : readVia (translate s.pgtable) s.mem buf s.mc.len = some got := by
      rw [readVia_eq_readBytes hpiece, hgot]
    have hne : s.writer ≠ s.sched.current := by
      intro hwc
      rw [hwc, hpc] at hw
      cases hw
    refine ⟨qs, ⟨h.repr, h.unlocked, h.cur, h.apart, h.sleepers, h.len, h.roles_user, ?_⟩, ?_⟩
    · apply events_concat h.events
      refine ⟨?_, hseen⟩
      rw [← hgot, readBytes_length]
    · refine .taken src len' done left hword rfl ?_ (.away htq ?_) hlen hleft ?_
      · show Function.update s.pc s.sched.current .user s.writer = _
        rw [update_of_ne hne, hw]
      · show (Function.update s.pc s.sched.current .user s.reader).inProgress = none
        rw [hcur, update_self]
        rfl
      · show delivered (s.log ++ _) ++ _ = written (s.log ++ _)
        rw [delivered_returned, written_returned, List.append_assoc, hstream]

/-! ## Writing -/

theorem chunk_counters {n : Nat} (hlen : len < WORD_RANGE) (hleft : done + left = len)
    (hle : n ≤ left) : (done + n) % WORD_RANGE = done + n ∧
      (left + (WORD_RANGE - n)) % WORD_RANGE = left - n := by
  constructor
  · exact Nat.mod_eq_of_lt (by omega)
  · rw [show left + (WORD_RANGE - n) = left - n + WORD_RANGE by omega, Nat.add_mod_right]
    exact Nat.mod_eq_of_lt (by omega)

theorem chunk_roles (h : MpipeBase s qs) (hcur : s.sched.current = s.writer) (bytes : List UInt8)
    (src : ByteMem) (len done left t : Nat) :
    (Function.update (Function.update s.pc s.reader ((s.pc s.reader).receive bytes))
      s.sched.current (.writing src len done left) t).Role s.reader s.writer t := by
  by_cases ht : t = s.sched.current
  · rw [ht, update_self]
    exact hcur
  · rw [update_of_ne ht]
    by_cases htr : t = s.reader
    · rw [htr, update_self]
      exact role_receive (h.roles s.reader)
    · rw [update_of_ne htr]
      exact h.roles t

theorem MpipeBase.meet_away (h : MpipeBase s qs) (htq : qs s.mc.queue = []) (hmeet : s.Meet left) :
    min s.mc.len left = 0 := by
  have hnot : ¬s.sched.krunqHead s.reader = some s.mc.queue := by
    rw [h.repr.back, htq]
    exact List.not_mem_nil
  unfold MpipeState.Meet at hmeet
  rw [if_neg hnot] at hmeet
  omega

theorem MpipeBase.meet_asleep (h : MpipeBase s qs) (htq : qs s.mc.queue = [s.reader])
    (hmeet : s.Meet left) : s.mc.len ≤ left := by
  have hhead : s.sched.krunqHead s.reader = some s.mc.queue := by
    rw [h.repr.back, htq]
    exact List.mem_singleton_self _
  unfold MpipeState.Meet at hmeet
  rw [if_pos hhead] at hmeet
  exact hmeet

/-- A chunk: it is handed to a reader that sleeps, or nothing is copied and the
writer is stuck. -/
theorem MpipeBase.chunk (h : MpipeBase s qs) (hcur : s.sched.current = s.writer)
    (hnone : (s.pc s.sched.current).inProgress = none) (hword : s.mc.mutex.lock = 0)
    (hquiet : s.Quiet (qs s.mc.queue)) (hlen : len < WORD_RANGE) (hleft : done + left = len)
    (hstream : delivered s.log ++ readBytes src done left = written s.log) (hmeet : s.Meet left)
    (hop : s.mpipeChunk src len done left = some s') : ∃ qs', MpipeInv s' qs' := by
  rcases Option.bind_eq_some_iff.mp hop with ⟨⟨sched₁, moved⟩, henq, hrest⟩
  rcases Option.map_eq_some_iff.mp hrest with ⟨sched, hyield, rfl⟩
  rcases enqueue_spec h.repr h.unlocked s.mc.queue_ne_rq henq with
    ⟨qs₁, hrepr₁, hlock₁, -, -, htq₁, hother₁⟩
  rcases yield_spec hrepr₁ hyield with ⟨qs', hrepr, hlock, hcur', hother, -⟩
  have htq : qs' s.mc.queue = (qs s.mc.queue).tail := by
    rw [hother _ s.mc.queue_ne_rq, htq₁]
  have hsleepers : qs' s.mc.mutex.queue = [] := by
    rw [hother _ s.mc.mutex.queue_ne_rq, hother₁ _ s.mc.mutex.queue_ne_rq h.queue_ne.symm,
      h.sleepers]
  have hwriter : ∀ (f : Nat → MpipePc) (pc : MpipePc),
      Function.update f s.sched.current pc s.writer = pc := by
    intro f pc
    rw [← hcur, update_self]
  refine ⟨qs', ⟨hrepr, hlock₁.of_lock_eq hlock, hcur', h.apart, hsleepers, h.len,
    chunk_roles h hcur _ src len _ _, ?_⟩, ?_⟩
  · apply events_concat h.events
    cases hquiet with
    | away hq hpc =>
      left
      rw [h.meet_away hq hmeet, readBytes_zero]
    | asleep buf hq hpc hpiece =>
      right
      refine ⟨buf, s.mc.len, by rw [hpc]; rfl, ?_⟩
      intro i hi
      rw [readBytes_length] at hi
      exact ⟨i, by omega, hpiece i (by omega)⟩
  · cases hquiet with
    | away hq hpc =>
      refine .stuck src len _ _ hword rfl (hwriter _ _) (.away ?_ ?_) ?_
      · show qs' s.mc.queue = []
        rw [htq, hq]
        rfl
      · dsimp only
        by_cases heq : s.reader = s.sched.current
        · rw [heq, update_self]
          rfl
        · rw [update_of_ne heq, update_self, inProgress_receive, hpc]
      · rw [delivered_copied, written_copied, ← hstream]
        exact List.prefix_append _ _
    | asleep buf hq hpc hpiece =>
      have hle := h.meet_asleep hq hmeet
      rcases chunk_counters hlen hleft hle with ⟨hdone', hleft'⟩
      have hne : s.reader ≠ s.sched.current := by
        intro heq
        rw [← heq, hpc] at hnone
        cases hnone
      have hmem := readBytes_writeBytes s.mem s.mc.buf (readBytes src done s.mc.len)
      rw [readBytes_length] at hmem
      refine .handed src len (done + s.mc.len) (left - s.mc.len) buf (readBytes src done s.mc.len)
        hword rfl ?_ ?_ ?_ hpiece ?_ hlen (by omega) ?_
      · dsimp only
        rw [hwriter, hdone', hleft']
      · dsimp only
        rw [update_of_ne hne, update_self, hpc, min_eq_left hle]
        rfl
      · show qs' s.mc.queue = []
        rw [htq, hq]
        rfl
      · rw [min_eq_left hle]
        exact hmem
      · rw [delivered_copied, written_copied, ← readBytes_add, Nat.add_sub_cancel' hle, hstream]

theorem MpipeInv.write (h : MpipeInv s qs) (hcur : s.sched.current = s.writer)
    (hpc : s.pc s.sched.current = .user) (hlen : len < WORD_RANGE) (hmeet : s.Meet len)
    (hop : s.mpipeWrite src len = some s') : ∃ qs', MpipeInv s' qs' := by
  -- the other phases have the writer in `mpipe_write`
  have hphase : s.mc.mutex.lock ≠ 0 ∧ s.Quiet (qs s.mc.queue) ∧
      delivered s.log = written s.log := by
    rw [hcur] at hpc
    cases h.phase with
    | idle hword _ hquiet hstream => exact ⟨hword, hquiet, hstream⟩
    | handed _ _ _ _ _ _ _ _ hw =>
      rw [hpc] at hw
      cases hw
    | taken _ _ _ _ _ _ hw =>
      rw [hpc] at hw
      cases hw
    | stuck _ _ _ _ _ _ hw =>
      rw [hpc] at hw
      cases hw
  rcases hphase with ⟨hword, hquiet, hstream⟩
  rcases Option.bind_eq_some_iff.mp hop with ⟨⟨mutex, sched, got⟩, hpass, hchunk⟩
  rcases lockPass_cases hpass with ⟨-, rfl, rfl, rfl⟩ | ⟨hzero, -⟩
  · have hbase : MpipeBase
        { s with
          mc := { s.mc with mutex := { s.mc.mutex with lock := 0 } }
          log := s.log ++ [.wrote (readBytes src 0 len)] } qs :=
      ⟨h.repr, h.unlocked, h.cur, h.apart, h.sleepers, h.len, h.roles,
        events_concat h.events trivial⟩
    refine hbase.chunk hcur ?_ rfl ?_ hlen (Nat.zero_add len) ?_ hmeet hchunk
    · rw [hpc]
      rfl
    · cases hquiet with
      | away htq hnone => exact .away htq hnone
      | asleep buf htq hread hpiece => exact .asleep buf htq hread hpiece
    · rw [delivered_wrote, written_wrote, hstream]
  · exact absurd hzero hword

theorem MpipeInv.writeGo (h : MpipeInv s qs)
    (hpc : s.pc s.sched.current = .writing src len done left)
    (hmeet : s.mc.state = .readFrom → done < len → s.Meet left)
    (hop : s.mpipeWriteGo src len done left = some s') : ∃ qs', MpipeInv s' qs' := by
  have hcur : s.sched.current = s.writer := by
    have hrole := h.roles s.sched.current
    rw [hpc] at hrole
    exact hrole
  unfold MpipeState.mpipeWriteGo at hop
  by_cases hstate : s.mc.state = .readFrom
  · -- the reader has run: the phase is `taken`
    have hphase : s.mc.mutex.lock = 0 ∧ s.Quiet (qs s.mc.queue) ∧ len < WORD_RANGE ∧
        done + left = len ∧ delivered s.log ++ readBytes src done left = written s.log := by
      rw [hcur] at hpc
      cases h.phase with
      | idle _ hnot => exact absurd hpc (hnot _ _ _ _)
      | handed _ _ _ _ _ _ _ hstate' =>
        rw [hstate] at hstate'
        cases hstate'
      | stuck _ _ _ _ _ hstate' =>
        rw [hstate] at hstate'
        cases hstate'
      | taken src' len' done' left' hword _ hw hquiet hlen hleft hstream =>
        rw [hpc] at hw
        cases hw
        exact ⟨hword, hquiet, hlen, hleft, hstream⟩
    rcases hphase with ⟨hword, hquiet, hlen, hleft, hstream⟩
    rw [if_neg (not_not.mpr hstate)] at hop
    split at hop
    · rename_i hlt
      refine h.toMpipeBase.chunk hcur ?_ hword hquiet hlen hleft hstream (hmeet hstate hlt) hop
      rw [hpc]
      rfl
    · rw [unlock_of_nil h.repr h.unlocked hword h.sleepers] at hop
      cases hop
      -- nothing is left of what was written
      have hzero : left = 0 := by omega
      rw [hzero, readBytes_zero, List.append_nil] at hstream
      have hfree : (1 : BitVec 32) ≠ 0 := by decide
      refine ⟨qs, ⟨h.repr, h.unlocked, h.cur, h.apart, h.sleepers, h.len, h.roles_user, h.events⟩,
        .idle hfree ?_ ?_ hstream⟩
      · intro _ _ _ _ hw
        dsimp only at hw
        rw [← hcur, update_self] at hw
        cases hw
      · exact hquiet.set_user (by rw [hpc]; rfl) _
  · rw [if_pos hstate] at hop
    rcases Option.map_eq_some_iff.mp hop with ⟨sched, hyield, rfl⟩
    exact h.other (c := .yield) hyield

/-- Every step that keeps the stream whole keeps the invariant. -/
theorem MpipeInv.call (h : MpipeInv s qs) {c : MpipeCall} (hkeeps : s.Keeps c)
    (hop : s.call c = some s') : ∃ qs', MpipeInv s' qs' := by
  unfold MpipeState.call at hop
  split at hop
  · rename_i buf len hpc
    split at hop
    · rename_i hmay
      exact h.read hmay.1 hpc hmay.2 hkeeps hop
    · cases hop
  · rename_i src len hpc
    split at hop
    · rename_i hmay
      exact h.write hmay.1 hpc hmay.2 hkeeps hop
    · cases hop
  · rcases Option.map_eq_some_iff.mp hop with ⟨sched, hother, rfl⟩
    exact h.other hother
  · rename_i hpc
    cases hop
    exact h.readEnd hpc
  · rename_i src len hpc
    have hrole := h.roles s.sched.current
    rw [hpc] at hrole
    exact hrole.elim
  · rename_i hpc
    unfold MpipeState.Keeps at hkeeps
    rw [hpc] at hkeeps
    exact h.writeGo hpc hkeeps hop
  · cases hop

end Inv

theorem mpipeOpen_inv {sched : SchedState} {threads : Nat} (hready : sched.Ready threads)
    (mem : ByteMem) (pgtable : Nat → Option Nat) (reader writer tq : Nat) (word : BitVec 32) :
    ∃ qs, MpipeInv (MpipeState.mpipeOpen sched mem pgtable reader writer tq word) qs := by
  rcases hready.lists with ⟨l, -, hcur, -, hrepr⟩
  have hq : ∀ q, (if Queue.wait q = .rq then l else []) = [] := fun q => if_neg (wait_ne_rq q)
  have hfree : (1 : BitVec 32) ≠ 0 := by decide
  refine ⟨_, ⟨(hrepr.tqInit (hq tq)).tqInit (hq (tq + 1)), ?_, ?_, ?_, hq (tq + 1), ?_,
    fun _ => trivial, nofun⟩, .idle hfree (fun _ _ _ _ => nofun) (.away (hq tq) rfl) rfl⟩
  · exact (hready.unlocked.tqInit (.wait tq)).tqInit (.wait (tq + 1))
  · exact hcur
  · exact (Nat.succ_ne_self tq).symm
  · exact Nat.two_pow_pos 32

/-- When the stream of a message pipe is whole.  In every run of one reader, one
writer and any other threads in which the buffer of every read lies in one piece
in physical memory, and every chunk that a writer copies meets a reader that
sleeps and asks for no more than is left to write, or is empty: bytes are copied
only into the buffer of a read that is in progress, every read returns the number
of bytes it was given and has them in its buffer, and what the reads were given is
a prefix of what was written. -/
theorem mpipeRun_stream {sched : SchedState} {threads : Nat} (hready : sched.Ready threads)
    {mem : ByteMem} {pgtable : Nat → Option Nat} {reader writer tq : Nat} {word : BitVec 32}
    {calls : List MpipeCall} {s : MpipeState} (hkeeps : Meets MpipeState.call MpipeState.Keeps
      (MpipeState.mpipeOpen sched mem pgtable reader writer tq word) calls)
    (hrun : run MpipeState.call
      (MpipeState.mpipeOpen sched mem pgtable reader writer tq word) calls = some s) :
    StreamOk s.pgtable s.log := by
  have hinv : ∃ qs, MpipeInv s qs := by
    refine run_invariant_of_meets (fun s => ∃ qs, MpipeInv s qs) ?_
      (mpipeOpen_inv hready mem pgtable reader writer tq word) hkeeps hrun
    intro s c s' h hkeeps hcall
    rcases h with ⟨qs, h⟩
    exact h.call hkeeps hcall
  rcases hinv with ⟨qs, h⟩
  refine ⟨h.events, ?_⟩
  cases h.phase with
  | idle _ _ _ hstream =>
    rw [hstream]
  | handed _ _ _ _ _ _ _ _ _ _ _ _ _ _ _ hstream =>
    rw [← hstream]
    exact List.prefix_append _ _
  | taken _ _ _ _ _ _ _ _ _ _ hstream =>
    rw [← hstream]
    exact List.prefix_append _ _
  | stuck _ _ _ _ _ _ _ _ hstream => exact hstream

theorem mpipeRun_stream_two :
    let calls : List MpipeCall := [.read 4096 2, .yield, .write (fun i => UInt8.ofNat (65 + i)) 4,
      .go, .read 8192 2, .go, .go]
    ∃ sched s, sched.Ready 4 ∧
      Meets MpipeState.call MpipeState.Keeps
        (MpipeState.mpipeOpen sched (fun _ => 0) (fun _ => none) 1 2 0 0) calls ∧
      run MpipeState.call
        (MpipeState.mpipeOpen sched (fun _ => 0) (fun _ => none) 1 2 0 0) calls = some s ∧
      delivered s.log = [65, 66, 67, 68] ∧ StreamOk s.pgtable s.log := by
  intro calls
  have hlog : (bootSched.bind (fun sched => run MpipeState.call
      (MpipeState.mpipeOpen sched (fun _ => 0) (fun _ => none) 1 2 0 0) calls)).map
        (fun s => delivered s.log) = some [65, 66, 67, 68] := by
    decide +kernel
  have hmeets : bootSched.map (fun sched => decide (Meets MpipeState.call MpipeState.Keeps
      (MpipeState.mpipeOpen sched (fun _ => 0) (fun _ => none) 1 2 0 0) calls)) = some true := by
    decide +kernel
  rcases exists_bootRun hlog with ⟨sched, s, hboot, hrun, hdel⟩
  rw [hboot] at hmeets
  have hkeeps := of_decide_eq_true (Option.some.inj hmeets)
  have hready := bootSched_ready hboot
  exact ⟨sched, s, hready, hkeeps, hrun, hdel, mpipeRun_stream hready hkeeps hrun⟩

/-- A read of four bytes that meets a write of one byte returns 4, and the next
write copies into its buffer when it is over. -/
theorem mpipe_read_returns_len : ∃ sched s, sched.Ready 4 ∧
      run MpipeState.call (MpipeState.mpipeOpen sched (fun _ => 0) (fun _ => none) 1 2 0 0)
        [.read 4096 4, .yield, .write (fun _ => 65) 1, .go, .yield, .yield, .go,
          .write (fun _ => 66) 1] = some s ∧
      s.log = [.wrote [65], .copied 4096 [65] (some (4096, 4)),
        .returned 4 [65] (some [65, 0, 0, 0]), .wrote [66], .copied 4096 [66] none] ∧
      ¬StreamOk s.pgtable s.log := by
  have hlog : (bootSched.bind (fun sched => run MpipeState.call
      (MpipeState.mpipeOpen sched (fun _ => 0) (fun _ => none) 1 2 0 0)
        [.read 4096 4, .yield, .write (fun _ => 65) 1, .go, .yield, .yield, .go,
          .write (fun _ => 66) 1])).map (fun s => s.log) =
      some [.wrote [65], .copied 4096 [65] (some (4096, 4)),
        .returned 4 [65] (some [65, 0, 0, 0]), .wrote [66], .copied 4096 [66] none] := by
    decide +kernel
  rcases exists_bootRun hlog with ⟨sched, s, hboot, hrun, heq⟩
  refine ⟨sched, s, bootSched_ready hboot, hrun, heq, fun hok => ?_⟩
  have hevent := hok.events (.returned 4 [65] (some [65, 0, 0, 0])) (by rw [heq]; decide)
  exact absurd hevent.1 (by decide)

end Koowaldah
