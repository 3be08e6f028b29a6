import Koowaldah.Sched.Blocking

/-!
# Mutexes

A model of `include/mutex.h` over the scheduler of `kernel/sched0.c`.  The lock
word of a mutex is 1 when it is free and 0 when it is held.

`mutex_unlock` wakes the first thread that sleeps on the mutex and gives it
nothing: the thread tries again when it runs, and may find that another one was
faster.  The threads switch in `scheduler_yield` only, so one pass of the loop of
`mutex_lock` is one step of the model.  Between such steps the threads do
anything else: they yield, and they sleep on other queues and are woken from
them.

`MutexInv` is the invariant, `MutexInv.call` carries it over a step, and
`mutexRun_safe` reads it in every state that is reached: there is one holder at
most, its `mutex_unlock` finds the mutex locked, and while the mutex is free and
threads sleep on it there is one that was woken and has still to try.
-/

namespace Koowaldah

open Function SysLib

/-- `atomic_test_and_set_u32`: the new word, and the old one that is returned. -/
def atomicTestAndSet (p v : BitVec 32) : BitVec 32 × BitVec 32 := (v, p)

/-- `atomic_set_u32`. -/
def atomicSet (p v : BitVec 32) : BitVec 32 := p ||| v

/-- `struct mutex`.  `sleepers` is the number of its thread queue. -/
structure Mutex where
  lock : BitVec 32
  sleepers : Nat
deriving DecidableEq, Repr

namespace Mutex

/-- The thread queue of a mutex. -/
def queue (mutex : Mutex) : Queue := .wait mutex.sleepers

/-- `mutex_init`. -/
def init (mutex : Mutex) (sched : SchedState) : Mutex × SchedState :=
  ({ mutex with lock := (atomicTestAndSet mutex.lock 1).1 }, sched.tqInit mutex.queue)

/-- `mutex_trylock`: 0 on success, 1 otherwise. -/
def trylock (mutex : Mutex) : Mutex × Nat :=
  let (lock, spare) := atomicTestAndSet mutex.lock 0
  ({ mutex with lock := lock }, if spare = 0 then 1 else 0)

/-- One pass of the loop of `mutex_lock`, and whether the mutex was acquired.  If
it was not, the thread sleeps and another one runs. -/
def lockPass (mutex : Mutex) (sched : SchedState) : Option (Mutex × SchedState × Bool) :=
  let (mutex, busy) := mutex.trylock
  if busy ≠ 0 then
    ((sched.sched0Dequeue mutex.queue).bind SchedState.sched0Yield).map
      (fun sched => (mutex, sched, false))
  else some (mutex, sched, true)

/-- `mutex_unlock`. -/
def unlock (mutex : Mutex) (sched : SchedState) : Option (Mutex × SchedState) :=
  let (mutex, busy) := mutex.trylock
  if busy = 0 then none
  else
    (sched.sched0Enqueue mutex.queue).map (fun (sched, _) =>
      ({ mutex with lock := atomicSet mutex.lock 1 }, sched))

end Mutex

/-- The threads around one mutex.  `inLock` are the threads that went to sleep in
`mutex_lock` and have not tried again since, and `holders` those that came back
from `mutex_lock` and have not called `mutex_unlock` since. -/
structure MutexState where
  mutex : Mutex
  sched : SchedState
  inLock : Nat → Bool
  holders : List Nat

/-- What the current thread does: a pass of the loop of `mutex_lock`, which it
calls or goes on with; `mutex_unlock`; or something that is not about the
mutex. -/
inductive MutexCall where
  | lock
  | unlock
  | yield
  | block (q : Nat)
  | wake (q : Nat)
deriving DecidableEq, Repr

namespace MutexState

/-- A mutex that was just initialised.  `word` is what its lock was before. -/
def start (sched : SchedState) (word : BitVec 32) (sleepers : Nat) : MutexState :=
  let (mutex, sched) := (⟨word, sleepers⟩ : Mutex).init sched
  ⟨mutex, sched, fun _ => false, []⟩

/-- One step.  A thread that is in `mutex_lock` does nothing else, only a holder
unlocks the mutex, and no other code uses its queue. -/
def call (s : MutexState) : MutexCall → Option MutexState
  | .lock =>
    (s.mutex.lockPass s.sched).map (fun (mutex, sched, got) =>
      { mutex := mutex
        sched := sched
        inLock := Function.update s.inLock s.sched.current (!got)
        holders := if got then s.sched.current :: s.holders else s.holders })
  | .unlock =>
    if s.inLock s.sched.current ∨ s.sched.current ∉ s.holders then none
    else
      (s.mutex.unlock s.sched).map (fun (mutex, sched) =>
        { s with mutex := mutex, sched := sched, holders := s.holders.erase s.sched.current })
  | .yield =>
    if s.inLock s.sched.current then none
    else s.sched.sched0Yield.map (fun sched => { s with sched := sched })
  | .block q =>
    if s.inLock s.sched.current ∨ q = s.mutex.sleepers then none
    else
      ((s.sched.sched0Dequeue (.wait q)).bind SchedState.sched0Yield).map
        (fun sched => { s with sched := sched })
  | .wake q =>
    if s.inLock s.sched.current ∨ q = s.mutex.sleepers then none
    else (s.sched.sched0Enqueue (.wait q)).map (fun (sched, _) => { s with sched := sched })

end MutexState

/-! ## The calls -/

section Calls

variable {mutex mutex' : Mutex} {sched sched' : SchedState} {qs : Queues}

theorem wait_ne_rq (q : Nat) : Queue.wait q ≠ .rq := nofun

theorem Mutex.queue_ne_rq (mutex : Mutex) : mutex.queue ≠ .rq := wait_ne_rq mutex.sleepers

theorem trylock_of_zero (h : mutex.lock = 0) : mutex.trylock = (mutex, 1) := by
  unfold Mutex.trylock atomicTestAndSet
  dsimp only
  rw [if_pos h, ← h]

theorem trylock_of_ne_zero (h : mutex.lock ≠ 0) :
    mutex.trylock = ({ mutex with lock := 0 }, 0) := by
  unfold Mutex.trylock atomicTestAndSet
  dsimp only
  rw [if_neg h]

theorem lockPass_cases {got : Bool} (hop : mutex.lockPass sched = some (mutex', sched', got)) :
    mutex.lock ≠ 0 ∧ got = true ∧ mutex' = { mutex with lock := 0 } ∧ sched' = sched ∨
      mutex.lock = 0 ∧ got = false ∧ mutex' = mutex ∧
        ∃ sched₁, sched.sched0Dequeue mutex.queue = some sched₁ ∧
          sched₁.sched0Yield = some sched' := by
  unfold Mutex.lockPass at hop
  by_cases hword : mutex.lock = 0
  · right
    rw [trylock_of_zero hword] at hop
    rcases Option.map_eq_some_iff.mp hop with ⟨sched₂, hsleep, heq⟩
    cases heq
    exact ⟨hword, rfl, rfl, Option.bind_eq_some_iff.mp hsleep⟩
  · left
    rw [trylock_of_ne_zero hword] at hop
    cases hop
    exact ⟨hword, rfl, rfl, rfl⟩

theorem unlock_eq (hword : mutex.lock = 0) :
    mutex.unlock sched = (sched.sched0Enqueue mutex.queue).map (fun (sched, _) =>
      ({ mutex with lock := 1 }, sched)) := by
  have hset : atomicSet mutex.lock 1 = 1 := by
    rw [hword]
    decide
  unfold Mutex.unlock
  rw [trylock_of_zero hword]
  dsimp only
  rw [if_neg Nat.one_ne_zero, hset]

theorem unlock_of_nil (hrepr : sched.Repr qs) (hlock : sched.Unlocked) (hword : mutex.lock = 0)
    (hq : qs mutex.queue = []) : mutex.unlock sched = some ({ mutex with lock := 1 }, sched) := by
  rw [unlock_eq hword, sched0Enqueue_nil hrepr hlock hq]
  rfl

theorem unlock_of_zero (hrepr : sched.Repr qs) (hlock : sched.Unlocked) (hword : mutex.lock = 0) :
    ∃ sched' qs', mutex.unlock sched = some ({ mutex with lock := 1 }, sched') ∧
      sched'.Repr qs' ∧ sched'.Unlocked ∧ sched'.current = sched.current ∧
      (∀ t ∈ qs .rq, t ∈ qs' .rq) ∧ (∀ t ∈ qs' mutex.queue, t ∈ qs mutex.queue) ∧
      (qs' mutex.queue ≠ [] → ∃ t ∈ qs mutex.queue, t ∈ qs' .rq) := by
  cases hq : qs mutex.queue with
  | nil =>
    refine ⟨sched, qs, unlock_of_nil hrepr hlock hword hq, hrepr, hlock, rfl, fun t ht => ht,
      ?_, ?_⟩
    · rw [hq]
      exact fun t ht => ht
    · exact fun hne => absurd hq hne
  | cons t rest =>
    have hne := mutex.queue_ne_rq
    rcases sched0Enqueue_cons hrepr hlock hne hq with ⟨sched', hop, hcur, hlock', hrepr'⟩
    rw [unlock_eq hword, hop]
    refine ⟨sched', _, rfl, hrepr', hlock', hcur, ?_, ?_, ?_⟩
    · intro x hx
      exact List.mem_cons_of_mem t hx
    · intro x hx
      rw [Queues.set_apply, Queues.set_apply, if_pos rfl] at hx
      exact List.mem_cons_of_mem t hx
    · intro _
      refine ⟨t, List.mem_cons_self, ?_⟩
      exact List.mem_cons_self

end Calls

/-! ## The invariant -/

/-- The state between two steps, with the threads of the queues `qs`. -/
structure MutexInv (s : MutexState) (qs : Queues) : Prop where
  repr : s.sched.Repr qs
  unlocked : s.sched.Unlocked
  cur : s.sched.current ∈ qs .rq
  one : s.holders.length ≤ 1
  held : s.mutex.lock ≠ 0 → s.holders = []
  asleep : ∀ t ∈ qs s.mutex.queue, s.inLock t = true
  woken : s.mutex.lock ≠ 0 → qs s.mutex.queue ≠ [] → ∃ t ∈ qs .rq, s.inLock t = true

section Inv

variable {s s' : MutexState} {qs : Queues}

section

variable (hinv : MutexInv s qs)

include hinv

theorem MutexInv.word_of_holder {t : Nat} (ht : t ∈ s.holders) : s.mutex.lock = 0 := by
  by_contra hne
  rw [hinv.held hne] at ht
  cases ht

theorem MutexInv.resched {sched : SchedState} {qs' : Queues}
    (hrepr : sched.Repr qs') (hlock : sched.Unlocked) (hcur : sched.current ∈ qs' .rq)
    (hq : qs' s.mutex.queue = qs s.mutex.queue)
    (hrq : ∀ t ∈ qs .rq, s.inLock t = true → t ∈ qs' .rq) :
    MutexInv { s with sched := sched } qs' where
  repr := hrepr
  unlocked := hlock
  cur := hcur
  one := hinv.one
  held := hinv.held
  asleep t ht := hinv.asleep t (hq ▸ ht)
  woken hfree hne := by
    rcases hinv.woken hfree (hq ▸ hne) with ⟨t, ht, hin⟩
    exact ⟨t, hrq t ht hin, hin⟩

theorem MutexInv.lock (hop : s.call .lock = some s') : ∃ qs', MutexInv s' qs' := by
  rcases Option.map_eq_some_iff.mp hop with ⟨⟨mutex, sched, got⟩, hpass, rfl⟩
  rcases lockPass_cases hpass with ⟨hword, rfl, rfl, rfl⟩ | ⟨hword, rfl, rfl, sched₁, hdeq, hyield⟩
  · -- the current thread is not asleep, since it runs
    have hcur : s.sched.current ∉ qs s.mutex.queue := by
      intro hmem
      exact nomatch hinv.repr.queue_unique hmem hinv.cur
    refine ⟨qs, hinv.repr, hinv.unlocked, hinv.cur, ?_, fun h => absurd rfl h, ?_,
      fun h => absurd rfl h⟩
    · show (s.sched.current :: s.holders).length ≤ 1
      rw [hinv.held hword]
      exact le_rfl
    · intro t ht
      have hne : t ≠ s.sched.current := fun h => hcur (h ▸ ht)
      dsimp only
      rw [update_of_ne hne]
      exact hinv.asleep t ht
  · have hrq := s.mutex.queue_ne_rq
    rcases dequeue_yield_spec hinv.repr hrq hdeq hyield with
      ⟨qs', hrepr', hlock', -, hcur', hq', -, -⟩
    refine ⟨qs', hrepr', hinv.unlocked.of_lock_eq hlock', hcur', hinv.one, hinv.held, ?_,
      fun h => absurd hword h⟩
    · intro t ht
      dsimp only at ht ⊢
      rw [hq'] at ht
      by_cases hcur : t = s.sched.current
      · rw [hcur, update_self]
        rfl
      · rw [update_of_ne hcur]
        rcases List.mem_append.mp ht with hmem | hmem
        · exact hinv.asleep t hmem
        · exact absurd (List.mem_singleton.mp hmem) hcur

theorem MutexInv.unlock (hop : s.call .unlock = some s') : ∃ qs', MutexInv s' qs' := by
  unfold MutexState.call at hop
  dsimp only at hop
  split at hop
  · cases hop
  · rename_i hmay
    have hholder : s.sched.current ∈ s.holders := not_not.mp (not_or.mp hmay).2
    rcases unlock_of_zero hinv.repr hinv.unlocked (hinv.word_of_holder hholder) with
      ⟨sched', qs', hunlock, hrepr', hlock', hcur', hrq, hq, hwoken⟩
    rw [hunlock] at hop
    cases hop
    have hnone : s.holders.erase s.sched.current = [] := by
      rw [← List.length_eq_zero_iff, List.length_erase_of_mem hholder]
      have hone := hinv.one
      omega
    refine ⟨qs', hrepr', hlock', ?_, ?_, fun _ => hnone, ?_, ?_⟩
    · rw [hcur']
      exact hrq _ hinv.cur
    · rw [hnone]
      exact Nat.zero_le 1
    · exact fun t ht => hinv.asleep t (hq t ht)
    · intro _ hne
      rcases hwoken hne with ⟨t, ht, hrun⟩
      exact ⟨t, hrun, hinv.asleep t ht⟩

theorem MutexInv.yield (hop : s.call .yield = some s') : ∃ qs', MutexInv s' qs' := by
  unfold MutexState.call at hop
  dsimp only at hop
  split at hop
  · cases hop
  · rcases Option.map_eq_some_iff.mp hop with ⟨sched, hyield, rfl⟩
    rcases yield_spec hinv.repr hyield with ⟨qs', hrepr', hlock', hcur', hother', hrq'⟩
    exact ⟨qs', hinv.resched hrepr' (hinv.unlocked.of_lock_eq hlock') hcur'
      (hother' _ s.mutex.queue_ne_rq) (fun t ht _ => (hrq' t).mpr ht)⟩

theorem MutexInv.block {q : Nat} (hop : s.call (.block q) = some s') : ∃ qs', MutexInv s' qs' := by
  unfold MutexState.call at hop
  dsimp only at hop
  split at hop
  · cases hop
  · rename_i hmay
    rcases not_or.mp hmay with ⟨hout, hq⟩
    rcases Option.map_eq_some_iff.mp hop with ⟨sched, hsleep, rfl⟩
    rcases Option.bind_eq_some_iff.mp hsleep with ⟨sched₁, hdeq, hyield⟩
    rcases dequeue_yield_spec hinv.repr (wait_ne_rq q) hdeq hyield with
      ⟨qs', hrepr', hlock', -, hcur', -, hother', hrq'⟩
    refine ⟨qs', hinv.resched hrepr' (hinv.unlocked.of_lock_eq hlock') hcur' ?_ ?_⟩
    · exact hother' _ s.mutex.queue_ne_rq (fun h => hq (Queue.wait.inj h).symm)
    · intro t ht hin
      -- the thread that goes to sleep is not in `mutex_lock`
      have hne : t ≠ s.sched.current := by
        intro h
        rw [h] at hin
        exact hout hin
      exact (hrq' t).mpr ⟨ht, hne⟩

theorem MutexInv.wake {q : Nat} (hop : s.call (.wake q) = some s') : ∃ qs', MutexInv s' qs' := by
  unfold MutexState.call at hop
  dsimp only at hop
  split at hop
  · cases hop
  · rename_i hmay
    rcases not_or.mp hmay with ⟨-, hq⟩
    rcases Option.map_eq_some_iff.mp hop with ⟨⟨sched, moved⟩, hwake, rfl⟩
    rcases enqueue_spec hinv.repr hinv.unlocked (wait_ne_rq q) hwake with
      ⟨qs', hrepr', hlock', hcur', hrq', -, hother'⟩
    refine ⟨qs', hinv.resched hrepr' hlock' ?_ ?_ (fun t ht _ => hrq' t ht)⟩
    · rw [hcur']
      exact hrq' _ hinv.cur
    · exact hother' _ s.mutex.queue_ne_rq (fun h => hq (Queue.wait.inj h).symm)

theorem MutexInv.call {c : MutexCall} (hop : s.call c = some s') : ∃ qs', MutexInv s' qs' := by
  cases c with
  | lock => exact hinv.lock hop
  | unlock => exact hinv.unlock hop
  | yield => exact hinv.yield hop
  | block q => exact hinv.block hop
  | wake q => exact hinv.wake hop

end

end Inv

theorem mutexStart_inv {sched : SchedState} {threads : Nat} (hready : sched.Ready threads)
    (word : BitVec 32) (sleepers : Nat) :
    ∃ qs, MutexInv (MutexState.start sched word sleepers) qs := by
  rcases hready.lists with ⟨l, -, hcur, -, hrepr⟩
  have hq : (if Queue.wait sleepers = .rq then l else []) = [] := if_neg (wait_ne_rq _)
  refine ⟨_, hrepr.tqInit hq, hready.unlocked.tqInit _, ?_, Nat.zero_le 1, fun _ => rfl, ?_, ?_⟩
  · exact hcur
  · intro t ht
    cases ht
  · exact fun _ hne => absurd hq hne

/-- Mutual exclusion without lost wake-ups.  In every state that the threads
reach from a mutex that was just initialised, at most one thread holds the mutex;
`mutex_unlock` does not stop while there is a holder; and while the mutex is free
and threads sleep on it, there is a thread in the run queue that has slept on it
and has not tried again. -/
theorem mutexRun_safe {sched : SchedState} {threads : Nat} (hready : sched.Ready threads)
    (word : BitVec 32) (sleepers : Nat) {calls : List MutexCall} {s : MutexState}
    (hrun : run MutexState.call (MutexState.start sched word sleepers) calls = some s) :
    s.holders.length ≤ 1 ∧
      (s.holders ≠ [] → ∃ r, s.mutex.unlock s.sched = some r) ∧
      (s.mutex.lock ≠ 0 → (∃ t, s.sched.krunqHead t = some s.mutex.queue) →
        ∃ t, s.sched.krunqHead t = some .rq ∧ s.inLock t = true) := by
  have hinv : ∃ qs, MutexInv s qs := by
    refine run_invariant (fun s => ∃ qs, MutexInv s qs) ?_ (mutexStart_inv hready _ _) hrun
    intro s c s' h hcall
    rcases h with ⟨qs, hinv⟩
    exact hinv.call hcall
  rcases hinv with ⟨qs, hinv⟩
  refine ⟨hinv.one, ?_, ?_⟩
  · intro hne
    rcases List.exists_mem_of_ne_nil _ hne with ⟨t, ht⟩
    rcases unlock_of_zero hinv.repr hinv.unlocked (hinv.word_of_holder ht) with ⟨_, _, h, -⟩
    exact ⟨_, h⟩
  · intro hfree hsleeps
    rcases hsleeps with ⟨t, ht⟩
    rcases hinv.woken hfree (List.ne_nil_of_mem ((hinv.repr.back t _).mp ht)) with ⟨x, hx, hin⟩
    exact ⟨x, (hinv.repr.back x .rq).mpr hx, hin⟩

theorem mutexRun_safe_woken : ∃ sched s, sched.Ready 4 ∧
      run MutexState.call (MutexState.start sched 0 0)
        [.lock, .yield, .lock, .yield, .lock, .unlock] = some s ∧
      s.mutex.lock = 1 ∧ s.sched.krunqHead 3 = some s.mutex.queue ∧
      ∃ t, s.sched.krunqHead t = some .rq ∧ s.inLock t = true := by
  have hfacts : (bootSched.bind (fun sched =>
      run MutexState.call (MutexState.start sched 0 0)
        [.lock, .yield, .lock, .yield, .lock, .unlock])).map
          (fun s => (s.mutex, s.sched.krunqHead 3)) = some (⟨1, 0⟩, some (.wait 0)) := by
    decide +kernel
  rcases exists_bootRun hfacts with ⟨sched, s, hboot, hrun, heq⟩
  rcases Prod.mk.inj heq with ⟨hmutex, hasleep⟩
  have hready := bootSched_ready hboot
  have hword : s.mutex.lock = 1 := by rw [hmutex]
  have hqueue : s.sched.krunqHead 3 = some s.mutex.queue := by
    rw [hmutex]
    exact hasleep
  refine ⟨sched, s, hready, hrun, hword, hqueue, ?_⟩
  apply (mutexRun_safe hready 0 0 hrun).2.2
  · rw [hword]
    decide
  · exact ⟨3, hqueue⟩

end Koowaldah
