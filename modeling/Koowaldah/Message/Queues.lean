import Koowaldah.Message.Basic
import Koowaldah.Sched.Blocking

/-!
# The thread queues of the messages

What `msg_send` and `msg_retrieve` do to the lists of threads.  A message goes
through four queues: the run queue, `sleepers`, the queue on the stack of
`msg_send` and the `m_tq` of the message.
-/

namespace Koowaldah

open SysLib SysLib.Links

@[simp] theorem mTq_inj {a b : Nat} : mTq a = mTq b ↔ a = b := by simp [mTq]

@[simp] theorem mTq_ne_rq (a : Nat) : mTq a ≠ .rq := nofun

@[simp] theorem mTq_ne_sleepers (a : Nat) : mTq a ≠ sleepers := by simp [mTq, sleepers]

@[simp] theorem mTq_ne_wakeTq (a : Nat) : mTq a ≠ wakeTq := by simp [mTq, wakeTq]

@[simp] theorem sleepers_ne_rq : sleepers ≠ .rq := nofun

@[simp] theorem wakeTq_ne_rq : wakeTq ≠ .rq := nofun

@[simp] theorem wakeTq_ne_sleepers : wakeTq ≠ sleepers := by decide

namespace Queues

variable {qs : Queues} {t : Nat}

/-- What waking a thread does to the lists. -/
def wake (t : Nat) (qs : Queues) : Queues :=
  if t ∈ qs sleepers then
    (qs.set sleepers ((qs sleepers).erase t)).set .rq (t :: qs .rq)
  else qs

theorem wake_of_ne {q : Queue} (hrq : q ≠ .rq) (hsl : q ≠ sleepers) : qs.wake t q = qs q := by
  unfold wake
  split
  · rw [set_apply, if_neg hrq, set_apply, if_neg hsl]
  · rfl

theorem wake_sleepers : qs.wake t sleepers = (qs sleepers).erase t := by
  unfold wake
  split
  · rw [set_apply, if_neg sleepers_ne_rq, set_apply, if_pos rfl]
  · rename_i hnot
    rw [List.erase_of_not_mem hnot]

end Queues

section Specs

variable {s s' : SchedState} {qs : Queues} {threads recp : Nat}

theorem wake_spec (hinv : s.Repr qs) (htq : qs wakeTq = [])
    (hop : MsgState.wake threads recp s = some s') :
    s'.current = s.current ∧ s'.Repr (qs.wake recp) := by
  rcases Option.bind_eq_some_iff.mp hop with ⟨asleep, hfind, hrest⟩
  have hmem : asleep = true ↔ recp ∈ qs sleepers := by
    rw [klist0Find_iff (hinv.ring sleepers) hfind, List.mem_map]
    constructor
    · intro h
      rcases h with ⟨t, ht, heq⟩
      rw [← TNode.thread.inj heq]
      exact ht
    · intro h
      exact ⟨recp, h, rfl⟩
  unfold Queues.wake
  split at hrest
  · rename_i hasleep
    have hsl := hmem.mp hasleep
    rcases Option.bind_eq_some_iff.mp hrest with ⟨s₁, hlock, hrest₁⟩
    rcases Option.bind_eq_some_iff.mp hrest₁ with ⟨s₂, hrem, hrest₂⟩
    rcases Option.bind_eq_some_iff.mp hrest₂ with ⟨s₃, hunlock, hrest₃⟩
    rcases Option.bind_eq_some_iff.mp hrest₃ with ⟨s₄, hins, hrest₄⟩
    rcases Option.bind_eq_some_iff.mp hrest₄ with ⟨⟨s₅, moved⟩, henq, heq⟩
    have hinv₁ : s₁.Repr qs := by
      rw [(spinLock_eq_some.mp hlock).2]
      exact hinv.tqInit htq
    rcases rawTqRemoveThread_spec hinv₁ hrem with ⟨q, hq, h, head, hs₂, hinv₂⟩
    rw [hinv₁.queue_unique hq hsl] at hinv₂
    rw [hs₂] at hunlock
    rw [spinUnlock_relink hlock hunlock] at hins
    rcases lockedInsert_spec puts_append (SchedState.Repr.of_relink hinv₂) hins with
      ⟨-, h', head', hs₄, hinv₄⟩
    rw [hs₄] at henq
    rcases sched0Enqueue_spec (SchedState.Repr.of_relink hinv₄) henq with ⟨hcur, -, hinv₅⟩
    rw [if_pos hsl, ← Option.some.inj heq]
    refine ⟨hcur, ?_⟩
    have hlists : ∀ qs₂ : Queues, qs₂ wakeTq = [] →
        (qs₂.set wakeTq (putHead recp (qs₂ wakeTq))).move takeHead putHead wakeTq .rq =
          qs₂.set .rq (recp :: qs₂ .rq) := by
      intro qs₂ hempty
      rw [hempty]
      show ((qs₂.set wakeTq [recp]).set wakeTq []).set .rq _ = _
      rw [Queues.set_set, ← hempty, Queues.set_self]
      rfl
    rw [hlists _ (by rw [Queues.set_apply, if_neg wakeTq_ne_sleepers, htq])] at hinv₅
    exact hinv₅
  · rename_i hawake
    rw [if_neg (fun h => hawake (hmem.mpr h)), ← Option.some.inj hrest]
    exact ⟨rfl, hinv⟩

theorem post_spec (hinv : s.Repr qs) (htq : qs wakeTq = []) {m : Message}
    (hm : qs (mTq m.addr) = []) {s₁ s₂ : SchedState}
    (hwake : MsgState.wake threads recp (s.tqInit (mTq m.addr)) = some s₁)
    (hblock : MsgState.blockSender m s₁ = some s₂) (hyield : s₂.sched0Yield = some s') :
    ∃ qs', s'.Repr qs' ∧ s'.current ∈ qs' .rq ∧
      qs' (mTq m.addr) = (if m.blocks then [s.current] else []) ∧
      qs' sleepers = (qs sleepers).erase recp ∧
      ∀ p, p ≠ .rq → p ≠ sleepers → p ≠ mTq m.addr → qs' p = qs p := by
  rcases wake_spec (hinv.tqInit hm) htq hwake with ⟨hcur₁, hinv₁⟩
  have htq₁ : qs.wake recp (mTq m.addr) = [] := by
    rw [Queues.wake_of_ne (mTq_ne_rq _) (mTq_ne_sleepers _), hm]
  unfold MsgState.blockSender at hblock
  cases hb : m.blocks with
  | true =>
    rw [hb] at hblock
    rcases dequeue_yield_spec hinv₁ (mTq_ne_rq m.addr) hblock hyield with
      ⟨qs', hinv', -, -, hcur', hq', hother, -⟩
    refine ⟨qs', hinv', hcur', ?_, ?_, ?_⟩
    · rw [hq', htq₁, hcur₁]
      rfl
    · rw [hother _ sleepers_ne_rq (mTq_ne_sleepers _).symm, Queues.wake_sleepers]
    · intro p hrq hsl hpm
      rw [hother p hrq hpm, Queues.wake_of_ne hrq hsl]
  | false =>
    rw [hb] at hblock
    obtain rfl : s₁ = s₂ := Option.some.inj hblock
    rcases yield_spec hinv₁ hyield with ⟨qs', hinv', -, hcur', hother, -⟩
    refine ⟨qs', hinv', hcur', ?_, ?_, ?_⟩
    · rw [hother _ (mTq_ne_rq _), htq₁]
      rfl
    · rw [hother _ sleepers_ne_rq, Queues.wake_sleepers]
    · intro p hrq hsl _
      rw [hother p hrq, Queues.wake_of_ne hrq hsl]

theorem releaseSender_spec (hinv : s.Repr qs) {m : Message} {x : Nat}
    (hm : qs (mTq m.addr) = if m.blocks then [x] else [])
    (hop : MsgState.releaseSender m s = some s') :
    ∃ qs', s'.Repr qs' ∧ s'.current = s.current ∧ qs' (mTq m.addr) = [] ∧
      (∀ t, t ∈ qs' .rq ↔ (m.blocks = true ∧ t = x) ∨ t ∈ qs .rq) ∧
      ∀ p, p ≠ .rq → p ≠ mTq m.addr → qs' p = qs p := by
  unfold MsgState.releaseSender at hop
  cases hb : m.blocks with
  | false =>
    rw [hb] at hop hm
    cases hop
    exact ⟨qs, hinv, rfl, hm, fun t => (or_iff_right (fun h => Bool.false_ne_true h.1)).symm,
      fun _ _ _ => rfl⟩
  | true =>
    rw [hb] at hm
    have hempty : klist0Empty (.queue (mTq m.addr)) s.links = false := by
      rw [← Bool.not_eq_true, klist0Empty_iff (hinv.ring _), hm]
      exact nofun
    rw [if_pos ⟨hb, hempty⟩] at hop
    rcases Option.map_eq_some_iff.mp hop with ⟨⟨s₁, moved⟩, henq, rfl⟩
    rcases sched0Enqueue_spec hinv henq with ⟨hcur, -, hinv'⟩
    have hlists : qs.move takeHead putHead (mTq m.addr) .rq =
        (qs.set (mTq m.addr) []).set .rq (x :: qs .rq) := by
      unfold Queues.move
      rw [hm]
      show (qs.set (mTq m.addr) []).set .rq (putHead x (qs.set (mTq m.addr) [] .rq)) = _
      rfl
    rw [hlists] at hinv'
    refine ⟨_, hinv', hcur, ?_, ?_, ?_⟩
    · rw [Queues.set_apply, if_neg (mTq_ne_rq _), Queues.set_apply, if_pos rfl]
    · intro t
      rw [Queues.set_apply, if_pos rfl, List.mem_cons, eq_self_iff_true, true_and]
    · intro p hrq hpm
      rw [Queues.set_apply, if_neg hrq, Queues.set_apply, if_neg hpm]

end Specs

end Koowaldah
