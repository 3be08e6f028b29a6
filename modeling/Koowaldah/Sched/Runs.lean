import Koowaldah.Lib.Run
import Koowaldah.Sched.Queues

/-!
# Runs of thread queue calls

Every state that calls reach represents lists (`schedRun_repr`), so what is
true of the lists is true of the pointers.  The list operations that move
threads keep every thread queued that was queued, and queue no other
(`Queues.queued_call`); and `sched0_yield` switches to the thread it has moved
to the tail of the run queue.
-/

namespace Koowaldah

open SysLib SysLib.Links

/-! ## Conservation on lists -/

namespace Queues

variable {qs : Queues} {q : Queue} {t x : Nat}

@[simp] theorem set_set (l l' : List Nat) : (qs.set q l).set q l' = qs.set q l' :=
  Function.update_idem ..

@[simp] theorem set_self : qs.set q (qs q) = qs := Function.update_eq_self ..

theorem queued_set {l : List Nat} (hperm : l.Perm (x :: qs q)) :
    (qs.set q l).Queued t ↔ t = x ∨ qs.Queued t := by
  constructor
  · intro hmem
    rcases hmem with ⟨p, hp⟩
    rw [set_apply] at hp
    split at hp
    · rcases List.mem_cons.mp (hperm.mem_iff.mp hp) with heq | hq
      · exact Or.inl heq
      · exact Or.inr ⟨q, hq⟩
    · exact Or.inr ⟨p, hp⟩
  · intro hor
    rcases hor with heq | ⟨p, hp⟩
    · refine ⟨q, ?_⟩
      rw [set_apply, if_pos rfl, heq]
      exact hperm.mem_iff.mpr List.mem_cons_self
    · refine ⟨p, ?_⟩
      rw [set_apply]
      split
      · rename_i hpq
        rw [hpq] at hp
        exact hperm.mem_iff.mpr (List.mem_cons_of_mem x hp)
      · exact hp

theorem queued_of_set {rest : List Nat} (hperm : (qs q).Perm (x :: rest)) :
    qs.Queued t ↔ t = x ∨ (qs.set q rest).Queued t := by
  have hback : (qs q).Perm (x :: (qs.set q rest) q) := by
    rw [set_apply, if_pos rfl]
    exact hperm
  rw [← queued_set hback, set_set, set_self]

theorem queued_rotate (qs : Queues) (t : Nat) : qs.rotate.Queued t ↔ qs.Queued t := by
  unfold rotate
  cases hrq : qs .rq with
  | nil => exact Iff.rfl
  | cons y rest =>
    have hout : (qs .rq).Perm (y :: rest) := by rw [hrq]
    have hin : (rest ++ [y]).Perm (y :: (qs.set .rq rest) .rq) := by
      exact List.perm_append_singleton y rest
    rw [queued_of_set hout, ← queued_set hin, set_set]

end Queues

/-- What is taken from a list is a permutation away from it. -/
def TakesOne (take : List Nat → Option (Nat × List Nat)) : Prop :=
  ∀ l t rest, take l = some (t, rest) → l.Perm (t :: rest)

theorem takesOne_takeHead : TakesOne takeHead := by
  intro l t rest h
  cases l with
  | nil => exact nomatch h
  | cons x l =>
    cases h
    exact List.Perm.refl _

theorem takesOne_takeTail : TakesOne takeTail := by
  intro l t rest h
  rcases Option.map_eq_some_iff.mp h with ⟨x, hlast, heq⟩
  rcases Prod.mk.inj heq with ⟨rfl, rfl⟩
  have hperm := List.perm_append_singleton x l.dropLast
  rw [List.dropLast_append_getLast? x hlast] at hperm
  exact hperm

/-- What is put into a list is a permutation away from it. -/
def PutsOne (put : Nat → List Nat → List Nat) : Prop := ∀ t l, (put t l).Perm (t :: l)

theorem putsOne_putHead : PutsOne putHead := fun _ _ => List.Perm.refl _

theorem putsOne_putTail : PutsOne putTail := List.perm_append_singleton

namespace Queues

variable {qs : Queues} {t : Nat}

theorem queued_move {take : List Nat → Option (Nat × List Nat)} {put : Nat → List Nat → List Nat}
    (htake : TakesOne take) (hput : PutsOne put) (f g : Queue) :
    (qs.move take put f g).Queued t ↔ qs.Queued t := by
  unfold move
  cases htk : take (qs f) with
  | none => exact Iff.rfl
  | some p =>
    rcases p with ⟨x, rest⟩
    rw [queued_of_set (htake _ x rest htk)]
    exact queued_set (hput x _)

theorem queued_call {cur : Nat} {e : Bool} {c : SchedCall} (hmove : c.isMove = true)
    (hcur : ∀ g, c = .dequeue g → cur ∈ qs .rq) : (qs.call cur e c).Queued t ↔ qs.Queued t := by
  cases c with
  | insertHead _ _ | insertTail _ _ | removeHead _ | removeTail _ => exact nomatch hmove
  | transferHeadToHead f g => exact queued_move takesOne_takeHead putsOne_putHead f g
  | transferHeadToTail f g => exact queued_move takesOne_takeHead putsOne_putTail f g
  | transferTailToHead f g => exact queued_move takesOne_takeTail putsOne_putHead f g
  | transferTailToTail f g => exact queued_move takesOne_takeTail putsOne_putTail f g
  | enqueue f => exact queued_move takesOne_takeHead putsOne_putHead f .rq
  | dequeue g =>
    have hout := List.perm_cons_erase (hcur g rfl)
    have hin := queued_set (t := t) (putsOne_putTail cur
      ((qs.set .rq ((qs .rq).erase cur)).rotate g))
    rw [queued_of_set hout, ← queued_rotate (qs.set .rq _)]
    exact hin
  | tick =>
    cases e with
    | false => exact Iff.rfl
    | true => exact queued_rotate qs t
  | yield => exact queued_rotate qs t
  | irqReturn | clock => exact Iff.rfl

end Queues

/-! ## Every state that calls reach -/

theorem schedStart_repr (current : Nat) (quantum lastTick : Nat → Nat) (jiffies : Nat) :
    (schedStart current quantum lastTick jiffies).Repr (fun _ => []) where
  ring _ := isRing_nil_iff.mpr ⟨rfl, rfl⟩
  back _ _ := iff_of_false nofun List.not_mem_nil
  alone _ _ := isRing_nil_iff.mpr ⟨rfl, rfl⟩

theorem schedRun_repr {current : Nat} {quantum lastTick : Nat → Nat} {jiffies : Nat}
    {calls : List SchedCall} {s : SchedState}
    (hrun : run SchedState.call (schedStart current quantum lastTick jiffies) calls = some s) :
    ∃ qs, s.Repr qs := by
  refine run_invariant (fun s => ∃ qs, s.Repr qs) ?_
    ⟨_, schedStart_repr current quantum lastTick jiffies⟩ hrun
  intro s c s' hinv hcall
  rcases hinv with ⟨qs, hqs⟩
  exact ⟨_, hqs.call hcall⟩

theorem insertTails_repr {s s' : SchedState} {qs : Queues} (hqs : s.Repr qs) {ts : List Nat}
    (hrun : run SchedState.call s (ts.map (fun t => .insertTail t .rq)) = some s') :
    s'.current = s.current ∧ s'.lock = s.lock ∧ s'.Repr (qs.set .rq (qs .rq ++ ts)) := by
  induction ts generalizing s qs with
  | nil =>
    rw [List.map_nil, run_nil, Option.some.injEq] at hrun
    rw [List.append_nil, Queues.set_self, ← hrun]
    exact ⟨rfl, rfl, hqs⟩
  | cons t ts ih =>
    rcases run_cons_eq_some.mp hrun with ⟨s₁, hcall, hrest⟩
    rcases lockedInsert_spec puts_prepend hqs hcall with ⟨-, h, head, hs₁, hinv⟩
    rw [hs₁] at hrest
    rcases ih (SchedState.Repr.of_relink hinv) hrest with ⟨hcur, hlock, hrepr⟩
    refine ⟨hcur, hlock, ?_⟩
    rw [Queues.set_set, Queues.set_apply, if_pos rfl] at hrepr
    unfold putTail at hrepr
    rw [List.append_assoc] at hrepr
    exact hrepr

/-- A thread is linked in a queue: a walk along the list from the head of the
queue meets its node. -/
def SchedState.LinkedIn (s : SchedState) (t : Nat) (q : Queue) : Prop :=
  s.links.Reaches (.queue q) (.thread t)

section Linked

variable {s s' : SchedState} {qs : Queues}

section

variable (hqs : s.Repr qs)

include hqs

theorem SchedState.Repr.linkedIn_iff (t : Nat) (q : Queue) : s.LinkedIn t q ↔ t ∈ qs q := by
  unfold SchedState.LinkedIn
  rw [(hqs.ring q).reaches_iff, List.mem_cons, List.mem_map]
  constructor
  · intro hmem
    rcases hmem with heq | ⟨t', ht', heq⟩
    · exact TNode.noConfusion heq
    · rw [← TNode.thread.inj heq]
      exact ht'
  · intro hmem
    exact Or.inr ⟨t, hmem, rfl⟩

theorem SchedState.Repr.queued_iff (t : Nat) : (∃ q, s.LinkedIn t q) ↔ qs.Queued t :=
  exists_congr (hqs.linkedIn_iff t)

theorem SchedState.Repr.head_iff (t : Nat) (q : Queue) :
    s.krunqHead t = some q ↔ s.LinkedIn t q := by
  rw [hqs.linkedIn_iff]
  exact hqs.back t q

theorem SchedState.Repr.queued_call {c : SchedCall} (hmove : c.isMove = true)
    (hcall : s.call c = some s') (t : Nat) : (∃ q, s'.LinkedIn t q) ↔ (∃ q, s.LinkedIn t q) := by
  rw [(hqs.call hcall).queued_iff, hqs.queued_iff]
  refine Queues.queued_call hmove ?_
  intro g hc
  rw [hc] at hcall
  exact (sched0Dequeue_spec hqs hcall false).1

theorem SchedState.Repr.tail_yield (hcall : s.sched0Yield = some s') :
    s'.links.prev (.queue .rq) = .thread s'.current := by
  rcases sched0Yield_spec hqs hcall with ⟨-, hqs', rest, hrq⟩
  have hring := hqs'.ring .rq
  unfold Queues.rotate at hring
  rw [hrq] at hring
  rw [hring.prev_head]
  simp

end

end Linked

/-- Thread queues conserve threads.  In every state that calls reach, a thread is
linked in at most one queue, its back pointer is that queue, or `NULL` when
there is none; and from there no call that moves threads between queues loses or
duplicates one, and `sched0_yield` switches to the tail of the run queue. -/
theorem schedRun_conserves {current : Nat} {quantum lastTick : Nat → Nat} {jiffies : Nat}
    {calls : List SchedCall} {s : SchedState}
    (hrun : run SchedState.call (schedStart current quantum lastTick jiffies) calls = some s) :
    (∀ t p q, s.LinkedIn t p → s.LinkedIn t q → p = q) ∧
      (∀ t q, s.krunqHead t = some q ↔ s.LinkedIn t q) ∧
      (∀ t, s.krunqHead t = none ↔ ∀ q, ¬ s.LinkedIn t q) ∧
      (∀ c s', s.call c = some s' → c.isMove = true →
        ∀ t, (∃ q, s'.LinkedIn t q) ↔ (∃ q, s.LinkedIn t q)) ∧
      ∀ s', s.call .yield = some s' → s'.links.prev (.queue .rq) = .thread s'.current := by
  rcases schedRun_repr hrun with ⟨qs, hqs⟩
  refine ⟨?_, hqs.head_iff, ?_, ?_, ?_⟩
  · intro t p q hp hq
    have hhead := (hqs.head_iff t p).mpr hp
    rw [(hqs.head_iff t q).mpr hq] at hhead
    exact (Option.some.inj hhead).symm
  · intro t
    rw [Option.eq_none_iff_forall_ne_some]
    exact forall_congr' (fun q => not_congr (hqs.head_iff t q))
  · intro c s' hcall hmove t
    exact hqs.queued_call hmove hcall t
  · intro s' hcall
    exact hqs.tail_yield hcall

theorem schedRun_conserves_wake : ∃ s,
    run SchedState.call (schedStart 1 (fun _ => 5) (fun _ => 0) 0)
      [.insertTail 1 .rq, .insertTail 2 .rq, .dequeue (.wait 7), .yield, .tick,
        .enqueue (.wait 7)] = some s ∧
      s.krunqHead 1 = some .rq ∧ s.LinkedIn 1 .rq ∧ ¬ s.LinkedIn 1 (.wait 7) := by
  have hsome : (run SchedState.call (schedStart 1 (fun _ => 5) (fun _ => 0) 0)
      [.insertTail 1 .rq, .insertTail 2 .rq, .dequeue (.wait 7), .yield, .tick,
        .enqueue (.wait 7)]).map (fun s => s.krunqHead 1) = some (some .rq) := by decide
  rcases Option.map_eq_some_iff.mp hsome with ⟨s, hrun, hhead⟩
  rcases schedRun_conserves hrun with ⟨hone, hback, -⟩
  have hlinked := (hback 1 .rq).mp hhead
  refine ⟨s, hrun, hhead, hlinked, ?_⟩
  intro hwait
  exact Queue.noConfusion (hone 1 .rq (.wait 7) hlinked hwait)

end Koowaldah
