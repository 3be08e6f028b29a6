import Koowaldah.Sched.Basic

/-!
# Thread queues as lists

The abstract side of the thread queues: every queue is a list of threads, the
head first, and the operations are list operations.  `QueueInv` relates the
links and the back pointers to the lists, and every operation of the model
refines its list operation (`SchedState.Repr.call`).
-/

namespace Koowaldah

open Function SysLib SysLib.Links

/-- The threads of every queue, the head first. -/
abbrev Queues := Queue → List Nat

namespace Queues

def set (qs : Queues) (q : Queue) (l : List Nat) : Queues := Function.update qs q l

@[simp] theorem set_apply (qs : Queues) (q : Queue) (l : List Nat) (p : Queue) :
    qs.set q l p = if p = q then l else qs p :=
  update_apply ..

def Queued (qs : Queues) (t : Nat) : Prop := ∃ q, t ∈ qs q

def move (take : List Nat → Option (Nat × List Nat)) (put : Nat → List Nat → List Nat)
    (f t : Queue) (qs : Queues) : Queues :=
  match take (qs f) with
  | none => qs
  | some (x, rest) => (qs.set f rest).set t (put x (qs.set f rest t))

def rotate (qs : Queues) : Queues :=
  match qs .rq with
  | [] => qs
  | t :: rest => qs.set .rq (rest ++ [t])

end Queues

def takeHead : List Nat → Option (Nat × List Nat)
  | [] => none
  | x :: l => some (x, l)

def takeTail (l : List Nat) : Option (Nat × List Nat) :=
  l.getLast?.map (fun x => (x, l.dropLast))

def putHead (t : Nat) (l : List Nat) : List Nat := t :: l

def putTail (t : Nat) (l : List Nat) : List Nat := l ++ [t]

/-- What a call does to the lists.  `cur` is the current thread, and `expires`
says whether a tick ends its quantum. -/
def Queues.call (cur : Nat) (expires : Bool) (qs : Queues) : SchedCall → Queues
  | .insertHead t q => qs.set q (putHead t (qs q))
  | .insertTail t q => qs.set q (putTail t (qs q))
  | .removeHead q => qs.set q (qs q).tail
  | .removeTail q => qs.set q (qs q).dropLast
  | .transferHeadToHead f t => qs.move takeHead putHead f t
  | .transferHeadToTail f t => qs.move takeHead putTail f t
  | .transferTailToHead f t => qs.move takeTail putHead f t
  | .transferTailToTail f t => qs.move takeTail putTail f t
  | .enqueue f => qs.move takeHead putHead f .rq
  | .dequeue t =>
    let qs := (qs.set .rq ((qs .rq).erase cur)).rotate
    qs.set t (putTail cur (qs t))
  | .tick => if expires then qs.rotate else qs
  | .yield => qs.rotate
  | .irqReturn => qs
  | .clock => qs

/-! ## The relation -/

/-- The links and the back pointers represent the lists: every queue is a ring
of the threads on its list, a back pointer names the queue whose list the
thread is on, and a thread on no list is linked to itself. -/
structure QueueInv (h : Links TNode) (head : Nat → Option Queue) (qs : Queues) : Prop where
  ring : ∀ q, h.IsRing (.queue q) ((qs q).map .thread)
  back : ∀ t q, head t = some q ↔ t ∈ qs q
  alone : ∀ t, head t = none → h.IsRing (.thread t) []

section Links

variable {h : Links TNode} {head : Nat → Option Queue} {qs : Queues} {t : Nat} {q : Queue}

section

variable (hinv : QueueInv h head qs)

include hinv

theorem QueueInv.nodup (q : Queue) : (qs q).Nodup :=
  List.Nodup.of_map _ (List.nodup_cons.mp (hinv.ring q).1).2

theorem QueueInv.disjoint {p : Queue} (hne : p ≠ q) :
    ∀ x ∈ TNode.queue p :: (qs p).map .thread, x ∉ TNode.queue q :: (qs q).map .thread := by
  intro x hp hq
  rcases List.mem_cons.mp hp with rfl | hp
  · rcases List.mem_cons.mp hq with heq | hq
    · exact hne (TNode.queue.inj heq)
    · rcases List.mem_map.mp hq with ⟨_, _, heq⟩
      exact TNode.noConfusion heq
  · rcases List.mem_map.mp hp with ⟨t, ht, rfl⟩
    rcases List.mem_cons.mp hq with heq | hq
    · exact TNode.noConfusion heq
    · rcases List.mem_map.mp hq with ⟨t', ht', heq⟩
      rw [TNode.thread.inj heq] at ht'
      have h1 := (hinv.back t p).mpr ht
      rw [(hinv.back t q).mpr ht'] at h1
      exact hne (Option.some.inj h1).symm

theorem QueueInv.not_mem (ht : head t = none) (p : Queue) :
    TNode.thread t ∉ TNode.queue p :: (qs p).map .thread := by
  intro hmem
  rcases List.mem_cons.mp hmem with heq | hmem
  · exact TNode.noConfusion heq
  · rcases List.mem_map.mp hmem with ⟨t', ht', heq⟩
    rw [TNode.thread.inj heq] at ht'
    have hsome := (hinv.back t p).mpr ht'
    rw [ht] at hsome
    cases hsome

theorem QueueInv.head_of_empty (hempty : klist0Empty (.thread t) h = true) : head t = none := by
  cases hhead : head t with
  | none => rfl
  | some p =>
    have hmem : TNode.thread t ∈ (qs p).map .thread :=
      List.mem_map.mpr ⟨t, (hinv.back t p).mp hhead, rfl⟩
    exact absurd (of_decide_eq_true hempty) ((hinv.ring p).next_ne_self hmem)

end

/-- What a link operation has to do to its own ring and to the others, so that
it represents putting a thread into a list. -/
theorem QueueInv.link {h' : Links TNode} {l : List Nat} (hinv : QueueInv h head qs)
    (ht : head t = none) (hl : l.Perm (t :: qs q)) (hring : h'.IsRing (.queue q) (l.map .thread))
    (hother : ∀ d ys, h.IsRing d ys → TNode.thread t ∉ d :: ys →
      (∀ x ∈ TNode.queue q :: (qs q).map .thread, x ∉ d :: ys) → h'.IsRing d ys) :
    QueueInv h' (Function.update head t (some q)) (qs.set q l) := by
  refine ⟨?_, ?_, ?_⟩
  · intro p
    by_cases hp : p = q
    · rw [hp, Queues.set_apply, if_pos rfl]
      exact hring
    · rw [Queues.set_apply, if_neg hp]
      exact hother _ _ (hinv.ring p) (hinv.not_mem ht p) (hinv.disjoint (fun h => hp h.symm))
  · intro t' p
    rw [update_apply, Queues.set_apply]
    by_cases ht' : t' = t
    · rw [if_pos ht', ht']
      by_cases hp : p = q
      · rw [if_pos hp, hp]
        exact iff_of_true rfl (hl.mem_iff.mpr List.mem_cons_self)
      · rw [if_neg hp]
        refine iff_of_false (fun h => hp (Option.some.inj h).symm) ?_
        rw [← hinv.back, ht]
        exact nofun
    · rw [if_neg ht', hinv.back]
      by_cases hp : p = q
      · rw [if_pos hp, hp, hl.mem_iff, List.mem_cons, or_iff_right ht']
      · rw [if_neg hp]
  · intro t' hnone
    rw [update_apply] at hnone
    by_cases ht' : t' = t
    · rw [if_pos ht'] at hnone
      cases hnone
    · rw [if_neg ht'] at hnone
      refine hother _ _ (hinv.alone t' hnone) ?_ ?_
      · intro hmem
        exact ht' (TNode.thread.inj (List.mem_singleton.mp hmem)).symm
      · intro x hx hmem
        rw [List.mem_singleton.mp hmem] at hx
        exact hinv.not_mem hnone q hx

theorem QueueInv.linkHead (hinv : QueueInv h head qs) (ht : head t = none) :
    QueueInv (klist0Append (.thread t) (.queue q) h) (Function.update head t (some q))
      (qs.set q (putHead t (qs q))) := by
  refine hinv.link ht (List.Perm.refl _) ?_ ?_
  · exact klist0Append_isRing (hinv.ring q) (hinv.not_mem ht q)
  · intro d ys hd hn hdisj
    exact klist0Append_frame (hinv.ring q) hd hn hdisj

theorem QueueInv.linkTail (hinv : QueueInv h head qs) (ht : head t = none) :
    QueueInv (klist0Prepend (.thread t) (.queue q) h) (Function.update head t (some q))
      (qs.set q (putTail t (qs q))) := by
  refine hinv.link ht (List.perm_append_singleton t (qs q)) ?_ ?_
  · unfold putTail
    rw [List.map_append]
    exact klist0Prepend_isRing (hinv.ring q) (hinv.not_mem ht q)
  · intro d ys hd hn hdisj
    exact klist0Prepend_frame (hinv.ring q) hd hn hdisj

theorem QueueInv.unlink (hinv : QueueInv h head qs) (ht : head t = some q) :
    QueueInv (klist0Unlink (.thread t) h) (Function.update head t none)
      (qs.set q ((qs q).erase t)) := by
  have hmem := (hinv.back t q).mp ht
  rcases List.append_of_mem hmem with ⟨as, bs, hsplit⟩
  have hnodup := hinv.nodup q
  have hring := hinv.ring q
  have herase : (qs q).erase t = as ++ bs := by
    rw [hsplit] at hnodup ⊢
    have hnot : t ∉ as := fun has =>
      (List.nodup_append.mp hnodup).2.2 t has t List.mem_cons_self rfl
    rw [List.erase_append_right _ hnot, List.erase_cons_head]
  rw [hsplit, List.map_append] at hring
  refine ⟨?_, ?_, ?_⟩
  · intro p
    by_cases hp : p = q
    · rw [hp, Queues.set_apply, if_pos rfl, herase, List.map_append]
      exact klist0Unlink_isRing hring
    · rw [Queues.set_apply, if_neg hp]
      refine klist0Unlink_frame hring (hinv.ring p) ?_
      have hdisj := hinv.disjoint (q := p) (p := q) (fun h => hp h.symm)
      rw [hsplit, List.map_append] at hdisj
      exact hdisj
  · intro t' p
    rw [update_apply, Queues.set_apply]
    by_cases ht' : t' = t
    · rw [if_pos ht', ht']
      refine iff_of_false nofun ?_
      by_cases hp : p = q
      · rw [if_pos hp]
        exact hnodup.not_mem_erase
      · rw [if_neg hp, ← hinv.back, ht]
        exact fun h => hp (Option.some.inj h).symm
    · rw [if_neg ht', hinv.back]
      by_cases hp : p = q
      · rw [if_pos hp, hp, List.mem_erase_of_ne ht']
      · rw [if_neg hp]
  · intro t' hnone
    rw [update_apply] at hnone
    by_cases ht' : t' = t
    · rw [ht']
      exact klist0Unlink_isRing_self _ _
    · rw [if_neg ht'] at hnone
      refine klist0Unlink_frame hring (hinv.alone t' hnone) ?_
      intro x hx hx'
      rw [List.mem_singleton.mp hx', ← List.map_cons, ← List.map_append, ← hsplit] at hx
      exact hinv.not_mem hnone q hx

end Links

/-! ## Operations -/

/-- The links and the back pointers of a state represent the lists. -/
def SchedState.Repr (s : SchedState) (qs : Queues) : Prop := QueueInv s.links s.krunqHead qs

/-- A link operation that puts threads into lists as `put` does. -/
def Puts (link : TNode → TNode → Links TNode → Links TNode) (put : Nat → List Nat → List Nat) :
    Prop :=
  ∀ {h : Links TNode} {head : Nat → Option Queue} {qs : Queues} {t : Nat} {q : Queue},
    QueueInv h head qs → head t = none →
    QueueInv (link (.thread t) (.queue q) h) (Function.update head t (some q))
      (qs.set q (put t (qs q)))

theorem puts_append : Puts klist0Append putHead := fun hinv ht => hinv.linkHead ht

theorem puts_prepend : Puts klist0Prepend putTail := fun hinv ht => hinv.linkTail ht

/-- An end of the list that is looked at as `take` does. -/
def Takes (pick : Links TNode → TNode → TNode) (take : List Nat → Option (Nat × List Nat)) :
    Prop :=
  take [] = none ∧
    ∀ {h : Links TNode} {head : Nat → Option Queue} {qs : Queues} {q : Queue},
      QueueInv h head qs → qs q ≠ [] →
      ∃ t, pick h (.queue q) = .thread t ∧ t ∈ qs q ∧ take (qs q) = some (t, (qs q).erase t)

theorem takes_next : Takes Links.next takeHead := by
  refine ⟨rfl, ?_⟩
  intro h head qs q hinv hne
  rcases List.exists_cons_of_ne_nil hne with ⟨t, rest, hqs⟩
  have hring := hinv.ring q
  rw [hqs] at hring
  refine ⟨t, hring.next_head, ?_, ?_⟩
  · rw [hqs]
    exact List.mem_cons_self
  · rw [hqs, List.erase_cons_head]
    rfl

theorem takes_prev : Takes Links.prev takeTail := by
  refine ⟨rfl, ?_⟩
  intro h head qs q hinv hne
  rcases List.eq_nil_or_concat (qs q) with hnil | ⟨rest, t, hqs⟩
  · exact absurd hnil hne
  · rw [List.concat_eq_append] at hqs
    have hring := hinv.ring q
    have hnodup := hinv.nodup q
    rw [hqs, List.map_append] at hring
    rw [hqs] at hnodup
    have hnot : t ∉ rest := fun hmem =>
      (List.nodup_append.mp hnodup).2.2 t hmem t (List.mem_singleton_self t) rfl
    refine ⟨t, ?_, ?_, ?_⟩
    · rw [hring.prev_head]
      exact before_concat _ _ _
    · rw [hqs]
      exact List.mem_append_right _ (List.mem_singleton_self t)
    · rw [hqs, List.erase_append_right _ hnot, List.erase_cons_head, List.append_nil]
      unfold takeTail
      rw [List.getLast?_concat, List.dropLast_concat]
      rfl

section Ops

variable {s s' : SchedState} {qs : Queues} {t : Nat} {q : Queue}

variable {link : TNode → TNode → Links TNode → Links TNode} {put : Nat → List Nat → List Nat}
  {pick : Links TNode → TNode → TNode} {take : List Nat → Option (Nat × List Nat)} {r : Option Nat}

/-- What the links and the back pointers of a state are replaced by, and no
other field is. -/
def SchedState.relink (s : SchedState) (h : Links TNode) (head : Nat → Option Queue) :
    SchedState :=
  { s with links := h, krunqHead := head }

theorem SchedState.Repr.of_relink {h : Links TNode} {head : Nat → Option Queue}
    (hinv : QueueInv h head qs) : (s.relink h head).Repr qs := hinv

theorem SchedState.Repr.tqInit (hinv : s.Repr qs) (hq : qs q = []) : (s.tqInit q).Repr qs := by
  have hring := hinv.ring q
  rw [hq] at hring
  unfold SchedState.Repr SchedState.tqInit
  rw [klist0Init_of_isRing_nil hring]
  exact hinv

theorem spinLock_eq_some : s.spinLock q = some s' ↔
      s.lock q = 0 ∧ s' = { s with lock := Function.update s.lock q 1 } := by
  unfold SchedState.spinLock
  by_cases h0 : s.lock q = 0
  · rw [if_neg (not_not.mpr h0), h0, Option.some.injEq]
    exact ⟨fun h => ⟨rfl, h.symm⟩, fun h => h.2.symm⟩
  · rw [if_pos h0]
    exact iff_of_false nofun (fun h => h0 h.1)

theorem spinUnlock_relink {s₁ : SchedState} {h : Links TNode} {head : Nat → Option Queue}
    (hlock : s.spinLock q = some s₁) (hunlock : (s₁.relink h head).spinUnlock q = some s') :
    s' = s.relink h head := by
  rcases spinLock_eq_some.mp hlock with ⟨h0, rfl⟩
  unfold SchedState.spinUnlock SchedState.relink at hunlock
  simp only [update_self, update_idem] at hunlock
  rw [Nat.sub_self] at hunlock
  rw [← Option.some.inj hunlock, ← h0, update_eq_self]
  rfl

theorem rawTqInsert_spec (hput : Puts link put) (hinv : s.Repr qs)
    (hop : s.rawTqInsert link t q = some s') : s.lock q = 1 ∧ s.krunqHead t = none ∧
      ∃ h head, s' = s.relink h head ∧ QueueInv h head (qs.set q (put t (qs q))) := by
  unfold SchedState.rawTqInsert at hop
  split at hop
  · simp at hop
  · rename_i hempty
    have ht := hinv.head_of_empty (Bool.not_eq_false _ ▸ hempty)
    rcases Option.bind_eq_some_iff.mp hop with ⟨⟨s₁, got⟩, htry, hset⟩
    unfold SchedState.spinTrylock at htry
    split at htry
    · simp at htry
    · split at htry
      · rw [Option.some.injEq, Prod.mk.injEq] at htry
        rw [← htry.1, ← htry.2] at hset
        refine ⟨by omega, ht, _, _, (Option.some.inj hset).symm, hput hinv ht⟩
      · rw [Option.some.injEq, Prod.mk.injEq] at htry
        rw [← htry.2] at hset
        simp at hset

theorem lockedInsert_spec (hput : Puts link put) (hinv : s.Repr qs)
    (hop : s.lockedInsert (SchedState.rawTqInsert link) t q = some s') : s.krunqHead t = none ∧
      ∃ h head, s' = s.relink h head ∧ QueueInv h head (qs.set q (put t (qs q))) := by
  rcases Option.bind_eq_some_iff.mp hop with ⟨s₂, hins, hunlock⟩
  rcases Option.bind_eq_some_iff.mp hins with ⟨s₁, hlock, hraw⟩
  have hs₁ := (spinLock_eq_some.mp hlock).2
  have hinv₁ : s₁.Repr qs := by
    rw [hs₁]
    exact hinv
  rcases rawTqInsert_spec hput hinv₁ hraw with ⟨-, ht, h, head, hs₂, hinv'⟩
  rw [hs₂] at hunlock
  rw [hs₁] at ht
  exact ⟨ht, h, head, spinUnlock_relink hlock hunlock, hinv'⟩

theorem rawTqRemoveThread_spec (hinv : s.Repr qs) (hop : s.rawTqRemoveThread t = some s') :
    ∃ q, t ∈ qs q ∧
      ∃ h head, s' = s.relink h head ∧ QueueInv h head (qs.set q ((qs q).erase t)) := by
  unfold SchedState.rawTqRemoveThread at hop
  cases hback : s.krunqHead t with
  | none =>
    rw [if_pos hback] at hop
    cases hop
  | some q =>
    rw [if_neg (by rw [hback]; exact nofun)] at hop
    split at hop
    · cases hop
    · cases hop
      exact ⟨q, (hinv.back t q).mp hback, _, _, rfl, hinv.unlink hback⟩

theorem SchedState.Repr.queue_unique (hinv : s.Repr qs) {p : Queue} (hp : t ∈ qs p)
    (hq : t ∈ qs q) : p = q := by
  have hback := (hinv.back t p).mpr hp
  rw [(hinv.back t q).mpr hq] at hback
  exact (Option.some.inj hback).symm

section

variable (htake : Takes pick take)

include htake

theorem rawTqRemove_spec (hinv : s.Repr qs)
    (hop : s.rawTqRemove pick q = some (s', r)) : (qs q = [] ∧ r = none ∧ s' = s) ∨
      ∃ t rest, take (qs q) = some (t, rest) ∧ r = some t ∧ t ∈ qs q ∧
        ∃ h head, s' = s.relink h head ∧ QueueInv h head (qs.set q rest) := by
  unfold SchedState.rawTqRemove at hop
  have hempty : klist0Empty (.queue q) s.links = true ↔ qs q = [] := by
    rw [klist0Empty_iff (hinv.ring q), List.map_eq_nil_iff]
  split at hop
  · rename_i hnil
    rw [Option.some.injEq, Prod.mk.injEq] at hop
    exact Or.inl ⟨hempty.mp hnil, hop.2.symm, hop.1.symm⟩
  · rename_i hcons
    right
    rcases htake.2 hinv (fun hnil => hcons (hempty.mpr hnil)) with ⟨t, hpick, hmem, htk⟩
    rw [hpick] at hop
    rcases Option.map_eq_some_iff.mp hop with ⟨s₁, hrem, heq⟩
    rw [Prod.mk.injEq] at heq
    refine ⟨t, _, htk, heq.2.symm, hmem, ?_⟩
    rcases rawTqRemoveThread_spec hinv hrem with ⟨p, hmem', h, head, hs₁, hinv'⟩
    rw [hinv.queue_unique hmem' hmem] at hinv'
    exact ⟨h, head, heq.1 ▸ hs₁, hinv'⟩

theorem lockedRemove_spec (hinv : s.Repr qs)
    (hop : s.lockedRemove (SchedState.rawTqRemove pick) q = some (s', r)) :
    (qs q = [] ∧ r = none ∧ s' = s) ∨
      ∃ t rest, take (qs q) = some (t, rest) ∧ r = some t ∧ t ∈ qs q ∧
        ∃ h head, s' = s.relink h head ∧ QueueInv h head (qs.set q rest) := by
  rcases Option.bind_eq_some_iff.mp hop with ⟨⟨s₂, r₂⟩, hrem, hmap⟩
  rcases Option.bind_eq_some_iff.mp hrem with ⟨s₁, hlock, hraw⟩
  rcases Option.map_eq_some_iff.mp hmap with ⟨s₃, hunlock, heq⟩
  cases heq
  have hs₁ := (spinLock_eq_some.mp hlock).2
  have hinv₁ : s₁.Repr qs := by
    rw [hs₁]
    exact hinv
  rcases rawTqRemove_spec htake hinv₁ hraw with
    ⟨hnil, hr, hs₂⟩ | ⟨t, rest, htk, hr, hmem, h, head, hs₂, hinv'⟩
  · left
    have hrelink : s₂ = s₁.relink s₁.links s₁.krunqHead := hs₂
    rw [hrelink] at hunlock
    refine ⟨hnil, hr, ?_⟩
    rw [spinUnlock_relink hlock hunlock, hs₁]
    rfl
  · right
    rw [hs₂] at hunlock
    exact ⟨t, rest, htk, hr, hmem, h, head, spinUnlock_relink hlock hunlock, hinv'⟩

theorem lockedRemove_repr (hinv : s.Repr qs)
    (hop : s.lockedRemove (SchedState.rawTqRemove pick) q = some (s', r)) {l : List Nat}
    (hnil : qs q = [] → l = []) (hrest : ∀ t rest, take (qs q) = some (t, rest) → l = rest) :
    s'.Repr (qs.set q l) := by
  rcases lockedRemove_spec htake hinv hop with
    ⟨hempty, -, hs'⟩ | ⟨t, rest, htk, -, -, h, head, hs', hinv'⟩
  · rw [hnil hempty, ← hempty, hs']
    unfold Queues.set
    rw [update_eq_self]
    exact hinv
  · rw [hrest t rest htk, hs']
    exact hinv'

theorem tqTransfer_spec (hput : Puts link put) (hinv : s.Repr qs) {f g : Queue} {moved : Bool}
    (hop : s.tqTransfer (SchedState.rawTqRemove pick) (SchedState.rawTqInsert link) f g =
      some (s', moved)) : s'.Repr (qs.move take put f g) := by
  rcases Option.bind_eq_some_iff.mp hop with ⟨⟨s₁, r⟩, hrem, hrest⟩
  unfold Queues.move
  rcases lockedRemove_spec htake hinv hrem with
    ⟨hnil, rfl, hs₁⟩ | ⟨t, rest, htk, rfl, -, h, head, hs₁, hinv'⟩
  · rw [Option.some.injEq, Prod.mk.injEq] at hrest
    rw [hnil, htake.1, ← hrest.1, hs₁]
    exact hinv
  · rcases Option.map_eq_some_iff.mp hrest with ⟨s₂, hins, heq⟩
    rw [hs₁] at hins
    rcases lockedInsert_spec hput (SchedState.Repr.of_relink hinv') hins with
      ⟨-, h', head', hs₂, hinv''⟩
    rw [Prod.mk.injEq] at heq
    rw [htk, ← heq.1, hs₂]
    exact hinv''

end

theorem rotate_spec {next : Nat} (hinv : s.Repr qs) (hop : s.rotate = some (s', next)) :
    (∃ rest, qs .rq = next :: rest) ∧
      ∃ h head, s' = s.relink h head ∧ QueueInv h head qs.rotate := by
  rcases Option.bind_eq_some_iff.mp hop with ⟨⟨s₁, r⟩, hrem, hrest⟩
  rcases Option.bind_eq_some_iff.mp hrest with ⟨t, hr, hins⟩
  rcases Option.map_eq_some_iff.mp hins with ⟨s₂, hraw, heq⟩
  rw [Prod.mk.injEq] at heq
  rcases heq with ⟨rfl, rfl⟩
  rcases rawTqRemove_spec takes_next hinv hrem with
    ⟨-, hnone, -⟩ | ⟨t', rest, htk, hr', -, h, head, hs₁, hinv'⟩
  · rw [hnone] at hr
    exact nomatch hr
  · rw [hr] at hr'
    rw [← Option.some.inj hr'] at htk
    have hqs : qs .rq = t :: rest := by
      cases hl : qs .rq with
      | nil =>
        rw [hl] at htk
        exact nomatch htk
      | cons x l =>
        rw [hl] at htk
        rcases Prod.mk.inj (Option.some.inj htk) with ⟨rfl, rfl⟩
        rfl
    rw [hs₁] at hraw
    rcases rawTqInsert_spec puts_prepend (SchedState.Repr.of_relink hinv') hraw with
      ⟨-, -, h', head', hs₂, hinv''⟩
    refine ⟨⟨rest, hqs⟩, h', head', hs₂, ?_⟩
    unfold Queues.rotate
    simp only [hqs]
    have hset : (qs.set .rq rest).set .rq (putTail t (qs.set .rq rest .rq)) =
        qs.set .rq (rest ++ [t]) := by
      exact update_idem _ _ _
    rw [← hset]
    exact hinv''

theorem sched0Enqueue_spec (hinv : s.Repr qs) {f : Queue} {moved : Bool}
    (hop : s.sched0Enqueue f = some (s', moved)) : s'.current = s.current ∧ s'.lock = s.lock ∧
      s'.Repr (qs.move takeHead putHead f .rq) := by
  rcases Option.bind_eq_some_iff.mp hop with ⟨⟨s₁, r⟩, hrem, hrest⟩
  unfold Queues.move
  rcases lockedRemove_spec takes_next hinv hrem with
    ⟨hnil, rfl, hs₁⟩ | ⟨t, rest, htk, rfl, -, h, head, hs₁, hinv'⟩
  · rw [Option.some.injEq, Prod.mk.injEq] at hrest
    rw [hnil, ← hrest.1, hs₁]
    exact ⟨rfl, rfl, hinv⟩
  · rcases Option.map_eq_some_iff.mp hrest with ⟨s₂, hins, heq⟩
    rw [hs₁] at hins
    have hinv₁ : ((s.relink h head).setQuantum t).Repr (qs.set f rest) := hinv'
    rcases lockedInsert_spec puts_append hinv₁ hins with ⟨-, h', head', hs₂, hinv''⟩
    rw [Prod.mk.injEq] at heq
    rw [htk, ← heq.1, hs₂]
    exact ⟨rfl, rfl, hinv''⟩

/-- `sched0_dequeue` moves the current thread from the run queue to the tail of a
queue, and the next thread to the tail of the run queue. -/
theorem sched0Dequeue_spec (hinv : s.Repr qs) {g : Queue} (hop : s.sched0Dequeue g = some s')
    (e : Bool) : s.current ∈ qs .rq ∧ (∃ x ∈ qs .rq, x ≠ s.current) ∧ s'.current = s.current ∧
      s'.lock = s.lock ∧ s'.Repr (qs.call s.current e (.dequeue g)) := by
  unfold SchedState.sched0Dequeue at hop
  dsimp only at hop
  split at hop
  · simp at hop
  · rename_i hcur
    have hback : s.krunqHead s.current = some .rq := not_not.mp hcur
    rcases Option.bind_eq_some_iff.mp hop with ⟨s₁, hlock, hop₁⟩
    rcases Option.bind_eq_some_iff.mp hop₁ with ⟨s₂, hrem, hop₂⟩
    rcases Option.bind_eq_some_iff.mp hop₂ with ⟨⟨s₃, next⟩, hrot, hop₃⟩
    rcases Option.bind_eq_some_iff.mp hop₃ with ⟨s₄, hunlock, hins⟩
    have hs₁ := (spinLock_eq_some.mp hlock).2
    have hinv₁ : s₁.Repr qs := by
      rw [hs₁]
      exact hinv
    have hmem := (hinv.back _ _).mp hback
    rcases rawTqRemoveThread_spec hinv₁ hrem with ⟨p, hmem', h₂, head₂, hs₂, hinv₂⟩
    rw [hinv₁.queue_unique hmem' hmem] at hinv₂
    rcases rotate_spec (hs₂ ▸ SchedState.Repr.of_relink hinv₂) hrot with
      ⟨⟨rest, hnext⟩, h, head, hs₃, hinv₃⟩
    have hother : next ∈ qs .rq ∧ next ≠ s.current := by
      have hin : next ∈ qs.set .rq ((qs .rq).erase s.current) .rq := by
        rw [hnext]
        exact List.mem_cons_self
      rw [Queues.set_apply, if_pos rfl, (hinv.nodup .rq).mem_erase_iff] at hin
      exact hin.symm
    have hrelink : s₃ = s₁.relink h head := by
      rw [hs₃, hs₂]
      rfl
    rw [hrelink] at hunlock
    have hs₄ := spinUnlock_relink hlock hunlock
    rw [hs₄] at hins
    have hinv₄ : (((s.relink h head).setQuantum s.current).setLastTick s.current).Repr
        (qs.set .rq ((qs .rq).erase s.current)).rotate := hinv₃
    rcases lockedInsert_spec puts_prepend hinv₄ hins with ⟨-, h', head', hs', hinv'⟩
    rw [hs']
    exact ⟨hmem, ⟨next, hother⟩, rfl, rfl, hinv'⟩

theorem sched0Yield_spec (hinv : s.Repr qs) (hop : s.sched0Yield = some s') :
    s'.lock = s.lock ∧ s'.Repr qs.rotate ∧ ∃ rest, qs .rq = s'.current :: rest := by
  rcases Option.bind_eq_some_iff.mp hop with ⟨s₁, hlock, hop₁⟩
  rcases Option.bind_eq_some_iff.mp hop₁ with ⟨⟨s₂, next⟩, hrot, hop₂⟩
  rcases Option.map_eq_some_iff.mp hop₂ with ⟨s₃, hunlock, heq⟩
  have hinv₁ : s₁.Repr qs := by
    rw [(spinLock_eq_some.mp hlock).2]
    exact hinv
  rcases rotate_spec hinv₁ hrot with ⟨hnext, h, head, hs₂, hinv₂⟩
  rw [hs₂] at hunlock
  rw [← heq, spinUnlock_relink hlock hunlock]
  exact ⟨rfl, hinv₂, hnext⟩

theorem sched0Tick_spec (hinv : s.Repr qs) (hop : s.sched0Tick = some s') :
    s'.current = s.current ∧ s'.lock = s.lock ∧
      s'.Repr (if s.decQuantum s.current = 0 then qs.rotate else qs) := by
  unfold SchedState.sched0Tick at hop
  split at hop
  · simp at hop
  · dsimp only at hop
    split at hop
    · rcases Option.bind_eq_some_iff.mp hop with ⟨s₁, hlock, hop₁⟩
      rcases Option.bind_eq_some_iff.mp hop₁ with ⟨⟨s₂, next⟩, hrot, hop₂⟩
      rcases Option.map_eq_some_iff.mp hop₂ with ⟨s₃, hunlock, heq⟩
      have hinv₁ : s₁.Repr qs := by
        rw [(spinLock_eq_some.mp hlock).2]
        exact hinv
      rcases rotate_spec hinv₁ hrot with ⟨-, h, head, hs₂, hinv₂⟩
      rw [hs₂] at hunlock
      rw [← heq, spinUnlock_relink hlock hunlock]
      split
      · exact ⟨rfl, rfl, hinv₂⟩
      · exact ⟨rfl, rfl, hinv₂⟩
    · rename_i hmore
      rw [if_neg hmore, ← Option.some.inj hop]
      exact ⟨rfl, rfl, hinv⟩

/-- Every call refines its list operation. -/
theorem SchedState.Repr.call {c : SchedCall} (hinv : s.Repr qs) (hcall : s.call c = some s') :
    s'.Repr (qs.call s.current (s.decQuantum s.current = 0) c) := by
  cases c with
  | insertHead t q =>
    rcases lockedInsert_spec puts_append hinv hcall with ⟨-, h, head, hs', hinv'⟩
    rw [hs']
    exact hinv'
  | insertTail t q =>
    rcases lockedInsert_spec puts_prepend hinv hcall with ⟨-, h, head, hs', hinv'⟩
    rw [hs']
    exact hinv'
  | removeHead q =>
    rcases Option.map_eq_some_iff.mp hcall with ⟨⟨s₁, r⟩, hrem, rfl⟩
    refine lockedRemove_repr takes_next hinv hrem (fun hnil => by rw [hnil]; rfl) ?_
    intro t rest htk
    cases hl : qs q with
    | nil =>
      rw [hl] at htk
      cases htk
    | cons x l =>
      rw [hl] at htk
      exact (Prod.mk.inj (Option.some.inj htk)).2
  | removeTail q =>
    rcases Option.map_eq_some_iff.mp hcall with ⟨⟨s₁, r⟩, hrem, rfl⟩
    refine lockedRemove_repr takes_prev hinv hrem (fun hnil => by rw [hnil]; rfl) ?_
    intro t rest htk
    rcases Option.map_eq_some_iff.mp htk with ⟨x, -, heq⟩
    exact (Prod.mk.inj heq).2
  | transferHeadToHead f g =>
    rcases Option.map_eq_some_iff.mp hcall with ⟨⟨s₁, r⟩, hop, rfl⟩
    exact tqTransfer_spec takes_next puts_append hinv hop
  | transferHeadToTail f g =>
    rcases Option.map_eq_some_iff.mp hcall with ⟨⟨s₁, r⟩, hop, rfl⟩
    exact tqTransfer_spec takes_next puts_prepend hinv hop
  | transferTailToHead f g =>
    rcases Option.map_eq_some_iff.mp hcall with ⟨⟨s₁, r⟩, hop, rfl⟩
    exact tqTransfer_spec takes_prev puts_append hinv hop
  | transferTailToTail f g =>
    rcases Option.map_eq_some_iff.mp hcall with ⟨⟨s₁, r⟩, hop, rfl⟩
    exact tqTransfer_spec takes_prev puts_prepend hinv hop
  | enqueue f =>
    rcases Option.map_eq_some_iff.mp hcall with ⟨⟨s₁, r⟩, hop, rfl⟩
    exact (sched0Enqueue_spec hinv hop).2.2
  | dequeue g => exact (sched0Dequeue_spec hinv hcall _).2.2.2.2
  | tick =>
    have hspec := (sched0Tick_spec hinv hcall).2.2
    unfold Queues.call
    simp only [decide_eq_true_eq]
    exact hspec
  | yield => exact (sched0Yield_spec hinv hcall).2.1
  | irqReturn =>
    cases hcall
    unfold SchedState.irqReturn
    split
    · exact hinv
    · exact hinv
  | clock =>
    cases hcall
    exact hinv

end Ops

end Koowaldah
