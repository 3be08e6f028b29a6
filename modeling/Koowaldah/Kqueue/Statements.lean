import Koowaldah.Kqueue.Fifo

/-!
# A pull, statement by statement

`kqueue_pull_tail` takes no lock, and an interrupt handler pushes to the queue
that a thread pulls from.  `pullStep` performs one statement of
`kqueue_pull_tail`, so that a model can put other events between two of them.

A round of the loop empties the oldest page or takes a part of it.  `settle`
performs what is left of a round, up to the call of `put_page`.

Without anything in between, the statements of a pull are `kqueuePullTail`
(`pullStep_refines`).
-/

namespace Koowaldah

open SysLib SysLib.Dyadic

/-- The statements of `kqueue_pull_tail`.  `head` is the condition of the loop and of the `if`;
`part` and `whole` are its branches, and `ret` is where the call has returned. -/
inductive PullPc where
  | head
  | partCopy
  | partCount
  | partBase
  | partSize
  | wholeCopy
  | wholeSize
  | wholePulled
  | wholeLen
  | wholeUnlink
  | wholePut (page : Nat)
  | ret (t : Nat)
deriving DecidableEq, Repr

/-- The variables of a call of `kqueue_pull_tail`, and its next statement. -/
structure PullVars where
  data : Nat
  len : Nat
  pulled : Nat
  pc : PullPc
deriving DecidableEq, Repr

/-- The next statement of `kqueue_pull_tail`.  `tmp` is the oldest page: a push does not change
which one that is. -/
def pullStep (h : KqueueHeap) (v : PullVars) : Option (KqueueHeap × PullVars) :=
  match v.pc, h.pages with
  | .head, [] => some (h, { v with pc := .ret v.pulled })
  | .head, tmp :: _ =>
    some (h, { v with pc := if v.len < tmp.count then .partCopy else .wholeCopy })
  | .partCopy, tmp :: _ =>
    some ({ h with mem := memoryCopy h.mem (v.data + v.pulled) tmp.base v.len },
      { v with pc := .partCount })
  | .partCount, tmp :: rest =>
    some ({ h with pages := { tmp with count := tmp.count - v.len } :: rest },
      { v with pc := .partBase })
  | .partBase, tmp :: rest =>
    some ({ h with pages := { tmp with base := tmp.base + v.len } :: rest },
      { v with pc := .partSize })
  | .partSize, _ => some ({ h with count := h.count - v.len }, { v with pc := .ret v.len })
  | .wholeCopy, tmp :: _ =>
    some ({ h with mem := memoryCopy h.mem (v.data + v.pulled) tmp.base tmp.count },
      { v with pc := .wholeSize })
  | .wholeSize, tmp :: _ =>
    some ({ h with count := h.count - tmp.count }, { v with pc := .wholePulled })
  | .wholePulled, tmp :: _ =>
    some (h, { v with pulled := v.pulled + tmp.count, pc := .wholeLen })
  | .wholeLen, tmp :: _ =>
    some (h, { v with len := subWord v.len tmp.count, pc := .wholeUnlink })
  | .wholeUnlink, tmp :: rest =>
    some ({ h with pages := rest }, { v with pc := .wholePut tmp.page })
  | .wholePut page, _ =>
    (putPages h.zone (pageToAddr h.zone page)).map
      (fun z => ({ h with zone := z }, { v with pc := .head }))
  | _, _ => none

/-- The call of `memory_copy` that the next statement is. -/
def pullCopy (h : KqueueHeap) (v : PullVars) : Option Copy :=
  match v.pc, h.pages with
  | .partCopy, tmp :: _ => some ⟨v.data + v.pulled, tmp.base, v.len⟩
  | .wholeCopy, tmp :: _ => some ⟨v.data + v.pulled, tmp.base, tmp.count⟩
  | _, _ => none

theorem pullStep_mem {h h' : KqueueHeap} {v v' : PullVars} (hstep : pullStep h v = some (h', v')) :
    h'.mem = match pullCopy h v with
      | none => h.mem
      | some c => c.run h.mem := by
  obtain ⟨zone, mem, pages, count⟩ := h
  obtain ⟨data, len, pulled, pc⟩ := v
  cases pc with
  | wholePut page =>
    obtain ⟨z, -, heq⟩ := Option.map_eq_some_iff.mp hstep
    cases heq
    rfl
  | head | partCopy | partCount | partBase | partSize | wholeCopy | wholeSize | wholePulled
  | wholeLen | wholeUnlink | ret => cases pages <;> cases hstep <;> rfl

/-! ## Rounds -/

/-- The statements that are left of a round, up to the call of `put_page`. -/
def PullPc.left : PullPc → Nat
  | .head | .wholePut _ | .ret _ => 0
  | .partCopy => 4
  | .partCount => 3
  | .partBase => 2
  | .partSize => 1
  | .wholeCopy => 5
  | .wholeSize => 4
  | .wholePulled => 3
  | .wholeLen => 2
  | .wholeUnlink => 1

def pullSteps : Nat → KqueueHeap × PullVars → Option (KqueueHeap × PullVars)
  | 0, x => some x
  | k + 1, x => (pullStep x.1 x.2).bind (pullSteps k)

def settle (h : KqueueHeap) (v : PullVars) : Option (KqueueHeap × PullVars) :=
  pullSteps v.pc.left (h, v)

section Rounds

variable {h h' : KqueueHeap} {v v' : PullVars}

theorem settle_of_left (h : KqueueHeap) (hrest : v.pc.left = 0) : settle h v = some (h, v) := by
  unfold settle
  rw [hrest]
  rfl

theorem left_step (hmid : v.pc.left ≠ 0) (hstep : pullStep h v = some (h', v')) :
    v.pc.left = v'.pc.left + 1 := by
  obtain ⟨zone, mem, pages, count⟩ := h
  obtain ⟨data, len, pulled, pc⟩ := v
  cases pc with
  | head | wholePut | ret => exact absurd rfl hmid
  | partCopy | partCount | partBase | partSize | wholeCopy | wholeSize | wholePulled
  | wholeLen | wholeUnlink => cases pages <;> cases hstep <;> rfl

theorem settle_step (hmid : v.pc.left ≠ 0) (hstep : pullStep h v = some (h', v')) :
    settle h v = settle h' v' := by
  unfold settle
  rw [left_step hmid hstep, pullSteps, hstep]
  rfl

theorem pullStep_withZone (hmid : v.pc.left ≠ 0) (z : Zone) : pullStep { h with zone := z } v =
      (pullStep h v).map (fun x => ({ x.1 with zone := z }, x.2)) := by
  obtain ⟨zone, mem, pages, count⟩ := h
  obtain ⟨data, len, pulled, pc⟩ := v
  cases pc with
  | head | wholePut | ret => exact absurd rfl hmid
  | partCopy | partCount | partBase | partSize | wholeCopy | wholeSize | wholePulled
  | wholeLen | wholeUnlink => cases pages <;> rfl

theorem settle_withZone (h : KqueueHeap) (v : PullVars) (z : Zone) : settle { h with zone := z } v =
      (settle h v).map (fun x => ({ x.1 with zone := z }, x.2)) := by
  unfold settle
  generalize hleft : v.pc.left = k
  induction k generalizing h v with
  | zero => rfl
  | succ k ih =>
    have hmid : v.pc.left ≠ 0 := by omega
    rw [pullSteps, pullSteps, pullStep_withZone hmid]
    cases hstep : pullStep h v with
    | none => rfl
    | some x =>
      have hnext : x.2.pc.left = k := by
        have := left_step hmid hstep
        omega
      exact ih x.1 x.2 hnext

theorem settle_part {tmp : KqueuePage} {rest : List KqueuePage} (hpages : h.pages = tmp :: rest) :
    settle h { v with pc := .partCopy } =
      some (h.takePart tmp rest (v.data + v.pulled) v.len, { v with pc := .ret v.len }) := by
  obtain ⟨zone, mem, pages, count⟩ := h
  obtain rfl : pages = tmp :: rest := hpages
  rfl

/-- The oldest page is copied to `dst` and off the list. -/
def KqueueHeap.unlinkPage (h : KqueueHeap) (tmp : KqueuePage) (rest : List KqueuePage)
    (dst : Nat) : KqueueHeap :=
  { h with
    mem := memoryCopy h.mem dst tmp.base tmp.count
    pages := rest
    count := h.count - tmp.count }

theorem settle_whole {tmp : KqueuePage} {rest : List KqueuePage} (hpages : h.pages = tmp :: rest) :
    settle h { v with pc := .wholeCopy } =
      some (h.unlinkPage tmp rest (v.data + v.pulled),
        ⟨v.data, subWord v.len tmp.count, v.pulled + tmp.count, .wholePut tmp.page⟩) := by
  obtain ⟨zone, mem, pages, count⟩ := h
  obtain rfl : pages = tmp :: rest := hpages
  rfl

end Rounds

/-! ## Without anything in between -/

theorem pullSteps_add (j k : Nat) :
    ∀ x, pullSteps (j + k) x = (pullSteps j x).bind (pullSteps k) := by
  induction j with
  | zero =>
    intro x
    rw [Nat.zero_add]
    rfl
  | succ j ih =>
    intro x
    rw [Nat.succ_add, pullSteps, pullSteps, Option.bind_assoc]
    congr 1
    exact funext ih

theorem pullLoop_withPages (qs : List KqueuePage) (data : Nat) :
    ∀ (ps : List KqueuePage) (h : KqueueHeap) (len pulled : Nat),
      pullLoop ps { h with pages := qs } data len pulled = pullLoop ps h data len pulled
  | [], _, _, _ => rfl
  | tmp :: rest, h, len, pulled => by
    rw [pullLoop, pullLoop]
    split
    · rfl
    · congr 1
      funext z
      exact pullLoop_withPages qs data rest
        { h with
          zone := z
          mem := memoryCopy h.mem (data + pulled) tmp.base tmp.count
          count := h.count - tmp.count } _ _

/-- The statements of a pull that nothing comes in between of are the pull. -/
theorem pullStep_refines {data r : Nat} {h' : KqueueHeap} :
    ∀ (ps : List KqueuePage) (h : KqueueHeap) (len pulled : Nat), h.pages = ps →
      len < WORD_RANGE → pullLoop ps h data len pulled = some (h', r) →
      ∃ k v', pullSteps k (h, ⟨data, len, pulled, .head⟩) = some (h', v') ∧ v'.pc = .ret r
  | [], h, len, pulled, hpages, _, hpull => by
    obtain ⟨zone, mem, pages, count⟩ := h
    obtain rfl : pages = [] := hpages
    obtain ⟨rfl, rfl⟩ := Prod.mk.inj (Option.some.inj hpull)
    exact ⟨1, ⟨data, len, pulled, .ret pulled⟩, rfl, rfl⟩
  | tmp :: rest, h, len, pulled, hpages, hlen, hpull => by
    rw [pullLoop] at hpull
    split at hpull
    · rename_i hlt
      obtain ⟨rfl, rfl⟩ := Prod.mk.inj (Option.some.inj hpull)
      refine ⟨1 + 4, ⟨data, len, pulled, .ret len⟩, ?_, rfl⟩
      have hhead : pullSteps 1 (h, ⟨data, len, pulled, .head⟩) =
          some (h, ⟨data, len, pulled, .partCopy⟩) := by
        simp [pullSteps, pullStep, hpages, hlt]
      rw [pullSteps_add, hhead, Option.bind_some]
      exact settle_part (v := ⟨data, len, pulled, .head⟩) hpages
    · rename_i hge
      obtain ⟨z, hput, hrest⟩ := Option.bind_eq_some_iff.mp hpull
      have hhead : pullSteps 1 (h, ⟨data, len, pulled, .head⟩) =
          some (h, ⟨data, len, pulled, .wholeCopy⟩) := by
        simp [pullSteps, pullStep, hpages, hge]
      have hround : pullSteps 5 (h, ⟨data, len, pulled, .wholeCopy⟩) =
          some (h.unlinkPage tmp rest (data + pulled),
            ⟨data, len - tmp.count, pulled + tmp.count, .wholePut tmp.page⟩) := by
        rw [← subWord_of_le (Nat.le_of_not_lt hge) hlen]
        exact settle_whole (v := ⟨data, len, pulled, .head⟩) hpages
      have hfree : pullSteps 1 (h.unlinkPage tmp rest (data + pulled),
          ⟨data, len - tmp.count, pulled + tmp.count, .wholePut tmp.page⟩) =
          some ({ h.unlinkPage tmp rest (data + pulled) with zone := z },
            ⟨data, len - tmp.count, pulled + tmp.count, .head⟩) := by
        simp [pullSteps, pullStep, KqueueHeap.unlinkPage, hput]
      rw [← pullLoop_withPages rest] at hrest
      obtain ⟨k, v', hsteps, hret⟩ := pullStep_refines rest _ _ _ rfl
        (Nat.lt_of_le_of_lt (Nat.sub_le _ _) hlen) hrest
      refine ⟨1 + (5 + (1 + k)), v', ?_, hret⟩
      rw [pullSteps_add, hhead, Option.bind_some, pullSteps_add, hround, Option.bind_some,
        pullSteps_add, hfree, Option.bind_some]
      exact hsteps

end Koowaldah
