import Koowaldah.Message.Calls

/-!
# Delivery

Every message that is sent is retrieved at most once, in the order of sending
for each pair of threads, and stays in the mailbox until then; and a sender
that waits for its message runs again exactly when the message is retrieved.

`MsgInv` relates the mailboxes, the log, the thread queues and the places where
the threads stand.  `MsgInv.post`, `MsgInv.sleep` and `MsgInv.take` carry it
over the three things that a call can do to the mail, `MsgInv.call` over a
call, and `msgRun_delivers` reads it in every state that calls reach.
-/

namespace Koowaldah

open Function SysLib

/-! ## What was sent and what was retrieved -/

def sentAll (log : List MsgEvent) : List Message :=
  log.filterMap (fun
    | .sent _ m => some m
    | .got _ _ _ => none)

/-- The messages sent from `a` to `r`, in order. -/
def sentTo (a r : Nat) (log : List MsgEvent) : List Message :=
  log.filterMap (fun
    | .sent r' m => if r' = r ∧ m.mSender = a then some m else none
    | .got _ _ _ => none)

/-- The messages from `a` that `r` has retrieved, in order. -/
def gotFrom (a r : Nat) (log : List MsgEvent) : List Message :=
  log.filterMap (fun
    | .sent _ _ => none
    | .got r' m _ => if r' = r ∧ m.mSender = a then some m else none)

section Log

variable (a r r' : Nat) (m : Message) (stored : Option (List UInt8)) (log : List MsgEvent)

theorem sentTo_sent :
    sentTo a r (log ++ [.sent r' m]) =
      sentTo a r log ++ if r' = r ∧ m.mSender = a then [m] else [] := by
  unfold sentTo
  by_cases h : r' = r ∧ m.mSender = a
  · simp [h]
  · simp [h]

theorem gotFrom_got :
    gotFrom a r (log ++ [.got r' m stored]) =
      gotFrom a r log ++ if r' = r ∧ m.mSender = a then [m] else [] := by
  unfold gotFrom
  by_cases h : r' = r ∧ m.mSender = a
  · simp [h]
  · simp [h]

@[simp] theorem sentTo_got : sentTo a r (log ++ [.got r' m stored]) = sentTo a r log := by
  simp [sentTo]

@[simp] theorem gotFrom_sent : gotFrom a r (log ++ [.sent r' m]) = gotFrom a r log := by
  simp [gotFrom]

@[simp] theorem sentAll_sent : sentAll (log ++ [.sent r' m]) = sentAll log ++ [m] := by
  simp [sentAll]

@[simp] theorem sentAll_got : sentAll (log ++ [.got r' m stored]) = sentAll log := by
  simp [sentAll]

end Log

/-! ## The invariant -/

/-- The mail between two calls, with the threads of the queues `qs`. -/
structure MsgInv (s : MsgState) (qs : Queues) : Prop where
  repr : s.sched.Repr qs
  cur : s.sched.current ∈ qs .rq
  wakeTq : qs wakeTq = []
  /-- The sender of a pending message is on its `m_tq` when it waits for it. -/
  tq : ∀ r, ∀ m ∈ s.mbox r, qs (mTq m.addr) = if m.blocks then [m.mSender] else []
  idle : ∀ a, a ∉ s.msgPool → qs (mTq a) = []
  pool : ∀ r, ∀ m ∈ s.mbox r, m.addr ∈ s.msgPool
  nodup : ∀ r, ((s.mbox r).map Message.addr).Nodup
  apart : ∀ r r' m m', m ∈ s.mbox r → m' ∈ s.mbox r' → m.addr = m'.addr → r = r'
  /-- A thread on `sleepers` is in `msg_retrieve`, and one that is there is on
  `sleepers` or has mail. -/
  asleep : ∀ t ∈ qs sleepers, s.pc t ≠ .user
  waiting : ∀ t, s.pc t ≠ .user → t ∈ qs sleepers ∨ s.mbox t ≠ []
  order : ∀ a r, sentTo a r s.log =
    gotFrom a r s.log ++ (s.mbox r).filter (fun m => m.mSender = a)
  serial : (sentAll s.log).Pairwise (fun m m' => m.serial < m'.serial)
  fresh : ∀ m ∈ sentAll s.log, m.serial < s.log.length

section Inv

variable {s s' : MsgState} {qs : Queues}

variable {recp r buf len flags : Nat} {m m' : Message}

section

variable (h : MsgInv s qs)

include h

theorem MsgInv.sameMail (hsame : SameMail s s') : MsgInv s' qs where
  repr := by rw [hsame.sched]; exact h.repr
  cur := by rw [hsame.sched]; exact h.cur
  wakeTq := h.wakeTq
  tq := by rw [hsame.mbox]; exact h.tq
  idle := by rw [hsame.msgPool]; exact h.idle
  pool := by rw [hsame.mbox, hsame.msgPool]; exact h.pool
  nodup := by rw [hsame.mbox]; exact h.nodup
  apart := by rw [hsame.mbox]; exact h.apart
  asleep := by rw [hsame.pc]; exact h.asleep
  waiting := by rw [hsame.pc, hsame.mbox]; exact h.waiting
  order := by rw [hsame.log, hsame.mbox]; exact h.order
  serial := by rw [hsame.log]; exact h.serial
  fresh := by rw [hsame.log]; exact h.fresh

theorem MsgInv.resched {sched' : SchedState} {qs' : Queues}
    (hrepr : sched'.Repr qs') (hcur : sched'.current ∈ qs' .rq)
    (hother : ∀ p, p ≠ .rq → qs' p = qs p) : MsgInv { s with sched := sched' } qs' where
  repr := hrepr
  cur := hcur
  wakeTq := by rw [hother _ wakeTq_ne_rq, h.wakeTq]
  tq r m hm := by rw [hother _ (mTq_ne_rq _), h.tq r m hm]
  idle a ha := by rw [hother _ (mTq_ne_rq _), h.idle a ha]
  pool := h.pool
  nodup := h.nodup
  apart := h.apart
  asleep t ht := h.asleep t (by rwa [hother _ sleepers_ne_rq] at ht)
  waiting t ht := by rw [hother _ sleepers_ne_rq]; exact h.waiting t ht
  order := h.order
  serial := h.serial
  fresh := h.fresh

theorem MsgInv.takeSlice (addr : Nat) : MsgInv (s.takeSlice addr) qs where
  repr := h.repr
  cur := h.cur
  wakeTq := h.wakeTq
  tq := h.tq
  idle a ha := h.idle a (fun hmem => ha (List.mem_cons_of_mem addr hmem))
  pool r m hm := List.mem_cons_of_mem addr (h.pool r m hm)
  nodup := h.nodup
  apart := h.apart
  asleep := h.asleep
  waiting := h.waiting
  order := h.order
  serial := h.serial
  fresh := h.fresh

theorem MsgInv.not_asleep : s.sched.current ∉ qs sleepers :=
  fun hmem => sleepers_ne_rq (h.repr.queue_unique hmem h.cur)

theorem MsgInv.has_mail (hpc : s.pc s.sched.current ≠ .user) : s.mbox s.sched.current ≠ [] :=
  (h.waiting _ hpc).resolve_left h.not_asleep

end

theorem mem_mbox_append {mbox : Nat → List Message} :
    m' ∈ Function.update mbox recp (mbox recp ++ [m]) r ↔
      m' ∈ mbox r ∨ (r = recp ∧ m' = m) := by
  rw [update_apply]
  by_cases hr : r = recp
  · rw [if_pos hr, List.mem_append, List.mem_singleton, hr, eq_self_iff_true, true_and]
  · rw [if_neg hr, or_iff_left (fun h => hr h.1)]

section

variable (h : MsgInv s qs)

include h

theorem MsgInv.nodup_append (hnew : ∀ m' ∈ s.mbox recp, m'.addr ≠ m.addr) :
    ((s.mbox recp ++ [m]).map Message.addr).Nodup := by
  rw [List.map_append]
  refine List.nodup_append.mpr ⟨h.nodup recp, List.nodup_singleton _, ?_⟩
  intro a ha b hb hab
  rcases List.mem_map.mp ha with ⟨m', hm', rfl⟩
  rw [List.map_singleton, List.mem_singleton] at hb
  exact hnew m' hm' (hab.trans hb)

theorem MsgInv.order_sent (recp a r : Nat) (m : Message) :
    sentTo a r (s.log ++ [.sent recp m]) = gotFrom a r (s.log ++ [.sent recp m]) ++
      (Function.update s.mbox recp (s.mbox recp ++ [m]) r).filter (fun m => m.mSender = a) := by
  rw [sentTo_sent, gotFrom_sent, h.order a r, update_apply]
  by_cases hr : r = recp
  · rw [hr]
    by_cases ha : m.mSender = a
    · simp [ha]
    · simp [ha]
  · rw [if_neg hr, if_neg (fun he => hr he.1.symm), List.append_nil]

theorem MsgInv.post (htq : qs (mTq m.addr) = []) (hpool : m.addr ∈ s.msgPool)
    (hnew : ∀ r, ∀ m' ∈ s.mbox r, m'.addr ≠ m.addr) (hsender : m.mSender = s.sched.current)
    (hserial : m.serial = s.log.length) (hop : s.msgPost recp m = some s') :
    ∃ qs', MsgInv s' qs' := by
  rcases msgPost_eq_some hop with ⟨sched₁, sched₂, sched', hwake, hblock, hyield, rfl⟩
  rcases post_spec h.repr h.wakeTq htq hwake hblock hyield with
    ⟨qs', hrepr, hcur, hq, hsleepers, hother⟩
  refine ⟨qs', hrepr, hcur, ?_, ?_, ?_, ?_, ?_, ?_, ?_, ?_, ?_, ?_, ?_⟩
  · rw [hother _ wakeTq_ne_rq wakeTq_ne_sleepers (mTq_ne_wakeTq _).symm, h.wakeTq]
  · intro r m' hm'
    rcases mem_mbox_append.mp hm' with hold | ⟨-, rfl⟩
    · rw [hother _ (mTq_ne_rq _) (mTq_ne_sleepers _) (fun he => hnew r m' hold (mTq_inj.mp he)),
        h.tq r m' hold]
    · rw [hq, hsender]
  · intro a ha
    have hne : a ≠ m.addr := fun he => ha (by rw [he]; exact hpool)
    rw [hother _ (mTq_ne_rq _) (mTq_ne_sleepers _) (fun he => hne (mTq_inj.mp he)), h.idle a ha]
  · intro r m' hm'
    rcases mem_mbox_append.mp hm' with hold | ⟨-, rfl⟩
    · exact h.pool r m' hold
    · exact hpool
  · intro r
    show ((Function.update s.mbox recp _ r).map _).Nodup
    rw [update_apply]
    split
    · exact h.nodup_append (hnew recp)
    · exact h.nodup r
  · intro r r' m₁ m₂ h₁ h₂ haddr
    rcases mem_mbox_append.mp h₁ with hold₁ | ⟨hr, rfl⟩
    · rcases mem_mbox_append.mp h₂ with hold₂ | ⟨-, rfl⟩
      · exact h.apart r r' m₁ m₂ hold₁ hold₂ haddr
      · exact absurd haddr (hnew r m₁ hold₁)
    · rcases mem_mbox_append.mp h₂ with hold₂ | ⟨hr', -⟩
      · exact absurd haddr.symm (hnew r' m₂ hold₂)
      · rw [hr, hr']
  · intro t ht
    rw [hsleepers] at ht
    exact h.asleep t (List.mem_of_mem_erase ht)
  · intro t ht
    show t ∈ qs' sleepers ∨ Function.update s.mbox recp _ t ≠ []
    rw [hsleepers, update_apply]
    by_cases hrecp : t = recp
    · rw [if_pos hrecp]
      exact Or.inr (List.append_ne_nil_of_right_ne_nil _ (List.cons_ne_nil _ _))
    · rw [if_neg hrecp, List.mem_erase_of_ne hrecp]
      exact h.waiting t ht
  · exact fun a r => h.order_sent recp a r m
  · rw [sentAll_sent]
    refine List.pairwise_append.mpr ⟨h.serial, List.pairwise_singleton _ _, ?_⟩
    intro m₁ h₁ m₂ h₂
    rw [List.mem_singleton.mp h₂, hserial]
    exact h.fresh m₁ h₁
  · intro m' hm'
    rw [sentAll_sent, List.mem_append, List.mem_singleton] at hm'
    rw [List.length_append]
    rcases hm' with hold | rfl
    · exact Nat.lt_succ_of_lt (h.fresh m' hold)
    · rw [hserial]
      exact Nat.lt_succ_self _

theorem MsgInv.send {slice : Option Nat} {areaOk : Bool} {n : Int}
    (hop : s.msgSend recp buf len flags slice areaOk = some (s', n)) : ∃ qs', MsgInv s' qs' := by
  rcases msgSend_cases hop with rfl | ⟨addr, -, hfresh, -, -, hcase⟩
  · exact ⟨qs, h⟩
  · have hnew : ∀ r, ∀ m' ∈ s.mbox r, m'.addr ≠ addr :=
      fun r m' hm' he => hfresh (he ▸ h.pool r m' hm')
    have htq := h.idle addr hfresh
    rcases hcase with ⟨-, hpost⟩ | ⟨-, s₁, r, hstore, hcase⟩
    · refine (h.takeSlice addr).post ?_ ?_ ?_ rfl rfl hpost
      · exact htq
      · exact List.mem_cons_self
      · exact hnew
    · have hsame := msgStore_sameMail hstore
      have h₁ := (h.takeSlice addr).sameMail hsame
      rcases hcase with ⟨e, -, rfl⟩ | ⟨mBuf, -, hpost⟩
      · exact ⟨qs, h₁⟩
      · refine h₁.post htq ?_ ?_ ?_ ?_ hpost
        · rw [hsame.msgPool]
          exact List.mem_cons_self
        · rw [hsame.mbox]
          exact hnew
        · rw [hsame.sched]
          rfl
        · rw [hsame.log]
          rfl

theorem MsgInv.asleep_back {t : Nat} (ht : t ∈ qs sleepers) :
    Function.update s.pc s.sched.current MsgPc.user t ≠ .user := by
  have hne : t ≠ s.sched.current := fun he => h.not_asleep (he ▸ ht)
  rw [update_of_ne hne]
  exact h.asleep t ht

theorem MsgInv.waiting_back {t : Nat}
    (ht : Function.update s.pc s.sched.current MsgPc.user t ≠ .user) :
    t ≠ s.sched.current ∧ (t ∈ qs sleepers ∨ s.mbox t ≠ []) := by
  have hne : t ≠ s.sched.current := by
    rintro rfl
    exact ht (update_self ..)
  rw [update_of_ne hne] at ht
  exact ⟨hne, h.waiting t ht⟩

theorem MsgInv.sleep {sender : Nat} {msg : Option Message} {n : Option Int}
    (hop : s.retrieveSleep sender buf len flags msg = some (s', n)) : ∃ qs', MsgInv s' qs' := by
  rcases retrieveSleep_cases hop with rfl | ⟨sched₁, sched', hdeq, hyield, rfl⟩
  · exact ⟨qs, h.repr, h.cur, h.wakeTq, h.tq, h.idle, h.pool, h.nodup, h.apart,
      fun _ ht => h.asleep_back ht, fun _ ht => (h.waiting_back ht).2, h.order, h.serial, h.fresh⟩
  · rcases dequeue_yield_spec h.repr sleepers_ne_rq hdeq hyield with
      ⟨qs', hrepr, -, -, hcur, hq, hother, -⟩
    refine ⟨qs', hrepr, hcur, ?_, ?_, ?_, h.pool, h.nodup, h.apart, ?_, ?_, h.order, h.serial,
      h.fresh⟩
    · rw [hother _ wakeTq_ne_rq wakeTq_ne_sleepers, h.wakeTq]
    · intro r m hm
      rw [hother _ (mTq_ne_rq _) (mTq_ne_sleepers _), h.tq r m hm]
    · intro a ha
      rw [hother _ (mTq_ne_rq _) (mTq_ne_sleepers _), h.idle a ha]
    · intro t ht
      show Function.update s.pc s.sched.current _ t ≠ _
      rw [hq, List.mem_append, List.mem_singleton] at ht
      by_cases hne : t = s.sched.current
      · rw [hne, update_self]
        exact nofun
      · rw [update_of_ne hne]
        exact h.asleep t (ht.resolve_right hne)
    · intro t ht
      rw [hq, List.mem_append, List.mem_singleton]
      by_cases hne : t = s.sched.current
      · exact Or.inl (Or.inr hne)
      · have ht' : Function.update s.pc s.sched.current
            (MsgPc.retrieve sender buf len flags msg) t ≠ .user := ht
        rw [update_of_ne hne] at ht'
        rcases h.waiting t ht' with hmem | hmail
        · exact Or.inl (Or.inl hmem)
        · exact Or.inr hmail

theorem MsgInv.mem_erase {r' : Nat} (hm : m ∈ s.mbox r) :
    m' ∈ Function.update s.mbox r ((s.mbox r).erase m) r' ↔ m' ∈ s.mbox r' ∧ m' ≠ m := by
  have hnodup := List.Nodup.of_map _ (h.nodup r)
  rw [update_apply]
  by_cases hr : r' = r
  · rw [if_pos hr, hr, hnodup.mem_erase_iff, and_comm]
  · rw [if_neg hr]
    refine ⟨fun hm' => ⟨hm', ?_⟩, fun hm' => hm'.1⟩
    rintro rfl
    exact hr (h.apart r' r m' m' hm' hm rfl)

theorem MsgInv.addr_ne {r' : Nat} (hm : m ∈ s.mbox r) (hm' : m' ∈ s.mbox r')
    (hne : m' ≠ m) : m'.addr ≠ m.addr := by
  intro he
  have hr := h.apart r' r m' m hm' hm he
  rw [hr] at hm'
  exact hne (List.inj_on_of_nodup_map (h.nodup r) hm' hm he)

theorem MsgInv.order_got {as bs : List Message}
    (hbox : s.mbox recp = as ++ m :: bs) (has : ∀ x ∈ as, x.mSender ≠ m.mSender)
    (stored : Option (List UInt8)) (a r : Nat) :
    sentTo a r (s.log ++ [.got recp m stored]) = gotFrom a r (s.log ++ [.got recp m stored]) ++
      (Function.update s.mbox recp ((s.mbox recp).erase m) r).filter (fun m => m.mSender = a) := by
  rw [sentTo_got, gotFrom_got, h.order a r, List.append_assoc, update_apply]
  by_cases hr : r = recp
  · have hnot : m ∉ as := fun hin => has m hin rfl
    rw [if_pos hr, hr, hbox, List.erase_append_right _ hnot, List.erase_cons_head,
      List.filter_append, List.filter_append]
    by_cases ha : m.mSender = a
    · have hnil : as.filter (fun m => decide (m.mSender = a)) = [] := by
        rw [List.filter_eq_nil_iff]
        intro x hx
        rw [decide_eq_true_eq, ← ha]
        exact has x hx
      simp [ha, hnil]
    · simp [ha]
  · rw [if_neg hr, if_neg (fun he => hr he.1.symm), List.nil_append]

theorem MsgInv.take {as bs : List Message}
    (hbox : s.mbox s.sched.current = as ++ m :: bs) (has : ∀ x ∈ as, x.mSender ≠ m.mSender)
    {s₁ : MsgState} {sched : SchedState} (hrel : MsgState.releaseSender m s.sched = some sched)
    (stored : Option (List UInt8)) :
    ∃ qs', MsgInv (s.taken s₁ sched m stored) qs' ∧ (m.blocks = true → m.mSender ∈ qs' .rq) := by
  have hm : m ∈ s.mbox s.sched.current := by
    rw [hbox]
    exact List.mem_append_right as List.mem_cons_self
  rcases releaseSender_spec h.repr (h.tq _ m hm) hrel with ⟨qs', hrepr, hcur, hq, hrq, hother⟩
  have hmem : ∀ {r m'}, m' ∈ (s.taken s₁ sched m stored).mbox r ↔ m' ∈ s.mbox r ∧ m' ≠ m :=
    h.mem_erase hm
  refine ⟨qs', ⟨hrepr, ?_, ?_, ?_, ?_, ?_, ?_, ?_, ?_, ?_, ?_, ?_, ?_⟩, ?_⟩
  · show sched.current ∈ qs' .rq
    rw [hcur, hrq]
    exact Or.inr h.cur
  · rw [hother _ wakeTq_ne_rq (mTq_ne_wakeTq _).symm, h.wakeTq]
  · intro r m' hm'
    rcases hmem.mp hm' with ⟨hold, hne⟩
    rw [hother _ (mTq_ne_rq _) (fun he => h.addr_ne hm hold hne (mTq_inj.mp he)), h.tq r m' hold]
  · intro a ha
    by_cases haddr : a = m.addr
    · rw [haddr, hq]
    · rw [hother _ (mTq_ne_rq _) (fun he => haddr (mTq_inj.mp he))]
      exact h.idle a (fun hin => ha ((List.mem_erase_of_ne haddr).mpr hin))
  · intro r m' hm'
    rcases hmem.mp hm' with ⟨hold, hne⟩
    exact (List.mem_erase_of_ne (h.addr_ne hm hold hne)).mpr (h.pool r m' hold)
  · intro r
    show ((Function.update s.mbox s.sched.current _ r).map _).Nodup
    rw [update_apply]
    split
    · exact (h.nodup _).sublist (List.erase_sublist.map _)
    · exact h.nodup r
  · intro r r' m₁ m₂ h₁ h₂ haddr
    exact h.apart r r' m₁ m₂ (hmem.mp h₁).1 (hmem.mp h₂).1 haddr
  · intro t ht
    rw [hother _ sleepers_ne_rq (mTq_ne_sleepers _).symm] at ht
    exact h.asleep_back ht
  · intro t ht
    obtain ⟨hne, hwait⟩ := h.waiting_back ht
    rw [hother _ sleepers_ne_rq (mTq_ne_sleepers _).symm]
    show _ ∨ Function.update s.mbox s.sched.current _ t ≠ []
    rw [update_of_ne hne]
    exact hwait
  · exact h.order_got hbox has stored
  · show (sentAll (s.log ++ _)).Pairwise _
    rw [sentAll_got]
    exact h.serial
  · show ∀ m' ∈ sentAll (s.log ++ _), m'.serial < (s.log ++ _).length
    intro m' hm'
    rw [sentAll_got] at hm'
    rw [List.length_append]
    exact Nat.lt_add_right _ (h.fresh m' hm')
  · intro hb
    rw [hrq]
    exact Or.inl ⟨hb, rfl⟩

end

/-- What a call does to the mail that is there: nothing leaves a mailbox, or one
message leaves it by `msg_retrieve`. -/
def KeepsMail (s s' : MsgState) (c : MsgCall) (qs' : Queues) : Prop :=
  (∀ r, ∀ m ∈ s.mbox r, m ∈ s'.mbox r) ∨
    ∃ m buf stored, s.Retrieves c m buf ∧ (∀ r m', m' ∈ s'.mbox r ↔ m' ∈ s.mbox r ∧ m' ≠ m) ∧
      s'.log = s.log ++ [.got s.sched.current m stored] ∧
      (m.blocks = true → m.mSender ∈ qs' .rq)

theorem MsgState.Retrieves.mem {c : MsgCall} (h : s.Retrieves c m buf) :
    m ∈ s.mbox s.sched.current := by
  rcases h.2 with ⟨as, bs, hbox, -⟩
  rw [hbox]
  exact List.mem_append_right as List.mem_cons_self

theorem msgSend_keeps {slice : Option Nat} {areaOk : Bool} {n : Int}
    (hop : s.msgSend recp buf len flags slice areaOk = some (s', n)) :
    ∀ r, ∀ m ∈ s.mbox r, m ∈ s'.mbox r := by
  have hpost : ∀ {s₁ : MsgState} {m : Message}, s₁.mbox = s.mbox → s₁.msgPost recp m = some s' →
      ∀ r, ∀ m ∈ s.mbox r, m ∈ s'.mbox r := by
    intro s₁ m hbox hpost r m' hm'
    rcases msgPost_eq_some hpost with ⟨-, -, -, -, -, -, rfl⟩
    exact mem_mbox_append.mpr (Or.inl (hbox ▸ hm'))
  rcases msgSend_cases hop with rfl | ⟨addr, -, -, -, -, hcase⟩
  · exact fun r m hm => hm
  · rcases hcase with ⟨-, hp⟩ | ⟨-, s₁, r, hstore, hcase⟩
    · have hbox : (s.takeSlice addr).mbox = s.mbox := rfl
      exact hpost hbox hp
    · have hsame := msgStore_sameMail hstore
      rcases hcase with ⟨e, -, rfl⟩ | ⟨mBuf, -, hp⟩
      · intro r m hm
        rw [hsame.mbox]
        exact hm
      · exact hpost hsame.mbox hp

theorem retrieveSleep_mbox {sender : Nat} {msg : Option Message} {n : Option Int}
    (hop : s.retrieveSleep sender buf len flags msg = some (s', n)) : s'.mbox = s.mbox := by
  rcases retrieveSleep_cases hop with rfl | ⟨-, -, -, -, rfl⟩
  · rfl
  · rfl

theorem MsgInv.call (h : MsgInv s qs) {c : MsgCall} (hop : s.call c = some s') :
    ∃ qs', MsgInv s' qs' ∧ KeepsMail s s' c qs' := by
  rcases call_cases h.has_mail hop with rfl | ⟨recp, buf, len, flags, slice, areaOk, n, -, hsend⟩ |
    ⟨sender, buf, len, flags, msg, n, hsleep⟩ | ⟨m, buf, n, hret, htake⟩ |
    ⟨virt, byte, x, -, -, rfl⟩ | ⟨sched', hsched, rfl⟩
  · exact ⟨qs, h, Or.inl (fun r m hm => hm)⟩
  · rcases h.send hsend with ⟨qs', h'⟩
    exact ⟨qs', h', Or.inl (msgSend_keeps hsend)⟩
  · rcases h.sleep hsleep with ⟨qs', h'⟩
    refine ⟨qs', h', Or.inl ?_⟩
    rw [retrieveSleep_mbox hsleep]
    exact fun r m hm => hm
  · rcases retrieveTake_cases htake with ⟨mem, s₁, sched, -, -, hrel, rfl⟩
    rcases hret.2 with ⟨as, bs, hbox, has⟩
    rcases h.take hbox has hrel _ with ⟨qs', h', hrq⟩
    exact ⟨qs', h', Or.inr ⟨m, buf, _, hret, fun r m' => h.mem_erase hret.mem, rfl, hrq⟩⟩
  · exact ⟨qs, h.sameMail ⟨rfl, rfl, rfl, rfl, rfl, rfl⟩, Or.inl (fun r m hm => hm)⟩
  · rcases hsched with hyield | htick
    · rcases yield_spec h.repr hyield with ⟨qs', hrepr, -, hcur, hother, -⟩
      exact ⟨qs', h.resched hrepr hcur hother, Or.inl (fun r m hm => hm)⟩
    · rcases sched0Tick_spec h.repr htick with ⟨hcur, -, hrepr⟩
      refine ⟨_, h.resched hrepr ?_ ?_, Or.inl (fun r m hm => hm)⟩
      · rw [hcur]
        split
        · rw [Queues.mem_rotate_rq]
          exact h.cur
        · exact h.cur
      · intro p hp
        split
        · exact Queues.rotate_of_ne hp
        · rfl

end Inv

/-! ## Runs -/

/-- A system that has booted: the current thread and the others are on the run
queue, no thread sleeps and there is no mail. -/
structure Booted (s : MsgState) : Prop where
  queues : ∃ l, s.sched.current ∈ l ∧ s.sched.Repr (fun q => if q = .rq then l else [])
  mbox : ∀ r, s.mbox r = []
  pc : ∀ t, s.pc t = .user
  log : s.log = []

theorem Booted.inv {s : MsgState} (h : Booted s) : ∃ qs, MsgInv s qs := by
  rcases h.queues with ⟨l, hcur, hrepr⟩
  have hnone : ∀ {r m}, m ∉ s.mbox r := by
    intro r m hm
    rw [h.mbox r] at hm
    exact List.not_mem_nil hm
  refine ⟨_, hrepr, ?_, ?_, ?_, ?_, ?_, ?_, ?_, ?_, ?_, ?_, ?_, ?_⟩
  · exact hcur
  · exact if_neg wakeTq_ne_rq
  · exact fun r m hm => absurd hm hnone
  · exact fun a _ => if_neg (mTq_ne_rq a)
  · exact fun r m hm => absurd hm hnone
  · intro r
    rw [h.mbox r]
    exact List.nodup_nil
  · exact fun r r' m m' hm _ _ => absurd hm hnone
  · intro t ht
    exact absurd ht List.not_mem_nil
  · exact fun t ht => absurd (h.pc t) ht
  · intro a r
    rw [h.log, h.mbox r]
    rfl
  · rw [h.log]
    exact List.Pairwise.nil
  · rw [h.log]
    exact nofun

theorem msgRun_inv {s₀ s : MsgState} {calls : List MsgCall} (hboot : Booted s₀)
    (hrun : run MsgState.call s₀ calls = some s) : ∃ qs, MsgInv s qs := by
  refine run_invariant (fun s => ∃ qs, MsgInv s qs) ?_ hboot.inv hrun
  intro s c s' hinv hcall
  rcases hinv with ⟨qs, hqs⟩
  rcases hqs.call hcall with ⟨qs', hqs', -⟩
  exact ⟨qs', hqs'⟩

/-- A user zone of twelve pages and a memory whose byte at `x` is `x mod 256`. -/
def bootState (sched : SchedState) : MsgState where
  sched := sched
  vm := ⟨memZoneInit (rawZone 12), fun _ => none, fun _ _ => none⟩
  live := []
  nmma := fun _ => 4
  mem := fun x => UInt8.ofNat x
  mbox := fun _ => []
  msgPool := []
  pc := fun _ => .user
  threads := 4
  log := []

theorem bootState_booted {sched : SchedState} (hsched : bootSched = some sched) :
    Booted (bootState sched) where
  queues := by
    rcases (bootSched_ready hsched).lists with ⟨l, -, hcur, -, hrepr⟩
    exact ⟨l, hcur, hrepr⟩
  mbox _ := rfl
  pc _ := rfl
  log := rfl

/-- Delivery is in order and exactly once.  In every state that calls reach, what
one thread has sent another is what the other has retrieved from it, followed by
what is pending in its mailbox, in the order of sending, and no message is sent
twice.  From there, a message leaves a mailbox only when its recipient runs
`msg_retrieve` and stores it; and the sender that waits for a pending message is
on its `m_tq`, and is on the run queue after a call exactly when that call has
retrieved the message. -/
theorem msgRun_delivers {s₀ s : MsgState} {calls : List MsgCall} (hboot : Booted s₀)
    (hrun : run MsgState.call s₀ calls = some s) : (∀ a r, sentTo a r s.log =
      gotFrom a r s.log ++ (s.mbox r).filter (fun m => m.mSender = a)) ∧
      (sentAll s.log).Pairwise (fun m m' => m.serial < m'.serial) ∧
      ∀ c s', s.call c = some s' → ∀ r, ∀ m ∈ s.mbox r,
        (m ∉ s'.mbox r → r = s.sched.current ∧ ∃ buf stored,
          s.retrieveArgs c = some (m.mSender, buf) ∧ s'.log = s.log ++ [.got r m stored]) ∧
        (m.blocks = true → s.sched.LinkedIn m.mSender (mTq m.addr) ∧
          (s'.sched.LinkedIn m.mSender .rq ↔ m ∉ s'.mbox r)) := by
  rcases msgRun_inv hboot hrun with ⟨qs, h⟩
  refine ⟨h.order, h.serial, ?_⟩
  intro c s' hcall r m hm
  rcases h.call hcall with ⟨qs', h', hkeeps⟩
  -- a message that has left is the one that was retrieved
  have hgone : m ∉ s'.mbox r → r = s.sched.current ∧ (∃ buf stored,
      s.retrieveArgs c = some (m.mSender, buf) ∧ s'.log = s.log ++ [.got r m stored]) ∧
      (m.blocks = true → m.mSender ∈ qs' .rq) := by
    intro hnot
    rcases hkeeps with hkeep | ⟨m₁, buf, stored, hret, hmem, hlog, hrq⟩
    · exact absurd (hkeep r m hm) hnot
    · have heq : m = m₁ := by
        by_contra hne
        exact hnot ((hmem r m).mpr ⟨hm, hne⟩)
      rw [heq] at hm ⊢
      have hr := h.apart r s.sched.current m₁ m₁ hm hret.mem rfl
      exact ⟨hr, ⟨buf, stored, hret.1, by rw [hlog, hr]⟩, hrq⟩
  refine ⟨fun hnot => ⟨(hgone hnot).1, (hgone hnot).2.1⟩, ?_⟩
  intro hb
  rw [h.repr.linkedIn_iff, h'.repr.linkedIn_iff, h.tq r m hm, if_pos hb]
  refine ⟨List.mem_singleton_self _, ?_, ?_⟩
  · intro hrq hm'
    have htq := h'.tq r m hm'
    rw [if_pos hb] at htq
    have hmem : m.mSender ∈ qs' (mTq m.addr) := by
      rw [htq]
      exact List.mem_singleton_self _
    exact mTq_ne_rq _ (h'.repr.queue_unique hmem hrq)
  · intro hnot
    exact (hgone hnot).2.2 hb

/-- Thread 1 sleeps until there is a message from thread 2.  A message from
thread 3 wakes it for nothing; then thread 2 sends one and waits, and runs again
when it is retrieved. -/
theorem msgRun_delivers_wait : ∃ s₀ s, Booted s₀ ∧ run MsgState.call s₀
      [.retrieve 2 300000 1 MF_BLOCK, .send 1 200001 1 0 (some 0) true, .resume, .yield,
        .send 1 200002 1 MF_BLOCK (some 1) true, .yield] = some s ∧
      (s.mbox 1).map Message.mSender = [3, 2] ∧
      ∀ c s', s.call c = some s' → ∀ r, ∀ m ∈ s.mbox r, m.blocks = true →
        (s'.sched.LinkedIn m.mSender .rq ↔ m ∉ s'.mbox r) := by
  have hsome : ((bootSched.bind (fun sched => run MsgState.call (bootState sched)
      [.retrieve 2 300000 1 MF_BLOCK, .send 1 200001 1 0 (some 0) true, .resume, .yield,
        .send 1 200002 1 MF_BLOCK (some 1) true, .yield])).map
      (fun s => (s.mbox 1).map Message.mSender)) = some [3, 2] := by decide +kernel
  rcases exists_bootRun hsome with ⟨sched, s, hsched, hrun, hmbox⟩
  have hboot := bootState_booted hsched
  refine ⟨bootState sched, s, hboot, hrun, hmbox, ?_⟩
  intro c s' hcall r m hm hb
  exact (((msgRun_delivers hboot hrun).2.2 c s' hcall r m hm).2 hb).2

end Koowaldah
