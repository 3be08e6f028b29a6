import Koowaldah.Message.Queues

/-!
# The calls, taken apart

What each function of the message model can do, said once: the later proofs
use these lemmas and do not unfold the functions.
-/

namespace Koowaldah

open Function SysLib

/-- The messages, the threads and the queues are as they were. -/
structure SameMail (s s' : MsgState) : Prop where
  sched : s'.sched = s.sched
  mbox : s'.mbox = s.mbox
  msgPool : s'.msgPool = s.msgPool
  pc : s'.pc = s.pc
  threads : s'.threads = s.threads
  log : s'.log = s.log

section Calls

variable {s s' : MsgState}

variable {recp buf len flags sender : Nat} {areaOk : Bool} {r : Except Int Nat}
  {msg : Option Message} {m : Message}

theorem SameMail.trans {s₁ : MsgState} (h : SameMail s s₁) (h' : SameMail s₁ s') :
    SameMail s s' where
  sched := h'.sched.trans h.sched
  mbox := h'.mbox.trans h.mbox
  msgPool := h'.msgPool.trans h.msgPool
  pc := h'.pc.trans h.pc
  threads := h'.threads.trans h.threads
  log := h'.log.trans h.log

theorem getPage_eq_some {ppg : Nat} (hop : s.getPage = some (s', ppg)) :
    ∃ pg, (rawAllocPages s.vm.zone 0).2 = some pg ∧
      s' = { s with
        vm := { s.vm with zone := (rawAllocPages s.vm.zone 0).1 }, live := ⟨0, pg⟩ :: s.live } ∧
      ppg = pageToAddr (rawAllocPages s.vm.zone 0).1 pg := by
  rcases Option.map_eq_some_iff.mp hop with ⟨pg, hpg, heq⟩
  rcases Prod.mk.inj heq with ⟨hs', hppg⟩
  exact ⟨pg, hpg, hs'.symm, hppg.symm⟩

theorem freeSlice_takeSlice (addr : Nat) (s : MsgState) :
    (s.takeSlice addr).freeSlice addr = s := by
  unfold MsgState.freeSlice MsgState.takeSlice
  simp only [List.erase_cons_head]

theorem mboxArea_sameMail (recp : Nat) (areaOk : Bool) (s : MsgState) :
    SameMail s (s.mboxArea recp areaOk).1 := by
  unfold MsgState.mboxArea
  split
  · split
    · exact ⟨rfl, rfl, rfl, rfl, rfl, rfl⟩
    · exact ⟨rfl, rfl, rfl, rfl, rfl, rfl⟩
  · exact ⟨rfl, rfl, rfl, rfl, rfl, rfl⟩

theorem mapMessage_sameMail {ppg : Nat} (hop : s.mapMessage recp ppg areaOk = some (s', r)) :
    SameMail s s' := by
  rcases Option.bind_eq_some_iff.mp hop with ⟨pg, -, hop₁⟩
  have hsame := mboxArea_sameMail recp areaOk s
  split at hop₁
  · rename_i s₁ hbox
    rw [hbox] at hsame
    cases hop₁
    exact hsame
  · rename_i s₁ hbox
    rw [hbox] at hsame
    rcases Option.bind_eq_some_iff.mp hop₁ with ⟨area, -, hop₂⟩
    rcases Option.map_eq_some_iff.mp hop₂ with ⟨vm, -, heq⟩
    cases heq
    exact hsame.trans ⟨rfl, rfl, rfl, rfl, rfl, rfl⟩

theorem msgStore_sameMail (hop : s.msgStore recp buf len areaOk = some (s', r)) :
    SameMail s s' := by
  rcases Option.bind_eq_some_iff.mp hop with ⟨⟨s₁, ppg⟩, hpage, hop₁⟩
  rcases Option.bind_eq_some_iff.mp hop₁ with ⟨mem, -, hop₂⟩
  rcases getPage_eq_some hpage with ⟨pg, -, rfl, -⟩
  have hsame := mapMessage_sameMail hop₂
  exact ⟨hsame.sched, hsame.mbox, hsame.msgPool, hsame.pc, hsame.threads, hsame.log⟩

theorem releasePage_sameMail {mBuf : Nat} (hop : s.releasePage mBuf = some s') : SameMail s s' := by
  rcases Option.bind_eq_some_iff.mp hop with ⟨pg, -, hop₁⟩
  rcases Option.bind_eq_some_iff.mp hop₁ with ⟨vm, -, hop₂⟩
  rcases Option.bind_eq_some_iff.mp hop₂ with ⟨zone, -, heq⟩
  cases heq
  exact ⟨rfl, rfl, rfl, rfl, rfl, rfl⟩

/-- What `msg_send` can do: refuse, post the address of the buffer of the sender,
or post a page that holds the message. -/
theorem msgSend_cases {slice : Option Nat} {n : Int}
    (hop : s.msgSend recp buf len flags slice areaOk = some (s', n)) :
    s' = s ∨ ∃ addr, slice = some addr ∧ addr ∉ s.msgPool ∧ recp < s.threads ∧
      len ≤ PAGE_SIZE ∧
      ((hasFlag flags MF_BLOCK = true ∧
          (s.takeSlice addr).msgPost recp
            (s.newMessage addr buf len flags (s.virt2phys s.sched.current buf)) = some s') ∨
        (hasFlag flags MF_BLOCK = false ∧ ∃ s₁ r,
          (s.takeSlice addr).msgStore recp buf len areaOk = some (s₁, r) ∧
          ((∃ e, r = .error e ∧ s' = s₁) ∨
            ∃ mBuf, r = .ok mBuf ∧
              s₁.msgPost recp (s.newMessage addr buf len flags mBuf) = some s'))) := by
  unfold MsgState.msgSend at hop
  split at hop
  · exact Or.inl (Prod.mk.inj (Option.some.inj hop)).1.symm
  · split at hop
    · exact Or.inl (Prod.mk.inj (Option.some.inj hop)).1.symm
    · split at hop
      · exact Or.inl (Prod.mk.inj (Option.some.inj hop)).1.symm
      · split at hop
        · exact Or.inl (Prod.mk.inj (Option.some.inj hop)).1.symm
        · rename_i addr
          split at hop
          · cases hop
          · rename_i hfresh
            have hargs : recp < s.threads ∧ len ≤ PAGE_SIZE := ⟨by omega, by omega⟩
            split at hop
            · rename_i hblock
              rcases Option.map_eq_some_iff.mp hop with ⟨s₁, hpost, heq⟩
              rw [(Prod.mk.inj heq).1] at hpost
              exact Or.inr ⟨addr, rfl, hfresh, hargs.1, hargs.2, Or.inl ⟨hblock, hpost⟩⟩
            · rename_i hblock
              dsimp only at hop
              split at hop
              -- without a page the slice is given back
              · rw [freeSlice_takeSlice] at hop
                exact Or.inl (Prod.mk.inj (Option.some.inj hop)).1.symm
              · rcases Option.bind_eq_some_iff.mp hop with ⟨⟨s₁, r⟩, hstore, hop₁⟩
                refine Or.inr ⟨addr, rfl, hfresh, hargs.1, hargs.2,
                  Or.inr ⟨Bool.not_eq_true _ ▸ hblock, s₁, r, hstore, ?_⟩⟩
                cases r with
                | error e => exact Or.inl ⟨e, rfl, (Prod.mk.inj (Option.some.inj hop₁)).1.symm⟩
                | ok mBuf =>
                  rcases Option.map_eq_some_iff.mp hop₁ with ⟨s₂, hpost, heq⟩
                  rw [(Prod.mk.inj heq).1] at hpost
                  exact Or.inr ⟨mBuf, rfl, hpost⟩

theorem retrieveSleep_cases {n : Option Int}
    (hop : s.retrieveSleep sender buf len flags msg = some (s', n)) :
    s' = { s with pc := Function.update s.pc s.sched.current .user } ∨
      ∃ sched₁ sched', s.sched.sched0Dequeue sleepers = some sched₁ ∧
        sched₁.sched0Yield = some sched' ∧
        s' = { s with
          sched := sched'
          pc := Function.update s.pc s.sched.current (.retrieve sender buf len flags msg) } := by
  unfold MsgState.retrieveSleep at hop
  split at hop
  · right
    rcases Option.bind_eq_some_iff.mp hop with ⟨sched₁, hdeq, hop₁⟩
    rcases Option.bind_eq_some_iff.mp hop₁ with ⟨sched', hyield, heq⟩
    exact ⟨sched₁, sched', hdeq, hyield, (Prod.mk.inj (Option.some.inj heq)).1.symm⟩
  · left
    exact (Prod.mk.inj (Option.some.inj hop)).1.symm

/-- The state after a message was retrieved: `s₁` is the one with the page
released, and `sched` the queues with the sender released. -/
def MsgState.taken (s s₁ : MsgState) (sched : SchedState) (m : Message)
    (stored : Option (List UInt8)) : MsgState :=
  { s₁ with
    sched := sched
    mbox := Function.update s.mbox s.sched.current ((s.mbox s.sched.current).erase m)
    msgPool := s.msgPool.erase m.addr
    pc := Function.update s.pc s.sched.current .user
    log := s.log ++ [.got s.sched.current m stored] }

theorem releaseBuf_sameMail (hop : s.releaseBuf m = some s') : SameMail s s' := by
  unfold MsgState.releaseBuf at hop
  split at hop
  · cases hop
    exact ⟨rfl, rfl, rfl, rfl, rfl, rfl⟩
  · exact releasePage_sameMail hop

theorem retrieveTake_cases {n : Int} (hop : s.retrieveTake buf m = some (s', n)) : ∃ mem s₁ sched,
      memoryCopyVia (s.translate s.sched.current) s.mem buf m.mBuf m.mLen = some mem ∧
      ({ s with mem := mem } : MsgState).releaseBuf m = some s₁ ∧
      MsgState.releaseSender m s.sched = some sched ∧
      s' = s.taken s₁ sched m (readVia (s.translate s.sched.current) mem buf m.mLen) := by
  rcases Option.bind_eq_some_iff.mp hop with ⟨mem, hcopy, hop₁⟩
  rcases Option.bind_eq_some_iff.mp hop₁ with ⟨s₁, hrel, hop₂⟩
  rcases Option.bind_eq_some_iff.mp hop₂ with ⟨sched, hwake, heq⟩
  have hsame := releaseBuf_sameMail hrel
  rw [hsame.sched] at hwake
  refine ⟨mem, s₁, sched, hcopy, hrel, hwake, ?_⟩
  rw [← (Prod.mk.inj (Option.some.inj heq)).1, hsame.mbox, hsame.msgPool, hsame.pc, hsame.log]
  rfl

/-- A message that was found is the first of its sender, or the mailbox is
empty and the variable has kept its value. -/
theorem scan_eq_some {l : List Message} (hscan : MsgState.scan sender msg l = some m)
    (hm : m.mSender = sender) :
    (∃ as bs, l = as ++ m :: bs ∧ ∀ x ∈ as, x.mSender ≠ sender) ∨ l = [] := by
  induction l generalizing msg with
  | nil => exact Or.inr rfl
  | cons x l ih =>
    left
    unfold MsgState.scan at hscan
    split at hscan
    · cases hscan
      exact ⟨[], l, rfl, nofun⟩
    · rename_i hx
      rcases ih hscan with ⟨as, bs, hl, has⟩ | hnil
      · refine ⟨x :: as, bs, by rw [hl]; rfl, ?_⟩
        intro y hy
        rcases List.mem_cons.mp hy with rfl | hy
        · exact hx
        · exact has y hy
      · rw [hnil] at hscan
        rw [← Option.some.inj hscan] at hm
        exact absurd hm hx

theorem retrieveScan_cases {n : Option Int} (hne : s.mbox s.sched.current ≠ [])
    (hop : s.retrieveScan sender buf len flags msg = some (s', n)) :
    (∃ msg', s.retrieveSleep sender buf len flags msg' = some (s', n)) ∨
      ∃ m as bs n', m.mSender = sender ∧ s.mbox s.sched.current = as ++ m :: bs ∧
        (∀ x ∈ as, x.mSender ≠ m.mSender) ∧ s.retrieveTake buf m = some (s', n') := by
  rcases Option.bind_eq_some_iff.mp hop with ⟨m, hscan, hop₁⟩
  split at hop₁
  · exact Or.inl ⟨_, hop₁⟩
  · rename_i hsender
    have hm : m.mSender = sender := not_not.mp hsender
    rcases Option.map_eq_some_iff.mp hop₁ with ⟨⟨s₁, n'⟩, htake, heq⟩
    rw [(Prod.mk.inj heq).1] at htake
    rcases scan_eq_some hscan hm with ⟨as, bs, hl, has⟩ | hnil
    · exact Or.inr ⟨m, as, bs, n', hm, hl, hm.symm ▸ has, htake⟩
    · exact absurd hnil hne

theorem msgPost_eq_some (hop : s.msgPost recp m = some s') : ∃ sched₁ sched₂ sched',
      MsgState.wake s.threads recp (s.sched.tqInit (mTq m.addr)) = some sched₁ ∧
      MsgState.blockSender m sched₁ = some sched₂ ∧ sched₂.sched0Yield = some sched' ∧
      s' = { s with
        sched := sched'
        mbox := Function.update s.mbox recp (s.mbox recp ++ [m])
        log := s.log ++ [.sent recp m] } := by
  rcases Option.bind_eq_some_iff.mp hop with ⟨sched₁, hwake, hop₁⟩
  rcases Option.bind_eq_some_iff.mp hop₁ with ⟨sched₂, hblock, hop₂⟩
  rcases Option.bind_eq_some_iff.mp hop₂ with ⟨sched', hyield, heq⟩
  exact ⟨sched₁, sched₂, sched', hwake, hblock, hyield, (Option.some.inj heq).symm⟩

/-- The sender and the buffer of a call that runs `msg_retrieve`. -/
def MsgState.retrieveArgs (s : MsgState) (c : MsgCall) : Option (Nat × Nat) :=
  match s.pc s.sched.current, c with
  | .user, .retrieve sender buf _ _ => some (sender, buf)
  | .retrieve sender buf _ _ _, .resume => some (sender, buf)
  | _, _ => none

/-- The call retrieves the message if it retrieves one: `m` is the first of its
sender in the mailbox of the current thread. -/
def MsgState.Retrieves (s : MsgState) (c : MsgCall) (m : Message) (buf : Nat) : Prop :=
  s.retrieveArgs c = some (m.mSender, buf) ∧
    ∃ as bs, s.mbox s.sched.current = as ++ m :: bs ∧ ∀ x ∈ as, x.mSender ≠ m.mSender

/-- What a step can be.  A thread that goes on in `msg_retrieve` has to have a
message in its mailbox; `msg` may be `NULL` otherwise. -/
theorem call_cases {c : MsgCall} (hne : s.pc s.sched.current ≠ .user → s.mbox s.sched.current ≠ [])
    (hop : s.call c = some s') : s' = s ∨
      (∃ recp buf len flags slice areaOk n, c = .send recp buf len flags slice areaOk ∧
        s.msgSend recp buf len flags slice areaOk = some (s', n)) ∨
      (∃ sender buf len flags msg n, s.retrieveSleep sender buf len flags msg = some (s', n)) ∨
      (∃ m buf n, s.Retrieves c m buf ∧ s.retrieveTake buf m = some (s', n)) ∨
      (∃ virt byte x, c = .store virt byte ∧ s.translate s.sched.current virt = some x ∧
        s' = { s with mem := Function.update s.mem x byte }) ∨
      ∃ sched', (s.sched.sched0Yield = some sched' ∨ s.sched.sched0Tick = some sched') ∧
        s' = { s with sched := sched' } := by
  have hscan : ∀ {sender buf len flags : Nat} {msg : Option Message} {n : Option Int},
      s.retrieveArgs c = some (sender, buf) → s.mbox s.sched.current ≠ [] →
      s.retrieveScan sender buf len flags msg = some (s', n) →
      (∃ sender buf len flags msg n, s.retrieveSleep sender buf len flags msg = some (s', n)) ∨
        ∃ m buf n, s.Retrieves c m buf ∧ s.retrieveTake buf m = some (s', n) := by
    intro sender buf len flags msg n hargs hbox hop
    rcases retrieveScan_cases hbox hop with ⟨msg', hsleep⟩ | ⟨m, as, bs, n', hm, hl, has, htake⟩
    · exact Or.inl ⟨sender, buf, len, flags, msg', n, hsleep⟩
    · exact Or.inr ⟨m, buf, n', ⟨hm ▸ hargs, as, bs, hl, has⟩, htake⟩
  unfold MsgState.call at hop
  split at hop
  · rename_i recp buf len flags slice areaOk hpc
    rcases Option.map_eq_some_iff.mp hop with ⟨⟨s₁, n⟩, hsend, rfl⟩
    exact Or.inr (Or.inl ⟨recp, buf, len, flags, slice, areaOk, n, rfl, hsend⟩)
  · rename_i sender buf len flags hpc
    rcases Option.map_eq_some_iff.mp hop with ⟨⟨s₁, n⟩, hret, rfl⟩
    unfold MsgState.msgRetrieve at hret
    split at hret
    · exact Or.inl (Prod.mk.inj (Option.some.inj hret)).1.symm
    · split at hret
      · exact Or.inr (Or.inr (Or.inl ⟨sender, buf, len, flags, none, n, hret⟩))
      · rename_i hbox
        have hargs : s.retrieveArgs (.retrieve sender buf len flags) = some (sender, buf) := by
          unfold MsgState.retrieveArgs
          rw [hpc]
        rcases hscan hargs (fun h => hbox (by rw [h]; rfl)) hret with h | h
        · exact Or.inr (Or.inr (Or.inl h))
        · exact Or.inr (Or.inr (Or.inr (Or.inl h)))
  · rename_i sender buf len flags msg hpc
    rcases Option.map_eq_some_iff.mp hop with ⟨⟨s₁, n⟩, hret, rfl⟩
    have hargs : s.retrieveArgs .resume = some (sender, buf) := by
      unfold MsgState.retrieveArgs
      rw [hpc]
    rcases hscan hargs (hne (by rw [hpc]; exact nofun)) hret with h | h
    · exact Or.inr (Or.inr (Or.inl h))
    · exact Or.inr (Or.inr (Or.inr (Or.inl h)))
  · rename_i virt byte hpc
    rcases Option.map_eq_some_iff.mp hop with ⟨x, hx, rfl⟩
    exact Or.inr (Or.inr (Or.inr (Or.inr (Or.inl ⟨virt, byte, x, rfl, hx, rfl⟩))))
  · rcases Option.map_eq_some_iff.mp hop with ⟨sched', hyield, rfl⟩
    exact Or.inr (Or.inr (Or.inr (Or.inr (Or.inr ⟨sched', Or.inl hyield, rfl⟩))))
  · rcases Option.map_eq_some_iff.mp hop with ⟨sched', htick, rfl⟩
    exact Or.inr (Or.inr (Or.inr (Or.inr (Or.inr ⟨sched', Or.inr htick, rfl⟩))))
  · cases hop

/-! ### Memory -/

/-- The mailbox area that a message to `recp` is mapped into: the one that is
there, or a new one when the mapping has four areas. -/
def MsgState.mboxOf (s : MsgState) (recp : Nat) (r : MemArea) : Prop :=
  if s.nmma recp = 4 then
    r.mEnd = USERMEM_MBOX ∧ hasFlag r.mFlags MMA_STACK = false
  else s.vm.areas recp = some r

/-- What is the same in all the states of the branch of `msg_send` without
`MF_BLOCK`, up to the mapping of the page. -/
theorem mboxArea_cases {ok : Bool} (hbox : s.mboxArea recp areaOk = (s', ok)) :
    s'.vm.zone = s.vm.zone ∧ s'.vm.pgtable = s.vm.pgtable ∧ s'.live = s.live ∧ s'.mem = s.mem ∧
      (∀ t, t ≠ recp → s'.vm.areas t = s.vm.areas t ∧ s'.nmma t = s.nmma t) ∧
      s'.nmma recp ≠ 4 ∧
      ((ok = true ∧ ∀ r, s'.vm.areas recp = some r → s.mboxOf recp r) ∨
        (ok = false ∧ s'.vm.areas recp = none)) := by
  unfold MsgState.mboxArea at hbox
  unfold MsgState.mboxOf
  split at hbox
  · rename_i hnmma
    split at hbox
    · cases hbox
      refine ⟨rfl, rfl, rfl, rfl, ?_, ?_, Or.inl ⟨rfl, ?_⟩⟩
      · intro t ht
        exact ⟨update_of_ne ht _ _, update_of_ne ht _ _⟩
      · show Function.update s.nmma recp 5 recp ≠ 4
        rw [update_self]
        decide
      · intro r hr
        have hr' : Function.update s.vm.areas recp (some _) recp = some r := hr
        rw [update_self, Option.some.injEq] at hr'
        rw [if_pos hnmma, ← hr']
        have hgrows : hasFlag MMA_GROWS MMA_STACK = false := by decide
        exact ⟨rfl, hgrows⟩
    · cases hbox
      refine ⟨rfl, rfl, rfl, rfl, ?_, ?_, Or.inr ⟨rfl, update_self ..⟩⟩
      · intro t ht
        exact ⟨update_of_ne ht _ _, update_of_ne ht _ _⟩
      · show Function.update s.nmma recp 5 recp ≠ 4
        rw [update_self]
        decide
  · rename_i hnmma
    cases hbox
    refine ⟨rfl, rfl, rfl, rfl, fun t _ => ⟨rfl, rfl⟩, hnmma, Or.inl ⟨rfl, ?_⟩⟩
    intro r hr
    rw [if_neg hnmma]
    exact hr

/-- What the branch of `msg_send` without `MF_BLOCK` does to memory: the message
is copied to a page that was free, and the page is mapped at the end of the
mailbox area, or not mapped when there is no area. -/
theorem msgStore_cases (hop : s.msgStore recp buf len areaOk = some (s', r)) : ∃ pg pg' mem,
      (rawAllocPages s.vm.zone 0).2 = some pg ∧
      memoryCopyVia (s.translate s.sched.current) s.mem
        (pageToAddr (rawAllocPages s.vm.zone 0).1 pg) buf len = some mem ∧
      addrToPage (rawAllocPages s.vm.zone 0).1
        (pageToAddr (rawAllocPages s.vm.zone 0).1 pg) = some pg' ∧
      s'.mem = mem ∧ s'.live = ⟨0, pg⟩ :: s.live ∧
      (rawAllocPages s.vm.zone 0).1.SameLevels s'.vm.zone ∧
      s'.nmma recp ≠ 4 ∧
      (∀ t, t ≠ recp → s'.vm.areas t = s.vm.areas t ∧ s'.nmma t = s.nmma t) ∧
      ((∃ e, r = .error e ∧ s'.vm.pgtable = s.vm.pgtable ∧ s'.vm.areas recp = none) ∨
        ∃ mBuf a, r = .ok mBuf ∧ s.mboxOf recp a ∧
          s'.vm.pgtable = Function.update s.vm.pgtable recp
            (Function.update (s.vm.pgtable recp) (a.mEnd / PAGE_SIZE)
              (some ⟨pageToAddr (rawAllocPages s.vm.zone 0).1 pg, a.mProt⟩)) ∧
          (hasFlag a.mFlags MMA_STACK = false →
            mBuf = a.mEnd ∧ s'.vm.areas recp = some
              { a with mEnd := addWord a.mEnd PAGE_SIZE, mPages := addWord a.mPages 1 })) := by
  rcases Option.bind_eq_some_iff.mp hop with ⟨⟨s₁, ppg⟩, hpage, hop₁⟩
  rcases Option.bind_eq_some_iff.mp hop₁ with ⟨mem, hcopy, hop₂⟩
  rcases getPage_eq_some hpage with ⟨pg, hpg, rfl, rfl⟩
  rcases Option.bind_eq_some_iff.mp hop₂ with ⟨pg', hpg', hop₃⟩
  refine ⟨pg, pg', mem, hpg, hcopy, hpg', ?_⟩
  split at hop₃
  · rename_i s₂ hbox
    rcases mboxArea_cases hbox with ⟨hzone, hpgt, hlive, hmem, hother, hnmma, hok⟩
    cases hop₃
    rcases hok with ⟨hok, -⟩ | ⟨-, hnone⟩
    · cases hok
    · refine ⟨hmem, hlive, ?_, hnmma, hother, Or.inl ⟨_, rfl, hpgt, hnone⟩⟩
      rw [hzone]
      exact ⟨rfl, rfl, rfl, rfl⟩
  · rename_i s₂ hbox
    rcases mboxArea_cases hbox with ⟨hzone, hpgt, hlive, hmem, hother, hnmma, hok⟩
    rcases Option.bind_eq_some_iff.mp hop₃ with ⟨a, ha, hop₄⟩
    rcases Option.map_eq_some_iff.mp hop₄ with ⟨vm, hadd, heq⟩
    cases heq
    rcases VmState.memAreaAddPage_eq_ok (toOption_eq_some.mp hadd) with
      ⟨a', ha', hlevels, hpgt', hothers, hareas⟩
    obtain rfl : a = a' := Option.some.inj (ha.symm.trans ha')
    have hmbox : s.mboxOf recp a := by
      rcases hok with ⟨-, harea⟩ | ⟨hok, -⟩
      · exact harea a ha
      · cases hok
    refine ⟨hmem, hlive, ?_, hnmma, ?_, Or.inr ⟨_, a, rfl, hmbox, ?_, ?_⟩⟩
    · have hzone' : s₂.vm.zone = (rawAllocPages s.vm.zone 0).1 := hzone
      rw [← hzone']
      exact hlevels
    · intro t ht
      exact ⟨(hothers t ht).trans (hother t ht).1, (hother t ht).2⟩
    · rw [hpgt']
      unfold VmState.mapPage
      rw [hpgt]
    · intro hstack
      rcases hareas hstack with ⟨hvirt, harea⟩
      exact ⟨hvirt, harea⟩

theorem releasePage_eq_some {mBuf : Nat} (hop : s.releasePage mBuf = some s') :
    ∃ pg a zone, addrToPage s.vm.zone (s.virt2physpg s.sched.current mBuf) = some pg ∧
      s.vm.areas s.sched.current = some a ∧ s.vm.zone.SameLevels zone ∧
      putPages zone (s.virt2physpg s.sched.current mBuf) = some s'.vm.zone ∧
      s'.mem = s.mem ∧ s'.live = s.live.erase ⟨0, pg⟩ ∧ s'.nmma = s.nmma ∧
      s'.vm.pgtable = Function.update s.vm.pgtable s.sched.current
        (Function.update (s.vm.pgtable s.sched.current) (mBuf / PAGE_SIZE) none) ∧
      s'.vm.areas = Function.update s.vm.areas s.sched.current (some
        { a with mPages := subWord a.mPages 1, mEnd := subWord a.mEnd PAGE_SIZE }) := by
  rcases Option.bind_eq_some_iff.mp hop with ⟨pg, hpg, hop₁⟩
  rcases Option.bind_eq_some_iff.mp hop₁ with ⟨vm, hrem, hop₂⟩
  rcases Option.bind_eq_some_iff.mp hop₂ with ⟨zone, hput, heq⟩
  rcases VmState.memAreaRemovePage_eq_ok (toOption_eq_some.mp hrem) with
    ⟨a, ha, hlevels, hpgt, hareas⟩
  cases heq
  exact ⟨pg, a, vm.zone, hpg, ha, hlevels, hput, rfl, rfl, rfl, hpgt, hareas⟩

end Calls

end Koowaldah
