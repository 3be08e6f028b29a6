import Koowaldah.Message.Delivery

/-!
# Content

The bytes that `msg_retrieve` stores are those that the buffer of the sender
held, as long as no message is mapped over another one.

A message that does not block lies in a page of the user zone that is mapped
into the mailbox area of the recipient (`InPage`).  One that blocks lies in the
buffer of the sender, and `m_buf` is its physical address (`InPlace`).
`MailCore` says that every pending message lies where `m_buf` points and that
they keep apart.  It is kept by every call that meets `MailCond`:

* `msg_send` without `MF_BLOCK` maps the page at `m_end` of the mailbox area,
  and no pending message may be mapped there.  `m_end` goes down by a page when
  any message is retrieved, so it can come to lie on a pending one;
* `msg_send` with `MF_BLOCK` translates the first byte of the buffer only, so
  the buffer has to lie in one piece in physical memory;
* a buffer that is sent from is not in free memory, and what is stored into by
  `msg_retrieve` or between the calls holds no pending message.
-/

namespace Koowaldah

open Function SysLib SysLib.Dyadic

/-! ## Where a message lies -/

namespace MsgState

/-- The page table of the recipient maps `m_buf` to a page of the zone. -/
def PteAt (s : MsgState) (r : Nat) (m : Message) (pg : Nat) : Prop :=
  ∃ flags, s.vm.pgtable r (m.mBuf / PAGE_SIZE) = some ⟨pageToAddr s.vm.zone pg, flags⟩

/-- The message lies in a page of the zone that is mapped at `m_buf`. -/
structure InPage (s : MsgState) (r : Nat) (m : Message) (pg : Nat) : Prop where
  live : ⟨0, pg⟩ ∈ s.live
  pte : s.PteAt r m pg
  aligned : m.mBuf % PAGE_SIZE = 0
  user : USERMEM_START ≤ m.mBuf
  len : m.mLen ≤ PAGE_SIZE
  held : m.held = some (readBytes s.mem (pageToAddr s.vm.zone pg) m.mLen)

/-- The message lies at the physical address `m_buf`. -/
structure InPlace (s : MsgState) (m : Message) : Prop where
  low : ∀ i < m.mLen, m.mBuf + i < USERMEM_START
  used : ∀ i < m.mLen, ¬ FreeByte s.vm.zone (m.mBuf + i)
  held : m.held = some (readBytes s.mem m.mBuf m.mLen)

/-- The physical byte holds a byte of a pending message. -/
def HoldsMail (s : MsgState) (x : Nat) : Prop :=
  ∃ r, ∃ m ∈ s.mbox r, ∃ i < m.mLen, s.translate r (m.mBuf + i) = some x

/-- The physical byte is in the page of a pending message. -/
def InMailPage (s : MsgState) (x : Nat) : Prop :=
  ∃ r, ∃ m ∈ s.mbox r, m.blocks = false ∧ ∃ e, s.vm.pgtable r (m.mBuf / PAGE_SIZE) = some e ∧
    e.phys ≤ x ∧ x < e.phys + PAGE_SIZE

end MsgState

def OutOfPage (z : Zone) (pg x : Nat) : Prop :=
  x < pageToAddr z pg ∨ pageToAddr z pg + PAGE_SIZE ≤ x

/-! ## The condition -/

/-- The buffer that is sent from. -/
structure SendOk (s : MsgState) (recp buf len flags : Nat) : Prop where
  used : ∀ i < len, ∀ x, s.translate s.sched.current (buf + i) = some x →
    ¬ FreeByte s.vm.zone x
  /-- The buffer lies in one piece, and not in the page of a pending message. -/
  piece : hasFlag flags MF_BLOCK = true → ∃ p, p + len ≤ USERMEM_START ∧
    (∀ i < len, s.translate s.sched.current (buf + i) = some (p + i)) ∧
    ∀ i < len, ¬ s.InMailPage (p + i)
  /-- No pending message is mapped at the end of the mailbox area. -/
  vacant : hasFlag flags MF_BLOCK = false → s.nmma recp ≠ 4 → ∀ a, s.vm.areas recp = some a →
    ∀ m ∈ s.mbox recp, m.blocks = false → m.mBuf ≠ a.mEnd

/-- The buffer of `n` bytes that is stored into. -/
structure DestOk (s : MsgState) (buf n : Nat) : Prop where
  apart : ∀ i < n, ∀ x, s.translate s.sched.current (buf + i) = some x → ¬ s.HoldsMail x
  inj : ∀ i < n, ∀ j < n, ∀ x, s.translate s.sched.current (buf + i) = some x →
    s.translate s.sched.current (buf + j) = some x → i = j

/-- The condition on a call, in the state before it. -/
def MailCond (s : MsgState) (c : MsgCall) : Prop :=
  match c with
  | .send recp buf len flags _ _ => SendOk s recp buf len flags
  | .store virt _ => ∀ x, s.translate s.sched.current virt = some x → ¬ s.HoldsMail x
  | c => ∀ sender buf, s.retrieveArgs c = some (sender, buf) →
      ∀ m ∈ s.mbox s.sched.current, m.mSender = sender → DestOk s buf m.mLen

/-! ## The invariant -/

/-- Every pending message lies where `m_buf` points, and they keep apart. -/
structure MailCore (s : MsgState) (lo hi : Nat) : Prop where
  buddy : BuddyInv s.vm.zone lo hi s.live
  lo_pos : 0 < lo
  hi_le : hi ≤ s.vm.zone.totalPages
  low : s.vm.zone.base + s.vm.zone.totalPages * PAGE_SIZE ≤ USERMEM_START
  page : ∀ r, ∀ m ∈ s.mbox r, m.blocks = false → ∃ pg, s.InPage r m pg
  place : ∀ r, ∀ m ∈ s.mbox r, m.blocks = true → s.InPlace m
  pageApart : ∀ r r' m m' pg, m ∈ s.mbox r → m' ∈ s.mbox r' → m.blocks = false →
    m'.blocks = false → s.PteAt r m pg → s.PteAt r' m' pg → m = m'
  bufApart : ∀ r m m', m ∈ s.mbox r → m' ∈ s.mbox r → m.blocks = false → m'.blocks = false →
    m.mBuf = m'.mBuf → m = m'
  placeApart : ∀ r r' m m' pg, m ∈ s.mbox r → m' ∈ s.mbox r' → m.blocks = true →
    m'.blocks = false → s.PteAt r' m' pg → ∀ i < m.mLen, OutOfPage s.vm.zone pg (m.mBuf + i)
  got : ∀ r m stored, .got r m stored ∈ s.log → m.held = stored ∧ stored ≠ none

/-- The end of every mailbox area is as many pages up as it has messages. -/
structure MailAreas (s : MsgState) : Prop where
  mEnd : ∀ r a, s.vm.areas r = some a → hasFlag a.mFlags MMA_STACK = false ∧
    a.mEnd = USERMEM_MBOX + PAGE_SIZE * (s.mbox r).countP (fun m => !m.blocks)
  young : ∀ r, s.nmma r = 4 → ∀ m ∈ s.mbox r, m.blocks = true

section Where

variable {s s' : MsgState} {r : Nat} {m : Message} {pg : Nat} {lo hi : Nat}

variable {z : Zone} {live : List Block} {x : Nat}

theorem pageToAddr_inj {p q : Nat} (h : pageToAddr z p = pageToAddr z q) : p = q := by
  exact Nat.eq_of_mul_eq_mul_right (by decide : 0 < PAGE_SIZE) (Nat.add_left_cancel h)

theorem MsgState.PteAt.unique {q : Nat} (h : s.PteAt r m pg) (h' : s.PteAt r m q) : pg = q := by
  rcases h with ⟨f, hf⟩
  rcases h' with ⟨f', hf'⟩
  rw [hf, Option.some.injEq, Pte.mk.injEq] at hf'
  exact pageToAddr_inj hf'.1

/-- Through the page table of the recipient, a message in a page is read from
that page. -/
theorem MsgState.InPage.translate (h : s.InPage r m pg) {i : Nat} (hi : i < PAGE_SIZE) :
    s.translate r (m.mBuf + i) = some (pageToAddr s.vm.zone pg + i) := by
  have haligned := h.aligned
  have huser := h.user
  rcases h.pte with ⟨f, hf⟩
  have hdiv : (m.mBuf + i) / PAGE_SIZE = m.mBuf / PAGE_SIZE := by
    unfold PAGE_SIZE at *
    omega
  have hmod : (m.mBuf + i) % PAGE_SIZE = i := by
    unfold PAGE_SIZE at *
    omega
  unfold MsgState.translate
  rw [if_neg (by omega), hdiv, hmod, hf]
  rfl

theorem MsgState.InPlace.translate (h : s.InPlace m) {i : Nat} (hi : i < m.mLen) :
    s.translate r (m.mBuf + i) = some (m.mBuf + i) := by
  unfold MsgState.translate
  rw [if_pos (h.low i hi)]

theorem MailCore.page_bounds (h : MailCore s lo hi) (hlive : ⟨0, pg⟩ ∈ s.live) :
    0 < pg ∧ pg < s.vm.zone.totalPages := by
  have hbounds := h.buddy.start_bounds hlive
  have hpos := h.lo_pos
  have hle := h.hi_le
  dsimp only at hbounds
  omega

/-- Every page of the zone lies in the part of the address space that is mapped
one to one. -/
theorem MailCore.page_low (h : MailCore s lo hi) (hpg : pg < s.vm.zone.totalPages) :
    pageToAddr s.vm.zone pg + PAGE_SIZE ≤ USERMEM_START := by
  have hlow := h.low
  have hmul := Nat.mul_le_mul_right PAGE_SIZE (show pg + 1 ≤ s.vm.zone.totalPages from hpg)
  rw [Nat.add_mul] at hmul
  unfold pageToAddr
  omega

theorem MailCore.frame (h : MailCore s lo hi) (hsame : s.vm.zone.SamePages s'.vm.zone)
    (hbuddy : BuddyInv s'.vm.zone lo hi s'.live) (hmbox : ∀ r, ∀ m ∈ s'.mbox r, m ∈ s.mbox r)
    (hlive : ∀ r, ∀ m ∈ s'.mbox r, m.blocks = false → ∀ pg, s.PteAt r m pg →
      ⟨0, pg⟩ ∈ s.live → ⟨0, pg⟩ ∈ s'.live) (hpte : ∀ r, ∀ m ∈ s'.mbox r, m.blocks = false →
      s'.vm.pgtable r (m.mBuf / PAGE_SIZE) = s.vm.pgtable r (m.mBuf / PAGE_SIZE))
    (hmem : ∀ r, ∀ m ∈ s'.mbox r, ∀ i < m.mLen, ∀ x, s.translate r (m.mBuf + i) = some x →
      s'.mem x = s.mem x) (hfree : ∀ r, ∀ m ∈ s'.mbox r, m.blocks = true → ∀ i < m.mLen,
      ¬ FreeByte s'.vm.zone (m.mBuf + i))
    (hgot : ∀ r m stored, .got r m stored ∈ s'.log → m.held = stored ∧ stored ≠ none) :
    MailCore s' lo hi := by
  have haddr := pageToAddr_congr hsame
  have hpteAt : ∀ {r m pg}, m ∈ s'.mbox r → m.blocks = false → s'.PteAt r m pg →
      s.PteAt r m pg := by
    intro r m pg hm hb hp
    unfold MsgState.PteAt at hp ⊢
    rw [hpte r m hm hb, haddr] at hp
    exact hp
  refine ⟨hbuddy, h.lo_pos, hsame.2 ▸ h.hi_le, ?_, ?_, ?_, ?_, ?_, ?_, hgot⟩
  · rw [hsame.1, hsame.2]
    exact h.low
  · intro r m hm hb
    rcases h.page r m (hmbox r m hm) hb with ⟨pg, hpg⟩
    refine ⟨pg, hlive r m hm hb pg hpg.pte hpg.live, ?_, hpg.aligned, hpg.user, hpg.len, ?_⟩
    · unfold MsgState.PteAt
      rw [hpte r m hm hb, haddr]
      exact hpg.pte
    · rw [hpg.held, haddr]
      congr 1
      apply (readBytes_congr _).symm
      intro x hlo hhi
      obtain ⟨i, rfl⟩ := Nat.exists_eq_add_of_le hlo
      have hi : i < m.mLen := by omega
      exact hmem r m hm i hi _ (hpg.translate (Nat.lt_of_lt_of_le hi hpg.len))
  · intro r m hm hb
    have hpl := h.place r m (hmbox r m hm) hb
    refine ⟨hpl.low, hfree r m hm hb, ?_⟩
    rw [hpl.held]
    congr 1
    apply (readBytes_congr _).symm
    intro x hlo hhi
    obtain ⟨i, rfl⟩ := Nat.exists_eq_add_of_le hlo
    have hi : i < m.mLen := by omega
    exact hmem r m hm i hi _ (hpl.translate hi)
  · intro r r' m m' pg hm hm' hb hb' hp hp'
    exact h.pageApart r r' m m' pg (hmbox r m hm) (hmbox r' m' hm') hb hb' (hpteAt hm hb hp)
      (hpteAt hm' hb' hp')
  · intro r m m' hm hm'
    exact h.bufApart r m m' (hmbox r m hm) (hmbox r m' hm')
  · intro r r' m m' pg hm hm' hb hb' hp' i hi
    unfold OutOfPage
    rw [haddr]
    exact h.placeApart r r' m m' pg (hmbox r m hm) (hmbox r' m' hm') hb hb'
      (hpteAt hm' hb' hp') i hi

theorem freeByte_iff (h : BuddyInv z lo hi live) :
    FreeByte z x ↔ ∃ p, (lo ≤ p ∧ p < hi) ∧ (∀ b ∈ live, p ∉ b) ∧
      pageToAddr z p ≤ x ∧ x < pageToAddr z p + PAGE_SIZE := by
  constructor
  · intro hx
    rcases hx with ⟨p, hp, hbytes⟩
    rcases h.mem_freePageSet_iff.mp hp with ⟨hrange, hout⟩
    exact ⟨p, hrange, hout, hbytes⟩
  · intro hx
    rcases hx with ⟨p, hrange, hout, hbytes⟩
    exact ⟨p, h.mem_freePageSet_iff.mpr ⟨hrange, hout⟩, hbytes⟩

theorem FreeByte.of_alloc {z' : Zone} {b : Block} (h : BuddyInv z lo hi live)
    (h' : BuddyInv z' lo hi (b :: live)) (hsame : z.SamePages z') (hx : FreeByte z' x) :
    FreeByte z x := by
  rcases (freeByte_iff h').mp hx with ⟨p, hrange, hout, hbytes⟩
  rw [pageToAddr_congr hsame] at hbytes
  exact (freeByte_iff h).mpr
    ⟨p, hrange, fun c hc => hout c (List.mem_cons_of_mem b hc), hbytes⟩

theorem FreeByte.of_free {z' : Zone} (h : BuddyInv z lo hi live)
    (h' : BuddyInv z' lo hi (live.erase ⟨0, pg⟩)) (hsame : z.SamePages z') (hx : FreeByte z' x) :
    FreeByte z x ∨ ¬ OutOfPage z pg x := by
  rcases (freeByte_iff h').mp hx with ⟨p, hrange, hout, hbytes⟩
  rw [pageToAddr_congr hsame] at hbytes
  by_cases hp : p = pg
  · right
    unfold OutOfPage
    rw [← hp]
    omega
  · left
    refine (freeByte_iff h).mpr ⟨p, hrange, ?_, hbytes⟩
    intro c hc hmem
    by_cases hcb : c = ⟨0, pg⟩
    · rw [hcb, Block.mem_def] at hmem
      dsimp only at hmem
      omega
    · exact hout c ((List.mem_erase_of_ne hcb).mpr hc) hmem

end Where

/-! ## `msg_send` -/

/-- Neither the page nor the address serves a pending message. -/
structure Unused (s : MsgState) (recp mBuf pg : Nat) : Prop where
  page : ∀ r, ∀ m ∈ s.mbox r, m.blocks = false → ¬ s.PteAt r m pg
  buf : ∀ m ∈ s.mbox recp, m.blocks = false → m.mBuf ≠ mBuf
  place : ∀ r, ∀ m ∈ s.mbox r, m.blocks = true → ∀ i < m.mLen,
    OutOfPage s.vm.zone pg (m.mBuf + i)

section Send

variable {s s' : MsgState} {lo hi : Nat} {recp buf len flags : Nat}

variable {pg : Nat} {areaOk : Bool}

theorem MailCore.sameMail (h : MailCore s lo hi) (hvm : s'.vm = s.vm) (hlive : s'.live = s.live)
    (hmbox : s'.mbox = s.mbox) (hlog : s'.log = s.log)
    (hmem : ∀ x, s.HoldsMail x → s'.mem x = s.mem x) : MailCore s' lo hi := by
  have hold : ∀ r, ∀ m ∈ s'.mbox r, m ∈ s.mbox r := by
    rw [hmbox]
    exact fun r m hm => hm
  apply h.frame
  · rw [hvm]
    exact ⟨rfl, rfl⟩
  · rw [hvm, hlive]
    exact h.buddy
  · exact hold
  · rw [hlive]
    exact fun r m hm hb pg hp hmem => hmem
  · rw [hvm]
    exact fun r m hm hb => rfl
  · exact fun r m hm i hi x hx => hmem x ⟨r, m, hold r m hm, i, hi, hx⟩
  · rw [hvm]
    exact fun r m hm hb => (h.place r m (hold r m hm) hb).used
  · rw [hlog]
    exact h.got

/-- The end of `msg_send` puts a message that lies where `m_buf` points into the
mailbox. -/
theorem MailCore.post (h : MailCore s lo hi) {m : Message}
    (hpage : m.blocks = false → ∃ pg, s.InPage recp m pg ∧ Unused s recp m.mBuf pg)
    (hplace : m.blocks = true → s.InPlace m ∧ ∀ i < m.mLen, ¬ s.InMailPage (m.mBuf + i))
    (hpost : s.msgPost recp m = some s') : MailCore s' lo hi := by
  rcases msgPost_eq_some hpost with ⟨-, -, sched', -, -, -, rfl⟩
  -- the page of the new message is mapped for no other one
  have hnew : ∀ {r m' pg}, m' ∈ s.mbox r → m'.blocks = false → m.blocks = false →
      s.PteAt r m' pg → ¬ s.PteAt recp m pg := by
    intro r m' pg hm' hb' hb hp' hp
    rcases hpage hb with ⟨q, hq, hunused⟩
    rw [hp.unique hq.pte] at hp'
    exact hunused.page r m' hm' hb' hp'
  refine ⟨h.buddy, h.lo_pos, h.hi_le, h.low, ?_, ?_, ?_, ?_, ?_, ?_⟩
  · intro r m' hm' hb'
    rcases mem_mbox_append.mp hm' with hold | ⟨rfl, rfl⟩
    · rcases h.page r m' hold hb' with ⟨pg, hpg⟩
      exact ⟨pg, hpg.live, hpg.pte, hpg.aligned, hpg.user, hpg.len, hpg.held⟩
    · rcases hpage hb' with ⟨pg, hpg, -⟩
      exact ⟨pg, hpg.live, hpg.pte, hpg.aligned, hpg.user, hpg.len, hpg.held⟩
  · intro r m' hm' hb'
    rcases mem_mbox_append.mp hm' with hold | ⟨rfl, rfl⟩
    · have hpl := h.place r m' hold hb'
      exact ⟨hpl.low, hpl.used, hpl.held⟩
    · have hpl := (hplace hb').1
      exact ⟨hpl.low, hpl.used, hpl.held⟩
  · intro r r' m₁ m₂ pg hm₁ hm₂ hb₁ hb₂ hp₁ hp₂
    rcases mem_mbox_append.mp hm₁ with hold₁ | ⟨rfl, rfl⟩
    · rcases mem_mbox_append.mp hm₂ with hold₂ | ⟨rfl, rfl⟩
      · exact h.pageApart r r' m₁ m₂ pg hold₁ hold₂ hb₁ hb₂ hp₁ hp₂
      · exact absurd hp₂ (hnew hold₁ hb₁ hb₂ hp₁)
    · rcases mem_mbox_append.mp hm₂ with hold₂ | ⟨rfl, rfl⟩
      · exact absurd hp₁ (hnew hold₂ hb₂ hb₁ hp₂)
      · rfl
  · intro r m₁ m₂ hm₁ hm₂ hb₁ hb₂ heq
    rcases mem_mbox_append.mp hm₁ with hold₁ | ⟨rfl, rfl⟩
    · rcases mem_mbox_append.mp hm₂ with hold₂ | ⟨rfl, rfl⟩
      · exact h.bufApart r m₁ m₂ hold₁ hold₂ hb₁ hb₂ heq
      · rcases hpage hb₂ with ⟨_, _, hunused⟩
        exact absurd heq (hunused.buf m₁ hold₁ hb₁)
    · rcases mem_mbox_append.mp hm₂ with hold₂ | ⟨-, rfl⟩
      · rcases hpage hb₁ with ⟨_, _, hunused⟩
        exact absurd heq.symm (hunused.buf m₂ hold₂ hb₂)
      · rfl
  · intro r r' m₁ m₂ pg hm₁ hm₂ hb₁ hb₂ hp₂ i hi
    rcases mem_mbox_append.mp hm₁ with hold₁ | ⟨rfl, rfl⟩
    · rcases mem_mbox_append.mp hm₂ with hold₂ | ⟨rfl, rfl⟩
      · exact h.placeApart r r' m₁ m₂ pg hold₁ hold₂ hb₁ hb₂ hp₂ i hi
      · rcases hpage hb₂ with ⟨q, hq, hunused⟩
        have hpq : pg = q := MsgState.PteAt.unique (s := s) hp₂ hq.pte
        rw [hpq]
        exact hunused.place r m₁ hold₁ hb₁ i hi
    · rcases mem_mbox_append.mp hm₂ with hold₂ | ⟨rfl, rfl⟩
      · rcases hp₂ with ⟨f, hf⟩
        by_contra hin
        refine (hplace hb₁).2 i hi ⟨r', m₂, hold₂, hb₂, _, hf, ?_⟩
        unfold OutOfPage at hin
        dsimp only at hin ⊢
        omega
      · rw [hb₁] at hb₂
        cases hb₂
  · intro r m' stored hmem
    rcases List.mem_append.mp hmem with hold | hsent
    · exact h.got r m' stored hold
    · exact nomatch List.mem_singleton.mp hsent

theorem BuddyInv.fresh {z : Zone} {live : List Block} (h : BuddyInv z lo hi live)
    (hpg : (rawAllocPages z 0).2 = some pg) : (lo ≤ pg ∧ pg < hi) ∧ ∀ b ∈ live, pg ∉ b := by
  have h' := rawAllocPages_buddy h hpg
  have hpw := (List.pairwise_append.mp (pairwise_of_cover_le_one h'.piles.cover_le_one)).2.1
  refine ⟨h'.start_bounds List.mem_cons_self, ?_⟩
  intro b hb
  exact (List.pairwise_cons.mp hpw).1 b hb pg (Block.start_mem ⟨0, pg⟩)

theorem MailCore.out_of_fresh (h : MailCore s lo hi)
    (hfresh : (lo ≤ pg ∧ pg < hi) ∧ ∀ b ∈ s.live, pg ∉ b) {x : Nat} (hx : s.HoldsMail x) :
    OutOfPage s.vm.zone pg x := by
  rcases hx with ⟨r, m, hm, i, hi, hx⟩
  unfold OutOfPage
  cases hb : m.blocks with
  | true =>
    have hpl := h.place r m hm hb
    rw [hpl.translate hi, Option.some.injEq] at hx
    have hused := hpl.used i hi
    rw [freeByte_iff h.buddy] at hused
    by_contra hin
    exact hused ⟨pg, hfresh.1, hfresh.2, by omega, by omega⟩
  | false =>
    rcases h.page r m hm hb with ⟨q, hq⟩
    rw [hq.translate (Nat.lt_of_lt_of_le hi hq.len), Option.some.injEq] at hx
    have hlen := hq.len
    have hne : pg ≠ q := by
      intro heq
      exact hfresh.2 _ hq.live (heq ▸ Block.start_mem ⟨0, q⟩)
    unfold pageToAddr at hx ⊢
    rcases Nat.lt_or_gt_of_ne hne with hlt | hlt
    · have hmul := Nat.mul_le_mul_right PAGE_SIZE (show pg + 1 ≤ q from hlt)
      rw [Nat.add_mul] at hmul
      omega
    · have hmul := Nat.mul_le_mul_right PAGE_SIZE (show q + 1 ≤ pg from hlt)
      rw [Nat.add_mul] at hmul
      omega

theorem MailCore.copyIn (h : MailCore s lo hi) (hfresh : (lo ≤ pg ∧ pg < hi) ∧ ∀ b ∈ s.live, pg ∉ b)
    (hlen : len ≤ PAGE_SIZE) (hok : SendOk s recp buf len flags) {mem : ByteMem}
    (hcopy : memoryCopyVia (s.translate s.sched.current) s.mem (pageToAddr s.vm.zone pg) buf len =
      some mem) : readVia (s.translate s.sched.current) s.mem buf len =
        some (readBytes mem (pageToAddr s.vm.zone pg) len) ∧
      ∀ x, OutOfPage s.vm.zone pg x → mem x = s.mem x := by
  have hlow := h.page_low (Nat.lt_of_lt_of_le hfresh.1.2 h.hi_le)
  have htr : ∀ i < len, s.translate s.sched.current (pageToAddr s.vm.zone pg + i) =
      some (pageToAddr s.vm.zone pg + i) := by
    intro i hi
    unfold MsgState.translate
    rw [if_pos (by omega)]
  have hapart : CopyApart (s.translate s.sched.current) (pageToAddr s.vm.zone pg) buf len := by
    refine ⟨?_, ?_⟩
    · intro i hi j hj x hx hx'
      rw [htr i hi, Option.some.injEq] at hx
      refine hok.used j hj x hx' ((freeByte_iff h.buddy).mpr ⟨pg, hfresh.1, hfresh.2, ?_, ?_⟩)
      · omega
      · omega
    · intro i hi j hj x hx hx'
      rw [htr i hi, Option.some.injEq] at hx
      rw [htr j hj, Option.some.injEq] at hx'
      omega
  have hcopied := memoryCopyVia_spec hapart (fun heq i hi => ⟨_, heq ▸ htr i hi⟩) hcopy
  refine ⟨?_, ?_⟩
  · rw [← readVia_eq_readBytes htr]
    apply Eq.symm
    apply readVia_congr
    intro i hi
    rcases hcopied.moved i hi with ⟨d, x, hd, hx, hmem⟩
    exact ⟨x, d, hx, hd, hmem⟩
  · intro x hx
    apply hcopied.frame
    intro i hi hd
    rw [htr i hi, Option.some.injEq] at hd
    unfold OutOfPage at hx
    omega

theorem MailAreas.mbox (h : MailAreas s) (hok : SendOk s recp buf len flags)
    (hflag : hasFlag flags MF_BLOCK = false) {a : MemArea} (ha : s.mboxOf recp a) :
    hasFlag a.mFlags MMA_STACK = false ∧
      a.mEnd = USERMEM_MBOX + PAGE_SIZE * (s.mbox recp).countP (fun m => !m.blocks) ∧
      ∀ m ∈ s.mbox recp, m.blocks = false → m.mBuf ≠ a.mEnd := by
  unfold MsgState.mboxOf at ha
  by_cases hnmma : s.nmma recp = 4
  · rw [if_pos hnmma] at ha
    have hyoung := h.young recp hnmma
    have hcount : (s.mbox recp).countP (fun m => !m.blocks) = 0 := by
      rw [List.countP_eq_zero]
      intro m hm
      rw [hyoung m hm]
      exact Bool.false_ne_true
    rw [hcount]
    refine ⟨ha.2, ha.1, ?_⟩
    intro m hm hb
    rw [hyoung m hm] at hb
    cases hb
  · rw [if_neg hnmma] at ha
    exact ⟨(h.mEnd recp a ha).1, (h.mEnd recp a ha).2, hok.vacant hflag hnmma a ha⟩

theorem mboxPage_aligned (k : Nat) : (USERMEM_MBOX + PAGE_SIZE * k) % PAGE_SIZE = 0 ∧
      USERMEM_START ≤ USERMEM_MBOX + PAGE_SIZE * k := by
  refine ⟨?_, Nat.le_trans (by decide) (Nat.le_add_right USERMEM_MBOX _)⟩
  rw [Nat.add_mul_mod_self_left]
  decide

theorem eq_of_page_eq {a b : Nat} (ha : a % PAGE_SIZE = 0) (hb : b % PAGE_SIZE = 0)
    (heq : a / PAGE_SIZE = b / PAGE_SIZE) : a = b := by
  rw [← Nat.div_add_mod a PAGE_SIZE, ← Nat.div_add_mod b PAGE_SIZE, heq, ha, hb]

theorem MailCore.store_entry (h : MailCore s lo hi) (hareas : MailAreas s)
    (hok : SendOk s recp buf len flags) (hflag : hasFlag flags MF_BLOCK = false)
    {e : Except Int Nat} (hop : s.msgStore recp buf len areaOk = some (s', e)) {r : Nat}
    {m : Message} (hm : m ∈ s.mbox r) (hb : m.blocks = false) :
    s'.vm.pgtable r (m.mBuf / PAGE_SIZE) = s.vm.pgtable r (m.mBuf / PAGE_SIZE) := by
  rcases msgStore_cases hop with ⟨_, -, _, -, -, -, -, -, -, -, -, hout⟩
  rcases hout with ⟨-, -, hpgt, -⟩ | ⟨mBuf, a, -, hbox, hpgt, -⟩
  · rw [hpgt]
  · rw [hpgt]
    by_cases hr : r = recp
    · rw [hr] at hm ⊢
      rcases hareas.mbox hok hflag hbox with ⟨-, hend, hvacant⟩
      rcases h.page recp m hm hb with ⟨q, hq⟩
      have halign := (mboxPage_aligned ((s.mbox recp).countP (fun m => !m.blocks))).1
      rw [← hend] at halign
      rw [update_self]
      exact update_of_ne
        (fun heq => hvacant m hm hb (eq_of_page_eq hq.aligned halign heq)) _ _
    · rw [update_of_ne hr]

/-- The branch of `msg_send` without `MF_BLOCK` keeps the pending messages in
place, and a message with the answer as `m_buf` lies in a page of its own. -/
theorem MailCore.store (h : MailCore s lo hi) (hareas : MailAreas s) (hlen : len ≤ PAGE_SIZE)
    (hok : SendOk s recp buf len flags) (hflag : hasFlag flags MF_BLOCK = false)
    {r : Except Int Nat} (hop : s.msgStore recp buf len areaOk = some (s', r)) :
    MailCore s' lo hi ∧ ∀ m : Message, r = .ok m.mBuf → m.mLen = len →
      m.held = readVia (s.translate s.sched.current) s.mem buf len →
      ∃ pg, s'.InPage recp m pg ∧ Unused s' recp m.mBuf pg := by
  have hmail := msgStore_sameMail hop
  rcases msgStore_cases hop with ⟨pg, -, mem, hpg, hcopy, -, hmem', hlive', hlevels, -, -, hout⟩
  have hbuddy : BuddyInv s'.vm.zone lo hi (⟨0, pg⟩ :: s.live) :=
    (rawAllocPages_buddy h.buddy hpg).congr hlevels
  have halloc := rawAllocPages_samePages s.vm.zone 0
  have hsame : s.vm.zone.SamePages s'.vm.zone :=
    ⟨hlevels.base.trans halloc.1, hlevels.totalPages.trans halloc.2⟩
  have hfresh := h.buddy.fresh hpg
  rw [pageToAddr_congr halloc] at hcopy hout
  rcases h.copyIn hfresh hlen hok hcopy with ⟨hread, hframe⟩
  have hpte : ∀ r, ∀ m ∈ s.mbox r, m.blocks = false →
      s'.vm.pgtable r (m.mBuf / PAGE_SIZE) = s.vm.pgtable r (m.mBuf / PAGE_SIZE) :=
    fun _ _ hm hb => h.store_entry hareas hok hflag hop hm hb
  refine ⟨?_, ?_⟩
  · apply h.frame hsame
    · rw [hlive']
      exact hbuddy
    · rw [hmail.mbox]
      exact fun r m hm => hm
    · rw [hlive']
      exact fun r m hm hb q hq hmem => List.mem_cons_of_mem _ hmem
    · rw [hmail.mbox]
      exact hpte
    · rw [hmail.mbox, hmem']
      exact fun r m hm i hi x hx => hframe x (h.out_of_fresh hfresh ⟨r, m, hm, i, hi, hx⟩)
    · rw [hmail.mbox]
      intro r m hm hb i hi hfree
      exact (h.place r m hm hb).used i hi (FreeByte.of_alloc h.buddy hbuddy hsame hfree)
    · rw [hmail.log]
      exact h.got
  · intro m hr hmlen hheld
    rcases hout with ⟨e, he, -⟩ | ⟨mBuf, a, hmBuf, hbox, hpgt, hend'⟩
    · rw [he] at hr
      cases hr
    · rcases hareas.mbox hok hflag hbox with ⟨hstack, hend, hvacant⟩
      have hbuf : m.mBuf = a.mEnd := by
        rw [hmBuf, (hend' hstack).1] at hr
        exact (Except.ok.inj hr).symm
      refine ⟨pg, ⟨?_, ?_, ?_, ?_, ?_, ?_⟩, ?_, ?_, ?_⟩
      · rw [hlive']
        exact List.mem_cons_self
      · refine ⟨a.mProt, ?_⟩
        rw [hpgt, hbuf, update_self, update_self, pageToAddr_congr hsame]
      · rw [hbuf, hend]
        exact (mboxPage_aligned _).1
      · rw [hbuf, hend]
        exact (mboxPage_aligned _).2
      · rw [hmlen]
        exact hlen
      · rw [hheld, hread, hmlen, hmem', pageToAddr_congr hsame]
      · rw [hmail.mbox]
        intro t m' hm' hb' hp
        rcases h.page t m' hm' hb' with ⟨q, hq⟩
        unfold MsgState.PteAt at hp
        rw [hpte t m' hm' hb', pageToAddr_congr hsame] at hp
        have hqe : q = pg := hq.pte.unique hp
        exact hfresh.2 _ hq.live (hqe ▸ Block.start_mem ⟨0, q⟩)
      · rw [hmail.mbox, hbuf]
        exact hvacant
      · rw [hmail.mbox]
        intro t m' hm' hb' i hi
        unfold OutOfPage
        rw [pageToAddr_congr hsame]
        exact h.out_of_fresh hfresh ⟨t, m', hm', i, hi, (h.place t m' hm' hb').translate hi⟩

theorem translate_virt2phys {t virt p : Nat} (h : s.translate t virt = some p) :
    s.virt2phys t virt = p := by
  unfold MsgState.translate at h
  unfold MsgState.virt2phys MsgState.virt2physpg
  split_ifs at h ⊢ with hlow
  · rw [Nat.sub_add_cancel (Nat.mod_le virt PAGE_SIZE)]
    exact Option.some.inj h
  · rcases Option.map_eq_some_iff.mp h with ⟨e, he, hp⟩
    rw [he]
    exact hp

theorem SendOk.inPlace (hok : SendOk s recp buf len flags)
    (hflag : hasFlag flags MF_BLOCK = true) (addr : Nat) :
    let m := s.newMessage addr buf len flags (s.virt2phys s.sched.current buf)
    s.InPlace m ∧ ∀ i < m.mLen, ¬ s.InMailPage (m.mBuf + i) := by
  rcases hok.piece hflag with ⟨p, hlow, htr, hout⟩
  have hbuf : ∀ i < len, s.virt2phys s.sched.current buf + i = p + i := by
    intro i hi
    have hfirst := translate_virt2phys (htr 0 (by omega))
    rw [Nat.add_zero, Nat.add_zero] at hfirst
    rw [hfirst]
  refine ⟨⟨?_, ?_, ?_⟩, ?_⟩
  · intro i hi
    show s.virt2phys s.sched.current buf + i < USERMEM_START
    have hi' : i < len := hi
    rw [hbuf i hi]
    omega
  · intro i hi
    show ¬ FreeByte _ (s.virt2phys s.sched.current buf + i)
    rw [hbuf i hi]
    exact hok.used i hi _ (htr i hi)
  · refine readVia_eq_readBytes ?_
    intro i hi
    show _ = some (s.virt2phys s.sched.current buf + i)
    rw [hbuf i hi]
    exact htr i hi
  · intro i hi
    show ¬ s.InMailPage (s.virt2phys s.sched.current buf + i)
    rw [hbuf i hi]
    exact hout i hi

theorem MailCore.send (h : MailCore s lo hi) (hareas : MailAreas s)
    (hok : SendOk s recp buf len flags) {slice : Option Nat} {n : Int}
    (hsend : s.msgSend recp buf len flags slice areaOk = some (s', n)) : MailCore s' lo hi := by
  rcases msgSend_cases hsend with rfl | ⟨addr, -, -, -, hlen, hcase⟩
  · exact h
  · have h₁ : MailCore (s.takeSlice addr) lo hi := h.sameMail rfl rfl rfl rfl (fun x _ => rfl)
    rcases hcase with ⟨hflag, hpost⟩ | ⟨hflag, s₁, r, hstore, hcase⟩
    · refine h₁.post ?_ ?_ hpost
      · intro hb
        exact nomatch hflag.symm.trans hb
      · intro hb
        rcases hok.inPlace hflag addr with ⟨hpl, hout⟩
        exact ⟨⟨hpl.low, hpl.used, hpl.held⟩, hout⟩
    · have hareas₁ : MailAreas (s.takeSlice addr) := ⟨hareas.mEnd, hareas.young⟩
      have hok₁ : SendOk (s.takeSlice addr) recp buf len flags :=
        ⟨hok.used, hok.piece, hok.vacant⟩
      rcases h₁.store hareas₁ hlen hok₁ hflag hstore with ⟨h₂, hnew⟩
      rcases hcase with ⟨e, -, rfl⟩ | ⟨mBuf, hr, hpost⟩
      · exact h₂
      · refine h₂.post ?_ ?_ hpost
        · exact fun _ => hnew (s.newMessage addr buf len flags mBuf) hr rfl rfl
        · intro hb
          exact nomatch hflag.symm.trans hb

end Send

/-! ## `msg_retrieve` -/

section Retrieve

variable {s s' : MsgState} {qs : Queues} {lo hi : Nat} {m : Message}

variable {r buf : Nat}

theorem MailCore.read (h : MailCore s lo hi) (hm : m ∈ s.mbox r) :
    ∃ p, (∀ i < m.mLen, s.translate r (m.mBuf + i) = some (p + i)) ∧
      m.held = some (readBytes s.mem p m.mLen) := by
  cases hb : m.blocks with
  | true =>
    have hpl := h.place r m hm hb
    exact ⟨m.mBuf, fun i hi => hpl.translate hi, hpl.held⟩
  | false =>
    rcases h.page r m hm hb with ⟨pg, hpg⟩
    exact ⟨_, fun i hi => hpg.translate (Nat.lt_of_lt_of_le hi hpg.len), hpg.held⟩

theorem MailCore.copy (h : MailCore s lo hi) (hm : m ∈ s.mbox s.sched.current)
    (hdest : DestOk s buf m.mLen) {mem : ByteMem}
    (hcopy : memoryCopyVia (s.translate s.sched.current) s.mem buf m.mBuf m.mLen = some mem) :
    readVia (s.translate s.sched.current) mem buf m.mLen = m.held ∧
      ∀ x, s.HoldsMail x → mem x = s.mem x := by
  rcases h.read hm with ⟨p, htr, hheld⟩
  have hsrc : ∀ i < m.mLen, s.HoldsMail (p + i) := fun i hi => ⟨_, m, hm, i, hi, htr i hi⟩
  have hapart : CopyApart (s.translate s.sched.current) buf m.mBuf m.mLen := by
    refine ⟨?_, hdest.inj⟩
    intro i hi j hj x hx hx'
    rw [htr j hj, Option.some.injEq] at hx'
    exact hdest.apart i hi x hx (hx' ▸ hsrc j hj)
  have hcopied := memoryCopyVia_spec hapart (fun _ i hi => ⟨_, htr i hi⟩) hcopy
  refine ⟨?_, ?_⟩
  · rw [hheld, ← readVia_eq_readBytes htr]
    apply readVia_congr
    intro i hi
    rcases hcopied.moved i hi with ⟨d, x, hd, hx, hmem⟩
    exact ⟨x, d, hx, hd, hmem⟩
  · intro x hx
    apply hcopied.frame
    intro i hi hi'
    exact hdest.apart i hi x hi' hx

theorem MsgState.InPage.virt2physpg {pg : Nat} (h : s.InPage r m pg) :
    s.virt2physpg r m.mBuf = pageToAddr s.vm.zone pg := by
  have huser := h.user
  rcases h.pte with ⟨f, hf⟩
  unfold MsgState.virt2physpg
  rw [if_neg (by omega), hf]
  rfl

theorem MailCore.entry_ne (h : MailCore s lo hi) {m' : Message} (hm : m ∈ s.mbox r)
    (hm' : m' ∈ s.mbox r) (hb : m.blocks = false) (hb' : m'.blocks = false) (hne : m' ≠ m) :
    m'.mBuf / PAGE_SIZE ≠ m.mBuf / PAGE_SIZE := by
  rcases h.page r m hm hb with ⟨pg, hpg⟩
  rcases h.page r m' hm' hb' with ⟨pg', hpg'⟩
  intro heq
  exact hne (h.bufApart r m' m hm' hm hb' hb (eq_of_page_eq hpg'.aligned hpg.aligned heq))

theorem MsgState.Retrieves.destOk {c : MsgCall} (h : s.Retrieves c m buf) (hcond : MailCond s c) :
    DestOk s buf m.mLen := by
  have hargs := h.1
  cases c with
  | retrieve sender buf' len flags => exact hcond _ _ hargs m h.mem rfl
  | resume => exact hcond _ _ hargs m h.mem rfl
  | _ =>
    unfold MsgState.retrieveArgs at hargs
    cases hpc : s.pc s.sched.current <;> rw [hpc] at hargs <;> exact nomatch hargs

theorem MailCore.release (h : MailCore s lo hi) {pg : Nat} {mem : ByteMem} {s₁ : MsgState}
    (hpg : s.InPage s.sched.current m pg)
    (hrel : ({ s with mem := mem } : MsgState).releasePage m.mBuf = some s₁) :
    s.vm.zone.SamePages s₁.vm.zone ∧ BuddyInv s₁.vm.zone lo hi s₁.live ∧
      s₁.live = s.live.erase ⟨0, pg⟩ ∧ s₁.mem = mem ∧
      s₁.vm.pgtable = Function.update s.vm.pgtable s.sched.current
        (Function.update (s.vm.pgtable s.sched.current) (m.mBuf / PAGE_SIZE) none) := by
  rcases releasePage_eq_some hrel with
    ⟨pg', a, zone, hpg', -, hlevels, hput, hmem, hlive, -, hpgt, -⟩
  rcases h.page_bounds hpg.live with ⟨hpos, hlt⟩
  have hphys : ({ s with mem := mem } : MsgState).virt2physpg s.sched.current m.mBuf =
      pageToAddr s.vm.zone pg := hpg.virt2physpg
  have hzone : pageToAddr s.vm.zone pg = pageToAddr zone pg :=
    (pageToAddr_congr ⟨hlevels.base, hlevels.totalPages⟩ pg).symm
  have hpg'' : addrToPage s.vm.zone (pageToAddr s.vm.zone pg) = some pg' := hphys ▸ hpg'
  rw [addrToPage_pageToAddr hpos hlt, Option.some.injEq] at hpg''
  rw [← hpg''] at hlive
  have hput' : putPages zone (pageToAddr zone pg) = some s₁.vm.zone := by
    rw [← hzone, ← hphys]
    exact hput
  rw [putPages_pageToAddr hpos (hlevels.totalPages ▸ hlt), Option.some.injEq] at hput'
  refine ⟨?_, ?_, hlive, hmem, hpgt⟩
  · rw [← hput']
    exact ⟨(freePages_samePages zone pg).1.trans hlevels.base,
      (freePages_samePages zone pg).2.trans hlevels.totalPages⟩
  · rw [← hput', hlive]
    exact (h.buddy.congr hlevels).free hpg.live

theorem MailCore.take (h : MailCore s lo hi) (hmsg : MsgInv s qs) (hm : m ∈ s.mbox s.sched.current)
    (hdest : DestOk s buf m.mLen) {n : Int} (htake : s.retrieveTake buf m = some (s', n)) :
    MailCore s' lo hi := by
  rcases retrieveTake_cases htake with ⟨mem, s₁, sched, hcopy, hrel, -, rfl⟩
  rcases h.copy hm hdest hcopy with ⟨hstored, hkeep⟩
  have hmbox : ∀ r, ∀ m' ∈ (s.taken s₁ sched m
      (readVia (s.translate s.sched.current) mem buf m.mLen)).mbox r, m' ∈ s.mbox r ∧ m' ≠ m :=
    fun r m' hm' => (hmsg.mem_erase hm).mp hm'
  have hgot : ∀ r m' stored, MsgEvent.got r m' stored ∈ s.log ++
      [.got s.sched.current m (readVia (s.translate s.sched.current) mem buf m.mLen)] →
      m'.held = stored ∧ stored ≠ none := by
    intro r m' stored hmem
    rcases List.mem_append.mp hmem with hold | hnew
    · exact h.got r m' stored hold
    · rcases MsgEvent.got.inj (List.mem_singleton.mp hnew) with ⟨-, rfl, rfl⟩
      rcases h.read hm with ⟨p, -, hheld⟩
      rw [hstored, hheld]
      exact ⟨rfl, nofun⟩
  unfold MsgState.releaseBuf at hrel
  cases hb : m.blocks with
  | true =>
    rw [hb] at hrel
    cases hrel
    refine h.frame ⟨rfl, rfl⟩ h.buddy (fun r m' hm' => (hmbox r m' hm').1) ?_ ?_ ?_ ?_ hgot
    · exact fun r m' hm' hb' pg hp hlive => hlive
    · exact fun r m' hm' hb' => rfl
    · exact fun r m' hm' i hi x hx => hkeep x ⟨r, m', (hmbox r m' hm').1, i, hi, hx⟩
    · exact fun r m' hm' hb' => (h.place r m' (hmbox r m' hm').1 hb').used
  | false =>
    rw [hb] at hrel
    rcases h.page _ m hm hb with ⟨pg, hpg⟩
    rcases h.release hpg hrel with ⟨hsame, hbuddy, hlive₁, hmem₁, hpgt₁⟩
    -- the page of another message is another page, mapped by another entry
    refine h.frame hsame hbuddy (fun r m' hm' => (hmbox r m' hm').1) ?_ ?_ ?_ ?_ hgot
    · intro r m' hm' hb' q hq hlive
      rcases hmbox r m' hm' with ⟨hold, hne⟩
      show _ ∈ s₁.live
      rw [hlive₁]
      refine (List.mem_erase_of_ne ?_).mpr hlive
      intro heq
      rw [(Block.mk.inj heq).2] at hq
      exact hne (h.pageApart r _ m' m pg hold hm hb' hb hq hpg.pte)
    · intro r m' hm' hb'
      rcases hmbox r m' hm' with ⟨hold, hne⟩
      show s₁.vm.pgtable r _ = _
      rw [hpgt₁]
      by_cases hr : r = s.sched.current
      · rw [hr] at hold ⊢
        rw [update_self]
        exact update_of_ne (h.entry_ne hm hold hb hb' hne) _ _
      · rw [update_of_ne hr]
    · intro r m' hm' i hi x hx
      show s₁.mem x = _
      rw [hmem₁]
      exact hkeep x ⟨r, m', (hmbox r m' hm').1, i, hi, hx⟩
    · intro r m' hm' hb' i hlt hfree
      rcases hmbox r m' hm' with ⟨hold, -⟩
      have hbuddy' : BuddyInv s₁.vm.zone lo hi (s.live.erase ⟨0, pg⟩) := hlive₁ ▸ hbuddy
      rcases FreeByte.of_free h.buddy hbuddy' hsame hfree with hfree | hin
      · exact (h.place r m' hold hb').used i hlt hfree
      · exact hin (h.placeApart r _ m' m pg hold hm hb' hb hpg.pte i hlt)

end Retrieve

/-! ## The mailbox areas -/

section Areas

variable {s s' : MsgState} {qs : Queues} {lo hi : Nat} {m : Message}

theorem MailCore.count_le (h : MailCore s lo hi) (hmsg : MsgInv s qs) (r : Nat) :
    (s.mbox r).countP (fun m => !m.blocks) ≤ hi := by
  have hmem : ∀ m ∈ (s.mbox r).filter (fun m => !m.blocks), ∃ pg, s.InPage r m pg := by
    intro m hm
    rcases List.mem_filter.mp hm with ⟨hbox, hb⟩
    exact h.page r m hbox (Bool.not_eq_true' _ ▸ hb)
  choose! page hpage using hmem
  have hnodup : (((s.mbox r).filter (fun m => !m.blocks)).map page).Nodup := by
    apply List.Nodup.map_on _ ((List.Nodup.of_map _ (hmsg.nodup r)).filter _)
    intro m hm m' hm' heq
    rcases List.mem_filter.mp hm with ⟨hbox, hb⟩
    rcases List.mem_filter.mp hm' with ⟨hbox', hb'⟩
    exact h.pageApart r r m m' (page m) hbox hbox' (Bool.not_eq_true' _ ▸ hb)
      (Bool.not_eq_true' _ ▸ hb') (hpage m hm).pte (heq ▸ (hpage m' hm').pte)
  have hsub : ((s.mbox r).filter (fun m => !m.blocks)).map page ⊆ List.range hi := by
    intro pg hpg
    rcases List.mem_map.mp hpg with ⟨m, hm, rfl⟩
    exact List.mem_range.mpr (h.buddy.start_bounds (hpage m hm).live).2
  have hle := (List.subperm_of_subset hnodup hsub).length_le
  rw [List.length_map, List.length_range] at hle
  rw [List.countP_eq_length_filter]
  exact hle

theorem MailCore.mEnd_lt (h : MailCore s lo hi) (hmsg : MsgInv s qs) (r : Nat) :
    USERMEM_MBOX + PAGE_SIZE * ((s.mbox r).countP (fun m => !m.blocks) + 1) < WORD_RANGE := by
  have hcount := h.count_le hmsg r
  have hle := h.hi_le
  have hlow := h.low
  unfold USERMEM_MBOX WORD_RANGE
  unfold PAGE_SIZE USERMEM_START at *
  omega

theorem countP_append_singleton (l : List Message) (m : Message) :
    (l ++ [m]).countP (fun m => !m.blocks) =
      l.countP (fun m => !m.blocks) + if m.blocks then 0 else 1 := by
  rw [List.countP_append, List.countP_singleton]
  cases m.blocks with
  | true => rfl
  | false => rfl

theorem MailAreas.post (h : MailAreas s) {recp : Nat} {s₁ : MsgState}
    (hmbox : s₁.mbox = s.mbox)
    (hother : ∀ t, t ≠ recp → s₁.vm.areas t = s.vm.areas t ∧ s₁.nmma t = s.nmma t)
    (hnmma : s₁.nmma recp = 4 → s.nmma recp = 4 ∧ m.blocks = true)
    (harea : ∀ a, s₁.vm.areas recp = some a → hasFlag a.mFlags MMA_STACK = false ∧
      a.mEnd = USERMEM_MBOX + PAGE_SIZE *
        ((s.mbox recp).countP (fun m => !m.blocks) + if m.blocks then 0 else 1))
    (hpost : s₁.msgPost recp m = some s') : MailAreas s' := by
  rcases msgPost_eq_some hpost with ⟨-, -, sched', -, -, -, rfl⟩
  refine ⟨?_, ?_⟩
  · intro r a ha
    show _ ∧ a.mEnd = _ + _ * List.countP _ (Function.update s₁.mbox recp _ r)
    by_cases hr : r = recp
    · rw [hr, update_self, countP_append_singleton, hmbox]
      rw [hr] at ha
      exact harea a ha
    · rw [update_of_ne hr, hmbox]
      exact h.mEnd r a ((hother r hr).1 ▸ ha)
  · intro r hr m' hm'
    rcases mem_mbox_append.mp hm' with hold | ⟨rfl, rfl⟩
    · rw [hmbox] at hold
      by_cases hrecp : r = recp
      · rw [hrecp] at hr hold
        exact h.young recp (hnmma hr).1 m' hold
      · exact h.young r ((hother r hrecp).2 ▸ hr) m' hold
    · exact (hnmma hr).2

theorem MailAreas.send (h : MailAreas s) (hcore : MailCore s lo hi) (hmsg : MsgInv s qs)
    {recp buf len flags : Nat} (hok : SendOk s recp buf len flags) {slice : Option Nat}
    {areaOk : Bool} {n : Int}
    (hsend : s.msgSend recp buf len flags slice areaOk = some (s', n)) : MailAreas s' := by
  rcases msgSend_cases hsend with rfl | ⟨addr, -, -, -, -, hcase⟩
  · exact h
  · have h₁ : MailAreas (s.takeSlice addr) := ⟨h.mEnd, h.young⟩
    rcases hcase with ⟨hflag, hpost⟩ | ⟨hflag, s₁, r, hstore, hcase⟩
    · have hb : (s.newMessage addr buf len flags (s.virt2phys s.sched.current buf)).blocks =
          true := hflag
      refine h₁.post rfl (fun t _ => ⟨rfl, rfl⟩) (fun hn => ⟨hn, hb⟩) ?_ hpost
      rw [hb]
      exact h.mEnd recp
    · have hmail := msgStore_sameMail hstore
      rcases msgStore_cases hstore with
        ⟨pg, -, mem, -, -, -, -, -, -, hnmma, hother, hout⟩
      rcases hcase with ⟨e, he, rfl⟩ | ⟨mBuf, hr, hpost⟩
      · rcases hout with ⟨-, -, -, hnone⟩ | ⟨mBuf, a, hr, -⟩
        · refine ⟨?_, ?_⟩
          · intro t a ha
            rw [hmail.mbox]
            by_cases ht : t = recp
            · rw [ht, hnone] at ha
              cases ha
            · exact h.mEnd t a ((hother t ht).1 ▸ ha)
          · intro t ht
            rw [hmail.mbox]
            by_cases hrecp : t = recp
            · exact absurd (hrecp ▸ ht) hnmma
            · exact h.young t ((hother t hrecp).2 ▸ ht)
        · rw [he] at hr
          cases hr
      · have hb : (s.newMessage addr buf len flags mBuf).blocks = false := hflag
        refine h₁.post hmail.mbox hother (fun hn => absurd hn hnmma) ?_ hpost
        rw [hb]
        intro a' ha'
        rcases hout with ⟨e, he, -⟩ | ⟨mBuf₁, a, -, hbox, -, hend⟩
        · rw [he] at hr
          cases hr
        · have hok₁ : SendOk (s.takeSlice addr) recp buf len flags :=
            ⟨hok.used, hok.piece, hok.vacant⟩
          rcases h₁.mbox hok₁ hflag hbox with ⟨hstack, haend, -⟩
          have hlt := hcore.mEnd_lt hmsg recp
          rw [(hend hstack).2, Option.some.injEq] at ha'
          rw [← ha']
          refine ⟨hstack, ?_⟩
          rw [haend, addWord, Nat.add_assoc]
          exact Nat.mod_eq_of_lt hlt

theorem countP_erase_of_mem {l : List Message} (hm : m ∈ l) :
    l.countP (fun m => !m.blocks) =
      (l.erase m).countP (fun m => !m.blocks) + if m.blocks then 0 else 1 := by
  have hperm := (List.perm_cons_erase hm).countP_eq (fun m => !m.blocks)
  rw [hperm, List.countP_cons]
  cases m.blocks with
  | true => rfl
  | false => rfl

theorem MailAreas.take (h : MailAreas s) (hcore : MailCore s lo hi) (hmsg : MsgInv s qs)
    (hm : m ∈ s.mbox s.sched.current) {buf : Nat} {n : Int}
    (htake : s.retrieveTake buf m = some (s', n)) : MailAreas s' := by
  rcases retrieveTake_cases htake with ⟨mem, s₁, sched, -, hrel, -, rfl⟩
  have hmbox : ∀ r, ∀ m' ∈ (s.taken s₁ sched m
      (readVia (s.translate s.sched.current) mem buf m.mLen)).mbox r, m' ∈ s.mbox r :=
    fun r m' hm' => ((hmsg.mem_erase hm).mp hm').1
  have hcount := countP_erase_of_mem hm
  unfold MsgState.releaseBuf at hrel
  cases hb : m.blocks with
  | true =>
    rw [hb] at hrel
    cases hrel
    refine ⟨?_, fun r hr m' hm' => h.young r hr m' (hmbox r m' hm')⟩
    intro r a ha
    show _ ∧ a.mEnd = _ + _ * List.countP _ (Function.update s.mbox s.sched.current _ r)
    rcases h.mEnd r a ha with ⟨hstack, hend⟩
    refine ⟨hstack, ?_⟩
    by_cases hr : r = s.sched.current
    · rw [hr] at hend ⊢
      rw [hb, if_pos rfl, Nat.add_zero] at hcount
      rw [update_self, ← hcount]
      exact hend
    · rw [update_of_ne hr]
      exact hend
  | false =>
    rw [hb, if_neg Bool.false_ne_true] at hrel hcount
    rcases releasePage_eq_some hrel with ⟨-, a, -, -, ha, -, -, -, -, hnmma, -, hareas⟩
    refine ⟨?_, ?_⟩
    · intro r a' ha'
      show _ ∧ a'.mEnd = _ + _ * List.countP _ (Function.update s.mbox s.sched.current _ r)
      have ha₁ : s₁.vm.areas r = some a' := ha'
      rw [hareas] at ha₁
      by_cases hr : r = s.sched.current
      · rcases h.mEnd _ a ha with ⟨hstack, hend⟩
        have hlt := hcore.mEnd_lt hmsg s.sched.current
        rw [hr, update_self, Option.some.injEq] at ha₁
        rw [hr, update_self, ← ha₁]
        refine ⟨hstack, ?_⟩
        show subWord a.mEnd PAGE_SIZE = _
        rw [hcount] at hlt hend
        rw [subWord]
        unfold USERMEM_MBOX WORD_RANGE PAGE_SIZE at *
        omega
      · rw [update_of_ne hr] at ha₁ ⊢
        exact h.mEnd r a' ha₁
    · intro r hr m' hm'
      have hr₁ : s₁.nmma r = 4 := hr
      rw [hnmma] at hr₁
      exact h.young r hr₁ m' (hmbox r m' hm')

end Areas

/-! ## Runs -/

section Runs

variable {s s' : MsgState} {qs : Queues} {lo hi : Nat}

theorem MailCore.call (h : MailCore s lo hi) (hareas : MailAreas s) (hmsg : MsgInv s qs)
    {c : MsgCall} (hcond : MailCond s c) (hop : s.call c = some s') :
    MailCore s' lo hi ∧ MailAreas s' := by
  rcases call_cases hmsg.has_mail hop with
    rfl | ⟨recp, buf, len, flags, slice, areaOk, n, rfl, hsend⟩ |
    ⟨sender, buf, len, flags, msg, n, hsleep⟩ | ⟨m, buf, n, hret, htake⟩ |
    ⟨virt, byte, x, rfl, hx, rfl⟩ | ⟨sched', -, rfl⟩
  · exact ⟨h, hareas⟩
  · exact ⟨h.send hareas hcond hsend, hareas.send h hmsg hcond hsend⟩
  · rcases retrieveSleep_cases hsleep with rfl | ⟨-, -, -, -, rfl⟩
    · exact ⟨h.sameMail rfl rfl rfl rfl (fun x _ => rfl), hareas.mEnd, hareas.young⟩
    · exact ⟨h.sameMail rfl rfl rfl rfl (fun x _ => rfl), hareas.mEnd, hareas.young⟩
  · have hdest := hret.destOk hcond
    exact ⟨h.take hmsg hret.mem hdest htake, hareas.take h hmsg hret.mem htake⟩
  · refine ⟨h.sameMail rfl rfl rfl rfl ?_, hareas.mEnd, hareas.young⟩
    intro y hy
    apply update_of_ne
    intro heq
    exact hcond x hx (heq ▸ hy)
  · exact ⟨h.sameMail rfl rfl rfl rfl (fun x _ => rfl), hareas.mEnd, hareas.young⟩

/-- A system that has booted, with the pages of the user zone in the part of
memory that is mapped one to one and mailbox areas that are empty. -/
structure MailStart (s : MsgState) : Prop where
  booted : Booted s
  pages : ∃ lo hi, BuddyInv s.vm.zone lo hi s.live ∧ 0 < lo ∧ hi ≤ s.vm.zone.totalPages
  low : s.vm.zone.base + s.vm.zone.totalPages * PAGE_SIZE ≤ USERMEM_START
  areas : ∀ r a, s.vm.areas r = some a →
    hasFlag a.mFlags MMA_STACK = false ∧ a.mEnd = USERMEM_MBOX

theorem MailStart.inv (h : MailStart s) :
    ∃ lo hi qs, MailCore s lo hi ∧ MailAreas s ∧ MsgInv s qs := by
  rcases h.booted.inv with ⟨qs, hmsg⟩
  rcases h.pages with ⟨lo, hi, hbuddy, hlo, hhi⟩
  have hnone : ∀ {r m}, m ∉ s.mbox r := by
    intro r m hm
    rw [h.booted.mbox r] at hm
    exact List.not_mem_nil hm
  refine ⟨lo, hi, qs, ⟨hbuddy, hlo, hhi, h.low, ?_, ?_, ?_, ?_, ?_, ?_⟩, ⟨?_, ?_⟩, hmsg⟩
  · exact fun r m hm => absurd hm hnone
  · exact fun r m hm => absurd hm hnone
  · exact fun r r' m m' pg hm => absurd hm hnone
  · exact fun r m m' hm => absurd hm hnone
  · exact fun r r' m m' pg hm => absurd hm hnone
  · rw [h.booted.log]
    exact nofun
  · intro r a ha
    rw [h.booted.mbox r]
    exact h.areas r a ha
  · exact fun r _ m hm => absurd hm hnone

theorem bootState_mailStart {sched : SchedState} (hsched : bootSched = some sched) :
    MailStart (bootState sched) where
  booted := bootState_booted hsched
  pages := by
    have hz : consumedPages (rawZone 12).totalPages < (rawZone 12).totalPages := by decide
    refine ⟨_, _, memZoneInit_buddy (rawZone 12) hz, by decide, ?_⟩
    exact Nat.le_of_eq (memZoneInit_samePages (rawZone 12)).2.symm
  low := by
    show (memZoneInit (rawZone 12)).base + (memZoneInit (rawZone 12)).totalPages * _ ≤ _
    decide
  areas := nofun

/-- What is retrieved is what was sent.  In a run whose calls all meet
`MailCond`, every message that `msg_retrieve` has stored has the bytes that the
buffer of the sender held at `msg_send`, and the pending messages of a mailbox
are mapped at different addresses. -/
theorem msgRun_content {s₀ : MsgState} {calls : List MsgCall} (hstart : MailStart s₀)
    (hmeets : Meets MsgState.call MailCond s₀ calls) (hrun : run MsgState.call s₀ calls = some s) :
    (∀ r m stored, .got r m stored ∈ s.log → m.held = stored ∧ stored ≠ none) ∧
      ∀ r, (((s.mbox r).filter (fun m => !m.blocks)).map Message.mBuf).Nodup := by
  rcases hstart.inv with ⟨lo, hi, hinv⟩
  have hend : ∃ qs, MailCore s lo hi ∧ MailAreas s ∧ MsgInv s qs := by
    refine run_invariant_of_meets (fun s => ∃ qs, MailCore s lo hi ∧ MailAreas s ∧ MsgInv s qs)
      ?_ hinv hmeets hrun
    intro s c s' hs hcond hcall
    rcases hs with ⟨qs, hcore, hareas, hmsg⟩
    rcases hmsg.call hcall with ⟨qs', hmsg', -⟩
    rcases hcore.call hareas hmsg hcond hcall with ⟨hcore', hareas'⟩
    exact ⟨qs', hcore', hareas', hmsg'⟩
  rcases hend with ⟨qs, hcore, -, hmsg⟩
  refine ⟨hcore.got, ?_⟩
  intro r
  apply List.Nodup.map_on _ ((List.Nodup.of_map _ (hmsg.nodup r)).filter _)
  intro m hm m' hm' heq
  rcases List.mem_filter.mp hm with ⟨hbox, hb⟩
  rcases List.mem_filter.mp hm' with ⟨hbox', hb'⟩
  exact hcore.bufApart r m m' hbox hbox' (Bool.not_eq_true' _ ▸ hb) (Bool.not_eq_true' _ ▸ hb') heq

/-- Threads 1 and 2 send thread 3 a message each, and it retrieves the one of
thread 1.  The area is then a page shorter, and the next message of thread 1 is
mapped over the one of thread 2: thread 3 retrieves the byte 67 for the 66 that
thread 2 has sent. -/
theorem msgRun_content_overwritten : ∃ s₀ s m, MailStart s₀ ∧
    run MsgState.call s₀ [.send 3 200001 1 0 (some 0) true, .send 3 200002 1 0 (some 1) true,
      .retrieve 1 300000 1 0, .yield, .send 3 200003 1 0 (some 2) true, .yield,
      .retrieve 2 300000 1 0] = some s ∧
    .got 3 m (some [67]) ∈ s.log ∧ m.mSender = 2 ∧ m.held = some [66] := by
  have hsome : ((bootSched.bind (fun sched => run MsgState.call (bootState sched)
      [.send 3 200001 1 0 (some 0) true, .send 3 200002 1 0 (some 1) true,
        .retrieve 1 300000 1 0, .yield, .send 3 200003 1 0 (some 2) true, .yield,
        .retrieve 2 300000 1 0])).bind (fun s => s.log.getLast?)) =
      some (.got 3 ⟨1, 2, 0, 0xa0001000, 1, 1, some [66]⟩ (some [67])) := by decide +kernel
  rcases Option.bind_eq_some_iff.mp hsome with ⟨s, hbind, hlast⟩
  rcases Option.bind_eq_some_iff.mp hbind with ⟨sched, hsched, hrun⟩
  exact ⟨bootState sched, s, _, bootState_mailStart hsched, hrun, List.mem_of_getLast? hlast,
    rfl, rfl⟩

theorem FreeByte.lt {z : Zone} {live : List Block} (h : BuddyInv z lo hi live)
    (hhi : hi ≤ z.totalPages) {x : Nat} (hx : FreeByte z x) :
    x < z.base + z.totalPages * PAGE_SIZE := by
  rcases (freeByte_iff h).mp hx with ⟨p, hp, -, hbytes⟩
  have hmul := Nat.mul_le_mul_right PAGE_SIZE (show p + 1 ≤ z.totalPages by omega)
  rw [Nat.add_mul] at hmul
  unfold pageToAddr at hbytes
  omega

theorem MsgInv.sent_mem (h : MsgInv s qs) {r : Nat} {m : Message} (hm : m ∈ s.mbox r) :
    .sent r m ∈ s.log := by
  have hsent : m ∈ sentTo m.mSender r s.log := by
    rw [h.order]
    exact List.mem_append_right _ (List.mem_filter.mpr ⟨hm, decide_eq_true rfl⟩)
  rcases List.mem_filterMap.mp hsent with ⟨e, he, hm'⟩
  cases e with
  | got _ _ _ => exact nomatch hm'
  | sent r' m' =>
    dsimp only at hm'
    split at hm'
    · rename_i hr
      rw [← Option.some.inj hm', ← hr.1]
      exact he
    · cases hm'

theorem msgRun_content_one : ∃ s₀ s m stored, MailStart s₀ ∧
    Meets MsgState.call MailCond s₀
      [.send 3 200001 1 0 (some 0) true, .yield, .retrieve 1 300000 1 0] ∧
    run MsgState.call s₀
      [.send 3 200001 1 0 (some 0) true, .yield, .retrieve 1 300000 1 0] = some s ∧
    .got 3 m stored ∈ s.log ∧ m.held = stored := by
  have hsome : ((bootSched.bind (fun sched => run MsgState.call (bootState sched)
      [.send 3 200001 1 0 (some 0) true, .yield, .retrieve 1 300000 1 0])).bind
      (fun s => s.log.getLast?)) =
      some (.got 3 ⟨0, 1, 0, 0xa0000000, 1, 0, some [65]⟩ (some [65])) := by decide +kernel
  have hpending : (bootSched.bind (fun sched => run MsgState.call (bootState sched)
      [.send 3 200001 1 0 (some 0) true, .yield])).map
      (fun s => (s.log, s.translate 3 0xa0000000)) =
      some ([.sent 3 ⟨0, 1, 0, 0xa0000000, 1, 0, some [65]⟩], some 4096) := by decide +kernel
  rcases Option.bind_eq_some_iff.mp hsome with ⟨s, hbind, hlast⟩
  rcases Option.bind_eq_some_iff.mp hbind with ⟨sched, hsched, hrun⟩
  have hstart := bootState_mailStart hsched
  have hmeets : Meets MsgState.call MailCond (bootState sched)
      [.send 3 200001 1 0 (some 0) true, .yield, .retrieve 1 300000 1 0] := by
    refine ⟨⟨?_, nofun, fun _ hn => absurd rfl hn⟩, ?_⟩
    · intro i _ x hx hfree
      rcases hstart.pages with ⟨lo, hi, hbuddy, -, hhi⟩
      have hlt := hfree.lt hbuddy hhi
      unfold MsgState.translate USERMEM_START at hx
      rw [if_pos (by omega), Option.some.injEq] at hx
      have hsize : (memZoneInit (rawZone 12)).base +
          (memZoneInit (rawZone 12)).totalPages * PAGE_SIZE = 49152 := by
        rfl
      have hlt' := Nat.lt_of_lt_of_eq hlt hsize
      omega
    · intro s₁ hs₁
      refine ⟨?_, ?_⟩
      · intro sender buf hargs
        unfold MsgState.retrieveArgs at hargs
        cases hpc : s₁.pc s₁.sched.current <;> rw [hpc] at hargs <;> exact nomatch hargs
      · intro s₂ hs₂
        refine ⟨?_, fun s₃ _ => trivial⟩
        have hrun₂ : run MsgState.call (bootState sched)
            [.send 3 200001 1 0 (some 0) true, .yield] = some s₂ :=
          run_cons_eq_some.mpr ⟨s₁, hs₁, run_cons_eq_some.mpr ⟨s₂, hs₂, rfl⟩⟩
        rw [hsched, Option.bind_some, hrun₂, Option.map_some, Option.some.injEq,
          Prod.mk.injEq] at hpending
        rcases msgRun_inv hstart.booted hrun₂ with ⟨qs, hmsg⟩
        have honly : ∀ r, ∀ m ∈ s₂.mbox r, r = 3 ∧ m.mBuf = 0xa0000000 ∧ m.mLen = 1 := by
          intro r m hm
          have hsent := hmsg.sent_mem hm
          rw [hpending.1] at hsent
          rcases MsgEvent.sent.inj (List.mem_singleton.mp hsent) with ⟨rfl, rfl⟩
          exact ⟨rfl, rfl, rfl⟩
        intro sender buf hargs m hm _
        have hbuf : buf = 300000 := by
          unfold MsgState.retrieveArgs at hargs
          cases hpc : s₂.pc s₂.sched.current with
          | user =>
            rw [hpc] at hargs
            exact (Prod.mk.inj (Option.some.inj hargs)).2.symm
          | retrieve _ _ _ _ _ =>
            rw [hpc] at hargs
            cases hargs
        rw [(honly _ m hm).2.2]
        refine ⟨?_, fun i hi j hj x _ _ => by omega⟩
        intro i hi x hx hholds
        rcases hholds with ⟨r, m', hm', j, hj, hx'⟩
        rcases honly r m' hm' with ⟨rfl, hmBuf, hmLen⟩
        have hj₀ : j = 0 := by omega
        rw [hmBuf, hj₀, hpending.2, Option.some.injEq] at hx'
        unfold MsgState.translate USERMEM_START at hx
        rw [if_pos (by omega), Option.some.injEq] at hx
        omega
  exact ⟨bootState sched, s, _, _, hstart, hmeets, hrun, List.mem_of_getLast? hlast,
    ((msgRun_content hstart hmeets hrun).1 3 _ _ (List.mem_of_getLast? hlast)).1⟩

end Runs

end Koowaldah
