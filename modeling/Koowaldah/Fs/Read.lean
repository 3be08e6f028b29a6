import Koowaldah.Fs.Basic

/-!
# Reading back what was stored

`fs_stuff_inode` leaves page `i` of the file in page `i` of the map
(`fsStuffInode_spec`).  A read that fits copies the right bytes
(`FileState.read_spec`), and so the bytes that the reads of a run deliver are
the contents from the start up to the offset (`readRun_contents`).

Reads that do not fit go wrong in two ways.  A short read over the end of a
page goes on in the page after it in memory
(`read_across_pages_wrong`).  A long read that does not start at the start of
a page repeats bytes, and one that stops before the last page stores past the
end of the buffer.
-/

namespace Koowaldah

open SysLib SysLib.Dyadic

variable {z : Zone} {mem bytes : ByteMem} {len off n a : Nat} {f : FileState} {pages : List Nat}

/-- The pages of a map hold the bytes of the file.  The file is `len` bytes
long; `bytes k` is its byte `k`. -/
def Holds (z : Zone) (mem : ByteMem) (pages : List Nat) (bytes : ByteMem) (len : Nat) : Prop :=
  ∀ i pg, pages[i]? = some pg → ∀ j, j < PAGE_SIZE → i * PAGE_SIZE + j < len →
    mem (pageToAddr z pg + j) = bytes (i * PAGE_SIZE + j)

section Holds

variable {z : Zone} {mem : ByteMem} {pages : List Nat} {bytes : ByteMem} {len : Nat}

theorem Holds.congr {z' : Zone} {mem' : ByteMem} (h : Holds z mem pages bytes len)
    (hsame : z.SamePages z')
    (hmem : ∀ pg ∈ pages, ∀ x, pageToAddr z pg ≤ x → x < pageToAddr z pg + PAGE_SIZE →
      mem' x = mem x) : Holds z' mem' pages bytes len := by
  intro i pg hpg j hj hlt
  rw [pageToAddr_congr hsame, hmem pg (List.mem_of_getElem? hpg) _ (by omega) (by omega)]
  exact h i pg hpg j hj hlt

theorem Holds.moveBytes {dst src n : Nat} (h : Holds z mem pages bytes len)
    (hapart : n = 0 ∨ ∀ pg ∈ pages, ApartFrom z ⟨0, pg⟩ dst n) :
    Holds z (moveBytes mem dst src n) pages bytes len := by
  refine h.congr ⟨rfl, rfl⟩ ?_
  intro pg hpg x hlo hhi
  apply moveBytes_of_outside
  rcases hapart with hzero | hapart
  · omega
  · have := apartFrom_page.mp (hapart pg hpg)
    omega

theorem Holds.readBytes {i pg po n : Nat} (h : Holds z mem pages bytes len)
    (hpg : pages[i]? = some pg) (hpo : po + n ≤ PAGE_SIZE) (hlen : i * PAGE_SIZE + po + n ≤ len) :
    readBytes mem (pageToAddr z pg + po) n = readBytes bytes (i * PAGE_SIZE + po) n := by
  apply List.map_congr_left
  intro k hk
  have hlt := List.mem_range.mp hk
  rw [Nat.add_assoc, Nat.add_assoc]
  exact h i pg hpg (po + k) (by omega) (by omega)

theorem Holds.addPage {src₀ pg : Nat} (h : Holds z mem pages bytes len)
    (hne : ∀ q ∈ pages, q ≠ pg) (hsrc : ∀ k, k < len → mem (src₀ + k) = bytes k) :
    Holds z (SysLib.moveBytes mem (pageToAddr z pg) (src₀ + pages.length * PAGE_SIZE)
      (min PAGE_SIZE (len - pages.length * PAGE_SIZE))) (pages ++ [pg]) bytes len := by
  intro i q hq j hj hlt
  by_cases hi : i < pages.length
  · rw [List.getElem?_append_left hi] at hq
    have hqpg := hne q (List.mem_of_getElem? hq)
    rw [moveBytes_of_outside]
    · exact h i q hq j hj hlt
    · unfold pageToAddr PAGE_SIZE at *
      omega
  · rw [List.getElem?_append_right (Nat.le_of_not_lt hi)] at hq
    have hi' : i = pages.length := by
      have := (List.getElem?_eq_some_iff.mp hq).1
      rw [List.length_singleton] at this
      omega
    rw [hi', Nat.sub_self] at hq
    rw [← Option.some.inj hq, hi']
    rw [hi'] at hlt
    unfold SysLib.moveBytes
    rw [if_pos (by omega), Nat.add_sub_cancel_left, Nat.add_assoc]
    exact hsrc _ hlt

end Holds

/-! ## Storing -/

section Stuff

variable {lo hi src left : Nat} {live : List Block} {z' : Zone} {mem' : ByteMem}
  {pages' : List Nat}

theorem stuffLoop_succ_eq_some {r : Zone × ByteMem × List Nat}
    (h : stuffLoop (n + 1) z mem pages src left = some r) :
    pages.length < INODE_PAGES ∧ ∃ pg, (rawAllocPages z 0).2 = some pg ∧
      stuffLoop n (rawAllocPages z 0).1
        (memoryCopy mem (pageToAddr (rawAllocPages z 0).1 pg) src (min PAGE_SIZE left))
        (pages ++ [pg]) (src + PAGE_SIZE) (left - PAGE_SIZE) = some r := by
  unfold stuffLoop at h
  split at h
  · rename_i hroom
    cases hpg : (rawAllocPages z 0).2 with
    | none => simp [hpg] at h
    | some pg =>
      simp only [hpg] at h
      exact ⟨hroom, pg, rfl, h⟩
  · cases h

theorem stuffLoop_extends (n : Nat)
    (h : stuffLoop n z mem pages src left = some (z', mem', pages')) :
    pages <+: pages' ∧ pages'.length = pages.length + n ∧ z.SamePages z' ∧
      (0 < n → pages'.length ≤ INODE_PAGES) := by
  induction n generalizing z mem pages src left with
  | zero =>
    cases h
    exact ⟨List.prefix_refl _, rfl, ⟨rfl, rfl⟩, fun h => absurd h (Nat.lt_irrefl 0)⟩
  | succ n ih =>
    obtain ⟨hroom, pg, -, hrest⟩ := stuffLoop_succ_eq_some h
    obtain ⟨hpre, hlength, hsame, hcap⟩ := ih hrest
    have hsame' := rawAllocPages_samePages z 0
    rw [List.length_append, List.length_singleton] at hlength
    refine ⟨(List.prefix_append pages [pg]).trans hpre, by omega,
      ⟨hsame.1.trans hsame'.1, hsame.2.trans hsame'.2⟩, ?_⟩
    intro _
    cases n with
    | zero => omega
    | succ n => exact hcap (Nat.succ_pos n)

theorem mem_of_stuffLoop {pg : Nat}
    (h : stuffLoop n z mem (pages ++ [pg]) src left = some (z', mem', pages')) : pg ∈ pages' :=
  (stuffLoop_extends n h).1.subset (List.mem_append_right _ (List.mem_singleton_self pg))

theorem BuddyInv.addPage {pg : Nat} (hbuddy : BuddyInv z lo hi (pages.map (Block.mk 0) ++ live))
    (hpg : (rawAllocPages z 0).2 = some pg) :
    BuddyInv (rawAllocPages z 0).1 lo hi ((pages ++ [pg]).map (Block.mk 0) ++ live) := by
  apply (rawAllocPages_buddy hbuddy hpg).perm
  rw [List.map_append, List.append_assoc]
  exact List.perm_middle.symm

theorem stuffLoop_frame (n : Nat) (h : stuffLoop n z mem pages src left = some (z', mem', pages'))
    {x : Nat} (hx : ∀ pg ∈ pages', ApartFrom z ⟨0, pg⟩ x 1) : mem' x = mem x := by
  induction n generalizing z mem pages src left with
  | zero =>
    cases h
    rfl
  | succ n ih =>
    obtain ⟨-, pg, -, hrest⟩ := stuffLoop_succ_eq_some h
    have hsame := rawAllocPages_samePages z 0
    have hpage := apartFrom_page.mp ((hx pg (mem_of_stuffLoop hrest)).congr hsame)
    rw [ih hrest (fun q hq => (hx q hq).congr hsame), memoryCopy_eq,
      moveBytes_of_outside (by omega)]

/-- What the loop of `fs_stuff_inode` keeps: the pages so far are the zone's to
give and hold the bytes so far. -/
theorem stuffLoop_holds (src₀ n : Nat)
    (h : stuffLoop n z mem pages (src₀ + pages.length * PAGE_SIZE)
      (len - pages.length * PAGE_SIZE) = some (z', mem', pages'))
    (hbuddy : BuddyInv z lo hi (pages.map (Block.mk 0) ++ live))
    (hholds : Holds z mem pages bytes len) (hsrc : ∀ k, k < len → mem (src₀ + k) = bytes k)
    (hapart : ∀ pg ∈ pages', ApartFrom z ⟨0, pg⟩ src₀ len) : Holds z' mem' pages' bytes len := by
  induction n generalizing z mem pages with
  | zero =>
    cases h
    exact hholds
  | succ n ih =>
    obtain ⟨-, pg, hpg, hrest⟩ := stuffLoop_succ_eq_some h
    have hsame := rawAllocPages_samePages z 0
    have hne : ∀ q ∈ pages, q ≠ pg := by
      intro q hq
      have hq' : Block.mk 0 q ∈ pages.map (Block.mk 0) ++ live :=
        List.mem_append_left _ (List.mem_map.mpr ⟨q, hq, rfl⟩)
      exact (rawAllocPages_buddy hbuddy hpg).piles.start_ne_of_mem hq'
    have hlength : (pages ++ [pg]).length * PAGE_SIZE =
        pages.length * PAGE_SIZE + PAGE_SIZE := by
      rw [List.length_append, List.length_singleton, Nat.add_mul, Nat.one_mul]
    have hpage := apartFrom_page.mp ((hapart pg (mem_of_stuffLoop hrest)).congr hsame)
    rw [memoryCopy_eq, Nat.add_assoc, Nat.sub_sub, ← hlength] at hrest
    refine ih hrest (hbuddy.addPage hpg)
      ((hholds.congr hsame (fun _ _ _ _ _ => rfl)).addPage hne hsrc) ?_
      (fun q hq => (hapart q hq).congr hsame)
    intro k hk
    rw [moveBytes_of_outside (by omega)]
    exact hsrc k hk

end Stuff

/-! ## Reading -/

/-- An open file on an inode of the shape that `fs_stuff_inode` gives it. -/
structure StuffedFile (f : FileState) : Prop where
  filled : f.inode.iFilled = f.inode.iSize / PAGE_SIZE + 1
  pages : f.inode.iPages.length = f.inode.iSize / PAGE_SIZE + 1
  fits : f.inode.iSize < INODE_PAGES * PAGE_SIZE
  offset : f.fOffset ≤ f.inode.iSize

/-- `fs_stuff_inode` makes one page more than there are full ones. -/
theorem stuffed_of_fsStuffInode {z' : Zone} {mem' : ByteMem} {isChr : Bool} {src : Nat}
    (hstuff : fsStuffInode z mem isChr src len = some (z', mem', f.inode))
    (hoff : f.fOffset ≤ f.inode.iSize) : StuffedFile f := by
  rcases Option.map_eq_some_iff.mp hstuff with ⟨⟨z₁, mem₁, pages⟩, hloop, heq⟩
  rcases Prod.mk.inj heq with ⟨-, heq'⟩
  have hinode := (Prod.mk.inj heq').2
  rcases stuffLoop_extends _ hloop with ⟨-, hlength, -, hcap⟩
  rw [List.length_nil, Nat.zero_add] at hlength
  refine ⟨?_, ?_, ?_, hoff⟩
  · rw [← hinode]
    exact hlength
  · rw [← hinode]
    exact hlength
  · rw [← hinode]
    show len < _
    unfold INODE_PAGES PAGE_SIZE at *
    omega

theorem StuffedFile.due_eq (h : StuffedFile f) (l : Nat) :
    (if f.fOffset + l > f.inode.iSize then
      (f.inode.iSize + WORD_RANGE - f.fOffset % WORD_RANGE) % WORD_RANGE
    else l) = f.due l := by
  have hoff := h.offset
  have hfits := h.fits
  unfold FileState.due
  unfold INODE_PAGES PAGE_SIZE at hfits
  unfold WORD_RANGE
  split
  · omega
  · omega

/-- An open file with its contents in place. -/
structure FileInv (bytes : ByteMem) (len : Nat) (f : FileState) : Prop where
  size : f.inode.iSize = len
  filled : f.inode.iFilled = len / PAGE_SIZE + 1
  pages : f.inode.iPages.length = len / PAGE_SIZE + 1
  fits : len < INODE_PAGES * PAGE_SIZE
  holds : Holds f.zone f.mem f.inode.iPages bytes len
  offset : f.fOffset ≤ len

theorem FileInv.stuffed (h : FileInv bytes len f) :
    StuffedFile f where
  filled := h.size ▸ h.filled
  pages := h.size ▸ h.pages
  fits := h.size ▸ h.fits
  offset := h.size ▸ h.offset

theorem fsStuffInode_spec {lo hi : Nat} {live : List Block} {z' : Zone} {mem' : ByteMem}
    {isChr : Bool} {src : Nat} {inode : Inode} (hbuddy : BuddyInv z lo hi live)
    (hstuff : fsStuffInode z mem isChr src len = some (z', mem', inode))
    (hsrc : ∀ pg ∈ inode.iPages, ApartFrom z ⟨0, pg⟩ src len) :
    FileInv (fun k => mem (src + k)) len ⟨z', mem', inode, 0⟩ ∧
      ∀ x, (∀ pg ∈ inode.iPages, ApartFrom z ⟨0, pg⟩ x 1) → mem' x = mem x := by
  have hstuffed : StuffedFile ⟨z', mem', inode, 0⟩ :=
    stuffed_of_fsStuffInode hstuff (Nat.zero_le _)
  rcases Option.map_eq_some_iff.mp hstuff with ⟨⟨z₁, mem₁, pages⟩, hloop, heq⟩
  cases heq
  have hempty : Holds z mem [] (fun k => mem (src + k)) len := by
    intro i pg hpg
    simp at hpg
  have hholds := stuffLoop_holds src (len / PAGE_SIZE + 1) (by simpa using hloop) hbuddy
    hempty (fun k _ => rfl) hsrc
  exact ⟨⟨rfl, hstuffed.filled, hstuffed.pages, hstuffed.fits, hholds, Nat.zero_le _⟩,
    fun _ hx => stuffLoop_frame _ hloop hx⟩

/-- What a read does: it stores `n` bytes from the offset on, touches no other
memory and moves the offset. -/
structure ReadPost (bytes : ByteMem) (mem mem' : ByteMem) (off buf n : Nat) : Prop where
  stored : readBytes mem' buf n = readBytes bytes off n
  frame : ∀ x, x < buf ∨ buf + n ≤ x → mem' x = mem x

theorem ReadPost.copy {i pg po : Nat} (hholds : Holds z mem pages bytes len)
    (hpg : pages[i]? = some pg) (hoff : off = i * PAGE_SIZE + po) (hpo : po + n ≤ PAGE_SIZE)
    (hlen : off + n ≤ len) (dst : Nat) :
    ReadPost bytes mem (memoryCopy mem dst (pageToAddr z pg + po) n) off dst n := by
  rw [hoff] at hlen ⊢
  rw [memoryCopy_eq]
  refine ⟨?_, fun x hx => moveBytes_of_outside hx⟩
  rw [readBytes_moveBytes]
  exact hholds.readBytes hpg hpo hlen

theorem ReadPost.append {mem₁ mem₂ : ByteMem} {dst b : Nat} (h₁ : ReadPost bytes mem mem₁ off dst a)
    (h₂ : ReadPost bytes mem₁ mem₂ (off + a) (dst + a) b) :
    ReadPost bytes mem mem₂ off dst (a + b) := by
  constructor
  · have hfirst : readBytes mem₂ dst a = readBytes mem₁ dst a := by
      apply readBytes_congr
      intro x _ hx
      exact h₂.frame x (Or.inl hx)
    rw [readBytes_add, readBytes_add, hfirst, h₁.stored, h₂.stored]
  · intro x hx
    rw [h₂.frame x (by omega), h₁.frame x (by omega)]

theorem apart_or_zero_mono {a' n' : Nat} (h : n = 0 ∨ ∀ pg ∈ pages, ApartFrom z ⟨0, pg⟩ a n)
    (hlo : a ≤ a') (hhi : a' + n' ≤ a + n) : n' = 0 ∨ ∀ pg ∈ pages, ApartFrom z ⟨0, pg⟩ a' n' := by
  rcases h with hzero | hapart
  · left
    omega
  · right
    intro pg hpg
    exact (hapart pg hpg).mono hlo hhi

/-- The loop of `generic_read` over `k + 1` pages, for a length that ends in the
last of them. -/
theorem readLoop_spec : ∀ (k : Nat) {mem : ByteMem} {r dst n : Nat}, Holds z mem pages bytes len →
      k * PAGE_SIZE ≤ n → n < (k + 1) * PAGE_SIZE → n < WORD_RANGE →
      r + k < pages.length → r * PAGE_SIZE + n ≤ len →
      (n = 0 ∨ ∀ pg ∈ pages, ApartFrom z ⟨0, pg⟩ dst n) →
      ∃ mem', readLoop z pages (k + 1) mem r dst 0 n = some mem' ∧
        ReadPost bytes mem mem' (r * PAGE_SIZE) dst n := by
  intro k
  induction k with
  | zero =>
    intro mem r dst n hholds _ hhi _ hr hlen _
    have hpg : pages[r]? = some pages[r] := List.getElem?_eq_getElem hr
    have hmin : min PAGE_SIZE n = n := by omega
    have hshort : 0 + n ≤ PAGE_SIZE := by omega
    refine ⟨memoryCopy mem dst (pageToAddr z pages[r] + 0) n, ?_,
      ReadPost.copy hholds hpg (Nat.add_zero (r * PAGE_SIZE)).symm hshort hlen dst⟩
    simp only [hpg, hmin, readLoop]
  | succ k ih =>
    intro mem r dst n hholds hlo hhi hword hr hlen hapart
    have hr' : r < pages.length := by omega
    have hpg : pages[r]? = some pages[r] := List.getElem?_eq_getElem hr'
    rw [Nat.add_mul] at hlo hhi
    have hmin : min PAGE_SIZE n = PAGE_SIZE := by omega
    have hleft : (n + WORD_RANGE - PAGE_SIZE) % WORD_RANGE = n - PAGE_SIZE := by
      unfold WORD_RANGE PAGE_SIZE at *
      omega
    have hcopy : ReadPost bytes mem (memoryCopy mem dst (pageToAddr z pages[r] + 0) PAGE_SIZE)
        (r * PAGE_SIZE) dst PAGE_SIZE :=
      ReadPost.copy hholds hpg (Nat.add_zero (r * PAGE_SIZE)).symm
        (Nat.le_of_eq (Nat.zero_add PAGE_SIZE)) (by omega) dst
    have hholds' : Holds z (memoryCopy mem dst (pageToAddr z pages[r] + 0) PAGE_SIZE) pages
        bytes len := by
      rw [memoryCopy_eq]
      exact hholds.moveBytes (apart_or_zero_mono hapart (Nat.le_refl _) (by omega))
    have hnext : (r + 1) * PAGE_SIZE = r * PAGE_SIZE + PAGE_SIZE := by
      rw [Nat.add_mul, Nat.one_mul]
    have hapart' : n - PAGE_SIZE = 0 ∨
        ∀ pg ∈ pages, ApartFrom z ⟨0, pg⟩ (dst + PAGE_SIZE) (n - PAGE_SIZE) :=
      apart_or_zero_mono hapart (by omega) (by omega)
    have hrest : (r + 1) * PAGE_SIZE + (n - PAGE_SIZE) ≤ len := by omega
    rcases ih hholds' (by omega) (by omega) (by omega) (by omega) hrest hapart' with
      ⟨mem', hloop, hpost⟩
    unfold readLoop
    simp only [hpg, hmin, hleft]
    refine ⟨mem', hloop, ?_⟩
    rw [hnext] at hpost
    have hall := hcopy.append hpost
    rw [Nat.add_sub_cancel' (by omega)] at hall
    exact hall

section Read

variable {bytes : ByteMem} {len : Nat} {f : FileState}

variable {l : Nat}

theorem FileInv.genericRead_spec (h : FileInv bytes len f) {buf : Nat} (hfits : f.ReadFits l)
    (hbuf : f.BufOk buf (f.due l)) : ∃ mem', f.genericRead buf l =
        some ({ f with mem := mem', fOffset := f.fOffset + f.due l }, f.due l) ∧
      ReadPost bytes f.mem mem' f.fOffset buf (f.due l) := by
  have hdue : f.due l ≤ len - f.fOffset := by
    unfold FileState.due
    rw [h.size]
    exact Nat.min_le_right _ _
  have hoff := h.offset
  have hpages := h.pages
  have hlen := h.fits
  unfold FileState.ReadFits at hfits
  unfold FileState.genericRead
  simp only [h.stuffed.due_eq]
  rw [h.filled]
  rw [h.size] at hfits
  generalize f.due l = n at *
  have hdiv := Nat.div_add_mod' f.fOffset PAGE_SIZE
  have hstart : f.fOffset / PAGE_SIZE < f.inode.iPages.length := by
    rw [hpages]
    exact Nat.lt_succ_of_le (Nat.div_le_div_right hoff)
  have hthere : ¬ f.fOffset / PAGE_SIZE + n / PAGE_SIZE > len / PAGE_SIZE + 1 := by
    unfold PAGE_SIZE
    omega
  rw [if_neg hthere]
  by_cases hshort : n < PAGE_SIZE
  · rw [if_pos hshort] at hfits
    rw [if_pos (Nat.div_eq_of_lt hshort), List.getElem?_eq_getElem hstart]
    exact ⟨_, rfl, ReadPost.copy h.holds (List.getElem?_eq_getElem hstart) hdiv.symm hfits
      (by omega) buf⟩
  · rw [if_neg hshort] at hfits
    have hsize : n / PAGE_SIZE ≠ 0 := by
      unfold PAGE_SIZE at *
      omega
    rw [if_neg hsize, hfits.1]
    rw [hfits.1, Nat.add_zero] at hdiv
    have hrounds : max 1 (len / PAGE_SIZE + 1 - f.fOffset / PAGE_SIZE) = n / PAGE_SIZE + 1 := by
      unfold PAGE_SIZE at *
      omega
    rw [hrounds]
    have hmod := Nat.div_add_mod' n PAGE_SIZE
    have hlt := Nat.mod_lt n (show 0 < PAGE_SIZE by decide)
    have hword : n < WORD_RANGE := by
      unfold INODE_PAGES PAGE_SIZE at hlen
      unfold WORD_RANGE
      omega
    have hlast : f.fOffset / PAGE_SIZE + n / PAGE_SIZE < f.inode.iPages.length := by
      omega
    have hupto : f.fOffset / PAGE_SIZE * PAGE_SIZE + n ≤ len := by omega
    rcases readLoop_spec (n / PAGE_SIZE) h.holds (by omega) (by rw [Nat.add_mul]; omega)
      hword hlast hupto hbuf with ⟨mem', hloop, hpost⟩
    rw [hloop]
    rw [hdiv] at hpost
    exact ⟨mem', rfl, hpost⟩

theorem FileState.read_spec (h : FileInv bytes len f) {buf : Nat} (hfits : f.ReadFits l)
    (hbuf : f.BufOk buf (f.due l)) : ∃ mem', f.read buf l =
        some ({ f with mem := mem', fOffset := f.fOffset + f.due l }, f.due l) ∧
      ReadPost bytes f.mem mem' f.fOffset buf (f.due l) := by
  unfold FileState.read
  by_cases hend : f.fOffset = f.inode.iSize ∧ f.inode.isChr = false
  · have hdue : f.due l = 0 := by
      unfold FileState.due
      omega
    rw [if_pos hend, hdue]
    exact ⟨f.mem, rfl, ⟨rfl, fun _ _ => rfl⟩⟩
  · rw [if_neg hend]
    exact h.genericRead_spec hfits hbuf

/-- A short read copies from the first page on, whether the bytes are all in it
or not. -/
theorem FileInv.read_short (h : FileInv bytes len f) (buf : Nat) {pg : Nat}
    (hpg : f.inode.iPages[f.fOffset / PAGE_SIZE]? = some pg) (hshort : f.due l < PAGE_SIZE)
    (hend : f.fOffset ≠ f.inode.iSize) : f.read buf l = some ({ f with
      mem := moveBytes f.mem buf (pageToAddr f.zone pg + f.fOffset % PAGE_SIZE) (f.due l)
      fOffset := f.fOffset + f.due l }, f.due l) := by
  have hthere : ¬ f.fOffset / PAGE_SIZE + f.due l / PAGE_SIZE > f.inode.iFilled := by
    rw [Nat.div_eq_of_lt hshort, h.filled]
    have := Nat.div_le_div_right (c := PAGE_SIZE) h.offset
    omega
  unfold FileState.read
  rw [if_neg (fun hboth => hend hboth.1)]
  unfold FileState.genericRead
  simp only [h.stuffed.due_eq]
  rw [if_neg hthere, if_pos (Nat.div_eq_of_lt hshort), hpg, Option.map_some,
    memoryCopy_eq]

theorem FileInv.withMem {mem' : ByteMem} {off a n : Nat} (h : FileInv bytes len f)
    (hbuf : f.BufOk a n) (hoff : off ≤ len) (hframe : ∀ x, x < a ∨ a + n ≤ x → mem' x = f.mem x) :
    FileInv bytes len { f with mem := mem', fOffset := off } := by
  refine ⟨h.size, h.filled, h.pages, h.fits, ?_, hoff⟩
  refine h.holds.congr ⟨rfl, rfl⟩ ?_
  intro pg hpg x hlo hhi
  apply hframe
  rcases hbuf with hzero | hbuf
  · omega
  · have := apartFrom_page.mp (hbuf pg hpg)
    omega

end Read

/-! ## Runs -/

/-- The file is in order and what has been delivered is its contents up to the
offset. -/
structure ReadInv (bytes : ByteMem) (len : Nat) (s : ReadSys) : Prop where
  file : FileInv bytes len s.file
  log : s.delivered = readBytes bytes 0 s.file.fOffset

theorem ReadInv.call {s s' : ReadSys} {c : ReadCall} (h : ReadInv bytes len s) (hfits : s.Fits c)
    (hcall : s.call c = some s') : ReadInv bytes len s' := by
  cases c with
  | read buf l =>
    unfold ReadSys.call at hcall
    dsimp only at hcall
    split at hcall
    · rename_i hbuf
      rcases FileState.read_spec h.file hfits hbuf with ⟨mem', hread, hpost⟩
      rw [hread] at hcall
      cases hcall
      have hdue : s.file.fOffset + s.file.due l ≤ len := by
        have hoff := h.file.offset
        have hsize := h.file.size
        unfold FileState.due
        omega
      refine ⟨h.file.withMem hbuf hdue hpost.frame, ?_⟩
      show s.delivered ++ readBytes mem' buf (s.file.due l) =
        readBytes bytes 0 (s.file.fOffset + s.file.due l)
      rw [readBytes_add, Nat.zero_add, hpost.stored, h.log]
    · simp at hcall
  | store addr v =>
    unfold ReadSys.call at hcall
    dsimp only at hcall
    split at hcall
    · rename_i hbuf
      cases hcall
      refine ⟨h.file.withMem hbuf h.file.offset ?_, h.log⟩
      intro x hx
      rw [Function.update_apply, if_neg (by omega)]
    · simp at hcall

theorem readBytes_shift (mem : ByteMem) (src off n : Nat) :
    readBytes (fun k => mem (src + k)) off n = readBytes mem (src + off) n := by
  apply List.map_congr_left
  intro i _
  rw [Nat.add_assoc]

/-- Store a byte string in an inode, on any zone that calls have reached, and
read it back with reads that fit.  What has been delivered is the string up to
the offset, and the next read that fits delivers the bytes due, exactly those,
and moves the offset by their number. -/
theorem readRun_contents (z : Zone) (hz : consumedPages z.totalPages < z.totalPages)
    (zcalls : List AllocCall) (a : AllocState)
    (hzone : run AllocState.call ⟨memZoneInit z, []⟩ zcalls = some a) (mem : ByteMem) (isChr : Bool)
    (src len : Nat) (z' : Zone) (mem' : ByteMem) (inode : Inode)
    (hstuff : fsStuffInode a.zone mem isChr src len = some (z', mem', inode))
    (hsrc : ∀ pg ∈ inode.iPages, ApartFrom a.zone ⟨0, pg⟩ src len) (calls : List ReadCall)
    (s : ReadSys) (hfits : Meets ReadSys.call ReadSys.Fits ⟨⟨z', mem', inode, 0⟩, []⟩ calls)
    (hrun : run ReadSys.call ⟨⟨z', mem', inode, 0⟩, []⟩ calls = some s) :
    s.file.fOffset ≤ len ∧ s.delivered = readBytes mem src s.file.fOffset ∧
      ∀ buf l n, n = min l (len - s.file.fOffset) → s.file.ReadFits l → s.file.BufOk buf n →
        ∃ mem'', s.file.read buf l =
            some ({ s.file with mem := mem'', fOffset := s.file.fOffset + n }, n) ∧
          readBytes mem'' buf n = readBytes mem (src + s.file.fOffset) n ∧
          ∀ x, x < buf ∨ buf + n ≤ x → mem'' x = s.file.mem x := by
  have hstart : ReadInv (fun k => mem (src + k)) len ⟨⟨z', mem', inode, 0⟩, []⟩ :=
    ⟨(fsStuffInode_spec (allocRun_buddy hz hzone) hstuff hsrc).1, rfl⟩
  have h : ReadInv (fun k => mem (src + k)) len s :=
    run_invariant_of_meets (ReadInv (fun k => mem (src + k)) len)
      (fun _ _ _ hs hc hcall => hs.call hc hcall) hstart hfits hrun
  refine ⟨h.file.offset, ?_, ?_⟩
  · rw [h.log, readBytes_shift, Nat.add_zero]
  · intro buf l n hn hread hbuf
    have hdue : s.file.due l = n := by
      unfold FileState.due
      rw [h.file.size, hn]
    rw [← hdue] at hbuf
    rcases FileState.read_spec h.file hread hbuf with ⟨mem'', heq, hpost⟩
    rw [hdue] at heq hpost
    refine ⟨mem'', heq, ?_, hpost.frame⟩
    rw [hpost.stored, readBytes_shift]

/-! ## A file of two pages

The pages that a fresh zone of four pages gives to a file of 5000 bytes are 1
and 3, and page 2 is free. -/

theorem fsStuffInode_5000 : ∃ z mem inode,
      fsStuffInode (memZoneInit (rawZone 4)) (fun x => UInt8.ofNat x) false 20000 5000 =
        some (z, mem, inode) ∧
      inode.iPages = [1, 3] ∧ z.base = 0 ∧
      FileInv (fun k => UInt8.ofNat (20000 + k)) 5000 ⟨z, mem, inode, 0⟩ ∧
      mem 8192 = 0 := by
  have hres : (fsStuffInode (memZoneInit (rawZone 4)) (fun x => UInt8.ofNat x) false 20000
      5000).map (fun r => (r.2.2.iPages, r.1.base)) = some ([1, 3], 0) := by decide +kernel
  rcases Option.map_eq_some_iff.mp hres with ⟨⟨z, mem, inode⟩, hstuff, heq⟩
  rcases Prod.mk.inj heq with ⟨hpages, hbase⟩
  have hapart : ∀ a n, 16384 ≤ a → ∀ pg ∈ inode.iPages,
      ApartFrom (memZoneInit (rawZone 4)) ⟨0, pg⟩ a n := by
    intro a n ha pg hpg
    rw [apartFrom_page]
    rw [hpages] at hpg
    simp only [List.mem_cons, List.not_mem_nil, or_false] at hpg
    right
    show 0 + pg * 4096 + 4096 ≤ a
    omega
  have hspec := fsStuffInode_spec (memZoneInit_buddy (rawZone 4) (by decide)) hstuff
    (hapart 20000 5000 (by decide))
  refine ⟨z, mem, inode, hstuff, hpages, hbase, hspec.1, ?_⟩
  rw [hspec.2 8192]
  · rfl
  · intro pg hpg
    rw [apartFrom_page]
    rw [hpages] at hpg
    simp only [List.mem_cons, List.not_mem_nil, or_false] at hpg
    show 8192 + 1 ≤ 0 + pg * 4096 ∨ 0 + pg * 4096 + 4096 ≤ 8192
    omega

theorem bufOk_of_pages {inode : Inode} (hpages : inode.iPages = [1, 3]) (hbase : z.base = 0)
    (ha : 16384 ≤ a) : (⟨z, mem, inode, off⟩ : FileState).BufOk a n := by
  right
  intro pg hpg
  rw [hpages] at hpg
  simp only [List.mem_cons, List.not_mem_nil, or_false] at hpg
  rw [apartFrom_page]
  right
  show z.base + pg * 4096 + 4096 ≤ a
  omega

theorem readRun_contents_5000 : ∃ z mem inode s,
      fsStuffInode (memZoneInit (rawZone 4)) (fun x => UInt8.ofNat x) false 20000 5000 =
        some (z, mem, inode) ∧
      run ReadSys.call ⟨⟨z, mem, inode, 0⟩, []⟩ [.read 30000 5000] = some s ∧
      s.file.fOffset = 5000 ∧ s.delivered = readBytes (fun x => UInt8.ofNat x) 20000 5000 := by
  rcases fsStuffInode_5000 with ⟨z, mem, inode, hstuff, hpages, hbase, hfile, -⟩
  have hsize : inode.iSize = 5000 := hfile.size
  have hdue : (⟨z, mem, inode, 0⟩ : FileState).due 5000 = 5000 := by
    unfold FileState.due
    rw [hsize]
    rfl
  have hfits : (⟨z, mem, inode, 0⟩ : FileState).ReadFits 5000 := by
    unfold FileState.ReadFits
    rw [hdue, hsize]
    exact ⟨rfl, rfl⟩
  have hbuf : (⟨z, mem, inode, 0⟩ : FileState).BufOk 30000 5000 :=
    bufOk_of_pages hpages hbase (by decide)
  have hsrc : ∀ pg ∈ inode.iPages,
      ApartFrom (memZoneInit (rawZone 4)) ⟨0, pg⟩ 20000 5000 := by
    rw [hpages]
    decide
  rcases FileState.read_spec hfile hfits (hdue.symm ▸ hbuf) with ⟨mem', hread, -⟩
  rw [hdue] at hread
  have hrun : run ReadSys.call ⟨⟨z, mem, inode, 0⟩, []⟩ [.read 30000 5000] =
      some ⟨⟨z, mem', inode, 5000⟩, readBytes mem' 30000 5000⟩ := by
    refine run_cons_eq_some.mpr ⟨_, ?_, rfl⟩
    unfold ReadSys.call
    dsimp only
    rw [hdue, if_pos hbuf, hread]
    simp only [Option.map_some, List.nil_append, Nat.zero_add]
  refine ⟨z, mem, inode, _, hstuff, hrun, rfl, ?_⟩
  exact (readRun_contents (rawZone 4) (by decide) [] ⟨memZoneInit (rawZone 4), []⟩ rfl _ false
    20000 5000 z mem inode hstuff hsrc [.read 30000 5000] _ ⟨hfits, fun _ _ => trivial⟩
    hrun).2.1

/-- A read of 4000 bytes and then one of 200, over the end of the first page:
byte 4096 of what they deliver is from the free page after it. -/
theorem read_across_pages_wrong : ∃ z mem inode s,
      fsStuffInode (memZoneInit (rawZone 4)) (fun x => UInt8.ofNat x) false 20000 5000 =
        some (z, mem, inode) ∧
      run ReadSys.call ⟨⟨z, mem, inode, 0⟩, []⟩ [.read 30000 4000, .read 40000 200] = some s ∧
      s.file.fOffset = 4200 ∧ s.delivered ≠ readBytes (fun x => UInt8.ofNat x) 20000 4200 := by
  rcases fsStuffInode_5000 with ⟨z, mem, inode, hstuff, hpages, hbase, hfile, hfree⟩
  have hsize : inode.iSize = 5000 := hfile.size
  have hfirst : inode.iPages[0]? = some 1 := by rw [hpages]; rfl
  have haddr : pageToAddr z 1 = 4096 := by
    unfold pageToAddr
    rw [hbase]
    rfl
  have hapart : ∀ mem off a n, 16384 ≤ a → (⟨z, mem, inode, off⟩ : FileState).BufOk a n :=
    fun _ _ _ _ ha => bufOk_of_pages hpages hbase ha
  have hdue : ∀ mem off l, l ≤ 5000 - off →
      (⟨z, mem, inode, off⟩ : FileState).due l = l := by
    intro mem off l hl
    unfold FileState.due
    rw [hsize]
    exact Nat.min_eq_left hl
  have hread : ∀ mem off buf l,
      FileInv (fun k => UInt8.ofNat (20000 + k)) 5000 ⟨z, mem, inode, off⟩ →
      off < PAGE_SIZE → l ≤ 5000 - off → l < PAGE_SIZE →
      (⟨z, mem, inode, off⟩ : FileState).read buf l =
        some (⟨z, moveBytes mem buf (4096 + off) l, inode, off + l⟩, l) := by
    intro mem off buf l hf hoff hl hshort
    have hpg : inode.iPages[off / PAGE_SIZE]? = some 1 := by
      rw [Nat.div_eq_of_lt hoff]
      exact hfirst
    have hne : off ≠ inode.iSize := by
      unfold PAGE_SIZE at hoff
      omega
    have hres := hf.read_short buf (l := l) hpg (by rw [hdue mem off l hl]; exact hshort) hne
    simp only [hdue mem off l hl, haddr, Nat.mod_eq_of_lt hoff] at hres
    exact hres
  have hfile' : FileInv (fun k => UInt8.ofNat (20000 + k)) 5000
      ⟨z, moveBytes mem 30000 (4096 + 0) 4000, inode, 4000⟩ :=
    hfile.withMem (hapart mem 0 30000 4000 (by decide)) (by decide)
      (fun x hx => moveBytes_of_outside hx)
  have hread₁ := hread mem 0 30000 4000 hfile (by decide) (by decide) (by decide)
  have hread₂ := hread _ 4000 40000 200 hfile' (by decide) (by decide) (by decide)
  rw [Nat.zero_add] at hread₁
  generalize hmem₁ : moveBytes mem 30000 (4096 + 0) 4000 = mem₁ at hread₁ hread₂
  generalize hmem₂ : moveBytes mem₁ 40000 (4096 + 4000) 200 = mem₂ at hread₂
  have hbyte : mem₂ 40096 = 0 := by
    rw [← hmem₂, ← hmem₁]
    unfold moveBytes
    rw [if_pos (by omega), if_neg (by omega)]
    exact hfree
  refine ⟨z, mem, inode, ⟨⟨z, mem₂, inode, 4200⟩,
    readBytes mem₁ 30000 4000 ++ readBytes mem₂ 40000 200⟩, hstuff, ?_, rfl, ?_⟩
  · refine run_cons_eq_some.mpr ⟨⟨⟨z, mem₁, inode, 4000⟩, readBytes mem₁ 30000 4000⟩, ?_, ?_⟩
    · unfold ReadSys.call
      dsimp only
      rw [if_pos (hapart _ _ _ _ (by decide)), hread₁]
      simp only [Option.map_some, List.nil_append]
    · refine run_cons_eq_some.mpr ⟨_, ?_, rfl⟩
      unfold ReadSys.call
      dsimp only
      rw [if_pos (hapart _ _ _ _ (by decide)), hread₂]
      simp only [Option.map_some]
  · intro heq
    have hget := congrArg (fun l => l[4096]?) heq
    dsimp only at hget
    rw [List.getElem?_append_right (by simp), readBytes_length, readBytes_getElem?,
      readBytes_getElem?, if_pos (by omega), if_pos (by omega)] at hget
    rw [hbyte] at hget
    exact absurd hget (by decide)

end Koowaldah
