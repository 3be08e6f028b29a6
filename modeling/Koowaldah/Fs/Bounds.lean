import Koowaldah.Fs.Read

/-!
# The bytes that `generic_read` touches

`generic_read` moves bytes with `memory_copy` only.  `genericReadCopies` is the list
of its calls, and `genericRead_eq_copies` says that the read is these calls one after the
other.  `mem_copies_iff` says which calls there are:

* a read of less than a page is one copy from the page of the offset on;
* a longer one is a copy for every page of the file from there on.  The count of the bytes
  left wraps below zero, so a round that comes after the last byte due copies a whole page.

`staysInside_iff` reads off when all of them store into the buffer and load from the pages
of the file.
-/

namespace Koowaldah

open SysLib SysLib.Dyadic

/-! ## The copies -/

def readLoopCopies (z : Zone) (pages : List Nat) :
    Nat → Nat → Nat → Nat → Nat → Option (List Copy)
  | 0, _, _, _, _ => some []
  | n + 1, r, dst, pgstartOff, left =>
    match pages[r]? with
    | none => none
    | some pg =>
      (readLoopCopies z pages n (r + 1) (dst + PAGE_SIZE) 0
        ((left + WORD_RANGE - PAGE_SIZE) % WORD_RANGE)).map
          (fun copies => ⟨dst, pageToAddr z pg + pgstartOff, min PAGE_SIZE left⟩ :: copies)

/-- The calls of `memory_copy` that `generic_read` makes. -/
def FileState.genericReadCopies (f : FileState) (buf len : Nat) : Option (List Copy) :=
  let len :=
    if f.fOffset + len > f.inode.iSize then
      (f.inode.iSize + WORD_RANGE - f.fOffset % WORD_RANGE) % WORD_RANGE
    else len
  let npages := f.inode.iFilled
  let pgstart := f.fOffset / PAGE_SIZE
  let pgstartOff := f.fOffset % PAGE_SIZE
  let pgsize := len / PAGE_SIZE
  if pgstart + pgsize > npages then none
  else if pgsize = 0 then
    (f.inode.iPages[pgstart]?).map (fun pg => [⟨buf, pageToAddr f.zone pg + pgstartOff, len⟩])
  else
    readLoopCopies f.zone f.inode.iPages (max 1 (npages - pgstart)) pgstart buf pgstartOff len

theorem readLoop_eq_copies (z : Zone) (pages : List Nat) (k : Nat) (mem : ByteMem)
    (r dst off left : Nat) : readLoop z pages k mem r dst off left =
      (readLoopCopies z pages k r dst off left).map (fun copies => copies.foldl Copy.run mem) := by
  induction k generalizing mem r dst off left with
  | zero => rfl
  | succ k ih =>
    unfold readLoop readLoopCopies
    cases pages[r]? with
    | none => rfl
    | some pg =>
      dsimp only
      rw [ih, Option.map_map]
      rfl

theorem StuffedFile.genericRead_eq_copies {f : FileState} (h : StuffedFile f) (buf len : Nat) :
    f.genericRead buf len = (f.genericReadCopies buf len).map (fun copies =>
      ({ f with mem := copies.foldl Copy.run f.mem, fOffset := f.fOffset + f.due len },
        f.due len)) := by
  unfold FileState.genericRead FileState.genericReadCopies
  simp only [h.due_eq]
  split
  · rfl
  · split
    · rw [Option.map_map]
      rfl
    · rw [readLoop_eq_copies, Option.map_map]
      rfl

/-! ## Which copies there are -/

/-- The `size_t` that counts the bytes left, after `j` rounds. -/
def leftAfter (left j : Nat) : Nat := (left + j * (WORD_RANGE - PAGE_SIZE)) % WORD_RANGE

theorem leftAfter_zero {left : Nat} (hleft : left < WORD_RANGE) : leftAfter left 0 = left := by
  unfold leftAfter
  rw [Nat.zero_mul, Nat.add_zero, Nat.mod_eq_of_lt hleft]

theorem leftAfter_succ (left j : Nat) :
    leftAfter ((left + WORD_RANGE - PAGE_SIZE) % WORD_RANGE) j = leftAfter left (j + 1) := by
  unfold leftAfter
  have hword : PAGE_SIZE ≤ WORD_RANGE := by decide
  rw [Nat.mod_add_mod, Nat.add_sub_assoc hword, Nat.add_mul, Nat.one_mul]
  congr 1
  omega

theorem leftAfter_of_le {left j : Nat} (hleft : left < WORD_RANGE) (hle : j * PAGE_SIZE ≤ left) :
    leftAfter left j = left - j * PAGE_SIZE := by
  have hword : PAGE_SIZE ≤ WORD_RANGE := by decide
  have hsum : left + j * (WORD_RANGE - PAGE_SIZE) = left - j * PAGE_SIZE + WORD_RANGE * j := by
    have hmul : j * (WORD_RANGE - PAGE_SIZE) + j * PAGE_SIZE = WORD_RANGE * j := by
      rw [← Nat.mul_add, Nat.sub_add_cancel hword, Nat.mul_comm]
    omega
  unfold leftAfter
  rw [hsum, Nat.add_mul_mod_self_left, Nat.mod_eq_of_lt (by omega)]

/-- After it the count has wrapped, and a page and more seems to be left. -/
theorem page_le_leftAfter {left j : Nat} (hj : j ≤ INODE_PAGES) (hlt : left < j * PAGE_SIZE) :
    PAGE_SIZE ≤ leftAfter left j := by
  have hsum : left + j * (WORD_RANGE - PAGE_SIZE) =
      WORD_RANGE - (j * PAGE_SIZE - left) + WORD_RANGE * (j - 1) := by
    unfold WORD_RANGE PAGE_SIZE INODE_PAGES at *
    omega
  have hsmall : WORD_RANGE - (j * PAGE_SIZE - left) < WORD_RANGE := by
    unfold WORD_RANGE
    omega
  unfold leftAfter
  rw [hsum, Nat.add_mul_mod_self_left, Nat.mod_eq_of_lt hsmall]
  unfold WORD_RANGE PAGE_SIZE INODE_PAGES at *
  omega

theorem mem_readLoopCopies (z : Zone) (pages : List Nat) (k r dst off : Nat) {left : Nat}
    (hk : r + k ≤ pages.length) (hleft : left < WORD_RANGE) :
    ∃ copies, readLoopCopies z pages k r dst off left = some copies ∧
      ∀ c, c ∈ copies ↔ ∃ j pg, j < k ∧ pages[r + j]? = some pg ∧
        c = ⟨dst + j * PAGE_SIZE, pageToAddr z pg + (if j = 0 then off else 0),
          min PAGE_SIZE (leftAfter left j)⟩ := by
  induction k generalizing r dst off left with
  | zero =>
    refine ⟨[], rfl, ?_⟩
    intro c
    refine iff_of_false List.not_mem_nil ?_
    intro h
    rcases h with ⟨j, pg, hj, -⟩
    exact Nat.not_lt_zero j hj
  | succ k ih =>
    have hr : r < pages.length := by omega
    obtain ⟨first, hpg⟩ : ∃ first, pages[r]? = some first := ⟨_, List.getElem?_eq_getElem hr⟩
    have hnext : (left + WORD_RANGE - PAGE_SIZE) % WORD_RANGE < WORD_RANGE :=
      Nat.mod_lt _ (by decide)
    rcases ih (r + 1) (dst + PAGE_SIZE) 0 (by omega) hnext with ⟨copies, hcopies, hmem⟩
    refine ⟨⟨dst, pageToAddr z first + off, min PAGE_SIZE left⟩ :: copies, ?_, ?_⟩
    · unfold readLoopCopies
      rw [hpg]
      dsimp only
      rw [hcopies, Option.map_some]
    · intro c
      rw [List.mem_cons, hmem]
      constructor
      · intro h
        rcases h with rfl | ⟨j, pg, hj, hpage, rfl⟩
        · refine ⟨0, first, Nat.succ_pos k, hpg, ?_⟩
          rw [Nat.zero_mul, Nat.add_zero, if_pos rfl, leftAfter_zero hleft]
        · refine ⟨j + 1, pg, Nat.succ_lt_succ hj, ?_, ?_⟩
          · rw [← hpage]
            congr 1
            omega
          · rw [leftAfter_succ, ite_self, if_neg (Nat.succ_ne_zero j), Nat.add_mul, Nat.one_mul]
            congr 1
            omega
      · intro h
        rcases h with ⟨j, pg, hj, hpage, rfl⟩
        cases j with
        | zero =>
          left
          rw [Nat.add_zero, hpg] at hpage
          rw [Nat.zero_mul, Nat.add_zero, if_pos rfl, leftAfter_zero hleft,
            Option.some.inj hpage]
        | succ j =>
          right
          refine ⟨j, pg, Nat.lt_of_succ_lt_succ hj, ?_, ?_⟩
          · rw [← hpage]
            congr 1
            omega
          · rw [leftAfter_succ, ite_self, if_neg (Nat.succ_ne_zero j), Nat.add_mul, Nat.one_mul]
            congr 1
            omega

section Read

variable {f : FileState} {buf len : Nat}

theorem StuffedFile.due_lt (h : StuffedFile f) (len : Nat) :
    f.fOffset + f.due len ≤ f.inode.iSize ∧ f.due len < WORD_RANGE := by
  have hoff := h.offset
  have hfits := h.fits
  unfold INODE_PAGES PAGE_SIZE at hfits
  unfold FileState.due WORD_RANGE
  omega

/-- The copies of a read.  Those after the first are there when a page or more is due, and
then there is one for every page of the file. -/
theorem StuffedFile.mem_copies_iff (h : StuffedFile f) (buf len : Nat) :
    ∃ copies, f.genericReadCopies buf len = some copies ∧
      ∀ c, c ∈ copies ↔ ∃ j pg, f.inode.iPages[f.fOffset / PAGE_SIZE + j]? = some pg ∧
        (0 < j → PAGE_SIZE ≤ f.due len) ∧
        c = ⟨buf + j * PAGE_SIZE,
          pageToAddr f.zone pg + (if j = 0 then f.fOffset % PAGE_SIZE else 0),
          min PAGE_SIZE (leftAfter (f.due len) j)⟩ := by
  rcases h.due_lt len with ⟨hdue, hword⟩
  have hpages := h.pages
  have hstart : f.fOffset / PAGE_SIZE < f.inode.iPages.length := by
    rw [hpages]
    exact Nat.lt_succ_of_le (Nat.div_le_div_right h.offset)
  have hthere : ¬ f.fOffset / PAGE_SIZE + f.due len / PAGE_SIZE > f.inode.iFilled := by
    rw [h.filled]
    unfold PAGE_SIZE
    omega
  unfold FileState.genericReadCopies
  simp only [h.due_eq]
  rw [if_neg hthere]
  by_cases hshort : f.due len < PAGE_SIZE
  · have hpg := List.getElem?_eq_getElem hstart
    rw [if_pos (Nat.div_eq_of_lt hshort), hpg]
    refine ⟨_, rfl, ?_⟩
    intro c
    rw [List.mem_singleton]
    constructor
    · rintro rfl
      refine ⟨0, _, hpg, fun hpos => absurd hpos (Nat.lt_irrefl 0), ?_⟩
      rw [Nat.zero_mul, Nat.add_zero, if_pos rfl, leftAfter_zero hword,
        Nat.min_eq_right (Nat.le_of_lt hshort)]
    · intro hc
      rcases hc with ⟨j, pg, hpage, hpos, rfl⟩
      have hj : j = 0 := by
        by_contra hne
        exact absurd (hpos (Nat.pos_of_ne_zero hne)) (by omega)
      subst hj
      rw [Nat.add_zero, hpg] at hpage
      rw [Nat.zero_mul, Nat.add_zero, if_pos rfl, leftAfter_zero hword,
        Nat.min_eq_right (Nat.le_of_lt hshort), Option.some.inj hpage]
  · have hlong : f.due len / PAGE_SIZE ≠ 0 := by
      unfold PAGE_SIZE at *
      omega
    rw [if_neg hlong]
    have hrounds : f.fOffset / PAGE_SIZE + max 1 (f.inode.iFilled - f.fOffset / PAGE_SIZE) =
        f.inode.iPages.length := by
      rw [h.filled, ← hpages]
      omega
    rcases mem_readLoopCopies f.zone f.inode.iPages
      (max 1 (f.inode.iFilled - f.fOffset / PAGE_SIZE)) (f.fOffset / PAGE_SIZE) buf
      (f.fOffset % PAGE_SIZE) (Nat.le_of_eq hrounds) hword with ⟨copies, hcopies, hmem⟩
    refine ⟨copies, hcopies, ?_⟩
    intro c
    rw [hmem]
    constructor
    · intro hc
      rcases hc with ⟨j, pg, -, hpage, hc⟩
      exact ⟨j, pg, hpage, fun _ => Nat.le_of_not_lt hshort, hc⟩
    · intro hc
      rcases hc with ⟨j, pg, hpage, -, hc⟩
      refine ⟨j, pg, ?_, hpage, hc⟩
      have hlt := (List.getElem?_eq_some_iff.mp hpage).1
      omega

end Read

/-! ## Staying inside -/

def FileState.OwnByte (f : FileState) (x : Nat) : Prop :=
  ∃ pg ∈ f.inode.iPages, pageToAddr f.zone pg ≤ x ∧ x < pageToAddr f.zone pg + PAGE_SIZE

/-- `generic_read` returns, and each of its copies stores only into as many bytes of the
buffer as are due and loads only bytes of the pages of the file. -/
def FileState.StaysInside (f : FileState) (buf len : Nat) : Prop :=
  ∃ copies, f.genericReadCopies buf len = some copies ∧
    f.genericRead buf len =
      some ({ f with mem := copies.foldl Copy.run f.mem, fOffset := f.fOffset + f.due len },
        f.due len) ∧
    ∀ c ∈ copies, (∀ x, c.Stores x → buf ≤ x ∧ x < buf + f.due len) ∧
      ∀ x, c.Loads x → f.OwnByte x

/-- What keeps a read inside.  The first copy ends in its page, or the page after that in
memory is the file's too.  When a page or more is due, no page of the file starts after the
last byte due.  A copy of a page to its own place does nothing, and is no harm. -/
def FileState.InsideWhen (f : FileState) (buf len : Nat) : Prop :=
  (∀ pg, f.inode.iPages[f.fOffset / PAGE_SIZE]? = some pg →
    buf = pageToAddr f.zone pg + f.fOffset % PAGE_SIZE ∨
      f.fOffset % PAGE_SIZE + min PAGE_SIZE (f.due len) ≤ PAGE_SIZE ∨
      pg + 1 ∈ f.inode.iPages) ∧
  (PAGE_SIZE ≤ f.due len → ∀ j pg, f.inode.iPages[f.fOffset / PAGE_SIZE + j]? = some pg →
    f.due len < j * PAGE_SIZE → buf + j * PAGE_SIZE = pageToAddr f.zone pg)

section Inside

variable {f : FileState} {buf len : Nat}

theorem loads_own_iff {c : Copy} {pg off : Nat} (hpg : pg ∈ f.inode.iPages)
    (hsrc : c.src = pageToAddr f.zone pg + off) (hoff : off < PAGE_SIZE) (hn : c.n ≤ PAGE_SIZE) :
    (∀ x, c.Loads x → f.OwnByte x) ↔
      c.dst = c.src ∨ off + c.n ≤ PAGE_SIZE ∨ pg + 1 ∈ f.inode.iPages := by
  have hnext : pageToAddr f.zone (pg + 1) = pageToAddr f.zone pg + PAGE_SIZE := by
    unfold pageToAddr
    rw [Nat.add_mul, Nat.one_mul, Nat.add_assoc]
  constructor
  · intro h
    by_cases heq : c.dst = c.src
    · exact Or.inl heq
    · by_cases hfits : off + c.n ≤ PAGE_SIZE
      · exact Or.inr (Or.inl hfits)
      · -- the first byte after the page is loaded
        rcases h (pageToAddr f.zone (pg + 1)) ⟨heq, by omega, by omega⟩ with ⟨q, hq, hlo, hhi⟩
        have hqpg : q = pg + 1 := by
          unfold pageToAddr PAGE_SIZE at hlo hhi
          omega
        exact Or.inr (Or.inr (hqpg ▸ hq))
  · intro h x hx
    rcases hx with ⟨hne, hlo, hhi⟩
    by_cases hin : x < pageToAddr f.zone pg + PAGE_SIZE
    · exact ⟨pg, hpg, by omega, hin⟩
    · rcases h with heq | hfits | hmem
      · exact absurd heq hne
      · omega
      · exact ⟨pg + 1, hmem, by omega, by omega⟩

theorem StuffedFile.copy_inside_iff (h : StuffedFile f) {j pg : Nat} {c : Copy}
    (hpg : f.inode.iPages[f.fOffset / PAGE_SIZE + j]? = some pg)
    (hc : c = ⟨buf + j * PAGE_SIZE,
      pageToAddr f.zone pg + (if j = 0 then f.fOffset % PAGE_SIZE else 0),
      min PAGE_SIZE (leftAfter (f.due len) j)⟩) :
    ((∀ x, c.Stores x → buf ≤ x ∧ x < buf + f.due len) ∧ ∀ x, c.Loads x → f.OwnByte x) ↔
      (j = 0 → buf = pageToAddr f.zone pg + f.fOffset % PAGE_SIZE ∨
        f.fOffset % PAGE_SIZE + min PAGE_SIZE (f.due len) ≤ PAGE_SIZE ∨
        pg + 1 ∈ f.inode.iPages) ∧
      (f.due len < j * PAGE_SIZE → buf + j * PAGE_SIZE = pageToAddr f.zone pg) := by
  rcases h.due_lt len with ⟨-, hword⟩
  have hmem := List.mem_of_getElem? hpg
  have hoff : f.fOffset % PAGE_SIZE < PAGE_SIZE := Nat.mod_lt _ (by decide)
  have hn : c.n ≤ PAGE_SIZE := by
    rw [hc]
    exact Nat.min_le_left _ _
  have hdst : buf ≤ c.dst := by
    rw [hc]
    exact Nat.le_add_right _ _
  rw [Copy.stores_inside_iff hdst]
  by_cases hj : j = 0
  · subst hj
    rw [Nat.zero_mul, Nat.add_zero, if_pos rfl, leftAfter_zero hword] at hc
    have hsrc : c.src = pageToAddr f.zone pg + f.fOffset % PAGE_SIZE := by rw [hc]
    rw [loads_own_iff hmem hsrc hoff hn, hc]
    dsimp only
    have hstores : buf + min PAGE_SIZE (f.due len) ≤ buf + f.due len :=
      Nat.add_le_add_left (Nat.min_le_right _ _) buf
    constructor
    · intro hboth
      exact ⟨fun _ => hboth.2, fun hlt => absurd hlt (by omega)⟩
    · intro hcond
      exact ⟨Or.inr (Or.inr hstores), hcond.1 rfl⟩
  · rw [if_neg hj] at hc
    have hsrc : c.src = pageToAddr f.zone pg + 0 := by rw [hc]
    rw [loads_own_iff hmem hsrc (by decide) hn, hc]
    dsimp only
    have hloads : 0 + min PAGE_SIZE (leftAfter (f.due len) j) ≤ PAGE_SIZE := by
      rw [Nat.zero_add]
      exact Nat.min_le_left _ _
    rw [Nat.add_zero]
    by_cases hlast : j * PAGE_SIZE ≤ f.due len
    · rw [leftAfter_of_le hword hlast] at hloads ⊢
      refine iff_of_true ⟨Or.inr (Or.inr ?_), Or.inr (Or.inl hloads)⟩
        ⟨fun hzero => absurd hzero hj, fun hlt => absurd hlt (by omega)⟩
      omega
    · have hrange : j ≤ INODE_PAGES := by
        have hlt := (List.getElem?_eq_some_iff.mp hpg).1
        have hfits := h.fits
        rw [h.pages] at hlt
        unfold INODE_PAGES PAGE_SIZE at *
        omega
      have hpage := page_le_leftAfter hrange (Nat.lt_of_not_le hlast)
      rw [Nat.min_eq_left hpage] at hloads ⊢
      have hpos : 0 < PAGE_SIZE := by decide
      constructor
      · intro hboth
        refine ⟨fun hzero => absurd hzero hj, fun _ => ?_⟩
        rcases hboth.1 with heq | hzero | hle
        · exact heq
        · omega
        · omega
      · intro hcond
        exact ⟨Or.inl (hcond.2 (Nat.lt_of_not_le hlast)), Or.inr (Or.inl hloads)⟩

theorem StuffedFile.staysInside_iff (h : StuffedFile f) (buf len : Nat) :
    f.StaysInside buf len ↔ f.InsideWhen buf len := by
  rcases h.mem_copies_iff buf len with ⟨copies, hcopies, hmem⟩
  have hread := h.genericRead_eq_copies buf len
  rw [hcopies, Option.map_some] at hread
  constructor
  · intro hstays
    rcases hstays with ⟨copies', hcopies', -, hall⟩
    obtain rfl : copies' = copies := Option.some.inj (hcopies'.symm.trans hcopies)
    constructor
    · intro pg hpg
      have hone := hall _
        ((hmem _).mpr ⟨0, pg, hpg, fun hpos => absurd hpos (Nat.lt_irrefl 0), rfl⟩)
      exact ((h.copy_inside_iff hpg rfl).mp hone).1 rfl
    · intro hlong j pg hpg
      have hone := hall _ ((hmem _).mpr ⟨j, pg, hpg, fun _ => hlong, rfl⟩)
      exact ((h.copy_inside_iff hpg rfl).mp hone).2
  · intro hcond
    refine ⟨copies, hcopies, hread, ?_⟩
    intro c hc
    rcases (hmem c).mp hc with ⟨j, pg, hpg, hpos, hcopy⟩
    refine (h.copy_inside_iff hpg hcopy).mpr ⟨?_, ?_⟩
    · rintro rfl
      exact hcond.1 pg hpg
    · intro hlt
      have hj : 0 < j := by
        by_contra hzero
        rw [Nat.le_zero.mp (Nat.le_of_not_lt hzero)] at hlt
        omega
      exact hcond.2 (hpos hj) j pg hpg hlt

end Inside

/-- `generic_read` on an inode that `fs_stuff_inode` has filled, at any offset in the file and
for any length: it stays inside exactly when the first copy ends in its page or in another page
of the file, and no page of the file starts after the last byte due. -/
theorem genericRead_staysInside_iff (z z' : Zone) (mem mem' : ByteMem) (isChr : Bool)
    (src size : Nat) (f : FileState)
    (hstuff : fsStuffInode z mem isChr src size = some (z', mem', f.inode))
    (hoff : f.fOffset ≤ f.inode.iSize) (buf len : Nat) :
    f.StaysInside buf len ↔ f.InsideWhen buf len :=
  (stuffed_of_fsStuffInode hstuff hoff).staysInside_iff buf len

/-! ## A file of three pages -/

theorem fsStuffInode_9000 : ∃ z mem inode,
      fsStuffInode (memZoneInit (rawZone 8)) (fun x => UInt8.ofNat x) false 40000 9000 =
        some (z, mem, inode) ∧
      inode.iPages = [1, 3, 2] ∧ inode.iSize = 9000 ∧ z.base = 0 := by
  have hres : (fsStuffInode (memZoneInit (rawZone 8)) (fun x => UInt8.ofNat x) false 40000
      9000).map (fun r => (r.2.2.iPages, r.2.2.iSize, r.1.base)) = some ([1, 3, 2], 9000, 0) := by
    decide +kernel
  rcases Option.map_eq_some_iff.mp hres with ⟨⟨z, mem, inode⟩, hstuff, heq⟩
  rcases Prod.mk.inj heq with ⟨hpages, heq'⟩
  rcases Prod.mk.inj heq' with ⟨hsize, hbase⟩
  exact ⟨z, mem, inode, hstuff, hpages, hsize, hbase⟩

theorem genericRead_whole_inside : ∃ z mem inode,
      fsStuffInode (memZoneInit (rawZone 8)) (fun x => UInt8.ofNat x) false 40000 9000 =
        some (z, mem, inode) ∧
      (⟨z, mem, inode, 0⟩ : FileState).StaysInside 60000 9000 := by
  rcases fsStuffInode_9000 with ⟨z, mem, inode, hstuff, hpages, hsize, -⟩
  refine ⟨z, mem, inode, hstuff, ?_⟩
  have hdue : (⟨z, mem, inode, 0⟩ : FileState).due 9000 = 9000 := by
    unfold FileState.due
    rw [hsize]
    rfl
  refine (genericRead_staysInside_iff _ z _ mem false 40000 9000 ⟨z, mem, inode, 0⟩ hstuff
    (Nat.zero_le _) 60000 9000).mpr ⟨fun pg _ => Or.inr (Or.inl ?_), ?_⟩
  · rw [hdue]
    show 0 % PAGE_SIZE + min PAGE_SIZE 9000 ≤ PAGE_SIZE
    decide
  · intro _ j pg hpg hlt
    have hj := (List.getElem?_eq_some_iff.mp hpg).1
    rw [hdue] at hlt
    rw [hpages] at hj
    unfold PAGE_SIZE at hlt
    simp only [Nat.zero_div, Nat.zero_add, List.length_cons, List.length_nil] at hj
    omega

/-- A read of the first page stores another page, 8192 bytes up from the buffer. -/
theorem genericRead_first_page_outside : ∃ z mem inode,
      fsStuffInode (memZoneInit (rawZone 8)) (fun x => UInt8.ofNat x) false 40000 9000 =
        some (z, mem, inode) ∧
      (⟨z, mem, inode, 0⟩ : FileState).due 4096 = 4096 ∧
      (∃ copies, (⟨z, mem, inode, 0⟩ : FileState).genericReadCopies 60000 4096 = some copies ∧
        ⟨68192, 8192, 4096⟩ ∈ copies) ∧
      ¬ (⟨z, mem, inode, 0⟩ : FileState).StaysInside 60000 4096 := by
  rcases fsStuffInode_9000 with ⟨z, mem, inode, hstuff, hpages, hsize, hbase⟩
  have hstuffed : StuffedFile ⟨z, mem, inode, 0⟩ := stuffed_of_fsStuffInode hstuff (Nat.zero_le _)
  have hdue : (⟨z, mem, inode, 0⟩ : FileState).due 4096 = 4096 := by
    unfold FileState.due
    rw [hsize]
    rfl
  have hpage : inode.iPages[0 / PAGE_SIZE + 2]? = some 2 := by
    rw [hpages]
    rfl
  have haddr : pageToAddr z 2 = 8192 := by
    unfold pageToAddr
    rw [hbase]
    rfl
  refine ⟨z, mem, inode, hstuff, hdue, ?_, ?_⟩
  · rcases hstuffed.mem_copies_iff 60000 4096 with ⟨copies, hcopies, hmem⟩
    refine ⟨copies, hcopies, (hmem _).mpr ⟨2, 2, hpage, fun _ => ?_, ?_⟩⟩
    · rw [hdue]
      decide
    · rw [hdue, haddr]
      rfl
  · rw [hstuffed.staysInside_iff]
    intro hcond
    have heq := hcond.2 (by rw [hdue]; decide) 2 2 hpage (by rw [hdue]; decide)
    rw [haddr] at heq
    exact absurd heq (by decide)

end Koowaldah
