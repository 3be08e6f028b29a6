import Koowaldah.Lib.Run
import Koowaldah.MemArea.Pagelist

/-!
# Reference counts of memory areas

`mem_area_clone` makes an area that shares the pages of another one, and
`mem_area_put` gives an area up.  The count of users lives in the original, and
the last put is to free its pages.

* `Cloned s a areas s'` is the tree of clones: from `s`, calls of
  `mem_area_clone` on members of the tree have led to `s'`, and `areas` are the
  original `a` and its clones.  `CloneTree` is what every such tree has.
* With a clone in the tree no order of puts returns (`memAreaPuts_never`).  A put
  on a clone walks the list of the original up to the head of the clone, which
  is not on it.  A put on the original returns its structure with `slice_free`,
  and the next put reads it.
* Without a clone there is one put, and it frees the pages when
  `free_pages` on the first page of the list, or `free_pagelist`, does.
-/

namespace Koowaldah

open Function SysLib SysLib.Dyadic SysLib.Links

/-- The piles behind a page list: a page each, or one pile of which the list has
every page, the last one first, as `alloc_pagelist_contig` links them. -/
inductive Owns : Bool → List Nat → List Block → Prop where
  | sparse (pages : List Nat) : Owns false pages (pages.map (Block.mk 0))
  | empty : Owns true [] []
  | contig (k start : Nat) :
      Owns true ((List.range (2 ^ k)).reverse.map (fun i => start + i)) [⟨k, start⟩]

namespace VmState

/-- An area that is no clone and has one user.  `own` are the piles behind its
pages, and `rest` the other ones that are handed out.  A page that opens a free
pile is on no list. -/
structure OriginalArea (s : VmState) (a : Nat) (r : MemArea) (pages : List Nat)
    (own rest : List Block) (lo hi : Nat) : Prop where
  record : s.areas a = some r
  users : r.mUsers = 1
  flags : hasFlag r.mFlags MMA_CLONE = false
  owns : Owns (hasFlag r.mFlags MMA_CONT) pages own
  ring : s.zone.areaList.IsRing (.head a) (pages.map AreaNode.page)
  buddy : BuddyInv s.zone lo hi (own ++ rest)
  unlinked : ∀ k, ∀ p ∈ s.zone.allocLevels k, klist0Empty (.page p) s.zone.areaList = true

/-- The tree of clones of `a`, newest first.  A clone comes into a slice that no
area is in. -/
inductive Cloned (s : VmState) (a : Nat) : List Nat → VmState → Prop where
  | original : Cloned s a [a] s
  | clone {areas : List Nat} {s₁ s₂ : VmState} {fuel map p c : Nat} :
      Cloned s a areas s₁ → p ∈ areas → s₁.areas c = none →
      s₁.memAreaClone fuel map p c = .ok s₂ → Cloned s a (c :: areas) s₂

/-- `mem_area_put` on one area after the other. -/
def memAreaPuts (fuel : Nat) : List Nat → VmState → Except VmFault VmState
  | [], s => .ok s
  | a :: l, s => do
    let s ← s.memAreaPut fuel a
    memAreaPuts fuel l s

/-- The puts return, the piles of `own` are handed out up to the last one, and the
last one gives them back and nothing else. -/
def RefCounted (s : VmState) (order : List Nat) (own rest : List Block) (lo hi : Nat) : Prop :=
  ∃ fuel puts last s₁ s₂, order = puts ++ [last] ∧ memAreaPuts fuel puts s = .ok s₁ ∧
    BuddyInv s₁.zone lo hi (own ++ rest) ∧ s₁.memAreaPut fuel last = .ok s₂ ∧
    BuddyInv s₂.zone lo hi rest

/-- The pages of an area without clones are freed by its put. -/
def FreesPages (cont : Bool) (F : Set Nat) (pages : List Nat) : Prop :=
  if cont then pages.length ≤ 1 else JoinsLeftInTurn F pages

/-! ## What the functions do -/

section Steps

variable {s s' : VmState} {fuel a : Nat}

variable {node : AreaNode} {c : Nat}

theorem walk_invariant {stop : AreaNode} {body : AreaNode → VmState → Except VmFault VmState}
    (P : VmState → Prop) (hbody : ∀ node t t', P t → body node t = .ok t' → P t') (hs : P s)
    (hwalk : walk stop body fuel node s = .ok s') : P s' := by
  induction fuel generalizing node s with
  | zero => exact nomatch hwalk
  | succ fuel ih =>
    rw [walk] at hwalk
    split at hwalk
    · cases hwalk
      exact hs
    · cases hb : body node s with
      | error e =>
        rw [hb] at hwalk
        cases hwalk
      | ok t =>
        rw [hb] at hwalk
        exact ih (hbody node s t hs hb) hwalk

theorem memAreaPut_eq_ok (hop : s.memAreaPut fuel a = .ok s') :
    ∃ org r, s.mmaOriginal fuel a = .ok org ∧ s.areas org = some r ∧
      let t := s.setArea org { r with mUsers := subWord r.mUsers 1 }
      (subWord r.mUsers 1 = 0 ∧ t.memAreaKill fuel a = .ok s') ∨
        (subWord r.mUsers 1 ≠ 0 ∧ t.memAreaUnmap fuel a = .ok s') := by
  rcases bind_eq_ok.mp hop with ⟨org, horg, hop₁⟩
  rcases bind_eq_ok.mp hop₁ with ⟨r, hr, hop₂⟩
  refine ⟨org, r, horg, area_eq_ok.mp hr, ?_⟩
  dsimp only at hop₂ ⊢
  split at hop₂
  · rename_i hzero
    exact Or.inl ⟨hzero, hop₂⟩
  · rename_i hzero
    exact Or.inr ⟨hzero, hop₂⟩

theorem unmapPageOf_eq_ok {map : Nat} (hop : unmapPageOf map node s = .ok s') :
    s'.zone = s.zone ∧ s'.areas = s.areas := by
  rcases bind_eq_ok.mp hop with ⟨virt, -, hop₁⟩
  cases hop₁
  exact ⟨rfl, rfl⟩

/-- A walk along the list of one area does not meet the head of another one. -/
theorem unmapWalk_never {org : Nat} {pages : List Nat}
    (hring : s.zone.areaList.IsRing (.head org) (pages.map AreaNode.page))
    (hne : a ≠ org) (map fuel : Nat) (s' : VmState) :
    walk (.head a) (unmapPageOf map) fuel (s.zone.areaList.next (.head org)) s ≠ .ok s' := by
  refine walk_never (unmapPageOf map) (fun node t =>
    node ∈ AreaNode.head org :: pages.map AreaNode.page ∧
      t.zone.areaList = s.zone.areaList) ?_ ⟨hring.next_mem List.mem_cons_self, rfl⟩
  intro node t hbad
  refine ⟨?_, ?_⟩
  · intro heq
    rw [heq] at hbad
    rcases List.mem_cons.mp hbad.1 with hhead | hpage
    · exact hne (AreaNode.head.inj hhead)
    · rcases List.mem_map.mp hpage with ⟨pg, -, hpg⟩
      cases hpg
  · intro t' ht'
    rw [(unmapPageOf_eq_ok ht').1, hbad.2]
    exact ⟨hring.next_mem hbad.1, rfl⟩

theorem memAreaUnmap_eq_ok (hop : s.memAreaUnmap fuel a = .ok s') :
    ∃ org r t, s.mmaOriginal fuel a = .ok org ∧ s.areas a = some r ∧
      walk (.head a) (unmapPageOf r.mMap) fuel (s.zone.areaList.next (.head org)) s = .ok t ∧
      s' = t.sliceFree a := by
  rcases bind_eq_ok.mp hop with ⟨org, horg, hop₁⟩
  rcases bind_eq_ok.mp hop₁ with ⟨r, hr, hop₂⟩
  rcases bind_eq_ok.mp hop₂ with ⟨t, ht, hop₃⟩
  exact ⟨org, r, t, horg, area_eq_ok.mp hr, ht, (Except.ok.inj hop₃).symm⟩

/-- What `mma_map_pages` leaves alone when it maps the pages of a clone. -/
structure MapsInto (c : Nat) (s s' : VmState) : Prop where
  zone : s.zone.SameLevels s'.zone
  links : s'.zone.areaList = s.zone.areaList
  other : ∀ b, b ≠ c → s'.areas b = s.areas b
  record : ∀ r, s.areas c = some r →
    ∃ r', s'.areas c = some r' ∧ r'.mFlags = r.mFlags ∧ r'.mOriginal = r.mOriginal

theorem MapsInto.refl (c : Nat) (s : VmState) : MapsInto c s s where
  zone := ⟨rfl, rfl, rfl, rfl⟩
  links := rfl
  other _ _ := rfl
  record r hr := ⟨r, hr, rfl, rfl⟩

theorem MapsInto.trans {s₁ : VmState} (h : MapsInto c s s₁) (h' : MapsInto c s₁ s') :
    MapsInto c s s' where
  zone := ⟨h'.zone.base.trans h.zone.base, h'.zone.totalPages.trans h.zone.totalPages,
    h'.zone.allocLevels.trans h.zone.allocLevels, h'.zone.order.trans h.zone.order⟩
  links := h'.links.trans h.links
  other b hb := (h'.other b hb).trans (h.other b hb)
  record r hr := by
    rcases h.record r hr with ⟨r₁, hr₁, hflags, horg⟩
    rcases h'.record r₁ hr₁ with ⟨r', hr', hflags', horg'⟩
    exact ⟨r', hr', hflags'.trans hflags, horg'.trans horg⟩

theorem mapPageOf_eq_ok (hop : mapPageOf c node s = .ok s') : MapsInto c s s' := by
  rcases bind_eq_ok.mp hop with ⟨pg, -, hop₁⟩
  rcases bind_eq_ok.mp hop₁ with ⟨r, hr, hop₂⟩
  have hrecord := area_eq_ok.mp hr
  cases hop₂
  unfold rawMemAreaAddPage
  split
  · refine ⟨⟨rfl, rfl, rfl, rfl⟩, rfl, fun b hb => update_of_ne hb _ _, ?_⟩
    intro r' hr'
    cases hrecord.symm.trans hr'
    exact ⟨_, update_self .., rfl, rfl⟩
  · refine ⟨⟨rfl, rfl, rfl, rfl⟩, rfl, fun b hb => update_of_ne hb _ _, ?_⟩
    intro r' hr'
    cases hrecord.symm.trans hr'
    exact ⟨_, update_self .., rfl, rfl⟩

/-- `mem_area_clone`: the area that is cloned gets a user more, and the clone
points at it. -/
theorem memAreaClone_eq_ok {map p : Nat} (hfresh : s.areas c = none)
    (hop : s.memAreaClone fuel map p c = .ok s') :
    ∃ r rc, s.areas p = some r ∧ p ≠ c ∧ s.zone.SameLevels s'.zone ∧
      s'.zone.areaList = s.zone.areaList ∧
      s'.areas p = some { r with mUsers := addWord r.mUsers 1 } ∧
      s'.areas c = some rc ∧ hasFlag rc.mFlags MMA_CLONE = true ∧ rc.mOriginal = p ∧
      ∀ b, b ≠ p → b ≠ c → s'.areas b = s.areas b := by
  rcases bind_eq_ok.mp hop with ⟨r, hr, hop₁⟩
  have hrecord := area_eq_ok.mp hr
  have hne : p ≠ c := by
    intro heq
    rw [heq, hfresh] at hrecord
    cases hrecord
  split at hop₁
  · cases hop₁
  · rcases bind_eq_ok.mp hop₁ with ⟨org, -, hwalk⟩
    have hmaps := walk_invariant (MapsInto c _)
      (fun node t t' ht hop => ht.trans (mapPageOf_eq_ok hop)) (MapsInto.refl c _) hwalk
    rcases hmaps.record _ (update_self ..) with ⟨rc, hrc, hflags, horg⟩
    refine ⟨r, rc, hrecord, hne, hmaps.zone, hmaps.links, ?_, hrc, ?_, horg, ?_⟩
    · rw [hmaps.other p hne]
      show Function.update _ c _ p = _
      rw [update_of_ne hne]
      exact update_self ..
    · rw [hflags]
      unfold hasFlag
      rw [decide_eq_true_eq]
      rw [Nat.and_or_distrib_right]
      intro hzero
      exact absurd (Nat.or_eq_zero_iff.mp hzero).2 (by decide)
    · intro b hbp hbc
      rw [hmaps.other b hbc]
      show Function.update (Function.update (Function.update s.areas c _) p _) c _ b = _
      rw [update_of_ne hbc, update_of_ne hbp, update_of_ne hbc]

end Steps

/-! ## The tree of clones -/

/-- What every tree of clones has: the original counts a user more for each area
cloned from it, and every other area is a clone of one in the tree. -/
structure CloneTree (s : VmState) (a : Nat) (r : MemArea) (areas : List Nat) (s' : VmState) :
    Prop where
  zone : s.zone.SameLevels s'.zone
  links : s'.zone.areaList = s.zone.areaList
  mem : a ∈ areas
  nodup : areas.Nodup
  root : ∃ n, s'.areas a = some { r with mUsers := n } ∧ n ≤ areas.length ∧
    (areas = [a] → s' = s) ∧ (areas ≠ [a] → 2 ≤ n) ∧ 1 ≤ n
  clones : ∀ c ∈ areas, c ≠ a → ∃ rc, s'.areas c = some rc ∧
    hasFlag rc.mFlags MMA_CLONE = true ∧ rc.mOriginal ∈ areas

section Tree

variable {s s' : VmState} {a : Nat} {r : MemArea} {areas : List Nat}

variable {b fuel : Nat} {t : VmState}

theorem CloneTree.present (h : CloneTree s a r areas s') (hb : b ∈ areas) : s'.areas b ≠ none := by
  by_cases hba : b = a
  · rcases h.root with ⟨n, hn, -⟩
    rw [hba, hn]
    exact nofun
  · rcases h.clones b hb hba with ⟨rc, hrc, -⟩
    rw [hrc]
    exact nofun

theorem CloneTree.clone (h : CloneTree s a r areas s') {s₂ : VmState} {map p c : Nat}
    (hlen : areas.length + 1 < WORD_RANGE) (hp : p ∈ areas) (hfresh : s'.areas c = none)
    (hop : s'.memAreaClone fuel map p c = .ok s₂) : CloneTree s a r (c :: areas) s₂ := by
  rcases memAreaClone_eq_ok hfresh hop with
    ⟨rp, rc, hrp, hpc, hzone, hlinks, hp₂, hc₂, hflag, horg, hother⟩
  have hcmem : c ∉ areas := fun hc => h.present hc hfresh
  have hca : c ≠ a := fun heq => hcmem (heq ▸ h.mem)
  refine ⟨?_, hlinks.trans h.links, List.mem_cons_of_mem c h.mem, h.nodup.cons hcmem, ?_, ?_⟩
  · exact ⟨hzone.base.trans h.zone.base, hzone.totalPages.trans h.zone.totalPages,
      hzone.allocLevels.trans h.zone.allocLevels, hzone.order.trans h.zone.order⟩
  · rcases h.root with ⟨n, hn, hle, hone, htwo, hpos⟩
    have hnot : c :: areas ≠ [a] := fun heq => hca (List.cons.inj heq).1
    by_cases hpa : p = a
    · rw [hpa, hn] at hrp
      have hadd : addWord n 1 = n + 1 := Nat.mod_eq_of_lt (by omega)
      refine ⟨n + 1, ?_, ?_, fun heq => absurd heq hnot, fun _ => by omega, by omega⟩
      · rw [← hpa, hp₂, ← Option.some.inj hrp, hadd]
      · rw [List.length_cons]
        omega
    · -- a clone of a clone leaves the original as it was, which has one already
      have hareas : areas ≠ [a] := by
        intro heq
        rw [heq, List.mem_singleton] at hp
        exact hpa hp
      refine ⟨n, ?_, ?_, fun heq => absurd heq hnot, fun _ => htwo hareas, hpos⟩
      · rw [hother a (Ne.symm hpa) hca.symm]
        exact hn
      · rw [List.length_cons]
        omega
  · intro b hb hba
    rcases List.mem_cons.mp hb with rfl | hold
    · exact ⟨rc, hc₂, hflag, horg ▸ List.mem_cons_of_mem _ hp⟩
    · rcases h.clones b hold hba with ⟨rb, hrb, hflagb, horgb⟩
      have hbc : b ≠ c := fun heq => hcmem (heq ▸ hold)
      by_cases hbp : b = p
      · rw [hbp] at hrb
        cases hrp.symm.trans hrb
        exact ⟨{ rp with mUsers := addWord rp.mUsers 1 }, hbp ▸ hp₂, hflagb,
          List.mem_cons_of_mem _ horgb⟩
      · refine ⟨rb, ?_, hflagb, List.mem_cons_of_mem _ horgb⟩
        rw [hother b hbp hbc]
        exact hrb

theorem Cloned.tree (hrecord : s.areas a = some r) (husers : r.mUsers = 1) (h : Cloned s a areas s')
    (hlen : areas.length < WORD_RANGE) : CloneTree s a r areas s' := by
  induction h with
  | original =>
    refine ⟨⟨rfl, rfl, rfl, rfl⟩, rfl, List.mem_cons_self, List.nodup_singleton a, ?_, ?_⟩
    · refine ⟨1, ?_, Nat.le_refl 1, fun _ => rfl, fun hne => absurd rfl hne, Nat.le_refl 1⟩
      rw [hrecord, ← husers]
    · intro c hc hca
      exact absurd (List.mem_singleton.mp hc) hca
  | clone hprev hp hfresh hop ih =>
    rw [List.length_cons] at hlen
    exact (ih (by omega)).clone hlen hp hfresh hop

/-! ## Puts in a tree with a clone -/

/-- In a tree where every area but `a` is a clone, `mma_original` leads to `a`. -/
theorem mmaOriginal_root (hclones : ∀ c ∈ areas, c ≠ a → ∃ rc, t.areas c = some rc ∧
      hasFlag rc.mFlags MMA_CLONE = true ∧ rc.mOriginal ∈ areas)
    (hroot : ∀ ra, t.areas a = some ra → hasFlag ra.mFlags MMA_CLONE = false) {org : Nat}
    (hb : b ∈ areas) (hop : t.mmaOriginal fuel b = .ok org) : org = a ∧ t.areas a ≠ none := by
  induction fuel generalizing b with
  | zero => exact nomatch hop
  | succ fuel ih =>
    unfold mmaOriginal at hop
    cases hrec : t.areas b with
    | none =>
      rw [hrec] at hop
      cases hop
    | some rb =>
      rw [hrec] at hop
      dsimp only at hop
      by_cases hba : b = a
      · rw [hba] at hrec hop
        rw [hroot rb hrec] at hop
        rw [← Except.ok.inj hop, hrec]
        exact ⟨rfl, nofun⟩
      · rcases hclones b hb hba with ⟨rc, hrc, hflag, horg⟩
        cases hrec.symm.trans hrc
        rw [if_pos hflag] at hop
        exact ih horg hop

/-- While there are clones, the count of the original does not come to zero and a
put unmaps the area. -/
theorem CloneTree.put_unmaps (h : CloneTree s a r areas s') (hareas : areas ≠ [a])
    (hflags : hasFlag r.mFlags MMA_CLONE = false) (hlen : areas.length < WORD_RANGE)
    (hb : b ∈ areas) (hop : s'.memAreaPut fuel b = .ok t) :
    ∃ n, (s'.setArea a { r with mUsers := n }).memAreaUnmap fuel b = .ok t := by
  rcases h.root with ⟨n, hn, hle, -, htwo, -⟩
  have hn₂ := htwo hareas
  have hroot : ∀ ra, s'.areas a = some ra → hasFlag ra.mFlags MMA_CLONE = false := by
    intro ra hra
    cases hn.symm.trans hra
    exact hflags
  rcases memAreaPut_eq_ok hop with ⟨org, rorg, horg, hrorg, hcase⟩
  obtain rfl := (mmaOriginal_root h.clones hroot hb horg).1
  cases hn.symm.trans hrorg
  have husers : subWord n 1 ≠ 0 := by
    unfold subWord
    unfold WORD_RANGE at *
    omega
  rcases hcase with ⟨hzero, -⟩ | ⟨-, hunmap⟩
  · exact absurd hzero husers
  · exact ⟨_, hunmap⟩

/-- A put on a clone does not return: the walk along the list of the original is
to end at the list head of the clone. -/
theorem CloneTree.put_clone_never (h : CloneTree s a r areas s') {pages : List Nat}
    (hareas : areas ≠ [a]) (hflags : hasFlag r.mFlags MMA_CLONE = false)
    (hring : s.zone.areaList.IsRing (.head a) (pages.map AreaNode.page))
    (hlen : areas.length < WORD_RANGE) (hb : b ∈ areas) (hba : b ≠ a) (fuel : Nat) (t : VmState) :
    s'.memAreaPut fuel b ≠ .ok t := by
  intro hop
  rcases h.put_unmaps hareas hflags hlen hb hop with ⟨n, hunmap⟩
  rcases memAreaUnmap_eq_ok hunmap with ⟨org, rb, t₁, horg, -, hwalk, -⟩
  obtain rfl : org = a := by
    refine (mmaOriginal_root ?_ ?_ hb horg).1
    · intro c hc hca
      rcases h.clones c hc hca with ⟨rc, hrc, hflag⟩
      refine ⟨rc, ?_, hflag⟩
      rw [← hrc]
      exact update_of_ne hca _ _
    · intro ra hra
      have hra' := (update_self _ _ _).symm.trans hra
      cases hra'
      exact hflags
  -- the walk goes round the ring of the original for ever
  have hring' : s'.zone.areaList.IsRing (.head org) (pages.map AreaNode.page) := by
    rw [h.links]
    exact hring
  exact unmapWalk_never (s := s'.setArea org { r with mUsers := n }) hring' hba rb.mMap fuel t₁
    hwalk

theorem CloneTree.put_root (h : CloneTree s a r areas s') (hareas : areas ≠ [a])
    (hflags : hasFlag r.mFlags MMA_CLONE = false) (hlen : areas.length < WORD_RANGE)
    (hop : s'.memAreaPut fuel a = .ok t) : t.areas = Function.update s'.areas a none := by
  rcases h.put_unmaps hareas hflags hlen h.mem hop with ⟨n, hunmap⟩
  rcases memAreaUnmap_eq_ok hunmap with ⟨_, ra, t₁, _, _, hwalk, rfl⟩
  have hsame := walk_invariant (fun t => t.areas = _)
    (fun node t t' ht hbody => (unmapPageOf_eq_ok hbody).2.trans ht) rfl hwalk
  show Function.update t₁.areas a none = _
  rw [hsame]
  exact update_idem ..

theorem CloneTree.puts_never (h : CloneTree s a r areas s') {pages : List Nat}
    (hareas : areas ≠ [a]) (hflags : hasFlag r.mFlags MMA_CLONE = false)
    (hring : s.zone.areaList.IsRing (.head a) (pages.map AreaNode.page))
    (hlen : areas.length < WORD_RANGE) {order : List Nat} (horder : order.Perm areas)
    (fuel : Nat) (t : VmState) : memAreaPuts fuel order s' ≠ .ok t := by
  intro hop
  match order, horder, hop with
  | [], horder, _ => exact absurd (horder.mem_iff.mpr h.mem) List.not_mem_nil
  | [b], horder, _ =>
    obtain rfl := List.mem_singleton.mp (horder.mem_iff.mpr h.mem)
    exact hareas (List.perm_singleton.mp horder.symm)
  | b :: c :: l, horder, hop =>
    rcases bind_eq_ok.mp hop with ⟨s₁, hb, hop₁⟩
    rcases bind_eq_ok.mp hop₁ with ⟨s₂, hc, -⟩
    have hnodup := horder.nodup_iff.mpr h.nodup
    have hbmem := horder.mem_iff.mp List.mem_cons_self
    by_cases hba : b = a
    · rw [hba] at hb hnodup
      have hcmem := horder.mem_iff.mp (List.mem_cons_of_mem b List.mem_cons_self)
      have hfreed := h.put_root hareas hflags hlen hb
      rcases memAreaPut_eq_ok hc with ⟨org, -, horg, -⟩
      have hnone : s₁.areas a = none := by
        rw [hfreed]
        exact update_self ..
      refine (mmaOriginal_root ?_ ?_ hcmem horg).2 hnone
      · intro d hd hda
        rw [hfreed, update_of_ne hda]
        exact h.clones d hd hda
      · intro ra hra
        rw [hnone] at hra
        cases hra
    · exact h.put_clone_never hareas hflags hring hlen hbmem hba fuel s₁ hb

end Tree

/-! ## The put of an area without clones -/

section Alone

variable {s s' : VmState} {fuel a lo hi : Nat} {r : MemArea} {pages : List Nat}
  {own rest : List Block}

/-- The loop of `mem_area_kill` leaves the levels and the lists alone. -/
def KeepsLists (s s' : VmState) : Prop :=
  s.zone.SameLevels s'.zone ∧ s'.zone.areaList = s.zone.areaList

theorem killPageOf_page (map pg : Nat) (s : VmState) :
    ∃ s', killPageOf map (.page pg) s = .ok s' ∧ KeepsLists s s' :=
  ⟨_, rfl, ⟨rfl, rfl, rfl, rfl⟩, rfl⟩

theorem KeepsLists.trans {t : VmState} (h : KeepsLists s t) (h' : KeepsLists t s') :
    KeepsLists s s' :=
  ⟨⟨h'.1.base.trans h.1.base, h'.1.totalPages.trans h.1.totalPages,
    h'.1.allocLevels.trans h.1.allocLevels, h'.1.order.trans h.1.order⟩, h'.2.trans h.2⟩

theorem killLoop_ok (map : Nat) (hring : s.zone.areaList.IsRing (.head a) (pages.map AreaNode.page))
    (hfuel : pages.length < fuel) : ∃ s', s.killLoop fuel a map = .ok s' ∧ KeepsLists s s' := by
  unfold killLoop
  rw [hring.next_head]
  refine walk_ring (killPageOf map) hring (fun _ t => KeepsLists s t) (fun _ _ ht => ht.2) ?_
    (List.nil_append pages).symm ⟨⟨rfl, rfl, rfl, rfl⟩, rfl⟩ hfuel
  intro pg l t ht
  rcases killPageOf_page map pg t with ⟨t', ht', hkeeps⟩
  exact ⟨t', ht', ht.trans hkeeps⟩

theorem killLoop_eq_ok {map : Nat} (hop : s.killLoop fuel a map = .ok s') : KeepsLists s s' := by
  refine walk_invariant (KeepsLists s) ?_ ⟨⟨rfl, rfl, rfl, rfl⟩, rfl⟩ hop
  intro node t t' ht hbody
  cases node with
  | head b => exact nomatch hbody
  | page pg =>
    rcases killPageOf_page map pg t with ⟨t₁, ht₁, hkeeps⟩
    cases ht₁.symm.trans hbody
    exact ht.trans hkeeps

theorem memAreaKill_eq_ok (hrecord : s.areas a = some r)
    (hflags : hasFlag r.mFlags MMA_CLONE = false)
    (hempty : klist0Empty (.head a) s.zone.areaList = false) :
    s.memAreaKill fuel a = .ok s' ↔
      ∃ t, s.killLoop fuel a r.mMap = .ok t ∧
        if hasFlag r.mFlags MMA_CONT then
          ∃ pg, pageOf (t.zone.areaList.next (.head a)) = .ok pg ∧
            s' = ({ t with zone := freePages t.zone pg } : VmState).sliceFree a
        else ∃ t', t.freePagelist fuel (.head a) = .ok t' ∧ s' = t'.sliceFree a := by
  have hkill : s.memAreaKill fuel a = s.killLoop fuel a r.mMap >>= fun t =>
      if hasFlag r.mFlags MMA_CONT then
        pageOf (t.zone.areaList.next (.head a)) >>= fun pg =>
          .ok (({ t with zone := freePages t.zone pg } : VmState).sliceFree a)
      else t.freePagelist fuel (.head a) >>= fun t' => .ok (t'.sliceFree a) := by
    unfold memAreaKill
    rw [area_eq_ok.mpr hrecord]
    show (if hasFlag r.mFlags MMA_CLONE = true then _ else _) = _
    rw [hflags, hempty]
    rfl
  rw [hkill, bind_eq_ok]
  apply exists_congr
  intro t
  apply and_congr_right
  intro _
  split
  · rw [bind_eq_ok]
    exact exists_congr fun pg => and_congr_right fun _ => ⟨fun h => (Except.ok.inj h).symm,
      fun h => by rw [h]⟩
  · rw [bind_eq_ok]
    exact exists_congr fun t' => and_congr_right fun _ => ⟨fun h => (Except.ok.inj h).symm,
      fun h => by rw [h]⟩

theorem memAreaKill_empty (hrecord : s.areas a = some r)
    (hflags : hasFlag r.mFlags MMA_CLONE = false)
    (hempty : klist0Empty (.head a) s.zone.areaList = true) :
    s.memAreaKill fuel a = .ok (s.sliceFree a) := by
  unfold memAreaKill
  rw [area_eq_ok.mpr hrecord]
  show (if hasFlag r.mFlags MMA_CLONE = true then _ else _) = _
  rw [hflags, hempty]
  rfl

theorem owns_nil {cont : Bool} (h : Owns cont [] own) : own = [] := by
  generalize hpages : ([] : List Nat) = pages at h
  cases h with
  | sparse pages => rw [← hpages]; rfl
  | empty => rfl
  | contig k start =>
    have hlen := congrArg List.length hpages
    rw [List.length_map, List.length_reverse, List.length_range] at hlen
    exact absurd hlen (Nat.ne_of_lt (Nat.two_pow_pos k))

theorem KeepsLists.freeing (hkeeps : KeepsLists s s')
    (hring : s.zone.areaList.IsRing (.head a) (pages.map AreaNode.page))
    (hbuddy : BuddyInv s.zone lo hi (pages.map (Block.mk 0) ++ rest))
    (hunlinked : ∀ k, ∀ p ∈ s.zone.allocLevels k, klist0Empty (.page p) s.zone.areaList = true) :
    s'.zone.areaList.IsRing (.head a) (pages.map AreaNode.page) ∧
      FreeingInv s'.zone.areaList lo hi rest pages s'.zone := by
  refine ⟨hkeeps.2 ▸ hring, rfl, hbuddy.congr hkeeps.1, ?_⟩
  rw [hkeeps.1.allocLevels, hkeeps.2]
  exact hunlinked

/-- The put of an area without clones frees its pages exactly when the pages can
be freed the way `mem_area_kill` does it. -/
theorem OriginalArea.kill_iff (h : OriginalArea s a r pages own rest lo hi)
    (hrecord : s'.areas a = some { r with mUsers := 0 }) (hzone : s'.zone = s.zone) :
    (∃ fuel t, s'.memAreaKill (fuel + 1) a = .ok t ∧ BuddyInv t.zone lo hi rest) ↔
      FreesPages (hasFlag r.mFlags MMA_CONT) (freePageSet s.zone) pages := by
  have hring := h.ring
  have hbuddy := h.buddy
  have hunlinked := h.unlinked
  have howns := h.owns
  rw [← hzone] at hring hbuddy hunlinked ⊢
  by_cases hpages : pages = []
  · rw [hpages] at howns ⊢
    have hempty := (klist0Empty_iff hring).mpr (by rw [hpages]; rfl)
    rw [owns_nil howns] at hbuddy
    refine iff_of_true ⟨0, _, memAreaKill_empty hrecord h.flags hempty, hbuddy⟩ ?_
    unfold FreesPages
    split
    · exact Nat.zero_le 1
    · trivial
  · have hempty : klist0Empty (.head a) s'.zone.areaList = false := by
      rw [Bool.eq_false_iff]
      exact fun ht => hpages (List.map_eq_nil_iff.mp ((klist0Empty_iff hring).mp ht))
    have hkill : ∀ fuel t, s'.memAreaKill fuel a = .ok t ↔ _ :=
      fun fuel t => memAreaKill_eq_ok hrecord h.flags hempty
    cases hcont : hasFlag r.mFlags MMA_CONT with
    | false =>
      rw [hcont] at howns hkill
      cases howns with
      | sparse =>
        constructor
        · intro hex
          rcases hex with ⟨fuel, t, hop, -⟩
          rcases (hkill (fuel + 1) t).mp hop with ⟨t₁, hloop, t₂, hfree, -⟩
          have hkeeps := killLoop_eq_ok hloop
          rcases hkeeps.freeing hring hbuddy hunlinked with ⟨hring₁, hinv₁⟩
          by_contra hno
          refine freePagelist_never hring₁ hinv₁ ?_ (fuel + 1) t₂ hfree
          rw [hkeeps.1.freePageSet_eq]
          exact hno
        · intro hjoin
          rcases killLoop_ok r.mMap hring (Nat.lt_succ_self pages.length) with
            ⟨t₁, hloop, hkeeps⟩
          rcases hkeeps.freeing hring hbuddy hunlinked with ⟨hring₁, hinv₁⟩
          have hjoin₁ : JoinsLeftInTurn (freePageSet t₁.zone) pages := by
            rw [hkeeps.1.freePageSet_eq]
            exact hjoin
          rcases freePagelist_ok hring₁ hinv₁ hjoin₁ (Nat.lt_succ_self _) with
            ⟨t₂, hfree, hbuddy₂⟩
          exact ⟨_, _, (hkill _ _).mpr ⟨t₁, hloop, t₂, hfree, rfl⟩, hbuddy₂⟩
    | true =>
      rw [hcont] at howns hkill
      cases howns with
      | empty => exact absurd rfl hpages
      | contig k start =>
        cases k with
        | zero =>
          refine iff_of_true ?_ (Nat.le_refl 1)
          rcases killLoop_ok r.mMap hring (Nat.lt_succ_self _) with ⟨t₁, hloop, hkeeps⟩
          have hfirst : pageOf (t₁.zone.areaList.next (.head a)) = .ok (start + 0) := by
            rw [hkeeps.2, hring.next_head]
            rfl
          exact ⟨_, _, (hkill _ _).mpr ⟨t₁, hloop, _, hfirst, rfl⟩,
            freePages_buddy (hbuddy.congr hkeeps.1)⟩
        | succ k =>
          have hpow : 2 ^ (k + 1) = (2 ^ (k + 1) - 1) + 1 :=
            (Nat.sub_add_cancel (Nat.two_pow_pos (k + 1))).symm
          refine iff_of_false ?_ ?_
          · intro hex
            rcases hex with ⟨fuel, t, hop, ht⟩
            rcases (hkill (fuel + 1) t).mp hop with ⟨t₁, hloop, pg, hpg, rfl⟩
            have hkeeps := killLoop_eq_ok hloop
            rw [hkeeps.2, hring.next_head, hpow, List.range_succ, List.reverse_append] at hpg
            cases hpg
            exact (hbuddy.congr hkeeps.1).not_freed_by_last ht
          · show ¬ List.length _ ≤ 1
            rw [List.length_map, List.length_reverse, List.length_range]
            omega

end Alone

/-! ## Every tree and every order -/

section Puts

variable {s s' : VmState} {a lo hi : Nat} {r : MemArea} {pages areas order : List Nat}
  {own rest : List Block}

theorem memAreaPuts_append {fuel : Nat} {l : List Nat} {last : Nat} {s₁ s₂ : VmState}
    (hl : memAreaPuts fuel l s = .ok s₁) (hlast : s₁.memAreaPut fuel last = .ok s₂) :
    memAreaPuts fuel (l ++ [last]) s = .ok s₂ := by
  induction l generalizing s with
  | nil =>
    rw [← Except.ok.inj hl] at hlast
    exact bind_eq_ok.mpr ⟨s₂, hlast, rfl⟩
  | cons b l ih =>
    rcases bind_eq_ok.mp hl with ⟨t, hb, hrest⟩
    exact bind_eq_ok.mpr ⟨t, hb, ih hrest⟩

theorem OriginalArea.not_refCounted (h : OriginalArea s a r pages own rest lo hi)
    (htree : Cloned s a areas s') (hlen : areas.length < WORD_RANGE) (hareas : areas ≠ [a])
    (horder : order.Perm areas) : ¬ RefCounted s' order own rest lo hi := by
  intro hcount
  rcases hcount with ⟨fuel, puts, last, s₁, s₂, rfl, hputs, -, hlast, -⟩
  exact (htree.tree h.record h.users hlen).puts_never hareas h.flags h.ring hlen horder fuel s₂
    (memAreaPuts_append hputs hlast)

theorem memAreaPut_last (hrecord : s.areas a = some r) (husers : r.mUsers = 1)
    (hflags : hasFlag r.mFlags MMA_CLONE = false) (fuel : Nat) : s.memAreaPut (fuel + 1) a =
      (s.setArea a { r with mUsers := 0 }).memAreaKill (fuel + 1) a := by
  have horg : s.mmaOriginal (fuel + 1) a = .ok a := by
    unfold mmaOriginal
    rw [hrecord]
    dsimp only
    rw [hflags, if_neg Bool.false_ne_true]
  have hzero : subWord r.mUsers 1 = 0 := by
    rw [husers]
    decide
  unfold memAreaPut
  rw [horg]
  dsimp only [bind, Except.bind]
  rw [area_eq_ok.mpr hrecord]
  dsimp only
  rw [hzero, if_pos rfl]

theorem OriginalArea.put_eq (h : OriginalArea s a r pages own rest lo hi) (fuel : Nat) :
    s.memAreaPut (fuel + 1) a =
      (s.setArea a { r with mUsers := 0 }).memAreaKill (fuel + 1) a :=
  memAreaPut_last h.record h.users h.flags fuel

/-- Which areas are counted right.  For an area with one user, every tree of
`mem_area_clone` calls from it and every order of one `mem_area_put` on each area
of the tree: the puts return and only the last one frees the pages, exactly when
there is no clone and `mem_area_kill` frees the pages of the list. -/
theorem memAreaPuts_refCounted_iff (h : OriginalArea s a r pages own rest lo hi)
    (htree : Cloned s a areas s') (hlen : areas.length < WORD_RANGE) (horder : order.Perm areas) :
    RefCounted s' order own rest lo hi ↔
      areas = [a] ∧ FreesPages (hasFlag r.mFlags MMA_CONT) (freePageSet s.zone) pages := by
  by_cases hareas : areas = [a]
  · have heq : s' = s := by
      rcases (htree.tree h.record h.users hlen).root with ⟨-, -, -, hone, -⟩
      exact hone hareas
    rw [hareas] at horder
    rw [heq, List.perm_singleton.mp horder, and_iff_right hareas]
    have hzone : (s.setArea a { r with mUsers := 0 }).zone = s.zone := rfl
    rw [← h.kill_iff (update_self ..) hzone]
    constructor
    · intro hcount
      rcases hcount with ⟨fuel, puts, last, s₁, s₂, hsplit, hputs, -, hlast, hbuddy⟩
      obtain ⟨rfl, rfl⟩ : puts = [] ∧ last = a := by
        have hlen' := congrArg List.length hsplit
        rw [List.length_append, List.length_singleton, List.length_singleton] at hlen'
        have hnil : puts = [] := List.length_eq_zero_iff.mp (by omega)
        rw [hnil] at hsplit
        exact ⟨hnil, (List.cons.inj hsplit).1.symm⟩
      cases hputs
      cases fuel with
      | zero => exact nomatch hlast
      | succ fuel => exact ⟨fuel, s₂, h.put_eq fuel ▸ hlast, hbuddy⟩
    · intro hkill
      rcases hkill with ⟨fuel, t, hop, hbuddy⟩
      exact ⟨fuel + 1, [], a, s, t, rfl, rfl, h.buddy, (h.put_eq fuel).trans hop, hbuddy⟩
  · refine iff_of_false (h.not_refCounted htree hlen hareas horder) ?_
    exact fun hcond => hareas hcond.1

/-- The zone of `sampleVm`, before the list of its area is made: pages 1 and 3 are
handed out, and page 2 is free. -/
def sampleZone : Zone :=
  (rawAllocPages (rawAllocPages (memZoneInit (rawZone 12)) 0).1 0).1

def sampleVm : VmState where
  zone := { sampleZone with
    areaList := klist0Append (.page 3) (.head 0) (klist0Init (.head 0) sampleZone.areaList) }
  areas := Function.update (fun _ => none) 0
    (some ⟨0x8000000, 0x8001000, 1, 1, 0, MMA_EXEC, 0, 7⟩)
  pgtable := fun _ _ => none

theorem sampleVm_buddy : BuddyInv sampleVm.zone 1 12 [⟨0, 3⟩, ⟨0, 1⟩] := by
  have hz : consumedPages (rawZone 12).totalPages < (rawZone 12).totalPages := by decide
  have hfirst : (rawAllocPages (memZoneInit (rawZone 12)) 0).2 = some 1 := by decide
  have hsecond : (rawAllocPages (rawAllocPages (memZoneInit (rawZone 12)) 0).1 0).2 = some 3 := by
    decide
  have hbuddy := rawAllocPages_buddy (rawAllocPages_buddy (memZoneInit_buddy _ hz) hfirst) hsecond
  exact hbuddy.congr ⟨rfl, rfl, rfl, rfl⟩

theorem sampleVm_original :
    OriginalArea sampleVm 0 ⟨0x8000000, 0x8001000, 1, 1, 0, MMA_EXEC, 0, 7⟩ [3] [⟨0, 3⟩]
      [⟨0, 1⟩] 1 12 where
  record := rfl
  users := rfl
  flags := by decide
  owns := Owns.sparse [3]
  ring := klist0Append_isRing (klist0Init_isRing _ _) (by decide)
  buddy := sampleVm_buddy
  unlinked := by
    have hsmall : ∀ k < MAX_ORDER, ∀ p ∈ sampleVm.zone.allocLevels k,
        klist0Empty (.page p) sampleVm.zone.areaList = true := by decide +kernel
    intro k p hp
    exact hsmall k (sampleVm_buddy.piles.level k p hp).1 p hp

theorem memAreaPuts_refCounted_alone : RefCounted sampleVm [0] [⟨0, 3⟩] [⟨0, 1⟩] 1 12 := by
  have hlen : [0].length < WORD_RANGE := by decide
  refine (memAreaPuts_refCounted_iff sampleVm_original Cloned.original hlen
    (List.Perm.refl [0])).mpr ⟨rfl, ?_⟩
  have horder : idxOrder 3 = 0 := by decide
  have hfree : Block.mk 0 2 ∈ freePiles sampleVm.zone := by decide +kernel
  refine ⟨⟨by decide, ?_⟩, trivial⟩
  rw [horder]
  intro x hlo hhi hx
  have hx₂ : x = 2 := by omega
  exact hx₂ ▸ ⟨_, hfree, Block.start_mem _⟩

/-- The area with one clone: neither the put on the clone and then on the original
nor the other order returns. -/
theorem memAreaPuts_clone_wrong : ∃ s', Cloned sampleVm 0 [1, 0] s' ∧
    ∀ order, order.Perm [1, 0] → ¬ RefCounted s' order [⟨0, 3⟩] [⟨0, 1⟩] 1 12 := by
  have hok : (sampleVm.memAreaClone 3 8 0 1).isOk = true := by decide +kernel
  cases hclone : sampleVm.memAreaClone 3 8 0 1 with
  | error e =>
    rw [hclone] at hok
    cases hok
  | ok s' =>
    have htree : Cloned sampleVm 0 [1, 0] s' :=
      Cloned.original.clone List.mem_cons_self rfl hclone
    have hlen : [1, 0].length < WORD_RANGE := by decide
    refine ⟨s', htree, ?_⟩
    intro order horder
    exact sampleVm_original.not_refCounted htree hlen (by decide) horder

end Puts

end VmState

end Koowaldah
