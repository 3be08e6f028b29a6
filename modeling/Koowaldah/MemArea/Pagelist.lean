import Koowaldah.MemArea.Basic
import Koowaldah.PageAlloc.Opener

/-!
# `free_pagelist`

`free_pagelist` reads the next node of the list after it has freed a page.
`free_pages` has then unlinked the page that opens the merged pile.  When that
is the page itself its node is linked to itself, and the loop frees it again
and again.  When the page has joined a pile on its left its node still leads to
the next one.

* `visits` is a walk with the nodes it meets.  `visits_ring`, with `walk_ring`, and
  `walk_never` are the rules for loops over a page list: one for a loop that comes
  to the end of the list, and one for a loop that never does.
* `JoinsLeftInTurn` says that every page of a list joins a pile on its left when
  it is freed.
* `ListFreeing.visits_eq` and `ListFreeing.never` say that `free_pagelist` frees every
  page once when that is so, and does not return otherwise.
-/

namespace Koowaldah

open SysLib SysLib.Dyadic SysLib.Links

namespace VmState

/-! ## Walks -/

section Walk

variable (body : AreaNode → VmState → Except VmFault VmState)

variable {stop node : AreaNode} {s : VmState} {fuel a : Nat} {pages : List Nat}

/-- A walk, with the nodes that its body was told, in order. -/
def visits (stop : AreaNode) (body : AreaNode → VmState → Except VmFault VmState) :
    Nat → AreaNode → VmState → Except VmFault (List AreaNode × VmState)
  | 0, _, _ => .error .endless
  | n + 1, node, s =>
    if node = stop then .ok ([], s)
    else do
      let s ← body node s
      let (met, s) ← visits stop body n (s.zone.areaList.next node) s
      return (node :: met, s)

theorem visits_succ {s₁ : VmState} (hne : node ≠ stop) (hbody : body node s = .ok s₁) (fuel : Nat) :
    visits stop body (fuel + 1) node s =
      (visits stop body fuel (s₁.zone.areaList.next node) s₁).map
        (fun r => (node :: r.1, r.2)) := by
  rw [visits, if_neg hne, hbody]
  show (visits stop body fuel (s₁.zone.areaList.next node) s₁ >>= _) = _
  cases visits stop body fuel (s₁.zone.areaList.next node) s₁ with
  | error e => rfl
  | ok r => rfl

theorem visits_map_snd :
    (visits stop body fuel node s).map Prod.snd = walk stop body fuel node s := by
  induction fuel generalizing node s with
  | zero => rfl
  | succ fuel ih =>
    by_cases hstop : node = stop
    · rw [visits, walk, if_pos hstop, if_pos hstop]
      rfl
    · cases hbody : body node s with
      | error e =>
        rw [visits, walk, if_neg hstop, if_neg hstop, hbody]
        rfl
      | ok s₁ =>
        rw [visits_succ body hstop hbody, walk, if_neg hstop, hbody]
        show _ = walk stop body fuel (s₁.zone.areaList.next node) s₁
        rw [← ih]
        cases visits stop body fuel (s₁.zone.areaList.next node) s₁ with
        | error e => rfl
        | ok r => rfl

theorem visits_mono {fuel' : Nat} {r : List AreaNode × VmState}
    (hvisits : visits stop body fuel node s = .ok r) (hle : fuel ≤ fuel') :
    visits stop body fuel' node s = .ok r := by
  induction fuel generalizing node s fuel' r with
  | zero => exact nomatch hvisits
  | succ fuel ih =>
    obtain ⟨fuel', rfl⟩ : ∃ k, fuel' = k + 1 := ⟨fuel' - 1, by omega⟩
    by_cases hstop : node = stop
    · rw [visits, if_pos hstop] at hvisits ⊢
      exact hvisits
    · cases hbody : body node s with
      | error e =>
        rw [visits, if_neg hstop, hbody] at hvisits
        cases hvisits
      | ok s₁ =>
        rw [visits_succ body hstop hbody] at hvisits ⊢
        cases hrest : visits stop body fuel (s₁.zone.areaList.next node) s₁ with
        | error e =>
          rw [hrest] at hvisits
          cases hvisits
        | ok r₁ =>
          rw [ih hrest (Nat.le_of_succ_le_succ hle)]
          rw [hrest] at hvisits
          exact hvisits

theorem visits_unique {fuel' : Nat} {r r' : List AreaNode × VmState}
    (hvisits : visits stop body fuel node s = .ok r)
    (hvisits' : visits stop body fuel' node s = .ok r') : r = r' := by
  have hmax := visits_mono body hvisits (Nat.le_max_left fuel fuel')
  have hmax' := visits_mono body hvisits' (Nat.le_max_right fuel fuel')
  exact Except.ok.inj (hmax.symm.trans hmax')

/-- A walk along a list whose body leaves the list alone meets every page in order and
comes to the head. -/
theorem visits_ring (Inv : List Nat → VmState → Prop)
    (hring : ∀ l s, Inv l s → s.zone.areaList.IsRing (.head a) (pages.map AreaNode.page))
    (hbody : ∀ pg l s, Inv (pg :: l) s → ∃ s', body (.page pg) s = .ok s' ∧ Inv l s')
    {l pre : List Nat} (hpages : pages = pre ++ l) (hs : Inv l s) (hfuel : l.length < fuel) :
    ∃ s', visits (.head a) body fuel (after (.head a) (l.map AreaNode.page)) s =
      .ok (l.map AreaNode.page, s') ∧ Inv [] s' := by
  induction l generalizing pre s fuel with
  | nil =>
    cases fuel with
    | zero => exact absurd hfuel (Nat.not_lt_zero _)
    | succ fuel => exact ⟨s, if_pos rfl, hs⟩
  | cons pg l ih =>
    cases fuel with
    | zero => exact absurd hfuel (Nat.not_lt_zero _)
    | succ fuel =>
      rcases hbody pg l s hs with ⟨s₁, hs₁, hinv⟩
      have hnext : s₁.zone.areaList.next (.page pg) = after (.head a) (l.map AreaNode.page) := by
        have hring₁ := hring l s₁ hinv
        rw [hpages, List.map_append] at hring₁
        exact hring₁.neighbours.2
      have hpages' : pages = (pre ++ [pg]) ++ l := by
        rw [hpages, List.append_assoc]
        rfl
      rcases ih hpages' hinv (Nat.lt_of_succ_lt_succ hfuel) with ⟨s', hvisits, hs'⟩
      have hne : AreaNode.page pg ≠ .head a := nofun
      refine ⟨s', ?_, hs'⟩
      rw [List.map_cons, after_cons, visits_succ body hne hs₁, hnext, hvisits]
      rfl

theorem walk_ring {h : Links AreaNode} (hring : h.IsRing (.head a) (pages.map AreaNode.page))
    (Inv : List Nat → VmState → Prop) (hlinks : ∀ l s, Inv l s → s.zone.areaList = h)
    (hbody : ∀ pg l s, Inv (pg :: l) s → ∃ s', body (.page pg) s = .ok s' ∧ Inv l s')
    {l pre : List Nat} (hpages : pages = pre ++ l) (hs : Inv l s) (hfuel : l.length < fuel) :
    ∃ s', walk (.head a) body fuel (after (.head a) (l.map AreaNode.page)) s = .ok s' ∧
      Inv [] s' := by
  rcases visits_ring body Inv (fun l s hs => hlinks l s hs ▸ hring) hbody hpages hs hfuel with
    ⟨s', hvisits, hs'⟩
  refine ⟨s', ?_, hs'⟩
  rw [← visits_map_snd, hvisits]
  rfl

theorem walk_ring_inv {h : Links AreaNode} (hring : h.IsRing (.head a) (pages.map AreaNode.page))
    (Inv : List Nat → VmState → Prop) (hlinks : ∀ l s, Inv l s → s.zone.areaList = h)
    (hbody : ∀ pg l s, Inv (pg :: l) s → ∃ s', body (.page pg) s = .ok s' ∧ Inv l s') {s' : VmState}
    (hs : Inv pages s)
    (hwalk : walk (.head a) body fuel (s.zone.areaList.next (.head a)) s = .ok s') : Inv [] s' := by
  rw [hlinks pages s hs, hring.next_head, ← visits_map_snd] at hwalk
  rcases visits_ring body Inv (fun l s hs => hlinks l s hs ▸ hring) hbody
    (List.nil_append pages).symm hs (Nat.lt_succ_self _) with ⟨t, ht, hinv⟩
  cases hvisits : visits (.head a) body fuel (after (.head a) (pages.map AreaNode.page)) s with
  | error e =>
    rw [hvisits] at hwalk
    cases hwalk
  | ok r =>
    rw [hvisits] at hwalk
    have heq := visits_unique body hvisits ht
    rw [heq] at hwalk
    exact Except.ok.inj hwalk ▸ hinv

theorem walk_never (Bad : AreaNode → VmState → Prop) (hbad : ∀ node s, Bad node s → node ≠ stop ∧
      ∀ s', body node s = .ok s' → Bad (s'.zone.areaList.next node) s') {s' : VmState}
    (hs : Bad node s) : walk stop body fuel node s ≠ .ok s' := by
  induction fuel generalizing node s with
  | zero => exact nofun
  | succ fuel ih =>
    rcases hbad node s hs with ⟨hne, hstep⟩
    rw [walk, if_neg hne]
    cases hbody : body node s with
    | error e => exact nofun
    | ok s₁ => exact ih (hstep s₁ hbody)

end Walk

/-! ## Freeing a list -/

/-- Every page of the list joins a pile on its left when it is freed after those
before it. -/
def JoinsLeftInTurn (F : Set Nat) : List Nat → Prop
  | [] => True
  | pg :: l => JoinsLeft F pg ∧ JoinsLeftInTurn (insert pg F) l

/-- What `free_pagelist` keeps: the pages of `l` are still handed out, and the
pages that open free piles are on no list. -/
structure FreeingInv (h : Links AreaNode) (lo hi : Nat) (rest : List Block) (l : List Nat)
    (z : Zone) : Prop where
  links : z.areaList = h
  buddy : BuddyInv z lo hi (l.map (Block.mk 0) ++ rest)
  unlinked : ∀ k, ∀ p ∈ z.allocLevels k, klist0Empty (.page p) h = true

/-- `free_pages` leaves a page on its own: its node is linked to itself, and no
free pile merges with it. -/
structure Stuck (z : Zone) (pg : Nat) : Prop where
  alone : klist0Empty (.page pg) z.areaList = true
  last : ∀ nb ∈ z.allocLevels (z.order pg),
    ¬ (mergesLeft pg (z.order pg) nb || mergesRight pg (z.order pg) nb) = true

/-- What `free_pagelist` keeps in general: the list is the ring it was, the pages of `l`
are still handed out, and no page that opens a free pile is on the list.  The pages that
open free piles may be on other lists if those lead nowhere into this one. -/
structure ListFreeing (a : Nat) (pages : List Nat) (lo hi : Nat) (rest : List Block)
    (l : List Nat) (z : Zone) : Prop where
  ring : z.areaList.IsRing (.head a) (pages.map AreaNode.page)
  buddy : BuddyInv z lo hi (l.map (Block.mk 0) ++ rest)
  outside : ∀ k, ∀ p ∈ z.allocLevels k, p ∉ pages
  apart : (∀ k, ∀ p ∈ z.allocLevels k, klist0Empty (.page p) z.areaList = true) ∨
    z.areaList.Apart (.head a :: pages.map AreaNode.page)

section Freeing

variable {h : Links AreaNode} {a lo hi pg : Nat} {pages : List Nat} {rest : List Block}
  {l : List Nat} {z : Zone}

theorem not_mem_pages_of_mem_level (hbuddy : BuddyInv z lo hi (pages.map (Block.mk 0) ++ rest))
    {k p : Nat} (hp : p ∈ z.allocLevels k) : p ∉ pages := by
  intro hmem
  have hfree : p ∈ freePageSet z :=
    ⟨⟨k, p⟩, mem_freePiles.mpr ⟨(hbuddy.piles.level k p hp).1, hp⟩, Block.start_mem _⟩
  refine (hbuddy.mem_freePageSet_iff.mp hfree).2 ⟨0, p⟩ ?_ (Block.start_mem _)
  exact List.mem_append_left rest (List.mem_map_of_mem hmem)

theorem FreeingInv.listFreeing (hinv : FreeingInv h lo hi rest pages z)
    (hring : h.IsRing (.head a) (pages.map AreaNode.page)) :
    ListFreeing a pages lo hi rest pages z where
  ring := hinv.links ▸ hring
  buddy := hinv.buddy
  outside _ _ hp := not_mem_pages_of_mem_level hinv.buddy hp
  apart := Or.inl (hinv.links ▸ hinv.unlinked)

theorem ListFreeing.join (hinv : ListFreeing a pages lo hi rest (pg :: l) z)
    (hjoin : JoinsLeft (freePageSet z) pg) : ListFreeing a pages lo hi rest l (freePages z pg) := by
  have hopen : ∃ k, opener z pg ∈ z.allocLevels k :=
    (opener_cases z pg).resolve_left ((opener_ne_iff hinv.buddy).mpr hjoin)
  rcases hopen with ⟨k, hk⟩
  have hlevel : ∀ j, ∀ p ∈ (freePages z pg).allocLevels j, ∃ i, p ∈ z.allocLevels i := by
    intro j p hp
    rcases mem_freePages_level hp with rfl | hold
    · exact ⟨k, hk⟩
    · exact ⟨j, hold⟩
  have houtside : ∀ j, ∀ p ∈ (freePages z pg).allocLevels j, p ∉ pages := by
    intro j p hp
    rcases hlevel j p hp with ⟨i, hi⟩
    exact hinv.outside i p hi
  have hlinks := freePages_areaList z pg
  by_cases hempty : klist0Empty (.page (opener z pg)) z.areaList = true
  · rw [if_pos hempty] at hlinks
    refine ⟨hlinks ▸ hinv.ring, freePages_buddy hinv.buddy, houtside, ?_⟩
    rw [hlinks]
    apply hinv.apart.imp_left
    intro hunlinked j p hp
    rcases hlevel j p hp with ⟨i, hi⟩
    exact hunlinked i p hi
  · rw [if_neg hempty] at hlinks
    have hapart := hinv.apart.resolve_left (fun hunlinked => hempty (hunlinked k _ hk))
    have hout : AreaNode.page (opener z pg) ∉ AreaNode.head a :: pages.map AreaNode.page := by
      intro hmem
      rcases List.mem_map.mp ((List.mem_cons.mp hmem).resolve_left nofun) with ⟨p, hp, heq⟩
      exact hinv.outside k _ hk (AreaNode.page.inj heq ▸ hp)
    rcases klist0Unlink_apart hapart hout with ⟨hsame, hapart'⟩
    refine ⟨?_, freePages_buddy hinv.buddy, houtside, Or.inr (hlinks ▸ hapart')⟩
    rw [hlinks]
    exact hinv.ring.frame (fun x hx => (hsame x hx).1) (fun x hx => (hsame x hx).2)

theorem stuck_of_not_joinsLeft (hbuddy : BuddyInv z lo hi (⟨0, pg⟩ :: rest))
    (hjoin : ¬ JoinsLeft (freePageSet z) pg) : Stuck (freePages z pg) pg := by
  have hbuddy' : BuddyInv (freePages z pg) lo hi rest := freePages_buddy hbuddy
  have hopen : opener z pg = pg := by
    by_contra hne
    exact hjoin ((opener_ne_iff hbuddy).mp hne)
  refine ⟨?_, ?_⟩
  · rw [freePages_areaList, hopen]
    split
    · rename_i hempty
      exact hempty
    · rw [klist0Empty_iff (klist0Unlink_isRing_self _ _)]
  · rcases opener_mem z pg with ⟨k, hk⟩
    rw [hopen] at hk
    rw [(hbuddy'.piles.level k pg hk).2.2]
    intro nb hnb hmerge
    rw [Bool.or_eq_true] at hmerge
    rcases hmerge with hleft | hright
    · unfold mergesLeft at hleft
      rw [Bool.and_eq_true, decide_eq_true_eq, decide_eq_true_eq] at hleft
      rcases (lt_idxOrder_iff nb k).mp hleft.2 with ⟨hcap, hdvd⟩
      exact hbuddy'.merged k nb hcap hdvd hnb (hleft.1 ▸ hk)
    · unfold mergesRight at hright
      rw [Bool.and_eq_true, decide_eq_true_eq, decide_eq_true_eq] at hright
      rcases (lt_idxOrder_iff pg k).mp hright.2 with ⟨hcap, hdvd⟩
      exact hbuddy'.merged k pg hcap hdvd hk (hright.1 ▸ hnb)

theorem Stuck.coalesce_eq (hs : Stuck z pg) (fuel : Nat) : coalesce fuel pg z = (z, pg) := by
  cases fuel with
  | zero => rfl
  | succ fuel =>
    rw [coalesce]
    rw [List.find?_eq_none.mpr hs.last]

theorem Stuck.free (hs : Stuck z pg) : Stuck (freePages z pg) pg := by
  have hfree : freePages z pg = z.setLevel (z.order pg) (pg :: z.allocLevels (z.order pg)) := by
    unfold freePages
    rw [hs.coalesce_eq MAX_ORDER]
    exact if_pos hs.alone
  rw [hfree]
  refine ⟨hs.alone, ?_⟩
  rw [Zone.setLevel_order, Zone.setLevel_allocLevels, if_pos rfl]
  intro nb hnb
  rcases List.mem_cons.mp hnb with rfl | hold
  · have hpos := Nat.two_pow_pos (z.order nb)
    unfold mergesLeft mergesRight
    have hne : ¬ nb = nb + 2 ^ z.order nb := by omega
    rw [decide_eq_false hne]
    exact Bool.false_ne_true
  · exact hs.last nb hold

end Freeing

/-! ## The loop -/

section Loop

variable {a lo hi : Nat} {rest : List Block} {pages : List Nat} {s : VmState}

/-- `free_pagelist` frees every page once when they all join a pile on their left. -/
theorem ListFreeing.visits_eq (hinv : ListFreeing a pages lo hi rest pages s.zone)
    (hjoin : JoinsLeftInTurn (freePageSet s.zone) pages) {fuel : Nat}
    (hfuel : pages.length < fuel) :
    ∃ s', visits (.head a) freePageOf fuel (s.zone.areaList.next (.head a)) s =
        .ok (pages.map AreaNode.page, s') ∧
      ListFreeing a pages lo hi rest [] s'.zone := by
  rw [hinv.ring.next_head]
  rcases visits_ring freePageOf
    (fun l t => ListFreeing a pages lo hi rest l t.zone ∧
      JoinsLeftInTurn (freePageSet t.zone) l)
    (fun l t ht => ht.1.ring) (by
      intro pg l t ht
      refine ⟨{ t with zone := freePages t.zone pg }, rfl, ht.1.join ht.2.1, ?_⟩
      rw [show freePageSet _ = _ from BuddyInv.freePageSet_free ht.1.buddy]
      exact ht.2.2) (List.nil_append pages).symm ⟨hinv, hjoin⟩ hfuel with ⟨s', hvisits, hs'⟩
  exact ⟨s', hvisits, hs'.1⟩

/-- `free_pagelist` does not return when one of the pages joins no pile on its
left. -/
theorem ListFreeing.never (hinv : ListFreeing a pages lo hi rest pages s.zone)
    (hjoin : ¬ JoinsLeftInTurn (freePageSet s.zone) pages) (fuel : Nat) (s' : VmState) :
    s.freePagelist fuel (.head a) ≠ .ok s' := by
  unfold freePagelist
  rw [hinv.ring.next_head]
  -- the walk is at a page of the list with a stuck page ahead, or at the stuck page
  refine walk_never freePageOf (fun node t =>
    (∃ pre l, pages = pre ++ l ∧ node = after (.head a) (l.map AreaNode.page) ∧
      ListFreeing a pages lo hi rest l t.zone ∧
      ¬ JoinsLeftInTurn (freePageSet t.zone) l) ∨
    ∃ pg, node = .page pg ∧ Stuck t.zone pg) ?_
    (Or.inl ⟨[], pages, rfl, rfl, hinv, hjoin⟩)
  intro node t hbad
  rcases hbad with ⟨pre, l, hpages, rfl, ht, hno⟩ | ⟨pg, rfl, hstuck⟩
  · cases l with
    | nil => exact absurd trivial hno
    | cons pg l =>
      refine ⟨nofun, ?_⟩
      intro t' ht'
      cases ht'
      by_cases hpg : JoinsLeft (freePageSet t.zone) pg
      · have ht₁ := ht.join hpg
        refine Or.inl ⟨pre ++ [pg], l, ?_, ?_, ht₁, ?_⟩
        · rw [hpages, List.append_assoc]
          rfl
        · have hring₁ := ht₁.ring
          rw [hpages, List.map_append] at hring₁
          exact hring₁.neighbours.2
        · rw [show freePageSet _ = _ from BuddyInv.freePageSet_free ht.buddy]
          exact fun hjoin' => hno ⟨hpg, hjoin'⟩
      · have hstuck := stuck_of_not_joinsLeft ht.buddy hpg
        refine Or.inr ⟨pg, ?_, hstuck⟩
        exact of_decide_eq_true hstuck.alone
  · refine ⟨nofun, ?_⟩
    intro t' ht'
    cases ht'
    have hstuck' := hstuck.free
    exact Or.inr ⟨pg, of_decide_eq_true hstuck'.alone, hstuck'⟩

section

variable (hring : s.zone.areaList.IsRing (.head a) (pages.map AreaNode.page))

include hring

theorem freePagelist_ok (hinv : FreeingInv s.zone.areaList lo hi rest pages s.zone)
    (hjoin : JoinsLeftInTurn (freePageSet s.zone) pages) {fuel : Nat}
    (hfuel : pages.length < fuel) :
    ∃ s', s.freePagelist fuel (.head a) = .ok s' ∧ BuddyInv s'.zone lo hi rest := by
  rcases (hinv.listFreeing hring).visits_eq hjoin hfuel with ⟨s', hvisits, hs'⟩
  refine ⟨s', ?_, hs'.buddy⟩
  unfold freePagelist
  rw [← visits_map_snd, hvisits]
  rfl

theorem freePagelist_never (hinv : FreeingInv s.zone.areaList lo hi rest pages s.zone)
    (hjoin : ¬ JoinsLeftInTurn (freePageSet s.zone) pages) (fuel : Nat) (s' : VmState) :
    s.freePagelist fuel (.head a) ≠ .ok s' :=
  (hinv.listFreeing hring).never hjoin fuel s'

end

end Loop

end VmState

end Koowaldah
