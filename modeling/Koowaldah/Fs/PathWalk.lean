import Koowaldah.Fs.Virtfs

/-!
# A path as a list of names

`lookup_path` goes through the path in place: it steps over the slashes at the front,
copies each name that ends in a slash to a buffer, and hands the rest of the path to the
last `lookup_direntry`.  Here the same lookup is written over the list of names
(`splitWalk`): each name is looked up in the directory of the name before it, a directory
that something is mounted on is replaced by the root of what is mounted, and the walk is
over when a name is missing or an inode on the way is no directory.

`lookupPath_eq_splitWalk` is the result, for paths whose names fit the buffer.
-/

namespace Koowaldah

variable {p : List UInt8}

/-- The parts of a path between slashes, without the empty ones at the front. -/
def pathParts (path : List UInt8) : List (List UInt8) :=
  (path.splitOn SLASH).dropWhile (· = [])

namespace VfsState

def NotDir (s : VfsState) (inode : Nat) : Prop :=
  inode ∉ s.killed ∧ S_ISDIR (s.fs.inodes inode).iMode = false

instance decidableNotDir (s : VfsState) (inode : Nat) : Decidable (s.NotDir inode) :=
  inferInstanceAs (Decidable (_ ∧ _))

/-- Look up a name and the names behind it, from a directory. -/
def splitWalkFrom (s : VfsState) (c : List UInt8) :
    List (List UInt8) → Nat → Option (VfsState × Option Nat)
  | [], inode => s.lookupDirentry c inode
  | c' :: cs, inode =>
    match s.lookupDirentry c inode with
    | none => none
    | some (s, none) => some (s, none)
    | some (s, some d) =>
      let inode := s.fs.enter (s.fs.dents d).dInode
      if s.NotDir inode then some (s, none) else s.splitWalkFrom c' cs inode

/-- Look up a list of names from the root of the namespace. -/
def splitWalk (s : VfsState) : List (List UInt8) → Option (VfsState × Option Nat)
  | [] => some (s, some s.fs.nDent)
  | c :: cs => s.splitWalkFrom c cs s.fs.nInode

end VfsState

/-! ## The parts of a path -/

theorem kstrchr_cases (c : UInt8) (p : List UInt8) : kstrchr c p = none ∧ c ∉ p ∨
      ∃ k, kstrchr c p = some k ∧ c ∉ p.take k ∧ p = p.take k ++ c :: p.drop (k + 1) := by
  induction p with
  | nil => exact .inl ⟨rfl, List.not_mem_nil⟩
  | cons x p ih =>
    by_cases hx : x = c
    · refine .inr ⟨0, if_pos hx, List.not_mem_nil, ?_⟩
      rw [hx]
      rfl
    · have hcons : kstrchr c (x :: p) = (kstrchr c p).map (· + 1) := if_neg hx
      rw [hcons]
      obtain ⟨hnone, hmem⟩ | ⟨k, hk, hmem, hp⟩ := ih
      · rw [hnone]
        exact .inl ⟨rfl, List.not_mem_cons_of_ne_of_not_mem (Ne.symm hx) hmem⟩
      · rw [hk]
        refine .inr ⟨k + 1, rfl, List.not_mem_cons_of_ne_of_not_mem (Ne.symm hx) hmem, ?_⟩
        exact congrArg (List.cons x) hp

theorem kstrchr_take_length {c : UInt8} {k : Nat} (hp : p = p.take k ++ c :: p.drop (k + 1)) :
    (p.take k).length = k := by
  have hlen := congrArg List.length hp
  simp only [List.length_append, List.length_cons, List.length_take] at hlen
  rw [List.length_take]
  omega

theorem splitOn_of_kstrchr_none (h : kstrchr SLASH p = none) : p.splitOn SLASH = [p] := by
  obtain ⟨-, hmem⟩ | ⟨k, hk, -⟩ := kstrchr_cases SLASH p
  · exact List.splitOn_eq_singleton hmem
  · rw [h] at hk
    cases hk

theorem splitOn_of_kstrchr {k : Nat} (h : kstrchr SLASH p = some k) : (p.take k).length = k ∧
      p.splitOn SLASH = p.take k :: (p.drop (k + 1)).splitOn SLASH := by
  obtain ⟨hnone, -⟩ | ⟨j, hj, hmem, hp⟩ := kstrchr_cases SLASH p
  · rw [h] at hnone
    cases hnone
  · obtain rfl : k = j := Option.some.inj (h.symm.trans hj)
    refine ⟨kstrchr_take_length hp, ?_⟩
    calc p.splitOn SLASH = (p.take k ++ SLASH :: p.drop (k + 1)).splitOn SLASH := by rw [← hp]
      _ = p.take k :: (p.drop (k + 1)).splitOn SLASH :=
        List.splitOn_append_cons_self_of_not_mem hmem _

theorem kstrchr_of_splitOn_singleton {c : List UInt8} (h : p.splitOn SLASH = [c]) :
    kstrchr SLASH p = none ∧ p = c := by
  cases hk : kstrchr SLASH p with
  | none =>
    rw [splitOn_of_kstrchr_none hk] at h
    exact ⟨rfl, (List.cons.inj h).1⟩
  | some k =>
    rw [(splitOn_of_kstrchr hk).2] at h
    exact absurd (List.cons.inj h).2 (List.splitOn_ne_nil _ _)

theorem kstrchr_of_splitOn_cons {c c' : List UInt8} {cs : List (List UInt8)}
    (h : p.splitOn SLASH = c :: c' :: cs) : kstrchr SLASH p = some c.length ∧ p.take c.length = c ∧
      (p.drop (c.length + 1)).splitOn SLASH = c' :: cs := by
  cases hk : kstrchr SLASH p with
  | none =>
    rw [splitOn_of_kstrchr_none hk] at h
    cases (List.cons.inj h).2
  | some k =>
    obtain ⟨hlen, hsplit⟩ := splitOn_of_kstrchr hk
    rw [hsplit] at h
    obtain ⟨rfl, hcs⟩ := List.cons.inj h
    rw [hlen]
    exact ⟨rfl, rfl, hcs⟩

theorem pathParts_dropWhile (path : List UInt8) :
    pathParts (path.dropWhile (· == SLASH)) = pathParts path := by
  induction path with
  | nil => rfl
  | cons x path ih =>
    by_cases hx : x = SLASH
    · rw [List.dropWhile_cons_of_pos (by simpa using hx), ih]
      unfold pathParts
      rw [List.splitOn_cons_eq_if_modifyHead, if_pos (by simpa using hx),
        List.dropWhile_cons_of_pos (by simp)]
    · rw [List.dropWhile_cons_of_neg (by simpa using hx)]

theorem pathParts_of_head (hne : p ≠ []) (hhead : p.head? ≠ some SLASH) :
    pathParts p = p.splitOn SLASH := by
  obtain ⟨x, p, rfl⟩ := List.exists_cons_of_ne_nil hne
  have hx : x ≠ SLASH := fun h => hhead (congrArg some h)
  unfold pathParts
  rw [List.splitOn_cons_eq_if_modifyHead, if_neg (by simpa using hx)]
  cases p.splitOn SLASH with
  | nil => rfl
  | cons c cs => exact List.dropWhile_cons_of_neg (by simp)

theorem splitOn_length_le (p : List UInt8) : (p.splitOn SLASH).length ≤ p.length + 1 := by
  induction p with
  | nil => exact le_rfl
  | cons x p ih =>
    rw [List.splitOn_cons_eq_if_modifyHead]
    split
    · simpa using ih
    · rw [List.length_modifyHead, List.length_cons]
      omega

/-- The names are those between the slashes, and the loop of `lookup_path` has a round for
each. -/
theorem pathParts_cases (path : List UInt8) :
    path.dropWhile (· == SLASH) = [] ∧ pathParts path = [] ∨
      path.dropWhile (· == SLASH) ≠ [] ∧ ∃ c cs, pathParts path = c :: cs ∧
        (path.dropWhile (· == SLASH)).splitOn SLASH = c :: cs ∧
        cs.length < (path.dropWhile (· == SLASH)).length + 1 := by
  rw [← pathParts_dropWhile]
  by_cases hne : path.dropWhile (· == SLASH) = []
  · rw [hne]
    exact .inl ⟨rfl, rfl⟩
  · have hparts := pathParts_of_head hne (fun hhead => by
      have hnot := List.head?_dropWhile_not (· == SLASH) path
      rw [hhead] at hnot
      simp at hnot)
    have hlen := splitOn_length_le (path.dropWhile (· == SLASH))
    obtain ⟨c, cs, hsplit⟩ := List.exists_cons_of_ne_nil
      (List.splitOn_ne_nil SLASH (path.dropWhile (· == SLASH)))
    rw [hsplit] at hparts hlen
    exact .inr ⟨hne, c, cs, hparts, hsplit, hlen⟩

namespace VfsState

/-! ## The walk -/

theorem lookupDirentry_notDir {s : VfsState} {inode : Nat} (h : s.NotDir inode)
    (name : List UInt8) : s.lookupDirentry name inode = some (s, none) := by
  unfold lookupDirentry
  rw [if_neg h.1, h.2]
  rfl

theorem splitWalkFrom_notDir {s : VfsState} {inode : Nat} (h : s.NotDir inode) (c : List UInt8)
    (cs : List (List UInt8)) : s.splitWalkFrom c cs inode = some (s, none) := by
  cases cs with
  | nil => exact lookupDirentry_notDir h c
  | cons c' cs => rw [splitWalkFrom, lookupDirentry_notDir h]

theorem splitWalkFrom_concat (s : VfsState) (c : List UInt8) (cs : List (List UInt8))
    (x : List UInt8) (inode : Nat) :
    s.splitWalkFrom c (cs ++ [x]) inode =
      match s.splitWalkFrom c cs inode with
      | none => none
      | some (s, none) => some (s, none)
      | some (s, some d) =>
        let inode := s.fs.enter (s.fs.dents d).dInode
        if s.NotDir inode then some (s, none) else s.lookupDirentry x inode := by
  induction cs generalizing s c inode with
  | nil => rfl
  | cons c' cs ih =>
    rw [List.cons_append, splitWalkFrom, splitWalkFrom]
    match s.lookupDirentry c inode with
    | none => rfl
    | some (s₁, none) => rfl
    | some (s₁, some d) =>
      dsimp only
      split
      · rfl
      · exact ih ..

theorem lookupPathLoop_eq {n : Nat} {c p : List UInt8} {cs : List (List UInt8)}
    (hparts : p.splitOn SLASH = c :: cs) (hfits : ∀ x ∈ c :: cs, x.length < FILENAME_MAX)
    (hn : cs.length < n) (s : VfsState) (inode : Nat) :
    s.lookupPathLoop n p inode = s.splitWalkFrom c cs inode := by
  induction cs generalizing n c p s inode with
  | nil =>
    obtain ⟨n, rfl⟩ := Nat.exists_eq_add_one_of_ne_zero (Nat.ne_of_gt hn)
    obtain ⟨hk, rfl⟩ := kstrchr_of_splitOn_singleton hparts
    rw [lookupPathLoop_succ, hk]
    rfl
  | cons c' cs ih =>
    obtain ⟨n, rfl⟩ := Nat.exists_eq_add_one_of_ne_zero (Nat.ne_of_gt (Nat.zero_lt_of_lt hn))
    obtain ⟨hk, htake, hcs⟩ := kstrchr_of_splitOn_cons hparts
    rw [lookupPathLoop_succ, hk, splitWalkFrom]
    dsimp only
    rw [if_pos (hfits c List.mem_cons_self), htake]
    rcases s.lookupDirentry c inode with - | ⟨s₁, - | d⟩
    · rfl
    · rfl
    · dsimp only
      have hrest := ih hcs (fun x hx => hfits x (List.mem_cons_of_mem c hx))
        (Nat.lt_of_succ_lt_succ hn) s₁ (s₁.fs.enter (s₁.fs.dents d).dInode)
      rw [hrest]
      split
      case isTrue hnot => exact splitWalkFrom_notDir hnot c' cs
      case isFalse => rfl

theorem lookupPath_of_splitOn {path c : List UInt8} {cs : List (List UInt8)}
    (hne : path.dropWhile (· == SLASH) ≠ [])
    (hsplit : (path.dropWhile (· == SLASH)).splitOn SLASH = c :: cs)
    (hfits : ∀ x ∈ c :: cs, x.length < FILENAME_MAX) (s : VfsState) :
    s.lookupPath path = s.splitWalkFrom c cs s.fs.nInode := by
  rw [lookupPath_eq, if_neg hne]
  refine lookupPathLoop_eq hsplit hfits ?_ s s.fs.nInode
  have hlen := splitOn_length_le (path.dropWhile (· == SLASH))
  rw [hsplit, List.length_cons] at hlen
  omega

/-- `lookup_path` is the walk over the list of names. -/
theorem lookupPath_eq_splitWalk (s : VfsState) (path : List UInt8)
    (hparts : ∀ c ∈ pathParts path, c ≠ [] ∧ c.length < FILENAME_MAX) :
    s.lookupPath path = s.splitWalk (pathParts path) := by
  obtain ⟨hnil, heq⟩ | ⟨hne, c, cs, heq, hsplit, -⟩ := pathParts_cases path
  · rw [lookupPath_eq, if_pos hnil, heq]
    rfl
  · rw [heq] at hparts ⊢
    exact lookupPath_of_splitOn hne hsplit (fun x hx => (hparts x hx).2) s

/-- The path `//koowaldah/srv/lol`. -/
def lolPath : List UInt8 :=
  [SLASH, SLASH] ++ KOOWALDAH ++ [SLASH] ++ SRV ++ [SLASH] ++ [0x6c, 0x6f, 0x6c]

/-- The walk crosses into the virtual file system, and makes the entries of `srv` and
`lol`. -/
theorem lookupPath_eq_splitWalk_lol : pathParts lolPath = [KOOWALDAH, SRV, [0x6c, 0x6f, 0x6c]] ∧
      bootVfs.lookupPath lolPath = bootVfs.splitWalk (pathParts lolPath) ∧
      (bootVfs.lookupPath lolPath).map (fun r => (r.1.fs.ndents, r.2)) = some (10, some 9) :=
  ⟨by decide, lookupPath_eq_splitWalk bootVfs lolPath (by decide), by decide +kernel⟩

end VfsState

end Koowaldah
