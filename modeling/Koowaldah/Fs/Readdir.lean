import Koowaldah.Fs.Insert
import Koowaldah.Vsnprintf.Digits

/-!
# Reading directories

A model of `readdir` of `kernel/fs/file.c` and of the four functions behind it:
`generic_readdir`, `virtfs_readdir` of `kernel/fs/virtfs.c`, `virtfs_proc_readdir` of
`kernel/fs/virtfs_proc.c` and `virtfs_dev_readdir` of `kernel/fs/virtfs_dev.c`.

The caller gives an array of `count` elements of `FILENAME_MAX` bytes.  A function of the
model returns the value of the C function and the list of its stores to the array, in
order.

`readdir_ok_iff` says when a call stores to `count` elements at most and returns the
right number.
-/

namespace Koowaldah

open SysLib

def ENOTDIR : Int := 20

def DEVNAME_MAX : Nat := 32

def DEV_MAJOR (d : Nat) : Nat := d >>> 16 &&& 0xffff

def DEV_MINOR (d : Nat) : Nat := d &&& 0xffff

/-! ## The texts -/

/-- `struct device`.  `d_name` is a string in an array. -/
structure Device where
  dName : List UInt8
  dDev : Nat
  dName_lt : dName.length < DEVNAME_MAX

/-- `struct virtfs_entry`, as a member of a list.  `ve_name` is a string, and no longer than
a name can be. -/
structure VirtfsEntry where
  veName : List UInt8
  veName_ne : veName ≠ []
  veName_lt : veName.length < FILENAME_MAX

/-- What `snprintf` makes of `"[task:%d]"`, with the NUL. -/
def procText (pid : BitVec 32) : List UInt8 :=
  [0x5b, 0x74, 0x61, 0x73, 0x6b, 0x3a] ++ signedText pid.toInt ++ [0x5d, 0]

/-- What `snprintf` makes of `"[%s:%d.%d]"`, with the NUL.  An empty string is shown as
`"<null>"`. -/
def devText (d : Device) : List UInt8 :=
  [0x5b] ++ (if d.dName = [] then [0x3c, 0x6e, 0x75, 0x6c, 0x6c, 0x3e] else d.dName) ++ [0x3a] ++
    signedText (DEV_MAJOR d.dDev) ++ [0x2e] ++ signedText (DEV_MINOR d.dDev) ++ [0x5d, 0]

theorem procText_length_le (pid : BitVec 32) : (procText pid).length ≤ FILENAME_MAX := by
  have hlo := pid.le_toInt
  have hhi := @BitVec.toInt_lt 32 pid
  have hpid := signedText_length_le (i := pid.toInt) (by omega)
  unfold procText FILENAME_MAX
  simp only [List.length_append, List.length_cons, List.length_nil]
  omega

theorem devText_length_le (d : Device) : (devText d).length ≤ FILENAME_MAX := by
  have hword : ∀ n : Nat, (signedText ↑(n &&& 0xffff)).length ≤ 12 := by
    intro n
    refine signedText_length_le ?_
    rw [Int.natAbs_natCast]
    exact Nat.lt_of_le_of_lt Nat.and_le_right (by decide)
  have hmajor := hword (d.dDev >>> 16)
  have hminor := hword d.dDev
  have hname : (if d.dName = [] then [0x3c, 0x6e, 0x75, 0x6c, 0x6c, 0x3e] else d.dName).length ≤
      32 := by
    split
    · decide
    · exact Nat.le_of_lt d.dName_lt
  unfold devText FILENAME_MAX DEV_MAJOR DEV_MINOR
  simp only [List.length_append, List.length_cons, List.length_nil]
  omega

/-! ## The functions -/

/-- A store to the array of the caller: `len` bytes from the start of an element, of which
the first are known. -/
structure UdentStore where
  elem : Nat
  len : Nat
  bytes : List UInt8
deriving DecidableEq, Repr

/-- The loop of `generic_readdir`, at element `i`.  The name is stored before the limit is
looked at. -/
def genericReaddirLoop (s : FsState) (count : Int) : Nat → List Nat → Nat × List UdentStore
  | i, [] => (i, [])
  | i, d :: ds =>
    let st : UdentStore := ⟨i, FILENAME_MAX, (s.dents d).dName⟩
    if (i : Int) = count then (i + 1, [st])
    else
      let (c, sts) := genericReaddirLoop s count (i + 1) ds
      (c, st :: sts)

def genericReaddir (s : FsState) (inode : Nat) (count : Int) : Int × List UdentStore :=
  if !S_ISDIR (s.inodes inode).iMode then (-EINVAL, [])
  else if count ≤ 0 then (-EINVAL, [])
  else
    let (i, sts) := genericReaddirLoop s count 0 (s.inodes inode).iChildren
    (i, sts)

/-- The loop of `virtfs_readdir`, at element `c`. -/
def virtfsReaddirLoop (count : Int) : Nat → List VirtfsEntry → Nat × List UdentStore
  | c, [] => (c, [])
  | c, ve :: ves =>
    if (c : Int) = count then (c, [])
    else
      let (r, sts) := virtfsReaddirLoop count (c + 1) ves
      (r, ⟨c, kstrlen ve.veName + 1, ve.veName ++ [0]⟩ :: sts)

/-- A loop that stores all the texts, from element `c` on. -/
def listAll : Nat → List (List UInt8) → Nat × List UdentStore
  | c, [] => (c, [])
  | c, text :: texts =>
    let (r, sts) := listAll (c + 1) texts
    (r, ⟨c, text.length, text⟩ :: sts)

/-- `virtfs_proc_readdir`, with the numbers of the threads.  `count` is not used. -/
def virtfsProcReaddir (pids : List (BitVec 32)) (_count : Int) : Int × List UdentStore :=
  let (c, sts) := listAll 0 (pids.map procText)
  (c, sts)

/-- `virtfs_dev_readdir`, with the devices that are registered.  `count` is not used. -/
def virtfsDevReaddir (devices : List Device) (_count : Int) : Int × List UdentStore :=
  let (c, sts) := listAll 0 (devices.map devText)
  (c, sts)

/-- The method `readdir` of a directory of `virtfs`. -/
inductive VeReaddir where
  | nop
  | proc
  | dev
deriving DecidableEq, Repr

/-- The directory of `virtfs` that an inode has in `i_private`: its method, and the
siblings of `ve_child`. -/
structure VirtfsDir where
  readdir : VeReaddir
  veChild : Option (List VirtfsEntry)

/-- The lists that the methods go through. -/
structure KernelLists where
  pids : List (BitVec 32)
  devices : List Device

def virtfsReaddir (k : KernelLists) (s : FsState) (inode : Nat) (dir : VirtfsDir) (count : Int) :
    Int × List UdentStore :=
  if !S_ISDIR (s.inodes inode).iMode then (-ENOTDIR, [])
  else
    match dir.readdir with
    | .proc => virtfsProcReaddir k.pids count
    | .dev => virtfsDevReaddir k.devices count
    | .nop =>
      match dir.veChild with
      | none => (0, [])
      | some ves =>
        let (c, sts) := virtfsReaddirLoop count 0 ves
        (c, sts)

/-- The method `readdir` of a file. -/
inductive FopsReaddir where
  | generic
  | virtfs (dir : VirtfsDir)

/-- `readdir`, on the file of a descriptor: its inode and its method, if it has one. -/
def readdir (k : KernelLists) (s : FsState) (inode : Nat) (fops : Option FopsReaddir)
    (count : Int) : Int × List UdentStore :=
  match fops with
  | none => (-EINVAL, [])
  | some .generic => genericReaddir s inode count
  | some (.virtfs dir) => virtfsReaddir k s inode dir count

def FopsReaddir.listed (k : KernelLists) (s : FsState) (inode : Nat) : FopsReaddir → Nat
  | .generic => (s.inodes inode).iChildren.length
  | .virtfs dir =>
    match dir.readdir with
    | .proc => k.pids.length
    | .dev => k.devices.length
    | .nop => (dir.veChild.getD []).length

/-- The call stores to `count` elements at most, and returns the number of entries or
`count`, whatever is less. -/
def ReaddirOk (count n : Nat) (r : Int × List UdentStore) : Prop :=
  (∀ st ∈ r.2, st.elem * FILENAME_MAX + st.len ≤ count * FILENAME_MAX) ∧
    r.1 = (min count n : Nat)

instance (count n : Nat) (r : Int × List UdentStore) : Decidable (ReaddirOk count n r) :=
  inferInstanceAs (Decidable (_ ∧ _))

/-- The method has a limit that works: it is that of a plain directory of `virtfs`. -/
def FopsReaddir.Limited : FopsReaddir → Prop
  | .generic => False
  | .virtfs dir => dir.readdir = .nop

/-! ## The loops -/

theorem store_fits {count : Nat} {st : UdentStore} (hlen : st.len ≤ FILENAME_MAX)
    (helem : st.elem < count) : st.elem * FILENAME_MAX + st.len ≤ count * FILENAME_MAX := by
  have hle : (st.elem + 1) * FILENAME_MAX ≤ count * FILENAME_MAX :=
    Nat.mul_le_mul_right _ helem
  rw [Nat.add_mul] at hle
  omega

theorem genericReaddirLoop_spec (s : FsState) {count : Nat} (ds : List Nat) {i : Nat}
    (hi : i ≤ count) : (genericReaddirLoop s count i ds).1 = min (count + 1) (i + ds.length) ∧
      ∀ st ∈ (genericReaddirLoop s count i ds).2,
        st.len = FILENAME_MAX ∧ st.elem < min (count + 1) (i + ds.length) := by
  induction ds generalizing i with
  | nil =>
    unfold genericReaddirLoop
    refine ⟨?_, nofun⟩
    rw [List.length_nil]
    omega
  | cons d ds ih =>
    unfold genericReaddirLoop
    rw [List.length_cons]
    by_cases hlimit : (i : Int) = count
    · rw [if_pos hlimit]
      refine ⟨by dsimp only; omega, ?_⟩
      intro st hst
      rw [List.mem_singleton.mp hst]
      exact ⟨rfl, by dsimp only; omega⟩
    · have hstep := @ih (i + 1) (by omega)
      rw [if_neg hlimit]
      refine ⟨by rw [hstep.1]; omega, ?_⟩
      intro st hst
      rcases List.mem_cons.mp hst with rfl | hst
      · exact ⟨rfl, by dsimp only; omega⟩
      · have hrest := hstep.2 st hst
        exact ⟨hrest.1, by omega⟩

theorem virtfsReaddirLoop_spec {count : Nat} (ves : List VirtfsEntry) {c : Nat} (hc : c ≤ count) :
    (virtfsReaddirLoop count c ves).1 = min count (c + ves.length) ∧
      ∀ st ∈ (virtfsReaddirLoop count c ves).2, st.len ≤ FILENAME_MAX ∧ st.elem < count := by
  induction ves generalizing c with
  | nil =>
    unfold virtfsReaddirLoop
    refine ⟨?_, nofun⟩
    rw [List.length_nil]
    omega
  | cons ve ves ih =>
    unfold virtfsReaddirLoop
    rw [List.length_cons]
    by_cases hlimit : (c : Int) = count
    · rw [if_pos hlimit]
      exact ⟨by dsimp only; omega, nofun⟩
    · have hstep := @ih (c + 1) (by omega)
      rw [if_neg hlimit]
      refine ⟨by rw [hstep.1]; omega, ?_⟩
      intro st hst
      rcases List.mem_cons.mp hst with rfl | hst
      · exact ⟨ve.veName_lt, by dsimp only; omega⟩
      · exact hstep.2 st hst

theorem listAll_spec {texts : List (List UInt8)} (hfits : ∀ t ∈ texts, t.length ≤ FILENAME_MAX)
    (c : Nat) : (listAll c texts).1 = c + texts.length ∧
      ∀ st ∈ (listAll c texts).2, st.len ≤ FILENAME_MAX ∧ st.elem < c + texts.length := by
  induction texts generalizing c with
  | nil => exact ⟨rfl, nofun⟩
  | cons text texts ih =>
    have hstep := ih (fun t ht => hfits t (List.mem_cons_of_mem text ht)) (c + 1)
    unfold listAll
    dsimp only
    rw [List.length_cons]
    refine ⟨by rw [hstep.1]; omega, ?_⟩
    intro st hst
    rcases List.mem_cons.mp hst with rfl | hst
    · exact ⟨hfits text List.mem_cons_self, by dsimp only; omega⟩
    · have hrest := hstep.2 st hst
      exact ⟨hrest.1, by omega⟩

theorem readdirOk_iff_of_spec {count n m : Nat} {sts : List UdentStore}
    (hsts : ∀ st ∈ sts, st.len ≤ FILENAME_MAX ∧ st.elem < m) :
    ReaddirOk count n ((m : Int), sts) ↔ m = min count n := by
  constructor
  · intro hok
    exact Int.ofNat_inj.mp hok.2
  · intro hm
    refine ⟨?_, by rw [hm]⟩
    intro st hst
    have hfits := hsts st hst
    exact store_fits hfits.1 (by omega)

/-! ## The result -/

theorem genericReaddir_ok_iff {s : FsState} {inode count : Nat} (hcount : 1 ≤ count)
    (hdir : S_ISDIR (s.inodes inode).iMode = true) :
    ReaddirOk count (s.inodes inode).iChildren.length (genericReaddir s inode count) ↔
      (s.inodes inode).iChildren.length ≤ count := by
  have hspec := genericReaddirLoop_spec s (s.inodes inode).iChildren (Nat.zero_le count)
  unfold genericReaddir
  rw [hdir, if_neg (by decide), if_neg (by omega)]
  dsimp only
  rw [hspec.1, readdirOk_iff_of_spec (fun st hst =>
    ⟨Nat.le_of_eq (hspec.2 st hst).1, (hspec.2 st hst).2⟩)]
  omega

theorem listAll_ok_iff (count : Nat) {texts : List (List UInt8)}
    (hfits : ∀ t ∈ texts, t.length ≤ FILENAME_MAX) :
    ReaddirOk count texts.length (((listAll 0 texts).1 : Int), (listAll 0 texts).2) ↔
      texts.length ≤ count := by
  have hspec := listAll_spec hfits 0
  rw [hspec.1, readdirOk_iff_of_spec hspec.2]
  omega

theorem virtfsProcReaddir_ok_iff (pids : List (BitVec 32)) (count : Nat) :
    ReaddirOk count pids.length (virtfsProcReaddir pids count) ↔ pids.length ≤ count := by
  have hfits : ∀ t ∈ pids.map procText, t.length ≤ FILENAME_MAX := by
    intro t ht
    rcases List.mem_map.mp ht with ⟨pid, -, rfl⟩
    exact procText_length_le pid
  have hiff := listAll_ok_iff count hfits
  rw [List.length_map] at hiff
  exact hiff

theorem virtfsDevReaddir_ok_iff (devices : List Device) (count : Nat) :
    ReaddirOk count devices.length (virtfsDevReaddir devices count) ↔
      devices.length ≤ count := by
  have hfits : ∀ t ∈ devices.map devText, t.length ≤ FILENAME_MAX := by
    intro t ht
    rcases List.mem_map.mp ht with ⟨d, -, rfl⟩
    exact devText_length_le d
  have hiff := listAll_ok_iff count hfits
  rw [List.length_map] at hiff
  exact hiff

theorem virtfsReaddir_nop_ok {k : KernelLists} {s : FsState} {inode : Nat} {dir : VirtfsDir}
    (hdir : S_ISDIR (s.inodes inode).iMode = true) (hnop : dir.readdir = .nop) (count : Nat) :
    ReaddirOk count (dir.veChild.getD []).length (virtfsReaddir k s inode dir count) := by
  unfold virtfsReaddir
  rw [hdir, hnop]
  cases dir.veChild with
  | none => exact ⟨nofun, by simp⟩
  | some ves =>
    have hspec := virtfsReaddirLoop_spec ves (Nat.zero_le count)
    rw [Nat.zero_add] at hspec
    dsimp only
    refine ⟨?_, by rw [hspec.1]; rfl⟩
    intro st hst
    exact store_fits (hspec.2 st hst).1 (hspec.2 st hst).2

/-- `readdir` keeps to the array of the caller and returns the right number if and only if
the directory is a plain one of `virtfs`, or all its entries fit. -/
theorem readdir_ok_iff (k : KernelLists) (s : FsState) (inode : Nat) (fops : FopsReaddir)
    {count : Nat} (hcount : 1 ≤ count) (hdir : S_ISDIR (s.inodes inode).iMode = true) :
    ReaddirOk count (fops.listed k s inode) (readdir k s inode (some fops) count) ↔
      fops.Limited ∨ fops.listed k s inode ≤ count := by
  cases fops with
  | generic =>
    show ReaddirOk _ _ (genericReaddir s inode count) ↔ False ∨ _
    rw [false_or]
    exact genericReaddir_ok_iff hcount hdir
  | virtfs dir =>
    unfold FopsReaddir.listed FopsReaddir.Limited readdir
    dsimp only
    cases hmethod : dir.readdir with
    | nop => exact iff_of_true (virtfsReaddir_nop_ok hdir hmethod count) (.inl rfl)
    | proc =>
      unfold virtfsReaddir
      rw [hdir, if_neg (by decide), hmethod, virtfsProcReaddir_ok_iff]
      exact (or_iff_right nofun).symm
    | dev =>
      unfold virtfsReaddir
      rw [hdir, if_neg (by decide), hmethod, virtfsDevReaddir_ok_iff]
      exact (or_iff_right nofun).symm

theorem readdir_root_four :
    ReaddirOk 4 4 (readdir ⟨[], []⟩ FsState.firstTree 0 (some .generic) 4) := by
  have hlisted : FopsReaddir.generic.listed ⟨[], []⟩ FsState.firstTree 0 = 4 := by
    decide +kernel
  have hok := (readdir_ok_iff ⟨[], []⟩ FsState.firstTree 0 .generic (show 1 ≤ 4 by decide)
    (by decide +kernel)).mpr (.inr (Nat.le_of_eq hlisted))
  exact hok

/-- A call for one entry of the root directory stores to two elements and returns 2, and one
for one thread of two stores to two elements. -/
theorem readdir_root_one : FopsReaddir.generic.listed ⟨[], []⟩ FsState.firstTree 0 = 4 ∧
      (readdir ⟨[], []⟩ FsState.firstTree 0 (some .generic) 1).1 = 2 ∧
      (readdir ⟨[], []⟩ FsState.firstTree 0 (some .generic) 1).2.map (·.elem) = [0, 1] ∧
      ¬ReaddirOk 1 4 (readdir ⟨[], []⟩ FsState.firstTree 0 (some .generic) 1) ∧
      ¬ReaddirOk 1 2 (readdir ⟨[0, 1], []⟩ FsState.firstTree 0
        (some (.virtfs ⟨.proc, none⟩)) 1) := by
  decide +kernel

end Koowaldah
