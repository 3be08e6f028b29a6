import Koowaldah.Fs.Fd
import Koowaldah.Fs.Insert

/-!
# Opening and closing

A model of `open` and `close` of `kernel/fs/file.c` with the reference counts of the
entries and the inodes, for any number of threads.

`open` counts the new file on its entry and on its inode, and `close` calls
`release_inode`.  The counters do not wrap in the model.  `free_inode`, for an inode
whose counter goes to 0, is not modelled; the file operations `open` and `close` return
0 and change no counter.

`SessionInv` has the value of every counter.  The inodes are right at every moment
(`SessionInv.inode`).  An entry counts the descriptors that were closed too
(`SessionInv.dent`).

`refNeutral_iff` is the result: the counters are right as long as nothing is closed.
-/

namespace Koowaldah

open Function SysLib

def ENOENT : Int := 2

def ENODEV : Int := 19

def O_CREAT : Nat := 0x200

def O_FORCE : Nat := 0x10000000

/-- The file system and the descriptor tables of the threads. -/
structure FilesState where
  fs : FsState
  tables : Nat → FdTable

namespace FsState

/-- `release_inode`.  The model stops at `free_inode`. -/
def releaseInode (s : FsState) (inode : Nat) : Option FsState :=
  match (s.inodes inode).iRefcnt with
  | n + 2 => some (s.setInode inode (fun i => { i with iRefcnt := n + 1 }))
  | _ => none

def countOpen (s : FsState) (dent : Nat) : FsState :=
  let s := s.setDent dent (fun d => { d with dRefcnt := d.dRefcnt + 1 })
  s.setInode (s.dents dent).dInode (fun i => { i with iRefcnt := i.iRefcnt + 1 })

end FsState

namespace FilesState

/-- `open`, by a thread.  `devices` are the numbers of the devices that are registered,
and `memory` says whether `new_file` finds any. -/
def fileOpen (s : FilesState) (devices : List Nat) (memory : Bool) (thread : Nat)
    (name : List UInt8) (flags mode : Nat) : Option (FilesState × Int) :=
  let created := if flags &&& O_CREAT ≠ 0 then s.fs.fsInsertEntry name mode NODEV none 0
    else some s.fs
  created.bind (fun fs =>
    match fs.lookupPath name with
    | none => none
    | some none => some (⟨fs, s.tables⟩, -ENOENT)
    | some (some dent) =>
      let dev := (fs.inodeOf dent).iDev
      if (dev ≠ NODEV ∧ flags &&& O_FORCE = 0) ∧ dev ∉ devices then
        some (⟨fs, s.tables⟩, -ENODEV)
      else if memory = false then some (⟨fs, s.tables⟩, -ENOMEM)
      else
        let (t, fd) := (s.tables thread).fileOpen (.ok (fs.dents dent).dInode)
        some (⟨fs.countOpen dent, Function.update s.tables thread t⟩, fd))

/-- `close`, by a thread. -/
def fileClose (s : FilesState) (thread fd : Nat) : Option (FilesState × Int) :=
  match (s.tables thread).fd2file fd with
  | none => some (s, -EBADF)
  | some file =>
    (s.fs.releaseInode file.fInode).map (fun fs =>
      let (t, ret) := (s.tables thread).fileClose fd
      (⟨fs, Function.update s.tables thread t⟩, ret))

end FilesState

/-! ## The table of a thread -/

namespace FdTable

def OpenOn (t : FdTable) (fd inode : Nat) : Prop :=
  bitAt t.fdset 0 fd = true ∧ ∃ file, t.fd2file fd = some file ∧ file.fInode = inode

variable {t t' : FdTable} {fd inode : Nat}

theorem fileOpen_fdset (h : t.fileOpen (.ok inode) = (t', (fd : Int))) :
    bitAt t.fdset 0 fd = false ∧ t'.fdset = bitmapBitSet t.fdset 0 fd ∧ fd ≤ t.lastFd ∧
      t.lastFd ≤ t'.lastFd ∧ ∃ file, t'.files = file :: t.files ∧ file.fFd = fd ∧
        file.fInode = inode := by
  unfold fileOpen allocFd at h
  cases hseek : bitmapSeekUnset t.fdset 0 (t.lastFd + 1) with
  | none =>
    rw [hseek] at h
    have hneg : -EBADF = (fd : Int) := congrArg Prod.snd h
    unfold EBADF at hneg
    omega
  | some n =>
    rcases bitmapSeekUnset_some hseek with ⟨hlt, hclear, -⟩
    rw [hseek] at h
    have hn : (n : Int) = fd := congrArg Prod.snd h
    obtain rfl : n = fd := Int.ofNat_inj.mp hn
    have ht := congrArg Prod.fst h
    dsimp only at ht
    subst ht
    split
    · exact ⟨hclear, rfl, Nat.le_of_lt_succ hlt, Nat.le_succ _, _, rfl, rfl, rfl⟩
    · exact ⟨hclear, rfl, Nat.le_of_lt_succ hlt, le_rfl, _, rfl, rfl, rfl⟩

theorem fileOpen_openOn (h : t.fileOpen (.ok inode) = (t', (fd : Int))) : t'.OpenOn fd inode := by
  rcases fileOpen_fdset h with ⟨-, hset, hle, hlast, file, hfiles, hfd, hinode⟩
  constructor
  · rw [hset, bitAt_bitmapBitSet]
    simp
  · refine ⟨file, ?_, hinode⟩
    unfold fd2file
    rw [if_neg (by omega), hfiles, List.find?_cons_of_pos]
    exact decide_eq_true hfd

theorem OpenOn.fileOpen {b i : Nat} (hb : t.OpenOn b i)
    (h : t.fileOpen (.ok inode) = (t', (fd : Int))) : t'.OpenOn b i := by
  rcases fileOpen_fdset h with ⟨hclear, hset, -, hlast, file, hfiles, hfd, -⟩
  rcases hb with ⟨hbit, f, hf, hi⟩
  have hne : fd ≠ b := by
    intro heq
    rw [heq, hbit] at hclear
    cases hclear
  constructor
  · rw [hset, bitAt_bitmapBitSet, hbit]
    simp
  · refine ⟨f, ?_, hi⟩
    unfold fd2file at hf ⊢
    split at hf
    · cases hf
    · rw [if_neg (by omega), hfiles, List.find?_cons_of_neg, hf]
      rw [hfd, decide_eq_true_eq]
      exact fun h => hne (Int.ofNat_inj.mp h)

theorem OpenOn.fileClose {b i : Nat} (hb : t.OpenOn b i) (hne : b ≠ fd) :
    (t.fileClose fd).1.OpenOn b i := by
  unfold FdTable.fileClose
  split
  · exact hb
  · rcases hb with ⟨hbit, hfile⟩
    constructor
    · show bitAt (bitmapBitClear t.fdset 0 fd) 0 b = true
      rw [bitAt_bitmapBitClear, hbit]
      simp [hne]
    · exact hfile

end FdTable

/-! ## Sessions -/

/-- A descriptor that is open, of a thread, and the entry that it was opened by. -/
structure OpenFd where
  thread : Nat
  fd : Nat
  dent : Nat
deriving DecidableEq, Repr

/-- The files, the descriptors that were opened and not closed, and the entries of those
that were closed. -/
structure Session where
  files : FilesState
  opened : List OpenFd
  closed : List Nat

inductive FileCall where
  | openFile (devices : List Nat) (memory : Bool) (thread : Nat) (name : List UInt8)
      (flags mode : Nat)
  | close (thread fd : Nat)

def FileCall.Opens : FileCall → Prop
  | .openFile .. => True
  | .close .. => False

namespace Session

/-- One call that succeeds: a path of the tree is opened, or a descriptor that is open is
closed. -/
def call (s : Session) : FileCall → Option Session
  | .openFile devices memory thread name flags mode =>
    match s.files.fs.lookupPath name with
    | some (some dent) =>
      match s.files.fileOpen devices memory thread name flags mode with
      | some (files, .ofNat fd) => some ⟨files, ⟨thread, fd, dent⟩ :: s.opened, s.closed⟩
      | _ => none
    | _ => none
  | .close thread fd =>
    match s.opened.find? (fun o => o.thread = thread ∧ o.fd = fd) with
    | none => none
    | some o =>
      (s.files.fileClose thread fd).map (fun r =>
        ⟨r.1, s.opened.erase o, o.dent :: s.closed⟩)

def onInode (s : Session) (inode : Nat) : Nat :=
  s.opened.countP (fun o => (s.files.fs.dents o.dent).dInode = inode)

def onDent (s : Session) (dent : Nat) : Nat := s.opened.countP (fun o => o.dent = dent)

/-- Every counter is above its first value by the number of open descriptors. -/
def RefNeutral (start s : Session) : Prop :=
  (∀ i, (s.files.fs.inodes i).iRefcnt = (start.files.fs.inodes i).iRefcnt + s.onInode i) ∧
    ∀ d, (s.files.fs.dents d).dRefcnt = (start.files.fs.dents d).dRefcnt + s.onDent d

/-- What a session keeps: the descriptors are in use, and the value of every counter. -/
structure Inv (start s : Session) : Prop where
  keys : (s.opened.map (fun o => (o.thread, o.fd))).Nodup
  inUse : ∀ o ∈ s.opened,
    (s.files.tables o.thread).OpenOn o.fd (s.files.fs.dents o.dent).dInode
  inode : ∀ i, (s.files.fs.inodes i).iRefcnt =
    (start.files.fs.inodes i).iRefcnt + s.onInode i
  dent : ∀ d, (s.files.fs.dents d).dRefcnt =
    (start.files.fs.dents d).dRefcnt + s.onDent d + s.closed.count d

end Session

/-! ## One call -/

theorem FilesState.fileOpen_cases {s s' : FilesState} {devices : List Nat} {memory : Bool}
    {thread : Nat} {name : List UInt8} {flags mode dent fd : Nat}
    (hdent : s.fs.lookupPath name = some (some dent))
    (h : s.fileOpen devices memory thread name flags mode = some (s', (fd : Int))) :
    ∃ t, (s.tables thread).fileOpen (.ok (s.fs.dents dent).dInode) = (t, (fd : Int)) ∧
      s' = ⟨s.fs.countOpen dent, Function.update s.tables thread t⟩ := by
  have hcreated : (if flags &&& O_CREAT ≠ 0 then s.fs.fsInsertEntry name mode NODEV none 0
      else some s.fs) = some s.fs := by
    rw [FsState.fsInsertEntry_of_found hdent, ite_self]
  unfold FilesState.fileOpen at h
  rw [hcreated, Option.bind_some, hdent] at h
  dsimp only at h
  split at h
  · have hneg : -ENODEV = (fd : Int) := congrArg Prod.snd (Option.some.inj h)
    unfold ENODEV at hneg
    omega
  · split at h
    · have hneg : -ENOMEM = (fd : Int) := congrArg Prod.snd (Option.some.inj h)
      unfold ENOMEM at hneg
      omega
    · have heq := Option.some.inj h
      have hfd : ((s.tables thread).fileOpen (.ok (s.fs.dents dent).dInode)).2 = (fd : Int) :=
        congrArg Prod.snd heq
      exact ⟨_, Prod.ext rfl hfd, (congrArg Prod.fst heq).symm⟩

namespace Session

variable {start s s' : Session}

theorem countOpen_counters (fs : FsState) (dent : Nat) :
    (∀ d, ((fs.countOpen dent).dents d).dInode = (fs.dents d).dInode) ∧
      (∀ d, ((fs.countOpen dent).dents d).dRefcnt =
        (fs.dents d).dRefcnt + if dent = d then 1 else 0) ∧
      ∀ i, ((fs.countOpen dent).inodes i).iRefcnt =
        (fs.inodes i).iRefcnt + if (fs.dents dent).dInode = i then 1 else 0 := by
  unfold FsState.countOpen FsState.setInode FsState.setDent
  refine ⟨?_, ?_, ?_⟩
  · intro d
    by_cases hd : d = dent
    · subst hd
      simp
    · simp [update_of_ne hd]
  · intro d
    by_cases hd : d = dent
    · subst hd
      simp
    · simp [update_of_ne hd, Ne.symm hd]
  · intro i
    by_cases hi : i = (fs.dents dent).dInode
    · subst hi
      simp
    · simp [update_of_ne hi, Ne.symm hi]

theorem Inv.openFile (h : start.Inv s) {files : FilesState} {thread fd dent : Nat} {t : FdTable}
    (hopen : (s.files.tables thread).fileOpen (.ok (s.files.fs.dents dent).dInode) =
      (t, (fd : Int)))
    (hfiles : files = ⟨s.files.fs.countOpen dent, Function.update s.files.tables thread t⟩) :
    start.Inv ⟨files, ⟨thread, fd, dent⟩ :: s.opened, s.closed⟩ := by
  subst hfiles
  rcases countOpen_counters s.files.fs dent with ⟨hdInode, hdRefcnt, hiRefcnt⟩
  have hclear := (FdTable.fileOpen_fdset hopen).1
  constructor
  case keys =>
    rw [List.map_cons, List.nodup_cons]
    refine ⟨?_, h.keys⟩
    -- a descriptor in use is not the one that is returned
    intro hmem
    rcases List.mem_map.mp hmem with ⟨o, ho, hkey⟩
    rw [Prod.mk.injEq] at hkey
    have hbit := (h.inUse o ho).1
    rw [hkey.1, hkey.2, hclear] at hbit
    cases hbit
  case inUse =>
    intro o ho
    dsimp only
    rw [hdInode]
    rcases List.mem_cons.mp ho with rfl | ho
    · rw [update_self]
      exact FdTable.fileOpen_openOn hopen
    · have huse := h.inUse o ho
      by_cases hthread : o.thread = thread
      · rw [hthread, update_self]
        rw [hthread] at huse
        exact huse.fileOpen hopen
      · rw [update_of_ne hthread]
        exact huse
  case inode =>
    intro i
    unfold onInode
    simp only [hdInode]
    rw [hiRefcnt, h.inode i, List.countP_cons]
    unfold onInode
    simp only [decide_eq_true_eq]
    omega
  case dent =>
    intro d
    unfold onDent
    rw [hdRefcnt, h.dent d, List.countP_cons]
    unfold onDent
    simp only [decide_eq_true_eq]
    omega

theorem releaseInode_counters {fs fs' : FsState} {inode : Nat}
    (h : fs.releaseInode inode = some fs') :
    fs'.dents = fs.dents ∧ ∀ i, (fs.inodes i).iRefcnt =
      (fs'.inodes i).iRefcnt + if inode = i then 1 else 0 := by
  unfold FsState.releaseInode at h
  split at h
  · rename_i n hn
    cases h
    refine ⟨rfl, ?_⟩
    intro i
    unfold FsState.setInode
    by_cases hi : i = inode
    · subst hi
      simp [hn]
    · simp [update_of_ne hi, Ne.symm hi]
  · cases h

theorem Inv.close (h : start.Inv s) {o : OpenFd} (ho : o ∈ s.opened) {files : FilesState}
    {ret : Int} (hclose : s.files.fileClose o.thread o.fd = some (files, ret)) :
    start.Inv ⟨files, s.opened.erase o, o.dent :: s.closed⟩ := by
  rcases h.inUse o ho with ⟨-, file, hfile, hinode⟩
  unfold FilesState.fileClose at hclose
  rw [hfile] at hclose
  rcases Option.map_eq_some_iff.mp hclose with ⟨fs, hfs, heq⟩
  obtain rfl := congrArg Prod.fst heq
  rcases releaseInode_counters hfs with ⟨hdents, hiRefcnt⟩
  have hperm : s.opened.Perm (o :: s.opened.erase o) := List.perm_cons_erase ho
  have hkeys := (hperm.map (fun o => (o.thread, o.fd))).nodup_iff.mp h.keys
  rw [List.map_cons, List.nodup_cons] at hkeys
  constructor
  case keys => exact hkeys.2
  case inUse =>
    intro x hx
    dsimp only
    rw [hdents]
    have huse := h.inUse x (List.mem_of_mem_erase hx)
    by_cases hthread : x.thread = o.thread
    · rw [hthread, update_self]
      rw [hthread] at huse
      apply huse.fileClose
      intro hfd
      exact hkeys.1 (List.mem_map.mpr ⟨x, hx, by rw [hthread, hfd]⟩)
    · rw [update_of_ne hthread]
      exact huse
  case inode =>
    intro i
    have hold := h.inode i
    unfold onInode at hold ⊢
    dsimp only
    rw [hiRefcnt, hperm.countP_eq, List.countP_cons, hinode] at hold
    rw [hdents]
    simp only [decide_eq_true_eq] at hold
    omega
  case dent =>
    intro d
    have hold := h.dent d
    unfold onDent at hold ⊢
    rw [hdents, List.count_cons]
    rw [hperm.countP_eq, List.countP_cons] at hold
    simp only [decide_eq_true_eq, beq_iff_eq] at hold ⊢
    omega

theorem Inv.call (h : start.Inv s) {c : FileCall} (hcall : s.call c = some s') :
    start.Inv s' ∧ (s'.closed = [] ↔ s.closed = [] ∧ c.Opens) := by
  cases c with
  | openFile devices memory thread name flags mode =>
    unfold Session.call at hcall
    dsimp only at hcall
    split at hcall
    · rename_i dent hdent
      split at hcall
      · rename_i files fd hopen
        rcases FilesState.fileOpen_cases hdent hopen with ⟨t, ht, hfiles⟩
        cases hcall
        exact ⟨h.openFile ht hfiles, (and_iff_left trivial).symm⟩
      · cases hcall
    · cases hcall
  | close thread fd =>
    unfold Session.call at hcall
    dsimp only at hcall
    split at hcall
    · cases hcall
    · rename_i o hfind
      have hkey := List.find?_some hfind
      simp only [decide_eq_true_eq] at hkey
      rcases Option.map_eq_some_iff.mp hcall with ⟨⟨files, ret⟩, hclose, rfl⟩
      rw [← hkey.1, ← hkey.2] at hclose
      refine ⟨h.close (List.mem_of_find?_eq_some hfind) hclose, ?_⟩
      exact iff_of_false (List.cons_ne_nil _ _) (fun h => h.2)

theorem Inv.refNeutral_iff_closed (h : start.Inv s) : start.RefNeutral s ↔ s.closed = [] := by
  constructor
  · intro hneutral
    rw [List.eq_nil_iff_forall_not_mem]
    intro d hd
    have hcount := h.dent d
    rw [hneutral.2 d] at hcount
    have hpos := List.count_pos_iff.mpr hd
    omega
  · intro hclosed
    refine ⟨h.inode, ?_⟩
    intro d
    rw [h.dent d, hclosed]
    rfl

/-! ## A whole session -/

theorem Inv.run (h : start.Inv s) {calls : List FileCall}
    (hrun : run Session.call s calls = some s') :
    start.Inv s' ∧ (s'.closed = [] ↔ s.closed = [] ∧ ∀ c ∈ calls, c.Opens) := by
  induction calls generalizing s with
  | nil =>
    cases hrun
    exact ⟨h, (and_iff_left nofun).symm⟩
  | cons c calls ih =>
    rcases run_cons_eq_some.mp hrun with ⟨s₁, hcall, hrest⟩
    rcases h.call hcall with ⟨h₁, hclosed₁⟩
    rcases ih h₁ hrest with ⟨h', hclosed⟩
    refine ⟨h', ?_⟩
    rw [hclosed, hclosed₁, List.forall_mem_cons, and_assoc]

theorem inv_start (hopened : start.opened = []) (hclosed : start.closed = []) :
    start.Inv start := by
  constructor
  case keys =>
    rw [hopened]
    exact List.nodup_nil
  case inUse =>
    rw [hopened]
    nofun
  case inode =>
    intro i
    unfold onInode
    rw [hopened]
    rfl
  case dent =>
    intro d
    unfold onDent
    rw [hopened, hclosed]
    rfl

/-- Opening and closing is reference neutral at every moment of a sequence of successful
calls if and only if nothing is closed. -/
theorem refNeutral_iff (hopened : start.opened = []) (hclosed : start.closed = [])
    {calls : List FileCall} (hrun : run Session.call start calls = some s) :
    (∀ pre s', pre <+: calls → run Session.call start pre = some s' →
      start.RefNeutral s') ↔ ∀ c ∈ calls, c.Opens := by
  have hstart := inv_start hopened hclosed
  constructor
  · intro hneutral
    rcases hstart.run hrun with ⟨hinv, hiff⟩
    have hlast := hneutral calls s (List.prefix_refl calls) hrun
    exact (hiff.mp (hinv.refNeutral_iff_closed.mp hlast)).2
  · intro hopens pre s' hpre hrun'
    rcases hstart.run hrun' with ⟨hinv, hiff⟩
    exact hinv.refNeutral_iff_closed.mpr (hiff.mpr ⟨hclosed, fun c hc => hopens c (hpre.subset hc)⟩)

/-- The tree of `fs_init` and threads without open files. -/
def first : Session :=
  ⟨⟨FsState.firstTree, fun _ => FdTable.threadCreate (fun _ => 0)⟩, [], []⟩

def openDev : FileCall := .openFile [] true 1 [0x64, 0x65, 0x76] 0 0

theorem refNeutral_openDev :
    ∃ s, run Session.call first [openDev, openDev] = some s ∧ s.opened.length = 2 ∧
      first.RefNeutral s := by
  have hres : (run Session.call first [openDev, openDev]).map (fun s => s.opened.length) =
      some 2 := by decide +kernel
  rcases Option.map_eq_some_iff.mp hres with ⟨s, hs, hlen⟩
  refine ⟨s, hs, hlen, ?_⟩
  exact (refNeutral_iff rfl rfl hs).mpr (by simp [openDev, FileCall.Opens]) _ s
    (List.prefix_refl _) hs

theorem close_keeps_dRefcnt :
    (first.files.fs.dents 1).dRefcnt = 1 ∧ (first.files.fs.inodes 1).iRefcnt = 1 ∧
      ∃ s, run Session.call first [openDev, .close 1 0] = some s ∧ s.opened = [] ∧
        (s.files.fs.dents 1).dRefcnt = 2 ∧ (s.files.fs.inodes 1).iRefcnt = 1 ∧
        ¬first.RefNeutral s := by
  have hres : (run Session.call first [openDev, .close 1 0]).map
      (fun s => (s.opened, (s.files.fs.dents 1).dRefcnt, (s.files.fs.inodes 1).iRefcnt)) =
      some ([], 2, 1) := by decide +kernel
  have hfirst : (first.files.fs.dents 1).dRefcnt = 1 := by decide +kernel
  refine ⟨hfirst, by decide +kernel, ?_⟩
  rcases Option.map_eq_some_iff.mp hres with ⟨s, hs, heq⟩
  simp only [Prod.mk.injEq] at heq
  refine ⟨s, hs, heq.1, heq.2.1, heq.2.2, ?_⟩
  intro hneutral
  have hcount := hneutral.2 1
  unfold onDent at hcount
  rw [heq.2.1, heq.1] at hcount
  exact absurd hcount (by decide)

end Session

end Koowaldah
