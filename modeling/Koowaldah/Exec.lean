import Koowaldah.Aout.Load
import Koowaldah.Fs.Open
import Koowaldah.MemArea.Put
import Koowaldah.Vsnprintf.Scan

/-!
# Executing a binary in a thread

`binary_load`, `thread_exec_new` and `thread_exec` of `kernel/exec.c`.  `thread_exec` looks up
the path, puts the areas of the mapping, and then has the loader look at the file.  When the
loader refuses the file, the thread has no areas to return to.

The areas, the page tables and `m_nmma` are the image of the thread.  The path is read in the
memory of the kernel, and what the switch to the new image does to the registers is left out.

`threadExec_keeps_image_iff` says which failures keep the image: a path that is missing, and a
mapping that was empty before the call.
-/

namespace Koowaldah

open Function SysLib

def USERMEM_STACK : Nat := 0x80000000

def USERMEM_HEAP : Nat := 0x80000000

def THREAD_NAME_LEN : Nat := 32

namespace LoadState

/-- `binary_load`.  `aout` says whether the kernel is built with `OPT_AOUT_SUPPORT`. -/
def binaryLoad (aout : Bool) (env : LoadEnv) (fz : Zone) (pages : List Nat) (s : LoadState) :
    Except VmFault (LoadState × Int) :=
  if aout then s.aoutLoad env fz pages else .ok (s, -ENOEXEC)

/-- `thread_exec_new`.  The stack is used, for its `m_sizelim`, and the heap is not. -/
def threadExecNew (aout : Bool) (env : LoadEnv) (fz : Zone) (pages : List Nat) (s : LoadState) :
    Except VmFault (LoadState × Int) := do
  let (s, ret) ← s.binaryLoad aout env fz pages
  if ret ≠ 0 then return (s, ret)
  -- allocate stack
  let s ← s.allocMma env s.mNmma USERMEM_STACK 1 (MMA_RW ||| MMA_STACK)
  let _ ← s.mma s.mNmma
  let s := { s with mNmma := addWord s.mNmma 1 }
  -- allocate heap
  let s ← s.allocMma env s.mNmma USERMEM_HEAP 1 (MMA_RW ||| MMA_GROWS)
  return ({ s with mNmma := addWord s.mNmma 1 }, 0)

/-- The loop of `thread_exec` over the areas, with the rounds left and `i`. -/
def putAreas (fuel : Nat) : Nat → Nat → LoadState → Except VmFault LoadState
  | 0, _, s => .ok s
  | n + 1, i, s => do
    let a ← s.mma i
    let vm ← s.vm.memAreaPut fuel a
    putAreas fuel n (i + 1) { s with vm, mMma := Function.update s.mMma i none }

end LoadState

/-- A thread with its mapping and its name, and the files. -/
structure ExecState where
  vfs : VfsState
  vm : VmState
  mMma : Nat → Option Nat
  mNmma : Nat
  name : List UInt8

namespace ExecState

/-- The part of the state that the loader works on. -/
def load (s : ExecState) : LoadState := ⟨s.vm, s.vfs.fs.mem, s.mMma, s.mNmma⟩

def setLoad (s : ExecState) (l : LoadState) : ExecState :=
  { s with
    vfs := { s.vfs with fs := { s.vfs.fs with mem := l.mem } }
    vm := l.vm
    mMma := l.mMma
    mNmma := l.mNmma }

/-- `thread_exec`: the state, and the value returned.  There is none when the call does not
return, or when the name is longer than its array.  `rounds` and `args` are for `snprintf`, which
is given the path as its format. -/
def threadExec (aout : Bool) (env : LoadEnv) (rounds : Nat) (args : VaArgs) (path : CStr)
    (s : ExecState) : Option (ExecState × Int) :=
  match s.vfs.lookupPath path.chars with
  | none => none
  | some (vfs, none) => some ({ s with vfs }, -ENOENT)
  | some (vfs, some dent) => do
    let s := { s with vfs }
    let inode := vfs.fs.inodes (vfs.fs.dents dent).dInode
    -- get rid of current memory areas
    let l ← (s.load.putAreas env.fuel s.mNmma 0).toOption
    let l := { l with mNmma := 0 }
    let (l, i) ← (l.threadExecNew aout env vfs.fs.zone
      (inode.iPages.take inode.iFilled)).toOption
    let s := s.setLoad l
    if i ≠ 0 then return (s, i)
    -- rename the thread accordingly
    match snprintf rounds THREAD_NAME_LEN path.mem args with
    | .done out => if out.length ≤ THREAD_NAME_LEN then some ({ s with name := out }, 0) else none
    | _ => none

/-- The mapping has the same areas, page tables and `m_nmma`. -/
structure SameImage (map : Nat) (s s' : ExecState) : Prop where
  mMma : s'.mMma = s.mMma
  mNmma : s'.mNmma = s.mNmma
  areas : ∀ i a, s.mMma i = some a → s'.vm.areas a = s.vm.areas a
  pgtable : s'.vm.pgtable map = s.vm.pgtable map

end ExecState

/-! ## The parts of a call -/

namespace LoadState

variable {aout : Bool} {env : LoadEnv} {fz : Zone} {pages : List Nat} {s s' : LoadState}

theorem putAreas_none {fuel k : Nat} (n : Nat) : ∀ {i : Nat} {s : LoadState},
    putAreas fuel n i s = .ok s' → s.mMma k = none → s'.mMma k = none := by
  induction n with
  | zero =>
    intro i s hop hk
    cases hop
    exact hk
  | succ n ih =>
    intro i s hop hk
    obtain ⟨a, -, hop⟩ := bind_eq_ok.mp hop
    obtain ⟨vm, -, hop⟩ := bind_eq_ok.mp hop
    refine ih hop ?_
    show Function.update s.mMma i none k = none
    rcases eq_or_ne k i with rfl | hne
    · exact update_self ..
    · rw [update_of_ne hne, hk]

theorem putAreas_spec {fuel : Nat} (n : Nat) : ∀ {i : Nat} {s : LoadState},
    putAreas fuel n i s = .ok s' → ∀ k, i ≤ k → k < i + n → s'.mMma k = none := by
  induction n with
  | zero => exact fun _ k hik hki => absurd hki (Nat.not_lt.mpr hik)
  | succ n ih =>
    intro i s hop k hik hki
    obtain ⟨a, -, hop⟩ := bind_eq_ok.mp hop
    obtain ⟨vm, -, hop⟩ := bind_eq_ok.mp hop
    rcases Nat.eq_or_lt_of_le hik with rfl | hlt
    · exact putAreas_none n hop (update_self ..)
    · exact ih hop k hlt (by omega)

theorem threadExecNew_refused {r : Int} (hop : s.threadExecNew aout env fz pages = .ok (s', r))
    (hr : r ≠ 0) : r = -ENOEXEC ∧ s' = s := by
  obtain ⟨⟨t, ret⟩, hload, hop⟩ := bind_eq_ok.mp hop
  dsimp only at hop
  split at hop
  · cases hop
    unfold binaryLoad at hload
    split at hload
    · exact aoutLoad_refused hload hr
    · cases hload
      exact ⟨rfl, rfl⟩
  · obtain ⟨_, -, hop⟩ := bind_eq_ok.mp hop
    obtain ⟨_, -, hop⟩ := bind_eq_ok.mp hop
    obtain ⟨_, -, hop⟩ := bind_eq_ok.mp hop
    cases hop
    exact absurd rfl hr

end LoadState

namespace ExecState

variable {aout : Bool} {env : LoadEnv} {rounds : Nat} {args : VaArgs} {path : CStr}
  {s s' : ExecState} {r : Int}

theorem threadExec_failed (hop : s.threadExec aout env rounds args path = some (s', r))
    (hneg : r < 0) :
    (∃ vfs, s.vfs.lookupPath path.chars = some (vfs, none) ∧ r = -ENOENT ∧ s' = { s with vfs }) ∨
      ∃ vfs dent l, s.vfs.lookupPath path.chars = some (vfs, some dent) ∧ r = -ENOEXEC ∧
        ({ s with vfs } : ExecState).load.putAreas env.fuel s.mNmma 0 = .ok l ∧
        s' = ({ s with vfs } : ExecState).setLoad { l with mNmma := 0 } := by
  unfold threadExec at hop
  split at hop
  · cases hop
  · rename_i vfs hlookup
    cases hop
    exact .inl ⟨vfs, hlookup, rfl, rfl⟩
  · rename_i vfs dent hlookup
    obtain ⟨l, hput, hop⟩ := Option.bind_eq_some_iff.mp hop
    obtain ⟨⟨l', i⟩, hnew, hop⟩ := Option.bind_eq_some_iff.mp hop
    rw [toOption_eq_some] at hput hnew
    dsimp only at hop
    split at hop
    · rename_i hi
      cases hop
      obtain ⟨rfl, rfl⟩ := LoadState.threadExecNew_refused hnew hi
      exact .inr ⟨vfs, dent, l, hlookup, rfl, hput, rfl⟩
    · split at hop
      · split at hop
        · cases hop
          exact absurd hneg (by decide)
        · cases hop
      · cases hop

/-- Which failures of `thread_exec` keep the image of the thread: those with a path that is
missing, and those of a thread that had no areas.  When the file is refused, the areas are gone. -/
theorem threadExec_keeps_image_iff (hop : s.threadExec aout env rounds args path = some (s', r))
    (hneg : r < 0) : (SameImage env.map s s' ↔
      (∃ vfs, s.vfs.lookupPath path.chars = some (vfs, none)) ∨ s.mNmma = 0) ∧
    ((r = -ENOENT ∧ ∃ vfs, s.vfs.lookupPath path.chars = some (vfs, none)) ∨
      (r = -ENOEXEC ∧ s'.mNmma = 0 ∧ ∀ i < s.mNmma, s'.mMma i = none)) := by
  rcases threadExec_failed hop hneg with ⟨vfs, hlookup, rfl, rfl⟩ | ⟨vfs, dent, l, hlookup, rfl,
    hput, rfl⟩
  · exact ⟨iff_of_true ⟨rfl, rfl, fun _ _ _ => rfl, rfl⟩ (.inl ⟨vfs, hlookup⟩),
      .inl ⟨rfl, vfs, hlookup⟩⟩
  · refine ⟨⟨fun hsame => .inr hsame.mNmma.symm, ?_⟩, .inr ⟨rfl, rfl, ?_⟩⟩
    · rintro (⟨vfs', hnone⟩ | hzero)
      · rw [hlookup] at hnone
        cases hnone
      · rw [hzero] at hput
        cases hput
        exact ⟨rfl, hzero.symm, fun _ _ _ => rfl, rfl⟩
    · intro i hi
      exact LoadState.putAreas_spec _ hput i (Nat.zero_le i) (by omega)

/-- A file system with one file, `x`, of the page 0.  No header is at its start. -/
def textFs : FsState where
  inodes := fun i =>
    if i = 0 then ⟨0, 1, S_IFDIR, NODEV, 0, [], 0, [1], none, fun _ => none⟩
    else ⟨1, 1, S_IFREG, NODEV, PAGE_SIZE, [0], 1, [], none, fun _ => none⟩
  ninodes := 2
  dents := fun d => if d = 0 then ⟨[0], 0, 1⟩ else ⟨[0x78, 0], 1, 1⟩
  ndents := 2
  ino := 2
  nInode := 0
  nDent := 0
  zone := fileZone
  mem := fun _ => 0

/-- Slices 0 and up for the areas of the mapping 7. -/
def execEnv : LoadEnv := ⟨9, 9, 7, id⟩

/-- A thread with one area, which has the page 3 at `0x8000000`. -/
def oneArea : ExecState where
  vfs := VfsState.ofFs textFs (fun _ => 0)
  vm := (VmState.sampleVm.mapPage 7 0x8000000 (pageToAddr VmState.sampleVm.zone 3) 0).setVirt 3
    0x8000000
  mMma := Function.update (fun _ => none) 0 (some 0)
  mNmma := 1
  name := []

/-- The path `x`. -/
def xPath : CStr := ⟨[0x78], by decide, []⟩

/-- The path `y`. -/
def yPath : CStr := ⟨[0x79], by decide, []⟩

theorem threadExec_keeps_image_missing : ∃ s',
    oneArea.threadExec true execEnv 9 zeroArgs yPath = some (s', -ENOENT) ∧
      SameImage execEnv.map oneArea s' := by
  have hrun : (oneArea.threadExec true execEnv 9 zeroArgs yPath).map Prod.snd =
      some (-ENOENT) := by decide +kernel
  obtain ⟨⟨s', r⟩, hexec, rfl⟩ := Option.map_eq_some_iff.mp hrun
  obtain ⟨himage, hcause⟩ := threadExec_keeps_image_iff hexec (by decide)
  refine ⟨s', hexec, himage.mpr (.inl ?_)⟩
  rcases hcause with ⟨-, hmissing⟩ | ⟨henoexec, -⟩
  · exact hmissing
  · exact absurd henoexec (by decide)

/-- A file that is no binary: the area is gone, and so is its page in the page table. -/
theorem threadExec_loses_image : ∃ s',
    oneArea.threadExec true execEnv 9 zeroArgs xPath = some (s', -ENOEXEC) ∧
      oneArea.mNmma = 1 ∧ (oneArea.vm.pgtable 7 0x8000).isSome = true ∧
      s'.mNmma = 0 ∧ (s'.vm.pgtable 7 0x8000).isSome = false ∧
      ¬ SameImage execEnv.map oneArea s' := by
  have hrun : (oneArea.threadExec true execEnv 9 zeroArgs xPath).map (fun t =>
      (t.2, t.1.mNmma, (t.1.vm.pgtable 7 0x8000).isSome)) = some (-ENOEXEC, 0, false) := by
    decide +kernel
  obtain ⟨⟨s', r⟩, hexec, himage⟩ := Option.map_eq_some_iff.mp hrun
  simp only [Prod.mk.injEq] at himage
  obtain ⟨rfl, hnmma, htable⟩ := himage
  refine ⟨s', hexec, rfl, by decide +kernel, hnmma, htable, ?_⟩
  intro hsame
  exact absurd (hnmma.symm.trans hsame.mNmma) (by decide)

end ExecState

end Koowaldah
