import Koowaldah.Arch
import Koowaldah.Lib.LossyFifo
import Koowaldah.Lib.Run
import Koowaldah.Sched.Blocking

/-!
# The keyboard driver

A model of `drivers/keyboard/pc-kbd.c`.  Scan codes go through a ring buffer of
`KEYBOARD_BUFSIZE` bytes.  Both indices run from 0 to `KEYBOARD_BUFSIZE`, and
each is wrapped by its own side just before it is used.

The table `pckbd_sctrans` is a parameter: a scan code is below 128 and the table
has fewer entries, so what a read returns for the others is what stands behind
the table in memory.  An interrupt ends with `scheduler_tick`, as every one does.
A read that finds the buffer empty sleeps, and returns 0 when it is woken.

`unread` is the list of the scan codes between the two indices.

`pckbdRun_lossyFifo` is the result: the buffer is a lossy FIFO queue, as long as
the driver does not meet two of its states.  With `read_idx = 0` and
`write_idx = KEYBOARD_BUFSIZE` it takes a full buffer for one with room, and with
`read_idx = KEYBOARD_BUFSIZE` and `write_idx = 0` it takes an empty buffer for one
that is not.
-/

namespace Koowaldah

open Function SysLib

def KEYBOARD_BUFSIZE : Nat := 10

/-- The queue `tq` of the thread that waits for a key. -/
def kbdTq : Queue := .wait 0

/-- The variables of the driver, and the scheduler.  `log` is there for the
statements only. -/
structure KbdState where
  keyBuf : Nat → UInt8
  readIdx : Nat
  writeIdx : Nat
  users : Nat
  sched : SchedState
  log : List (LossyFifo.Event UInt8 UInt16)

namespace KbdState

/-- A scan code that is not the release of a key. -/
def isPress (scancode : UInt8) : Bool := scancode &&& 0x80 = 0

/-- The lines of `pckbd_intr` that store a scan code. -/
def storeKey (scancode : UInt8) (s : KbdState) : KbdState :=
  let s := if s.writeIdx = KEYBOARD_BUFSIZE then { s with writeIdx := 0 } else s
  if s.writeIdx + 1 ≠ s.readIdx then
    { s with
      keyBuf := Function.update s.keyBuf s.writeIdx scancode
      writeIdx := s.writeIdx + 1
      log := s.log ++ [.put scancode true] }
  else { s with log := s.log ++ [.put scancode false] }

def pckbdIntr (scancode : UInt8) (s : KbdState) : Option KbdState :=
  if s.users = 0 then some s
  else if isPress scancode = false then some s
  else
    let s := s.storeKey scancode
    (s.sched.sched0Enqueue kbdTq).map (fun (sched, _) => { s with sched := sched })

/-- `scheduler_tick` at the end of an interrupt, and the switch it asks for. -/
def schedulerTick (s : KbdState) : Option KbdState :=
  s.sched.sched0Tick.map (fun sched => { s with sched := sched.irqReturn })

/-- The lines of `pckbd_read` that take a key out. -/
def takeKey (sctrans : UInt8 → UInt16) (s : KbdState) : KbdState × UInt16 :=
  let s := if s.readIdx = KEYBOARD_BUFSIZE then { s with readIdx := 0 } else s
  let key := sctrans (s.keyBuf s.readIdx)
  ({ s with readIdx := s.readIdx + 1, log := s.log ++ [.took key] }, key)

/-- `pckbd_read`, up to its end or to its yield.  No value is a thread that
sleeps. -/
def pckbdRead (sctrans : UInt8 → UInt16) (s : KbdState) : Option (KbdState × Option UInt16) :=
  if s.readIdx = s.writeIdx then do
    let sched ← s.sched.sched0Dequeue kbdTq
    let sched ← sched.sched0Yield
    return ({ s with sched := sched, log := s.log ++ [.foundEmpty] }, none)
  else
    let (s, key) := s.takeKey sctrans
    some (s, some key)

def pckbdOpen (s : KbdState) : KbdState × Int :=
  if s.users ≠ 0 then (s, -EBUSY)
  else
    ({ s with
      users := s.users + 1
      readIdx := 0
      writeIdx := 0
      sched := s.sched.tqInit kbdTq }, 0)

end KbdState

/-- What the current thread does, or an interrupt. -/
inductive KbdCall where
  | intr (scancode : UInt8)
  | read
  | yield
  | irq
deriving DecidableEq, Repr

def KbdState.call (sctrans : UInt8 → UInt16) (s : KbdState) : KbdCall → Option KbdState
  | .intr scancode => (s.pckbdIntr scancode).bind KbdState.schedulerTick
  | .read => (s.pckbdRead sctrans).map Prod.fst
  | .yield => s.sched.sched0Yield.map (fun sched => { s with sched := sched })
  | .irq => s.schedulerTick

/-! ## The list between the indices -/

/-- The scan codes from `r` up to `w`, around the end of the buffer. -/
def unread (buf : Nat → UInt8) (r w : Nat) : List UInt8 :=
  if r ≤ w then (List.range' r (w - r)).map buf
  else (List.range' r (KEYBOARD_BUFSIZE - r)).map buf ++ (List.range' 0 w).map buf

section Unread

variable {buf : Nat → UInt8} {r w : Nat} {c : UInt8}

theorem unread_self : unread buf r r = [] := by
  unfold unread
  rw [if_pos le_rfl, Nat.sub_self]
  rfl

/-- The driver drops a scan code only when one slot is free. -/
theorem length_unread_succ (hw : w < KEYBOARD_BUFSIZE) :
    (unread buf (w + 1) w).length = KEYBOARD_BUFSIZE - 1 := by
  unfold unread
  rw [if_neg (by omega), List.length_append, List.length_map, List.length_map,
    List.length_range', List.length_range']
  omega

theorem map_update_range' {n m i : Nat} (hi : ∀ x ∈ List.range' n m, x ≠ i) :
    (List.range' n m).map (Function.update buf i c) = (List.range' n m).map buf := by
  apply List.map_congr_left
  intro x hx
  exact update_of_ne (hi x hx) ..

theorem unread_store (hfull : w + 1 ≠ r) :
    unread (Function.update buf w c) r (w + 1) = unread buf r w ++ [c] := by
  unfold unread
  by_cases hrw : r ≤ w
  · rw [if_pos (by omega), if_pos hrw, show w + 1 - r = w - r + 1 by omega,
      List.range'_concat, List.map_append, map_update_range' (fun x hx => ?_)]
    · rw [Nat.one_mul, show r + (w - r) = w by omega, List.map_singleton, update_self]
    · rw [List.mem_range'_1] at hx
      omega
  · rw [if_neg (by omega), if_neg hrw, List.range'_concat, List.map_append,
      map_update_range' (fun x hx => ?_), map_update_range' (fun x hx => ?_)]
    · rw [Nat.one_mul, Nat.zero_add, List.map_singleton, update_self,
        List.append_assoc]
    · rw [List.mem_range'_1] at hx
      omega
    · rw [List.mem_range'_1] at hx
      omega

theorem unread_take (buf : Nat → UInt8) (hr : r < KEYBOARD_BUFSIZE) (hne : r ≠ w) :
    unread buf r w = buf r :: unread buf (r + 1) w := by
  unfold unread
  by_cases hrw : r ≤ w
  · rw [if_pos hrw, if_pos (by omega), show w - r = w - (r + 1) + 1 by omega, List.range'_succ,
      List.map_cons]
  · rw [if_neg hrw, if_neg (by omega),
      show KEYBOARD_BUFSIZE - r = KEYBOARD_BUFSIZE - (r + 1) + 1 by omega, List.range'_succ,
      List.map_cons, List.cons_append]

theorem unread_wrap_write (hr : 0 < r) (hr' : r ≤ KEYBOARD_BUFSIZE) :
    unread buf r 0 = unread buf r KEYBOARD_BUFSIZE := by
  unfold unread
  rw [if_neg (by omega), if_pos hr']
  exact List.append_nil _

theorem unread_wrap_read (hw : w < KEYBOARD_BUFSIZE) :
    unread buf 0 w = unread buf KEYBOARD_BUFSIZE w := by
  unfold unread
  rw [if_pos (Nat.zero_le w), if_neg (by omega)]
  rfl

end Unread

/-! ## Runs -/

/-- Neither of the two states that the driver takes for another one: a press that
finds `write_idx` at the end and `read_idx` at the start, and a read that finds
them the other way round. -/
def KbdState.Clear (s : KbdState) : KbdCall → Prop
  | .intr scancode =>
    KbdState.isPress scancode = true → ¬(s.writeIdx = KEYBOARD_BUFSIZE ∧ s.readIdx = 0)
  | .read => ¬(s.readIdx = KEYBOARD_BUFSIZE ∧ s.writeIdx = 0)
  | _ => True

instance (s : KbdState) : ∀ c, Decidable (s.Clear c)
  | .intr scancode => inferInstanceAs (Decidable (KbdState.isPress scancode = true →
      ¬(s.writeIdx = KEYBOARD_BUFSIZE ∧ s.readIdx = 0)))
  | .read => inferInstanceAs (Decidable (¬(s.readIdx = KEYBOARD_BUFSIZE ∧ s.writeIdx = 0)))
  | .yield | .irq => isTrue trivial

/-- The indices are in range, and the log is one of a lossy queue that now holds
what is between them. -/
structure KbdInv (sctrans : UInt8 → UInt16) (s : KbdState) : Prop where
  readIdx : s.readIdx ≤ KEYBOARD_BUFSIZE
  writeIdx : s.writeIdx ≤ KEYBOARD_BUFSIZE
  valid : LossyFifo.Valid (KEYBOARD_BUFSIZE - 1) sctrans [] s.log
  stored : LossyFifo.after [] s.log = unread s.keyBuf s.readIdx s.writeIdx

section Steps

variable {sctrans : UInt8 → UInt16} {s s' : KbdState}

section

variable (hinv : KbdInv sctrans s)

include hinv

theorem KbdInv.of_sched (sched : SchedState) :
    KbdInv sctrans { s with sched := sched } := { hinv with }

theorem KbdInv.record {e : LossyFifo.Event UInt8 UInt16}
    (hfits : e.Fits (KEYBOARD_BUFSIZE - 1) sctrans (unread s.keyBuf s.readIdx s.writeIdx)) :
    LossyFifo.Valid (KEYBOARD_BUFSIZE - 1) sctrans [] (s.log ++ [e]) ∧
      LossyFifo.after [] (s.log ++ [e]) =
        e.perform (unread s.keyBuf s.readIdx s.writeIdx) := by
  rw [LossyFifo.valid_append, LossyFifo.after_append, hinv.stored]
  exact ⟨⟨hinv.valid, hfits, trivial⟩, rfl⟩

theorem KbdInv.storeKey {scancode : UInt8}
    (hclear : ¬(s.writeIdx = KEYBOARD_BUFSIZE ∧ s.readIdx = 0)) :
    KbdInv sctrans (s.storeKey scancode) := by
  have hr := hinv.readIdx
  have hw := hinv.writeIdx
  -- the write index once it is wrapped
  obtain ⟨s₁, hs₁, hinv₁, hw₁⟩ : ∃ s₁ : KbdState,
      (if s.writeIdx = KEYBOARD_BUFSIZE then { s with writeIdx := 0 } else s) = s₁ ∧
        KbdInv sctrans s₁ ∧ s₁.writeIdx < KEYBOARD_BUFSIZE := by
    by_cases hwrap : s.writeIdx = KEYBOARD_BUFSIZE
    · have hpos : 0 < s.readIdx := Nat.pos_of_ne_zero (fun h => hclear ⟨hwrap, h⟩)
      refine ⟨{ s with writeIdx := 0 }, if_pos hwrap, ?_, Nat.zero_lt_succ _⟩
      refine { hinv with writeIdx := Nat.zero_le _, stored := ?_ }
      show _ = unread s.keyBuf s.readIdx 0
      rw [hinv.stored, unread_wrap_write hpos hr, hwrap]
    · exact ⟨s, if_neg hwrap, hinv, lt_of_le_of_ne hw hwrap⟩
  unfold KbdState.storeKey
  dsimp only
  rw [hs₁]
  split
  · rename_i hroom
    rcases hinv₁.record (e := .put scancode true) trivial with ⟨hvalid, hafter⟩
    refine ⟨hinv₁.readIdx, hw₁, hvalid, hafter.trans ?_⟩
    exact (unread_store hroom).symm
  · rename_i hfull
    have hidx : s₁.readIdx = s₁.writeIdx + 1 := (not_not.mp hfull).symm
    have hfits : LossyFifo.Event.Fits (KEYBOARD_BUFSIZE - 1) sctrans
        (unread s₁.keyBuf s₁.readIdx s₁.writeIdx) (.put scancode false) := by
      show KEYBOARD_BUFSIZE - 1 ≤ _
      rw [hidx, length_unread_succ hw₁]
    rcases hinv₁.record hfits with ⟨hvalid, hafter⟩
    exact ⟨hinv₁.readIdx, hinv₁.writeIdx, hvalid, hafter⟩

theorem KbdInv.takeKey (hne : s.readIdx ≠ s.writeIdx)
    (hclear : ¬(s.readIdx = KEYBOARD_BUFSIZE ∧ s.writeIdx = 0)) :
    KbdInv sctrans (s.takeKey sctrans).1 := by
  have hr := hinv.readIdx
  have hw := hinv.writeIdx
  -- the read index once it is wrapped
  obtain ⟨s₁, hs₁, hinv₁, hr₁, hne₁⟩ : ∃ s₁ : KbdState,
      (if s.readIdx = KEYBOARD_BUFSIZE then { s with readIdx := 0 } else s) = s₁ ∧
        KbdInv sctrans s₁ ∧ s₁.readIdx < KEYBOARD_BUFSIZE ∧ s₁.readIdx ≠ s₁.writeIdx := by
    by_cases hwrap : s.readIdx = KEYBOARD_BUFSIZE
    · refine ⟨{ s with readIdx := 0 }, if_pos hwrap, ?_, Nat.zero_lt_succ _, ?_⟩
      · refine { hinv with readIdx := Nat.zero_le _, stored := ?_ }
        show _ = unread s.keyBuf 0 s.writeIdx
        rw [hinv.stored, unread_wrap_read (by omega), hwrap]
      · exact fun h => hclear ⟨hwrap, h.symm⟩
    · exact ⟨s, if_neg hwrap, hinv, lt_of_le_of_ne hr hwrap, hne⟩
  unfold KbdState.takeKey
  rw [hs₁]
  have htake := unread_take s₁.keyBuf hr₁ hne₁
  have hfits : LossyFifo.Event.Fits (KEYBOARD_BUFSIZE - 1) sctrans
      (unread s₁.keyBuf s₁.readIdx s₁.writeIdx) (.took (sctrans (s₁.keyBuf s₁.readIdx))) :=
    ⟨_, _, htake, rfl⟩
  rcases hinv₁.record hfits with ⟨hvalid, hafter⟩
  refine ⟨hr₁, hinv₁.writeIdx, hvalid, hafter.trans ?_⟩
  show (unread s₁.keyBuf s₁.readIdx s₁.writeIdx).tail = _
  rw [htake]
  rfl

theorem KbdInv.schedulerTick (hop : s.schedulerTick = some s') : KbdInv sctrans s' := by
  rcases Option.map_eq_some_iff.mp hop with ⟨sched, -, rfl⟩
  exact hinv.of_sched _

end

theorem KbdInv.call {c : KbdCall} (hinv : KbdInv sctrans s) (hclear : s.Clear c)
    (hcall : s.call sctrans c = some s') : KbdInv sctrans s' := by
  cases c with
  | intr scancode =>
    rcases Option.bind_eq_some_iff.mp hcall with ⟨s₁, hintr, htick⟩
    refine KbdInv.schedulerTick ?_ htick
    unfold KbdState.pckbdIntr at hintr
    split at hintr
    · cases hintr
      exact hinv
    · split at hintr
      · cases hintr
        exact hinv
      · rename_i hpress
        rcases Option.map_eq_some_iff.mp hintr with ⟨r, -, rfl⟩
        exact (hinv.storeKey (hclear (Bool.not_eq_false _ ▸ hpress))).of_sched _
  | read =>
    rcases Option.map_eq_some_iff.mp hcall with ⟨⟨s₁, r⟩, hread, rfl⟩
    unfold KbdState.pckbdRead at hread
    split at hread
    · rename_i hempty
      rcases Option.bind_eq_some_iff.mp hread with ⟨sched₁, -, hread₁⟩
      rcases Option.bind_eq_some_iff.mp hread₁ with ⟨sched₂, -, hread₂⟩
      cases hread₂
      have hnil : unread s.keyBuf s.readIdx s.writeIdx = [] := by
        rw [hempty]
        exact unread_self
      rcases hinv.record (e := .foundEmpty) hnil with ⟨hvalid, hafter⟩
      exact ⟨hinv.readIdx, hinv.writeIdx, hvalid, hafter⟩
    · rename_i hne
      cases hread
      exact hinv.takeKey hne hclear
  | yield =>
    rcases Option.map_eq_some_iff.mp hcall with ⟨sched, -, rfl⟩
    exact hinv.of_sched sched
  | irq => exact hinv.schedulerTick hcall

end Steps

/-- When the keyboard buffer is a lossy FIFO queue.  In every run after
`pckbd_open` in which no press finds `write_idx` at the end and `read_idx` at the
start of the buffer, and no read finds them the other way round, a press is
dropped only when `KEYBOARD_BUFSIZE - 1` unread presses are stored, a read finds
the buffer empty only when it is, and the keys that the reads return are those
of a subsequence of the presses, in order. -/
theorem pckbdRun_lossyFifo {sctrans : UInt8 → UInt16} {s₀ s : KbdState} {calls : List KbdCall}
    (husers : s₀.users = 0) (hlog : s₀.log = [])
    (hclear : Meets (KbdState.call sctrans) KbdState.Clear s₀.pckbdOpen.1 calls)
    (hrun : run (KbdState.call sctrans) s₀.pckbdOpen.1 calls = some s) :
    LossyFifo.Valid (KEYBOARD_BUFSIZE - 1) sctrans [] s.log ∧
      ∃ xs : List UInt8, xs.Sublist (LossyFifo.puts s.log) ∧
        LossyFifo.takens s.log = xs.map sctrans := by
  have hopen : KbdInv sctrans s₀.pckbdOpen.1 := by
    unfold KbdState.pckbdOpen
    rw [if_neg (not_not.mpr husers)]
    refine ⟨Nat.zero_le _, Nat.zero_le _, ?_, ?_⟩
    · rw [hlog]
      exact trivial
    · rw [hlog]
      exact unread_self.symm
  have hinv := run_invariant_of_meets (KbdInv sctrans) (fun s a s' => KbdInv.call) hopen hclear hrun
  rcases hinv.valid.taken with ⟨xs, htakens, hxs⟩
  refine ⟨hinv.valid, xs, ?_, htakens⟩
  have hpre : xs.Sublist (LossyFifo.storeds s.log) := by
    rw [← List.nil_append (LossyFifo.storeds s.log), ← hxs]
    exact List.sublist_append_left xs _
  exact hpre.trans (LossyFifo.storeds_sublist s.log)

/-- The driver before it is opened, for runs on a fixed input. -/
def sampleKbd (sched : SchedState) : KbdState where
  keyBuf := fun _ => 0
  readIdx := 0
  writeIdx := 0
  users := 0
  sched := sched
  log := []

theorem pckbdRun_lossyFifo_two : ∃ s₀ s : KbdState, s₀.users = 0 ∧
      run (KbdState.call UInt8.toUInt16) s₀.pckbdOpen.1 [.intr 30, .intr 48, .read, .read] =
        some s ∧
      LossyFifo.takens s.log = [30, 48] ∧
      LossyFifo.Valid (KEYBOARD_BUFSIZE - 1) UInt8.toUInt16 [] s.log := by
  have hsome : (bootSched.bind (fun sched => run (KbdState.call UInt8.toUInt16)
      (sampleKbd sched).pckbdOpen.1 [.intr 30, .intr 48, .read, .read])).map
      (fun s => LossyFifo.takens s.log) = some [30, 48] := by
    decide +kernel
  have hclear : ∀ sched, bootSched = some sched →
      Meets (KbdState.call UInt8.toUInt16) KbdState.Clear (sampleKbd sched).pckbdOpen.1
        [.intr 30, .intr 48, .read, .read] := by
    have hall : bootSched.map (fun sched => decide (Meets (KbdState.call UInt8.toUInt16)
        KbdState.Clear (sampleKbd sched).pckbdOpen.1 [.intr 30, .intr 48, .read, .read])) =
        some true := by
      decide +kernel
    intro sched hsched
    rw [hsched] at hall
    exact of_decide_eq_true (Option.some.inj hall)
  rcases exists_bootRun hsome with ⟨sched, s, hsched, hrun, htakens⟩
  refine ⟨sampleKbd sched, s, rfl, hrun, htakens, ?_⟩
  exact (pckbdRun_lossyFifo rfl rfl (hclear sched hsched) hrun).1

/-- Ten presses, a read, an eleventh press, which is dropped, and ten reads: the
first key is returned twice. -/
theorem pckbd_returns_twice : ∃ s₀ s : KbdState, s₀.users = 0 ∧ s₀.log = [] ∧
      run (KbdState.call UInt8.toUInt16) s₀.pckbdOpen.1
        ([.intr 1, .intr 2, .intr 3, .intr 4, .intr 5, .intr 6, .intr 7, .intr 8, .intr 9,
          .intr 10, .read, .intr 11] ++ List.replicate 10 .read) = some s ∧
      LossyFifo.puts s.log = [1, 2, 3, 4, 5, 6, 7, 8, 9, 10, 11] ∧
      LossyFifo.takens s.log = [1, 2, 3, 4, 5, 6, 7, 8, 9, 10, 1] ∧
      ¬∃ xs : List UInt8, xs.Sublist (LossyFifo.puts s.log) ∧
        LossyFifo.takens s.log = xs.map UInt8.toUInt16 := by
  have hsome : (bootSched.bind (fun sched => run (KbdState.call UInt8.toUInt16)
      (sampleKbd sched).pckbdOpen.1
      ([.intr 1, .intr 2, .intr 3, .intr 4, .intr 5, .intr 6, .intr 7, .intr 8, .intr 9,
        .intr 10, .read, .intr 11] ++ List.replicate 10 .read))).map
      (fun s => (LossyFifo.puts s.log, LossyFifo.takens s.log)) =
      some ([1, 2, 3, 4, 5, 6, 7, 8, 9, 10, 11], [1, 2, 3, 4, 5, 6, 7, 8, 9, 10, 1]) := by
    decide +kernel
  rcases exists_bootRun hsome with ⟨sched, s, hsched, hrun, hlog⟩
  rcases Prod.mk.inj hlog with ⟨hputs, htakens⟩
  refine ⟨sampleKbd sched, s, rfl, rfl, hrun, hputs, htakens, ?_⟩
  rw [hputs, htakens]
  intro h
  rcases h with ⟨xs, hsub, hxs⟩
  have hcount := (hsub.map UInt8.toUInt16).count_le 1
  rw [← hxs] at hcount
  exact absurd hcount (by decide)

end Koowaldah
