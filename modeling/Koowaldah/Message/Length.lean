import Koowaldah.Message.Delivery

/-!
# The length that `msg_retrieve` is given

`msg_retrieve` tests `len` against zero and does not look at it again.  What it
copies to `*buf`, and what it returns, is the `m_len` of the message it found.  So the copy
keeps to `len` exactly when that message does (`retrieve_withinLen_iff`).
-/

namespace Koowaldah

open SysLib

namespace MsgState

/-- The part of `msg_retrieve` that a step runs: from its start, or from its yield
on. -/
def retrieveStep (s : MsgState) (c : MsgCall) : Option (MsgState × Option Int) :=
  match s.pc s.sched.current, c with
  | .user, .retrieve sender buf len flags => s.msgRetrieve sender buf len flags
  | .retrieve sender buf len flags msg, .resume => s.retrieveScan sender buf len flags msg
  | _, _ => none

/-- The sender, `*buf` and `len` of a step of `msg_retrieve`, when it accepts
them. -/
def acceptedArgs (s : MsgState) (c : MsgCall) : Option (Nat × Nat × Nat) :=
  match s.pc s.sched.current, c with
  | .user, .retrieve sender buf len _ =>
    if sender = 0 ∨ len = 0 ∨ buf = 0 then none else some (sender, buf, len)
  | .retrieve sender buf len _ _, .resume => some (sender, buf, len)
  | _, _ => none

/-- The `memory_copy` for the message that the loop over the mailbox finds. -/
def scanCopy (s : MsgState) (sender buf : Nat) (msg : Option Message) : Option Copy :=
  ((scan sender msg (s.mbox s.sched.current)).filter (fun m => m.mSender = sender)).map
    (fun m => ⟨buf, m.mBuf, m.mLen⟩)

/-- The `memory_copy` of a step of `msg_retrieve`, if it gets that far. -/
def retrieveCopy (s : MsgState) (c : MsgCall) : Option Copy :=
  match s.pc s.sched.current, c with
  | .user, .retrieve sender buf len _ =>
    if sender = 0 ∨ len = 0 ∨ buf = 0 then none
    else if (s.mbox s.sched.current).isEmpty then none
    else s.scanCopy sender buf none
  | .retrieve sender buf _ _ msg, .resume => s.scanCopy sender buf msg
  | _, _ => none

/-- The first message of a sender in the mailbox of the current thread. -/
def firstFrom (s : MsgState) (sender : Nat) : Option Message :=
  (s.mbox s.sched.current).find? (fun m => m.mSender = sender)

/-- A step of `msg_retrieve` stores at most `len` bytes, and when it returns, it
returns how many, or an error when it has stored none. -/
structure WithinLen (s : MsgState) (c : MsgCall) (len : Nat) (r : Option Int) : Prop where
  stored : ∀ cp ∈ s.retrieveCopy c, cp.n ≤ len
  value : ∀ cp ∈ s.retrieveCopy c, r = some (cp.n : Int)
  error : s.retrieveCopy c = none → ∀ n ∈ r, n < 0

end MsgState

section Length

variable {s s' : MsgState} {c : MsgCall} {sender buf len flags : Nat} {msg : Option Message}
  {r : Option Int}

theorem acceptedArgs_cases (hargs : s.acceptedArgs c = some (sender, buf, len)) :
    (∃ flags, s.pc s.sched.current = .user ∧ c = .retrieve sender buf len flags ∧
      ¬(sender = 0 ∨ len = 0 ∨ buf = 0)) ∨
    ∃ flags msg, s.pc s.sched.current = .retrieve sender buf len flags msg ∧ c = .resume := by
  unfold MsgState.acceptedArgs at hargs
  split at hargs
  · rename_i sender' buf' len' flags hpc
    obtain ⟨hok, heq⟩ := Option.ite_none_left_eq_some.mp hargs
    cases heq
    exact Or.inl ⟨flags, hpc, rfl, hok⟩
  · rename_i sender' buf' len' flags msg hpc
    cases hargs
    exact Or.inr ⟨flags, msg, hpc, rfl⟩
  · cases hargs

theorem retrieveSleep_copy (hop : s.retrieveSleep sender buf len flags msg = some (s', r)) :
    s'.mem = s.mem ∧ ∀ n ∈ r, n < 0 := by
  unfold MsgState.retrieveSleep at hop
  split at hop
  · obtain ⟨sched₁, -, hop₁⟩ := Option.bind_eq_some_iff.mp hop
    obtain ⟨sched₂, -, heq⟩ := Option.bind_eq_some_iff.mp hop₁
    cases heq
    exact ⟨rfl, nofun⟩
  · cases hop
    refine ⟨rfl, ?_⟩
    intro n hn
    cases hn
    decide

theorem releaseBuf_mem {m : Message} (hop : s.releaseBuf m = some s') : s'.mem = s.mem := by
  unfold MsgState.releaseBuf at hop
  split at hop
  · rw [← Option.some.inj hop]
  · obtain ⟨pg, a, zone, -, -, -, -, hmem, -⟩ := releasePage_eq_some hop
    exact hmem

theorem retrieveTake_copy {m : Message} {n : Int} (hop : s.retrieveTake buf m = some (s', n)) :
    memoryCopyVia (s.translate s.sched.current) s.mem buf m.mBuf m.mLen = some s'.mem ∧
      n = m.mLen := by
  obtain ⟨mem, hcopy, hop₁⟩ := Option.bind_eq_some_iff.mp hop
  obtain ⟨s₁, hrel, hop₂⟩ := Option.bind_eq_some_iff.mp hop₁
  obtain ⟨sched, -, heq⟩ := Option.bind_eq_some_iff.mp hop₂
  cases heq
  refine ⟨?_, rfl⟩
  show _ = some s₁.mem
  rw [releaseBuf_mem hrel, hcopy]

theorem retrieveScan_copy (hop : s.retrieveScan sender buf len flags msg = some (s', r)) :
    match s.scanCopy sender buf msg with
    | none => s'.mem = s.mem ∧ ∀ n ∈ r, n < 0
    | some cp => cp.dst = buf ∧ r = some (cp.n : Int) ∧
      memoryCopyVia (s.translate s.sched.current) s.mem cp.dst cp.src cp.n = some s'.mem := by
  obtain ⟨m, hscan, hop₁⟩ := Option.bind_eq_some_iff.mp hop
  unfold MsgState.scanCopy
  rw [hscan]
  split at hop₁
  · rename_i hne
    simp only [Option.filter_some, hne, decide_false, Bool.false_eq_true, if_false,
      Option.map_none]
    exact retrieveSleep_copy hop₁
  · rename_i heq
    rw [not_not] at heq
    simp only [Option.filter_some, heq, decide_true, if_true, Option.map_some, true_and]
    obtain ⟨⟨s₁, n⟩, htake, hvals⟩ := Option.map_eq_some_iff.mp hop₁
    cases hvals
    obtain ⟨hmem, rfl⟩ := retrieveTake_copy htake
    exact ⟨rfl, hmem⟩

theorem retrieveStep_copy (hargs : s.acceptedArgs c = some (sender, buf, len))
    (hop : s.retrieveStep c = some (s', r)) :
    match s.retrieveCopy c with
    | none => s'.mem = s.mem ∧ ∀ n ∈ r, n < 0
    | some cp => cp.dst = buf ∧ r = some (cp.n : Int) ∧
      memoryCopyVia (s.translate s.sched.current) s.mem cp.dst cp.src cp.n = some s'.mem := by
  rcases acceptedArgs_cases hargs with ⟨flags, hpc, rfl, hok⟩ | ⟨flags, msg, hpc, rfl⟩
  · simp only [MsgState.retrieveStep, hpc, MsgState.msgRetrieve, if_neg hok] at hop
    simp only [MsgState.retrieveCopy, hpc, if_neg hok]
    split at hop
    · rename_i hempty
      rw [if_pos hempty]
      exact retrieveSleep_copy hop
    · rename_i hempty
      rw [if_neg hempty]
      exact retrieveScan_copy hop
  · simp only [MsgState.retrieveStep, hpc] at hop
    simp only [MsgState.retrieveCopy, hpc]
    exact retrieveScan_copy hop

/-- The loop over a mailbox with a message in it finds the first of the sender, or
one of another. -/
theorem scan_filter {l : List Message} (hne : l ≠ []) :
    (MsgState.scan sender msg l).filter (fun m => m.mSender = sender) =
      l.find? (fun m => m.mSender = sender) := by
  induction l generalizing msg with
  | nil => exact absurd rfl hne
  | cons m l ih =>
    unfold MsgState.scan
    by_cases hm : m.mSender = sender
    · simp [hm]
    · rw [if_neg hm, List.find?_cons_of_neg (by simpa using hm)]
      cases l with
      | nil => simp [MsgState.scan, hm]
      | cons m' l => exact ih (List.cons_ne_nil m' l)

theorem retrieveCopy_eq_find (hargs : s.acceptedArgs c = some (sender, buf, len))
    (hmail : s.pc s.sched.current ≠ .user → s.mbox s.sched.current ≠ []) :
    s.retrieveCopy c = (s.firstFrom sender).map (fun m => ⟨buf, m.mBuf, m.mLen⟩) := by
  unfold MsgState.firstFrom
  rcases acceptedArgs_cases hargs with ⟨flags, hpc, rfl, hok⟩ | ⟨flags, msg, hpc, rfl⟩
  · simp only [MsgState.retrieveCopy, hpc, if_neg hok]
    split
    · rename_i hempty
      simp [List.isEmpty_iff.mp hempty]
    · rename_i hempty
      rw [MsgState.scanCopy, scan_filter (by simpa using hempty)]
  · simp only [MsgState.retrieveCopy, hpc]
    rw [MsgState.scanCopy, scan_filter (hmail (by simp [hpc]))]

end Length

/-- When `msg_retrieve` keeps to the length it is given.  In every state that calls
reach, and for every step of `msg_retrieve` from there, it stores no more than
`len` bytes and returns how many exactly when the first message of the sender in
the mailbox, if there is one, is no longer than `len`. -/
theorem retrieve_withinLen_iff {s₀ s s' : MsgState} {calls : List MsgCall} {c : MsgCall}
    {sender buf len : Nat} {r : Option Int} (hboot : Booted s₀)
    (hrun : run MsgState.call s₀ calls = some s)
    (hargs : s.acceptedArgs c = some (sender, buf, len)) (hop : s.retrieveStep c = some (s', r)) :
    s.WithinLen c len r ↔ ∀ m, s.firstFrom sender = some m → m.mLen ≤ len := by
  obtain ⟨qs, hinv⟩ := msgRun_inv hboot hrun
  have hcopy := retrieveStep_copy hargs hop
  have hfind := retrieveCopy_eq_find hargs hinv.has_mail
  constructor
  · intro hwithin m hm
    exact hwithin.stored ⟨buf, m.mBuf, m.mLen⟩ (by simp [hfind, hm])
  · intro hle
    cases hfirst : s.firstFrom sender with
    | none =>
      rw [hfirst] at hfind
      rw [hfind] at hcopy
      exact ⟨by simp [hfind], by simp [hfind], fun _ => hcopy.2⟩
    | some m =>
      rw [hfirst] at hfind
      rw [hfind] at hcopy
      refine ⟨?_, ?_, by simp [hfind]⟩
      · simpa [hfind] using hle m hfirst
      · simpa [hfind] using hcopy.2.1

theorem retrieve_withinLen_three : ∃ s₀ s s',
    Booted s₀ ∧ run MsgState.call s₀ [.send 2 200001 3 0 (some 0) true] = some s ∧
      s.retrieveStep (.retrieve 1 300000 3 0) = some (s', some 3) ∧
      s.WithinLen (.retrieve 1 300000 3 0) 3 (some 3) := by
  have hsome : (bootSched.bind (fun sched => (run MsgState.call (bootState sched)
      [.send 2 200001 3 0 (some 0) true]).bind (fun s =>
      (s.retrieveStep (.retrieve 1 300000 3 0)).map (fun r =>
      (r.2, s.acceptedArgs (.retrieve 1 300000 3 0), (s.firstFrom 1).map Message.mLen))))) =
      some (some 3, some (1, 300000, 3), some 3) := by
    decide +kernel
  obtain ⟨sched, hsched, hsome₁⟩ := Option.bind_eq_some_iff.mp hsome
  obtain ⟨s, hrun, hsome₂⟩ := Option.bind_eq_some_iff.mp hsome₁
  obtain ⟨⟨s', r⟩, hop, hvals⟩ := Option.map_eq_some_iff.mp hsome₂
  simp only [Prod.mk.injEq] at hvals
  obtain ⟨rfl, hargs, hfirst⟩ := hvals
  have hboot := bootState_booted hsched
  refine ⟨bootState sched, s, s', hboot, hrun, hop, ?_⟩
  refine (retrieve_withinLen_iff hboot hrun hargs hop).mpr ?_
  intro m hm
  rw [hm, Option.map_some, Option.some.injEq] at hfirst
  omega

/-- Thread 1 sends thread 2 three bytes.  Thread 2 retrieves them with `len` 1: all
three are stored at `*buf`, the last one over the byte 226 that was there, and the
value is 3. -/
theorem retrieve_overruns_len : ∃ s₀ s s',
    Booted s₀ ∧ run MsgState.call s₀ [.send 2 200001 3 0 (some 0) true] = some s ∧
      s.retrieveStep (.retrieve 1 300000 1 0) = some (s', some 3) ∧
      s.mem 300002 = 226 ∧ s'.mem 300002 = 67 := by
  have hsome : (bootSched.bind (fun sched => (run MsgState.call (bootState sched)
      [.send 2 200001 3 0 (some 0) true]).bind (fun s =>
      (s.retrieveStep (.retrieve 1 300000 1 0)).map (fun r =>
      (r.2, s.mem 300002, r.1.mem 300002))))) = some (some 3, 226, 67) := by
    decide +kernel
  obtain ⟨sched, hsched, hsome₁⟩ := Option.bind_eq_some_iff.mp hsome
  obtain ⟨s, hrun, hsome₂⟩ := Option.bind_eq_some_iff.mp hsome₁
  obtain ⟨⟨s', r⟩, hop, hvals⟩ := Option.map_eq_some_iff.mp hsome₂
  simp only [Prod.mk.injEq] at hvals
  obtain ⟨rfl, hbefore, hafter⟩ := hvals
  exact ⟨bootState sched, s, s', bootState_booted hsched, hrun, hop, hbefore, hafter⟩

end Koowaldah
