import Koowaldah.Lib.Run

/-!
# The profiler

A model of `kernel/debug/profile.c`: the event log with `log_event`, `dump_events` and
`flush_events`, the triggers, and the state machine of `do_profile`.

`PROFBUF_MAX` and the table of triggers are parameters.  What the machine is for is said by
`Trace`, which has no buffer: an event is processed from a start trigger up to and
including a stop trigger, and the processed events are a list.

`profile_follows` says so for every sequence of events and flushes.

`dump_events` prints "enters" for the type 1, which is `PROF_EXIT` (`dumpLine`).
-/

namespace Koowaldah

open SysLib

/-- `PROF_ENTRY` and `PROF_EXIT`. -/
inductive ProfType where
  | entry
  | exit
deriving DecidableEq, Repr

def ProfType.toNat : ProfType → Nat
  | .entry => 0
  | .exit => 1

def PROF_DUMP : Nat := 1

def PROF_START : Nat := 2

def PROF_STOP : Nat := 4

structure ProfEvent where
  function : Nat
  callSite : Nat
  time : Nat
  type : ProfType
deriving DecidableEq, Repr

structure ProfTrigger where
  function : Nat
  flags : Nat
  type : ProfType
deriving DecidableEq, Repr

inductive ProfMode where
  | bootup
  | stopped
  | running
  | needflush
  | busy
deriving DecidableEq, Repr

structure DumpLine where
  time : Nat
  callSite : Nat
  enters : Bool
  function : Nat
deriving DecidableEq, Repr

def dumpLine (e : ProfEvent) : DumpLine := ⟨e.time, e.callSite, e.type.toNat == 1, e.function⟩

/-- The variables of the profiler, and the lines that were printed. -/
structure Profiler where
  events : Nat → ProfEvent
  top : Nat
  mode : ProfMode
  bootupFn : Nat
  dumped : List DumpLine

namespace Profiler

/-- `npkprintf`, of a line of the log.  The events of `kprintf` come in mode
`PROFILER_BUSY`. -/
def npkprintf (line : DumpLine) (s : Profiler) : Profiler :=
  let mode := s.mode
  let s := { s with mode := .busy }
  let s := { s with dumped := s.dumped ++ [line] }
  { s with mode := mode }

def dumpEvents (t : Nat) (s : Profiler) : Profiler :=
  (List.range t).foldl (fun s i => s.npkprintf (dumpLine (s.events i))) s

def flushEvents (s : Profiler) : Profiler :=
  { s.dumpEvents s.top with top := 0 }

/-- The first trigger for an event that has the flag, and the flush it asks for. -/
def trigger (triggers : List ProfTrigger) (flag : Nat) (e : ProfEvent) (s : Profiler) :
    Profiler × Bool :=
  match triggers.find? (fun t =>
    t.type = e.type ∧ t.function = e.function ∧ t.flags &&& flag ≠ 0) with
  | none => (s, false)
  | some t => (if t.flags &&& PROF_DUMP ≠ 0 then s.flushEvents else s, true)

def startTrigger (triggers : List ProfTrigger) (e : ProfEvent) (s : Profiler) : Profiler × Bool :=
  s.trigger triggers PROF_START e

def stopTrigger (triggers : List ProfTrigger) (e : ProfEvent) (s : Profiler) : Profiler × Bool :=
  s.trigger triggers PROF_STOP e

/-- `log_event`.  The time of the event is `NOW ()`. -/
def logEvent (max : Nat) (e : ProfEvent) (s : Profiler) : Profiler :=
  if s.top < max then
    let s := { s with events := Function.update s.events s.top e, top := s.top + 1 }
    if s.top = max then { s with mode := .needflush } else s
  else { s with mode := .needflush }

/-- The case `PROFILER_RUNNING` of `do_profile`. -/
def running (max : Nat) (triggers : List ProfTrigger) (e : ProfEvent) (s : Profiler) :
    Profiler :=
  let s := s.logEvent max e
  let s := if s.mode = .needflush then s.flushEvents else s
  let (s, stop) := s.stopTrigger triggers e
  if stop then { s with mode := .stopped } else s

/-- The case `PROFILER_STOPPED` of `do_profile`.  After a start trigger `mode` is checked
again. -/
def stopped (max : Nat) (triggers : List ProfTrigger) (e : ProfEvent) (s : Profiler) :
    Profiler :=
  let (s, start) := s.startTrigger triggers e
  if start then { s with mode := .running }.running max triggers e else s

/-- `do_profile`.  `machRunning` says that `mach_state` is `MACH_RUNNING`.  The number of
calls is printed when it is so for the first time; that line is left out. -/
def doProfile (max : Nat) (triggers : List ProfTrigger) (machRunning : Bool) (e : ProfEvent)
    (s : Profiler) : Profiler :=
  match s.mode with
  | .busy => s
  | .bootup =>
    if machRunning then { s with mode := .stopped }.stopped max triggers e
    else { s with bootupFn := s.bootupFn + if e.type = .entry then 1 else 0 }
  | .stopped => s.stopped max triggers e
  -- the case of a full log goes on with that of a running profiler
  | .needflush => s.flushEvents.running max triggers e
  | .running => s.running max triggers e

end Profiler

/-- What happens to the profiler: a function is entered or left, or the log is flushed. -/
inductive ProfCall where
  | event (machRunning : Bool) (e : ProfEvent)
  | flush
deriving DecidableEq, Repr

def Profiler.call (max : Nat) (triggers : List ProfTrigger) (s : Profiler) : ProfCall → Profiler
  | .event machRunning e => s.doProfile max triggers machRunning e
  | .flush => s.flushEvents

/-! ## What the profiler is for -/

def Triggers (triggers : List ProfTrigger) (flag : Nat) (e : ProfEvent) : Prop :=
  ∃ t ∈ triggers, t.type = e.type ∧ t.function = e.function ∧ t.flags &&& flag ≠ 0

instance (triggers : List ProfTrigger) (flag : Nat) (e : ProfEvent) :
    Decidable (Triggers triggers flag e) :=
  inferInstanceAs (Decidable (∃ t ∈ triggers, _))

/-- Whether events are processed. -/
inductive Tracing where
  | boot
  | off
  | on
deriving DecidableEq, Repr

structure Trace where
  tracing : Tracing
  processed : List ProfEvent

namespace Trace

def process (triggers : List ProfTrigger) (e : ProfEvent) (t : Trace) : Trace :=
  ⟨if Triggers triggers PROF_STOP e then .off else .on, t.processed ++ [e]⟩

/-- Process an event if it starts the profiler. -/
def start (triggers : List ProfTrigger) (e : ProfEvent) (t : Trace) : Trace :=
  if Triggers triggers PROF_START e then t.process triggers e else ⟨.off, t.processed⟩

/-- An event is processed from a start trigger up to and including a stop trigger, once
the machine is running. -/
def event (triggers : List ProfTrigger) (machRunning : Bool) (e : ProfEvent) (t : Trace) :
    Trace :=
  match t.tracing with
  | .boot => if machRunning then t.start triggers e else t
  | .off => t.start triggers e
  | .on => t.process triggers e

/-- A flush processes nothing. -/
def call (triggers : List ProfTrigger) (t : Trace) : ProfCall → Trace
  | .event machRunning e => t.event triggers machRunning e
  | .flush => t

end Trace

/-! ## The log -/

namespace Profiler

variable {t : Trace}

def pending (s : Profiler) : List ProfEvent := (List.range s.top).map s.events

/-- The events that were dumped and those in the buffer are the list. -/
def Logged (s : Profiler) (l : List ProfEvent) : Prop :=
  ∃ done, s.dumped = done.map dumpLine ∧ done ++ s.pending = l

variable {s : Profiler} {l : List ProfEvent} {max : Nat} {triggers : List ProfTrigger}

theorem dumpEvents_eq (t : Nat) (s : Profiler) : s.dumpEvents t =
      { s with dumped := s.dumped ++ ((List.range t).map s.events).map dumpLine } := by
  unfold dumpEvents
  induction t with
  | zero =>
    rw [List.range_zero, List.map_nil, List.map_nil, List.append_nil]
    rfl
  | succ t ih =>
    rw [List.range_succ, List.foldl_append, ih, List.map_append, List.map_append,
      ← List.append_assoc]
    rfl

theorem flushEvents_mode (s : Profiler) : s.flushEvents.mode = s.mode := by
  unfold flushEvents
  rw [dumpEvents_eq]

theorem Logged.flushEvents (h : s.Logged l) : s.flushEvents.Logged l := by
  rcases h with ⟨done, hdumped, hl⟩
  refine ⟨done ++ s.pending, ?_, ?_⟩
  · unfold Profiler.flushEvents
    rw [dumpEvents_eq, List.map_append, ← hdumped]
    rfl
  · rw [hl]
    exact List.append_nil l

theorem Logged.logEvent (h : s.Logged l) (htop : s.top < max) (e : ProfEvent) :
    (s.logEvent max e).Logged (l ++ [e]) := by
  have hstored : Logged { s with events := Function.update s.events s.top e, top := s.top + 1 }
      (l ++ [e]) := by
    rcases h with ⟨done, hdumped, hl⟩
    refine ⟨done, hdumped, ?_⟩
    have hold : (List.range s.top).map (Function.update s.events s.top e) = s.pending := by
      apply List.map_congr_left
      intro i hi
      exact Function.update_of_ne (Nat.ne_of_lt (List.mem_range.mp hi)) _ _
    unfold pending
    dsimp only
    rw [List.range_succ, List.map_append, hold, List.map_singleton, Function.update_self,
      ← List.append_assoc, hl]
  unfold Profiler.logEvent
  rw [if_pos htop]
  dsimp only
  split
  · exact hstored
  · exact hstored

theorem logEvent_mode (htop : s.top < max) (e : ProfEvent) :
    ((s.logEvent max e).mode = s.mode ∧ (s.logEvent max e).top < max) ∨
      (s.logEvent max e).mode = .needflush := by
  unfold logEvent
  rw [if_pos htop]
  dsimp only
  split
  · exact .inr rfl
  · exact .inl ⟨rfl, by dsimp only; omega⟩

theorem trigger_cases (s : Profiler) (triggers : List ProfTrigger) (flag : Nat) (e : ProfEvent) :
    ((s.trigger triggers flag e).1 = s ∨ (s.trigger triggers flag e).1 = s.flushEvents) ∧
      ((s.trigger triggers flag e).2 = true ↔ Triggers triggers flag e) := by
  unfold trigger
  split
  · rename_i hfind
    refine ⟨.inl rfl, ?_⟩
    constructor
    · nofun
    · intro h
      rcases h with ⟨t, ht, hmatch⟩
      exact absurd (decide_eq_true hmatch) (List.find?_eq_none.mp hfind t ht)
  · rename_i t hfind
    have hmatch := List.find?_some hfind
    constructor
    · split
      · exact .inr rfl
      · exact .inl rfl
    · exact iff_of_true rfl ⟨t, List.mem_of_find?_eq_some hfind, of_decide_eq_true hmatch⟩

/-! ## The machine -/

/-- The mode that goes with what is processed. -/
def ModeIs (mode : ProfMode) : Tracing → Prop
  | .boot => mode = .bootup
  | .off => mode = .stopped
  | .on => mode = .running ∨ mode = .needflush

/-- The profiler has logged what was processed, and there is room for another event. -/
structure Follows (max : Nat) (s : Profiler) (t : Trace) : Prop where
  mode : ModeIs s.mode t.tracing
  top_lt : s.top < max
  logged : s.Logged t.processed

theorem Follows.flushEvents (h : Follows max s t) (hmax : 1 ≤ max) :
    Follows max s.flushEvents t := by
  constructor
  case mode =>
    rw [flushEvents_mode]
    exact h.mode
  case top_lt => exact hmax
  case logged => exact h.logged.flushEvents

theorem running_follows (hmax : 1 ≤ max) (hmode : s.mode = .running ∨ s.mode = .needflush)
    (htop : s.top < max) (hlogged : s.Logged t.processed) (e : ProfEvent) :
    Follows max (s.running max triggers e) (t.process triggers e) := by
  -- the log has room again before the stop trigger is looked at
  have hroom : Follows max (if (s.logEvent max e).mode = .needflush then
      (s.logEvent max e).flushEvents else s.logEvent max e) ⟨.on, t.processed ++ [e]⟩ := by
    have hlog := hlogged.logEvent htop e
    split
    · rename_i hfull
      constructor
      case mode =>
        rw [flushEvents_mode]
        exact .inr hfull
      case top_lt => exact hmax
      case logged => exact hlog.flushEvents
    · rename_i hfull
      rcases logEvent_mode htop e with ⟨hsame, hlt⟩ | hneed
      · exact ⟨hsame ▸ hmode, hlt, hlog⟩
      · exact absurd hneed hfull
  unfold running
  dsimp only
  generalize hs₁ : (if (s.logEvent max e).mode = .needflush then
      (s.logEvent max e).flushEvents else s.logEvent max e) = s₁ at hroom
  rcases trigger_cases s₁ triggers PROF_STOP e with ⟨hflush, hstop⟩
  have hfollows : Follows max (s₁.trigger triggers PROF_STOP e).1 ⟨.on, t.processed ++ [e]⟩ := by
    rcases hflush with heq | heq
    · rw [heq]
      exact hroom
    · rw [heq]
      exact hroom.flushEvents hmax
  unfold stopTrigger Trace.process
  by_cases htrigger : Triggers triggers PROF_STOP e
  · rw [if_pos (hstop.mpr htrigger), if_pos htrigger]
    exact ⟨rfl, hfollows.top_lt, hfollows.logged⟩
  · rw [if_neg (fun h => htrigger (hstop.mp h)), if_neg htrigger]
    exact hfollows

theorem stopped_follows (hmax : 1 ≤ max) (hmode : s.mode = .stopped) (htop : s.top < max)
    (hlogged : s.Logged t.processed) (e : ProfEvent) :
    Follows max (s.stopped max triggers e) (t.start triggers e) := by
  rcases trigger_cases s triggers PROF_START e with ⟨hflush, hstart⟩
  have hoff : Follows max s ⟨.off, t.processed⟩ := ⟨hmode, htop, hlogged⟩
  have hfollows : Follows max (s.trigger triggers PROF_START e).1 ⟨.off, t.processed⟩ := by
    rcases hflush with heq | heq
    · rw [heq]
      exact hoff
    · rw [heq]
      exact hoff.flushEvents hmax
  unfold stopped startTrigger Trace.start
  dsimp only
  by_cases htrigger : Triggers triggers PROF_START e
  · rw [if_pos (hstart.mpr htrigger), if_pos htrigger]
    exact running_follows (s := { (s.trigger triggers PROF_START e).1 with mode := .running }) hmax
      (.inl rfl) hfollows.top_lt hfollows.logged e
  · rw [if_neg (fun h => htrigger (hstart.mp h)), if_neg htrigger]
    exact hfollows

theorem doProfile_follows (hmax : 1 ≤ max) (h : Follows max s t) (machRunning : Bool)
    (e : ProfEvent) :
    Follows max (s.doProfile max triggers machRunning e) (t.event triggers machRunning e) := by
  have hmode := h.mode
  unfold doProfile Trace.event
  cases htracing : t.tracing with
  | boot =>
    rw [htracing] at hmode
    rw [show s.mode = .bootup from hmode]
    dsimp only
    split
    · exact stopped_follows (s := { s with mode := .stopped }) hmax rfl h.top_lt h.logged e
    · exact ⟨by rw [htracing]; rfl, h.top_lt, h.logged⟩
  | off =>
    rw [htracing] at hmode
    rw [show s.mode = .stopped from hmode]
    exact stopped_follows hmax hmode h.top_lt h.logged e
  | on =>
    rw [htracing] at hmode
    rcases hmode with hmode | hmode
    · rw [hmode]
      exact running_follows hmax (.inl hmode) h.top_lt h.logged e
    · rw [hmode]
      have hflush := h.flushEvents hmax
      exact running_follows hmax (.inr ((flushEvents_mode s).trans hmode)) hflush.top_lt
        hflush.logged e

theorem call_follows (hmax : 1 ≤ max) (h : Follows max s t) (c : ProfCall) :
    Follows max (s.call max triggers c) (t.call triggers c) := by
  cases c with
  | event machRunning e => exact doProfile_follows hmax h machRunning e
  | flush => exact h.flushEvents hmax

theorem calls_follow (triggers : List ProfTrigger) (hmax : 1 ≤ max) (h : Follows max s t)
    (calls : List ProfCall) : Follows max (calls.foldl (Profiler.call max triggers) s)
      (calls.foldl (Trace.call triggers) t) := by
  induction calls generalizing s t with
  | nil => exact h
  | cons c calls ih => exact ih (call_follows hmax h c)

/-- The profiler at the start.  The buffer has anything in it. -/
def initial (events : Nat → ProfEvent) : Profiler := ⟨events, 0, .bootup, 0, []⟩

/-- The events that were dumped, and then those in the buffer, are the events that were
processed, and there is always room for another one. -/
theorem profile_follows (triggers : List ProfTrigger) {max : Nat} (hmax : 1 ≤ max)
    (events : Nat → ProfEvent) (calls : List ProfCall) :
    ∃ done, (calls.foldl (Profiler.call max triggers) (initial events)).dumped =
        done.map dumpLine ∧
      done ++ (calls.foldl (Profiler.call max triggers) (initial events)).pending =
        (calls.foldl (Trace.call triggers) ⟨.boot, []⟩).processed ∧
      (calls.foldl (Profiler.call max triggers) (initial events)).top < max := by
  have hstart : Follows max (initial events) ⟨.boot, []⟩ := ⟨rfl, hmax, [], rfl, rfl⟩
  have h := calls_follow triggers hmax hstart calls
  rcases h.logged with ⟨done, hdumped, hprocessed⟩
  exact ⟨done, hdumped, hprocessed, h.top_lt⟩

/-- A trigger that dumps and starts at the entry of function 1, and one that stops at its
exit. -/
def sampleTriggers : List ProfTrigger := [⟨1, 3, .entry⟩, ⟨1, 4, .exit⟩]

/-- Function 1 calls function 2, and function 3 is called afterwards. -/
def sampleCalls : List ProfCall :=
  [.event true ⟨1, 0, 0, .entry⟩, .event true ⟨2, 1, 0, .entry⟩, .event true ⟨1, 0, 1, .exit⟩,
    .event true ⟨3, 0, 2, .entry⟩]

theorem profile_sampleCalls : ∃ done : List ProfEvent, done.map (·.function) = [1, 2, 1] ∧
      (sampleCalls.foldl (Profiler.call 1 sampleTriggers)
        (initial (fun _ => ⟨0, 0, 0, .entry⟩))).dumped = done.map dumpLine := by
  rcases profile_follows sampleTriggers (Nat.le_refl 1) (fun _ => ⟨0, 0, 0, .entry⟩)
    sampleCalls with ⟨done, hdumped, hprocessed, -⟩
  refine ⟨done, ?_, hdumped⟩
  have hpending : (sampleCalls.foldl (Profiler.call 1 sampleTriggers)
      (initial (fun _ => ⟨0, 0, 0, .entry⟩))).pending = [] := by decide
  rw [hpending, List.append_nil] at hprocessed
  rw [hprocessed]
  decide

end Profiler

end Koowaldah
