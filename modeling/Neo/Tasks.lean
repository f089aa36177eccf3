import Mathlib.Data.Finset.Card
import Mathlib.Data.Finset.Image
import Neo.Lib.Run

/-! The tasks of the main process and of the process of an invariant. The parent forks a child,
inserts its pid into the tasks, and pauses while there are too many of them. Children exit at any
time, and the signal handler reaps them between any two steps of the parent. -/

namespace Neo

namespace Tasks

abbrev Pid := Nat

inductive Status
  | exited (rc : Nat)
  | signaled
deriving DecidableEq

def Status.failed : Status → Bool
  | exited rc => rc != 0
  | signaled => false

inductive Phase
  | forking
  | remaining
deriving DecidableEq

inductive Pc
  | fork
  | insert (pid : Pid)
  | test (phase : Phase)
  | pause (phase : Phase)
  | paused (phase : Phase)
  | done
deriving DecidableEq

/-- `run`, with its option, or `verify_invariant`. -/
inductive Caller
  | run (parallelInvs : Bool)
  | verifyInvariant
deriving DecidableEq

structure Config where
  caller : Caller
  allEcs : Bool
  maxJobs : Nat

structure State where
  pc : Pc
  left : Nat
  tasks : Finset Pid
  running : Finset Pid
  zombies : List (Pid × Status)
  pending : Bool
  violated : Bool
  terminate : Bool
deriving DecidableEq

namespace State

def children (s : State) : Finset Pid := s.running ∪ (s.zombies.map Prod.fst).toFinset

def init (left : Nat) : State where
  pc := .fork
  left := left
  tasks := ∅
  running := ∅
  zombies := []
  pending := false
  violated := false
  terminate := false

end State

variable (C : Config)

def forks (s : State) : Bool :=
  match C.caller with
  | .run _ => 0 < s.left
  | .verifyInvariant => (!s.violated || C.allEcs) && !s.terminate && 0 < s.left

def waits (tasks : Finset Pid) : Bool :=
  match C.caller with
  | .run parallelInvs => !parallelInvs && tasks ≠ ∅ || parallelInvs && C.maxJobs ≤ tasks.card
  | .verifyInvariant => C.maxJobs ≤ tasks.card

def afterLoop (s : State) : Pc :=
  match C.caller with
  | .run _ => if s.terminate then .test .remaining else .fork
  | .verifyInvariant => .fork

def parentStep (s : State) (pid : Pid) : Option State :=
  match s.pc with
  | .fork =>
    if forks C s then
      if pid ∈ s.children then none
      else some { s with
        pc := .insert pid
        left := s.left - 1
        running := insert pid s.running }
    else some { s with pc := .test .remaining }
  | .insert pid => some { s with pc := .test .forking, tasks := insert pid s.tasks }
  | .test .forking =>
    if waits C s.tasks && !s.terminate then some { s with pc := .pause .forking }
    else some { s with pc := afterLoop C s }
  | .test .remaining =>
    if s.tasks ≠ ∅ ∧ s.terminate = false then some { s with pc := .pause .remaining }
    else some { s with pc := .done }
  | .pause phase => some { s with pc := .paused phase }
  | .paused _ | .done => none

/-- `kill_all_tasks`: every child has exited and is reaped at the end. -/
def killAllTasks (s : State) : State :=
  { s with
    tasks := ∅
    running := ∅
    zombies := []
    pending := s.pending || s.running ≠ ∅ }

/-- The handler of `SIGCHLD`: the children that have exited are reaped. -/
def onSigchld (s : State) : State :=
  if s.zombies.any fun z => z.2.failed then { killAllTasks s with terminate := true }
  else { s with tasks := s.tasks \ (s.zombies.map Prod.fst).toFinset, zombies := [] }

/-- The handler of `SIGUSR1`, which tells of a violation. -/
def onSigusr1 (s : State) : State :=
  if C.allEcs then { s with violated := true } else { killAllTasks s with violated := true }

def resume (s : State) : State :=
  match s.pc with
  | .paused phase => { s with pc := .test phase }
  | _ => s

inductive Event
  | parent (pid : Pid)
  | exit (pid : Pid) (status : Status)
  | raise
  | sigchld
  | sigusr1
  | sigterm
deriving DecidableEq

def Event.handled : Event → Bool
  | sigchld | sigusr1 | sigterm => true
  | parent _ | exit _ _ | raise => false

def step (s : State) : Event → Option State
  | .parent pid => parentStep C s pid
  | .exit pid status =>
    -- a child that exits becomes a zombie, and the signal is pending
    if pid ∈ s.running then
      some { s with
        running := s.running.erase pid
        zombies := s.zombies ++ [(pid, status)]
        pending := true }
    else none
  | .raise => some { s with pending := true }
  | .sigchld => if s.pending then some (resume (onSigchld { s with pending := false })) else none
  | .sigusr1 => some (resume (onSigusr1 C s))
  | .sigterm => some (resume { killAllTasks s with terminate := true })

/-- The tasks are the children that are not reaped when a loop is tested and no signal is pending,
and one of them is running when the parent is blocked. -/
structure Kept (s : State) : Prop where
  test : ∀ phase, s.pc = .test phase → s.pending = false → s.tasks = s.children
  paused : ∀ phase, s.pc = .paused phase → s.pending = false → ∃ pid ∈ s.tasks, pid ∈ s.running

def Pc.settled : Pc → Bool
  | insert _ | pause _ => false
  | fork | test _ | paused _ | done => true

def Undisturbed (l : Link State Event) : Prop :=
  l.act.handled = true → l.before.pc.settled = true

instance (l : Link State Event) : Decidable (Undisturbed l) :=
  inferInstanceAs (Decidable (_ → _))

theorem Pc.settled_eq_true {pc : Pc} :
    pc.settled = true ↔ (∀ pid, pc ≠ .insert pid) ∧ ∀ phase, pc ≠ .pause phase := by
  cases pc <;> simp [settled]

/-- What holds between the steps: the tasks are the children, a child that is not inserted yet
apart; a child that has exited is announced; and the parent pauses only with tasks. -/
structure Consistent (s : State) : Prop where
  tasks : (∀ pid, s.pc ≠ .insert pid) → s.tasks = s.children
  inserting : ∀ pid, s.pc = .insert pid → pid ∈ s.children ∧ insert pid s.tasks = s.children
  disjoint : Disjoint s.running (s.zombies.map Prod.fst).toFinset
  announced : s.zombies ≠ [] → s.pending = true
  waiting : ∀ phase, s.pc = .pause phase ∨ s.pc = .paused phase → s.tasks ≠ ∅

namespace Consistent

variable {C : Config} {s s' : State}

theorem init (left : Nat) : Consistent (State.init left) where
  tasks _ := rfl
  inserting pid h := by cases h
  disjoint := by simp [State.init]
  announced h := absurd rfl h
  waiting phase h := by rcases h with h | h <;> cases h

theorem kept (h : Consistent s) : Kept s := by
  refine ⟨fun phase hpc _ => h.tasks fun pid hins => ?_, fun phase hpc hpending => ?_⟩
  · rw [hpc] at hins
    cases hins
  · have htasks := h.tasks fun pid hins => by
      rw [hpc] at hins
      cases hins
    have hnil : s.zombies = [] := by
      by_contra hne
      rw [h.announced hne] at hpending
      cases hpending
    obtain ⟨pid, hpid⟩ := Finset.nonempty_iff_ne_empty.mpr (h.waiting phase (.inr hpc))
    refine ⟨pid, hpid, ?_⟩
    rw [htasks, State.children, hnil] at hpid
    simpa using hpid

end Consistent

variable {C : Config} {s s' : State}

theorem nonempty_of_waits (hC : C.caller = .run false ∨ 0 < C.maxJobs) {tasks : Finset Pid}
    (h : waits C tasks = true) : tasks ≠ ∅ := by
  rintro rfl
  rw [waits] at h
  rcases hC with hcaller | hjobs
  · simp [hcaller] at h
  · split at h <;> simp at h <;> omega

theorem Consistent.move (h : Consistent s) (hs : ∀ pid, s.pc ≠ .insert pid) {pc : Pc}
    (hins : ∀ pid, pc ≠ .insert pid)
    (hwait : ∀ phase, pc = .pause phase ∨ pc = .paused phase → s.tasks ≠ ∅) :
    Consistent { s with pc := pc } where
  tasks _ := h.tasks hs
  inserting pid hpc := absurd hpc (hins pid)
  disjoint := h.disjoint
  announced := h.announced
  waiting := hwait

theorem Consistent.parent (hC : C.caller = .run false ∨ 0 < C.maxJobs) (h : Consistent s)
    {pid : Pid} (hstep : parentStep C s pid = some s') : Consistent s' := by
  rw [parentStep] at hstep
  split at hstep
  case h_1 hpc =>
    have hnot : ∀ pid, s.pc ≠ .insert pid := by simp [hpc]
    split at hstep
    · split at hstep
      · cases hstep
      · rename_i hnew
        obtain rfl := Option.some.inj hstep
        -- the child is forked, but not entered into the tasks yet
        have hchildren : insert pid s.children =
            insert pid s.running ∪ (s.zombies.map Prod.fst).toFinset := by
          rw [State.children, Finset.insert_union]
        refine ⟨fun hpc => absurd rfl (hpc pid), fun q hq => ?_, ?_, h.announced,
          fun phase hp => ?_⟩
        · obtain rfl := Pc.insert.inj hq
          refine ⟨Finset.mem_union_left _ (Finset.mem_insert_self ..), ?_⟩
          show insert pid s.tasks = insert pid s.running ∪ _
          rw [h.tasks hnot, hchildren]
        · refine Finset.disjoint_insert_left.mpr ⟨fun hmem => hnew ?_, h.disjoint⟩
          exact Finset.mem_union_right _ hmem
        · rcases hp with hp | hp <;> cases hp
    · obtain rfl := Option.some.inj hstep
      exact h.move hnot (by simp) (by simp)
  case h_2 q hpc =>
    obtain rfl := Option.some.inj hstep
    exact ⟨fun _ => (h.inserting q hpc).2, fun pid hp => (nomatch hp), h.disjoint, h.announced,
      fun phase hp => by rcases hp with hp | hp <;> cases hp⟩
  case h_3 hpc =>
    have hnot : ∀ pid, s.pc ≠ .insert pid := by simp [hpc]
    split at hstep
    · rename_i hwaits
      obtain rfl := Option.some.inj hstep
      refine h.move hnot (by simp) fun phase _ => nonempty_of_waits hC ?_
      simp only [Bool.and_eq_true] at hwaits
      exact hwaits.1
    · obtain rfl := Option.some.inj hstep
      refine h.move hnot (fun pid => ?_) fun phase => ?_
      · rw [afterLoop]
        split
        · split <;> simp
        · simp
      · rw [afterLoop]
        split
        · split <;> simp
        · simp
  case h_4 hpc =>
    have hnot : ∀ pid, s.pc ≠ .insert pid := by simp [hpc]
    split at hstep
    · rename_i htasks
      obtain rfl := Option.some.inj hstep
      exact h.move hnot (by simp) fun phase _ => htasks.1
    · obtain rfl := Option.some.inj hstep
      exact h.move hnot (by simp) (by simp)
  case h_5 phase hpc =>
    obtain rfl := Option.some.inj hstep
    exact h.move (by simp [hpc]) (by simp) fun _ _ => h.waiting phase (.inl hpc)
  case h_6 => cases hstep
  case h_7 => cases hstep

theorem Consistent.exit (h : Consistent s) {pid : Pid} {status : Status} (hpid : pid ∈ s.running) :
    Consistent { s with
      running := s.running.erase pid
      zombies := s.zombies ++ [(pid, status)]
      pending := true } := by
  have hzombies : ((s.zombies ++ [(pid, status)]).map Prod.fst).toFinset =
      insert pid (s.zombies.map Prod.fst).toFinset := by
    ext q
    simp
  have hchildren : s.running.erase pid ∪ ((s.zombies ++ [(pid, status)]).map Prod.fst).toFinset =
      s.children := by
    rw [hzombies, Finset.union_insert, ← Finset.insert_union, Finset.insert_erase hpid,
      State.children]
  refine ⟨fun hpc => (h.tasks hpc).trans hchildren.symm, fun q hq => ?_, ?_, fun _ => rfl,
    h.waiting⟩
  · obtain ⟨hmem, htasks⟩ := h.inserting q hq
    exact ⟨hchildren.symm.subset hmem, htasks.trans hchildren.symm⟩
  · show Disjoint (s.running.erase pid) ((s.zombies ++ [(pid, status)]).map Prod.fst).toFinset
    rw [hzombies, Finset.disjoint_insert_right]
    exact ⟨Finset.notMem_erase pid _, h.disjoint.mono_left (Finset.erase_subset ..)⟩

structure Handled (s s' : State) : Prop where
  pc : s'.pc = s.pc
  tasks : s'.tasks = s'.children
  disjoint : Disjoint s'.running (s'.zombies.map Prod.fst).toFinset
  announced : s'.zombies ≠ [] → s'.pending = true

theorem Handled.consistent (h : Handled s s') (hins : ∀ pid, s.pc ≠ .insert pid)
    (hpause : ∀ phase, s.pc ≠ .pause phase) : Consistent (resume s') := by
  rw [resume]
  split
  · exact ⟨fun _ => h.tasks, fun pid hp => (nomatch hp), h.disjoint, h.announced,
      fun phase hp => by rcases hp with hp | hp <;> cases hp⟩
  · rename_i hnot
    refine ⟨fun _ => h.tasks, fun pid hp => absurd (h.pc ▸ hp) (hins pid), h.disjoint, h.announced,
      fun phase hp => ?_⟩
    rcases hp with hp | hp
    · exact absurd (h.pc ▸ hp) (hpause phase)
    · exact absurd hp (hnot phase)

theorem handled_onSigchld (h : Consistent s) (hins : ∀ pid, s.pc ≠ .insert pid) :
    Handled s (onSigchld { s with pending := false }) := by
  rw [onSigchld]
  split
  · exact ⟨rfl, rfl, by simp [killAllTasks], fun h => absurd rfl h⟩
  · refine ⟨rfl, ?_, by simp, fun h => absurd rfl h⟩
    show s.tasks \ (s.zombies.map Prod.fst).toFinset = s.running ∪ ∅
    rw [h.tasks hins, State.children, Finset.union_sdiff_right, Finset.union_empty]
    exact Finset.sdiff_eq_self_of_disjoint h.disjoint

theorem Consistent.step (hC : C.caller = .run false ∨ 0 < C.maxJobs) {l : Link State Event}
    (hstep : step C l.before l.act = some l.after) (h : Consistent l.before)
    (hl : Undisturbed l) : Consistent l.after := by
  obtain ⟨s, e, s'⟩ := l
  simp only [Tasks.step] at hstep h hl ⊢
  cases e with
  | parent pid => exact h.parent hC hstep
  | exit pid status =>
    simp only at hstep
    split at hstep
    · rename_i hpid
      obtain rfl := Option.some.inj hstep
      exact h.exit hpid
    · cases hstep
  | raise =>
    obtain rfl := Option.some.inj hstep
    exact ⟨h.tasks, h.inserting, h.disjoint, fun _ => rfl, h.waiting⟩
  | sigchld =>
    obtain ⟨hins, hpause⟩ := Pc.settled_eq_true.mp (hl rfl)
    simp only at hstep
    split at hstep
    · obtain rfl := Option.some.inj hstep
      exact (handled_onSigchld h hins).consistent hins hpause
    · cases hstep
  | sigusr1 =>
    obtain ⟨hins, hpause⟩ := Pc.settled_eq_true.mp (hl rfl)
    obtain rfl := Option.some.inj hstep
    refine Handled.consistent (s := s) ?_ hins hpause
    rw [onSigusr1]
    split
    · exact ⟨rfl, h.tasks hins, h.disjoint, h.announced⟩
    · exact ⟨rfl, rfl, by simp [killAllTasks], fun hne => absurd rfl hne⟩
  | sigterm =>
    obtain ⟨hins, hpause⟩ := Pc.settled_eq_true.mp (hl rfl)
    obtain rfl := Option.some.inj hstep
    refine Handled.consistent (s := s) ?_ hins hpause
    exact ⟨rfl, rfl, by simp [killAllTasks], fun hne => absurd rfl hne⟩

/-- In a run in which no handler disturbs a fork or a pause, the tasks are the children that are
not reaped, and the parent is not blocked without one of them. -/
theorem run_kept (hC : C.caller = .run false ∨ 0 < C.maxJobs) {left : Nat} {t : State}
    {tr : List (Link State Event)} (hr : Run (step C) (State.init left) tr t)
    (hquiet : ∀ l ∈ tr, Undisturbed l) : Kept t ∧ ∀ l ∈ tr, Kept l.before ∧ Kept l.after := by
  obtain ⟨ht, hall⟩ := hr.invariant Consistent (Consistent.init left)
    fun l hl hstep h => h.step hC hstep (hquiet l hl)
  exact ⟨ht.kept, fun l hl => ⟨(hall l hl).1.kept, (hall l hl).2.kept⟩⟩

def oneTask : Config := ⟨.run false, false, 1⟩

def trace (C : Config) : State → List Event → Option (List (Link State Event) × State)
  | s, [] => some ([], s)
  | s, e :: es => do
    let s' ← step C s e
    let (tr, t) ← trace C s' es
    return (⟨s, e, s'⟩ :: tr, t)

theorem run_of_trace {C : Config} {s t : State} (es : List Event) {tr : List (Link State Event)}
    (h : trace C s es = some (tr, t)) : Run (step C) s tr t := by
  induction es generalizing s tr with
  | nil =>
    obtain ⟨rfl, rfl⟩ := Prod.mk.inj (Option.some.inj h)
    exact .nil s
  | cons e es ih =>
    obtain ⟨s', hs, h⟩ := Option.bind_eq_some_iff.mp h
    obtain ⟨⟨tr, t⟩, htr, h⟩ := Option.bind_eq_some_iff.mp h
    obtain ⟨rfl, rfl⟩ := Prod.mk.inj (Option.some.inj h)
    exact .cons hs (ih htr)

/-- The child exits, and is reaped, before its pid is inserted: the parent pauses for ever. -/
theorem not_kept_oneTask :
    ∃ tr t, Run (step oneTask) (State.init 1) tr t ∧ ¬Kept t ∧ t.pc = .paused .forking ∧
      t.pending = false ∧ t.children = ∅ := by
  refine ⟨_, { State.init 0 with pc := .paused .forking, tasks := {7} }, run_of_trace
    [.parent 7, .exit 7 (.exited 0), .sigchld, .parent 0, .parent 0, .parent 0] rfl,
    fun h => ?_, rfl, rfl, rfl⟩
  obtain ⟨pid, -, hpid⟩ := h.paused .forking rfl rfl
  exact absurd hpid (Finset.notMem_empty pid)

theorem run_kept_oneTask :
    ∃ tr t, Run (step oneTask) (State.init 1) tr t ∧ t.pc = .test .forking ∧ Kept t := by
  have hr := run_of_trace (C := oneTask) (s := State.init 1)
    [.parent 7, .parent 0, .parent 0, .parent 0, .exit 7 (.exited 0), .sigchld] rfl
  exact ⟨_, _, hr, rfl, (run_kept (C := oneTask) (.inl rfl) hr (by decide)).1⟩

end Tasks

end Neo
