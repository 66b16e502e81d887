import ConcreteEval.World

/-!
# The stop protocol

How the server thread and the application threads take turns, without their code. A
`View` has the shared world, the server's call with the `Stage` it has got to, and for
each application thread how far it is in raising an event (`Phase`). `View.Step` are the
moves : what each side may do to the world in each stage and phase.

`View.Ok` says what a stage means for the world, and every step keeps it (`Step.ok`) : the
application is suspended and `suspend_params` is set in every stage but those between the
resume and the suspension of an `executeUntilEvent`.
-/

namespace ConcreteEval

/-! ## Stages and phases -/

/-- Where the server thread is. -/
inductive Stage
  /-- Between calls, or in a call that is not in one of the stages below; whether the server
  has the mutex. -/
  | held (locked : Bool)
  /-- `executeUntilEvent` has set `stop_events`. -/
  | armed
  /-- `executeUntilEvent` has locked the mutex. -/
  | checking
  /-- `executeUntilEvent` has unlocked the mutex. -/
  | ready
  /-- `resume_application_threads` has cleared `stopped_context`. -/
  | clearing
  /-- `resume_application_threads` has cleared `stopped_block` too. -/
  | cleared
  /-- `resume_application_threads` has resumed the application. -/
  | resumed
  /-- At the wait for an event. -/
  | running
  /-- At the start of `suspend_application_threads`. -/
  | woken
  /-- `suspend_application_threads` has set `suspend_params`. -/
  | marked
  /-- The application is suspended; the event found in `stopped_context`, once it is read. -/
  | stopped (found : Option EventType)
  /-- The application is suspended, and `stopped_context` was found empty. -/
  | failed
  deriving DecidableEq

/-- The stage after locking the mutex. -/
def Stage.locks : Stage → Option Stage
  | .held _ => some (.held true)
  | .armed => some .checking
  | _ => none

/-- The stage after unlocking the mutex. -/
def Stage.unlocks : Stage → Option Stage
  | .held true => some (.held false)
  | .checking => some .ready
  | .failed => some .failed
  | _ => none

/-- The stage once the call has ended. -/
def Stage.rest : Stage → Stage
  | .held locked => .held locked
  | _ => .held false

/-- How far an application thread is in raising an event. -/
inductive Phase
  | quiet
  /-- About to look whether `stop_events` has the event `e`. -/
  | fired (e : EventType)
  /-- At the start of `suspend_helper`, having found `e` in the stop events `S`. -/
  | armed (e : EventType) (S : EventTypes)
  /-- In `suspend_helper`, before the context is taken. -/
  | begun (e : EventType)
  /-- In `suspend_helper`, before `stopped_context` is stored. -/
  | sampled (e : EventType)
  /-- In `suspend_helper`, before `stopped_block` is stored. -/
  | context (e : EventType)
  /-- In `suspend_helper`, before the signal. -/
  | recorded (e : EventType)
  deriving DecidableEq

/-- The event the thread is raising. -/
def Phase.event? : Phase → Option EventType
  | .quiet => none
  | .fired e | .armed e _ | .begun e | .sampled e | .context e | .recorded e => some e

/-- The phase after a look at the globals. -/
def Phase.look (g : Globals) : Phase → Phase
  | .fired e =>
    match g.stopEvents with
    | some S => if e ∈ S then .armed e S else .quiet
    | none => .quiet
  | p => p

/-! ## Actions and operations -/

/-- Whether the action leaves the world as it is. -/
def Op.isNeutral : Op → Bool
  | .drDelayFlushRegion => true
  | .drSleep _ => true
  | .drLookupModuleByName _ => true
  | .drLookupModule _ => true
  | .stringOfRange _ _ => true
  | .drMutexLock => false
  | .drMutexUnlock => false
  | .drEventSignal => false
  | .drEventWait => false
  | .drSuspendAllOtherThreads => false
  | .drResumeAllOtherThreads _ => false
  | .drGetCurrentDrcontext => false
  | .drGetMcontext _ => false
  | .read => false
  | .write _ => false

/-- The phase after an edit : a breakpoint that is erased there has been hit. -/
def Write.fires : Write → Phase
  | .eraseBreakpoint _ => .fired .breakpoint
  | _ => .quiet

/-- Whether the call edits the breakpoints. -/
def Operation.edits : Operation → Bool
  | .addBreakpoint _ | .delBreakpoint _ => true
  | _ => false

/-- The event a clean call can raise. -/
def Operation.event? : Operation → Option EventType
  | .cleanCall (.updateFastforwardCount _ _ _) => some .breakpoint
  | .cleanCall (.relevantBlockCleanCall _ _) => some .relevantBlock
  | _ => none

/-- The phase a clean call or callback starts in. -/
def Operation.phase : Operation → Phase
  | .cleanCall (.relevantBlockCleanCall _ _) => .fired .relevantBlock
  | _ => .quiet

/-- The error of `executeUntilEvent` after the suspension. -/
def unableToLocateContext : Halt :=
  .thrown (.exception "Unable to locate stopped context.".toList)

/-- What the operation can reply in the stage it ends in. -/
def Operation.Replies (op : Operation) (x : Prog.Ending Halt Result) (s : Stage) : Prop :=
  match op with
  | .serverThread => s = .stopped none
  | .executeUntilEvent _ =>
    (∃ e, x = .returned (.event e) ∧ s = .stopped (some e)) ∨
      x = .stopped unableToLocateContext ∧ s = .failed
  | _ => ∃ locked, s = .held locked

/-! ## Views -/

/-- The state of the protocol. -/
structure View where
  world : World
  /-- The operation of the server thread. -/
  call : Option Operation
  stage : Stage
  phase : ℕ → Phase

namespace View

/-- The start : the server thread is at its first suspension. -/
def boot (modules : List Module) : View where
  world := { modules := modules }
  call := some .serverThread
  stage := .woken
  phase _ := .quiet

/-- The thread `t` has done `o`, which left the world at `w` and the thread in the phase `p`. -/
def appDid (v : View) (t : ℕ) (o : Op) (w : World) (p : Phase) : View :=
  { v with world := w.note (.did (.app t) o), phase := Function.update v.phase t p }

/-- The server has done `o`, which left the world at `w` and the server in the stage `s`. -/
def serverDid (v : View) (o : Op) (w : World) (s : Stage) : View :=
  { v with world := w.note (.did .server o), stage := s }

/-- The world after an assignment. -/
def writes (v : View) (x : Write) : World :=
  { v.world with globals := x.apply v.world.globals }

@[simp] theorem writes_log (v : View) (x : Write) : (v.writes x).log = v.world.log :=
  rfl

@[simp] theorem writes_globals (v : View) (x : Write) :
    (v.writes x).globals = x.apply v.world.globals :=
  rfl

/-- What the server does with an action, with the world and the stage after it. -/
inductive ServerStep (v : View) : Op → World → Stage → Prop
  | neutral {o : Op} (ho : o.isNeutral = true) : ServerStep v o v.world v.stage
  | read (hs : v.stage ≠ .stopped none) : ServerStep v .read v.world v.stage
  | lock {s : Stage} (hs : v.stage.locks = some s) (hm : v.world.mutex = none) :
    ServerStep v .drMutexLock { v.world with mutex := some .server } s
  | unlock {s : Stage} (hs : v.stage.unlocks = some s) :
    ServerStep v .drMutexUnlock { v.world with mutex := none } s
  | edit {op : Operation} {x : Write} (hc : v.call = some op) (hop : op.edits = true)
    (hs : v.stage = .held true) (hx : x.edits = true) :
    ServerStep v (.write x) (v.writes x) v.stage
  -- `executeUntilEvent`, stage by stage.
  | setEvents {S : EventTypes} {locked : Bool} (hc : v.call = some (.executeUntilEvent S))
    (hs : v.stage = .held locked) :
    ServerStep v (.write (.stopEvents S)) (v.writes (.stopEvents S)) .armed
  | clearContext (hs : v.stage = .ready) :
    ServerStep v (.write (.stoppedContext none)) (v.writes (.stoppedContext none)) .clearing
  | clearBlock (hs : v.stage = .clearing) :
    ServerStep v (.write (.stoppedBlock none)) (v.writes (.stoppedBlock none)) .cleared
  | resume {params : SuspendParams} (hs : v.stage = .cleared) :
    ServerStep v (.drResumeAllOtherThreads params) { v.world with suspended := false } .resumed
  | clearParams (hs : v.stage = .resumed) :
    ServerStep v (.write (.suspendParams none)) (v.writes (.suspendParams none)) .running
  | wait (hs : v.stage = .running) (he : v.world.event = true) :
    ServerStep v .drEventWait { v.world with event := false } .woken
  | setParams {params : SuspendParams} (hs : v.stage = .woken) :
    ServerStep v (.write (.suspendParams (some params)))
      (v.writes (.suspendParams (some params))) .marked
  | suspend {params : SuspendParams} (hs : v.stage = .marked) :
    ServerStep v .drSuspendAllOtherThreads
      { v.writes (.suspendParams (some params)) with suspended := true } (.stopped none)
  | found {S : EventTypes} {e : EventType} {mc : Mcontext}
    (hc : v.call = some (.executeUntilEvent S)) (hs : v.stage = .stopped none)
    (he : v.world.globals.stoppedContext = some (e, mc)) :
    ServerStep v .read v.world (.stopped (some e))
  | notFound {S : EventTypes} (hc : v.call = some (.executeUntilEvent S))
    (hs : v.stage = .stopped none) (he : v.world.globals.stoppedContext = none) :
    ServerStep v .read v.world .failed

/-- What the application thread `t` does with an action, with the world and the phase after
it. -/
inductive AppStep (v : View) (t : ℕ) : Op → World → Phase → Prop
  | neutral {o : Op} (hp : v.phase t = .quiet) (ho : o.isNeutral = true) :
    AppStep v t o v.world .quiet
  | read : AppStep v t .read v.world ((v.phase t).look v.world.globals)
  | lock (hp : v.phase t = .quiet) (hm : v.world.mutex = none) :
    AppStep v t .drMutexLock { v.world with mutex := some (.app t) } .quiet
  | unlock (hp : v.phase t = .quiet) :
    AppStep v t .drMutexUnlock { v.world with mutex := none } .quiet
  | edit {x : Write} (hp : v.phase t = .quiet) (hx : x.edits = true) :
    AppStep v t (.write x) (v.writes x) x.fires
  -- `suspend_helper`, phase by phase.
  | begin {e : EventType} {S : EventTypes} (hp : v.phase t = .armed e S) :
    AppStep v t .drGetCurrentDrcontext v.world (.begun e)
  | sample {e : EventType} {flags : BitVec 32} (hp : v.phase t = .begun e) :
    AppStep v t (.drGetMcontext flags) v.world (.sampled e)
  | storeContext {e : EventType} {mc : Mcontext} (hp : v.phase t = .sampled e) :
    AppStep v t (.write (.stoppedContext (some (e, mc))))
      (v.writes (.stoppedContext (some (e, mc)))) (.context e)
  | storeBlock {e : EventType} {block : AppPc × AppPc} (hp : v.phase t = .context e) :
    AppStep v t (.write (.stoppedBlock (some block))) (v.writes (.stoppedBlock (some block)))
      (.recorded e)
  | signal {e : EventType} (hp : v.phase t = .recorded e) :
    AppStep v t .drEventSignal { v.world with event := true } .quiet

/-- The moves, with the action done and who did it. -/
inductive Step (v : View) : Option (Actor × Op) → View → Prop
  | call {op : Operation} (hc : v.call = none) (hop : op.isCall = true) :
    Step v none { v with world := v.world.note (.started .server op), call := some op }
  | reply {op : Operation} {x : Prog.Ending Halt Result} (hc : v.call = some op)
    (hx : op.Replies x v.stage) :
    Step v none
      { v with
        world := v.world.note (.ended .server op x), call := none, stage := v.stage.rest }
  | server {o : Op} {w : World} {s : Stage} (h : v.ServerStep o w s) :
    Step v (some (.server, o)) (v.serverDid o w s)
  | enter {t : ℕ} {op : Operation} (hw : v.world.suspended = false)
    (hop : op.isCallback = true) (hp : v.phase t = .quiet) :
    Step v none
      { v with
        world := (v.world.enter op).note (.started (.app t) op)
        phase := Function.update v.phase t op.phase }
  | leave {t : ℕ} (op : Operation) (x : Prog.Ending Halt Result) (hp : v.phase t = .quiet) :
    Step v none { v with world := v.world.note (.ended (.app t) op x) }
  | app {t : ℕ} {o : Op} {w : World} {p : Phase} (hw : v.world.suspended = false)
    (h : v.AppStep t o w p) : Step v (some (.app t, o)) (v.appDid t o w p)
  | unload {modules : List Module} :
    Step v none { v with world := { v.world with modules := modules } }

theorem ServerStep.log {v : View} {o : Op} {w : World} {s : Stage} (h : v.ServerStep o w s) :
    w.log = v.world.log := by
  cases h <;> rfl

theorem AppStep.log {v : View} {t : ℕ} {o : Op} {w : World} {p : Phase}
    (h : v.AppStep t o w p) : w.log = v.world.log := by
  cases h <;> rfl

/-- What is logged is what was done, if anything was. -/
theorem Step.log {v v' : View} {x : Option (Actor × Op)} (h : v.Step x v') :
    match x with
    | some (a, o) => v'.world.log = .did a o :: v.world.log
    | none => v'.world.log = v.world.log ∨
        ∃ y, v'.world.log = y :: v.world.log ∧ ∀ a o, y ≠ .did a o := by
  cases h with
  | call | reply | leave => exact Or.inr ⟨_, rfl, nofun⟩
  | server h => simp [serverDid, h.log]
  | @enter t op hw hop hp => exact Or.inr ⟨.started (.app t) op, by simp, nofun⟩
  | app hw h => simp [appDid, h.log]
  | unload => exact Or.inl rfl

end View

/-- `P` held of every mark of the log, with the log before it. -/
def Throughout (P : Mark → List Mark → Prop) (l : List Mark) : Prop :=
  ∀ newer x older, l = newer ++ x :: older → P x older

theorem throughout_nil (P : Mark → List Mark → Prop) : Throughout P [] := by
  intro newer x older hl
  simp at hl

/-- A step keeps what holds of every mark if it holds of the mark it makes. -/
theorem View.Step.throughout {P : Mark → List Mark → Prop} {v v' : View}
    {x : Option (Actor × Op)} (h : v.Step x v') (hv : Throughout P v.world.log)
    (hnew : ∀ y, v'.world.log = y :: v.world.log → P y v.world.log) :
    Throughout P v'.world.log := by
  have hl : v'.world.log = v.world.log ∨ ∃ y, v'.world.log = y :: v.world.log := by
    have hlog := h.log
    cases x with
    | none => exact hlog.imp_right fun ⟨y, hy, _⟩ => ⟨y, hy⟩
    | some x => exact Or.inr ⟨_, hlog⟩
  rcases hl with hl | ⟨y, hl⟩
  · rwa [hl]
  · intro newer z older hz
    cases newer with
    | nil =>
      obtain ⟨rfl, rfl⟩ := List.cons.inj (hl.symm.trans hz)
      exact hnew _ hl
    | cons y' newer =>
      obtain ⟨-, hz⟩ := List.cons.inj (hl.symm.trans hz)
      exact hv newer z older hz

/-! ## What a stage means -/

/-- The application is not suspended. -/
def Stage.Awake (s : Stage) : Prop :=
  s = .resumed ∨ s = .running ∨ s = .woken ∨ s = .marked

theorem Stage.awake_iff {s : Stage} :
    s.Awake ↔ s = .resumed ∨ s = .running ∨ s = .woken ∨ s = .marked :=
  Iff.rfl

/-- Between the resume and the suspension. -/
def Stage.NoParams (s : Stage) : Prop :=
  s = .running ∨ s = .woken

/-- The server has the mutex. -/
def Stage.Locked (s : Stage) : Prop :=
  s = .held true ∨ s = .checking

/-- The stages of a call other than `executeUntilEvent`. -/
def Stage.Held (s : Stage) : Prop :=
  ∃ locked, s = .held locked

/-- Whether the server can be in the stage during the call, or between calls. -/
def Stage.Of (s : Stage) : Option Operation → Prop
  | some .serverThread => s = .woken ∨ s = .marked ∨ s = .stopped none
  | some (.executeUntilEvent _) => True
  | _ => s.Held

theorem Stage.locks_eq_some {s s' : Stage} (h : s.locks = some s') :
    s.Held ∧ s' = .held true ∨ s = .armed ∧ s' = .checking := by
  cases s <;> simp_all [locks, Held]

theorem Stage.unlocks_eq_some {s s' : Stage} (h : s.unlocks = some s') :
    s = .held true ∧ s' = .held false ∨ s = .checking ∧ s' = .ready ∨
      s = .failed ∧ s' = .failed := by
  cases s with
  | held locked => cases locked <;> simp_all [unlocks]
  | _ => simp_all [unlocks]

theorem Stage.Held.of {s : Stage} (h : s.Held) {op : Operation} (hop : op.isCall = true) :
    s.Of (some op) := by
  cases op with
  | serverThread => cases hop
  | executeUntilEvent S => trivial
  | _ => exact h

theorem Stage.NoParams.awake {s : Stage} (h : s.NoParams) : s.Awake := by
  rcases h with rfl | rfl <;> simp [awake_iff]

theorem Stage.Held.not_awake {s : Stage} (h : s.Held) : ¬s.Awake := by
  obtain ⟨locked, rfl⟩ := h
  simp [awake_iff]

theorem Operation.Replies.cases {op : Operation} {x : Prog.Ending Halt Result} {s : Stage}
    (h : op.Replies x s) : s.Held ∨ (∃ found, s = .stopped found) ∨ s = .failed := by
  cases op with
  | serverThread => exact Or.inr (Or.inl ⟨_, h⟩)
  | executeUntilEvent S =>
    rcases h with ⟨e, -, hs⟩ | ⟨-, hs⟩
    · exact Or.inr (Or.inl ⟨_, hs⟩)
    · exact Or.inr (Or.inr hs)
  | _ => exact Or.inl h

theorem Operation.Replies.not_awake {op : Operation} {x : Prog.Ending Halt Result} {s : Stage}
    (h : op.Replies x s) : ¬s.Awake := by
  rcases h.cases with h | ⟨found, rfl⟩ | rfl
  · exact h.not_awake
  all_goals simp [Stage.awake_iff]

theorem Stage.locked_of_rest {s : Stage} (h : s.rest.Locked) : s.Locked := by
  cases s <;> simp_all [rest, Locked]

theorem Stage.Of.of_held {s s' : Stage} {c : Option Operation} (hc : s.Of c) (h : s.Held)
    (h' : s'.Held) : s'.Of c := by
  obtain ⟨locked, rfl⟩ := h
  match c with
  | none => exact h'
  | some .serverThread => simp [Of] at hc
  | some (.executeUntilEvent S) => trivial
  | some (.addBreakpoint _) | some (.delBreakpoint _) | some .getBreakpoints
  | some .getCodeBlock | some .getContext | some (.cleanCall _)
  | some (.eventModuleLoaded _) | some (.eventBasicBlock _) => exact h'

theorem Stage.held_rest (s : Stage) : s.rest.Held := by
  cases s <;> exact ⟨_, rfl⟩

namespace View

/-- The world is as the stage says. -/
structure Ok (v : View) : Prop where
  suspended : v.world.suspended = false ↔ v.stage.Awake
  params : v.world.globals.suspendParams = none ↔ v.stage.NoParams
  mutex : v.stage.Locked → v.world.mutex = some .server
  found : ∀ e, v.stage = .stopped (some e) →
    ∃ mc, v.world.globals.stoppedContext = some (e, mc)
  failed : v.stage = .failed → v.world.globals.stoppedContext = none
  call : v.stage.Of v.call
  events : ∀ S, v.call = some (.executeUntilEvent S) → v.stage.Held ∨
    v.world.globals.stopEvents = some S

theorem ok_boot (modules : List Module) : (boot modules).Ok where
  suspended := by simp [boot, Stage.awake_iff]
  params := by simp [boot, Stage.NoParams]
  mutex h := by simp [boot, Stage.Locked] at h
  found e h := by cases h
  failed h := by cases h
  call := Or.inl rfl
  events S h := by cases h

variable {v v' : View} {a : Option (Actor × Op)}

/-- What an application thread does keeps the meaning of the stage, as long as it keeps the
globals that are the server's. -/
theorem Ok.app (hv : v.Ok) (hw : v.world.suspended = false) {w : World} {phase : ℕ → Phase}
    (hs : w.suspended = v.world.suspended)
    (hp : w.globals.suspendParams = v.world.globals.suspendParams)
    (hse : w.globals.stopEvents = v.world.globals.stopEvents) :
    Ok { v with world := w, phase := phase } := by
  have hst := hv.suspended.mp hw
  exact {
    suspended := by simpa [hs] using hv.suspended
    params := by simpa [hp] using hv.params
    mutex := by rcases hst with h | h | h | h <;> simp [h, Stage.Locked]
    found := by rcases hst with h | h | h | h <;> simp [h]
    failed := by rcases hst with h | h | h | h <;> simp [h]
    call := hv.call
    events := by simpa [hse] using hv.events }

/-- A change of the world that the stage says nothing about. -/
theorem Ok.server (hv : v.Ok) {w : World} (hs : w.suspended = v.world.suspended)
    (hp : w.globals.suspendParams = v.world.globals.suspendParams)
    (hm : w.mutex = v.world.mutex)
    (hc : w.globals.stoppedContext = v.world.globals.stoppedContext)
    (hse : w.globals.stopEvents = v.world.globals.stopEvents) :
    Ok { v with world := w } where
  suspended := by simpa [hs] using hv.suspended
  params := by simpa [hp] using hv.params
  mutex := by simpa [hm] using hv.mutex
  found := by simpa [hc] using hv.found
  failed := by simpa [hc] using hv.failed
  call := hv.call
  events := by simpa [hse] using hv.events

/-- A step of the server while the application is suspended. -/
theorem Ok.asleep (hv : v.Ok) (hst : ¬v.stage.Awake) {w : World} {call : Option Operation}
    {s : Stage} (hst' : ¬s.Awake) (hs : w.suspended = v.world.suspended)
    (hp : w.globals.suspendParams = v.world.globals.suspendParams)
    (hm : s.Locked → w.mutex = some .server)
    (hfound : ∀ e, s = .stopped (some e) → ∃ mc, w.globals.stoppedContext = some (e, mc))
    (hfailed : s = .failed → w.globals.stoppedContext = none) (hcall : s.Of call)
    (hevents : ∀ S, call = some (.executeUntilEvent S) → s.Held ∨
      w.globals.stopEvents = some S) :
    Ok { v with world := w, call := call, stage := s } where
  suspended := by simpa [hs, hst, hst'] using hv.suspended
  params := by
    have hp₀ : v.world.globals.suspendParams ≠ none := fun h => hst (hv.params.mp h).awake
    simpa [hp, hp₀] using fun h : s.NoParams => hst' h.awake
  mutex := hm
  found := hfound
  failed := hfailed
  call := hcall
  events := hevents

/-- Only the start and `executeUntilEvent` leave the held stages. -/
theorem Ok.cases_call (hv : v.Ok) (hh : ¬v.stage.Held) :
    v.call = some .serverThread ∨
      ∃ S, v.call = some (.executeUntilEvent S) ∧ v.world.globals.stopEvents = some S := by
  have hc := hv.call
  cases hop : v.call with
  | none => exact absurd (by simpa [hop, Stage.Of] using hc) hh
  | some op =>
    rw [hop] at hc
    cases op with
    | serverThread => exact Or.inl rfl
    | executeUntilEvent S => exact Or.inr ⟨S, rfl, (hv.events S hop).resolve_left hh⟩
    | _ => exact absurd hc hh

/-- The start has its own stages only. -/
theorem Ok.exec (hv : v.Ok) (hh : ¬v.stage.Held)
    (h : ¬(v.stage = .woken ∨ v.stage = .marked ∨ v.stage = .stopped none)) :
    ∃ S, v.call = some (.executeUntilEvent S) ∧ v.world.globals.stopEvents = some S := by
  refine (hv.cases_call hh).resolve_left fun hc => h ?_
  simpa [hc, Stage.Of] using hv.call

theorem ServerStep.ok {o : Op} {w : World} {s : Stage} (h : v.ServerStep o w s) (hv : v.Ok) :
    (v.serverDid o w s).Ok := by
  cases h with
  | neutral ho => exact hv.server rfl rfl rfl rfl rfl
  | read hs => exact hv.server rfl rfl rfl rfl rfl
  | lock hs hm =>
    rcases Stage.locks_eq_some hs with ⟨hst, rfl⟩ | ⟨hst, rfl⟩
    · refine hv.asleep hst.not_awake ?_ rfl rfl (fun _ => rfl) ?_ ?_
        (hv.call.of_held hst ⟨_, rfl⟩) ?_
      all_goals simp [Stage.awake_iff, Stage.Held]
    · obtain ⟨S, hc, hS⟩ := hv.exec (by simp [hst, Stage.Held]) (by simp [hst])
      refine hv.asleep (by simp [hst, Stage.awake_iff]) ?_ rfl rfl (fun _ => rfl) ?_ ?_ ?_ ?_
      all_goals simp [hc, hS, Stage.awake_iff, Stage.Of]
  | unlock hs =>
    rcases Stage.unlocks_eq_some hs with ⟨hst, rfl⟩ | ⟨hst, rfl⟩ | ⟨hst, rfl⟩
    · have hst' : v.stage.Held := ⟨_, hst⟩
      refine hv.asleep hst'.not_awake ?_ rfl rfl ?_ ?_ ?_ (hv.call.of_held hst' ⟨_, rfl⟩) ?_
      all_goals simp [Stage.awake_iff, Stage.Locked, Stage.Held]
    · obtain ⟨S, hc, hS⟩ := hv.exec (by simp [hst, Stage.Held]) (by simp [hst])
      refine hv.asleep (by simp [hst, Stage.awake_iff]) ?_ rfl rfl ?_ ?_ ?_ ?_ ?_
      all_goals simp [hc, hS, Stage.awake_iff, Stage.Locked, Stage.Of]
    · obtain ⟨S, hc, hS⟩ := hv.exec (by simp [hst, Stage.Held]) (by simp [hst])
      refine hv.asleep (by simp [hst, Stage.awake_iff]) ?_ rfl rfl ?_ ?_
        (fun _ => hv.failed hst) ?_ ?_
      all_goals simp [hc, hS, Stage.awake_iff, Stage.Locked, Stage.Of]
  | edit hc hop hs hx =>
    exact hv.server rfl (Write.suspendParams_of_edits hx _) rfl
      (Write.stoppedContext_of_edits hx _) (Write.stopEvents_of_edits hx _)
  | setEvents hc hs =>
    refine hv.asleep (by simp [hs, Stage.awake_iff]) ?_ rfl rfl ?_ ?_ ?_ ?_ ?_
    all_goals simp [hc, Stage.awake_iff, Stage.Locked, Stage.Of, Write.apply]
  | clearContext hs =>
    obtain ⟨S, hc, hS⟩ := hv.exec (by simp [hs, Stage.Held]) (by simp [hs])
    refine hv.asleep (by simp [hs, Stage.awake_iff]) ?_ rfl rfl ?_ ?_ ?_ ?_ ?_
    all_goals simp [hc, hS, Stage.awake_iff, Stage.Locked, Stage.Of, Write.apply]
  | clearBlock hs =>
    obtain ⟨S, hc, hS⟩ := hv.exec (by simp [hs, Stage.Held]) (by simp [hs])
    refine hv.asleep (by simp [hs, Stage.awake_iff]) ?_ rfl rfl ?_ ?_ ?_ ?_ ?_
    all_goals simp [hc, hS, Stage.awake_iff, Stage.Locked, Stage.Of, Write.apply]
  | resume hs =>
    obtain ⟨S, hc, hS⟩ := hv.exec (by simp [hs, Stage.Held]) (by simp [hs])
    have hp := hv.params
    constructor <;> simp_all [serverDid, Stage.awake_iff, Stage.NoParams, Stage.Locked, Stage.Of]
  | clearParams hs =>
    obtain ⟨S, hc, hS⟩ := hv.exec (by simp [hs, Stage.Held]) (by simp [hs])
    have hw := hv.suspended
    constructor <;>
      simp_all [serverDid, writes, Write.apply, Stage.awake_iff, Stage.NoParams, Stage.Locked,
        Stage.Of]
  | wait hs he =>
    obtain ⟨S, hc, hS⟩ := hv.exec (by simp [hs, Stage.Held]) (by simp [hs])
    have hw := hv.suspended
    have hp := hv.params
    constructor <;> simp_all [serverDid, Stage.awake_iff, Stage.NoParams, Stage.Locked, Stage.Of]
  | setParams hs =>
    have hw := hv.suspended
    rcases hv.cases_call (by simp [hs, Stage.Held]) with hc | ⟨S, hc, hS⟩ <;> constructor <;>
      simp_all [serverDid, writes, Write.apply, Stage.awake_iff, Stage.NoParams, Stage.Locked,
        Stage.Of]
  | suspend hs =>
    rcases hv.cases_call (by simp [hs, Stage.Held]) with hc | ⟨S, hc, hS⟩ <;> constructor <;>
      simp_all [serverDid, writes, Write.apply, Stage.awake_iff, Stage.NoParams, Stage.Locked,
        Stage.Of]
  | found hc hs he =>
    have hS := (hv.events _ hc).resolve_left (by simp [hs, Stage.Held])
    refine hv.asleep (by simp [hs, Stage.awake_iff]) ?_ rfl rfl ?_ ?_ ?_ ?_ ?_
    all_goals simp [hc, hS, he, Stage.awake_iff, Stage.Locked, Stage.Of]
  | notFound hc hs he =>
    have hS := (hv.events _ hc).resolve_left (by simp [hs, Stage.Held])
    refine hv.asleep (by simp [hs, Stage.awake_iff]) ?_ rfl rfl ?_ ?_ ?_ ?_ ?_
    all_goals simp [hc, hS, he, Stage.awake_iff, Stage.Locked, Stage.Of]

/-- An application thread does not assign to the globals that are the server's. -/
theorem AppStep.frame {t : ℕ} {o : Op} {w : World} {p : Phase} (h : v.AppStep t o w p) :
    w.suspended = v.world.suspended ∧
      w.globals.suspendParams = v.world.globals.suspendParams ∧
      w.globals.stopEvents = v.world.globals.stopEvents := by
  cases h with
  | edit hp hx =>
    exact ⟨rfl, Write.suspendParams_of_edits hx _, Write.stopEvents_of_edits hx _⟩
  | _ => exact ⟨rfl, rfl, rfl⟩

/-- Every step keeps the meaning of the stages. -/
theorem Step.ok (h : v.Step a v') (hv : v.Ok) : v'.Ok := by
  cases h with
  | call hc hop =>
    have hst : v.stage.Held := by simpa [Stage.Of, hc] using hv.call
    exact { hv with call := hst.of hop, events := fun _ _ => Or.inl hst }
  | reply hc hx =>
    obtain ⟨locked, hst⟩ := Stage.held_rest v.stage
    refine hv.asleep hx.not_awake (Stage.held_rest _).not_awake rfl rfl
      (fun h => hv.mutex (Stage.locked_of_rest h)) ?_ ?_ (Stage.held_rest _) ?_
    all_goals simp [hst]
  | server h => exact h.ok hv
  | enter hw hop hp => exact hv.app hw (by simp) (by simp) (by simp)
  | leave op x hp => exact hv.server rfl rfl rfl rfl rfl
  | app hw h =>
    obtain ⟨hs, hp, hse⟩ := h.frame
    exact hv.app hw hs hp hse
  | unload => exact hv.server rfl rfl rfl rfl rfl

end View

end ConcreteEval
