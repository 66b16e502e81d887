import ConcreteEval.Protocol
import ConcreteEval.Machine

/-!
# The client keeps to the protocol

The disciplines of the two sides, and that every operation of the client follows the one of
its side (`follows_call`, `follows_serverThread`, `follows_callback`). Hence the machine
moves along the protocol : `Machine.Tracks` relates a machine to a view, and every step of
the machine is a step of the view (`Tracks.step`), so that what the steps of the views keep
holds of every machine reached (`ReachedBy.view`).

Under `NDEBUG` the resume is not evaluated; the server follows the protocol in a build with
`assert`.
-/

namespace ConcreteEval

/-! ## The server -/

/-- The stage after an assignment. -/
def Stage.wrote (s : Stage) : Write → Stage
  | .stopEvents _ => .armed
  | .stoppedContext _ => .clearing
  | .stoppedBlock _ => .cleared
  | .suspendParams none => .running
  | .suspendParams (some _) => .marked
  | _ => s

theorem Stage.wrote_of_edits {s : Stage} {x : Write} (hx : x.edits = true) : s.wrote x = s := by
  cases x with
  | suspendParams v => cases hx
  | stopEvents v => cases hx
  | stoppedContext v => cases hx
  | stoppedBlock v => cases hx
  | _ => rfl

/-- The stage after a look at the globals. -/
def Stage.look (s : Stage) (g : Globals) : Stage :=
  if s = .stopped none then
    match g.stoppedContext with
    | some c => .stopped (some c.1)
    | none => .failed
  else s

/-- What the server may do in a stage of the operation `op`. -/
inductive ServerAllows (op : Operation) (s : Stage) : Op → Prop
  | neutral {o : Op} (ho : o.isNeutral = true) : ServerAllows op s o
  | read (h : s = .stopped none → ∃ S, op = .executeUntilEvent S) : ServerAllows op s .read
  | lock {s' : Stage} (hs : s.locks = some s') : ServerAllows op s .drMutexLock
  | unlock {s' : Stage} (hs : s.unlocks = some s') : ServerAllows op s .drMutexUnlock
  | edit {x : Write} (hop : op.edits = true) (hs : s = .held true) (hx : x.edits = true) :
    ServerAllows op s (.write x)
  | setEvents {S : EventTypes} {locked : Bool} (hop : op = .executeUntilEvent S)
    (hs : s = .held locked) : ServerAllows op s (.write (.stopEvents S))
  | clearContext (hs : s = .ready) : ServerAllows op s (.write (.stoppedContext none))
  | clearBlock (hs : s = .clearing) : ServerAllows op s (.write (.stoppedBlock none))
  | resume {params : SuspendParams} (hs : s = .cleared) :
    ServerAllows op s (.drResumeAllOtherThreads params)
  | clearParams (hs : s = .resumed) : ServerAllows op s (.write (.suspendParams none))
  | wait (hs : s = .running) : ServerAllows op s .drEventWait
  | setParams {params : SuspendParams} (hs : s = .woken) :
    ServerAllows op s (.write (.suspendParams (some params)))
  | suspend (hs : s = .marked) : ServerAllows op s .drSuspendAllOtherThreads

/-- The replies the server can get. -/
def serverAdmits (s : Stage) : (o : Op) → o.Reply → Prop
  | .read, g => g.suspendParams = none ↔ s.NoParams
  | .drDelayFlushRegion, r => r = true
  | .drResumeAllOtherThreads _, r => r = true
  | .drSuspendAllOtherThreads, r => r = true
  | _, _ => True

/-- The stage after a reply. -/
def serverNext (s : Stage) : (o : Op) → o.Reply → Stage
  | .drMutexLock, _ => s.locks.getD s
  | .drMutexUnlock, _ => s.unlocks.getD s
  | .write x, _ => s.wrote x
  | .read, g => s.look g
  | .drEventWait, _ => .woken
  | .drSuspendAllOtherThreads, _ => .stopped none
  | .drResumeAllOtherThreads _, _ => .resumed
  | _, _ => s

/-- The discipline of the server in the operation `op`. -/
def serverDiscipline (op : Operation) : Discipline drApi Stage :=
  ⟨ServerAllows op, serverAdmits, serverNext⟩

/-- The server keeps to the discipline of `op`, and ends as `op` can. -/
def ServerFollows (op : Operation) : Dr Result → Stage → Prop :=
  Prog.Follows (serverDiscipline op) (fun r s => op.Replies (.returned r) s)
    fun h s => (∃ e, h = .thrown e) ∧ op.Replies (.stopped h) s

section Server

variable {op : Operation} {α : Type} {ok : α → Stage → Prop} {ko : Halt → Stage → Prop} {s : Stage}

/-- Raising without the mutex. -/
theorem server_raise (hko : ∀ msg, ko (.thrown (.exception msg)) s) (msg : CxxString)
    (ok : Unit → Stage → Prop) :
    (assertHelper false msg false).Follows (serverDiscipline op) ok ko s :=
  hko msg

/-- Raising with the mutex. -/
theorem server_raise_unlock (hko : ∀ msg, ko (.thrown (.exception msg)) (.held false))
    (msg : CxxString) (ok : Unit → Stage → Prop) :
    (assertHelper false msg true).Follows (serverDiscipline op) ok ko (.held true) :=
  ⟨.unlock rfl, fun _ _ => hko msg⟩

theorem server_resolve {a : AbsOrRelAddr} (hko : ∀ msg, ko (.thrown (.exception msg)) s) :
    (absOrRelAddrToAbsAddr a false).Follows (serverDiscipline op) (fun _ s' => s' = s) ko s :=
  follows_absOrRelAddrToAbsAddr (fun _ => ⟨.neutral rfl, fun _ => rfl⟩) (server_raise hko)

theorem follows_addBreakpoint (hop : op.edits = true)
    (hko : ∀ msg locked, ko (.thrown (.exception msg)) (.held locked)) (bp : WireBreakpoint)
    (locked : Bool) :
    (addBreakpoint bp).Follows (serverDiscipline op) (fun _ s => s = .held false) ko
      (.held locked) := by
  refine (server_resolve fun msg => hko msg _).bind ?_
  rintro addr _ rfl
  refine .step (.lock rfl) fun _ _ => ?_
  have hraise : ∀ msg ok, (assertHelper false msg true).Follows (serverDiscipline op) ok ko
      (.held true) := server_raise_unlock fun msg => hko msg false
  cases addr with
  | some addr =>
    refine .step (.read nofun) fun g _ => Prog.follows_bind.mpr ?_
    refine follows_assertHelper (fun _ => ?_) fun _ => hraise _ _
    exact .step (.edit hop rfl rfl) fun _ _ => .step (.unlock rfl) fun _ _ => rfl
  | none =>
    refine Prog.follows_bind.mpr (follows_assertHelper (fun _ => ?_) fun _ => hraise _ _)
    refine .step (.read nofun) fun g _ => Prog.follows_bind.mpr ?_
    refine follows_assertHelper (fun _ => ?_) fun _ => hraise _ _
    exact .step (.edit hop rfl rfl) fun _ _ => .step (.unlock rfl) fun _ _ => rfl

theorem follows_totalFlush {b : Build} {ok : Unit → Stage → Prop} (hok : ok () s) :
    (totalFlush b).Follows (serverDiscipline op) ok ko s := by
  cases b with
  | debug => exact follows_cassert ⟨.neutral rfl, fun r hr => ⟨hr, hok⟩⟩
  | ndebug => exact hok

theorem follows_delBreakpoint (hop : op.edits = true)
    (hko : ∀ msg locked, ko (.thrown (.exception msg)) (.held locked)) (b : Build)
    (bp : WireBreakpoint) (locked : Bool) :
    (delBreakpoint b bp).Follows (serverDiscipline op) (fun _ s => s = .held false) ko
      (.held locked) := by
  refine (server_resolve fun msg => hko msg _).bind ?_
  rintro addr _ rfl
  refine .step (.lock rfl) fun _ _ => ?_
  have hraise : ∀ msg ok, (assertHelper false msg true).Follows (serverDiscipline op) ok ko
      (.held true) := server_raise_unlock fun msg => hko msg false
  cases addr with
  | some addr =>
    refine .step (.read nofun) fun g _ => Prog.follows_bind.mpr ?_
    refine follows_assertHelper (fun _ => ?_) fun _ => hraise _ _
    refine .step (.edit hop rfl rfl) fun _ _ => Prog.follows_bind.mpr (follows_totalFlush ?_)
    exact .step (.unlock rfl) fun _ _ => rfl
  | none =>
    refine Prog.follows_bind.mpr (follows_assertHelper (fun _ => ?_) fun _ => hraise _ _)
    refine .step (.read nofun) fun g _ => Prog.follows_bind.mpr ?_
    refine follows_assertHelper (fun _ => ?_) fun _ => hraise _ _
    exact .step (.edit hop rfl rfl) fun _ _ => .step (.unlock rfl) fun _ _ => rfl

theorem follows_getBreakpoints (locked : Bool) :
    getBreakpoints.Follows (serverDiscipline op) (fun _ s => s = .held false) ko
      (.held locked) :=
  .step (.lock rfl) fun _ _ => .step (.read nofun) fun _ _ => .step (.unlock rfl) fun _ _ => rfl

theorem follows_getCodeBlock (hko : ∀ e locked, ko (.thrown e) (.held locked)) (locked : Bool) :
    getCodeBlock.Follows (serverDiscipline op) (fun _ s => s = .held false) ko
      (.held locked) := by
  refine .step (.lock rfl) fun _ _ => .step (.read nofun) fun g _ => Prog.follows_bind.mpr ?_
  refine follows_assertHelper (fun hb => ?_) fun _ => server_raise_unlock (fun _ => hko _ _) _ _
  obtain ⟨block, hb⟩ := Option.isSome_iff_exists.mp hb
  rw [hb]
  refine .step (.neutral rfl) fun bytes _ => ?_
  cases bytes with
  | none => exact hko _ _
  | some bytes =>
    exact .step (.unlock rfl) fun _ _ => .step (.neutral rfl) fun _ _ => rfl

theorem follows_getContext (hko : ∀ e locked, ko (.thrown e) (.held locked)) (locked : Bool) :
    getContext.Follows (serverDiscipline op) (fun _ s => s = .held false) ko
      (.held locked) := by
  refine .step (.lock rfl) fun _ _ => .step (.read nofun) fun g _ => Prog.follows_bind.mpr ?_
  refine follows_assertHelper (fun hc => ?_) fun _ => server_raise_unlock (fun _ => hko _ _) _ _
  obtain ⟨c, hc⟩ := Option.isSome_iff_exists.mp hc
  rw [hc]
  exact .step (.unlock rfl) fun _ _ => rfl

/-! ### `executeUntilEvent` -/

/-- What the server sees of `suspend_params` where it is set. -/
theorem exists_suspendParams {g : Globals} (h : g.suspendParams = none ↔ s.NoParams)
    (hs : ¬s.NoParams) : ∃ params, g.suspendParams = some params :=
  Option.ne_none_iff_exists'.mp (mt h.mp hs)

theorem follows_resumeApplicationThreads :
    (resumeApplicationThreads .debug).Follows (serverDiscipline op) (fun _ s => s = .running) ko
      .ready := by
  refine Prog.follows_bind.mpr (follows_cassert ?_)
  refine .step (.read nofun) fun g hg => ?_
  obtain ⟨params, hp⟩ := exists_suspendParams hg nofun
  refine ⟨by simp [hp], ?_⟩
  refine .step (.clearContext rfl) fun _ _ => .step (.clearBlock rfl) fun _ _ => ?_
  refine Prog.follows_bind.mpr (follows_cassert ?_)
  refine .step (.read nofun) fun g hg => ?_
  obtain ⟨params, hp⟩ := exists_suspendParams hg nofun
  rw [hp]
  refine .step (.resume rfl) fun r hr => ⟨hr, ?_⟩
  exact .step (.clearParams rfl) fun _ _ => rfl

theorem follows_suspendApplicationThreads :
    (suspendApplicationThreads .debug).Follows (serverDiscipline op)
      (fun _ s => s = .stopped none) ko .woken := by
  refine Prog.follows_bind.mpr (follows_cassert ?_)
  refine .step (.read nofun) fun g hg => ?_
  have hp : g.suspendParams = none := hg.mpr (by simp [Stage.NoParams])
  refine ⟨by simp [hp], ?_⟩
  refine .step (.setParams rfl) fun _ _ => .step (.suspend rfl) fun r hr => ?_
  exact follows_drAssert (fun _ => rfl) fun h => absurd (hr.symm.trans h) (by simp)

theorem follows_resumeUntilEvent {S : EventTypes} {locked : Bool} :
    (resumeUntilEvent .debug S).Follows (serverDiscipline (.executeUntilEvent S))
      (fun _ s => s = .running) ko (.held locked) := by
  refine .step (.setEvents rfl rfl) fun _ _ => .step (.lock rfl) fun _ _ => ?_
  refine .step (.read nofun) fun g hg => ?_
  obtain ⟨params, hp⟩ := exists_suspendParams hg nofun
  refine Prog.follows_bind.mpr (follows_assertHelper (fun _ => ?_) fun h => ?_)
  · refine .step (.unlock rfl) fun _ _ => Prog.follows_bind.mpr (follows_totalFlush ?_)
    exact follows_resumeApplicationThreads
  · simp [hp] at h

theorem follows_stopAtEvent {S : EventTypes} (hko : ko unableToLocateContext .failed) :
    (stopAtEvent .debug).Follows (serverDiscipline (.executeUntilEvent S))
      (fun e s => s = .stopped (some e)) ko .running := by
  refine .step (.wait rfl) fun _ _ => ?_
  refine follows_suspendApplicationThreads.bind ?_
  rintro _ _ rfl
  refine .step (.read fun _ => ⟨S, rfl⟩) fun g _ => Prog.follows_bind.mpr ?_
  cases hc : g.stoppedContext with
  | some c =>
    have hn : serverNext (.stopped none) .read g = .stopped (some c.1) := by
      simp [serverNext, Stage.look, hc]
    exact hn
  | none =>
    have hn : serverNext (.stopped none) .read g = .failed := by
      simp [serverNext, Stage.look, hc]
    change Prog.Follows _ _ _ _ (serverNext (.stopped none) .read g)
    rw [hn]
    exact ⟨.unlock rfl, fun _ _ => hko⟩

theorem follows_executeUntilEvent {S : EventTypes} {locked : Bool}
    (hko : ko unableToLocateContext .failed) :
    (executeUntilEvent .debug S).Follows (serverDiscipline (.executeUntilEvent S))
      (fun e s => s = .stopped (some e)) ko (.held locked) := by
  refine follows_resumeUntilEvent.bind ?_
  rintro _ _ rfl
  exact follows_stopAtEvent hko

end Server

/-- Every call keeps to the discipline of the server. -/
theorem follows_call {op : Operation} (hop : op.isCall = true) (locked : Bool) :
    ServerFollows op (op.prog .debug) (.held locked) := by
  cases op with
  | addBreakpoint bp =>
    refine (follows_addBreakpoint rfl (fun _ _ => ⟨⟨_, rfl⟩, _, rfl⟩) bp locked).bind ?_
    exact fun _ _ h => ⟨_, h⟩
  | delBreakpoint bp =>
    refine (follows_delBreakpoint rfl (fun _ _ => ⟨⟨_, rfl⟩, _, rfl⟩) .debug bp locked).bind ?_
    exact fun _ _ h => ⟨_, h⟩
  | getBreakpoints => exact (follows_getBreakpoints locked).bind fun _ _ h => ⟨_, h⟩
  | executeUntilEvent S =>
    refine (follows_executeUntilEvent ⟨⟨_, rfl⟩, Or.inr ⟨rfl, rfl⟩⟩).bind ?_
    exact fun e _ h => Or.inl ⟨e, rfl, h⟩
  | getCodeBlock =>
    refine (follows_getCodeBlock (fun _ _ => ⟨⟨_, rfl⟩, _, rfl⟩) locked).bind ?_
    exact fun _ _ h => ⟨_, h⟩
  | getContext =>
    refine (follows_getContext (fun _ _ => ⟨⟨_, rfl⟩, _, rfl⟩) locked).bind ?_
    exact fun _ _ h => ⟨_, h⟩
  | _ => cases hop

/-- The start keeps to the discipline of the server. -/
theorem follows_serverThread :
    ServerFollows .serverThread (Operation.serverThread.prog .debug) .woken :=
  follows_suspendApplicationThreads.bind fun _ _ h => h

/-! ## The application threads -/

/-- The phase after a reply. -/
def Phase.next : Phase → (o : Op) → o.Reply → Phase
  | .quiet, .write x, _ => x.fires
  | .quiet, _, _ => .quiet
  | .fired e, .read, g => Phase.look g (.fired e)
  | .fired e, _, _ => .fired e
  | .armed e _, _, _ => .begun e
  | .begun e, _, _ => .sampled e
  | .sampled e, _, _ => .context e
  | .context e, _, _ => .recorded e
  | .recorded _, _, _ => .quiet

/-- What an application thread may do in a phase of the operation `op`. -/
inductive AppAllows (op : Operation) : Phase → Op → Prop
  | neutral {o : Op} (ho : o.isNeutral = true) : AppAllows op .quiet o
  | read : AppAllows op .quiet .read
  | lock : AppAllows op .quiet .drMutexLock
  | unlock : AppAllows op .quiet .drMutexUnlock
  | edit {x : Write} (hx : x.edits = true) (he : x.fires = .quiet ∨ op.event? = some .breakpoint) :
    AppAllows op .quiet (.write x)
  | look {e : EventType} : AppAllows op (.fired e) .read
  | begin {e : EventType} {S : EventTypes} : AppAllows op (.armed e S) .drGetCurrentDrcontext
  | sample {e : EventType} {flags : BitVec 32} : AppAllows op (.begun e) (.drGetMcontext flags)
  | storeContext {e : EventType} {mc : Mcontext} :
    AppAllows op (.sampled e) (.write (.stoppedContext (some (e, mc))))
  | storeBlock {e : EventType} {block : AppPc × AppPc} :
    AppAllows op (.context e) (.write (.stoppedBlock (some block)))
  | signal {e : EventType} : AppAllows op (.recorded e) .drEventSignal

/-- The discipline of an application thread in the operation `op`. -/
def appDiscipline (op : Operation) : Discipline drApi Phase :=
  ⟨AppAllows op, fun _ _ _ => True, Phase.next⟩

/-- The thread keeps to the discipline of `op`, and ends raising no event. -/
abbrev AppFollows {α : Type} (op : Operation) : Dr α → Phase → Prop :=
  Prog.Follows (appDiscipline op) (fun _ p => p = .quiet) fun _ p => p = .quiet

section App

variable {op : Operation} {α β : Type}

theorem AppFollows.bind {p : Dr α} {f : α → Dr β} {l : Phase} (h : AppFollows op p l)
    (hf : ∀ a, AppFollows op (f a) .quiet) : AppFollows op (p.bind f) l := by
  refine Prog.Follows.bind h ?_
  rintro a _ rfl
  exact hf a

theorem app_totalFlush (b : Build) : AppFollows op (totalFlush b) .quiet := by
  cases b with
  | debug =>
    refine .step (.neutral rfl) fun r _ => ?_
    cases r <;> exact rfl
  | ndebug => exact rfl

theorem app_suspendHelper {e : EventType} {S : EventTypes} {start endPc : AppPc} :
    AppFollows op (suspendHelper (some e) start endPc) (.armed e S) :=
  .step .begin fun _ _ => .step .sample fun _ _ => .step .storeContext fun _ _ =>
    .step .storeBlock fun _ _ => .step .signal fun _ _ => .step (.neutral rfl) fun _ _ => rfl

/-- A fired event that is not stopped for leaves the thread quiet. -/
theorem app_stopEventsCount {e : EventType} :
    (stopEventsCount e).Follows (appDiscipline op)
      (fun c p => if c = true then ∃ S, p = .armed e S else p = .quiet)
      (fun _ p => p = .quiet) (.fired e) := by
  refine .step .look fun g _ => ?_
  change Prog.Follows _ _ _ _ (Phase.look g (.fired e))
  cases hS : g.stopEvents with
  | none =>
    have hp : Phase.look g (.fired e) = .quiet := by simp [Phase.look, hS]
    rw [hp]
    exact rfl
  | some S =>
    by_cases he : e ∈ S
    · have hp : Phase.look g (.fired e) = .armed e S := by simp [Phase.look, hS, he]
      rw [hp]
      simp [deref, he]
    · have hp : Phase.look g (.fired e) = .quiet := by simp [Phase.look, hS, he]
      rw [hp]
      simp [deref, he]

theorem app_stopEventsCount_quiet {e : EventType} :
    AppFollows op (stopEventsCount e) .quiet := by
  refine .step .read fun g _ => ?_
  cases g.stopEvents <;> exact rfl

theorem app_updateFastforwardCount (hop : op.event? = some .breakpoint) (b : Build)
    (addr start endPc : AppPc) :
    AppFollows op (updateFastforwardCount b addr start endPc) .quiet := by
  refine .step .lock fun _ _ => .step .read fun g _ => ?_
  cases g.breakpoints.find? addr with
  | none => exact .step .unlock fun _ _ => app_totalFlush b
  | some n =>
    have hunlock : AppFollows op drMutexUnlock .quiet := .step .unlock fun _ _ => rfl
    refine .step (.edit rfl (Or.inl rfl)) fun _ _ => ?_
    by_cases hn : n - 1 = 0
    · simp only [hn]
      refine .step (.edit rfl (Or.inr hop)) fun _ _ => ?_
      refine Prog.Follows.bind app_stopEventsCount fun c p hp => ?_
      cases c with
      | true =>
        obtain ⟨S, rfl⟩ := hp
        exact app_suspendHelper.bind fun _ => hunlock
      | false =>
        obtain rfl : p = .quiet := hp
        exact hunlock
    · simp only [hn]
      exact hunlock

theorem app_relevantBlockCleanCall (start endPc : AppPc) :
    AppFollows op (relevantBlockCleanCall start endPc) (.fired .relevantBlock) := by
  refine Prog.Follows.bind app_stopEventsCount fun c p hp => ?_
  cases c with
  | true =>
    obtain ⟨S, rfl⟩ := hp
    exact app_suspendHelper
  | false =>
    obtain rfl : p = .quiet := hp
    exact rfl

theorem app_activateDeferred (modinfo : Module) (l : List (DeferredKey × SizeT))
    (toDelete : List DeferredKey) :
    AppFollows op (activateDeferred modinfo l toDelete) .quiet := by
  induction l generalizing toDelete with
  | nil => exact rfl
  | cons p l ih =>
    rw [activateDeferred]
    split_ifs
    · refine Prog.Follows.bind (follows_absOrRelAddrToAbsAddr
        (fun _ => ⟨.neutral rfl, fun _ => rfl⟩) fun _ _ => ⟨.unlock, fun _ _ => rfl⟩) ?_
      rintro addr _ rfl
      refine Prog.follows_bind.mpr (follows_drAssert (fun ha => ?_) fun _ => rfl)
      obtain ⟨addr, rfl⟩ := Option.isSome_iff_exists.mp ha
      simp only [deref, Prog.bind_eq, Prog.ret_bind]
      refine Prog.follows_bind.mpr (follows_drAssert (fun _ => ?_) fun _ => rfl)
      exact .step (.edit rfl (Or.inl rfl)) fun _ _ => ih _
    · exact ih _

theorem app_eraseDeferred (l : List DeferredKey) : AppFollows op (eraseDeferred l) .quiet := by
  induction l with
  | nil => exact rfl
  | cons dbp l ih => exact .step (.edit rfl (Or.inl rfl)) fun _ _ => ih

theorem app_eventModuleLoaded (b : Build) (modinfo : Module) :
    AppFollows op (eventModuleLoaded b modinfo) .quiet := by
  refine .step .lock fun _ _ => .step .read fun g _ => ?_
  refine (app_activateDeferred modinfo _ _).bind fun toDelete => ?_
  exact (app_eraseDeferred toDelete).bind fun _ => .step .unlock fun _ _ => rfl

theorem app_eventBasicBlock (bb : List Instr) : AppFollows op (eventBasicBlock bb) .quiet := by
  unfold eventBasicBlock
  cases bb.head? with
  | none => exact rfl
  | some first =>
    cases bb.getLast? with
    | none => exact rfl
    | some last =>
      refine .step .lock fun _ _ => .step .read fun g _ => ?_
      refine app_stopEventsCount_quiet.bind fun relevant => .step .unlock fun _ _ => ?_
      cases relevant <;> exact rfl

end App

/-- Every clean call and callback keeps to the discipline of the application threads. -/
theorem follows_callback {op : Operation} (hop : op.isCallback = true) (b : Build) :
    AppFollows op (op.prog b) op.phase := by
  cases op with
  | cleanCall c =>
    cases c with
    | updateFastforwardCount addr start endPc =>
      exact (app_updateFastforwardCount rfl b addr start endPc).bind fun _ => rfl
    | relevantBlockCleanCall start endPc =>
      exact (app_relevantBlockCleanCall start endPc).bind fun _ => rfl
  | eventModuleLoaded modinfo => exact (app_eventModuleLoaded b modinfo).bind fun _ => rfl
  | eventBasicBlock bb => exact (app_eventBasicBlock bb).bind fun _ => rfl
  | _ => cases hop

/-! ## One action -/

theorem Op.isNeutral_answer {env : Env} {a : Actor} {w w' : World} {o : Op} {r : o.Reply}
    (ho : o.isNeutral = true) (h : w.answer env a o = some (r, w')) :
    w' = w ∧ (∀ s, serverAdmits s o r) ∧ ∀ s, serverNext s o r = s := by
  cases o with
  | drDelayFlushRegion =>
    obtain ⟨rfl, rfl⟩ : true = r ∧ w = w' := by simpa [World.answer] using h
    exact ⟨rfl, fun _ => rfl, fun _ => rfl⟩
  | drSleep ms =>
    obtain rfl : w = w' := by simpa [World.answer] using h
    exact ⟨rfl, fun _ => trivial, fun _ => rfl⟩
  | drLookupModuleByName name =>
    obtain ⟨-, rfl⟩ : _ = r ∧ w = w' := by simpa [World.answer] using h
    exact ⟨rfl, fun _ => trivial, fun _ => rfl⟩
  | drLookupModule pc =>
    obtain ⟨-, rfl⟩ : _ = r ∧ w = w' := by simpa [World.answer] using h
    exact ⟨rfl, fun _ => trivial, fun _ => rfl⟩
  | stringOfRange first last =>
    obtain ⟨-, rfl⟩ : _ = r ∧ w = w' := by simpa [World.answer] using h
    exact ⟨rfl, fun _ => trivial, fun _ => rfl⟩
  | _ => cases ho

/-- What the server does as its discipline allows is a step of the view, with a reply that
the discipline admits. -/
theorem ServerAllows.step {op : Operation} {v : View} (hv : v.Ok) (hc : v.call = some op)
    {env : Env} {o : Op} {r : o.Reply} {w : World} (h : ServerAllows op v.stage o)
    (ha : v.world.answer env .server o = some (r, w)) :
    serverAdmits v.stage o r ∧ v.ServerStep o w (serverNext v.stage o r) := by
  cases h with
  | neutral ho =>
    obtain ⟨rfl, hadm, hnext⟩ := Op.isNeutral_answer ho ha
    rw [hnext]
    exact ⟨hadm _, .neutral ho⟩
  | read hex =>
    obtain ⟨rfl, rfl⟩ : v.world.globals = r ∧ v.world = w := by simpa [World.answer] using ha
    refine ⟨hv.params, ?_⟩
    change v.ServerStep .read v.world (v.stage.look v.world.globals)
    by_cases hs : v.stage = .stopped none
    · obtain ⟨S, rfl⟩ := hex hs
      cases hctx : v.world.globals.stoppedContext with
      | none => simpa [Stage.look, hs, hctx] using View.ServerStep.notFound hc hs hctx
      | some c => simpa [Stage.look, hs, hctx] using View.ServerStep.found hc hs hctx
    · simpa [Stage.look, hs] using View.ServerStep.read hs
  | lock hs =>
    obtain ⟨hm, rfl⟩ : v.world.mutex = none ∧ _ = w := by simpa [World.answer] using ha
    refine ⟨trivial, ?_⟩
    simpa [serverNext, hs] using View.ServerStep.lock hs hm
  | unlock hs =>
    obtain rfl : _ = w := by simpa [World.answer] using ha
    refine ⟨trivial, ?_⟩
    simpa [serverNext, hs] using View.ServerStep.unlock hs
  | edit hop hs hx =>
    obtain rfl : _ = w := by simpa [World.answer] using ha
    refine ⟨trivial, ?_⟩
    change v.ServerStep _ _ (v.stage.wrote _)
    rw [Stage.wrote_of_edits hx]
    exact .edit hc hop hs hx
  | setEvents hop hs =>
    obtain rfl : _ = w := by simpa [World.answer] using ha
    exact ⟨trivial, .setEvents (hop ▸ hc) hs⟩
  | clearContext hs =>
    obtain rfl : _ = w := by simpa [World.answer] using ha
    exact ⟨trivial, .clearContext hs⟩
  | clearBlock hs =>
    obtain rfl : _ = w := by simpa [World.answer] using ha
    exact ⟨trivial, .clearBlock hs⟩
  | resume hs =>
    obtain ⟨rfl, rfl⟩ : true = r ∧ _ = w := by simpa [World.answer] using ha
    exact ⟨rfl, .resume hs⟩
  | clearParams hs =>
    obtain rfl : _ = w := by simpa [World.answer] using ha
    exact ⟨trivial, .clearParams hs⟩
  | wait hs =>
    obtain ⟨he, rfl⟩ : v.world.event = true ∧ _ = w := by simpa [World.answer] using ha
    exact ⟨trivial, .wait hs he⟩
  | setParams hs =>
    obtain rfl : _ = w := by simpa [World.answer] using ha
    exact ⟨trivial, .setParams hs⟩
  | suspend hs =>
    obtain ⟨rfl, rfl⟩ : true = r ∧ _ = w := by simpa [World.answer] using ha
    exact ⟨rfl, .suspend hs⟩

/-- What an application thread does as its discipline allows is a step of the view. -/
theorem AppAllows.step {op : Operation} {v : View} {t : ℕ} {env : Env} {o : Op} {r : o.Reply}
    {w : World} {p : Phase} (hp : v.phase t = p) (h : AppAllows op p o)
    (ha : v.world.answer env (.app t) o = some (r, w)) : v.AppStep t o w (p.next o r) := by
  cases h with
  | neutral ho =>
    obtain ⟨rfl, -, -⟩ := Op.isNeutral_answer ho ha
    cases o with
    | write x => cases ho
    | _ => exact .neutral hp ho
  | read =>
    obtain ⟨-, rfl⟩ : _ = r ∧ v.world = w := by simpa [World.answer] using ha
    have hstep : v.AppStep t _ _ _ := .read
    rw [hp] at hstep
    exact hstep
  | lock =>
    obtain ⟨hm, rfl⟩ : v.world.mutex = none ∧ _ = w := by simpa [World.answer] using ha
    exact .lock hp hm
  | unlock =>
    obtain rfl : _ = w := by simpa [World.answer] using ha
    exact .unlock hp
  | edit hx he =>
    obtain rfl : _ = w := by simpa [World.answer] using ha
    exact .edit hp hx
  | look =>
    obtain ⟨rfl, rfl⟩ : v.world.globals = r ∧ v.world = w := by simpa [World.answer] using ha
    have hstep : v.AppStep t _ _ _ := .read
    rw [hp] at hstep
    exact hstep
  | begin =>
    obtain rfl : v.world = w := by simpa [World.answer] using ha
    exact .begin hp
  | sample =>
    obtain ⟨-, rfl⟩ : _ = r ∧ v.world = w := by simpa [World.answer] using ha
    exact .sample hp
  | storeContext =>
    obtain rfl : _ = w := by simpa [World.answer] using ha
    exact .storeContext hp
  | storeBlock =>
    obtain rfl : _ = w := by simpa [World.answer] using ha
    exact .storeBlock hp
  | signal =>
    obtain rfl : _ = w := by simpa [World.answer] using ha
    exact .signal hp

/-- A clean call starts on its own event. -/
theorem Operation.event?_of_phase {op : Operation} {e : EventType}
    (h : op.phase.event? = some e) : op.event? = some e := by
  cases op with
  | cleanCall c =>
    cases c with
    | updateFastforwardCount addr start endPc => cases h
    | relevantBlockCleanCall start endPc => exact h
  | _ => cases h

theorem Phase.event?_look {p : Phase} {g : Globals} {e : EventType}
    (h : (p.look g).event? = some e) : p.event? = some e := by
  cases p with
  | fired e' =>
    unfold look at h
    cases hS : g.stopEvents with
    | none => simp [hS, event?] at h
    | some S =>
      by_cases he : e' ∈ S
      · simpa [hS, he, event?] using h
      · simp [hS, he, event?] at h
  | _ => exact h

/-- A thread only raises the event of the clean call it is in. -/
theorem AppAllows.event {op : Operation} {o : Op} {r : o.Reply} {p : Phase}
    (h : AppAllows op p o) (hp : ∀ e, p.event? = some e → op.event? = some e) {e : EventType}
    (he : (p.next o r).event? = some e) : op.event? = some e := by
  cases h with
  | edit hx hop =>
    rename_i x
    rcases hop with hq | hop
    · have hn : Phase.next .quiet (.write x) r = .quiet := hq
      simp [hn, Phase.event?] at he
    · cases x with
      | eraseBreakpoint addr => exact hop.trans he
      | _ => cases he
  | look => exact hp e (Phase.event?_look he)
  | begin => exact hp e he
  | sample => exact hp e he
  | storeContext => exact hp e he
  | storeBlock => exact hp e he
  | neutral ho =>
    cases o with
    | write x => cases ho
    | _ => cases he
  | _ => cases he

/-! ## The machine moves along the protocol -/

namespace Machine

/-- The action `a` does next. -/
def nextOp (m : Machine) (a : Actor) : Option Op :=
  (m.running a).bind fun r => r.2.next?

/-- The action of a step, and who does it. -/
def act (m : Machine) : Label → Option (Actor × Op)
  | .action a _ => (m.nextOp a).map fun o => (a, o)
  | _ => none

theorem act_action {m : Machine} {a : Actor} {op : Operation} {o : Op} {k : o.Reply → Dr Result}
    (h : m.running a = some (op, .act o k)) (env : Env) :
    m.act (.action a env) = some (a, o) := by
  simp [act, nextOp, h]

/-- What the next action of a thread does. -/
theorem step_act {b : Build} {m m' : Machine} {a : Actor} {env : Env} {op : Operation} {o : Op}
    {k : o.Reply → Dr Result} (hrun : m.running a = some (op, .act o k))
    (hs : m.step b (.action a env) = some m') :
    ∃ r w, m.world.answer env a o = some (r, w) ∧
      m' = m.set (w.note (.did a o)) a (some (op, k r)) := by
  obtain ⟨op', o', k', r, w', hrun', hp, rfl⟩ := step_action hs
  obtain ⟨rfl, heq⟩ := Prod.mk.inj (Option.some.inj (hrun.symm.trans hrun'))
  obtain ⟨rfl, hk⟩ := Prog.act.inj heq
  obtain rfl := eq_of_heq hk
  obtain ⟨-, w₁, ha, rfl⟩ := World.perform_eq_some hp
  exact ⟨r, w₁, ha, rfl⟩

/-- The machine is in a state that the view describes. -/
structure Tracks (m : Machine) (v : View) : Prop where
  world : v.world = m.world
  call : v.call = (m.running .server).map Prod.fst
  server : ∀ op p, m.running .server = some (op, p) → ServerFollows op p v.stage
  app : ∀ t op p, m.running (.app t) = some (op, p) → AppFollows op p (v.phase t)
  event : ∀ t op p e, m.running (.app t) = some (op, p) → (v.phase t).event? = some e →
    op.event? = some e
  idle : ∀ t, m.running (.app t) = none → v.phase t = .quiet

theorem tracks_boot (modules : List Module) : (boot .debug modules).Tracks (View.boot modules) where
  world := rfl
  call := rfl
  server op p h := by
    obtain ⟨rfl, rfl⟩ : _ = op ∧ _ = p := by simpa [boot] using h
    exact follows_serverThread
  app t op p h := by simp [boot] at h
  event t op p e h := by simp [boot] at h
  idle t _ := rfl

variable {m m' : Machine} {v : View}

/-- A thread that is raising an event has the next action of its discipline before it. -/
theorem Tracks.raising (h : m.Tracks v) {t : ℕ} (ht : v.phase t ≠ .quiet) :
    ∃ op p o, m.running (.app t) = some (op, p) ∧ m.nextOp (.app t) = some o ∧
      AppAllows op (v.phase t) o := by
  cases hr : m.running (.app t) with
  | none => exact absurd (h.idle t hr) ht
  | some r =>
    obtain ⟨op, p⟩ := r
    have hf := h.app t op p hr
    cases p with
    | ret r => exact absurd hf ht
    | stop e => exact absurd hf ht
    | act o k => exact ⟨op, _, o, rfl, by simp [nextOp, hr], hf.1⟩

/-- The server moved; the application threads are where they were. -/
theorem Tracks.server_moved (h : m.Tracks v) {w : World} {x : Option (Operation × Dr Result)}
    {call : Option Operation} {s : Stage} (hcall : call = x.map Prod.fst)
    (hs : ∀ op p, x = some (op, p) → ServerFollows op p s) :
    (m.set w .server x).Tracks { v with world := w, call := call, stage := s } where
  world := rfl
  call := by simpa using hcall
  server op p hp := hs op p (by simpa using hp)
  app t op p hp := h.app t op p (by simpa [set_running_of_ne] using hp)
  event t op p e hp := h.event t op p e (by simpa [set_running_of_ne] using hp)
  idle t ht := h.idle t (by simpa [set_running_of_ne] using ht)

/-- The thread `t` moved; everybody else is where they were. -/
theorem Tracks.app_moved (h : m.Tracks v) {t : ℕ} {w : World}
    {x : Option (Operation × Dr Result)} {q : Phase}
    (hf : ∀ op p, x = some (op, p) →
      AppFollows op p q ∧ ∀ e, q.event? = some e → op.event? = some e)
    (hq : x = none → q = .quiet) :
    (m.set w (.app t) x).Tracks { v with world := w, phase := Function.update v.phase t q } where
  world := rfl
  call := by simpa [set_running_of_ne] using h.call
  server op p hp := h.server op p (by simpa [set_running_of_ne] using hp)
  app u op p hp := by
    by_cases hu : u = t
    · subst hu
      simpa using (hf op p (by simpa using hp)).1
    · have hne : Actor.app u ≠ .app t := by simpa using hu
      rw [set_running_of_ne m w x hne] at hp
      simpa [hu] using h.app u op p hp
  event u op p e hp := by
    by_cases hu : u = t
    · subst hu
      simpa using (hf op p (by simpa using hp)).2 e
    · have hne : Actor.app u ≠ .app t := by simpa using hu
      rw [set_running_of_ne m w x hne] at hp
      simpa [hu] using h.event u op p e hp
  idle u hu := by
    by_cases hut : u = t
    · subst hut
      simpa using hq (by simpa using hu)
    · have hne : Actor.app u ≠ .app t := by simpa using hut
      rw [set_running_of_ne m w x hne] at hu
      simpa [hut] using h.idle u hu

theorem endingOf_server {p : Dr Result} {x : Prog.Ending Halt Result} {op : Operation} {s : Stage}
    (h : endingOf .server p = some x) (hf : ServerFollows op p s) : op.Replies x s := by
  cases p with
  | ret r =>
    obtain rfl : _ = x := Option.some.inj h
    exact hf
  | stop e =>
    cases e with
    | thrown e =>
      obtain rfl : _ = x := Option.some.inj h
      exact hf.2
    | fault f => cases h
  | act o k => cases h

theorem endingOf_app {p : Dr Result} {x : Prog.Ending Halt Result} {op : Operation} {t : ℕ}
    {q : Phase} (h : endingOf (.app t) p = some x) (hf : AppFollows op p q) : q = .quiet := by
  cases p with
  | ret r => exact hf
  | stop e =>
    cases e with
    | thrown e => cases h
    | fault f => cases h
  | act o k => cases h

/-- Between two calls the server is at rest. -/
theorem held_of_call {v : View} (hv : v.Ok) (h : v.call = none) : v.stage.Held := by
  simpa [h, Stage.Of] using hv.call

/-- A step of the machine is a step of the view. -/
theorem Tracks.step (h : m.Tracks v) (hv : v.Ok) {l : Label} (hs : m.step .debug l = some m') :
    ∃ v', v.Step (m.act l) v' ∧ m'.Tracks v' := by
  have hworld := h.world
  cases l with
  | start a op =>
    obtain ⟨hr, hc, rfl⟩ := step_start hs
    cases a with
    | server =>
      obtain ⟨hop, hen⟩ := canStart_server hc
      have hcall : v.call = none := by simp [h.call, hr]
      obtain ⟨locked, hst⟩ := held_of_call hv hcall
      refine ⟨_, .call hcall hop, ?_⟩
      rw [hen, ← hworld]
      refine h.server_moved rfl fun op' p hp => ?_
      obtain ⟨rfl, rfl⟩ := Prod.mk.inj (Option.some.inj hp)
      rw [hst]
      exact follows_call hop locked
    | app t =>
      obtain ⟨hop, hw⟩ := canStart_app hc
      refine ⟨_, .enter (hworld ▸ hw) hop (h.idle t hr), ?_⟩
      rw [← hworld]
      refine h.app_moved (fun op' p hp => ?_) nofun
      obtain ⟨rfl, rfl⟩ := Prod.mk.inj (Option.some.inj hp)
      exact ⟨follows_callback hop .debug, fun e he => Operation.event?_of_phase he⟩
  | action a env =>
    obtain ⟨op, o, k, r, w', hr, hp, rfl⟩ := step_action hs
    obtain ⟨hw, w, ha, rfl⟩ := World.perform_eq_some hp
    rw [act_action hr]
    rw [← hworld] at hw ha
    cases a with
    | server =>
      have hf := h.server op _ hr
      have hcall : v.call = some op := by simp [h.call, hr]
      obtain ⟨hadm, hstep⟩ := hf.1.step hv hcall ha
      refine ⟨_, .server hstep, h.server_moved hcall fun op' p hp => ?_⟩
      obtain ⟨rfl, rfl⟩ := Prod.mk.inj (Option.some.inj hp)
      exact hf.2 r hadm
    | app t =>
      have hf := h.app t op _ hr
      have hstep := hf.1.step rfl ha
      refine ⟨_, .app (hw.resolve_left nofun) hstep, h.app_moved (fun op' p hp => ?_) nofun⟩
      obtain ⟨rfl, rfl⟩ := Prod.mk.inj (Option.some.inj hp)
      exact ⟨hf.2 r trivial, fun e he => hf.1.event (fun e => h.event t _ _ e hr) he⟩
  | finish a =>
    obtain ⟨op, p, x, hr, hx, rfl⟩ := step_finish hs
    rw [← hworld]
    cases a with
    | server =>
      have hcall : v.call = some op := by simp [h.call, hr]
      refine ⟨_, .reply hcall (endingOf_server hx (h.server op p hr)), ?_⟩
      exact h.server_moved rfl nofun
    | app t =>
      have hq := endingOf_app hx (h.app t op p hr)
      refine ⟨_, .leave op x hq, ?_⟩
      have hm := h.app_moved (t := t) (w := v.world.note (.ended (.app t) op x)) (x := none)
        (q := .quiet) nofun fun _ => rfl
      rw [← hq, Function.update_eq_self] at hm
      exact hm
  | unload modinfo =>
    obtain ⟨hw, rfl⟩ := step_unload hs
    have hview : v.Step none
        { v with world := { v.world with modules := v.world.modules.erase modinfo } } := .unload
    exact ⟨_, hview, { h with world := by rw [hworld] }⟩

/-- What every step of the views keeps, where the steps of the machine meet `cond` and hence
those of the view meet `C`, holds along every run of the machine. -/
theorem ReachedBy.view {cond : Machine → Label → Prop} {J : View → Prop}
    {C : View → Actor → Op → Prop} (hm : m.ReachedBy .debug cond)
    (hcond : ∀ m l v, m.Tracks v → v.Ok → cond m l → ∀ a o, m.act l = some (a, o) → C v a o)
    (hboot : ∀ modules, J (View.boot modules))
    (hstep : ∀ v v' x, v.Ok → J v → (∀ a o, x = some (a, o) → C v a o) → v.Step x v' → J v') :
    ∃ v, m.Tracks v ∧ v.Ok ∧ J v := by
  obtain ⟨modules, hm⟩ := hm
  refine invariant_of_moves (I := fun m => ∃ v, m.Tracks v ∧ v.Ok ∧ J v)
    ⟨_, tracks_boot modules, View.ok_boot modules, hboot modules⟩ ?_ hm
  rintro m l m' ⟨v, htr, hv, hj⟩ hc hs
  obtain ⟨v', hstep', htr'⟩ := htr.step hv hs
  exact ⟨v', htr', hstep'.ok hv, hstep v v' _ hv hj (hcond m l v htr hv hc) hstep'⟩

end Machine

end ConcreteEval
