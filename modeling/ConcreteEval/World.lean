import ConcreteEval.DrApi

/-!
# The world the threads share

`World` is what all threads of the client share : the globals, and of DynamoRIO the
mutex, the event, whether the application threads are suspended, and the loaded modules.
`World.perform` is one action of one thread, under the assumptions on DR : the mutex has
one holder and makes others wait, and unlocking frees it whoever unlocks; the event keeps
one signal until a wait consumes it; suspending, resuming and flushing succeed, and a
suspended thread does not act; a module is found by its preferred name exactly while it
is loaded. What DR leaves open (the registers of a thread, the bytes of a block) is an
argument, `Env`.

The log records what has happened, newest first : operations started and ended by a
thread, and the actions in between. No client code reads it.
-/

namespace ConcreteEval

/-! ## Operations -/

/-- An instruction of the application. -/
structure Instr where
  pc : AppPc
  length : ℕ
  deriving DecidableEq

/-- A clean call with its arguments. -/
inductive CleanCall
  | updateFastforwardCount (addr start endPc : AppPc)
  | relevantBlockCleanCall (start endPc : AppPc)
  deriving DecidableEq

/-- An element of an instrumented block. -/
inductive Item
  | app (i : Instr)
  | cleanCall (c : CleanCall)
  deriving DecidableEq

/-- What a thread of the client can be running : the server thread's start-up and the
service's calls on the server thread, clean calls and DR's callbacks on the others. -/
inductive Operation
  | serverThread
  | addBreakpoint (bp : WireBreakpoint)
  | delBreakpoint (bp : WireBreakpoint)
  | getBreakpoints
  | executeUntilEvent (stopEvents : EventTypes)
  | getCodeBlock
  | getContext
  | cleanCall (c : CleanCall)
  | eventModuleLoaded (modinfo : Module)
  | eventBasicBlock (bb : List Instr)
  deriving DecidableEq

/-- Whether the operation is one of the service's calls. -/
def Operation.isCall : Operation → Bool
  | .addBreakpoint _ | .delBreakpoint _ | .getBreakpoints | .executeUntilEvent _
  | .getCodeBlock | .getContext => true
  | _ => false

/-- Whether the operation is a clean call or a callback. -/
def Operation.isCallback : Operation → Bool
  | .cleanCall _ | .eventModuleLoaded _ | .eventBasicBlock _ => true
  | _ => false

/-- What an operation returns. -/
inductive Result
  | void
  | breakpoints (s : List Breakpoint)
  | event (e : EventType)
  | codeBlock (b : CodeBlock)
  | registers (c : RegisterContext)
  | items (l : List Item)

/-! ## Worlds -/

/-- The threads of the client. -/
inductive Actor
  | server
  | app (t : ℕ)
  deriving DecidableEq

/-- Something that happened. -/
inductive Mark
  | started (a : Actor) (op : Operation)
  | did (a : Actor) (o : Op)
  | ended (a : Actor) (op : Operation) (x : Prog.Ending Halt Result)

structure World where
  globals : Globals := {}
  /-- The holder of `*mutex`. -/
  mutex : Option Actor := none
  /-- Whether `*suspend_event` holds a signal. -/
  event : Bool := false
  /-- Whether the application threads are suspended. -/
  suspended : Bool := false
  modules : List Module := []
  log : List Mark := []

/-- What DR answers of its own. -/
structure Env where
  mcontext : Mcontext := ⟨0, fun _ => 0, 0⟩
  params : SuspendParams := ⟨0, 0⟩
  bytes : Option CxxString := some []

namespace World

def note (w : World) (x : Mark) : World :=
  { w with log := x :: w.log }

section Note

variable (w : World) (x : Mark)

@[simp] theorem note_globals : (w.note x).globals = w.globals :=
  rfl

@[simp] theorem note_mutex : (w.note x).mutex = w.mutex :=
  rfl

@[simp] theorem note_event : (w.note x).event = w.event :=
  rfl

@[simp] theorem note_suspended : (w.note x).suspended = w.suspended :=
  rfl

@[simp] theorem note_modules : (w.note x).modules = w.modules :=
  rfl

@[simp] theorem note_log : (w.note x).log = x :: w.log :=
  rfl

end Note

/-- A module is in DR's table when its load event comes. -/
def enter (w : World) : Operation → World
  | .eventModuleLoaded modinfo => { w with modules := modinfo :: w.modules }
  | _ => w

section Enter

variable (w : World) (op : Operation)

@[simp] theorem enter_globals : (w.enter op).globals = w.globals := by
  cases op <;> rfl

@[simp] theorem enter_mutex : (w.enter op).mutex = w.mutex := by
  cases op <;> rfl

@[simp] theorem enter_event : (w.enter op).event = w.event := by
  cases op <;> rfl

@[simp] theorem enter_suspended : (w.enter op).suspended = w.suspended := by
  cases op <;> rfl

@[simp] theorem enter_log : (w.enter op).log = w.log := by
  cases op <;> rfl

end Enter

/-- DR's side of an action of `a` : the reply and the world after it, or `none` while the
action has to wait. -/
def answer (env : Env) (a : Actor) (w : World) : (o : Op) → Option (o.Reply × World)
  | .drMutexLock => if w.mutex = none then some ((), { w with mutex := some a }) else none
  | .drMutexUnlock => some ((), { w with mutex := none })
  | .drEventSignal => some ((), { w with event := true })
  | .drEventWait => if w.event then some ((), { w with event := false }) else none
  | .drSuspendAllOtherThreads =>
    some (true,
      { w with suspended := true, globals := Write.apply w.globals (.suspendParams env.params) })
  | .drResumeAllOtherThreads _ => some (true, { w with suspended := false })
  | .drDelayFlushRegion => some (true, w)
  | .drGetCurrentDrcontext => some ((), w)
  | .drGetMcontext flags => some ({ env.mcontext with flags := flags }, w)
  | .drSleep _ => some ((), w)
  | .drLookupModuleByName name => some (w.modules.find? fun m => m.preferredName = name, w)
  | .drLookupModule pc => some (w.modules.find? fun m => m.start ≤ pc ∧ pc < m.endPc, w)
  | .stringOfRange _ _ => some (env.bytes, w)
  | .read => some (w.globals, w)
  | .write x => some ((), { w with globals := x.apply w.globals })

/-- One action of `a`. A suspended thread performs none. -/
def perform (env : Env) (a : Actor) (o : Op) (w : World) : Option (o.Reply × World) :=
  if w.suspended ∧ a ≠ .server then none
  else (w.answer env a o).map fun rw' => (rw'.1, rw'.2.note (.did a o))

/-- What an action that is answered was allowed to do, and what DR answered. -/
theorem perform_eq_some {env : Env} {a : Actor} {o : Op} {w w' : World} {r : o.Reply}
    (h : w.perform env a o = some (r, w')) :
    (a = .server ∨ w.suspended = false) ∧
      ∃ w₁, w.answer env a o = some (r, w₁) ∧ w' = w₁.note (.did a o) := by
  unfold perform at h
  split_ifs at h with hs
  obtain ⟨⟨r', w₁⟩, hw, heq⟩ := Option.map_eq_some_iff.mp h
  obtain ⟨rfl, rfl⟩ := Prod.mk.inj heq
  refine ⟨?_, w₁, hw, rfl⟩
  rcases not_and_or.mp hs with hs | hs
  · exact Or.inr (by simpa using hs)
  · exact Or.inl (not_not.mp hs)

/-- The world after an action of `a` that is answered. -/
def answered (env : Env) (a : Actor) (w : World) : Op → World
  | .drMutexLock => { w with mutex := some a }
  | .drMutexUnlock => { w with mutex := none }
  | .drEventSignal => { w with event := true }
  | .drEventWait => { w with event := false }
  | .drSuspendAllOtherThreads =>
    { w with suspended := true, globals := Write.apply w.globals (.suspendParams env.params) }
  | .drResumeAllOtherThreads _ => { w with suspended := false }
  | .write x => { w with globals := x.apply w.globals }
  | _ => w

section Answer

variable {env : Env} {a : Actor} {w w' : World} {o : Op} {r : o.Reply}

theorem answer_eq (h : w.answer env a o = some (r, w')) : w' = w.answered env a o := by
  cases o with
  | drMutexLock =>
    obtain ⟨-, rfl⟩ : w.mutex = none ∧ _ = w' := by simpa [answer] using h
    rfl
  | drEventWait =>
    obtain ⟨-, rfl⟩ : w.event = true ∧ _ = w' := by simpa [answer] using h
    rfl
  | _ => exact (Prod.mk.inj (Option.some.inj h)).2.symm

/-- DR keeps no log. -/
theorem answer_log (h : w.answer env a o = some (r, w')) : w'.log = w.log := by
  rw [answer_eq h]
  cases o <;> rfl

end Answer

end World

end ConcreteEval
