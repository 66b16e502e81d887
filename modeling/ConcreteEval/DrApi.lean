import Mathlib.Data.Fintype.Pi
import ConcreteEval.Discipline
import ConcreteEval.ConcolicTypes

/-!
# The globals and the DynamoRIO interface

`Globals` are the variables of `options.cpp` that change after `dr_client_main` (`mutex`
and `suspend_event` are set there once and for all). A thread of the client acts on them
and on DynamoRIO in atomic actions (`Op`) : one request to DR, one look at the globals, or
one write to one of them. `Dr α` is a piece of client code : a program over these actions
that returns an `α`, throws, or breaks a rule of the language it is written in (`Fault`).
-/

namespace ConcreteEval

/-! ## Data of DR -/

/-- A module, `module_data_t`, with the symbols it exports. -/
structure Module where
  start : AppPc
  endPc : AppPc
  preferredName : CxxString
  exports : List (CxxString × AppPc)
  /-- The name is a C string. -/
  cStr_name : preferredName.cStr = preferredName
  deriving DecidableEq

/-- `dr_get_proc_address` : the null pointer for a symbol the module does not export. -/
def Module.drGetProcAddress (m : Module) (name : CxxString) : AppPc :=
  ((m.exports.find? fun p => p.1 = name).map Prod.snd).getD 0

/-- A machine context, `dr_mcontext_t`. The general-purpose registers are numbered from
`DR_REG_START_GPR` on. -/
structure Mcontext where
  flags : BitVec 32
  gpr : Fin 16 → BitVec 64
  xflags : BitVec 64
  deriving DecidableEq

/-- The flags that ask for the whole context. -/
def drMcAll : BitVec 32 := 7

/-- What `dr_suspend_all_other_threads` hands back and resuming needs. -/
structure SuspendParams where
  drcontexts : BitVec 64
  numSuspended : BitVec 32
  deriving DecidableEq

/-! ## The globals -/

structure Globals where
  deferredBreakpoints : StdMap DeferredKey SizeT := ∅
  breakpoints : StdMap AppPc SizeT := ∅
  /-- Set whenever threads are suspended. -/
  suspendParams : Option SuspendParams := none
  /-- What events should we stop for? -/
  stopEvents : Option EventTypes := none
  /-- What was the event and context when we stopped? -/
  stoppedContext : Option (EventType × Mcontext) := none
  /-- What was the last block when we stopped? `[start, end)` -/
  stoppedBlock : Option (AppPc × AppPc) := none
  deriving DecidableEq

/-- An assignment to one of the globals. -/
inductive Write
  | breakpoint (addr : AppPc) (n : SizeT)
  | eraseBreakpoint (addr : AppPc)
  | deferredBreakpoint (ra : DeferredKey) (n : SizeT)
  | eraseDeferredBreakpoint (ra : DeferredKey)
  | suspendParams (v : Option SuspendParams)
  | stopEvents (v : EventTypes)
  | stoppedContext (v : Option (EventType × Mcontext))
  | stoppedBlock (v : Option (AppPc × AppPc))
  deriving DecidableEq

def Write.apply (g : Globals) : Write → Globals
  | .breakpoint addr n => { g with breakpoints := g.breakpoints.assign addr n }
  | .eraseBreakpoint addr => { g with breakpoints := g.breakpoints.erase addr }
  | .deferredBreakpoint ra n => { g with deferredBreakpoints := g.deferredBreakpoints.assign ra n }
  | .eraseDeferredBreakpoint ra => { g with deferredBreakpoints := g.deferredBreakpoints.erase ra }
  | .suspendParams v => { g with suspendParams := v }
  | .stopEvents v => { g with stopEvents := some v }
  | .stoppedContext v => { g with stoppedContext := v }
  | .stoppedBlock v => { g with stoppedBlock := v }

/-- Whether the assignment is to one of the breakpoint maps. -/
def Write.edits : Write → Bool
  | .breakpoint _ _ => true
  | .eraseBreakpoint _ => true
  | .deferredBreakpoint _ _ => true
  | .eraseDeferredBreakpoint _ => true
  | .suspendParams _ => false
  | .stopEvents _ => false
  | .stoppedContext _ => false
  | .stoppedBlock _ => false

section Edits

variable {x : Write} (h : x.edits = true) (g : Globals)
include h

theorem Write.suspendParams_of_edits : (x.apply g).suspendParams = g.suspendParams := by
  cases x <;> first | rfl | cases h

theorem Write.stopEvents_of_edits : (x.apply g).stopEvents = g.stopEvents := by
  cases x <;> first | rfl | cases h

theorem Write.stoppedContext_of_edits : (x.apply g).stoppedContext = g.stoppedContext := by
  cases x <;> first | rfl | cases h

theorem Write.stoppedBlock_of_edits : (x.apply g).stoppedBlock = g.stoppedBlock := by
  cases x <;> first | rfl | cases h

end Edits

/-! ## Client code -/

/-- The atomic actions of client code. -/
inductive Op
  | drMutexLock
  | drMutexUnlock
  | drEventSignal
  | drEventWait
  | drSuspendAllOtherThreads
  | drResumeAllOtherThreads (params : SuspendParams)
  | drDelayFlushRegion
  | drGetCurrentDrcontext
  | drGetMcontext (flags : BitVec 32)
  | drSleep (ms : ℕ)
  | drLookupModuleByName (name : CxxString)
  | drLookupModule (pc : AppPc)
  /-- `std::string (first, last)` on application memory. -/
  | stringOfRange (first last : AppPc)
  /-- A look at the globals. -/
  | read
  | write (x : Write)
  deriving DecidableEq

/-- The reply to an action. The requests to DR that can fail say whether they succeeded;
a string constructor that throws replies `none`. -/
@[reducible] def Op.Reply : Op → Type
  | .drSuspendAllOtherThreads | .drResumeAllOtherThreads _ | .drDelayFlushRegion => Bool
  | .drGetMcontext _ => Mcontext
  | .drLookupModuleByName _ | .drLookupModule _ => Option Module
  | .stringOfRange _ _ => Option CxxString
  | .read => Globals
  | _ => Unit

/-- The actions of client code and their replies. -/
abbrev drApi : Signature :=
  ⟨Op, Op.Reply⟩

/-- What client code throws : the service's `Exception`, or the `std::length_error` of a
string constructor. -/
inductive Thrown
  | exception (msg : CxxString)
  | lengthError
  deriving DecidableEq

/-- Ways to end a thread that are not part of its code : a failed assertion aborts, the
others are undefined behaviour. -/
inductive Fault
  | assertFailed
  | emptyOptional
  | nullPointer
  | noReturn
  deriving DecidableEq

inductive Halt
  | thrown (e : Thrown)
  | fault (f : Fault)
  deriving DecidableEq

/-- Client code that returns an `α`. -/
abbrev Dr (α : Type) := Prog drApi Halt α

/-! One action each. -/

def drMutexLock : Dr Unit :=
  .act .drMutexLock .ret

def drMutexUnlock : Dr Unit :=
  .act .drMutexUnlock .ret

def drEventSignal : Dr Unit :=
  .act .drEventSignal .ret

def drEventWait : Dr Unit :=
  .act .drEventWait .ret

def drSuspendAllOtherThreads : Dr Bool :=
  .act .drSuspendAllOtherThreads .ret

def drResumeAllOtherThreads (params : SuspendParams) : Dr Bool :=
  .act (.drResumeAllOtherThreads params) .ret

def drDelayFlushRegion : Dr Bool :=
  .act .drDelayFlushRegion .ret

def drGetCurrentDrcontext : Dr Unit :=
  .act .drGetCurrentDrcontext .ret

def drGetMcontext (flags : BitVec 32) : Dr Mcontext :=
  .act (.drGetMcontext flags) .ret

def drSleep (ms : ℕ) : Dr Unit :=
  .act (.drSleep ms) .ret

def drLookupModuleByName (name : CxxString) : Dr (Option Module) :=
  .act (.drLookupModuleByName name) .ret

def drLookupModule (pc : AppPc) : Dr (Option Module) :=
  .act (.drLookupModule pc) .ret

def stringOfRange (first last : AppPc) : Dr (Option CxxString) :=
  .act (.stringOfRange first last) .ret

def readGlobals : Dr Globals :=
  .act .read .ret

def write (x : Write) : Dr Unit :=
  .act (.write x) .ret

section Bind

variable {β : Type}

@[simp] theorem drMutexLock_bind (f : Unit → Dr β) : drMutexLock.bind f = .act .drMutexLock f :=
  rfl

@[simp] theorem drMutexUnlock_bind (f : Unit → Dr β) :
    drMutexUnlock.bind f = .act .drMutexUnlock f :=
  rfl

@[simp] theorem drEventSignal_bind (f : Unit → Dr β) :
    drEventSignal.bind f = .act .drEventSignal f :=
  rfl

@[simp] theorem drEventWait_bind (f : Unit → Dr β) : drEventWait.bind f = .act .drEventWait f :=
  rfl

@[simp] theorem drSuspendAllOtherThreads_bind (f : Bool → Dr β) :
    drSuspendAllOtherThreads.bind f = .act .drSuspendAllOtherThreads f :=
  rfl

@[simp] theorem drResumeAllOtherThreads_bind (params : SuspendParams) (f : Bool → Dr β) :
    (drResumeAllOtherThreads params).bind f = .act (.drResumeAllOtherThreads params) f :=
  rfl

@[simp] theorem drDelayFlushRegion_bind (f : Bool → Dr β) :
    drDelayFlushRegion.bind f = .act .drDelayFlushRegion f :=
  rfl

@[simp] theorem drGetCurrentDrcontext_bind (f : Unit → Dr β) :
    drGetCurrentDrcontext.bind f = .act .drGetCurrentDrcontext f :=
  rfl

@[simp] theorem drGetMcontext_bind (flags : BitVec 32) (f : Mcontext → Dr β) :
    (drGetMcontext flags).bind f = .act (.drGetMcontext flags) f :=
  rfl

@[simp] theorem drSleep_bind (ms : ℕ) (f : Unit → Dr β) :
    (drSleep ms).bind f = .act (.drSleep ms) f :=
  rfl

@[simp] theorem drLookupModuleByName_bind (name : CxxString) (f : Option Module → Dr β) :
    (drLookupModuleByName name).bind f = .act (.drLookupModuleByName name) f :=
  rfl

@[simp] theorem drLookupModule_bind (pc : AppPc) (f : Option Module → Dr β) :
    (drLookupModule pc).bind f = .act (.drLookupModule pc) f :=
  rfl

@[simp] theorem stringOfRange_bind (first last : AppPc) (f : Option CxxString → Dr β) :
    (stringOfRange first last).bind f = .act (.stringOfRange first last) f :=
  rfl

@[simp] theorem readGlobals_bind (f : Globals → Dr β) : readGlobals.bind f = .act .read f :=
  rfl

@[simp] theorem write_bind (x : Write) (f : Unit → Dr β) : (write x).bind f = .act (.write x) f :=
  rfl

end Bind

/-- `throw e` for an `Exception` with this message. -/
def throwException {α : Type} (msg : CxxString) : Dr α :=
  .stop (.thrown (.exception msg))

def fault {α : Type} (f : Fault) : Dr α :=
  .stop (.fault f)

/-- `*o` for an optional : undefined when it is empty. -/
def deref {α : Type} : Option α → Dr α
  | some a => .ret a
  | none => fault .emptyOptional

end ConcreteEval
