import ConcreteEval.Helpers

/-!
# `ConcreteEvaluator_server.cpp`

The calls of the service, as `ConcreteEvaluatorHandler` implements them. Printing is left
out. `executeUntilEvent` is cut at its wait : `resumeUntilEvent` is the part that lets
the application run, `stopAtEvent` the part that waits for an event and stops it.
-/

namespace ConcreteEval

/-- `ConcreteEvaluatorHandler::addBreakpoint`. -/
def addBreakpoint (bp : WireBreakpoint) : Dr Unit := do
  let addr ← absOrRelAddrToAbsAddr bp.1.addr false
  drMutexLock
  match addr with
  -- We were able to resolve the address now
  | some addr => do
    let g ← readGlobals
    assertHelper (g.breakpoints.count addr = 0 ∨ g.breakpoints.find? addr = some 0)
      "Breakpoint already exists".toList true
    write (.breakpoint addr bp.1.count)
    drMutexUnlock
  -- We were unable to resolve the address
  | none => do
    assertHelper bp.1.addr.isset.reladdr
      "Internal error: Expected a relative address".toList true
    let ra := bp.reladdr
    let g ← readGlobals
    assertHelper (g.deferredBreakpoints.count ra = 0) "Breakpoint already exists".toList true
    write (.deferredBreakpoint ra bp.1.count)
    drMutexUnlock

/-- `ConcreteEvaluatorHandler::delBreakpoint`. -/
def delBreakpoint (b : Build) (bp : WireBreakpoint) : Dr Unit := do
  let addr ← absOrRelAddrToAbsAddr bp.1.addr false
  drMutexLock
  match addr with
  | some addr => do
    let g ← readGlobals
    assertHelper (g.breakpoints.count addr ≠ 0) "Breakpoint not found".toList true
    write (.eraseBreakpoint addr)
    totalFlush b
    drMutexUnlock
  -- We were unable to resolve the address
  | none => do
    assertHelper bp.1.addr.isset.reladdr
      "Internal error: Expected a relative address".toList true
    let ra := bp.reladdr
    let g ← readGlobals
    assertHelper (g.deferredBreakpoints.count ra ≠ 0) "Breakpoint not found".toList true
    write (.eraseDeferredBreakpoint ra)
    drMutexUnlock

/-- The element of `getBreakpoints` for an entry of `breakpoints`. -/
def listedBreakpoint (p : AppPc × SizeT) : Breakpoint :=
  let a : AbsOrRelAddr := {}
  { addr := a.setAbsaddr p.1, count := p.2 }

/-- `ConcreteEvaluatorHandler::getBreakpoints`. -/
def getBreakpoints : Dr (List Breakpoint) := do
  drMutexLock
  let g ← readGlobals
  let s := g.breakpoints.entries.foldl
    (fun s p => setInsert (fun x y => x.lt y = true) (listedBreakpoint p) s) []
  drMutexUnlock
  return s

/-- `ConcreteEvaluatorHandler::executeUntilEvent`, up to the resumed application. -/
def resumeUntilEvent (b : Build) (stopEvents : EventTypes) : Dr Unit := do
  write (.stopEvents stopEvents)
  drMutexLock
  let g ← readGlobals
  assertHelper g.suspendParams.isSome "Execution is not currently suspended.".toList true
  -- The mutex is released before resume_application_threads
  drMutexUnlock
  totalFlush b
  resumeApplicationThreads b

/-- `ConcreteEvaluatorHandler::executeUntilEvent`, from the wait on. -/
def stopAtEvent (b : Build) : Dr EventType := do
  -- Block until we stop.
  drEventWait
  suspendApplicationThreads b
  let g ← readGlobals
  assertHelper g.stoppedContext.isSome "Unable to locate stopped context.".toList true
  let c ← deref g.stoppedContext
  return c.1

/-- `ConcreteEvaluatorHandler::executeUntilEvent`. -/
def executeUntilEvent (b : Build) (stopEvents : EventTypes) : Dr EventType := do
  resumeUntilEvent b stopEvents
  stopAtEvent b

/-- The `moduleinfo` of a block at `addr` in the module `moddata`. -/
def moduleInfo (moddata : Module) (addr : AbsAddr) : ModuleInfo :=
  let base := moddata.start
  let offset : OffsetOrSymbol := {}
  { base := base
    addr := { modulename := moddata.preferredName, offset := offset.setOffset (addr - base) } }

/-- `ConcreteEvaluatorHandler::getCodeBlock`. -/
def getCodeBlock : Dr CodeBlock := do
  drMutexLock
  let g ← readGlobals
  assertHelper g.stoppedBlock.isSome "Unable to locate stopped block.".toList true
  let block ← deref g.stoppedBlock
  let bytes ← stringOfRange block.1 block.2
  match bytes with
  | none => .stop (.thrown .lengthError)
  | some bytes => do
    drMutexUnlock
    let moddata ← drLookupModule block.1
    return {
      addr := block.1
      bytes := bytes
      moduleinfo := moddata.map fun m => moduleInfo m block.1 }

/-- `DR_REG_START_GPR`, the first general-purpose register. -/
def drRegStartGpr : ℕ := 0

/-- `DR_REG_STOP_GPR`, the last general-purpose register. -/
def drRegStopGpr : ℕ := 15

/-- `get_register_name`. -/
def getRegisterName (i : ℕ) : CxxString :=
  (["rax", "rcx", "rdx", "rbx", "rsp", "rbp", "rsi", "rdi", "r8", "r9", "r10", "r11", "r12", "r13",
    "r14", "r15"].getD i "").toList

/-- `reg_get_value`. -/
def regGetValue (i : ℕ) (mc : Mcontext) : BitVec 64 :=
  mc.gpr (Fin.ofNat 16 i)

/-- The first `n` bytes of a value in memory, lowest first. -/
def littleEndian {w : ℕ} (n : ℕ) (v : BitVec w) : CxxString :=
  (List.range n).map fun k => Char.ofNat ((v >>> (8 * k)).toNat % 256)

/-- `ConcreteEvaluatorHandler::getContext`. -/
def getContext : Dr RegisterContext := do
  drMutexLock
  let g ← readGlobals
  assertHelper g.stoppedContext.isSome "Unable to locate stopped context.".toList true
  let c ← deref g.stoppedContext
  let mc := c.2
  drMutexUnlock
  let regs : RegisterContext :=
    (List.range' drRegStartGpr (drRegStopGpr - drRegStartGpr)).foldl
      (fun m i => m.assign (getRegisterName i) (littleEndian 8 (regGetValue i mc))) ∅
  return regs.assign "flags".toList (littleEndian 4 mc.flags)

end ConcreteEval
