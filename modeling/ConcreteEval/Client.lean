import ConcreteEval.Server

/-!
# `concrete_eval.cpp`

The clean calls and callbacks that DynamoRIO runs on the application threads, the start
of the server thread, and the program of every operation (`Operation.prog`).
-/

namespace ConcreteEval

/-- `stop_events->count (e)`. -/
def stopEventsCount (e : EventType) : Dr Bool := do
  let g ← readGlobals
  let stopEvents ← deref g.stopEvents
  return e ∈ stopEvents

/-- `update_fastforward_count`. -/
def updateFastforwardCount (b : Build) (addr start endPc : AppPc) : Dr Unit := do
  drMutexLock
  let g ← readGlobals
  match g.breakpoints.find? addr with
  | some n => do
    let newCount := n - 1
    write (.breakpoint addr newCount)
    if newCount = 0 then do
      write (.eraseBreakpoint addr)
      if ← stopEventsCount .breakpoint then
        suspendHelper (some .breakpoint) start endPc
    drMutexUnlock
  | none => do
    -- Removing stale instrumentation
    drMutexUnlock
    -- We need to flush without holding the lock
    totalFlush b

/-- `relevant_block_clean_call`. -/
def relevantBlockCleanCall (start endPc : AppPc) : Dr Unit := do
  if ← stopEventsCount .relevantBlock then
    suspendHelper (some .relevantBlock) start endPc

/-- The first loop of `event_module_loaded` : activate the deferred breakpoints of the
module, and collect their keys. -/
def activateDeferred (modinfo : Module) :
    List (DeferredKey × SizeT) → List DeferredKey → Dr (List DeferredKey)
  | [], toDelete => return toDelete
  | p :: l, toDelete =>
    if p.1.1.modulename = modinfo.preferredName then do
      let a : AbsOrRelAddr := {}
      let addr ← absOrRelAddrToAbsAddr (a.setReladdr p.1.1) true
      -- Internal error: expected to resolve address
      drAssert addr.isSome
      let addr ← deref addr
      -- Deferred breakpoint offset was invalid
      drAssert (modinfo.start ≤ addr ∧ addr ≤ modinfo.endPc)
      write (.breakpoint addr p.2)
      activateDeferred modinfo l (setInsert (· < ·) p.1 toDelete)
    else
      activateDeferred modinfo l toDelete

/-- The second loop of `event_module_loaded`. -/
def eraseDeferred : List DeferredKey → Dr Unit
  | [] => return ()
  | dbp :: l => do
    write (.eraseDeferredBreakpoint dbp)
    eraseDeferred l

/-- `event_module_loaded`. Its `need_flush` stays `false`. -/
def eventModuleLoaded (b : Build) (modinfo : Module) : Dr Unit := do
  let needFlush := false
  drMutexLock
  let g ← readGlobals
  let toDelete ← activateDeferred modinfo g.deferredBreakpoints.entries []
  eraseDeferred toDelete
  drMutexUnlock
  if needFlush then
    totalFlush b

/-- The block with a clean call in front of each instruction at a breakpoint. -/
def insertBreakpointCalls (breakpoints : StdMap AppPc SizeT) (firstpc lastpc : AppPc) :
    List Instr → List Item
  | [] => []
  | instr :: bb =>
    if breakpoints.count instr.pc ≠ 0 then
      .cleanCall (.updateFastforwardCount instr.pc firstpc lastpc) :: .app instr ::
        insertBreakpointCalls breakpoints firstpc lastpc bb
    else
      .app instr :: insertBreakpointCalls breakpoints firstpc lastpc bb

/-- `event_basic_block`, on the application instructions of a block. -/
def eventBasicBlock (bb : List Instr) : Dr (List Item) := do
  match bb.head?, bb.getLast? with
  | some first, some last => do
    let firstpc := first.pc
    let lastpc := last.pc + BitVec.ofNat 64 last.length
    drMutexLock
    let g ← readGlobals
    -- Absolute breakpoints
    let items :=
      if g.breakpoints.entries.any fun p => firstpc ≤ p.1 ∧ p.1 ≤ lastpc then
        insertBreakpointCalls g.breakpoints firstpc lastpc bb
      else
        bb.map .app
    let relevant ← stopEventsCount .relevantBlock
    drMutexUnlock
    if relevant then
      return .cleanCall (.relevantBlockCleanCall firstpc lastpc) :: items
    else
      return items
  | _, _ => fault .nullPointer

/-- The start of `server_thread`, before it serves. -/
def serverThread (b : Build) : Dr Unit :=
  suspendApplicationThreads b

/-! ## Programs of the operations -/

def CleanCall.prog (b : Build) : CleanCall → Dr Unit
  | .updateFastforwardCount addr start endPc =>
    ConcreteEval.updateFastforwardCount b addr start endPc
  | .relevantBlockCleanCall start endPc => ConcreteEval.relevantBlockCleanCall start endPc

/-- What the operation runs. -/
def Operation.prog (b : Build) : Operation → Dr Result
  | .serverThread => do
    ConcreteEval.serverThread b
    return .void
  | .addBreakpoint bp => do
    ConcreteEval.addBreakpoint bp
    return .void
  | .delBreakpoint bp => do
    ConcreteEval.delBreakpoint b bp
    return .void
  | .getBreakpoints => return .breakpoints (← ConcreteEval.getBreakpoints)
  | .executeUntilEvent stopEvents => return .event (← ConcreteEval.executeUntilEvent b stopEvents)
  | .getCodeBlock => return .codeBlock (← ConcreteEval.getCodeBlock)
  | .getContext => return .registers (← ConcreteEval.getContext)
  | .cleanCall c => do
    c.prog b
    return .void
  | .eventModuleLoaded modinfo => do
    ConcreteEval.eventModuleLoaded b modinfo
    return .void
  | .eventBasicBlock bb => return .items (← ConcreteEval.eventBasicBlock bb)

end ConcreteEval
