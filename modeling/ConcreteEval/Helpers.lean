import ConcreteEval.World

/-!
# `helpers.hpp`

The helpers shared by the server and the callbacks. `assert` is a parameter of the build :
under `NDEBUG` its argument is not evaluated (`cassert`). `DR_ASSERT` and
`DR_ASSERT_MSG` check in every build.
-/

namespace ConcreteEval

/-- Whether `assert` is compiled in. -/
inductive Build
  | debug
  | ndebug
  deriving DecidableEq

/-- `assert (e)`. -/
def cassert (b : Build) (e : Dr Bool) : Dr Unit :=
  match b with
  | .debug => do
    if ← e then
      return ()
    else
      fault .assertFailed
  | .ndebug => return ()

/-- `DR_ASSERT (e)`. -/
def drAssert (e : Bool) : Dr Unit :=
  if e then return () else fault .assertFailed

/-- `resume_application_threads`, to be called with the mutex. -/
def resumeApplicationThreads (b : Build) : Dr Unit := do
  cassert b do
    let g ← readGlobals
    return g.suspendParams.isSome
  write (.stoppedContext none)
  write (.stoppedBlock none)
  cassert b do
    let g ← readGlobals
    let params ← deref g.suspendParams
    drResumeAllOtherThreads params
  write (.suspendParams none)

/-- `suspend_application_threads`, to be called with the mutex. -/
def suspendApplicationThreads (b : Build) : Dr Unit := do
  cassert b do
    let g ← readGlobals
    return !g.suspendParams.isSome
  write (.suspendParams (some ⟨0, 0⟩))
  drAssert (← drSuspendAllOtherThreads)

/-- `suspend_helper`. -/
def suspendHelper (e : Option EventType) (start endPc : AppPc) : Dr Unit := do
  -- Save the event type
  drGetCurrentDrcontext
  let mcontext ← drGetMcontext drMcAll
  let e ← deref e
  write (.stoppedContext (some (e, mcontext)))
  write (.stoppedBlock (some (start, endPc)))
  -- Signal the suspender thread to suspend all application threads
  drEventSignal
  drSleep 1000

/-- `total_flush`. -/
def totalFlush (b : Build) : Dr Unit :=
  cassert b (drDelayFlushRegion)

/-- `assert_helper`. -/
def assertHelper (b : Bool) (msg : CxxString) (unlockMutexOnError : Bool) : Dr Unit :=
  if !b then
    if unlockMutexOnError then do
      drMutexUnlock
      throwException msg
    else
      throwException msg
  else
    return ()

/-- The error for a symbol that a module does not export. -/
def unableToLocateSymbol (symbol modulename : CxxString) : CxxString :=
  CxxString.cStr ("Unable to locate symbol: ".toList ++ symbol ++ " in module: ".toList ++
    modulename)

/-- The address a relative address stands for in its module. -/
def resolveOffset (moddata : Module) (reladdr : RelAddr) (unlockMutexOnError : Bool) :
    Dr AppPc :=
  if reladdr.offset.isset.offset then
    return moddata.start + reladdr.offset.offset
  else if reladdr.offset.isset.symbol then do
    let r := moddata.drGetProcAddress reladdr.offset.symbol.cStr
    assertHelper (r ≠ 0) (unableToLocateSymbol reladdr.offset.symbol reladdr.modulename)
      unlockMutexOnError
    return r
  else do
    assertHelper false "Neither offset nor symbol set in OffsetOrSymbol".toList
      unlockMutexOnError
    fault .noReturn

/-- `AbsOrRelAddr_to_AbsAddr`. -/
def absOrRelAddrToAbsAddr (a : AbsOrRelAddr) (unlockMutexOnError : Bool) :
    Dr (Option AppPc) :=
  if a.isset.absaddr then
    return some a.absaddr
  else if a.isset.reladdr then do
    let moddata ← drLookupModuleByName a.reladdr.modulename.cStr
    match moddata with
    | none => return none
    | some moddata => do
      let r ← resolveOffset moddata a.reladdr unlockMutexOnError
      return some r
  else do
    assertHelper false
      "AbsOrRelAddr contained neither an absolute or relative address.".toList
      unlockMutexOnError
    -- Control would reach the end of the function.
    fault .noReturn

/-! ## Disciplines the helpers keep to -/

section Follows

variable {L : Type} {D : Discipline drApi L} {ko : Halt → L → Prop} {l : L} {u : Bool}

theorem follows_assertHelper {c : Bool} {msg : CxxString} {ok : Unit → L → Prop}
    (hok : c = true → ok () l)
    (hko : c = false → (assertHelper false msg u).Follows D ok ko l) :
    (assertHelper c msg u).Follows D ok ko l := by
  cases c with
  | true => exact hok rfl
  | false => exact hko rfl

theorem follows_resolveOffset {moddata : Module} {reladdr : RelAddr}
    (hko : ∀ msg ok, (assertHelper false msg u).Follows D ok ko l) :
    (resolveOffset moddata reladdr u).Follows D (fun _ l' => l' = l) ko l := by
  unfold resolveOffset
  by_cases ho : reladdr.offset.isset.offset = true
  · rw [if_pos ho]
    exact rfl
  · rw [if_neg ho]
    by_cases hs : reladdr.offset.isset.symbol = true
    · rw [if_pos hs]
      exact Prog.follows_bind.mpr (follows_assertHelper (fun _ => rfl) fun _ => hko _ _)
    · rw [if_neg hs]
      exact Prog.follows_bind.mpr (hko _ _)

/-- An `assert` whose argument is known to be true. -/
theorem follows_cassert {e : Dr Bool} {ok : Unit → L → Prop}
    (h : e.Follows D (fun c l' => c = true ∧ ok () l') ko l) :
    (cassert .debug e).Follows D ok ko l := by
  refine h.bind ?_
  rintro c l' ⟨rfl, h⟩
  exact h

theorem follows_drAssert {c : Bool} {ok : Unit → L → Prop} (hok : c = true → ok () l)
    (hko : c = false → ko (.fault .assertFailed) l) : (drAssert c).Follows D ok ko l := by
  cases c with
  | true => exact hok rfl
  | false => exact hko rfl

/-- Resolving an address looks a module up, or raises. -/
theorem follows_absOrRelAddrToAbsAddr {a : AbsOrRelAddr}
    (hl : ∀ name, D.allows l (.drLookupModuleByName name) ∧
      ∀ r, D.next l (.drLookupModuleByName name) r = l)
    (hko : ∀ msg ok, (assertHelper false msg u).Follows D ok ko l) :
    (absOrRelAddrToAbsAddr a u).Follows D (fun _ l' => l' = l) ko l := by
  unfold absOrRelAddrToAbsAddr
  by_cases ha : a.isset.absaddr = true
  · rw [if_pos ha]
    exact rfl
  · rw [if_neg ha]
    by_cases hr : a.isset.reladdr = true
    · rw [if_pos hr]
      refine ⟨(hl _).1, fun moddata _ => ?_⟩
      rw [(hl _).2]
      cases moddata with
      | none => exact rfl
      | some moddata => exact (follows_resolveOffset hko).bind fun _ _ h => h
    · rw [if_neg hr]
      exact Prog.follows_bind.mpr (hko _ _)

end Follows

end ConcreteEval
