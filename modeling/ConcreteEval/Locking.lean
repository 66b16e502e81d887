import ConcreteEval.Client

/-!
# Operations and the mutex

A discipline locks (`Discipline.Locks`) if it has a local state without the mutex and one with
it, moves between the two at `dr_mutex_lock` and `dr_mutex_unlock`, and does not mind the actions
that have nothing to do with either. Every operation that keeps the mutex only between these two
follows such a discipline from the first local state, and ends in it by returning or raising. What
is left to the discipline are the actions that touch more than the mutex : the flush of
`delBreakpoint`, the string of `getCodeBlock`, and the suspension.
-/

namespace ConcreteEval

/-- Whether the action neither concerns the mutex nor stops the application, and cannot fail. -/
def Op.isPlain : Op → Bool
  | .drMutexLock | .drMutexUnlock | .drEventWait | .drSuspendAllOtherThreads
  | .drResumeAllOtherThreads _ | .drDelayFlushRegion | .stringOfRange _ _ => false
  | _ => true

variable {L : Type}

/-- The action is allowed and leaves the local state. -/
def Discipline.Stays (D : Discipline drApi L) (l : L) (o : Op) : Prop :=
  D.allows l o ∧ ∀ r, D.next l o r = l

structure Discipline.Locks (D : Discipline drApi L) (free locked : L) : Prop where
  lock : D.allows free .drMutexLock ∧ ∀ r, D.next free .drMutexLock r = locked
  unlock : D.allows locked .drMutexUnlock ∧ ∀ r, D.next locked .drMutexUnlock r = free
  plainFree : ∀ o : Op, o.isPlain = true → D.Stays free o
  plainLocked : ∀ o : Op, o.isPlain = true → D.Stays locked o
  flush : D.Stays free .drDelayFlushRegion

section Locks

variable {D : Discipline drApi L} {free locked l : L} {α β : Type} {ok : Unit → L → Prop}
  {ko : Halt → L → Prop}

/-- One action that leaves the local state, then the rest. -/
theorem follows_stay {o : Op} {f : o.Reply → Dr α} {ok : α → L → Prop} (ho : D.Stays l o)
    (hf : ∀ r, (f r).Follows D ok ko l) :
    ((Prog.act o .ret : Dr o.Reply).bind f).Follows D ok ko l := by
  refine .step ho.1 fun r _ => ?_
  rw [ho.2 r]
  exact hf r

/-- A check that raises. -/
theorem follows_check {c : Bool} {msg : CxxString} {u : Bool} {f : Unit → Dr α}
    {ok : α → L → Prop} (hf : c = true → (f ()).Follows D ok ko l)
    (hko : (assertHelper false msg u).Follows D (fun _ _ => False) ko l) :
    ((assertHelper c msg u).bind f).Follows D ok ko l := by
  cases c with
  | true => exact hf rfl
  | false => exact Prog.Follows.bind hko fun _ _ h => h.elim

variable (hfault : ∀ f l, ko (.fault f) l)
include hfault

theorem follows_cassert_stay {b : Build} {e : Dr Bool} (hok : ok () l)
    (he : e.Follows D (fun _ l' => l' = l) ko l) : (cassert b e).Follows D ok ko l := by
  cases b with
  | debug =>
    refine Prog.Follows.bind he ?_
    rintro c _ rfl
    cases c with
    | true => exact hok
    | false => exact hfault _ _
  | ndebug => exact hok

theorem follows_totalFlush_stay {b : Build} (hflush : b = .debug → D.Stays l .drDelayFlushRegion)
    (hok : ok () l) : (totalFlush b).Follows D ok ko l := by
  cases b with
  | debug =>
    refine follows_cassert_stay hfault hok ⟨(hflush rfl).1, fun r _ => ?_⟩
    exact (hflush rfl).2 r
  | ndebug => exact hok

theorem follows_drAssert_stay {c : Bool} (hok : c = true → ok () l) :
    (drAssert c).Follows D ok ko l :=
  follows_drAssert hok fun _ => hfault _ _

variable (hD : D.Locks free locked) (hko : ∀ msg, ko (.thrown (.exception msg)) free)
include hD hko

omit hfault hD in
/-- Raising without the mutex. -/
theorem follows_raise (msg : CxxString) (ok : Unit → L → Prop) :
    (assertHelper false msg false).Follows D ok ko free :=
  hko msg

omit hfault in
/-- Raising with the mutex. -/
theorem follows_raise_unlock (msg : CxxString) (ok : Unit → L → Prop) :
    (assertHelper false msg true).Follows D ok ko locked := by
  refine ⟨hD.unlock.1, fun r _ => ?_⟩
  rw [hD.unlock.2]
  exact hko msg

omit hfault in
theorem follows_resolve (a : AbsOrRelAddr) :
    (absOrRelAddrToAbsAddr a false).Follows D (fun _ l' => l' = free) ko free :=
  follows_absOrRelAddrToAbsAddr (fun _ => hD.plainFree _ rfl) (follows_raise hko)

omit hfault in
theorem follows_resolve_unlock (a : AbsOrRelAddr) :
    (absOrRelAddrToAbsAddr a true).Follows D (fun _ l' => l' = locked) ko locked :=
  follows_absOrRelAddrToAbsAddr (fun _ => hD.plainLocked _ rfl) (follows_raise_unlock hD hko)

omit hfault hko in
/-- Taking the mutex. -/
theorem follows_lock {f : Unit → Dr α} {ok : α → L → Prop}
    (hf : (f ()).Follows D ok ko locked) : (drMutexLock.bind f).Follows D ok ko free := by
  refine .step hD.lock.1 fun r _ => ?_
  rw [hD.lock.2]
  exact hf

omit hfault hko in
/-- Releasing the mutex. -/
theorem follows_unlock {f : Unit → Dr α} {ok : α → L → Prop}
    (hf : (f ()).Follows D ok ko free) : (drMutexUnlock.bind f).Follows D ok ko locked := by
  refine .step hD.unlock.1 fun r _ => ?_
  rw [hD.unlock.2]
  exact hf

omit hfault hko in
theorem follows_unlocked : drMutexUnlock.Follows D (fun _ l => l = free) ko locked :=
  follows_unlock hD (f := .ret) rfl

omit hfault in
theorem locks_addBreakpoint (bp : WireBreakpoint) :
    (addBreakpoint bp).Follows D (fun _ l => l = free) ko free := by
  refine Prog.Follows.bind (follows_resolve hD hko _) ?_
  rintro addr _ rfl
  refine follows_lock hD ?_
  cases addr with
  | some addr =>
    refine follows_stay (hD.plainLocked _ rfl) fun g => follows_check (fun _ => ?_)
      (follows_raise_unlock hD hko _ _)
    exact follows_stay (hD.plainLocked _ rfl) fun _ => follows_unlocked hD
  | none =>
    refine follows_check (fun _ => ?_) (follows_raise_unlock hD hko _ _)
    refine follows_stay (hD.plainLocked _ rfl) fun g => follows_check (fun _ => ?_)
      (follows_raise_unlock hD hko _ _)
    exact follows_stay (hD.plainLocked _ rfl) fun _ => follows_unlocked hD

/-- `delBreakpoint` flushes with the mutex. -/
theorem locks_delBreakpoint {b : Build} (hflush : b = .debug → D.Stays locked .drDelayFlushRegion)
    (bp : WireBreakpoint) :
    (delBreakpoint b bp).Follows D (fun _ l => l = free) ko free := by
  refine Prog.Follows.bind (follows_resolve hD hko _) ?_
  rintro addr _ rfl
  refine follows_lock hD ?_
  cases addr with
  | some addr =>
    refine follows_stay (hD.plainLocked _ rfl) fun g => follows_check (fun _ => ?_)
      (follows_raise_unlock hD hko _ _)
    refine follows_stay (hD.plainLocked _ rfl) fun _ => Prog.follows_bind.mpr ?_
    exact follows_totalFlush_stay hfault hflush (follows_unlocked hD)
  | none =>
    refine follows_check (fun _ => ?_) (follows_raise_unlock hD hko _ _)
    refine follows_stay (hD.plainLocked _ rfl) fun g => follows_check (fun _ => ?_)
      (follows_raise_unlock hD hko _ _)
    exact follows_stay (hD.plainLocked _ rfl) fun _ => follows_unlocked hD

omit hfault hko in
theorem locks_getBreakpoints : getBreakpoints.Follows D (fun _ l => l = free) ko free := by
  refine follows_lock hD (follows_stay (hD.plainLocked _ rfl) fun g => follows_unlock hD ?_)
  exact rfl

omit hfault in
/-- The string constructor of `getCodeBlock` is called with the mutex. -/
theorem locks_getCodeBlock
    (hstring : ∀ first last, D.allows locked (.stringOfRange first last) ∧
      (∀ s, D.next locked (.stringOfRange first last) (some s) = locked) ∧
      ko (.thrown .lengthError) (D.next locked (.stringOfRange first last) none)) :
    getCodeBlock.Follows D (fun _ l => l = free) ko free := by
  refine follows_lock hD (follows_stay (hD.plainLocked _ rfl) fun g => follows_check (fun hb => ?_)
    (follows_raise_unlock hD hko _ _))
  obtain ⟨block, hb⟩ := Option.isSome_iff_exists.mp hb
  rw [hb]
  obtain ⟨hallows, hsome, hnone⟩ := hstring block.1 block.2
  refine .step hallows fun bytes _ => ?_
  cases bytes with
  | none => exact hnone
  | some bytes =>
    rw [hsome]
    exact follows_unlock hD (follows_stay (hD.plainFree _ rfl) fun _ => rfl)

omit hfault in
theorem locks_getContext : getContext.Follows D (fun _ l => l = free) ko free := by
  refine follows_lock hD (follows_stay (hD.plainLocked _ rfl) fun g => follows_check (fun hc => ?_)
    (follows_raise_unlock hD hko _ _))
  obtain ⟨c, hc⟩ := Option.isSome_iff_exists.mp hc
  rw [hc]
  exact follows_unlock hD rfl

omit hD hko in
theorem follows_stopEventsCount {e : EventType} {ok : Bool → L → Prop}
    (hl : D.Stays l .read) (hok : ∀ c, ok c l) : (stopEventsCount e).Follows D ok ko l := by
  refine follows_stay hl fun g => ?_
  cases g.stopEvents with
  | none => exact hfault _ _
  | some S => exact hok _

omit hfault hD hko in
theorem follows_suspendHelper {e : EventType} {start endPc : AppPc}
    (hl : ∀ o : Op, o.isPlain = true → D.Stays l o) (hok : ok () l) :
    (suspendHelper (some e) start endPc).Follows D ok ko l :=
  follows_stay (hl _ rfl) fun _ => follows_stay (hl _ rfl) fun _ => follows_stay (hl _ rfl) fun _ =>
    follows_stay (hl _ rfl) fun _ => follows_stay (hl _ rfl) fun _ =>
      follows_stay (f := .ret) (hl _ rfl) fun _ => hok

omit hko in
theorem locks_updateFastforwardCount (b : Build) (addr start endPc : AppPc) :
    (updateFastforwardCount b addr start endPc).Follows D (fun _ l => l = free) ko free := by
  refine follows_lock hD (follows_stay (hD.plainLocked _ rfl) fun g => ?_)
  cases g.breakpoints.find? addr with
  | none => exact follows_unlock hD (follows_totalFlush_stay hfault (fun _ => hD.flush) rfl)
  | some n =>
    refine follows_stay (hD.plainLocked _ rfl) fun _ => ?_
    by_cases hn : n - 1 = 0
    · simp only [hn]
      refine follows_stay (hD.plainLocked _ rfl) fun _ => Prog.follows_bind.mpr ?_
      refine follows_stopEventsCount hfault (hD.plainLocked _ rfl) fun c => ?_
      cases c with
      | true =>
        exact Prog.follows_bind.mpr (follows_suspendHelper hD.plainLocked (follows_unlocked hD))
      | false => exact follows_unlocked hD
    · simp only [hn]
      exact follows_unlocked hD

omit hko in
theorem locks_relevantBlockCleanCall (start endPc : AppPc) :
    (relevantBlockCleanCall start endPc).Follows D (fun _ l => l = free) ko free := by
  refine Prog.follows_bind.mpr (follows_stopEventsCount hfault (hD.plainFree _ rfl) fun c => ?_)
  cases c with
  | true => exact follows_suspendHelper hD.plainFree rfl
  | false => exact rfl

theorem locks_activateDeferred (modinfo : Module) (l : List (DeferredKey × SizeT))
    (toDelete : List DeferredKey) :
    (activateDeferred modinfo l toDelete).Follows D (fun _ l => l = locked) ko locked := by
  induction l generalizing toDelete with
  | nil => exact rfl
  | cons p l ih =>
    rw [activateDeferred]
    split_ifs
    · refine Prog.Follows.bind (follows_resolve_unlock hD hko _) ?_
      rintro addr _ rfl
      refine Prog.follows_bind.mpr (follows_drAssert_stay hfault fun ha => ?_)
      obtain ⟨addr, rfl⟩ := Option.isSome_iff_exists.mp ha
      simp only [deref, Prog.bind_eq, Prog.ret_bind]
      refine Prog.follows_bind.mpr (follows_drAssert_stay hfault fun _ => ?_)
      exact follows_stay (hD.plainLocked _ rfl) fun _ => ih _
    · exact ih _

omit hfault hko in
theorem locks_eraseDeferred (l : List DeferredKey) :
    (eraseDeferred l).Follows D (fun _ l => l = locked) ko locked := by
  induction l with
  | nil => exact rfl
  | cons dbp l ih => exact follows_stay (hD.plainLocked _ rfl) fun _ => ih

theorem locks_eventModuleLoaded (b : Build) (modinfo : Module) :
    (eventModuleLoaded b modinfo).Follows D (fun _ l => l = free) ko free := by
  refine follows_lock hD (follows_stay (hD.plainLocked _ rfl) fun g => ?_)
  refine Prog.Follows.bind (locks_activateDeferred hfault hD hko modinfo _ _) ?_
  rintro toDelete _ rfl
  refine Prog.Follows.bind (locks_eraseDeferred hD toDelete) ?_
  rintro _ _ rfl
  exact follows_unlock hD rfl

omit hko in
theorem locks_eventBasicBlock (bb : List Instr) :
    (eventBasicBlock bb).Follows D (fun _ l => l = free) ko free := by
  unfold eventBasicBlock
  cases bb.head? with
  | none => exact hfault _ _
  | some first =>
    cases bb.getLast? with
    | none => exact hfault _ _
    | some last =>
      refine follows_lock hD (follows_stay (hD.plainLocked _ rfl) fun g => Prog.follows_bind.mpr ?_)
      refine follows_stopEventsCount hfault (hD.plainLocked _ rfl) fun relevant => ?_
      refine follows_unlock hD ?_
      cases relevant <;> exact rfl

/-- Every operation but `executeUntilEvent` and the start keeps to the mutex. -/
theorem locks_prog {b : Build} {op : Operation}
    (hflush : b = .debug → (∃ bp, op = .delBreakpoint bp) → D.Stays locked .drDelayFlushRegion)
    (hstring : ∀ first last, D.allows locked (.stringOfRange first last) ∧
      (∀ s, D.next locked (.stringOfRange first last) (some s) = locked) ∧
      ko (.thrown .lengthError) (D.next locked (.stringOfRange first last) none))
    (hstart : op ≠ .serverThread) (hexec : ∀ S, op ≠ .executeUntilEvent S) :
    (op.prog b).Follows D (fun _ l => l = free) ko free := by
  have hret : ∀ {α : Type} {p : Dr α} (f : α → Result), p.Follows D (fun _ l => l = free) ko free →
      (p.bind fun a => .ret (f a)).Follows D (fun _ l => l = free) ko free :=
    fun f h => Prog.Follows.bind h fun _ _ h => h
  cases op with
  | serverThread => exact absurd rfl hstart
  | addBreakpoint bp => exact hret _ (locks_addBreakpoint hD hko bp)
  | delBreakpoint bp =>
    exact hret _ (locks_delBreakpoint hfault hD hko (fun hb => hflush hb ⟨bp, rfl⟩) bp)
  | getBreakpoints => exact hret _ (locks_getBreakpoints hD)
  | executeUntilEvent S => exact absurd rfl (hexec S)
  | getCodeBlock => exact hret _ (locks_getCodeBlock hD hko hstring)
  | getContext => exact hret _ (locks_getContext hD hko)
  | cleanCall c =>
    cases c with
    | updateFastforwardCount addr start endPc =>
      exact hret _ (locks_updateFastforwardCount hfault hD b addr start endPc)
    | relevantBlockCleanCall start endPc =>
      exact hret _ (locks_relevantBlockCleanCall hfault hD start endPc)
  | eventModuleLoaded modinfo => exact hret _ (locks_eventModuleLoaded hfault hD hko b modinfo)
  | eventBasicBlock bb => exact hret _ (locks_eventBasicBlock hfault hD bb)

end Locks

end ConcreteEval
