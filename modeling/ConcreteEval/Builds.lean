import ConcreteEval.Elision
import ConcreteEval.Firing
import ConcreteEval.Locking

/-!
# The client without `assert`

In a build with `NDEBUG` the argument of `assert` is not evaluated. Some of these arguments only
look at the globals; two of them are requests to DR whose success is asserted, the flush of
`total_flush` and the resume of `resume_application_threads`. The others ask DR outside of
`assert`, or within `DR_ASSERT`, which is always compiled in.
-/

namespace ConcreteEval

/-- The requests to suspend, to resume and to flush. -/
def Op.isRequest : Op → Bool
  | .drSuspendAllOtherThreads | .drResumeAllOtherThreads _ | .drDelayFlushRegion => true
  | _ => false

/-- The requests that are made within `assert`. -/
def Op.isAsserted : Op → Bool
  | .drResumeAllOtherThreads _ | .drDelayFlushRegion => true
  | _ => false

/-- The program makes no request that is made within `assert`. -/
abbrev Silent {α : Type} (p : Dr α) : Prop :=
  Prog.Within (σ := drApi) (fun o => Op.isAsserted o = false) p

/-- The second program is the first without `assert`. -/
abbrev WithoutAssert {α : Type} (p q : Dr α) : Prop :=
  Prog.Elides (σ := drApi) (fun o => Op.isAsserted o = false)
    (fun o => o = Op.read ∨ Op.isAsserted o = true) (fun e => ∃ f, e = .fault f) p q

/-! ## The operations that do not assert a request -/

section Silent

variable {α β : Type}

theorem silent_stay {o : Op} (ho : o.isAsserted = false) :
    (Discipline.only (σ := drApi) fun o => Op.isAsserted o = false).Stays () o :=
  ⟨ho, fun _ => rfl⟩

/-- One action, then the rest. -/
theorem silent_step {o : Op} {f : o.Reply → Dr α} (ho : o.isAsserted = false)
    (hf : ∀ r, Silent (f r)) : Silent ((Prog.act o .ret : Dr o.Reply).bind f) :=
  follows_stay (silent_stay ho) hf

theorem silent_raise (msg : CxxString) (u : Bool) (ok : Unit → Unit → Prop) :
    (assertHelper false msg u).Follows
      (Discipline.only (σ := drApi) fun o => Op.isAsserted o = false) ok (fun _ _ => True) () := by
  cases u with
  | true => exact ⟨rfl, fun _ _ => trivial⟩
  | false => trivial

theorem silent_check {c : Bool} {msg : CxxString} {u : Bool} {f : Unit → Dr α}
    (hf : c = true → Silent (f ())) : Silent ((assertHelper c msg u).bind f) :=
  follows_check hf (silent_raise msg u _)

theorem silent_assertHelper (c : Bool) (msg : CxxString) (u : Bool) :
    Silent (assertHelper c msg u) :=
  follows_assertHelper (fun _ => trivial) fun _ => silent_raise msg u _

theorem silent_drAssert (c : Bool) : Silent (drAssert c) := by
  cases c <;> trivial

theorem silent_deref (o : Option α) : Silent (deref o) := by
  cases o <;> trivial

theorem silent_resolve (a : AbsOrRelAddr) (u : Bool) : Silent (absOrRelAddrToAbsAddr a u) :=
  have hfollows := follows_absOrRelAddrToAbsAddr (fun _ => silent_stay rfl)
    fun msg ok => silent_raise msg u ok
  hfollows.mono (fun _ _ _ => trivial) fun _ _ _ => trivial

theorem silent_addBreakpoint (bp : WireBreakpoint) : Silent (addBreakpoint bp) := by
  refine .bind (silent_resolve _ _) fun addr => silent_step rfl fun _ => ?_
  cases addr with
  | some addr =>
    exact silent_step rfl fun g => silent_check fun _ => silent_step rfl fun _ =>
      silent_step (f := .ret) rfl fun _ => trivial
  | none =>
    exact silent_check fun _ => silent_step rfl fun g => silent_check fun _ =>
      silent_step rfl fun _ => silent_step (f := .ret) rfl fun _ => trivial

theorem silent_getBreakpoints : Silent getBreakpoints :=
  silent_step rfl fun _ => silent_step rfl fun _ => silent_step rfl fun _ => trivial

theorem silent_getCodeBlock : Silent getCodeBlock := by
  refine silent_step rfl fun _ => silent_step rfl fun g => silent_check fun _ => ?_
  refine .bind (silent_deref _) fun block => silent_step rfl fun bytes => ?_
  cases bytes with
  | none => trivial
  | some bytes => exact silent_step rfl fun _ => silent_step rfl fun _ => trivial

theorem silent_getContext : Silent getContext := by
  refine silent_step rfl fun _ => silent_step rfl fun g => silent_check fun _ => ?_
  exact .bind (silent_deref _) fun c => silent_step rfl fun _ => trivial

theorem silent_stopEventsCount (e : EventType) : Silent (stopEventsCount e) :=
  silent_step rfl fun _ => .bind (silent_deref _) fun _ => trivial

theorem silent_suspendHelper (e : EventType) (start endPc : AppPc) :
    Silent (suspendHelper (some e) start endPc) :=
  silent_step rfl fun _ => silent_step rfl fun _ => silent_step rfl fun _ =>
    silent_step rfl fun _ => silent_step rfl fun _ => silent_step (f := .ret) rfl fun _ => trivial

theorem silent_relevantBlockCleanCall (start endPc : AppPc) :
    Silent (relevantBlockCleanCall start endPc) := by
  refine .bind (silent_stopEventsCount _) fun c => ?_
  cases c with
  | true => exact silent_suspendHelper _ _ _
  | false => trivial

theorem silent_activateDeferred (modinfo : Module) (l : List (DeferredKey × SizeT))
    (toDelete : List DeferredKey) : Silent (activateDeferred modinfo l toDelete) := by
  induction l generalizing toDelete with
  | nil => trivial
  | cons p l ih =>
    rw [activateDeferred]
    split_ifs
    · refine .bind (silent_resolve _ _) fun addr => .bind (silent_drAssert _) fun _ => ?_
      refine .bind (silent_deref _) fun addr => .bind (silent_drAssert _) fun _ => ?_
      exact silent_step rfl fun _ => ih _
    · exact ih _

theorem silent_eraseDeferred (l : List DeferredKey) : Silent (eraseDeferred l) := by
  induction l with
  | nil => trivial
  | cons dbp l ih => exact silent_step rfl fun _ => ih

theorem silent_eventModuleLoaded (b : Build) (modinfo : Module) :
    Silent (eventModuleLoaded b modinfo) := by
  refine silent_step rfl fun _ => silent_step rfl fun g => ?_
  refine .bind (silent_activateDeferred modinfo _ _) fun toDelete => ?_
  exact .bind (silent_eraseDeferred toDelete) fun _ => silent_step rfl fun _ => trivial

theorem silent_eventBasicBlock (bb : List Instr) : Silent (eventBasicBlock bb) := by
  unfold eventBasicBlock
  cases bb.head? with
  | none => trivial
  | some first =>
    cases bb.getLast? with
    | none => trivial
    | some last =>
      refine silent_step rfl fun _ => silent_step rfl fun g => ?_
      refine .bind (silent_stopEventsCount _) fun relevant => silent_step rfl fun _ => ?_
      cases relevant <;> trivial

end Silent

/-! ## What is left without `assert` -/

section WithoutAssert

variable {α β : Type}

/-- The value a program returns. -/
theorem withoutAssert_map {p q : Dr α} (f : α → β) (h : WithoutAssert p q) :
    WithoutAssert (p.bind fun a => .ret (f a)) (q.bind fun a => .ret (f a)) :=
  .bind h fun a => .ret (f a)

theorem withoutAssert_step {o : Op} {f g : o.Reply → Dr α} (ho : o.isAsserted = false)
    (h : ∀ r, WithoutAssert (f r) (g r)) :
    WithoutAssert ((Prog.act o .ret : Dr o.Reply).bind f) ((Prog.act o .ret : Dr o.Reply).bind g) :=
  .act ho h

theorem withoutAssert_check {c : Bool} {msg : CxxString} {u : Bool} {f g : Unit → Dr α}
    (h : WithoutAssert (f ()) (g ())) :
    WithoutAssert ((assertHelper c msg u).bind f) ((assertHelper c msg u).bind g) :=
  .bind (.refl (silent_assertHelper c msg u)) fun _ => h

/-- An assertion about the globals. -/
theorem withoutAssert_look (f : Globals → Bool) :
    WithoutAssert (cassert .debug (readGlobals.bind fun g => .ret (f g))) (.ret ()) := by
  refine .skip (Or.inl rfl) trivial fun g => ?_
  change WithoutAssert (if f g then .ret () else fault .assertFailed) _
  split_ifs
  · exact .ret ()
  · exact .abort ⟨_, rfl⟩ trivial

theorem withoutAssert_totalFlush : WithoutAssert (totalFlush .debug) (totalFlush .ndebug) := by
  refine .skip (Or.inr rfl) trivial fun c => ?_
  cases c with
  | true => exact .ret ()
  | false => exact .abort ⟨_, rfl⟩ trivial

theorem withoutAssert_resumeApplicationThreads :
    WithoutAssert (resumeApplicationThreads .debug) (resumeApplicationThreads .ndebug) := by
  refine .bind (withoutAssert_look _) fun _ => withoutAssert_step rfl fun _ =>
    withoutAssert_step rfl fun _ => .bind ?_ fun _ => withoutAssert_step (f := .ret) rfl .ret
  refine .skip (Or.inl rfl) trivial fun g => ?_
  change WithoutAssert (((deref g.suspendParams).bind drResumeAllOtherThreads).bind fun c =>
    if c = true then .ret () else fault .assertFailed) (.ret ())
  cases g.suspendParams with
  | none => exact .abort ⟨_, rfl⟩ trivial
  | some params =>
    refine .skip (Or.inr rfl) trivial fun c => ?_
    cases c with
    | true => exact .ret ()
    | false => exact .abort ⟨_, rfl⟩ trivial

theorem withoutAssert_suspendApplicationThreads :
    WithoutAssert (suspendApplicationThreads .debug) (suspendApplicationThreads .ndebug) :=
  .bind (withoutAssert_look _) fun _ => withoutAssert_step rfl fun _ =>
    withoutAssert_step rfl fun c => .refl (silent_drAssert c)

theorem withoutAssert_delBreakpoint (bp : WireBreakpoint) :
    WithoutAssert (delBreakpoint .debug bp) (delBreakpoint .ndebug bp) := by
  refine .bind (.refl (silent_resolve _ _)) fun addr => withoutAssert_step rfl fun _ => ?_
  cases addr with
  | some addr =>
    refine withoutAssert_step rfl fun g => withoutAssert_check (withoutAssert_step rfl fun _ => ?_)
    exact .bind withoutAssert_totalFlush fun _ => withoutAssert_step (f := .ret) rfl .ret
  | none =>
    refine withoutAssert_check (withoutAssert_step rfl fun g => withoutAssert_check ?_)
    exact withoutAssert_step rfl fun _ => withoutAssert_step (f := .ret) rfl .ret

theorem withoutAssert_resumeUntilEvent (S : EventTypes) :
    WithoutAssert (resumeUntilEvent .debug S) (resumeUntilEvent .ndebug S) := by
  refine withoutAssert_step rfl fun _ => withoutAssert_step rfl fun _ =>
    withoutAssert_step rfl fun g =>
    withoutAssert_check (withoutAssert_step rfl fun _ => ?_)
  exact .bind withoutAssert_totalFlush fun _ => withoutAssert_resumeApplicationThreads

theorem withoutAssert_stopAtEvent : WithoutAssert (stopAtEvent .debug) (stopAtEvent .ndebug) := by
  refine withoutAssert_step rfl fun _ => .bind withoutAssert_suspendApplicationThreads fun _ => ?_
  refine withoutAssert_step rfl fun g => withoutAssert_check ?_
  exact withoutAssert_map _ (.refl (silent_deref _))

theorem withoutAssert_updateFastforwardCount (addr start endPc : AppPc) :
    WithoutAssert (updateFastforwardCount .debug addr start endPc)
      (updateFastforwardCount .ndebug addr start endPc) := by
  refine withoutAssert_step rfl fun _ => withoutAssert_step rfl fun g => ?_
  cases g.breakpoints.find? addr with
  | none => exact withoutAssert_step rfl fun _ => withoutAssert_totalFlush
  | some n =>
    refine withoutAssert_step rfl fun _ => .refl ?_
    by_cases hn : n - 1 = 0
    · simp only [hn]
      refine silent_step rfl fun _ => .bind (silent_stopEventsCount _) fun c => ?_
      cases c with
      | true =>
        exact .bind (silent_suspendHelper _ _ _) fun _ =>
          silent_step (f := .ret) rfl fun _ => trivial
      | false => exact silent_step (f := .ret) rfl fun _ => trivial
    · simp only [hn]
      exact silent_step (f := .ret) rfl fun _ => trivial

/-- Without `assert` every operation does the same but for the requests that are asserted. -/
theorem withoutAssert_prog (op : Operation) :
    WithoutAssert (op.prog .debug) (op.prog .ndebug) := by
  cases op with
  | serverThread => exact withoutAssert_map _ withoutAssert_suspendApplicationThreads
  | addBreakpoint bp => exact withoutAssert_map _ (.refl (silent_addBreakpoint bp))
  | delBreakpoint bp => exact withoutAssert_map _ (withoutAssert_delBreakpoint bp)
  | getBreakpoints => exact withoutAssert_map _ (.refl silent_getBreakpoints)
  | executeUntilEvent S =>
    exact withoutAssert_map _
      (.bind (withoutAssert_resumeUntilEvent S) fun _ => withoutAssert_stopAtEvent)
  | getCodeBlock => exact withoutAssert_map _ (.refl silent_getCodeBlock)
  | getContext => exact withoutAssert_map _ (.refl silent_getContext)
  | cleanCall c =>
    cases c with
    | updateFastforwardCount addr start endPc =>
      exact withoutAssert_map _ (withoutAssert_updateFastforwardCount addr start endPc)
    | relevantBlockCleanCall start endPc =>
      exact withoutAssert_map _ (.refl (silent_relevantBlockCleanCall start endPc))
  | eventModuleLoaded modinfo =>
    exact withoutAssert_map _ (.refl (silent_eventModuleLoaded _ modinfo))
  | eventBasicBlock bb => exact withoutAssert_map _ (.refl (silent_eventBasicBlock bb))

end WithoutAssert

end ConcreteEval
