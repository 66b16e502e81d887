import ConcreteEval.Assertions
import ConcreteEval.Flushing

/-!
# Rejected calls

A call that is rejected should leave the globals as they are and ask DR for nothing (`World.Keeps`).
The discipline `effects` keeps whether a program has assigned to a global or made a request yet;
`addBreakpoint` and `delBreakpoint` throw only where they have not, and so does `executeUntilEvent`
its error for an application that is not suspended, after its first assignment. This one stores the
stop events ahead of the check. So a rejected call changes nothing just if it is not an
`executeUntilEvent` with other stop events than those that are stored (`World.rejected_keeps_iff`).
-/

namespace ConcreteEval

/-- Whether the action assigns to a global or makes a request. -/
def Op.hasEffect : Op → Bool
  | .write _ => true
  | o => o.isRequest

/-- The discipline that allows everything; the local state is whether there has been an effect. -/
def effects : Discipline drApi Bool :=
  ⟨fun _ _ => True, fun _ _ _ => True, fun had o _ => had || o.hasEffect⟩

/-- These errors are thrown ahead of all effects. -/
def ThrowsFirst (errors : Set CxxString) (h : Halt) (had : Bool) : Prop :=
  ∀ msg ∈ errors, h = .thrown (.exception msg) → had = false

/-- The error of `executeUntilEvent` where the application is not suspended. -/
def notSuspendedMsg : CxxString :=
  "Execution is not currently suspended.".toList

section Effects

variable {errors : Set CxxString} {l : Bool}

theorem effects_stays {o : Op} (ho : o.hasEffect = false) : effects.Stays l o := by
  refine ⟨trivial, fun r => ?_⟩
  change (l || o.hasEffect) = l
  rw [ho, Bool.or_false]

/-- After one effect nothing else counts. -/
theorem effects_stays_true (o : Op) : effects.Stays true o :=
  ⟨trivial, fun _ => rfl⟩

theorem throwsFirst_fault (f : Fault) (had : Bool) : ThrowsFirst errors (.fault f) had :=
  nofun

theorem throwsFirst_of_notMem {msg : CxxString} (h : msg ∉ errors) (had : Bool) :
    ThrowsFirst errors (.thrown (.exception msg)) had := by
  rintro msg' hmsg' ⟨rfl⟩
  exact absurd hmsg' h

/-- Raising ahead of all effects. -/
theorem effects_raise (msg : CxxString) (u : Bool) (ok : Unit → Bool → Prop) :
    (assertHelper false msg u).Follows effects ok (ThrowsFirst errors) false := by
  cases u with
  | true => exact ⟨trivial, fun _ _ _ _ _ => rfl⟩
  | false => exact fun _ _ _ => rfl

/-- An assignment, and then the mutex is unlocked. -/
theorem effects_store (x : Write) :
    ((write x).bind fun _ => drMutexUnlock).Follows effects (fun _ _ => True) (ThrowsFirst errors)
      l :=
  ⟨trivial, fun _ _ => ⟨trivial, fun _ _ => trivial⟩⟩

theorem effects_resolve (a : AbsOrRelAddr) (u : Bool) :
    (absOrRelAddrToAbsAddr a u).Follows effects (fun _ l' => l' = false) (ThrowsFirst errors)
      false :=
  follows_absOrRelAddrToAbsAddr (fun _ => effects_stays rfl) fun msg ok => effects_raise msg u ok

theorem effects_addBreakpoint (bp : WireBreakpoint) :
    (addBreakpoint bp).Follows effects (fun _ _ => True) (ThrowsFirst errors) false := by
  refine Prog.Follows.bind (effects_resolve _ _) ?_
  rintro addr _ rfl
  refine follows_stay (effects_stays rfl) fun _ => ?_
  cases addr with
  | some addr =>
    refine follows_stay (effects_stays rfl) fun g => ?_
    exact follows_check (fun _ => effects_store _) (effects_raise _ _ _)
  | none =>
    refine follows_check (fun _ => ?_) (effects_raise _ _ _)
    refine follows_stay (effects_stays rfl) fun g => ?_
    exact follows_check (fun _ => effects_store _) (effects_raise _ _ _)

theorem effects_delBreakpoint (b : Build) (bp : WireBreakpoint) :
    (delBreakpoint b bp).Follows effects (fun _ _ => True) (ThrowsFirst errors) false := by
  refine Prog.Follows.bind (effects_resolve _ _) ?_
  rintro addr _ rfl
  refine follows_stay (effects_stays rfl) fun _ => ?_
  cases addr with
  | some addr =>
    refine follows_stay (effects_stays rfl) fun g => ?_
    refine follows_check (fun _ => .step trivial fun _ _ => ?_) (effects_raise _ _ _)
    refine Prog.follows_bind.mpr (follows_totalFlush_stay throwsFirst_fault
      (fun _ => effects_stays_true _) ?_)
    exact ⟨trivial, fun _ _ => trivial⟩
  | none =>
    refine follows_check (fun _ => ?_) (effects_raise _ _ _)
    refine follows_stay (effects_stays rfl) fun g => ?_
    exact follows_check (fun _ => effects_store _) (effects_raise _ _ _)

theorem effects_suspendApplicationThreads (b : Build) :
    (suspendApplicationThreads b).Follows effects (fun _ l' => l' = true) (ThrowsFirst errors)
      true := by
  refine Prog.follows_bind.mpr (follows_cassert_stay throwsFirst_fault ?_
    (follows_stay (effects_stays_true _) fun g => rfl))
  refine follows_stay (effects_stays_true _) fun _ =>
    follows_stay (effects_stays_true _) fun c => ?_
  exact follows_drAssert_stay throwsFirst_fault fun _ => rfl

/-- Resuming has an effect in every build. -/
theorem effects_resumeApplicationThreads (b : Build) :
    (resumeApplicationThreads b).Follows effects (fun _ l' => l' = true) (ThrowsFirst errors)
      l := by
  refine Prog.follows_bind.mpr (follows_cassert_stay throwsFirst_fault ?_
    (follows_stay (effects_stays rfl) fun g => rfl))
  refine .step trivial fun _ _ => ?_
  change Prog.Follows effects _ _ _ (l || true)
  rw [Bool.or_true]
  refine follows_stay (effects_stays_true _) fun _ => ?_
  refine Prog.follows_bind.mpr (follows_cassert_stay throwsFirst_fault
    (follows_stay (f := .ret) (effects_stays_true _) fun _ => rfl) ?_)
  refine follows_stay (effects_stays_true _) fun g => ?_
  cases g.suspendParams with
  | none => exact throwsFirst_fault _ _
  | some params => exact follows_stay (f := .ret) (effects_stays_true _) fun _ => rfl

theorem effects_totalFlush (b : Build) :
    (totalFlush b).Follows effects (fun _ _ => True) (ThrowsFirst errors) l := by
  cases b with
  | debug =>
    refine .step trivial fun c _ => ?_
    cases c with
    | true => trivial
    | false => exact throwsFirst_fault _ _
  | ndebug => trivial

/-- `executeUntilEvent` stores the stop events, and checks then. -/
theorem effects_executeUntilEvent (b : Build) (S : EventTypes) :
    ∃ p, executeUntilEvent b S = (write (.stopEvents S)).bind (fun _ => p) ∧
      p.Follows effects (fun _ _ => True) (ThrowsFirst {notSuspendedMsg}) false := by
  refine ⟨_, rfl, ?_⟩
  refine Prog.follows_bind.mpr (follows_stay (effects_stays rfl) fun _ =>
    follows_stay (effects_stays rfl) fun g => follows_check (fun _ => ?_) (effects_raise _ _ _))
  refine follows_stay (effects_stays rfl) fun _ =>
    Prog.Follows.bind (effects_totalFlush b) fun _ l _ => ?_
  refine (effects_resumeApplicationThreads b).mono ?_ fun _ _ h => h
  rintro _ _ rfl
  refine follows_stay (effects_stays_true _) fun _ =>
    Prog.Follows.bind (effects_suspendApplicationThreads b) ?_
  rintro _ _ rfl
  refine follows_stay (effects_stays_true _) fun g => follows_check (fun hc => ?_) ?_
  · obtain ⟨c, hc⟩ := Option.isSome_iff_exists.mp hc
    rw [hc]
    trivial
  · refine ⟨trivial, fun _ _ => throwsFirst_of_notMem ?_ _⟩
    exact (by decide : "Unable to locate stopped context.".toList ≠ notSuspendedMsg)

end Effects

namespace World

variable {env : Env} {a : Actor} {b : Build} {w w' : World} {α : Type} {errors : Set CxxString}
  {msg : CxxString}

/-- The globals are the same, and no request was made. -/
structure Keeps (w w' : World) : Prop where
  globals : w'.globals = w.globals
  requests : w'.requests = w.requests

/-- A program that throws one of these errors has had no effect. -/
theorem keeps_of_throwsFirst {p : Dr α} {ok : α → Bool → Prop} {l : Bool}
    (hp : p.Follows effects ok (ThrowsFirst errors) l) (hmsg : msg ∈ errors)
    (hx : (run env a p w).1 = .stop (.thrown (.exception msg))) :
    l = false ∧ w.Keeps (run env a p w).2 := by
  induction p generalizing l w with
  | ret r => cases hx
  | stop e =>
    obtain rfl : e = _ := by injection hx
    exact ⟨hp msg hmsg rfl, rfl, rfl⟩
  | act o k ih =>
    unfold run at hx ⊢
    rw [Prog.exec_act] at hx ⊢
    cases ho : w.perform env a o with
    | none =>
      rw [ho] at hx
      cases hx
    | some rw' =>
      obtain ⟨r, w₁⟩ := rw'
      rw [ho] at hx
      obtain ⟨hl, hkeeps⟩ := ih r (hp.2 r trivial) hx
      obtain ⟨hfirst, heffect⟩ : l = false ∧ o.hasEffect = false := by
        simpa [effects] using hl
      obtain ⟨-, w₂, ha, rfl⟩ := perform_eq_some ho
      refine ⟨hfirst, hkeeps.globals.trans ?_, hkeeps.requests.trans ?_⟩
      · rw [note_globals, answer_eq ha]
        cases o <;> first | rfl | cases heffect
      · have hrequest : o.isRequest = false := by
          cases o <;> first | rfl | cases heffect
        rw [requests_did, hrequest]
        unfold requests
        rw [answer_log ha]
        rfl

end World

/-! ## On a path -/

theorem after_effects (l : Bool) (τ : List (Prog.Event drApi)) :
    effects.after l τ = (l || τ.any fun e => Op.hasEffect e.1) := by
  induction τ generalizing l with
  | nil => exact (Bool.or_false l).symm
  | cons e τ ih =>
    rw [List.any_cons, ← Bool.or_assoc]
    exact ih _

theorem admits_effects (l : Bool) (τ : List (Prog.Event drApi)) : effects.Admits l τ := by
  induction τ generalizing l with
  | nil => trivial
  | cons e τ ih => exact ⟨trivial, ih _⟩

/-- Whatever other threads do meanwhile, there is no effect on a path to one of these errors. -/
theorem noEffect_of_path {α : Type} {errors : Set CxxString} {msg : CxxString} {p : Dr α}
    {ok : α → Bool → Prop} {τ : List (Prog.Event drApi)}
    (hp : p.Follows effects ok (ThrowsFirst errors) false) (hmsg : msg ∈ errors)
    (hpath : p.Path τ (.stopped (.thrown (.exception msg)))) :
    ∀ e ∈ τ, Op.hasEffect e.1 = false := by
  have hafter := (Discipline.follows_path hp hpath (admits_effects _ _)).2 msg hmsg rfl
  rw [after_effects, Bool.false_or] at hafter
  simpa using hafter

/-! ## The calls -/

/-- The errors that reject a call. -/
def Operation.rejections : Operation → Set CxxString
  | .addBreakpoint _ | .delBreakpoint _ => Set.univ
  | .executeUntilEvent _ => {notSuspendedMsg}
  | _ => ∅

namespace Operation

variable {b : Build} {op : Operation} {S : EventTypes} {msg : CxxString}

/-- The other calls throw their errors ahead of all effects. -/
theorem effects_prog (hmsg : msg ∈ op.rejections) (hop : ∀ S, op ≠ .executeUntilEvent S) :
    (op.prog b).Follows effects (fun _ _ => True) (ThrowsFirst op.rejections) false := by
  cases op with
  | addBreakpoint bp => exact (effects_addBreakpoint bp).bind fun _ _ _ => trivial
  | delBreakpoint bp => exact (effects_delBreakpoint b bp).bind fun _ _ _ => trivial
  | executeUntilEvent S => exact absurd rfl (hop S)
  | _ => exact hmsg.elim

variable (b S) in
/-- `executeUntilEvent` throws its error ahead of all effects but the first. -/
theorem effects_prog_executeUntilEvent :
    ∃ p, (Operation.executeUntilEvent S).prog b = .act (.write (.stopEvents S)) (fun _ => p) ∧
      p.Follows effects (fun _ _ => True) (ThrowsFirst {notSuspendedMsg}) false := by
  obtain ⟨p, hp, hfollows⟩ := effects_executeUntilEvent b S
  refine ⟨p.bind fun e => .ret (.event e), ?_, hfollows.bind fun _ _ _ => trivial⟩
  change (ConcreteEval.executeUntilEvent b S).bind _ = _
  rw [hp]
  rfl

/-- All that a rejected call does on its path is to store its stop events. -/
theorem effect_of_rejected {τ : List (Prog.Event drApi)} {e : Prog.Event drApi}
    (hpath : (op.prog b).Path τ (.stopped (.thrown (.exception msg)))) (hmsg : msg ∈ op.rejections)
    (he : e ∈ τ) (heffect : Op.hasEffect e.1 = true) :
    ∃ S, op = .executeUntilEvent S ∧ e.1 = .write (.stopEvents S) := by
  by_cases hop : ∃ S, op = .executeUntilEvent S
  · obtain ⟨S, rfl⟩ := hop
    obtain ⟨p, hp, hfollows⟩ := effects_prog_executeUntilEvent b S
    rw [hp] at hpath
    obtain ⟨r, τ', rfl, hpath⟩ := hpath
    rcases List.mem_cons.mp he with rfl | he
    · exact ⟨S, rfl, rfl⟩
    · cases (noEffect_of_path hfollows hmsg hpath e he).symm.trans heffect
  · have hfollows := effects_prog (b := b) hmsg fun S h => hop ⟨S, h⟩
    cases (noEffect_of_path hfollows hmsg hpath e he).symm.trans heffect

end Operation

namespace World

variable {env : Env} {b : Build} {w w' : World} {op : Operation} {S : EventTypes} {msg : CxxString}

/-- An operation that ends by an error threw it. -/
theorem run_of_alone
    (hal : w.alone b env .server op = some (.stopped (.thrown (.exception msg)), w')) :
    ∃ w₁, run env .server (op.prog b) ((w.enter op).note (.started .server op)) =
        (.stop (.thrown (.exception msg)), w₁) ∧
      w' = w₁.note (.ended .server op (.stopped (.thrown (.exception msg)))) := by
  obtain ⟨x, hx, heq⟩ := Option.map_eq_some_iff.mp hal
  obtain ⟨rfl, rfl⟩ := Prod.mk.inj heq
  refine ⟨_, Prod.ext ?_ rfl, rfl⟩
  generalize (run env .server (op.prog b) ((w.enter op).note (.started .server op))).1 = p at hx
  cases p with
  | ret r => cases hx
  | stop e =>
    cases e with
    | thrown e =>
      simp only [endingOf, if_true, Option.some.injEq, Prog.Ending.stopped.injEq] at hx
      rw [hx]
    | fault f => cases hx
  | act o k => cases hx

/-- A rejected `executeUntilEvent` leaves its stop events. -/
theorem stores_of_rejected
    (hal : w.alone b env .server (.executeUntilEvent S) =
      some (.stopped (.thrown (.exception notSuspendedMsg)), w')) :
    w'.globals = { w.globals with stopEvents := some S } ∧ w'.requests = w.requests := by
  obtain ⟨w₁, hrun, rfl⟩ := run_of_alone hal
  obtain ⟨p, hp, hfollows⟩ := Operation.effects_prog_executeUntilEvent b S
  rw [hp] at hrun
  unfold run at hrun
  rw [Prog.exec_act_of_some (r := ()) _ (by simp [perform, answer]; rfl)] at hrun
  have hkeeps := (keeps_of_throwsFirst hfollows rfl (congrArg Prod.fst hrun)).2
  unfold run at hkeeps
  rw [hrun] at hkeeps
  exact ⟨hkeeps.globals, hkeeps.requests⟩

/-- A rejected call changes nothing if it is not an `executeUntilEvent` with other stop events than
those that are stored. -/
theorem rejected_keeps_iff
    (hal : w.alone b env .server op = some (.stopped (.thrown (.exception msg)), w'))
    (hmsg : msg ∈ op.rejections) :
    w.Keeps w' ↔ ∀ S, op = .executeUntilEvent S → w.globals.stopEvents = some S := by
  by_cases hop : ∃ S, op = .executeUntilEvent S
  · obtain ⟨S, rfl⟩ := hop
    obtain rfl : msg = notSuspendedMsg := hmsg
    obtain ⟨hglobals, hrequests⟩ := stores_of_rejected hal
    constructor
    · rintro ⟨hsame, -⟩ S' hop
      obtain rfl := Operation.executeUntilEvent.inj hop
      rw [← hsame, hglobals]
    · intro hS
      refine ⟨?_, hrequests⟩
      rw [hglobals, ← hS S rfl]
  · refine iff_of_true ?_ fun S h => absurd ⟨S, h⟩ hop
    have henter : w.enter op = w := by
      cases op <;> first | rfl | exact hmsg.elim
    obtain ⟨w₁, hrun, rfl⟩ := run_of_alone hal
    have hfollows := Operation.effects_prog (b := b) hmsg fun S h => hop ⟨S, h⟩
    have hkeeps := (keeps_of_throwsFirst hfollows hmsg (congrArg Prod.fst hrun)).2
    rw [hrun, henter] at hkeeps
    exact ⟨hkeeps.globals, hkeeps.requests⟩

/-- A breakpoint that exists is rejected, and nothing changes. -/
theorem rejected_keeps_iff_exists :
    ∃ msg w', activeWorld.alone .debug {} .server (.addBreakpoint (absBreakpoint 16 1)) =
      some (.stopped (.thrown (.exception msg)), w') ∧ activeWorld.Keeps w' := by
  obtain ⟨w', hal⟩ : ∃ w', activeWorld.alone .debug {} .server
      (.addBreakpoint (absBreakpoint 16 1)) =
        some (.stopped (.thrown (.exception "Breakpoint already exists".toList)), w') := ⟨_, rfl⟩
  exact ⟨_, w', hal, (rejected_keeps_iff hal (Set.mem_univ _)).mpr nofun⟩

/-- The application runs and stops at breakpoints. -/
def runningWorld : World where
  globals := { stopEvents := some {.breakpoint} }

/-- An `executeUntilEvent` that is rejected there changes what it stops at. -/
theorem not_rejected_keeps :
    ¬∀ (b : Build) (env : Env) (w w' : World) (op : Operation) (msg : CxxString),
      w.alone b env .server op = some (.stopped (.thrown (.exception msg)), w') →
      msg ∈ op.rejections → w.Keeps w' := by
  intro h
  have hkeeps := h .debug {} runningWorld _ (.executeUntilEvent {.termination}) _ rfl rfl
  have hS := congrArg Globals.stopEvents hkeeps.globals
  exact absurd hS (by decide)

end World

end ConcreteEval
