import ConcreteEval.Connection
import ConcreteEval.Holder

/-!
# Calls that come to their end

Where no suspension has found a thread of the application in its locked section, and no call has
ended by the error of a string constructor, the server thread waits for nothing but an event : each
of its actions can be done at once, in every state and whatever the other threads are doing, except
for the `dr_event_wait` of an `executeUntilEvent` that nobody has signalled
(`Machine.ReachedBy.server_unblocked`).

A handler is finite. So the server alone can bring the call that it is in to its end and write the
reply, and the caller can take it : from every such state of the connection there are steps of the
server and of this caller that end the oldest call, or come to the wait of its `executeUntilEvent`
(`Connection.Reachable.served`).
-/

namespace ConcreteEval

/-! ## Locking once -/

/-- The discipline of not locking with the mutex. -/
def taking : Discipline drApi Bool :=
  ⟨fun held o => o = .drMutexLock → held = false, fun _ _ _ => True, nextHeld⟩

/-- The program never locks with the mutex. -/
abbrev Takes (p : Dr Result) (held : Bool) : Prop :=
  p.Follows taking (fun _ _ => True) (fun _ _ => True) held

section Taking

variable {held : Bool} {α : Type} {ok : Unit → Bool → Prop} {ko : Halt → Bool → Prop}

theorem taking_stays {o : Op} (hl : o ≠ .drMutexLock) (hu : o ≠ .drMutexUnlock) :
    taking.Stays held o := by
  refine ⟨fun h => absurd h hl, fun r => ?_⟩
  cases o <;> first | rfl | exact absurd rfl hl | exact absurd rfl hu

theorem taking_plain {o : Op} (ho : o.isPlain = true) : taking.Stays held o := by
  refine taking_stays ?_ ?_
  · rintro rfl
    cases ho
  · rintro rfl
    cases ho

theorem taking_locks : taking.Locks false true where
  lock := ⟨fun _ => rfl, fun _ => rfl⟩
  unlock := ⟨nofun, fun _ => rfl⟩
  plainFree _ ho := taking_plain ho
  plainLocked _ ho := taking_plain ho
  flush := taking_stays nofun nofun

theorem taking_suspendApplicationThreads {b : Build} (hok : ok () held) :
    (suspendApplicationThreads b).Follows taking ok (fun _ _ => True) held := by
  refine Prog.follows_bind.mpr (follows_cassert_stay (fun _ _ => trivial) ?_
    (follows_stay (taking_plain rfl) fun g => rfl))
  refine follows_stay (taking_plain rfl) fun _ => ?_
  refine follows_stay (taking_stays nofun nofun) fun c => ?_
  exact follows_drAssert_stay (fun _ _ => trivial) fun _ => hok

theorem taking_resumeApplicationThreads {b : Build} (hok : ok () held) :
    (resumeApplicationThreads b).Follows taking ok (fun _ _ => True) held := by
  refine Prog.follows_bind.mpr (follows_cassert_stay (fun _ _ => trivial) ?_
    (follows_stay (taking_plain rfl) fun g => rfl))
  refine follows_stay (taking_plain rfl) fun _ => follows_stay (taking_plain rfl) fun _ => ?_
  refine Prog.follows_bind.mpr (follows_cassert_stay (fun _ _ => trivial)
    (follows_stay (f := .ret) (taking_plain rfl) fun _ => hok) ?_)
  refine follows_stay (taking_plain rfl) fun g => ?_
  cases g.suspendParams with
  | none => exact trivial
  | some params => exact follows_stay (f := .ret) (taking_stays nofun nofun) fun _ => rfl

theorem taking_executeUntilEvent (b : Build) (S : EventTypes) :
    (executeUntilEvent b S).Follows taking (fun _ _ => True) (fun _ _ => True) false := by
  have hraise : ∀ msg, (assertHelper false msg true).Follows taking (fun _ _ => False)
      (fun _ _ => True) true := fun msg => ⟨nofun, fun _ _ => trivial⟩
  refine Prog.follows_bind.mpr (follows_stay (taking_plain rfl) fun _ =>
    follows_lock taking_locks (follows_stay (taking_plain rfl) fun g =>
      follows_check (fun _ => ?_) (hraise _)))
  refine follows_unlock taking_locks (Prog.follows_bind.mpr ?_)
  refine follows_totalFlush_stay (fun _ _ => trivial) (fun _ => taking_stays nofun nofun) ?_
  refine taking_resumeApplicationThreads (follows_stay (taking_stays nofun nofun) fun _ => ?_)
  refine Prog.follows_bind.mpr (taking_suspendApplicationThreads ?_)
  refine follows_stay (taking_plain rfl) fun g => follows_check (fun _ => ?_) ?_
  · cases g.stoppedContext with
    | none => exact trivial
    | some c => exact trivial
  · exact ⟨nofun, fun _ _ => trivial⟩

/-- No operation locks with the mutex. -/
theorem takes_prog (b : Build) (op : Operation) : Takes (op.prog b) false := by
  by_cases hstart : op = .serverThread
  · subst hstart
    exact Prog.follows_bind.mpr (taking_suspendApplicationThreads trivial)
  · by_cases hexec : ∃ S, op = .executeUntilEvent S
    · obtain ⟨S, rfl⟩ := hexec
      exact Prog.follows_bind.mpr (taking_executeUntilEvent b S)
    · have hlocks : (op.prog b).Follows taking (fun _ held => held = false) (fun _ _ => True)
          false :=
        locks_prog (fun _ _ => trivial) taking_locks (fun _ => trivial)
          (fun _ _ => taking_stays nofun nofun) (fun _ _ => ⟨nofun, fun _ => rfl, trivial⟩) hstart
          fun S h => hexec ⟨S, h⟩
      exact hlocks.mono (fun _ _ _ => trivial) fun _ _ _ => trivial

end Taking

theorem Stage.Awake.locks {s : Stage} (h : s.Awake) : s.locks = none := by
  rcases h with rfl | rfl | rfl | rfl <;> rfl

namespace View

variable {v : View}

/-- A stage that can lock comes from one that can. -/
theorem ServerStep.locks {o : Op} {w : World} {s : Stage} (h : v.ServerStep o w s)
    (hs : s.locks ≠ none) : v.stage.locks ≠ none := by
  cases h with
  | neutral ho => exact hs
  | read h => exact hs
  | lock h => rw [h]; exact nofun
  | unlock h =>
    rcases Stage.unlocks_eq_some h with ⟨hv, -⟩ | ⟨-, rfl⟩ | ⟨-, rfl⟩
    · rw [hv]
      exact nofun
    · exact absurd rfl hs
    · exact absurd rfl hs
  | edit hc hop h hx => exact hs
  | setEvents hc h =>
    rw [h]
    exact nofun
  | _ => exact absurd rfl hs

end View

/-- An action is answered, but for those that wait. -/
theorem World.isSome_answer {w : World} {env : Env} {a : Actor} {o : Op}
    (hl : o = .drMutexLock → w.mutex = none) (hw : o = .drEventWait → w.event = true) :
    (w.answer env a o).isSome = true := by
  cases o with
  | drMutexLock => simp [answer, hl rfl]
  | drEventWait => simp [answer, hw rfl]
  | _ => rfl

namespace Machine

/-- The server can take the mutex wherever it is going to. -/
def Clear (m : Machine) : Prop :=
  ∃ v, m.Tracks v ∧ v.Ok ∧ ∀ op p, m.running .server = some (op, p) → ∃ held, Takes p held ∧
    (held = false → v.stage.locks ≠ none → m.world.mutex = none)

variable {m m' : Machine} {l : Label} {op : Operation} {p : Dr Result} {env : Env}

/-- Nobody has the mutex between two calls. -/
theorem Holds.mutex_eq_none {held : Bool} (h : m.Holds held) (hm : m.Reachable .debug)
    (hidle : m.running .server = none) : m.world.mutex = none := by
  cases hmutex : m.world.mutex with
  | none => rfl
  | some a =>
    cases a with
    | server => cases (h.guarded.server hmutex).symm.trans (h.idle hidle)
    | app t => exact absurd hmutex (h.guarded.app (hm.suspended_of_idle hidle).1 t)

/-- A step in which nobody acts, and which leaves the server in what it is in. -/
theorem Clear.quiet (h : m.Clear) (hs : m.step .debug l = some m') (hact : m.act l = none)
    (hrun : m'.running .server = m.running .server) (hmutex : m'.world.mutex = m.world.mutex) :
    m'.Clear := by
  obtain ⟨v, htr, hv, hclear⟩ := h
  obtain ⟨v', hstep, htr'⟩ := htr.step hv hs
  rw [hact] at hstep
  refine ⟨v', htr', hstep.ok hv, fun op p hp => ?_⟩
  have hcall' : v'.call = some op := by simp [htr'.call, hp]
  rw [hrun] at hp
  have hcall : v.call = some op := by simp [htr.call, hp]
  have hstage : v'.stage = v.stage := by
    cases hstep with
    | call hc => cases hc.symm.trans hcall
    | reply => cases hcall'
    | _ => rfl
  obtain ⟨held, htakes, hfree⟩ := hclear op p hp
  exact ⟨held, htakes, fun hheld hl => hmutex.trans (hfree hheld (hstage ▸ hl))⟩

/-- The application acts only where the server does not lock. -/
theorem Clear.app (h : m.Clear) {t : ℕ} (hs : m.step .debug (.action (.app t) env) = some m') :
    m'.Clear := by
  obtain ⟨v, htr, hv, hclear⟩ := h
  obtain ⟨v', hstep, htr'⟩ := htr.step hv hs
  obtain ⟨op, o, k, r, w', hrun, -, rfl⟩ := step_action hs
  rw [act_action hrun] at hstep
  refine ⟨v', htr', hstep.ok hv, fun op p hp => ?_⟩
  have hne : Actor.server ≠ .app t := nofun
  rw [set_running_of_ne _ _ _ hne] at hp
  obtain ⟨held, htakes, -⟩ := hclear op p hp
  refine ⟨held, htakes, fun _ hl => ?_⟩
  cases hstep with
  | app hw h => exact absurd (Stage.Awake.locks (hv.suspended.mp hw)) hl

theorem Clear.server (h : m.Clear) (hs : m.step .debug (.action .server env) = some m') :
    m'.Clear := by
  obtain ⟨v, htr, hv, hclear⟩ := h
  obtain ⟨v', hstep, htr'⟩ := htr.step hv hs
  obtain ⟨op, o, k, r, w', hrun, hp, rfl⟩ := step_action hs
  rw [act_action hrun] at hstep
  obtain ⟨-, w₁, ha, rfl⟩ := World.perform_eq_some hp
  obtain ⟨held, htakes, hfree⟩ := hclear op _ hrun
  refine ⟨v', htr', hstep.ok hv, fun op' p' hp' => ⟨nextHeld held o r, ?_, fun hheld hl => ?_⟩⟩
  · rw [set_running_self] at hp'
    obtain ⟨rfl, rfl⟩ := Prod.mk.inj (Option.some.inj hp')
    exact htakes.2 r trivial
  · change w₁.mutex = none
    cases hstep with
    | server hserver =>
      by_cases hunlock : o = .drMutexUnlock
      · subst hunlock
        exact World.mutex_answer ha
      · by_cases hlock : o = .drMutexLock
        · subst hlock
          cases hheld
        · rw [World.mutex_answer_of_not ha hlock hunlock]
          have hstays : taking.Stays held o := taking_stays hlock hunlock
          exact hfree ((hstays.2 r).symm.trans hheld) (hserver.locks hl)

theorem ReachedBy.clear (hm : m.ReachedBy .debug StopsOutside) : m.Clear := by
  refine ReachedBy.invariant (I := Clear) hm (fun modules => ?_) ?_
  · refine ⟨_, tracks_boot modules, View.ok_boot modules, fun op p hp => ?_⟩
    obtain ⟨rfl, rfl⟩ : Operation.serverThread = op ∧ _ = p := by simpa [boot] using hp
    exact ⟨false, takes_prog _ _, fun _ _ => rfl⟩
  · rintro m l m' hm h hc hs
    cases l with
    | start a op =>
      obtain ⟨hidle, -, rfl⟩ := step_start hs
      cases a with
      | server =>
        obtain ⟨v, htr, hv, -⟩ := h
        obtain ⟨v', hstep, htr'⟩ := htr.step hv hs
        obtain ⟨held, hholds⟩ := hm.holds
        refine ⟨v', htr', hstep.ok hv, fun op' p' hp' => ?_⟩
        rw [set_running_self] at hp'
        obtain ⟨rfl, rfl⟩ := Prod.mk.inj (Option.some.inj hp')
        refine ⟨false, takes_prog _ _, fun _ _ => ?_⟩
        simpa using hholds.mutex_eq_none hm.reachable hidle
      | app t => exact h.quiet hs rfl (set_running_of_ne _ _ _ (by simp)) (by simp)
    | action a env =>
      cases a with
      | server => exact h.server hs
      | app t => exact h.app hs
    | finish a =>
      obtain ⟨op, p, x, -, -, rfl⟩ := step_finish hs
      cases a with
      | server =>
        obtain ⟨v, htr, hv, -⟩ := h
        obtain ⟨v', hstep, htr'⟩ := htr.step hv hs
        refine ⟨v', htr', hstep.ok hv, fun op' p' hp' => ?_⟩
        rw [set_running_self] at hp'
        cases hp'
      | app t => exact h.quiet hs rfl (set_running_of_ne _ _ _ (by simp)) rfl
    | unload M =>
      obtain ⟨-, rfl⟩ := step_unload hs
      exact h.quiet hs rfl rfl rfl

/-- The server waits for nothing but an event. -/
theorem Clear.acts (h : m.Clear) {o : Op} {k : o.Reply → Dr Result}
    (hrun : m.running .server = some (op, .act o k)) :
    (∀ env, ∃ m', m.step .debug (.action .server env) = some m') ∨
      o = .drEventWait ∧ m.world.event = false ∧ ∃ S, op = .executeUntilEvent S := by
  obtain ⟨v, htr, hv, hclear⟩ := h
  have hallows := (htr.server op _ hrun).1
  obtain ⟨held, htakes, hfree⟩ := hclear op _ hrun
  by_cases hwait : o = .drEventWait ∧ m.world.event = false
  · obtain ⟨rfl, hevent⟩ := hwait
    refine Or.inr ⟨rfl, hevent, ?_⟩
    cases hallows with
    | neutral ho => cases ho
    | wait hs =>
      have hof := hv.call
      rw [htr.call, hrun, hs] at hof
      cases op with
      | executeUntilEvent S => exact ⟨S, rfl⟩
      | serverThread => simp [Stage.Of] at hof
      | _ => simp [Stage.Of, Stage.Held] at hof
  · refine Or.inl fun env => ?_
    have hanswer : (m.world.answer env .server o).isSome = true := by
      refine World.isSome_answer ?_ fun ho => ?_
      · rintro rfl
        cases hallows with
        | neutral ho => cases ho
        | lock hs => exact hfree (htakes.1 rfl) (by simp [hs])
      · simpa using not_and.mp hwait ho
    obtain ⟨⟨r, w₁⟩, hw⟩ := Option.isSome_iff_exists.mp hanswer
    refine ⟨m.set (w₁.note (.did .server o)) .server (some (op, k r)), ?_⟩
    simp [Machine.step, hrun, World.perform, hw]

/-- In every run whose suspensions find no thread inside, and whatever the application is doing, the
server waits for nothing but an event that nobody has signalled. -/
theorem ReachedBy.server_unblocked (hm : m.ReachedBy .debug StopsOutside) {o : Op}
    {k : o.Reply → Dr Result} (hrun : m.running .server = some (op, .act o k)) :
    (∀ env, ∃ m', m.step .debug (.action .server env) = some m') ∨
      o = .drEventWait ∧ m.world.event = false ∧ ∃ S, op = .executeUntilEvent S :=
  hm.clear.acts hrun

/-- After the stop the server is about to lock the mutex for the next call. -/
def nextCall : Machine :=
  afterAlone .debug [] 1 stopsOutsideAlone (startUp ++ resumes {.relevantBlock} ++
    [.start (.app 1) (.cleanCall (.relevantBlockCleanCall 16 20))] ++ actions (.app 1) 6 ++ stops ++
    [.start .server .getContext])

theorem server_unblocked_nextCall :
    (∀ env, ∃ m', nextCall.step .debug (.action .server env) = some m') ∨
      Op.drMutexLock = .drEventWait ∧ nextCall.world.event = false ∧
        ∃ S, Operation.getContext = .executeUntilEvent S :=
  ReachedBy.server_unblocked (reachedBy_afterAlone stopsOutside_of_alone [] _) rfl

/-- The server is at the wait of an `executeUntilEvent`, and there is no signal. -/
def Awaits (m : Machine) (op : Operation) : Prop :=
  m.nextOp .server = some .drEventWait ∧ m.world.event = false ∧
    ∃ S, op = .executeUntilEvent S

/-- The server alone comes to the end of its operation, or to the wait for an event. -/
theorem Clear.run (h : m.Clear) (env : Env) (hrun : m.running .server = some (op, p)) :
    ∃ n m' p', (List.replicate n (.action .server env)).foldlM (step .debug) m = some m' ∧
      m'.running .server = some (op, p') ∧
        ((∃ x, endingOf .server p' = some x) ∨ m'.Awaits op) := by
  induction p generalizing m with
  | ret r => exact ⟨0, m, _, rfl, hrun, Or.inl ⟨_, rfl⟩⟩
  | stop e =>
    obtain ⟨v, htr, -, -⟩ := h
    obtain ⟨⟨e, rfl⟩, -⟩ := htr.server op _ hrun
    exact ⟨0, m, _, rfl, hrun, Or.inl ⟨_, rfl⟩⟩
  | act o k ih =>
    rcases h.acts hrun with hs | ⟨rfl, hevent, hop⟩
    · obtain ⟨m₁, hs⟩ := hs env
      obtain ⟨r, w, -, hm₁⟩ := step_act hrun hs
      have hrun₁ : m₁.running .server = some (op, k r) := by rw [hm₁, set_running_self]
      obtain ⟨n, m', p', hls, hrest⟩ := ih r (h.server hs) hrun₁
      refine ⟨n + 1, m', p', ?_, hrest⟩
      rw [List.replicate_succ, List.foldlM_cons, hs]
      exact hls
    · exact ⟨0, m, _, rfl, hrun, Or.inr ⟨by simp [nextOp, hrun, Prog.next?], hevent, hop⟩⟩

end Machine

/-! ## Up to the caller -/

namespace Connection

variable {ι : Type}

/-- Whether the step is one of the server, or of the caller `c`. -/
def Label.IsOf (c : ι) : Label ι → Prop
  | .recv c' => c' = c
  | .session .serve | .session .finish => True
  | .session (.machine (.action a _)) => a = .server
  | _ => False

variable [DecidableEq ι] {rt : Runtime} {b : Build} {k : ClientKind} {s s' : Connection ι}
  {w : Waiting ι} {rest : List (Waiting ι)}

theorem Reachable.step {l : Label ι} (h : s.Reachable rt b k) (hs : s.step rt b k l = some s') :
    s'.Reachable rt b k := by
  obtain ⟨modules, h⟩ := h
  exact ⟨modules, h.tail ⟨l, trivial, hs⟩⟩

theorem Reachable.of_foldlM {ls : List (Label ι)} (h : s.Reachable rt b k)
    (hls : ls.foldlM (Connection.step rt b k) s = some s') : s'.Reachable rt b k := by
  obtain ⟨modules, h⟩ := h
  exact ⟨modules, h.trans (moves_of_foldlM (fun _ _ _ => trivial) hls)⟩

/-- Actions of the server, taken on the connection. -/
theorem foldlM_actions {n : ℕ} {env : Env} {machine : Machine}
    (h : (List.replicate n (.action .server env)).foldlM (Machine.step b) s.session.machine =
      some machine) :
    (List.replicate n (.session (.machine (.action .server env)))).foldlM
      (Connection.step rt b k) s =
        some { s with session := { s.session with machine := machine } } := by
  induction n generalizing s with
  | zero =>
    obtain rfl : s.session.machine = machine := by simpa using h
    rfl
  | succ n ih =>
    rw [List.replicate_succ, List.foldlM_cons, Option.bind_eq_bind, Option.bind_eq_some_iff] at h
    obtain ⟨machine₁, hs, h⟩ := h
    have hstep : s.step rt b k (.session (.machine (.action .server env))) =
        some { s with session := { s.session with machine := machine₁ } } := by
      simp [Connection.step, Session.step, ConcreteEval.Label.isEdge, hs]
    rw [List.replicate_succ, List.foldlM_cons, hstep]
    exact ih (s := { s with session := { s.session with machine := machine₁ } }) h

/-- The call ends at its caller. -/
def EndsOldest (s s' : Connection ι) (w : Waiting ι) (rest : List (Waiting ι)) : Prop :=
  ∃ o, s'.ended = s.ended ++ [⟨w, o⟩] ∧ s'.waiting = rest

/-- A reply that is there. -/
theorem Reachable.takes_reply (h : s.Reachable rt b k) (hw : s.waiting = w :: rest)
    (hlt : s.ended.length < s.session.replies.length) :
    ∃ s', s.step rt b k (.recv w.caller) = some s' ∧ EndsOldest s s' w rest := by
  obtain ⟨-, w', rest', -, hw', ⟨s', o, hs, -, -, hended, hwaiting⟩, -⟩ := h.ok.takes_next hlt
  obtain ⟨rfl, rfl⟩ := List.cons.inj (hw.symm.trans hw')
  exact ⟨s', hs, o, hended, hwaiting⟩

/-- A handler that has ended is answered, and the caller takes the reply. -/
theorem Reachable.takes_ending (h : s.Reachable rt b k) (hw : s.waiting = w :: rest)
    {p : Dr Result} {x : Prog.Ending Halt Result}
    (hrun : s.session.machine.running .server = some (w.call.operation, p))
    (hx : endingOf .server p = some x) :
    ∃ s', [.session .finish, .recv w.caller].foldlM (Connection.step rt b k) s = some s' ∧
      EndsOldest s s' w rest := by
  have hok := h.ok
  obtain ⟨machine, hmachine⟩ : ∃ machine, s.session.machine.step b (.finish .server) =
      some machine := ⟨_, by simp only [Machine.step, hrun, hx, Option.map_some]; rfl⟩
  obtain ⟨session, hfinish, -, -, -⟩ := hok.session.exists_finish hmachine
  have hstep : s.step rt b k (.session .finish) = some { s with session := session } :=
    congrArg (Option.map _) hfinish
  have hlt : s.ended.length < session.replies.length := by
    obtain ⟨op, p, z, machine', -, -, -, ⟨hserving, -⟩ | ⟨m, seqid, y, -, -, rfl⟩⟩ :=
      Session.finish_cases hfinish
    · obtain ⟨xs, cur, -, hserves, -⟩ := hok.session.ok.answered
      cases hserves with
      | idle _ hop =>
        have hstart := hop w.call.operation (by rw [hrun]; rfl)
        have hcall := w.call.isCall_operation
        rw [hstart] at hcall
        cases hcall
      | busy hbusy _ _ => cases hserving.symm.trans hbusy
    · have hreplied := hok.replied
      simp only [List.length_append, List.length_singleton]
      omega
  obtain ⟨s', hs', hends⟩ := (h.step hstep).takes_reply hw hlt
  exact ⟨s', by simp [hstep, hs'], hends⟩

/-- The handler of the oldest call runs : the server brings it to its end. -/
theorem Reachable.served_running (h : s.Reachable rt .debug k) (hclear : s.session.machine.Clear)
    (hw : s.waiting = w :: rest) {p : Dr Result}
    (hrun : s.session.machine.running .server = some (w.call.operation, p)) (env : Env) :
    ∃ (ls : List (Label ι)) (s' : Connection ι), (∀ l ∈ ls, l.IsOf w.caller) ∧
      ls.foldlM (Connection.step rt .debug k) s = some s' ∧ (EndsOldest s s' w rest ∨
        s'.waiting = s.waiting ∧ s'.session.machine.Awaits w.call.operation) := by
  obtain ⟨n, machine, p', hls, hrun', hcase⟩ := hclear.run env hrun
  have hactions : (List.replicate n (.session (.machine (.action .server env)))).foldlM
      (Connection.step rt .debug k) s =
        some { s with session := { s.session with machine := machine } } := foldlM_actions hls
  have hmem : ∀ l ∈ List.replicate n (.session (.machine (.action .server env))),
      Label.IsOf w.caller l := by
    intro l hl
    rw [List.eq_of_mem_replicate hl]
    exact rfl
  rcases hcase with ⟨x, hx⟩ | hawaits
  · obtain ⟨s', hs', hends⟩ := (h.of_foldlM hactions).takes_ending hw hrun' hx
    refine ⟨List.replicate n (.session (.machine (.action .server env))) ++
      [.session .finish, .recv w.caller], s', fun l hl => ?_, ?_, Or.inl hends⟩
    · rcases List.mem_append.mp hl with hl | hl
      · exact hmem l hl
      · rcases List.mem_cons.mp hl with rfl | hl
        · exact trivial
        · obtain rfl := List.mem_singleton.mp hl
          exact rfl
    · rw [List.foldlM_append, hactions]
      exact hs'
  · exact ⟨_, _, hmem, hactions, Or.inr ⟨rfl, hawaits⟩⟩

/-- In every run whose suspensions find no thread inside, once the server is up, the server and the
caller of the oldest call can bring it to its end by themselves, with the other callers and the
application where they are, or the server comes to the wait for an event. -/
theorem Reachable.served (h : s.Reachable rt .debug k)
    (hm : s.session.machine.ReachedBy .debug Machine.StopsOutside)
    (hup : ∀ p, s.session.machine.running .server ≠ some (.serverThread, p))
    (hw : s.waiting = w :: rest) (env : Env) :
    ∃ (ls : List (Label ι)) (s' : Connection ι), (∀ l ∈ ls, l.IsOf w.caller) ∧
      ls.foldlM (Connection.step rt .debug k) s = some s' ∧ (EndsOldest s s' w rest ∨
        s'.waiting = s.waiting ∧ s'.session.machine.Awaits w.call.operation) := by
  rcases h.ok.replied.lt_or_eq with hlt | heq
  · obtain ⟨s', hs', hends⟩ := h.takes_reply hw hlt
    refine ⟨[.recv w.caller], s', fun l hl => ?_, by simp [hs'], Or.inl hends⟩
    obtain rfl := List.mem_singleton.mp hl
    exact rfl
  · rcases h.oldest_served hw heq.symm with ⟨op, p, hrun, hop⟩ | ⟨s₁, hs₁, hrun⟩
    · rcases hop with rfl | rfl
      · exact absurd hrun (hup p)
      · exact h.served_running hm.clear hw hrun env
    · have h₁ : s₁.Reachable rt .debug k := h.step hs₁
      obtain ⟨session, hserve, rfl⟩ := Option.map_eq_some_iff.mp hs₁
      have hclear : session.machine.Clear := by
        obtain ⟨hidle, x, -, ⟨y, -, rfl⟩ | ⟨m, op, machine, -, hstart, rfl⟩⟩ :=
          Session.serve_cases hserve
        · cases hidle.symm.trans hrun
        · obtain ⟨modules, hmoves⟩ := hm
          have hcond : s.session.machine.StopsOutside (.start .server op) := by
            constructor
            · rintro ⟨⟩
            · rintro ⟨⟩
          exact Machine.ReachedBy.clear ⟨modules, hmoves.tail ⟨_, hcond, hstart⟩⟩
      obtain ⟨ls, s', hls, hs', hcase⟩ := h₁.served_running hclear hw hrun env
      refine ⟨.session .serve :: ls, s', fun l hl => ?_, ?_, hcase⟩
      · rcases List.mem_cons.mp hl with rfl | hl
        · exact trivial
        · exact hls l hl
      · rw [List.foldlM_cons, hs₁]
        exact hs'

theorem served_twoSent :
    ∃ (ls : List (Label ℕ)) (s' : Connection ℕ), (∀ l ∈ ls, l.IsOf 1) ∧
      ls.foldlM (Connection.step libraries .debug .concurrent)
        (after libraries .debug .concurrent [] twoSent) = some s' ∧
      (EndsOldest (after libraries .debug .concurrent [] twoSent) s' (.fresh 1 0 .getContext)
          [.fresh 2 1 .getBreakpoints] ∨
        s'.waiting = (after libraries .debug .concurrent [] twoSent).waiting ∧
          s'.session.machine.Awaits .getContext) := by
  have hm : (after libraries .debug .concurrent [] twoSent).session.machine.ReachedBy .debug
      Machine.StopsOutside :=
    Machine.reachedBy_afterAlone (t := 1) Machine.stopsOutside_of_alone [] Machine.startUp
  exact (reachable_after libraries .debug .concurrent [] twoSent).served hm nofun rfl {}

end Connection

end ConcreteEval
