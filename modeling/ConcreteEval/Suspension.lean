import ConcreteEval.Turns

/-!
# The application is suspended between calls

Whenever the server is between two calls, the application threads are suspended and
`suspend_params` is set, so the checks of the two never fail
(`suspended_at_calls`, in the parts `World.Suspended`, `no_fault` and `frame_of_paused`).

From the end of an `executeUntilEvent` to the resume of the next (`Paused`) nobody but the
server acts. It changes nothing of the stop record, and the breakpoints in `addBreakpoint`
and `delBreakpoint` only.
-/

namespace ConcreteEval

/-- The application threads are suspended, and `suspend_params` says so. -/
def World.Suspended (w : World) : Prop :=
  w.suspended = true ∧ w.globals.suspendParams.isSome = true

/-- The error of `executeUntilEvent` where the application is not suspended. -/
def notSuspended : Halt :=
  .thrown (.exception "Execution is not currently suspended.".toList)

/-- How the last `executeUntilEvent` ended, as long as the next has not started to resume
the application. -/
def lastEnd : List Mark → Option (Prog.Ending Halt Result)
  | .ended .server (.executeUntilEvent _) x :: _ => some x
  | .did .server (.write (.stoppedContext none)) :: _ => none
  | _ :: l => lastEnd l
  | [] => none

/-- The server is between the end of an `executeUntilEvent` and the next resume. -/
def Paused (l : List Mark) : Prop :=
  ∃ x, lastEnd l = some x

theorem lastEnd_did_server {o : Op} {l : List Mark} (ho : o ≠ .write (.stoppedContext none)) :
    lastEnd (.did .server o :: l) = lastEnd l := by
  cases o with
  | write x =>
    cases x with
    | stoppedContext c =>
      cases c with
      | none => exact absurd rfl ho
      | some c => rfl
    | _ => rfl
  | _ => rfl

theorem lastEnd_ended (op : Operation) (x : Prog.Ending Halt Result) (l : List Mark) :
    lastEnd (.ended .server op x :: l) = lastEnd l ∨
      ∃ S, op = .executeUntilEvent S ∧ lastEnd (.ended .server op x :: l) = some x := by
  cases op with
  | executeUntilEvent S => exact Or.inr ⟨S, rfl, rfl⟩
  | _ => exact Or.inl rfl

/-- The stages from the end of a call to the resume. -/
def Stage.Paused (s : Stage) : Prop :=
  s.Held ∨ s = .armed ∨ s = .checking ∨ s = .ready

theorem Stage.Paused.not_awake {s : Stage} (h : s.Paused) : ¬s.Awake := by
  rcases h with h | rfl | rfl | rfl
  · exact h.not_awake
  all_goals simp [Awake]

theorem Stage.paused_rest (s : Stage) : s.rest.Paused :=
  Or.inl s.held_rest

namespace View

variable {v v' : View} {x : Option (Actor × Op)}

/-- Between two calls the application is suspended. -/
theorem Ok.suspended_of_not_awake (hv : v.Ok) (hs : ¬v.stage.Awake) : v.world.Suspended := by
  constructor
  · simpa using mt hv.suspended.mp hs
  · have hp : v.world.globals.suspendParams ≠ none := fun h => hs (hv.params.mp h).awake
    exact Option.isSome_iff_ne_none.mpr hp

theorem Ok.held_of_idle (hv : v.Ok) (hc : v.call = none) : v.stage.Held := by
  simpa [hc, Stage.Of] using hv.call

/-- The server is in a stage before the resume. -/
def Resting (v : View) : Prop :=
  Paused v.world.log → v.stage.Paused

theorem ServerStep.paused {o : Op} {w : World} {s : Stage} (h : v.ServerStep o w s)
    (hs : v.stage.Paused) (hne : o ≠ .write (.stoppedContext none)) : s.Paused := by
  cases h with
  | lock h hm =>
    rcases Stage.locks_eq_some h with ⟨-, rfl⟩ | ⟨-, rfl⟩
    · exact Or.inl ⟨_, rfl⟩
    · exact Or.inr (Or.inr (Or.inl rfl))
  | unlock h =>
    rcases Stage.unlocks_eq_some h with ⟨-, rfl⟩ | ⟨-, rfl⟩ | ⟨hst, rfl⟩
    · exact Or.inl ⟨_, rfl⟩
    · exact Or.inr (Or.inr (Or.inr rfl))
    · simp [hst, Stage.Paused, Stage.Held] at hs
  | setEvents hc h => exact Or.inr (Or.inl rfl)
  | clearContext h => exact absurd rfl hne
  | clearBlock h | resume h | clearParams h | wait h | setParams h | suspend h
  | found _ h | notFound _ h => simp [h, Stage.Paused, Stage.Held] at hs
  | _ => exact hs

theorem Step.paused (h : v.Step x v') (hs : v.stage.Paused)
    (hne : x ≠ some (.server, .write (.stoppedContext none))) : v'.stage.Paused := by
  cases h with
  | reply hc hx => exact v.stage.paused_rest
  | server h => exact h.paused hs (by simpa using hne)
  | _ => exact hs

/-- How the last `executeUntilEvent` ended changes where one ends. -/
theorem Step.lastEnd (h : v.Step x v')
    (hne : x ≠ some (.server, .write (.stoppedContext none))) :
    lastEnd v'.world.log = lastEnd v.world.log ∨
      ∃ S y, v.call = some (.executeUntilEvent S) ∧
        (Operation.executeUntilEvent S).Replies y v.stage ∧
        lastEnd v'.world.log = some y ∧ v'.world.globals = v.world.globals ∧
        v'.stage.Paused := by
  cases h with
  | @reply op y hc hx =>
    rcases lastEnd_ended op y v.world.log with h | ⟨S, rfl, h⟩
    · exact Or.inl h
    · exact Or.inr ⟨S, y, hc, hx, h, rfl, v.stage.paused_rest⟩
  | server h =>
    left
    rw [serverDid, World.note_log, lastEnd_did_server (by simpa using hne), h.log]
  | enter hw hop _ => simp [ConcreteEval.lastEnd]
  | app hw h => simp [appDid, ConcreteEval.lastEnd, h.log]
  | _ => exact Or.inl rfl

theorem Step.resting (h : v.Step x v') (hv : v.Resting) : v'.Resting := by
  rintro ⟨y, hp⟩
  by_cases hne : x = some (.server, .write (.stoppedContext none))
  · subst hne
    rw [h.log] at hp
    cases hp
  · rcases h.lastEnd hne with hl | ⟨S, z, -, -, -, -, hs⟩
    · exact h.paused (hv ⟨y, hl.symm.trans hp⟩) hne
    · exact hs

/-- While the application is suspended, only the server's edits change the breakpoints, and
only the start of the resume changes the stop record. -/
theorem Step.frame (h : v.Step x v') (hv : v.Ok) (hs : v.stage.Paused)
    (hne : x ≠ some (.server, .write (.stoppedContext none))) :
    v'.world.globals.stoppedContext = v.world.globals.stoppedContext ∧
    v'.world.globals.stoppedBlock = v.world.globals.stoppedBlock ∧
    ((v'.world.globals.breakpoints = v.world.globals.breakpoints ∧
        v'.world.globals.deferredBreakpoints = v.world.globals.deferredBreakpoints) ∨
      ∃ op o, v.call = some op ∧ op.edits = true ∧ x = some (.server, o)) := by
  cases h with
  | server h =>
    cases h with
    | edit hc hop hst hx =>
      exact ⟨Write.stoppedContext_of_edits hx _, Write.stoppedBlock_of_edits hx _,
        Or.inr ⟨_, _, hc, hop, rfl⟩⟩
    | clearContext h => exact absurd rfl hne
    | clearBlock h | resume h | clearParams h | wait h | setParams h | suspend h
    | found _ h | notFound _ h => simp [h, Stage.Paused, Stage.Held] at hs
    | _ => exact ⟨rfl, rfl, Or.inl ⟨rfl, rfl⟩⟩
  | app hw h => exact absurd (hv.suspended.mp hw) hs.not_awake
  | enter hw hop hp => simp
  | _ => exact ⟨rfl, rfl, Or.inl ⟨rfl, rfl⟩⟩

end View

namespace Machine

variable {m m' : Machine}

theorem Reachable.view (hm : m.Reachable .debug) :
    ∃ v, m.Tracks v ∧ v.Ok ∧ v.Resting :=
  ReachedBy.view (C := fun _ _ _ => True) hm (fun _ _ _ _ _ _ _ _ _ => trivial)
    (fun _ h => by simp [View.boot, lastEnd, Paused] at h) fun _ _ _ _ hr _ hs => hs.resting hr

/-- Where the server is between two calls the application is suspended. -/
theorem Reachable.suspended_of_idle (hm : m.Reachable .debug) (h : m.running .server = none) :
    m.world.Suspended := by
  obtain ⟨v, htr, hv, -⟩ := hm.view
  have hc : v.call = none := by simp [htr.call, h]
  rw [← htr.world]
  exact hv.suspended_of_not_awake (hv.held_of_idle hc).not_awake

/-- Where a call of the server ends the application is suspended. -/
theorem Reachable.suspended_of_ending (hm : m.Reachable .debug) {op : Operation} {p : Dr Result}
    {x : Prog.Ending Halt Result} (h : m.running .server = some (op, p))
    (hx : endingOf .server p = some x) : m.world.Suspended := by
  obtain ⟨v, htr, hv, -⟩ := hm.view
  rw [← htr.world]
  exact hv.suspended_of_not_awake (endingOf_server hx (htr.server op p h)).not_awake

/-- No check of the server on the suspension fails. -/
theorem Reachable.no_fault (hm : m.Reachable .debug) {op : Operation} {p : Dr Result}
    (h : m.running .server = some (op, p)) :
    (∀ f, p ≠ .stop (.fault f)) ∧
      ∀ S, op = .executeUntilEvent S → p ≠ .stop notSuspended := by
  obtain ⟨v, htr, hv, -⟩ := hm.view
  have hf := htr.server op p h
  constructor
  · rintro f rfl
    obtain ⟨⟨e, he⟩, -⟩ : (∃ e, Halt.fault f = .thrown e) ∧ _ := hf
    cases he
  · rintro S rfl rfl
    rcases hf.2 with ⟨e, he, -⟩ | ⟨he, -⟩
    · cases he
    · simp [notSuspended, unableToLocateContext] at he

theorem Tracks.paused {v : View} (hm : m.Tracks v) (hv : v.Resting) (hp : Paused m.world.log) :
    v.stage.Paused := by
  rw [← hm.world] at hp
  exact hv hp

/-- While the server has not started to resume the application, the stop record stays. -/
theorem frame_of_paused (hm : m.Reachable .debug) (hp : Paused m.world.log)
    (h : Relation.ReflTransGen (Moves (step .debug) fun m l =>
      m.act l ≠ some (.server, .write (.stoppedContext none))) m m') :
    m'.world.globals.stoppedContext = m.world.globals.stoppedContext ∧
      m'.world.globals.stoppedBlock = m.world.globals.stoppedBlock := by
  obtain ⟨v₀, htr₀, hv₀, hr₀⟩ := hm.view
  have hinv : ∃ v, m'.Tracks v ∧ v.Ok ∧ v.stage.Paused ∧
      v.world.globals.stoppedContext = m.world.globals.stoppedContext ∧
      v.world.globals.stoppedBlock = m.world.globals.stoppedBlock := by
    refine invariant_of_moves (I := fun m' => ∃ v, m'.Tracks v ∧ v.Ok ∧ v.stage.Paused ∧
      v.world.globals.stoppedContext = m.world.globals.stoppedContext ∧
      v.world.globals.stoppedBlock = m.world.globals.stoppedBlock) ?_ ?_ h
    · exact ⟨v₀, htr₀, hv₀, htr₀.paused hr₀ hp, by rw [htr₀.world], by rw [htr₀.world]⟩
    · rintro m₁ l m₂ ⟨v, htr, hv, hs, hc, hb⟩ hne hstep
      obtain ⟨v', hstep', htr'⟩ := htr.step hv hstep
      obtain ⟨hc', hb', -⟩ := hstep'.frame hv hs hne
      exact ⟨v', htr', hstep'.ok hv, hstep'.paused hs hne, hc'.trans hc, hb'.trans hb⟩
  obtain ⟨v, htr, -, -, hc, hb⟩ := hinv
  rw [← htr.world]
  exact ⟨hc, hb⟩

theorem act_eq_some {l : Label} {a : Actor} {o : Op} (h : m.act l = some (a, o)) :
    ∃ env, l = .action a env := by
  cases l with
  | action c env =>
    obtain ⟨o', -, ho⟩ := Option.map_eq_some_iff.mp h
    obtain ⟨rfl, -⟩ := Prod.mk.inj ho
    exact ⟨env, rfl⟩
  | _ => cases h

/-- While the server has not started to resume the application, only its calls that edit the
breakpoints change them. -/
theorem edits_of_paused (hm : m.Reachable .debug) (hp : Paused m.world.log) {l : Label}
    (hs : m.step .debug l = some m')
    (hne : m.act l ≠ some (.server, .write (.stoppedContext none))) :
    (m'.world.globals.breakpoints = m.world.globals.breakpoints ∧
        m'.world.globals.deferredBreakpoints = m.world.globals.deferredBreakpoints) ∨
      ∃ op p env, m.running .server = some (op, p) ∧ op.edits = true ∧
        l = .action .server env := by
  obtain ⟨v, htr, hv, hr⟩ := hm.view
  obtain ⟨v', hstep, htr'⟩ := htr.step hv hs
  obtain ⟨-, -, hmap⟩ := hstep.frame hv (htr.paused hr hp) hne
  rw [← htr.world, ← htr'.world]
  rcases hmap with hmap | ⟨op, o, hc, hop, hact⟩
  · exact Or.inl hmap
  · obtain ⟨⟨op', p⟩, hrun, rfl⟩ := Option.map_eq_some_iff.mp (htr.call.symm.trans hc)
    obtain ⟨env, rfl⟩ := act_eq_some hact
    exact Or.inr ⟨_, p, env, hrun, hop, rfl⟩

/-- The application is suspended at the start and at the end of every call, the checks of
it do not fail, and from an `executeUntilEvent` to the next resume only the server acts, by
its edits of the breakpoints. -/
theorem suspended_at_calls (hm : m.Reachable .debug) :
    (∀ l m', m.step .debug l = some m' → (∃ op, l = .start .server op) ∨ l = .finish .server →
      m.world.Suspended ∧ m'.world.Suspended) ∧
    (∀ op p, m.running .server = some (op, p) → (∀ f, p ≠ .stop (.fault f)) ∧
      ∀ S, op = .executeUntilEvent S → p ≠ .stop notSuspended) ∧
    (Paused m.world.log →
      (∀ m', Relation.ReflTransGen (Moves (step .debug) fun m l =>
          m.act l ≠ some (.server, .write (.stoppedContext none))) m m' →
        m'.world.globals.stoppedContext = m.world.globals.stoppedContext ∧
        m'.world.globals.stoppedBlock = m.world.globals.stoppedBlock) ∧
      ∀ l m', m.step .debug l = some m' →
        m.act l ≠ some (.server, .write (.stoppedContext none)) →
        (m'.world.globals.breakpoints = m.world.globals.breakpoints ∧
          m'.world.globals.deferredBreakpoints = m.world.globals.deferredBreakpoints) ∨
        ∃ op p env, m.running .server = some (op, p) ∧ op.edits = true ∧
          l = .action .server env) := by
  refine ⟨?_, fun op p h => hm.no_fault h, fun hp => ⟨fun m' h => frame_of_paused hm hp h,
    fun l m' hs hne => edits_of_paused hm hp hs hne⟩⟩
  rintro l m' hs (⟨op, rfl⟩ | rfl)
  · obtain ⟨hr, hc, rfl⟩ := step_start hs
    have hsus := hm.suspended_of_idle hr
    obtain ⟨-, hen⟩ := canStart_server hc
    rw [set_world, hen]
    exact ⟨hsus, hsus⟩
  · obtain ⟨op, p, x, hr, hx, rfl⟩ := step_finish hs
    have hsus := hm.suspended_of_ending hr hx
    exact ⟨hsus, hsus⟩

/-- `executeUntilEvent` has ended at a block of the application. -/
def stoppedOnce : Machine :=
  after .debug [] (startUp ++ resumes {.relevantBlock} ++
    [.start (.app 1) (.cleanCall (.relevantBlockCleanCall 16 20))] ++ actions (.app 1) 6 ++ stops)

theorem suspended_at_calls_stoppedOnce :
    (stoppedOnce.step .debug (.start .server .getBreakpoints)).isSome = true ∧
      stoppedOnce.world.globals.stoppedBlock = some (16, 20) ∧
      (∀ m', stoppedOnce.step .debug (.start .server .getBreakpoints) = some m' →
        stoppedOnce.world.Suspended ∧ m'.world.Suspended) ∧
      ∀ m', Relation.ReflTransGen (Moves (step .debug) fun m l =>
          m.act l ≠ some (.server, .write (.stoppedContext none))) stoppedOnce m' →
        m'.world.globals.stoppedContext = stoppedOnce.world.globals.stoppedContext ∧
          m'.world.globals.stoppedBlock = some (16, 20) := by
  have hreach : stoppedOnce.Reachable .debug := reachable_after .debug [] _
  obtain ⟨hcalls, -, hpaused⟩ := suspended_at_calls hreach
  have hframe := (hpaused ⟨_, rfl⟩).1
  exact ⟨rfl, rfl, fun m' h => hcalls _ m' h (Or.inl ⟨_, rfl⟩), hframe⟩

end Machine

end ConcreteEval
