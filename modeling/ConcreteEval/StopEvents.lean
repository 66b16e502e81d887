import ConcreteEval.Suspension

/-!
# `stop_events` before its first value

`stop_events` gets its first value in the first `executeUntilEvent`, and clean calls and callbacks
dereference it without a look whether it has one. `dr_client_main` registers the callbacks while
the application runs, and only the start of the server thread, some time later, suspends it.

A thread that comes to the dereference before this suspension finds the optional empty. After it
the application does not run until an `executeUntilEvent` has set `stop_events`
(`View.Started.stopEvents`). So the value is there exactly if the suspension of the start has been
(`Machine.stopEvents_isSome_iff`).
-/

namespace ConcreteEval

/-- The server thread has suspended the application. -/
def Started (l : List Mark) : Prop :=
  .did .server .drSuspendAllOtherThreads ∈ l

theorem started_cons {x : Mark} {l : List Mark} (hx : x ≠ .did .server .drSuspendAllOtherThreads) :
    Started (x :: l) ↔ Started l := by
  constructor
  · intro h
    exact (List.mem_cons.mp h).resolve_left fun heq => hx heq.symm
  · exact List.mem_cons_of_mem x

namespace View

variable {v v' : View} {x : Option (Actor × Op)}

/-- The server thread is in its start, ahead of the suspension. -/
def AtStart (v : View) : Prop :=
  v.call = some .serverThread ∧ v.stage.Awake

/-- What the first suspension says. -/
structure StartsUp (v : View) : Prop where
  started : Started v.world.log ↔ ¬v.AtStart
  unset : v.AtStart → v.world.globals.stopEvents = none

theorem startsUp_boot (modules : List Module) : (boot modules).StartsUp where
  started := by simp [boot, AtStart, Started, Stage.awake_iff]
  unset _ := rfl

/-- A step that is not the suspension, and keeps `stop_events` until it. -/
theorem StartsUp.keep (h : v.StartsUp) (hl : Started v'.world.log ↔ Started v.world.log)
    (hs : v'.AtStart ↔ v.AtStart)
    (hse : v.AtStart → v'.world.globals.stopEvents = v.world.globals.stopEvents) :
    v'.StartsUp where
  started := by rw [hl, hs, h.started]
  unset hat := by
    have hat := hs.mp hat
    rw [hse hat, h.unset hat]

theorem ServerStep.startsUp {o : Op} {w : World} {s : Stage} (h : v.ServerStep o w s) (hv : v.Ok)
    (hst : v.StartsUp) : (v.serverDid o w s).StartsUp := by
  have hlog : Started (v.serverDid o w s).world.log ↔
      Started (.did .server o :: v.world.log) := by
    rw [serverDid, World.note_log, h.log]
  have hcall := hv.call
  cases h with
  | @suspend params hs =>
    have hnot : ¬(v.serverDid .drSuspendAllOtherThreads
        { v.writes (.suspendParams (some params)) with suspended := true }
        (.stopped none)).AtStart := by
      simp [AtStart, serverDid, Stage.awake_iff]
    exact ⟨iff_of_true (hlog.mpr List.mem_cons_self) hnot, fun hat => absurd hat hnot⟩
  | setEvents hc hs =>
    have hnot : ¬v.AtStart := by simp [AtStart, hc]
    refine hst.keep (hlog.trans (started_cons (by simp))) ?_ fun hat => absurd hat hnot
    simp [AtStart, serverDid, hc]
  | edit hc hop hs hx =>
    exact hst.keep (hlog.trans (started_cons (by simp))) Iff.rfl
      fun _ => Write.stopEvents_of_edits hx _
  | neutral ho =>
    exact hst.keep (hlog.trans (started_cons fun h => by cases h; cases ho)) Iff.rfl fun _ => rfl
  | lock hs hm =>
    refine hst.keep (hlog.trans (started_cons (by simp))) ?_ fun _ => rfl
    rcases Stage.locks_eq_some hs with ⟨⟨l, hl⟩, rfl⟩ | ⟨hl, rfl⟩ <;>
      simp [AtStart, serverDid, hl, Stage.awake_iff]
  | unlock hs =>
    refine hst.keep (hlog.trans (started_cons (by simp))) ?_ fun _ => rfl
    rcases Stage.unlocks_eq_some hs with ⟨hl, rfl⟩ | ⟨hl, rfl⟩ | ⟨hl, rfl⟩ <;>
      simp [AtStart, serverDid, hl, Stage.awake_iff]
  | read hs | setParams hs | clearBlock hs | clearContext hs | clearParams hs | resume hs
  | wait hs he | found hc hs he | notFound hc hs he =>
    refine hst.keep (hlog.trans (started_cons (by simp))) ?_ fun _ => rfl
    by_cases hc : v.call = some .serverThread
    · simp_all [AtStart, serverDid, Stage.awake_iff, Stage.Of]
    · simp [AtStart, serverDid, hc]

theorem Step.startsUp (h : v.Step x v') (hv : v.Ok) (hst : v.StartsUp) : v'.StartsUp := by
  cases h with
  | @call op hc hop =>
    refine hst.keep (started_cons (by simp)) ?_ fun _ => rfl
    have hne : op ≠ .serverThread := by
      rintro rfl
      cases hop
    simp [AtStart, hc, hne]
  | reply hc hx =>
    refine hst.keep (started_cons (by simp)) ?_ fun _ => rfl
    have hnot : ¬v.AtStart := fun hat => hx.not_awake hat.2
    simp [AtStart, hc] at hnot ⊢
    exact hnot
  | server h => exact h.startsUp hv hst
  | @enter t op hw hop hp =>
    refine hst.keep ?_ Iff.rfl fun _ => by simp
    simpa using started_cons (x := .started (.app t) op) (l := v.world.log) (by simp)
  | leave op y hp => exact hst.keep (started_cons (by simp)) Iff.rfl fun _ => rfl
  | @app t o w p hw h =>
    refine hst.keep ?_ Iff.rfl fun _ => h.frame.2.2
    rw [appDid, World.note_log, h.log]
    exact started_cons (by simp)
  | unload => exact hst.keep Iff.rfl Iff.rfl fun _ => rfl

/-- While the application runs, `stop_events` is set exactly after the first suspension. -/
theorem StartsUp.isSome_iff (hst : v.StartsUp) (hv : v.Ok) (hw : v.world.suspended = false) :
    v.world.globals.stopEvents.isSome = true ↔ Started v.world.log := by
  have hawake := hv.suspended.mp hw
  rw [hst.started]
  constructor
  · intro hset hat
    rw [hst.unset hat] at hset
    cases hset
  · intro hnot
    have hheld : ¬v.stage.Held := fun h => h.not_awake hawake
    rcases hv.cases_call hheld with hc | ⟨S, -, hS⟩
    · exact absurd ⟨hc, hawake⟩ hnot
    · simp [hS]

end View

namespace Machine

variable {m : Machine} {t : ℕ}

/-- The thread `t` is at a look at the globals that dereferences `stop_events`, and is not
suspended there. -/
def Dereferences (m : Machine) (t : ℕ) : Prop :=
  m.world.suspended = false ∧ ∃ op k, m.running (.app t) = some (op, .act .read k) ∧
    ∀ g, g.stopEvents = none → k g = fault .emptyOptional

theorem dereferences_of_fault {op : Operation} {k : Globals → Dr Result}
    (hw : m.world.suspended = false) (hr : m.running (.app t) = some (op, .act .read k))
    (hk : ∀ deferred breakpoints params context block,
      k ⟨deferred, breakpoints, params, none, context, block⟩ = fault .emptyOptional) :
    m.Dereferences t := by
  refine ⟨hw, op, k, hr, ?_⟩
  rintro ⟨deferred, breakpoints, params, stopEvents, context, block⟩ hnone
  obtain rfl : stopEvents = none := hnone
  exact hk _ _ _ _ _

/-- So is a thread that comes to a `stop_events->count (e)`. -/
theorem dereferences_of_stopEventsCount {op : Operation} {e : EventType} {f : Bool → Dr Result}
    (hw : m.world.suspended = false)
    (hr : m.running (.app t) = some (op, (stopEventsCount e).bind f)) : m.Dereferences t :=
  dereferences_of_fault hw hr fun _ _ _ _ _ => rfl

/-- Where a thread dereferences `stop_events`, it has a value exactly if the server thread has
suspended the application before. -/
theorem stopEvents_isSome_iff (hm : m.Reachable .debug) (ht : m.Dereferences t) :
    m.world.globals.stopEvents.isSome = true ↔ Started m.world.log := by
  obtain ⟨v, htr, hv, hst⟩ := ReachedBy.view (J := View.StartsUp) (C := fun _ _ _ => True) hm
    (fun _ _ _ _ _ _ _ _ _ => trivial) View.startsUp_boot
    fun v v' x hv hst _ hs => hs.startsUp hv hst
  have hiff := hst.isSome_iff hv (by rw [htr.world]; exact ht.1)
  rwa [htr.world] at hiff

/-- A thread builds a block after the first resume. -/
def laterBlock : Machine :=
  after .debug [] (startUp ++ resumes {} ++ [.start (.app 1) (.eventBasicBlock [⟨16, 4⟩])] ++
    actions (.app 1) 2)

theorem stopEvents_isSome_laterBlock :
    laterBlock.Dereferences 1 ∧
      (laterBlock.world.globals.stopEvents.isSome = true ↔ Started laterBlock.world.log) := by
  have ht : laterBlock.Dereferences 1 := dereferences_of_fault rfl rfl fun _ _ _ _ _ => rfl
  exact ⟨ht, stopEvents_isSome_iff (reachable_after .debug [] _) ht⟩

/-- A thread builds a block before the server thread has done anything. -/
def firstBlock : Machine :=
  after .debug [] ([.start (.app 1) (.eventBasicBlock [⟨16, 4⟩])] ++ actions (.app 1) 2)

/-- `stop_events` can be dereferenced before it is set. -/
theorem not_stopEvents_isSome :
    ¬∀ m : Machine, m.Reachable .debug → ∀ t, m.Dereferences t →
      m.world.globals.stopEvents.isSome = true := by
  intro h
  have ht : firstBlock.Dereferences 1 := dereferences_of_fault rfl rfl fun _ _ _ _ _ => rfl
  cases h firstBlock (reachable_after .debug [] _) 1 ht

end Machine

end ConcreteEval
