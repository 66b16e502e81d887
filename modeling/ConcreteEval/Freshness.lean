import ConcreteEval.Suspension

/-!
# What ends a call of `executeUntilEvent`

The log since the last resume says what the wait of a call can have been ended by. A call
ends fresh (`EndsFresh`) if it returns an event of its stop events, stored by a run of
`suspend_helper` that began after the resume, and no signal was latched at the resume.

That needs the application to be suspended with no signal latched and no thread inside
`suspend_helper` ahead of its signal (`SuspendsCleanly`). Then every call ends fresh
(`ends_fresh`); a thread that is suspended there goes on in a later call, and a signal that
is left over ends one (`not_ends_fresh`). Where a thread is suspended while it holds the
mutex, no later call gets past its lock.
-/

namespace ConcreteEval

/-! ## The log since the resume -/

/-- The start of a wait : the application is resumed. -/
def Mark.resumes : Mark → Bool
  | .did _ (.drResumeAllOtherThreads _) => true
  | _ => false

/-- An assignment to `stopped_context`. -/
def Mark.storesContext : Mark → Bool
  | .did _ (.write (.stoppedContext _)) => true
  | _ => false

/-- The log since the last resume. -/
def sinceResume (l : List Mark) : List Mark :=
  l.takeWhile fun x => !x.resumes

/-- The log up to the last resume. -/
def beforeResume (l : List Mark) : List Mark :=
  l.dropWhile fun x => !x.resumes

/-- Whether a signal is latched : none has been waited for since the last. -/
def latched : List Mark → Bool
  | .did _ .drEventSignal :: _ => true
  | .did _ .drEventWait :: _ => false
  | _ :: l => latched l
  | [] => false

/-- `stopped_context` holds `e`, stored by a run of `suspend_helper` that began after the last
resume. -/
def StoredSince (e : EventType) (l : List Mark) : Prop :=
  ∃ t mc newer older,
    l = newer ++ .did (.app t) (.write (.stoppedContext (some (e, mc)))) :: older ∧
    (∀ x ∈ newer, x.storesContext = false ∧ x.resumes = false) ∧
    .did (.app t) .drGetCurrentDrcontext ∈ sinceResume older

/-- A call for the stop events `S` that ends with `x` after the log `l` returns an event of
`S` that was raised since its resume, and there was no signal at the resume. -/
def EndsFresh (S : EventTypes) (x : Prog.Ending Halt Result) (l : List Mark) : Prop :=
  ∃ e, x = .returned (.event e) ∧ e ∈ S ∧ StoredSince e l ∧ latched (beforeResume l) = false

/-- The mark is neither about `stopped_context`, nor a resume, a signal or a wait. -/
def Mark.plain : Mark → Bool
  | .did _ (.write (.stoppedContext _)) => false
  | .did _ (.drResumeAllOtherThreads _) => false
  | .did _ .drEventSignal => false
  | .did _ .drEventWait => false
  | _ => true

theorem sinceResume_cons {x : Mark} {l : List Mark} (h : x.resumes = false) :
    sinceResume (x :: l) = x :: sinceResume l := by
  simp [sinceResume, h]

theorem beforeResume_cons {x : Mark} {l : List Mark} (h : x.resumes = false) :
    beforeResume (x :: l) = beforeResume l := by
  simp [beforeResume, h]

theorem StoredSince.cons {e : EventType} {x : Mark} {l : List Mark} (h : StoredSince e l)
    (hc : x.storesContext = false) (hr : x.resumes = false) : StoredSince e (x :: l) := by
  obtain ⟨t, mc, newer, older, rfl, hnewer, hbegan⟩ := h
  refine ⟨t, mc, x :: newer, older, rfl, ?_, hbegan⟩
  rintro y (_ | ⟨_, hy⟩)
  · exact ⟨hc, hr⟩
  · exact hnewer y hy

theorem Mark.plain.resumes {x : Mark} (h : x.plain = true) : x.resumes = false := by
  cases x with
  | did a o => cases o <;> first | rfl | cases h
  | _ => rfl

theorem Mark.plain.storesContext {x : Mark} (h : x.plain = true) : x.storesContext = false := by
  cases x with
  | did a o =>
    cases o with
    | write y => cases y <;> first | rfl | cases h
    | _ => rfl
  | _ => rfl

theorem latched_cons {x : Mark} {l : List Mark} (h : x.plain = true) :
    latched (x :: l) = latched l := by
  cases x with
  | did a o => cases o <;> first | rfl | cases h
  | _ => rfl

theorem Op.plain_of_isNeutral {a : Actor} {o : Op} (h : o.isNeutral = true) :
    (Mark.did a o).plain = true := by
  cases o <;> first | rfl | cases h

theorem Write.plain_of_edits {a : Actor} {x : Write} (h : x.edits = true) :
    (Mark.did a (.write x)).plain = true := by
  cases x <;> first | rfl | cases h

/-- The stages from the resume to the end of the call. -/
def Stage.InWindow (s : Stage) : Prop :=
  s.Awake ∨ (∃ found, s = .stopped found) ∨ s = .failed

/-- The stages from the wait to the end of the call. -/
def Stage.Caught (s : Stage) : Prop :=
  s = .woken ∨ s = .marked ∨ (∃ found, s = .stopped found) ∨ s = .failed

theorem Stage.Held.not_inWindow {s : Stage} (h : s.Held) : ¬s.InWindow := by
  obtain ⟨locked, rfl⟩ := h
  simp [InWindow, awake_iff]

theorem Stage.Held.not_caught {s : Stage} (h : s.Held) : ¬s.Caught := by
  obtain ⟨locked, rfl⟩ := h
  simp [Caught]

namespace View

variable {v v' : View} {x : Option (Actor × Op)}

/-- The server gets into the window by a resume only. -/
theorem ServerStep.inWindow {o : Op} {w : World} {s : Stage} (h : v.ServerStep o w s)
    (hs : s.InWindow) (hne : ∀ params, o ≠ .drResumeAllOtherThreads params) :
    v.stage.InWindow := by
  cases h with
  | lock h hm =>
    rcases Stage.locks_eq_some h with ⟨-, rfl⟩ | ⟨-, rfl⟩ <;>
      simp [Stage.InWindow, Stage.awake_iff] at hs
  | unlock h =>
    rcases Stage.unlocks_eq_some h with ⟨-, rfl⟩ | ⟨-, rfl⟩ | ⟨hst, rfl⟩
    · simp [Stage.InWindow, Stage.awake_iff] at hs
    · simp [Stage.InWindow, Stage.awake_iff] at hs
    · exact Or.inr (Or.inr hst)
  | setEvents | clearContext | clearBlock => simp [Stage.InWindow, Stage.awake_iff] at hs
  | resume h => exact absurd rfl (hne _)
  | clearParams h | wait h | setParams h | suspend h | found _ h | notFound _ h =>
    simp [h, Stage.InWindow, Stage.awake_iff]
  | _ => exact hs

/-- The application is resumed by a resume only. -/
theorem ServerStep.awake {o : Op} {w : World} {s : Stage} (h : v.ServerStep o w s)
    (hs : s.Awake) (hne : ∀ params, o ≠ .drResumeAllOtherThreads params) : v.stage.Awake := by
  cases h with
  | lock h hm =>
    rcases Stage.locks_eq_some h with ⟨-, rfl⟩ | ⟨-, rfl⟩ <;> simp [Stage.awake_iff] at hs
  | unlock h =>
    rcases Stage.unlocks_eq_some h with ⟨-, rfl⟩ | ⟨-, rfl⟩ | ⟨-, rfl⟩ <;>
      simp [Stage.awake_iff] at hs
  | setEvents | clearContext | clearBlock | suspend | found | notFound =>
    simp [Stage.awake_iff] at hs
  | resume h => exact absurd rfl (hne _)
  | clearParams h | wait h | setParams h => simp [h, Stage.awake_iff]
  | _ => exact hs

/-- The server gets past the wait by the wait only. -/
theorem ServerStep.caught {o : Op} {w : World} {s : Stage} (h : v.ServerStep o w s)
    (hs : s.Caught) (hne : o ≠ .drEventWait) : v.stage.Caught := by
  cases h with
  | lock h hm =>
    rcases Stage.locks_eq_some h with ⟨-, rfl⟩ | ⟨-, rfl⟩ <;> simp [Stage.Caught] at hs
  | unlock h =>
    rcases Stage.unlocks_eq_some h with ⟨-, rfl⟩ | ⟨-, rfl⟩ | ⟨hst, rfl⟩
    · simp [Stage.Caught] at hs
    · simp [Stage.Caught] at hs
    · simp [hst, Stage.Caught]
  | setEvents | clearContext | clearBlock | resume | clearParams => simp [Stage.Caught] at hs
  | wait h he => exact absurd rfl hne
  | setParams h | suspend h | found _ h | notFound _ h => simp [h, Stage.Caught]
  | _ => exact hs

/-- Between a resume and the end of the call the server does not touch `stopped_context`. -/
theorem ServerStep.stoppedContext {o : Op} {w : World} {s : Stage} (h : v.ServerStep o w s)
    (hs : v.stage ≠ .ready) :
    w.globals.stoppedContext = v.world.globals.stoppedContext ∧
      (Mark.did .server o).storesContext = false := by
  cases h with
  | neutral ho => exact ⟨rfl, Mark.plain.storesContext (Op.plain_of_isNeutral ho)⟩
  | edit hc hop hst hx =>
    exact ⟨Write.stoppedContext_of_edits hx _,
      Mark.plain.storesContext (Write.plain_of_edits hx)⟩
  | clearContext h => exact absurd h hs
  | _ => exact ⟨rfl, rfl⟩

/-- A thread sets `stopped_context`, if it touches it. -/
theorem AppStep.stoppedContext {t : ℕ} {o : Op} {w : World} {p : Phase}
    (h : v.AppStep t o w p) :
    (w.globals.stoppedContext = v.world.globals.stoppedContext ∧
      (Mark.did (.app t) o).storesContext = false) ∨
      ∃ e mc, v.phase t = .sampled e ∧ o = .write (.stoppedContext (some (e, mc))) ∧
        w.globals.stoppedContext = some (e, mc) := by
  cases h with
  | neutral hp ho => exact Or.inl ⟨rfl, Mark.plain.storesContext (Op.plain_of_isNeutral ho)⟩
  | edit hp hx =>
    exact Or.inl ⟨Write.stoppedContext_of_edits hx _,
      Mark.plain.storesContext (Write.plain_of_edits hx)⟩
  | storeContext hp => exact Or.inr ⟨_, _, hp, rfl, rfl⟩
  | _ => exact Or.inl ⟨rfl, rfl⟩

/-- A thread signals after its stores. -/
theorem AppStep.event {t : ℕ} {o : Op} {w : World} {p : Phase} (h : v.AppStep t o w p) :
    w.event = v.world.event ∨ ∃ e, v.phase t = .recorded e := by
  cases h with
  | signal hp => exact Or.inr ⟨_, hp⟩
  | _ => exact Or.inl rfl

theorem ServerStep.event {o : Op} {w : World} {s : Stage} (h : v.ServerStep o w s)
    (he : w.event = true) : v.world.event = true := by
  cases h with
  | wait hs he' => exact he'
  | _ => exact he

/-- The application is suspended by a suspension only. -/
theorem ServerStep.suspends {o : Op} {w : World} {s : Stage} (h : v.ServerStep o w s)
    (hs : v.stage.Awake) (hs' : ¬s.Awake) :
    o = .drSuspendAllOtherThreads ∧ s = .stopped none := by
  cases h with
  | lock h hm =>
    rcases Stage.locks_eq_some h with ⟨hst, -⟩ | ⟨hst, -⟩
    · exact absurd hs hst.not_awake
    · simp [hst, Stage.awake_iff] at hs
  | unlock h =>
    rcases Stage.unlocks_eq_some h with ⟨hst, -⟩ | ⟨hst, -⟩ | ⟨hst, -⟩ <;>
      simp [hst, Stage.awake_iff] at hs
  | setEvents _ h | clearContext h | clearBlock h | resume h | found _ h | notFound _ h =>
    simp [h, Stage.awake_iff] at hs
  | clearParams | wait | setParams => simp [Stage.awake_iff] at hs'
  | suspend h => exact ⟨rfl, rfl⟩
  | _ => exact absurd hs hs'

/-- The stop events stay as they are in the window. -/
theorem ServerStep.stopEvents {o : Op} {w : World} {s : Stage} (h : v.ServerStep o w s)
    (hs : v.stage.InWindow) : w.globals.stopEvents = v.world.globals.stopEvents := by
  cases h with
  | edit hc hop hst hx => exact Write.stopEvents_of_edits hx _
  | setEvents hc h => exact absurd hs (Stage.Held.not_inWindow ⟨_, h⟩)
  | _ => rfl

theorem ServerStep.latched {o : Op} {w : World} {s : Stage} (h : v.ServerStep o w s)
    (hv : v.world.event = latched v.world.log) :
    w.event = ConcreteEval.latched (.did .server o :: v.world.log) := by
  cases h with
  | neutral ho => exact hv.trans (latched_cons (Op.plain_of_isNeutral ho)).symm
  | edit hc hop hs hx => exact hv.trans (latched_cons (Write.plain_of_edits hx)).symm
  | wait hs he => rfl
  | _ => exact hv

theorem AppStep.latched {t : ℕ} {o : Op} {w : World} {p : Phase} (h : v.AppStep t o w p)
    (hv : v.world.event = latched v.world.log) :
    w.event = ConcreteEval.latched (.did (.app t) o :: v.world.log) := by
  cases h with
  | neutral hp ho => exact hv.trans (latched_cons (Op.plain_of_isNeutral ho)).symm
  | edit hp hx => exact hv.trans (latched_cons (Write.plain_of_edits hx)).symm
  | signal hp => rfl
  | _ => exact hv

theorem AppStep.resumes {t : ℕ} {o : Op} {w : World} {p : Phase} (h : v.AppStep t o w p) :
    (Mark.did (.app t) o).resumes = false := by
  cases h with
  | neutral hp ho => exact Mark.plain.resumes (Op.plain_of_isNeutral ho)
  | _ => rfl

theorem ServerStep.resumes {o : Op} {w : World} {s : Stage} (h : v.ServerStep o w s)
    (hne : ∀ params, o ≠ .drResumeAllOtherThreads params) :
    (Mark.did .server o).resumes = false := by
  cases h with
  | neutral ho => exact Mark.plain.resumes (Op.plain_of_isNeutral ho)
  | resume hs => exact absurd rfl (hne _)
  | _ => rfl

end View

/-! ## What holds while the application runs -/

/-- `e` is one of the stop events. -/
def World.InEvents (w : World) (e : EventType) : Prop :=
  ∃ S, w.globals.stopEvents = some S ∧ e ∈ S

/-- What a phase of the thread `t` means for the world : the event it raises is one of the
stop events, it began since the resume, and from its store on `stopped_context` is set. -/
def Phase.Ok (w : World) (t : ℕ) : Phase → Prop
  | .quiet => True
  | .fired _ => True
  | .armed e _ => w.InEvents e
  | .begun e => w.InEvents e ∧ .did (.app t) .drGetCurrentDrcontext ∈ sinceResume w.log
  | .sampled e => w.InEvents e ∧ .did (.app t) .drGetCurrentDrcontext ∈ sinceResume w.log
  | .context _ => w.globals.stoppedContext ≠ none
  | .recorded _ => w.globals.stoppedContext ≠ none

/-- The world `w'` goes on from `w` without a resume. -/
structure World.Continues (w w' : World) : Prop where
  stopEvents : w'.globals.stopEvents = w.globals.stopEvents
  log : ∀ y ∈ sinceResume w.log, y ∈ sinceResume w'.log
  context : w.globals.stoppedContext ≠ none → w'.globals.stoppedContext ≠ none

theorem Phase.Ok.mono {w w' : World} {t : ℕ} {p : Phase} (h : p.Ok w t) (hw : w.Continues w') :
    p.Ok w' t := by
  have hin : ∀ e, w.InEvents e → w'.InEvents e := by
    rintro e ⟨S, hS, he⟩
    exact ⟨S, hw.stopEvents.trans hS, he⟩
  cases p with
  | quiet => trivial
  | fired e => trivial
  | armed e S => exact hin e h
  | begun e => exact ⟨hin e h.1, hw.log _ h.2⟩
  | sampled e => exact ⟨hin e h.1, hw.log _ h.2⟩
  | context e => exact hw.context h
  | recorded e => exact hw.context h

theorem Operation.phase_ok {op : Operation} {w : World} {t : ℕ} : op.phase.Ok w t := by
  cases op with
  | cleanCall c => cases c <;> trivial
  | _ => trivial

theorem Write.fires_ok {x : Write} {w : World} {t : ℕ} : x.fires.Ok w t := by
  cases x <;> trivial

theorem Phase.Ok.look {w : World} {t : ℕ} {p : Phase} (h : p.Ok w t) :
    (p.look w.globals).Ok w t := by
  cases p with
  | fired e =>
    unfold Phase.look
    cases hS : w.globals.stopEvents with
    | none => trivial
    | some S =>
      by_cases he : e ∈ S
      · simpa [he, Phase.Ok] using ⟨S, hS, he⟩
      · simp [he, Phase.Ok]
  | _ => exact h

namespace View

variable {v v' : View} {x : Option (Actor × Op)}

theorem AppStep.continues {t : ℕ} {o : Op} {w : World} {p : Phase} (h : v.AppStep t o w p) :
    v.world.Continues (w.note (.did (.app t) o)) where
  stopEvents := h.frame.2.2
  log y hy := by
    rw [World.note_log, sinceResume_cons h.resumes, h.log]
    exact List.mem_cons_of_mem _ hy
  context hc := by
    rcases h.stoppedContext with ⟨heq, -⟩ | ⟨e, mc, -, -, heq⟩
    · rwa [World.note_globals, heq]
    · simp [heq]

theorem ServerStep.continues {o : Op} {w : World} {s : Stage} (h : v.ServerStep o w s)
    (hs : v.stage.Awake) : v.world.Continues (w.note (.did .server o)) where
  stopEvents := h.stopEvents (Or.inl hs)
  log y hy := by
    have hne : ∀ params, o ≠ .drResumeAllOtherThreads params := by
      rintro params rfl
      cases h with
      | neutral ho => cases ho
      | resume h => simp [h, Stage.awake_iff] at hs
    rw [World.note_log, sinceResume_cons (h.resumes hne), h.log]
    exact List.mem_cons_of_mem _ hy
  context hc := by
    have hready : v.stage ≠ .ready := by
      intro h
      simp [h, Stage.awake_iff] at hs
    rwa [World.note_globals, (h.stoppedContext hready).1]

/-- The new phase of a thread means what it should after its action. -/
theorem AppStep.phaseOk {t : ℕ} {o : Op} {w : World} {p : Phase} (h : v.AppStep t o w p)
    (ht : (v.phase t).Ok v.world t) : p.Ok (w.note (.did (.app t) o)) t := by
  have hold := ht.mono h.continues
  cases h with
  | read => exact hold.look
  | edit hp hx => exact Write.fires_ok
  | begin hp =>
    rw [hp] at hold
    exact ⟨hold, by simp [sinceResume, Mark.resumes]⟩
  | sample hp =>
    rw [hp] at hold
    exact hold
  | storeContext hp => simp [Phase.Ok, Write.apply]
  | storeBlock hp =>
    rw [hp] at hold
    exact hold
  | _ => trivial

/-! ## The invariant -/

/-- No signal is latched, and no thread is in `suspend_helper` ahead of its signal. -/
def Calm (v : View) : Prop :=
  v.world.event = false ∧ ∀ t, v.phase t = .quiet ∨ ∃ e, v.phase t = .fired e

/-- A suspended thread holds the mutex, and the server has not passed its next lock. -/
def Wedged (v : View) : Prop :=
  (∃ t, v.world.mutex = some (.app t)) ∧
    (v.stage.Held ∨ v.stage = .armed ∨ ∃ found, v.stage = .stopped found)

structure Fresh (v : View) : Prop where
  latched : v.world.event = latched v.world.log
  phases : v.stage.Awake → ∀ t, (v.phase t).Ok v.world t
  event : v.stage.Awake → v.world.event = true → v.world.globals.stoppedContext ≠ none
  asleep : ¬v.stage.Awake → v.Wedged ∨ v.Calm
  cleared : v.stage = .clearing ∨ v.stage = .cleared → v.world.globals.stoppedContext = none
  stored : v.stage.InWindow → ∀ e mc, v.world.globals.stoppedContext = some (e, mc) →
    v.world.InEvents e ∧ StoredSince e v.world.log
  signal : v.stage.InWindow → ConcreteEval.latched (beforeResume v.world.log) = false
  caught : v.stage.Caught →
    v.call = some .serverThread ∨ v.world.globals.stoppedContext ≠ none

theorem fresh_boot (modules : List Module) : (boot modules).Fresh where
  latched := rfl
  phases _ _ := trivial
  event _ h := by cases h
  asleep h := absurd (Or.inr (Or.inr (Or.inl rfl))) h
  cleared h := by simp [boot] at h
  stored _ e mc h := by cases h
  signal _ := rfl
  caught _ := Or.inl rfl

/-- The application is suspended where no thread is in `suspend_helper` and no signal is
latched, unless a thread holds the mutex. -/
def SuspendsCleanly (v : View) (a : Actor) (o : Op) : Prop :=
  a = .server → o = .drSuspendAllOtherThreads →
    (∃ t, v.world.mutex = some (.app t)) ∨ v.Calm

theorem Fresh.not_failed (hv : v.Fresh) (hok : v.Ok) : v.stage ≠ .failed := by
  intro hs
  rcases hv.caught (by simp [hs, Stage.Caught]) with hc | hc
  · have := hok.call
    simp [hc, hs, Stage.Of] at this
  · exact hc (hok.failed hs)

theorem ServerStep.calm {o : Op} {w : World} {s : Stage} (h : v.ServerStep o w s)
    (hs : ¬v.stage.Awake) (hv : v.Calm) : (v.serverDid o w s).Calm := by
  cases h with
  | wait h he => simp [h, Stage.awake_iff] at hs
  | _ => exact hv

/-- The server does not get past its next lock where a suspended thread holds the mutex. -/
theorem ServerStep.wedged {o : Op} {w : World} {s : Stage} (h : v.ServerStep o w s)
    (hok : v.Ok) (hs : ¬v.stage.Awake) (hf : s ≠ .failed) (hv : v.Wedged) :
    (v.serverDid o w s).Wedged := by
  obtain ⟨⟨t, hm⟩, hst⟩ := hv
  cases h with
  | lock h hm' => simp [hm] at hm'
  | unlock h =>
    rcases Stage.unlocks_eq_some h with ⟨hst', rfl⟩ | ⟨hst', rfl⟩ | ⟨hst', rfl⟩
    · have hserver := hok.mutex (Or.inl hst')
      simp [hm] at hserver
    · simp [hst', Stage.Held] at hst
    · exact absurd rfl hf
  | setEvents hc h => exact ⟨⟨t, hm⟩, Or.inr (Or.inl rfl)⟩
  | clearContext h | clearBlock h | resume h => simp [h, Stage.Held] at hst
  | clearParams h | wait h | setParams h | suspend h => simp [h, Stage.awake_iff] at hs
  | found hc h he => exact ⟨⟨t, hm⟩, Or.inr (Or.inr ⟨_, rfl⟩)⟩
  | notFound hc h he => exact absurd rfl hf
  | _ => exact ⟨⟨t, hm⟩, hst⟩

theorem Fresh.of_held (hs : v.stage.Held) (hl : v.world.event = ConcreteEval.latched v.world.log)
    (ha : v.Wedged ∨ v.Calm) : v.Fresh where
  latched := hl
  phases h := absurd h hs.not_awake
  event h := absurd h hs.not_awake
  asleep _ := ha
  cleared h := by
    obtain ⟨locked, hs⟩ := hs
    simp [hs] at h
  stored h := absurd h hs.not_inWindow
  signal h := absurd h hs.not_inWindow
  caught h := absurd h hs.not_caught

/-- A mark that says nothing of the stop protocol. -/
theorem Fresh.note (hv : v.Fresh) {w : World} {y : Mark} (hy : y.plain = true)
    (hg : w.globals = v.world.globals) (he : w.event = v.world.event)
    (hm : w.mutex = v.world.mutex) (hl : w.log = v.world.log) {phase : ℕ → Phase}
    (hp : ∀ t, phase t = v.phase t ∨ v.stage.Awake ∧ ∀ w, (phase t).Ok w t) :
    Fresh { v with world := w.note y, phase := phase } := by
  have hr := Mark.plain.resumes hy
  have hcont : v.world.Continues (w.note y) := by
    refine ⟨by simp [hg], fun z hz => ?_, by simp [hg]⟩
    rw [World.note_log, sinceResume_cons hr, hl]
    exact List.mem_cons_of_mem _ hz
  exact {
    latched := by simpa [he, hl, latched_cons hy] using hv.latched
    phases := fun hs t => by
      rcases hp t with ht | ht
      · change (phase t).Ok (w.note y) t
        rw [ht]
        exact (hv.phases hs t).mono hcont
      · exact ht.2 _
    event := fun hs h => hcont.context (hv.event hs (he ▸ h))
    asleep := fun hs => by
      rcases hv.asleep hs with hw | hc
      · exact Or.inl ⟨by simpa [hm] using hw.1, hw.2⟩
      · refine Or.inr ⟨by simpa [he] using hc.1, fun t => ?_⟩
        have ht : phase t = v.phase t := (hp t).resolve_right fun h => hs h.1
        simpa [ht] using hc.2 t
    cleared := fun hs => by simpa [hg] using hv.cleared hs
    stored := fun hs e mc hc => by
      obtain ⟨⟨S, hS, he⟩, hst⟩ := hv.stored hs e mc (by simpa [hg] using hc)
      refine ⟨⟨S, hcont.stopEvents.trans hS, he⟩, ?_⟩
      rw [World.note_log, hl]
      exact hst.cons (Mark.plain.storesContext hy) hr
    signal := fun hs => by
      rw [World.note_log, beforeResume_cons hr, hl]
      exact hv.signal hs
    caught := fun hs => (hv.caught hs).imp_right hcont.context }

theorem AppStep.fresh {t : ℕ} {o : Op} {w : World} {p : Phase} (h : v.AppStep t o w p)
    (hs : v.stage.Awake) (hv : v.Fresh) : (v.appDid t o w p).Fresh := by
  have hcont := h.continues
  exact {
    latched := by
      rw [appDid, World.note_log, h.log]
      exact h.latched hv.latched
    phases := fun _ u => by
      by_cases hu : u = t
      · subst hu
        simpa [appDid] using h.phaseOk (hv.phases hs u)
      · simpa [appDid, hu] using (hv.phases hs u).mono hcont
    event := fun _ he => by
      refine hcont.context ?_
      rcases h.event with heq | ⟨e, hp⟩
      · exact hv.event hs (heq.symm.trans he)
      · have ht := hv.phases hs t
        rwa [hp] at ht
    asleep := fun h => absurd hs h
    cleared := fun hclear => by
      have hstage : v.stage = .clearing ∨ v.stage = .cleared := hclear
      rcases hstage with hstage | hstage <;> simp [hstage, Stage.awake_iff] at hs
    stored := fun hw e mc hc => by
      rcases h.stoppedContext with ⟨heq, hplain⟩ | ⟨e', mc', hp, rfl, heq⟩
      · obtain ⟨⟨S, hS, he⟩, hst⟩ := hv.stored hw e mc (heq.symm.trans hc)
        refine ⟨⟨S, hcont.stopEvents.trans hS, he⟩, ?_⟩
        rw [appDid, World.note_log, h.log]
        exact hst.cons hplain h.resumes
      · obtain ⟨rfl, rfl⟩ : e' = e ∧ mc' = mc := by
          simpa using Option.some.inj (heq.symm.trans hc)
        have ht := hv.phases hs t
        rw [hp] at ht
        obtain ⟨⟨S, hS, he⟩, hbegan⟩ := ht
        refine ⟨⟨S, hcont.stopEvents.trans hS, he⟩, t, mc', [], v.world.log, ?_,
          List.forall_mem_nil _, hbegan⟩
        rw [appDid, World.note_log, h.log]
        rfl
    signal := fun hw => by
      rw [appDid, World.note_log, h.log, beforeResume_cons h.resumes]
      exact hv.signal hw
    caught := fun hc => (hv.caught hc).imp_right hcont.context }

/-- The server finds a record where it has been woken. -/
theorem ServerStep.ne_failed {o : Op} {w : World} {s : Stage} (h : v.ServerStep o w s)
    (hok : v.Ok) (hv : v.Fresh) : s ≠ .failed := by
  rintro rfl
  have hnot := hv.not_failed hok
  generalize hst : Stage.failed = s at h
  cases h with
  | neutral | read | edit => exact hnot hst.symm
  | lock h hm => rcases Stage.locks_eq_some h with ⟨-, rfl⟩ | ⟨-, rfl⟩ <;> cases hst
  | unlock h =>
    rcases Stage.unlocks_eq_some h with ⟨-, rfl⟩ | ⟨-, rfl⟩ | ⟨h, -⟩
    · cases hst
    · cases hst
    · exact hnot h
  | notFound hc h he =>
    rcases hv.caught (by simp [h, Stage.Caught]) with hc' | hc'
    · simp [hc] at hc'
    · exact hc' he
  | _ => cases hst

/-- `stopped_context` is empty from its clearing to the resume. -/
theorem ServerStep.cleared {o : Op} {w : World} {s : Stage} (h : v.ServerStep o w s)
    (hv : v.stage = .clearing ∨ v.stage = .cleared → v.world.globals.stoppedContext = none)
    (hs : s = .clearing ∨ s = .cleared) : w.globals.stoppedContext = none := by
  cases h with
  | neutral ho => exact hv hs
  | read h => exact hv hs
  | lock h hm =>
    rcases Stage.locks_eq_some h with ⟨-, rfl⟩ | ⟨-, rfl⟩ <;> simp at hs
  | unlock h =>
    rcases Stage.unlocks_eq_some h with ⟨-, rfl⟩ | ⟨-, rfl⟩ | ⟨-, rfl⟩ <;> simp at hs
  | edit hc hop hst hx => simp [hst] at hs
  | clearContext h => rfl
  | clearBlock h => exact hv (Or.inl h)
  | _ => simp at hs

theorem Fresh.calm_of_cleared (hv : v.Fresh) (hs : v.stage = .cleared) : v.Calm := by
  refine (hv.asleep (by simp [hs, Stage.awake_iff])).resolve_left fun hw => ?_
  simp [Wedged, hs, Stage.Held] at hw

/-- The resume opens the window. -/
theorem Fresh.resume (hv : v.Fresh) (hs : v.stage = .cleared) (params : SuspendParams) :
    (v.serverDid (.drResumeAllOtherThreads params) { v.world with suspended := false }
      .resumed).Fresh := by
  obtain ⟨he, hp⟩ := hv.calm_of_cleared hs
  have hc := hv.cleared (Or.inr hs)
  exact {
    latched := hv.latched
    phases := fun _ t => by
      rcases hp t with ht | ⟨e, ht⟩ <;> simp [serverDid, ht, Phase.Ok]
    event := fun _ h => by simp [serverDid, he] at h
    asleep := fun h => absurd (Or.inl rfl) h
    cleared := nofun
    stored := fun _ e mc h => by simp [serverDid, hc] at h
    signal := fun _ => by
      simp only [serverDid, World.note_log, beforeResume, List.dropWhile_cons, Mark.resumes]
      exact hv.latched.symm.trans he
    caught := fun h => by simp [serverDid, Stage.Caught] at h }

theorem ServerStep.fresh {o : Op} {w : World} {s : Stage} (h : v.ServerStep o w s) (hok : v.Ok)
    (hv : v.Fresh) (hcond : v.SuspendsCleanly .server o) : (v.serverDid o w s).Fresh := by
  by_cases hres : ∃ params, o = .drResumeAllOtherThreads params
  · obtain ⟨params, rfl⟩ := hres
    cases h with
    | neutral ho => cases ho
    | resume hs => exact hv.resume hs params
  · have hne : ∀ params, o ≠ .drResumeAllOtherThreads params := fun params hp => hres ⟨params, hp⟩
    have hr := h.resumes hne
    have hlog : (v.serverDid o w s).world.log = .did .server o :: v.world.log := by
      rw [serverDid, World.note_log, h.log]
    have hready : v.stage.InWindow → v.stage ≠ .ready := by
      rintro hw hs
      simp [hs, Stage.InWindow, Stage.awake_iff] at hw
    exact {
      latched := by
        rw [hlog]
        exact h.latched hv.latched
      phases := fun hs t => by
        have hs' := h.awake hs hne
        exact (hv.phases hs' t).mono (h.continues hs')
      event := fun hs he => by
        have hs' := h.awake hs hne
        exact (h.continues hs').context (hv.event hs' (h.event he))
      asleep := fun hs => by
        by_cases hs' : v.stage.Awake
        · obtain ⟨rfl, -⟩ := h.suspends hs' hs
          cases h with
          | neutral ho => cases ho
          | suspend h =>
            exact (hcond rfl rfl).imp (fun hm => ⟨hm, Or.inr (Or.inr ⟨none, rfl⟩)⟩) id
        · rcases hv.asleep hs' with hw | hc
          · exact Or.inl (h.wedged hok hs' (h.ne_failed hok hv) hw)
          · exact Or.inr (h.calm hs' hc)
      cleared := fun hs => h.cleared hv.cleared hs
      stored := fun hs e mc hc => by
        have hs' := h.inWindow hs hne
        obtain ⟨heq, hplain⟩ := h.stoppedContext (hready hs')
        obtain ⟨⟨S, hS, he⟩, hst⟩ := hv.stored hs' e mc (heq.symm.trans hc)
        refine ⟨⟨S, (h.stopEvents hs').trans hS, he⟩, ?_⟩
        rw [hlog]
        exact hst.cons hplain hr
      signal := fun hs => by
        rw [hlog, beforeResume_cons hr]
        exact hv.signal (h.inWindow hs hne)
      caught := fun hs => by
        by_cases hwait : o = .drEventWait
        · subst hwait
          cases h with
          | neutral ho => cases ho
          | wait h he => exact Or.inr (hv.event (Or.inr (Or.inl h)) he)
        · have hs' := h.caught hs hwait
          have hready : v.stage ≠ .ready := by
            intro h
            simp [h, Stage.Caught] at hs'
          refine (hv.caught hs').imp_right fun hc => ?_
          rwa [serverDid, World.note_globals, (h.stoppedContext hready).1] }

theorem Step.fresh (h : v.Step x v') (hok : v.Ok) (hv : v.Fresh)
    (hcond : ∀ a o, x = some (a, o) → v.SuspendsCleanly a o) : v'.Fresh := by
  cases h with
  | call hc hop =>
    have hs := hok.held_of_idle hc
    exact .of_held hs hv.latched (hv.asleep hs.not_awake)
  | reply hc hx =>
    refine .of_held v.stage.held_rest ?_ ?_
    · exact hv.latched
    · exact (hv.asleep hx.not_awake).imp_left fun hw => ⟨hw.1, Or.inl v.stage.held_rest⟩
  | server h => exact h.fresh hok hv (hcond _ _ rfl)
  | @enter t op hw hop hp =>
    refine hv.note rfl (by simp) (by simp) (by simp) (by simp) fun u => ?_
    by_cases hu : u = t
    · subst hu
      exact Or.inr ⟨hok.suspended.mp hw, fun w => by simpa using Operation.phase_ok⟩
    · exact Or.inl (by simp [hu])
  | leave op x hp => exact hv.note rfl rfl rfl rfl rfl fun _ => Or.inl rfl
  | app hw h => exact h.fresh (hok.suspended.mp hw) hv
  | unload =>
    exact ⟨hv.latched, hv.phases, hv.event, hv.asleep, hv.cleared, hv.stored, hv.signal,
      hv.caught⟩

/-- The mark does not end a call of `executeUntilEvent`, or the call ends fresh. -/
def EndsMark (x : Mark) (older : List Mark) : Prop :=
  ∀ S y, x = .ended .server (.executeUntilEvent S) y → y ≠ .stopped notSuspended →
    EndsFresh S y older

/-- A call ends fresh. -/
theorem Fresh.endsFresh (hv : v.Fresh) (hok : v.Ok) {S : EventTypes}
    {x : Prog.Ending Halt Result} (hc : v.call = some (.executeUntilEvent S))
    (hx : (Operation.executeUntilEvent S).Replies x v.stage) : EndsFresh S x v.world.log := by
  rcases hx with ⟨e, rfl, hs⟩ | ⟨-, hs⟩
  · have hw : v.stage.InWindow := Or.inr (Or.inl ⟨_, hs⟩)
    obtain ⟨mc, hctx⟩ := hok.found e hs
    obtain ⟨⟨S', hS', he⟩, hst⟩ := hv.stored hw e mc hctx
    have hS := (hok.events S hc).resolve_left (by simp [hs, Stage.Held])
    obtain rfl : S' = S := Option.some.inj (hS'.symm.trans hS)
    exact ⟨e, rfl, he, hst, hv.signal hw⟩
  · exact absurd hs (hv.not_failed hok)

/-- What a step logs is a call that ends fresh, if it is the end of a call. -/
theorem Step.endsMark (h : v.Step x v') (hok : v.Ok) (hf : v.Fresh) {y : Mark}
    (hy : v'.world.log = y :: v.world.log) : EndsMark y v.world.log := by
  rintro S z rfl hz
  cases h with
  | @reply op z' hc hx =>
    obtain ⟨⟨⟩, -⟩ := List.cons.inj hy
    exact hf.endsFresh hok hc hx
  | unload => simp at hy
  | server h => simp [serverDid] at hy
  | app hw h => simp [appDid] at hy
  | _ => simp at hy

end View

/-- The action is one of `suspend_helper`, up to its signal. -/
def Op.inSuspendHelper : Op → Bool
  | .drGetCurrentDrcontext => true
  | .drGetMcontext _ => true
  | .write (.stoppedContext _) => true
  | .write (.stoppedBlock _) => true
  | .drEventSignal => true
  | _ => false

namespace Machine

variable {m : Machine}

/-- The thread `t` is in `suspend_helper`, or about to enter it, ahead of its signal. -/
def Helping (m : Machine) (t : ℕ) : Prop :=
  ∃ o, m.nextOp (.app t) = some o ∧ o.inSuspendHelper = true

/-- The step does not suspend the application while a signal is latched or a thread is in
`suspend_helper` ahead of its signal, unless a thread holds the mutex. -/
def SuspendsCleanly (m : Machine) (l : Label) : Prop :=
  m.act l = some (.server, .drSuspendAllOtherThreads) →
    (∃ t, m.world.mutex = some (.app t)) ∨ (m.world.event = false ∧ ∀ t, ¬m.Helping t)

/-- A thread that is not helping is raising no event, or has only just fired one. -/
theorem Tracks.calm_of_not_helping {v : View} (h : m.Tracks v) {t : ℕ} (ht : ¬m.Helping t) :
    v.phase t = .quiet ∨ ∃ e, v.phase t = .fired e := by
  by_cases hq : v.phase t = .quiet
  · exact Or.inl hq
  · obtain ⟨op, p, o, -, ho, hall⟩ := h.raising hq
    generalize v.phase t = p at hall hq
    cases hall with
    | look => exact Or.inr ⟨_, rfl⟩
    | begin | sample | storeContext | storeBlock | signal => exact absurd ⟨_, ho, rfl⟩ ht
    | _ => exact absurd rfl hq

/-- Where the application is suspended cleanly, every call of `executeUntilEvent` that got
past its check has ended with an event that was raised for it. -/
theorem ends_fresh (hm : m.ReachedBy .debug SuspendsCleanly) {newer older : List Mark}
    {S : EventTypes} {x : Prog.Ending Halt Result}
    (hl : m.world.log = newer ++ .ended .server (.executeUntilEvent S) x :: older)
    (hx : x ≠ .stopped notSuspended) : EndsFresh S x older := by
  have hview : ∃ v, m.Tracks v ∧ v.Ok ∧ v.Fresh ∧ Throughout View.EndsMark v.world.log := by
    refine ReachedBy.view (C := View.SuspendsCleanly) hm ?_ ?_ ?_
    · rintro m l v htr hv hc a o hact rfl rfl
      rcases hc hact with hmutex | ⟨he, hh⟩
      · exact Or.inl (by rwa [htr.world])
      · exact Or.inr ⟨by rwa [htr.world], fun t => htr.calm_of_not_helping (hh t)⟩
    · exact fun modules => ⟨View.fresh_boot modules, throughout_nil _⟩
    · rintro v v' x hok ⟨hf, he⟩ hc hs
      exact ⟨hs.fresh hok hf hc, hs.throughout he fun y hy => hs.endsMark hok hf hy⟩
  obtain ⟨v, htr, -, -, he⟩ := hview
  exact he newer _ older (by rw [htr.world, hl]) S x rfl hx

/-- The check of `SuspendsCleanly` for the only thread. -/
def suspendsCleanlyAlone (t : ℕ) (m : Machine) (l : Label) : Bool :=
  m.act l ≠ some (.server, .drSuspendAllOtherThreads) ||
    !m.world.event && (m.nextOp (.app t)).all fun o => !o.inSuspendHelper

theorem suspendsCleanly_of_alone {t : ℕ} (m : Machine) (l : Label)
    (hidle : ∀ u, u ≠ t → m.running (.app u) = none) (hc : suspendsCleanlyAlone t m l = true) :
    m.SuspendsCleanly l := by
  intro hact
  simp only [suspendsCleanlyAlone, hact, ne_eq, not_true_eq_false, decide_false, Bool.false_or,
    Bool.and_eq_true, Bool.not_eq_true'] at hc
  refine Or.inr ⟨hc.1, fun u => ?_⟩
  rintro ⟨o, ho, hhelp⟩
  by_cases hu : u = t
  · subst hu
    simp [ho, hhelp] at hc
  · simp [nextOp, hidle u hu] at ho

/-- One thread reaches a relevant block, and the server stops it after its signal. -/
def cleanStop : Machine :=
  afterAlone .debug [] 1 (suspendsCleanlyAlone 1) (startUp ++ resumes {.relevantBlock} ++
    [.start (.app 1) (.cleanCall (.relevantBlockCleanCall 16 20))] ++ actions (.app 1) 6 ++ stops)

theorem ends_fresh_cleanStop :
    EndsFresh {.relevantBlock} (.returned (.event .relevantBlock)) cleanStop.world.log.tail := by
  have hm : cleanStop.ReachedBy .debug SuspendsCleanly :=
    reachedBy_afterAlone suspendsCleanly_of_alone [] _
  have hl : cleanStop.world.log = [] ++ .ended .server (.executeUntilEvent {.relevantBlock})
      (.returned (.event .relevantBlock)) :: cleanStop.world.log.tail := rfl
  exact ends_fresh hm hl nofun

/-- Two threads signal for one wait; the second signal ends the next call. -/
def leftoverSignal : Machine :=
  after .debug [] (startUp ++ resumes {.relevantBlock} ++
    [.start (.app 1) (.cleanCall (.relevantBlockCleanCall 16 20)),
      .start (.app 2) (.cleanCall (.relevantBlockCleanCall 32 36))] ++
    actions (.app 1) 6 ++ actions .server 1 ++ actions (.app 2) 6 ++ actions .server 4 ++
    [.finish .server] ++ resumes {.relevantBlock} ++ actions .server 6 ++ [.finish .server])

/-- A call can be ended by a signal that is older than its resume. -/
theorem not_ends_fresh :
    ¬∀ m : Machine, m.Reachable .debug → ∀ newer S x older,
      m.world.log = newer ++ .ended .server (.executeUntilEvent S) x :: older →
      x ≠ .stopped notSuspended → EndsFresh S x older := by
  intro h
  obtain ⟨e, he, -⟩ := h leftoverSignal (reachable_after .debug [] _) [] {.relevantBlock}
    (.stopped unableToLocateContext) leftoverSignal.world.log.tail rfl
    (by simp [unableToLocateContext, notSuspended])
  cases he

end Machine

end ConcreteEval
