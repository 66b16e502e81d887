import ConcreteEval.Deferral
import ConcreteEval.Registers
import ConcreteEval.Suspension

/-!
# One stop for all calls

What a stop leaves is asked for by several calls : `executeUntilEvent` returns the event,
`getContext` the registers and `getCodeBlock` the block with its place in a module. Each of them
locks the mutex for itself, and clients may call them in any order and as often as they like, with
`addBreakpoint` and `delBreakpoint` in between.

They all speak of one stop. Of the calls that the server has ended since it last began to resume the
application (`endedSinceResume`), each one has ended with what the globals and the table of modules
say now (`Machine.Reachable.shows_stop`). Only the bytes of a block are those that were there when
the call was made.
-/

namespace ConcreteEval

/-! ## Stops -/

/-- What the calls can see of a stop. -/
structure Stop where
  context : Option (EventType × Mcontext)
  block : Option (AppPc × AppPc)
  modules : List Module

def World.stop (w : World) : Stop :=
  ⟨w.globals.stoppedContext, w.globals.stoppedBlock, w.modules⟩

/-- The call has ended with what the stop says. -/
def Stop.Shows (s : Stop) : Operation × Prog.Ending Halt Result → Prop
  | (.executeUntilEvent _, x) => match s.context with
    | some (e, _) => x = .returned (.event e)
    | none => x = .stopped unableToLocateContext
  | (.getContext, x) => match s.context with
    | some (_, mc) => x = .returned (.registers (registers mc))
    | none => x = .stopped unableToLocateContext
  | (.getCodeBlock, x) => match s.block with
    | some (first, _) => x = .stopped (.thrown .lengthError) ∨ ∃ bytes, x = .returned
        (.codeBlock ⟨first, bytes, (moduleAt s.modules first).map fun m => moduleInfo m first⟩)
    | none => x = .stopped (.thrown (.exception "Unable to locate stopped block.".toList))
  | _ => True

/-- Whether the call looks at the stop while the application is suspended. -/
def Operation.looks : Operation → Bool
  | .getContext | .getCodeBlock => true
  | _ => false

/-- The calls that the server has ended since it last began to resume the application, the last
first. -/
def endedSinceResume : List Mark → List (Operation × Prog.Ending Halt Result)
  | .ended .server op x :: l => (op, x) :: endedSinceResume l
  | .did .server (.write (.stoppedContext none)) :: _ => []
  | _ :: l => endedSinceResume l
  | [] => []

theorem endedSinceResume_did {a : Actor} {o : Op} {l : List Mark}
    (h : (a, o) ≠ (.server, .write (.stoppedContext none))) :
    endedSinceResume (.did a o :: l) = endedSinceResume l := by
  cases a with
  | app t => rfl
  | server =>
    cases o with
    | write x =>
      cases x with
      | stoppedContext c =>
        cases c with
        | none => exact absurd rfl h
        | some c => rfl
      | _ => rfl
    | _ => rfl

/-! ## The calls -/

/-- What a call gets to see while the stop is `s`. -/
def showing (s : Stop) : Discipline drApi Unit where
  allows _ _ := True
  admits _ o r :=
    match o, r with
    | .read, g => (g : Globals).stoppedContext = s.context ∧ (g : Globals).stoppedBlock = s.block
    | .drLookupModule pc, r => r = moduleAt s.modules pc
    | _, _ => True
  next _ _ _ := ()

/-- The rest of the call ends with what the stop says. -/
abbrev WillShow (s : Stop) (op : Operation) (p : Dr Result) : Prop :=
  p.Follows (showing s) (fun r _ => s.Shows (op, .returned r))
    (fun e _ => s.Shows (op, .stopped e)) ()

theorem willShow_getContext (b : Build) (s : Stop) :
    WillShow s .getContext (Operation.getContext.prog b) := by
  refine Prog.follows_bind.mpr (.step trivial fun _ _ => .step trivial fun g hg => ?_)
  obtain ⟨hcontext, -⟩ := hg
  refine Prog.follows_bind.mpr (follows_assertHelper (fun hc => ?_) fun hc => ?_)
  · obtain ⟨⟨e, mc⟩, hc⟩ := Option.isSome_iff_exists.mp hc
    rw [hc]
    refine .step trivial fun _ _ => ?_
    have hshows : s.Shows (.getContext, .returned (.registers (registers mc))) := by
      simp only [Stop.Shows, ← hcontext, hc]
    exact hshows
  · refine ⟨trivial, fun _ _ => ?_⟩
    have hnone : g.stoppedContext = none := by simpa using hc
    have hshows : s.Shows (.getContext, .stopped unableToLocateContext) := by
      simp only [Stop.Shows, ← hcontext, hnone]
    exact hshows

theorem willShow_getCodeBlock (b : Build) (s : Stop) :
    WillShow s .getCodeBlock (Operation.getCodeBlock.prog b) := by
  refine Prog.follows_bind.mpr (.step trivial fun _ _ => .step trivial fun g hg => ?_)
  obtain ⟨-, hblock⟩ := hg
  refine Prog.follows_bind.mpr (follows_assertHelper (fun hb => ?_) fun hb => ?_)
  · obtain ⟨⟨first, last⟩, hb⟩ := Option.isSome_iff_exists.mp hb
    rw [hb]
    refine .step trivial fun bytes _ => ?_
    cases bytes with
    | none =>
      have hshows : s.Shows (.getCodeBlock, .stopped (.thrown .lengthError)) := by
        simp only [Stop.Shows, ← hblock, hb]
        exact Or.inl trivial
      exact hshows
    | some bytes =>
      refine .step trivial fun _ _ => .step trivial fun m hm => ?_
      have hshows : s.Shows (.getCodeBlock, .returned (.codeBlock
          ⟨first, bytes, (moduleAt s.modules first).map fun m => moduleInfo m first⟩)) := by
        simp only [Stop.Shows, ← hblock, hb]
        exact Or.inr ⟨bytes, rfl⟩
      rw [← hm] at hshows
      exact hshows
  · refine ⟨trivial, fun _ _ => ?_⟩
    have hnone : g.stoppedBlock = none := by simpa using hb
    have hshows : s.Shows (.getCodeBlock,
        .stopped (.thrown (.exception "Unable to locate stopped block.".toList))) := by
      simp only [Stop.Shows, ← hblock, hnone]
    exact hshows

theorem willShow_prog (b : Build) (s : Stop) {op : Operation} (hop : op.looks = true) :
    WillShow s op (op.prog b) := by
  cases op with
  | getContext => exact willShow_getContext b s
  | getCodeBlock => exact willShow_getCodeBlock b s
  | _ => cases hop

/-- What an action of the server gets to see. -/
theorem World.admits_showing {w w₁ : World} {env : Env} {a : Actor} {o : Op} {r : o.Reply}
    (h : w.answer env a o = some (r, w₁)) : (showing w.stop).admits () o r := by
  cases o with
  | read =>
    obtain ⟨rfl, -⟩ := Prod.mk.inj (Option.some.inj h)
    exact ⟨rfl, rfl⟩
  | drLookupModule pc =>
    obtain ⟨rfl, -⟩ := Prod.mk.inj (Option.some.inj h)
    rfl
  | _ => trivial

/-! ## The machine -/

namespace Machine

variable {m m' : Machine} {l : Label} {v : View}

/-- While the application is suspended, the stop stays what it is until the server resumes. -/
theorem Tracks.stop_eq (htr : m.Tracks v) (hv : v.Ok) (hs : m.step .debug l = some m')
    (hpaused : v.stage.Paused)
    (hne : m.act l ≠ some (.server, .write (.stoppedContext none))) :
    m'.world.stop = m.world.stop := by
  obtain ⟨v', hstep, htr'⟩ := htr.step hv hs
  obtain ⟨hcontext, hblock, -⟩ := hstep.frame hv hpaused hne
  rw [htr.world, htr'.world] at hcontext hblock
  have hsusp : m.world.suspended = true := by
    rw [← htr.world]
    exact (hv.suspended_of_not_awake hpaused.not_awake).1
  have hmodules : m'.world.modules = m.world.modules := by
    cases l with
    | start a op =>
      obtain ⟨-, hcan, rfl⟩ := step_start hs
      cases a with
      | server => rw [set_world, World.note_modules, (canStart_server hcan).2]
      | app t => cases hsusp.symm.trans (canStart_app hcan).2
    | action a env =>
      obtain ⟨op, o, k, r, w', -, hp, rfl⟩ := step_action hs
      obtain ⟨-, w₁, ha, rfl⟩ := World.perform_eq_some hp
      rw [set_world, World.note_modules, World.modules_answer ha]
    | finish a =>
      obtain ⟨op, p, x, -, -, rfl⟩ := step_finish hs
      rfl
    | unload M =>
      obtain ⟨hawake, -⟩ := step_unload hs
      cases hsusp.symm.trans hawake
  simp only [World.stop, hcontext, hblock, hmodules]

/-- All that has been shown since the resume, and what the server is about to show, is the stop. -/
structure Showing (m : Machine) (v : View) : Prop where
  running : ∀ op p, m.running .server = some (op, p) → op.looks = true → WillShow m.world.stop op p
  paused : endedSinceResume m.world.log ≠ [] → v.stage.Paused
  ended : ∀ z ∈ endedSinceResume m.world.log, m.world.stop.Shows z

/-- A call that looks is in no stage of an `executeUntilEvent`. -/
theorem Tracks.held_of_looks (htr : m.Tracks v) (hv : v.Ok) {op : Operation} {p : Dr Result}
    (hrun : m.running .server = some (op, p)) (hop : op.looks = true) : v.stage.Held := by
  have hof := hv.call
  rw [htr.call, hrun] at hof
  cases op <;> first | exact hof | cases hop

/-- It does not begin to resume the application. -/
theorem Tracks.not_resumes_of_looks (htr : m.Tracks v) (hv : v.Ok) {op : Operation} {o : Op}
    {k : o.Reply → Dr Result} (hrun : m.running .server = some (op, .act o k))
    (hop : op.looks = true) : o ≠ .write (.stoppedContext none) := by
  obtain ⟨locked, hstage⟩ := htr.held_of_looks hv hrun hop
  have hallows := (htr.server op _ hrun).1
  rintro rfl
  cases hallows with
  | neutral ho => cases ho
  | edit _ _ hx => cases hx
  | clearContext hs => cases hstage.symm.trans hs

/-- Where the server is in the same call, it is about to show the same. -/
theorem Showing.running_of_same (h : m.Showing v) (htr : m.Tracks v) (hv : v.Ok)
    (hs : m.step .debug l = some m')
    (hne : m.act l ≠ some (.server, .write (.stoppedContext none)))
    (hsame : m'.running .server = m.running .server) (op : Operation) (p : Dr Result)
    (hrun : m'.running .server = some (op, p)) (hop : op.looks = true) :
    WillShow m'.world.stop op p := by
  rw [hsame] at hrun
  rw [htr.stop_eq hv hs (Or.inl (htr.held_of_looks hv hrun hop)) hne]
  exact h.running op p hrun hop

theorem Showing.running_step (h : m.Showing v) (htr : m.Tracks v) (hv : v.Ok)
    (hs : m.step .debug l = some m') (op : Operation) (p : Dr Result)
    (hrun : m'.running .server = some (op, p)) (hop : op.looks = true) :
    WillShow m'.world.stop op p := by
  have happ : ∀ {t : ℕ}, Actor.server ≠ .app t := nofun
  cases l with
  | start a op' =>
    obtain ⟨-, -, hm'⟩ := step_start hs
    cases a with
    | server =>
      rw [hm', set_running_self] at hrun
      obtain ⟨rfl, rfl⟩ := Prod.mk.inj (Option.some.inj hrun)
      exact willShow_prog .debug _ hop
    | app t =>
      have hsame : m'.running .server = m.running .server := by
        rw [hm', set_running_of_ne _ _ _ happ]
      exact h.running_of_same htr hv hs (by simp [act]) hsame op p hrun hop
  | action a env =>
    obtain ⟨op', o, k, r, w', hrun', hp, hm'⟩ := step_action hs
    have hact := act_action hrun' env
    cases a with
    | server =>
      rw [hm', set_running_self] at hrun
      obtain ⟨rfl, rfl⟩ := Prod.mk.inj (Option.some.inj hrun)
      have hne : o ≠ .write (.stoppedContext none) := htr.not_resumes_of_looks hv hrun' hop
      have hheld := htr.held_of_looks hv hrun' hop
      rw [htr.stop_eq hv hs (Or.inl hheld) (by simpa [hact] using hne)]
      obtain ⟨-, w₁, ha, -⟩ := World.perform_eq_some hp
      exact (h.running _ _ hrun' hop).2 r (World.admits_showing ha)
    | app t =>
      have hsame : m'.running .server = m.running .server := by
        rw [hm', set_running_of_ne _ _ _ happ]
      exact h.running_of_same htr hv hs (by simp [hact]) hsame op p hrun hop
  | finish a =>
    obtain ⟨op', p', x, -, -, hm'⟩ := step_finish hs
    cases a with
    | server =>
      rw [hm', set_running_self] at hrun
      cases hrun
    | app t =>
      have hsame : m'.running .server = m.running .server := by
        rw [hm', set_running_of_ne _ _ _ happ]
      exact h.running_of_same htr hv hs (by simp [act]) hsame op p hrun hop
  | unload M =>
    obtain ⟨-, hm'⟩ := step_unload hs
    have hsame : m'.running .server = m.running .server := by rw [hm']
    exact h.running_of_same htr hv hs (by simp [act]) hsame op p hrun hop

/-- How a call ends that has kept to what it has to show. -/
theorem Showing.shows_ending (h : m.Showing v) (htr : m.Tracks v) (hv : v.Ok) {op : Operation}
    {p : Dr Result} {x : Prog.Ending Halt Result} (hrun : m.running .server = some (op, p))
    (hx : endingOf .server p = some x) : m.world.stop.Shows (op, x) := by
  have hlooks : op.looks = true → m.world.stop.Shows (op, x) := by
    intro hop
    have hwill := h.running op p hrun hop
    obtain ⟨r, rfl, rfl⟩ | ⟨e, rfl, rfl⟩ := endingOf_server_eq_some hx
    · exact hwill
    · exact hwill
  cases op with
  | getContext => exact hlooks rfl
  | getCodeBlock => exact hlooks rfl
  | executeUntilEvent S =>
    have hcontext : m.world.stop.context = v.world.globals.stoppedContext := by
      rw [htr.world]
      rfl
    rcases endingOf_server hx (htr.server _ p hrun) with ⟨e, rfl, hstage⟩ | ⟨rfl, hstage⟩
    · obtain ⟨mc, hmc⟩ := hv.found e hstage
      simp only [Stop.Shows, hcontext, hmc]
    · simp only [Stop.Shows, hcontext, hv.failed hstage]
  | _ => trivial

/-- A step at which no call ends, and the server does not begin to resume the application. -/
theorem endedSinceResume_step (hs : m.step .debug l = some m') (hl : l ≠ .finish .server)
    (hne : m.act l ≠ some (.server, .write (.stoppedContext none))) :
    endedSinceResume m'.world.log = endedSinceResume m.world.log := by
  cases l with
  | start a op =>
    obtain ⟨-, -, rfl⟩ := step_start hs
    simp only [set_world, World.note_log, World.enter_log, endedSinceResume]
  | action a env =>
    obtain ⟨op, o, k, r, w', hrun, hp, rfl⟩ := step_action hs
    obtain ⟨-, w₁, ha, rfl⟩ := World.perform_eq_some hp
    rw [act_action hrun] at hne
    simp only [set_world, World.note_log, World.answer_log ha]
    exact endedSinceResume_did fun h => hne (congrArg some h)
  | finish a =>
    obtain ⟨op, p, x, -, -, rfl⟩ := step_finish hs
    cases a with
    | server => exact absurd rfl hl
    | app t => rfl
  | unload M =>
    obtain ⟨-, rfl⟩ := step_unload hs
    rfl

theorem Showing.step (h : m.Showing v) (htr : m.Tracks v) (hv : v.Ok)
    (hs : m.step .debug l = some m') {v' : View} (hstep : v.Step (m.act l) v')
    (htr' : m'.Tracks v') (hv' : v'.Ok) : m'.Showing v' := by
  suffices hlog : (endedSinceResume m'.world.log ≠ [] → v'.stage.Paused) ∧
      ∀ z ∈ endedSinceResume m'.world.log, m'.world.stop.Shows z from
    ⟨h.running_step htr hv hs, hlog.1, hlog.2⟩
  by_cases hclear : m.act l = some (.server, .write (.stoppedContext none))
  · have hlog : endedSinceResume m'.world.log = [] := by
      rw [hclear] at hstep
      rw [← htr'.world, hstep.log]
      rfl
    rw [hlog]
    exact ⟨fun hnil => absurd rfl hnil, fun z hz => absurd hz List.not_mem_nil⟩
  by_cases hl : l = .finish .server
  · subst hl
    obtain ⟨op, p, x, hrun, hx, rfl⟩ := step_finish hs
    have hcall : v'.call = none := by simp [htr'.call]
    refine ⟨fun _ => Or.inl (hv'.held_of_idle hcall), fun z hz => ?_⟩
    rcases List.mem_cons.mp hz with rfl | hz
    · exact h.shows_ending htr hv hrun hx
    · exact h.ended z hz
  · rw [endedSinceResume_step hs hl hclear]
    refine ⟨fun hne => hstep.paused (h.paused hne) hclear, fun z hz => ?_⟩
    have hpaused : v.stage.Paused := h.paused (List.ne_nil_of_mem hz)
    rw [htr.stop_eq hv hs hpaused hclear]
    exact h.ended z hz

/-- All calls that have ended since the server last began to resume the application have ended with
what the stop says now. -/
theorem Reachable.shows_stop (hm : m.Reachable .debug) :
    ∀ z ∈ endedSinceResume m.world.log, m.world.stop.Shows z := by
  suffices h : ∃ v, m.Tracks v ∧ v.Ok ∧ m.Showing v by
    obtain ⟨v, -, -, h⟩ := h
    exact h.ended
  refine ReachedBy.invariant (I := fun m => ∃ v, m.Tracks v ∧ v.Ok ∧ m.Showing v) hm
    (fun modules => ?_) ?_
  · refine ⟨_, tracks_boot modules, View.ok_boot modules, fun op p hrun hop => ?_, ?_, ?_⟩
    · obtain ⟨rfl, -⟩ : Operation.serverThread = op ∧ _ = p := by simpa [boot] using hrun
      cases hop
    · exact fun hne => absurd rfl hne
    · exact fun z hz => absurd hz List.not_mem_nil
  · rintro m l m' - ⟨v, htr, hv, h⟩ - hs
    obtain ⟨v', hstep, htr'⟩ := htr.step hv hs
    exact ⟨v', htr', hstep.ok hv, h.step htr hv hs hstep htr' (hstep.ok hv)⟩

/-- The application stops at a block, and a client asks for the registers. -/
def askedFor : Machine :=
  after .debug [] (startUp ++ resumes {.relevantBlock} ++
    [.start (.app 1) (.cleanCall (.relevantBlockCleanCall 16 20))] ++ actions (.app 1) 6 ++ stops ++
    [.start .server .getContext] ++ actions .server 3 ++ [.finish .server])

theorem shows_stop_askedFor : (endedSinceResume askedFor.world.log).length = 2 ∧
    ∀ z ∈ endedSinceResume askedFor.world.log, askedFor.world.stop.Shows z :=
  ⟨rfl, (reachable_after .debug [] _).shows_stop⟩

end Machine

end ConcreteEval
