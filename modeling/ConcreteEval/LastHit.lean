import ConcreteEval.Hits

/-!
# The last hit stops

`Machine.signals_last` says that no breakpoint stops early. None stops late either : between the
write that takes a count to zero and its unlock a thread looks `stop_events` up, and if the event is
there it signals first.

The serial tables know which hit is the last, and the view how far a thread is in raising an event.
A thread that has the mutex and has erased the entry of the last hit is raising the event, or it has
signalled in this hit (`Machine.Raised`). So as long as the server unlocks only what it has and the
stop events that are set have the breakpoint event, the last hit that a breakpoint waits for has
signalled when it unlocks (`Machine.last_signals`).
-/

namespace ConcreteEval

namespace View

variable {v v' : View} {x : Option (Actor × Op)}

/-- What a move does to the phase of the thread `u`. -/
theorem Step.phase (h : v.Step x v') (u : ℕ) :
    (∃ o w, x = some (.app u, o) ∧ v.AppStep u o w (v'.phase u) ∧
        v'.world = w.note (.did (.app u) o)) ∨
      ((∀ o, x ≠ some (.app u, o)) ∧ v'.phase u = v.phase u) ∨
      x = none ∧ ∃ op, v'.world.log = .started (.app u) op :: v.world.log := by
  cases h with
  | @enter t op hw hop hp =>
    by_cases ht : t = u
    · subst ht
      exact Or.inr (Or.inr ⟨rfl, op, by simp⟩)
    · exact Or.inr (Or.inl ⟨nofun, Function.update_of_ne (Ne.symm ht) ..⟩)
  | @app t o w p hw h =>
    by_cases ht : t = u
    · subst ht
      exact Or.inl ⟨o, w, rfl, by simpa [appDid] using h, rfl⟩
    · exact Or.inr (Or.inl ⟨by simpa using ht, Function.update_of_ne (Ne.symm ht) ..⟩)
  | server h => exact Or.inr (Or.inl ⟨by simp, rfl⟩)
  | call | reply | leave | unload => exact Or.inr (Or.inl ⟨nofun, rfl⟩)

end View

/-- Whether the thread has signalled in the operation that it has started last. -/
def hasSignalled (a : Actor) : List Mark → Bool
  | [] => false
  | .started c _ :: l => if c = a then false else hasSignalled a l
  | .did c .drEventSignal :: l => decide (c = a) || hasSignalled a l
  | _ :: l => hasSignalled a l

theorem hasSignalled_did {a c : Actor} {o : Op} {l : List Mark} (h : hasSignalled a l = true) :
    hasSignalled a (.did c o :: l) = true := by
  cases o <;> simp [hasSignalled, h]

namespace Machine

variable {m₀ m m' : Machine} {h₀ h : History} {l : Label} {v v' : View}

theorem hasSignalled_step {b : Build} {a : Actor} (hs : m.step b l = some m')
    (hl : ∀ op, l ≠ .start a op) (hsig : hasSignalled a m.world.log = true) :
    hasSignalled a m'.world.log = true := by
  cases l with
  | start c op =>
    obtain ⟨-, -, rfl⟩ := step_start hs
    have hne : c ≠ a := by
      rintro rfl
      exact hl op rfl
    simpa [hasSignalled, hne] using hsig
  | action c env =>
    obtain ⟨op, o, k, r, w', -, hp, rfl⟩ := step_action hs
    obtain ⟨-, w₁, ha, rfl⟩ := World.perform_eq_some hp
    rw [set_world, World.note_log, World.answer_log ha]
    exact hasSignalled_did hsig
  | finish c =>
    obtain ⟨op, p, x, -, -, rfl⟩ := step_finish hs
    exact hsig
  | unload M =>
    obtain ⟨-, rfl⟩ := step_unload hs
    exact hsig

/-- While a thread has the mutex, the others leave it and the tables alone. -/
theorem InSections.still (hin : m.InSections h) (hs : m.step .debug l = some m') {c : Actor}
    (hmutex : m'.world.mutex = some c) (hl : ∀ env, l ≠ .action c env) :
    m.world.mutex = some c ∧ m'.world.globals.tables = m.world.globals.tables := by
  cases l with
  | start a op =>
    obtain ⟨-, -, rfl⟩ := step_start hs
    simpa using hmutex
  | finish a =>
    obtain ⟨op, p, x, -, -, rfl⟩ := step_finish hs
    exact ⟨hmutex, rfl⟩
  | unload M =>
    obtain ⟨-, rfl⟩ := step_unload hs
    exact ⟨hmutex, rfl⟩
  | action a env =>
    obtain ⟨op, o, k, r, w', hrun, hp, rfl⟩ := step_action hs
    obtain ⟨-, w₁, ha, rfl⟩ := World.perform_eq_some hp
    rw [set_world, World.note_mutex] at hmutex
    have hne : o ≠ .drMutexUnlock := by
      rintro rfl
      cases hmutex.symm.trans (World.mutex_answer ha)
    obtain ⟨s, hat, hf⟩ := hin.thread a op _ hrun
    have hallows := (hf m.world.modules (h.known a) (fun _ => rfl) (List.Subset.refl _)).1.1
    rcases hat.keeps hallows hne ha with ⟨hm, -⟩ | ⟨hm, ht⟩
    · obtain rfl : a = c := Option.some.inj (hm.symm.trans hmutex)
      exact absurd rfl (hl env)
    · exact ⟨hm.symm.trans hmutex, ht⟩

/-- A thread that has the mutex and has erased the entry of the last hit is raising the event, or it
has signalled. -/
def Raised (m : Machine) (h : History) (v : View) : Prop :=
  ∀ u x start endPc p,
    m.running (.app u) = some (.cleanCall (.updateFastforwardCount x start endPc), p) →
    m.world.mutex = some (.app u) → h.tables.active.find? x = some 1 →
    m.world.globals.breakpoints.find? x = none →
      (v.phase u).event? = some .breakpoint ∨ hasSignalled (.app u) m.world.log = true

/-- What the thread itself does. -/
theorem Raised.act (hraised : m.Raised h v) (hin : m.InSections h) (htr : m.Tracks v)
    (hstops : m.world.StopsAt .breakpoint) {u : ℕ} {x start endPc : AppPc} {p : Dr Result} {o : Op}
    {w : World} {q : Phase}
    (hrun : m.running (.app u) = some (.cleanCall (.updateFastforwardCount x start endPc), p))
    (happ : v.AppStep u o w q) (hworld : m'.world = w.note (.did (.app u) o))
    (hmutex : m'.world.mutex = some (.app u)) (hone : h.tables.active.find? x = some 1)
    (hnone : m'.world.globals.breakpoints.find? x = none) :
    q.event? = some .breakpoint ∨ hasSignalled (.app u) m'.world.log = true := by
  rw [hworld, World.note_mutex] at hmutex
  rw [hworld, World.note_globals] at hnone
  have hlog : m'.world.log = .did (.app u) o :: m.world.log := by
    rw [hworld, World.note_log, happ.log, htr.world]
  have hsame : w.mutex = v.world.mutex →
      (w.globals.breakpoints.find? x = none → v.world.globals.breakpoints.find? x = none) →
      ((v.phase u).event? = some .breakpoint → q.event? = some .breakpoint) →
      q.event? = some .breakpoint ∨ hasSignalled (.app u) m'.world.log = true := by
    intro hm hb hq
    rw [htr.world] at hm hb
    rw [hlog]
    have hbefore := hraised u x start endPc p hrun (hm.symm.trans hmutex) hone (hb hnone)
    exact hbefore.imp hq hasSignalled_did
  cases happ with
  | neutral hp ho => exact hsame rfl id (by rw [hp]; exact id)
  | read =>
    refine hsame rfl id fun he => ?_
    obtain ⟨S, hS, hmem⟩ := hstops
    rw [← htr.world] at hS
    cases hp : v.phase u with
    | fired e =>
      rw [hp] at he
      obtain rfl : e = .breakpoint := Option.some.inj he
      simp [Phase.look, hS, hmem, Phase.event?]
    | _ => rwa [hp] at he
  | lock hp hm =>
    -- The tables are then the serial ones, which have the entry.
    have htables : m.world.globals.tables = h.tables := hin.free (htr.world ▸ hm)
    rw [← htables] at hone
    rw [htr.world] at hnone
    cases hnone.symm.trans hone
  | unlock hp => cases hmutex
  | @edit y hp hy =>
    cases y with
    | eraseBreakpoint addr => exact Or.inl rfl
    | breakpoint addr n =>
      refine hsame rfl (fun hb => ?_) (by rw [hp]; exact id)
      change (v.world.globals.breakpoints.assign addr n).find? x = none at hb
      rw [StdMap.find?_assign] at hb
      split_ifs at hb
      exact hb
    | deferredBreakpoint ra n => exact hsame rfl id (by rw [hp]; exact id)
    | eraseDeferredBreakpoint ra => exact hsame rfl id (by rw [hp]; exact id)
    | _ => cases hy
  | begin hp => exact hsame rfl id (by rw [hp]; exact id)
  | sample hp => exact hsame rfl id (by rw [hp]; exact id)
  | storeContext hp => exact hsame rfl id (by rw [hp]; exact id)
  | storeBlock hp => exact hsame rfl id (by rw [hp]; exact id)
  | signal hp =>
    rw [hlog]
    exact Or.inr (by simp [hasSignalled])

/-- A step after which the mutex is with a thread in its last hit. -/
theorem Raised.step (hraised : m.Raised h v) (hin : m.InSections h) (htr : m.Tracks v)
    (htr' : m'.Tracks v') (hv : v.Step (m.act l) v') (hstops : m.world.StopsAt .breakpoint)
    (hs : m.step .debug l = some m') : m'.Raised h v' := by
  intro u x start endPc p hrun' hmutex hone hnone
  rcases running_of_step hs hrun' with ⟨p', hrun⟩ | rfl
  · have hstart : ∀ op, l ≠ .start (.app u) op := by
      rintro op rfl
      cases (step_start hs).1.symm.trans hrun
    rcases hv.phase u with ⟨o, w, hact, happ, hworld⟩ | ⟨hact, hphase⟩ | ⟨hact, op, hlog⟩
    · exact hraised.act hin htr hstops hrun happ (htr'.world.symm.trans hworld) hmutex hone hnone
    · have hl : ∀ env, l ≠ .action (.app u) env := by
        rintro env rfl
        obtain ⟨op, o, k, r, w', hrun₁, -, -⟩ := step_action hs
        exact hact o (act_action hrun₁ env)
      obtain ⟨hm, htables⟩ := hin.still hs hmutex hl
      have hb : m.world.globals.breakpoints.find? x = none := by
        rw [← hnone]
        exact congrArg (fun t : Tables => t.active.find? x) htables.symm
      rw [hphase]
      exact (hraised u x start endPc p' hrun hm hone hb).imp id (hasSignalled_step hs hstart)
    · exfalso
      rw [htr'.world, htr.world] at hlog
      cases l with
      | start a op' =>
        obtain ⟨-, -, rfl⟩ := step_start hs
        obtain ⟨rfl, -⟩ : a = .app u ∧ op' = op := by simpa using hlog
        exact hstart op' rfl
      | action a env =>
        obtain ⟨op', o, k, r, w', hrun₁, -, -⟩ := step_action hs
        cases hact.symm.trans (act_action hrun₁ env)
      | finish a =>
        obtain ⟨op', p', y, -, -, rfl⟩ := step_finish hs
        simp at hlog
      | unload M =>
        obtain ⟨-, rfl⟩ := step_unload hs
        simp at hlog
  · -- It has the mutex from before, and the tables are the serial ones.
    obtain ⟨hidle, -, rfl⟩ := step_start hs
    have htables : m.world.globals.tables = h.tables :=
      hin.idle (.app u) hidle (by simpa using hmutex)
    rw [← htables] at hone
    have hb : m.world.globals.breakpoints.find? x = none := by simpa using hnone
    cases hb.symm.trans hone

/-- The server unlocks only what it has, and stop events that are set have the breakpoint event. -/
def AsksForBreakpoints (m : Machine) (l : Label) : Prop :=
  m.UnlocksOwn l ∧ ∀ a S, m.act l = some (a, .write (.stopEvents S)) → EventType.breakpoint ∈ S

theorem stopsAt_step {b : Build} (h : m.world.StopsAt .breakpoint) (hasks : m.AsksForBreakpoints l)
    (hs : m.step b l = some m') : m'.world.StopsAt .breakpoint := by
  cases l with
  | start a op =>
    obtain ⟨-, -, rfl⟩ := step_start hs
    simpa [World.StopsAt] using h
  | finish a =>
    obtain ⟨op, p, x, -, -, rfl⟩ := step_finish hs
    exact h
  | unload M =>
    obtain ⟨-, rfl⟩ := step_unload hs
    exact h
  | action a env =>
    obtain ⟨op, o, k, r, w', hrun, hp, rfl⟩ := step_action hs
    obtain ⟨-, w₁, ha, rfl⟩ := World.perform_eq_some hp
    unfold World.StopsAt at h ⊢
    rw [set_world, World.note_globals]
    obtain rfl := World.answer_eq ha
    cases o with
    | write y =>
      cases y with
      | stopEvents S => exact ⟨S, rfl, hasks.2 a S (act_action hrun env)⟩
      | _ => exact h
    | _ => exact h

/-- A view beside the run since the history `h₀`, for which no last hit is forgotten. -/
structure Watched (h₀ : History) (m : Machine) (h : History) (v : View) : Prop where
  inside : m.InSections h
  since : Since h₀ h
  reachable : m.Reachable .debug
  tracks : m.Tracks v
  ok : v.Ok
  stops : m.world.StopsAt .breakpoint
  raised : m.Raised h v

theorem Watched.step (hw : Watched h₀ m h v) (hasks : m.AsksForBreakpoints l)
    (hs : m.step .debug l = some m') : ∃ v', Watched h₀ m' (h.next m l m') v' := by
  obtain ⟨v', hv, htr'⟩ := hw.tracks.step hw.ok hs
  refine ⟨v', hw.inside.step hw.reachable hasks.1 hs, hw.since.step hw.inside hasks.1 hs,
    hw.reachable.step hs, htr', hv.ok hw.ok, stopsAt_step hw.stops hasks hs,
    fun u x start endPc p hrun hmutex hone => ?_⟩
  rcases hw.inside.takes_next hasks.1 hs with ⟨-, hsame⟩ | ⟨turn, hturn⟩
  · rw [hsame] at hone
    exact hw.raised.step hw.inside hw.tracks htr' hv hw.stops hs u x start endPc p hrun hmutex hone
  · cases hmutex.symm.trans hturn.mutex

section LastHit

variable (hm₀ : m₀.RecordedBy .debug UnlocksOwn h₀)
  (hrun : Relation.ReflTransGen (Records .debug AsksForBreakpoints) (m₀, h₀) (m, h))
  (hfree₀ : m₀.world.mutex = none) (hstops : m₀.world.StopsAt .breakpoint)

include hm₀ hrun hfree₀ hstops

theorem exists_watched : ∃ v, Watched h₀ m h v := by
  refine invariant_of_recording (I := fun m h => ∃ v, Watched h₀ m h v) ?_ ?_ hrun
  · obtain ⟨v₀, htr₀, hok₀, -⟩ := hm₀.reachedBy.reachable.view
    refine ⟨v₀, hm₀.inSections, since_refl h₀, hm₀.reachedBy.reachable, htr₀,
      hok₀, hstops, fun u x start endPc p _ hmutex => ?_⟩
    cases hmutex.symm.trans hfree₀
  · rintro m h l m' - ⟨v, hw⟩ hasks hs
    exact hw.step hasks hs

/-- As long as the server unlocks only what it has and the stop events that are set have the
breakpoint event, whatever else the threads do in between each other's actions : the hit by which a
breakpoint has had as many as its count does not unlock before its thread has signalled in it. -/
theorem last_signals {turns : List Turn} (hturns : h.turns = h₀.turns ++ turns)
    (hsettles : ∀ turn ∈ turns, ¬turn.Settles) {u : ℕ} {x start endPc : AppPc} {p : Dr Result}
    {n : SizeT} (hn : m₀.world.globals.breakpoints.find? x = some n)
    (hhit : m.running (.app u) = some (.cleanCall (.updateFastforwardCount x start endPc), p))
    (hnext : m.nextOp (.app u) = some .drMutexUnlock) (hlast : hitsOf x turns = (n - 1).toNat) :
    hasSignalled (.app u) m.world.log = true := by
  obtain ⟨v, hw⟩ := exists_watched hm₀ hrun hfree₀ hstops
  have htakes := hw.since.takesEach hturns
  have hone : h.tables.active.find? x = some 1 := by
    have hleft : n - BitVec.ofNat 64 (n - 1).toNat = 1 := by bv_omega
    rw [(htakes.counted hsettles).2 x, ← hm₀.inSections.free hfree₀, hlast]
    change countDown (n - 1).toNat (m₀.world.globals.breakpoints.find? x) = some 1
    rw [hn, countDown, Option.bind_some, if_pos (le_refl _), hleft]
  cases p with
  | act o k =>
    obtain rfl : o = .drMutexUnlock := by simpa [nextOp, hhit] using hnext
    obtain ⟨hmutex, -, heffect, -⟩ := hw.inside.unlocking hhit fun ha => by cases ha
    have hnone : m.world.globals.breakpoints.find? x = none := by
      have htables : m.world.globals.tables = h.tables.hit x := heffect
      change m.world.globals.tables.active.find? x = none
      rw [htables, Tables.find?_hit, hone]
      rfl
    refine (hw.raised u x start endPc _ hhit hmutex hone hnone).resolve_left fun he => ?_
    -- A thread that is raising an event does not unlock.
    have hallows : AppAllows _ (v.phase u) .drMutexUnlock := (hw.tracks.app u _ _ hhit).1
    generalize v.phase u = q at hallows he
    cases hallows with
    | neutral ho => cases ho
    | unlock => cases he
  | _ => simp [nextOp, hhit] at hnext

end LastHit

/-- The check of `AsksForBreakpoints`. -/
def asksForBreakpointsChecked (m : Machine) (l : Label) : Bool :=
  unlocksOwnChecked m l &&
    match m.act l with
    | some (_, .write (.stopEvents S)) => EventType.breakpoint ∈ S
    | _ => true

theorem asksForBreakpoints_of_checked (m : Machine) (l : Label)
    (hc : asksForBreakpointsChecked m l = true) : m.AsksForBreakpoints l := by
  unfold asksForBreakpointsChecked at hc
  rw [Bool.and_eq_true] at hc
  refine ⟨unlocksOwn_of_checked m l hc.1, fun a S hact => ?_⟩
  simpa [hact] using hc.2

/-- The breakpoint at 16 has a count of 3, and the application runs up to it. -/
def runsTo16 : Machine × History :=
  recorded unlocksOwnChecked (countOf3 ++ resumes {.breakpoint})

theorem last_signals_lastHit :
    ∃ r, (lastHit 11).foldlM (checkedRecord asksForBreakpointsChecked) runsTo16 = some r ∧
      r.1.nextOp (.app 2) = some .drMutexUnlock ∧ hasSignalled (.app 2) r.1.world.log = true := by
  obtain ⟨r, hr, hnext, ⟨p, hhit⟩, hsettles, hhits⟩ :
      ∃ r, (lastHit 11).foldlM (checkedRecord asksForBreakpointsChecked) runsTo16 = some r ∧
        r.1.nextOp (.app 2) = some .drMutexUnlock ∧
        (∃ p, r.1.running (.app 2) = some (.cleanCall (.updateFastforwardCount 16 16 20), p)) ∧
        (∀ turn ∈ r.2.turns.drop runsTo16.2.turns.length, ¬turn.Settles) ∧
        hitsOf 16 (r.2.turns.drop runsTo16.2.turns.length) = 2 := by
    refine ⟨_, rfl, rfl, ⟨_, rfl⟩, ?_, rfl⟩
    decide +kernel
  have hm₀ : runsTo16.1.RecordedBy .debug UnlocksOwn runsTo16.2 :=
    recordedBy_recorded unlocksOwn_of_checked _
  have hrun := records_of_checked asksForBreakpoints_of_checked hr
  have hstops : runsTo16.1.world.StopsAt .breakpoint := ⟨{.breakpoint}, rfl, by decide⟩
  have hcount : runsTo16.1.world.globals.breakpoints.find? 16 = some 3 := rfl
  obtain ⟨v, hw⟩ := exists_watched hm₀ hrun rfl hstops
  obtain ⟨turns, hturns, -⟩ := hw.since
  rw [hturns, List.drop_left] at hsettles hhits
  exact ⟨r, hr, hnext,
    last_signals hm₀ hrun rfl hstops hturns hsettles hcount hhit hnext hhits⟩

end Machine

end ConcreteEval
