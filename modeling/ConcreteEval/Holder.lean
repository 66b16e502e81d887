import ConcreteEval.Flushing
import ConcreteEval.LostStop

/-!
# Nobody is stopped with the mutex

Between two calls of the service the application threads are suspended wherever they were. If one
of them has the mutex the next call waits for it forever. `update_fastforward_count` runs
`suspend_helper` with the mutex, so the thread that raises a breakpoint is stopped in its sleep with
the mutex; other threads can be stopped in any locked section.

`Inside` reads off the log whether a thread is between its `dr_mutex_lock` and its
`dr_mutex_unlock`. Where no suspension finds a thread inside, and no call ends by the error of a
string constructor, the mutex is free between the calls (`Machine.lock_granted`).
-/

namespace ConcreteEval

/-- The thread `t` has locked the mutex and not unlocked it since. -/
def Inside (t : ℕ) : List Mark → Prop
  | .did a .drMutexLock :: l => a = .app t ∨ Inside t l
  | .did a .drMutexUnlock :: l => a ≠ .app t ∧ Inside t l
  | _ :: l => Inside t l
  | [] => False

theorem Inside.cons {t : ℕ} {x : Mark} {l : List Mark} (h : Inside t (x :: l)) :
    x = .did (.app t) .drMutexLock ∨ Inside t l := by
  cases x with
  | did a o =>
    cases o with
    | drMutexLock =>
      rcases h with rfl | h
      · exact Or.inl rfl
      · exact Or.inr h
    | drMutexUnlock => exact Or.inr h.2
    | _ => exact Or.inr h
  | _ => exact Or.inr h

namespace World

/-- What the holder of the mutex says; `held` is whether the server has it by its own actions. -/
structure Guarded (w : World) (held : Bool) : Prop where
  server : w.mutex = some .server → held = true
  app : w.suspended = true → ∀ t, w.mutex ≠ some (.app t)
  inside : ∀ t, w.mutex = some (.app t) → Inside t w.log

variable {w w₁ : World} {held : Bool} {env : Env} {a : Actor} {o : Op} {r : o.Reply}

/-- The mutex after an action. -/
theorem mutex_answer (h : w.answer env a o = some (r, w₁)) :
    w₁.mutex = match o with
      | .drMutexLock => some a
      | .drMutexUnlock => none
      | _ => w.mutex := by
  obtain rfl := answer_eq h
  cases o <;> rfl

theorem mutex_answer_of_not (h : w.answer env a o = some (r, w₁)) (hl : o ≠ .drMutexLock)
    (hu : o ≠ .drMutexUnlock) : w₁.mutex = w.mutex := by
  rw [mutex_answer h]
  cases o <;> first | rfl | exact absurd rfl hl | exact absurd rfl hu

/-- Whether the application is suspended after an action. -/
theorem suspended_answer (h : w.answer env a o = some (r, w₁)) :
    w₁.suspended = match o with
      | .drSuspendAllOtherThreads => true
      | .drResumeAllOtherThreads _ => false
      | _ => w.suspended := by
  obtain rfl := answer_eq h
  cases o <;> rfl

/-- The holder is still inside after an action. -/
theorem Guarded.inside_answer (h : w.Guarded held) (ha : w.answer env a o = some (r, w₁)) {t : ℕ}
    (hm : w₁.mutex = some (.app t)) : Inside t (.did a o :: w₁.log) := by
  rw [mutex_answer ha] at hm
  rw [answer_log ha]
  cases o with
  | drMutexLock => exact Or.inl (Option.some.inj hm)
  | drMutexUnlock => cases hm
  | _ => exact h.inside t hm

/-- The server acts; where it suspends the application no thread is inside. -/
theorem Guarded.server_acts (h : w.Guarded held) (ha : w.answer env .server o = some (r, w₁))
    (hc : o = .drSuspendAllOtherThreads → ∀ t, ¬Inside t w.log) :
    (w₁.note (.did .server o)).Guarded (nextHeld held o r) where
  server hm := by
    rw [note_mutex, mutex_answer ha] at hm
    cases o with
    | drMutexLock => rfl
    | drMutexUnlock => cases hm
    | _ => exact h.server hm
  app hs t hm := by
    rw [note_suspended, suspended_answer ha] at hs
    rw [note_mutex, mutex_answer ha] at hm
    cases o with
    | drMutexLock => cases hm
    | drMutexUnlock => cases hm
    | drSuspendAllOtherThreads => exact hc rfl t (h.inside t hm)
    | drResumeAllOtherThreads params => cases hs
    | _ => exact h.app hs t hm
  inside t hm := h.inside_answer ha hm

/-- A thread of the application acts, and does not suspend it. -/
theorem Guarded.app_acts {t : ℕ} (h : w.Guarded held) (hw : w.suspended = false)
    (ha : w.answer env (.app t) o = some (r, w₁)) (hne : o ≠ .drSuspendAllOtherThreads) :
    (w₁.note (.did (.app t) o)).Guarded held where
  server hm := by
    rw [note_mutex, mutex_answer ha] at hm
    cases o with
    | drMutexLock => cases hm
    | drMutexUnlock => cases hm
    | _ => exact h.server hm
  app hs := by
    rw [note_suspended, suspended_answer ha] at hs
    cases o with
    | drSuspendAllOtherThreads => exact absurd rfl hne
    | drResumeAllOtherThreads params => cases hs
    | _ => cases hw.symm.trans hs
  inside u hm := h.inside_answer ha hm

/-- Nothing of this is about the modules, or about where operations start and end. -/
theorem Guarded.keep (h : w.Guarded held) (hm : w₁.mutex = w.mutex)
    (hs : w₁.suspended = w.suspended) (hl : ∀ t, Inside t w.log → Inside t w₁.log) :
    w₁.Guarded held where
  server hw := h.server (hm ▸ hw)
  app hw := by
    rw [hm]
    exact h.app (hs ▸ hw)
  inside t hw := hl t (h.inside t (hm ▸ hw))

end World

namespace Machine

/-- The application is not suspended while a thread is inside, and no call ends by the error of a
string constructor. -/
structure StopsOutside (m : Machine) (l : Label) : Prop where
  suspends : m.act l = some (.server, .drSuspendAllOtherThreads) → ∀ t, ¬Inside t m.world.log
  ends : l = .finish .server → ∀ op, m.running .server ≠ some (op, .stop (.thrown .lengthError))

/-- The server keeps to `holding`, and is without the mutex between calls. -/
structure Holds (m : Machine) (held : Bool) : Prop where
  server : ∀ op p, m.running .server = some (op, p) →
    p.Follows (holding True) (fun _ held => held = false) RaisesFree held
  idle : m.running .server = none → held = false
  guarded : m.world.Guarded held

variable {m m' : Machine} {l : Label} {held : Bool}

theorem holds_boot (modules : List Module) : (boot .debug modules).Holds false where
  server op p h := by
    obtain ⟨rfl, rfl⟩ : _ = op ∧ _ = p := by simpa [boot] using h
    exact holding_prog fun _ _ => trivial
  idle _ := rfl
  guarded := ⟨nofun, nofun, nofun⟩

/-- Clean calls and callbacks do not suspend the application. -/
theorem Reachable.app_acts (hm : m.Reachable .debug) {t : ℕ} {op : Operation} {o : Op}
    {k : o.Reply → Dr Result} (h : m.running (.app t) = some (op, .act o k)) :
    o ≠ .drSuspendAllOtherThreads := by
  obtain ⟨v, htr, -, -⟩ := hm.view
  have hallows := (htr.app t op _ h).1
  rintro rfl
  generalize v.phase t = q at hallows
  cases hallows with
  | neutral ho => cases ho

/-- How a call ends without the mutex. -/
theorem held_of_ending {p : Dr Result} {x : Prog.Ending Halt Result}
    (hf : p.Follows (holding True) (fun _ held => held = false) RaisesFree held)
    (hx : endingOf .server p = some x) (hne : p ≠ .stop (.thrown .lengthError)) :
    held = false := by
  cases p with
  | ret r => exact hf
  | stop e =>
    cases e with
    | thrown e =>
      cases e with
      | exception msg => exact hf msg rfl
      | lengthError => exact absurd rfl hne
    | fault f => cases hx
  | act o k => cases hx

theorem Holds.server_moved {held' : Bool} {w : World} {x : Option (Operation × Dr Result)}
    (hf : ∀ op p, x = some (op, p) →
      p.Follows (holding True) (fun _ held => held = false) RaisesFree held')
    (hidle : x = none → held' = false) (hg : w.Guarded held') :
    (m.set w .server x).Holds held' := by
  have hrun : (m.set w .server x).running .server = x := set_running_self ..
  exact ⟨fun op p hp => hf op p (hrun.symm.trans hp), fun hi => hidle (hrun.symm.trans hi), hg⟩

theorem Holds.app_moved (h : m.Holds held) {t : ℕ} {w : World}
    {x : Option (Operation × Dr Result)} (hg : w.Guarded held) :
    (m.set w (.app t) x).Holds held := by
  have hrun : (m.set w (.app t) x).running .server = m.running .server :=
    set_running_of_ne _ _ _ nofun
  exact ⟨fun op p hp => h.server op p (hrun.symm.trans hp),
    fun hi => h.idle (hrun.symm.trans hi), hg⟩

theorem Holds.step (hm : m.Reachable .debug) (h : m.Holds held) (hc : m.StopsOutside l)
    (hs : m.step .debug l = some m') : ∃ held', m'.Holds held' := by
  cases l with
  | start a op =>
    obtain ⟨hr, hstart, rfl⟩ := step_start hs
    have hg : ((m.world.enter op).note (.started a op)).Guarded held :=
      h.guarded.keep (by simp) (by simp) fun t ht => by
        change Inside t (m.world.enter op).log
        rwa [World.enter_log]
    cases a with
    | server =>
      obtain rfl := h.idle hr
      refine ⟨false, Holds.server_moved (fun op' p hp => ?_) (fun _ => rfl) hg⟩
      obtain ⟨rfl, rfl⟩ := Prod.mk.inj (Option.some.inj hp)
      exact holding_prog fun _ _ => trivial
    | app t => exact ⟨held, h.app_moved hg⟩
  | action a env =>
    obtain ⟨op, o, k, r, w', hr, hp, rfl⟩ := step_action hs
    obtain ⟨hw, w₁, ha, rfl⟩ := World.perform_eq_some hp
    cases a with
    | server =>
      have hg := h.guarded.server_acts ha fun ho => hc.suspends (ho ▸ act_action hr env)
      refine ⟨nextHeld held o r, Holds.server_moved (fun op' p hp => ?_) nofun hg⟩
      obtain ⟨rfl, rfl⟩ := Prod.mk.inj (Option.some.inj hp)
      exact (h.server op _ hr).2 r trivial
    | app t =>
      exact ⟨held, h.app_moved (h.guarded.app_acts (hw.resolve_left nofun) ha (hm.app_acts hr))⟩
  | finish a =>
    obtain ⟨op, p, x, hr, hx, rfl⟩ := step_finish hs
    have hg : (m.world.note (.ended a op x)).Guarded held :=
      h.guarded.keep rfl rfl fun t ht => ht
    cases a with
    | server =>
      have hne : p ≠ .stop (.thrown .lengthError) := fun hp => hc.ends rfl op (hp ▸ hr)
      obtain rfl := held_of_ending (h.server op p hr) hx hne
      exact ⟨false, Holds.server_moved nofun (fun _ => rfl) hg⟩
    | app t => exact ⟨held, h.app_moved hg⟩
  | unload modinfo =>
    obtain ⟨-, rfl⟩ := step_unload hs
    exact ⟨held, h.server, h.idle, h.guarded.keep rfl rfl fun t ht => ht⟩

theorem ReachedBy.holds (hm : m.ReachedBy .debug StopsOutside) : ∃ held, m.Holds held :=
  ReachedBy.invariant (I := fun m => ∃ held, m.Holds held) hm
    (fun modules => ⟨false, holds_boot modules⟩)
    fun _ _ _ hm ⟨_, h⟩ hc hs => h.step hm.reachable hc hs

/-- In every run whose suspensions find no thread inside, the mutex is with no suspended thread
between two calls, and the next call gets it. -/
theorem lock_granted (hm : m.ReachedBy .debug StopsOutside) (hidle : m.running .server = none) :
    (∀ t, m.world.mutex ≠ some (.app t)) ∧
      ∀ env, (m.world.perform env .server .drMutexLock).isSome = true := by
  obtain ⟨held, h⟩ := hm.holds
  have happ := h.guarded.app (hm.reachable.suspended_of_idle hidle).1
  have hfree : m.world.mutex = none := by
    cases hmutex : m.world.mutex with
    | none => rfl
    | some a =>
      cases a with
      | server => cases (h.guarded.server hmutex).symm.trans (h.idle hidle)
      | app t => exact absurd hmutex (happ t)
  exact ⟨happ, fun env => by simp [World.perform, World.answer, hfree]⟩

/-- Whether the mark is a thread of the application locking the mutex. -/
def locksApp : Mark → Bool
  | .did (.app _) .drMutexLock => true
  | _ => false

theorem not_inside_of_all {l : List Mark} (h : l.all (fun x => !locksApp x) = true) (t : ℕ) :
    ¬Inside t l := by
  induction l with
  | nil => exact id
  | cons x l ih =>
    rw [List.all_cons, Bool.and_eq_true] at h
    intro hin
    rcases hin.cons with rfl | hin
    · cases h.1
    · exact ih h.2 hin

/-- The check of `StopsOutside` where no thread of the application has locked. -/
def stopsOutsideAlone (m : Machine) (l : Label) : Bool :=
  (m.act l ≠ some (.server, .drSuspendAllOtherThreads) || m.world.log.all (fun x => !locksApp x)) &&
    match m.running .server with
    | some (_, .stop (.thrown .lengthError)) => false
    | _ => true

theorem stopsOutside_of_alone {t : ℕ} (m : Machine) (l : Label)
    (_ : ∀ u, u ≠ t → m.running (.app u) = none) (hc : stopsOutsideAlone m l = true) :
    m.StopsOutside l := by
  rw [stopsOutsideAlone, Bool.and_eq_true] at hc
  constructor
  · intro hact t
    have hall := hc.1
    rw [hact] at hall
    exact not_inside_of_all (by simpa using hall) t
  · rintro rfl op hr
    rw [hr] at hc
    cases hc.2

/-- One thread raises an event without the mutex, and the call returns it. -/
def unlockedStop : Machine :=
  afterAlone .debug [] 1 stopsOutsideAlone (startUp ++ resumes {.relevantBlock} ++
    [.start (.app 1) (.cleanCall (.relevantBlockCleanCall 16 20))] ++ actions (.app 1) 6 ++ stops)

theorem lock_granted_unlockedStop :
    Returned .relevantBlock unlockedStop.world.log ∧
      (∀ t, unlockedStop.world.mutex ≠ some (.app t)) ∧
        ∀ env, (unlockedStop.world.perform env .server .drMutexLock).isSome = true :=
  ⟨rfl, lock_granted (reachedBy_afterAlone stopsOutside_of_alone [] _) rfl⟩

/-- One thread hits a breakpoint, and is stopped in its sleep. -/
def sleepingStop : Machine :=
  after .debug [] (breakpointAhead {.breakpoint} ++ actions (.app 1) 10 ++ stops)

/-- A thread that raises a breakpoint is stopped with the mutex, and the next call waits forever. -/
theorem not_lock_granted :
    ¬∀ m : Machine, m.Reachable .debug → m.running .server = none →
      (∀ t, m.world.mutex ≠ some (.app t)) ∧
        ∀ env, (m.world.perform env .server .drMutexLock).isSome = true := by
  intro h
  exact (h sleepingStop (reachable_after .debug [] _) rfl).1 1 rfl

end Machine

end ConcreteEval
