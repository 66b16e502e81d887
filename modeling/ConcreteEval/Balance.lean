import ConcreteEval.Locking

/-!
# The mutex on every path

A path of an operation is balanced if its thread locks the mutex only where it does not have
it, unlocks it only where it has it, and does not have it at the end. Every path that ends by
returning or throwing is balanced but for two kinds (`Operation.balanced_iff`) : where
`executeUntilEvent` finds no context after the suspension it unlocks a mutex that it does not
have, and where the string constructor throws `getCodeBlock` ends with the mutex locked.

`Monitor` reads both sides of that off a path, action by action, and every operation is
followed to its ends with it.
-/

namespace ConcreteEval

/-- The thread takes and releases the mutex in turns, and ends without it; `held` is whether
it has the mutex at the start. -/
def Balanced : Bool → List (Prog.Event drApi) → Prop
  | held, [] => held = false
  | held, ⟨.drMutexLock, _⟩ :: τ => held = false ∧ Balanced true τ
  | held, ⟨.drMutexUnlock, _⟩ :: τ => held = true ∧ Balanced false τ
  | held, _ :: τ => Balanced held τ

/-- A look at the globals after a suspension of the application finds no context. -/
def FindsNoContext (τ : List (Prog.Event drApi)) : Prop :=
  ∃ r g, [⟨Op.drSuspendAllOtherThreads, r⟩, ⟨Op.read, g⟩].Sublist τ ∧ g.stoppedContext = none

/-- A string constructor throws. -/
def StringThrows (τ : List (Prog.Event drApi)) : Prop :=
  ∃ first last, ⟨Op.stringOfRange first last, none⟩ ∈ τ

/-! ## Reading a path -/

/-- What a path has done so far. -/
structure Monitor where
  /-- The thread has the mutex. -/
  held : Bool := false
  /-- The mutex has been locked by its holder, or unlocked by another. -/
  misused : Bool := false
  /-- The application has been suspended. -/
  stopped : Bool := false
  /-- No context was found after that. -/
  missing : Bool := false
  /-- A string constructor has thrown. -/
  threw : Bool := false

/-- The monitor after an action. -/
def Monitor.next (l : Monitor) : (o : Op) → o.Reply → Monitor
  | .drMutexLock, _ => { l with held := true, misused := l.misused || l.held }
  | .drMutexUnlock, _ => { l with held := false, misused := l.misused || !l.held }
  | .drSuspendAllOtherThreads, _ => { l with stopped := true }
  | .read, g => { l with missing := l.missing || l.stopped && g.stoppedContext.isNone }
  | .stringOfRange _ _, r => { l with threw := l.threw || r.isNone }
  | _, _ => l

/-- The monitor follows any action and any reply. -/
def monitor : Discipline drApi Monitor :=
  ⟨fun _ _ => True, fun _ _ _ => True, Monitor.next⟩

theorem monitor_admits (l : Monitor) (τ : List (Prog.Event drApi)) : monitor.Admits l τ := by
  induction τ generalizing l with
  | nil => trivial
  | cons e τ ih => exact ⟨trivial, ih _⟩

theorem monitor_balanced (l : Monitor) (τ : List (Prog.Event drApi)) :
    ((monitor.after l τ).misused = false ∧ (monitor.after l τ).held = false) ↔
      l.misused = false ∧ Balanced l.held τ := by
  induction τ generalizing l with
  | nil => rfl
  | cons e τ ih =>
    obtain ⟨o, r⟩ := e
    refine (ih (l.next o r)).trans ?_
    cases o with
    | drMutexLock => simp [Monitor.next, Balanced, and_assoc]
    | drMutexUnlock => simp [Monitor.next, Balanced, and_assoc]
    | _ => exact Iff.rfl

/-- A look that finds no context, after some suspension. -/
def LooksInVain (τ : List (Prog.Event drApi)) : Prop :=
  ∃ g : Globals, ⟨Op.read, g⟩ ∈ τ ∧ g.stoppedContext = none

theorem findsNoContext_suspend (r : Bool) (τ : List (Prog.Event drApi)) :
    FindsNoContext (⟨.drSuspendAllOtherThreads, r⟩ :: τ) ↔ LooksInVain τ ∨ FindsNoContext τ := by
  constructor
  · rintro ⟨r', g, h, hg⟩
    rcases List.sublist_cons_iff.mp h with h | ⟨τ', heq, h⟩
    · exact Or.inr ⟨r', g, h, hg⟩
    · obtain ⟨-, rfl⟩ := List.cons.inj heq
      exact Or.inl ⟨g, List.singleton_sublist.mp h, hg⟩
  · rintro (⟨g, h, hg⟩ | ⟨r', g, h, hg⟩)
    · exact ⟨r, g, (List.singleton_sublist.mpr h).cons_cons _, hg⟩
    · exact ⟨r', g, h.cons _, hg⟩

theorem findsNoContext_cons {o : Op} (ho : o ≠ .drSuspendAllOtherThreads) (r : o.Reply)
    (τ : List (Prog.Event drApi)) : FindsNoContext (⟨o, r⟩ :: τ) ↔ FindsNoContext τ := by
  constructor
  · rintro ⟨r', g, h, hg⟩
    rcases List.sublist_cons_iff.mp h with h | ⟨τ', heq, h⟩
    · exact ⟨r', g, h, hg⟩
    · obtain ⟨heq, -⟩ := List.cons.inj heq
      exact absurd (Sigma.mk.inj heq).1.symm ho
  · rintro ⟨r', g, h, hg⟩
    exact ⟨r', g, h.cons _, hg⟩

theorem looksInVain_read (g : Globals) (τ : List (Prog.Event drApi)) :
    LooksInVain (⟨.read, g⟩ :: τ) ↔ g.stoppedContext = none ∨ LooksInVain τ := by
  constructor
  · rintro ⟨g', h, hg⟩
    rcases List.mem_cons.mp h with h | h
    · obtain rfl : g' = g := eq_of_heq (Sigma.mk.inj h).2
      exact Or.inl hg
    · exact Or.inr ⟨g', h, hg⟩
  · rintro (hg | ⟨g', h, hg⟩)
    · exact ⟨g, List.mem_cons_self, hg⟩
    · exact ⟨g', List.mem_cons_of_mem _ h, hg⟩

theorem looksInVain_cons {o : Op} (ho : o ≠ .read) (r : o.Reply)
    (τ : List (Prog.Event drApi)) : LooksInVain (⟨o, r⟩ :: τ) ↔ LooksInVain τ := by
  constructor
  · rintro ⟨g, h, hg⟩
    rcases List.mem_cons.mp h with h | h
    · exact absurd (Sigma.mk.inj h).1.symm ho
    · exact ⟨g, h, hg⟩
  · rintro ⟨g, h, hg⟩
    exact ⟨g, List.mem_cons_of_mem _ h, hg⟩

theorem monitor_missing (l : Monitor) (τ : List (Prog.Event drApi)) :
    (monitor.after l τ).missing = true ↔
      l.missing = true ∨ l.stopped = true ∧ LooksInVain τ ∨ FindsNoContext τ := by
  induction τ generalizing l with
  | nil => simp [Discipline.after, LooksInVain, FindsNoContext]
  | cons e τ ih =>
    obtain ⟨o, r⟩ := e
    refine (ih (l.next o r)).trans ?_
    by_cases hs : o = .drSuspendAllOtherThreads
    · subst hs
      have hne : Op.drSuspendAllOtherThreads ≠ .read := nofun
      rw [findsNoContext_suspend, looksInVain_cons hne]
      simp only [Monitor.next, true_and]
      tauto
    · rw [findsNoContext_cons hs]
      by_cases hr : o = .read
      · subst hr
        rw [looksInVain_read]
        simp only [Monitor.next, Bool.or_eq_true, Bool.and_eq_true, Option.isNone_iff_eq_none]
        tauto
      · rw [looksInVain_cons hr]
        cases o <;> first | exact Iff.rfl | exact absurd rfl hs | exact absurd rfl hr

theorem stringThrows_cons (o : Op) (r : o.Reply) (τ : List (Prog.Event drApi)) :
    StringThrows (⟨o, r⟩ :: τ) ↔
      (∃ first last, (⟨o, r⟩ : Prog.Event drApi) = ⟨.stringOfRange first last, none⟩) ∨
        StringThrows τ := by
  constructor
  · rintro ⟨first, last, h⟩
    rcases List.mem_cons.mp h with h | h
    · exact Or.inl ⟨first, last, h.symm⟩
    · exact Or.inr ⟨first, last, h⟩
  · rintro (⟨first, last, h⟩ | ⟨first, last, h⟩)
    · exact ⟨first, last, h ▸ List.mem_cons_self⟩
    · exact ⟨first, last, List.mem_cons_of_mem _ h⟩

theorem monitor_threw (l : Monitor) (τ : List (Prog.Event drApi)) :
    (monitor.after l τ).threw = true ↔ l.threw = true ∨ StringThrows τ := by
  induction τ generalizing l with
  | nil => simp [Discipline.after, StringThrows]
  | cons e τ ih =>
    obtain ⟨o, r⟩ := e
    refine (ih (l.next o r)).trans ?_
    rw [stringThrows_cons]
    cases o with
    | stringOfRange first last => cases r <;> simp [Monitor.next]
    | _ => simp [Monitor.next]

/-! ## The operations -/

/-- The path is balanced just where neither defect has shown. -/
def Monitor.Good (l : Monitor) : Prop :=
  (l.misused = false ∧ l.held = false) ↔ ¬(l.missing = true ∨ l.threw = true)

/-- The monitor while the thread has the mutex. -/
def Monitor.locked : Monitor :=
  { held := true }

/-- Program that throws only where the monitor is good. -/
def Monitored {α : Type} (p : Dr α) (ok : α → Monitor → Prop) (l : Monitor) : Prop :=
  p.Follows monitor ok (fun h l => (∃ e, h = .thrown e) → l.Good) l

theorem monitor_locks : monitor.Locks {} .locked where
  lock := ⟨trivial, fun _ => rfl⟩
  unlock := ⟨trivial, fun _ => rfl⟩
  plainFree o ho := by
    refine ⟨trivial, fun r => ?_⟩
    cases o <;> first | rfl | cases ho
  plainLocked o ho := by
    refine ⟨trivial, fun r => ?_⟩
    cases o <;> first | rfl | cases ho
  flush := ⟨trivial, fun _ => rfl⟩

section Monitored

variable {ok : Unit → Monitor → Prop}

theorem good_free : Monitor.Good {} := by
  simp [Monitor.Good]

theorem fault_good (f : Fault) (l : Monitor) : (∃ e, Halt.fault f = .thrown e) → l.Good :=
  nofun

theorem monitored_resumeApplicationThreads {b : Build} (hok : ok () {}) :
    Monitored (resumeApplicationThreads b) ok {} := by
  have hread : monitor.Stays {} .read := monitor_locks.plainFree _ rfl
  refine Prog.follows_bind.mpr
    (follows_cassert_stay fault_good ?_ (follows_stay hread fun _ => rfl))
  refine .step trivial fun _ _ => .step trivial fun _ _ => Prog.follows_bind.mpr ?_
  refine follows_cassert_stay fault_good (.step trivial fun _ _ => hok)
    (follows_stay hread fun g => ?_)
  cases g.suspendParams with
  | none => exact nofun
  | some params => exact .step trivial fun _ _ => rfl

theorem monitored_suspendApplicationThreads {b : Build} (hok : ok () { stopped := true }) :
    Monitored (suspendApplicationThreads b) ok {} := by
  have hread : monitor.Stays {} .read := monitor_locks.plainFree _ rfl
  refine Prog.follows_bind.mpr
    (follows_cassert_stay fault_good ?_ (follows_stay hread fun _ => rfl))
  refine .step trivial fun _ _ => .step trivial fun c _ => ?_
  exact follows_drAssert_stay fault_good fun _ => hok

/-- The mutex is unlocked after the suspension where no context is found. -/
theorem monitored_executeUntilEvent (b : Build) (stopEvents : EventTypes) :
    Monitored (executeUntilEvent b stopEvents) (fun _ l => l.Good) {} := by
  have hko : ∀ msg, (∃ e, Halt.thrown (.exception msg) = .thrown e) → Monitor.Good {} :=
    fun _ _ => good_free
  refine Prog.follows_bind.mpr (.step trivial fun _ _ => follows_lock monitor_locks
    (follows_stay (monitor_locks.plainLocked _ rfl) fun g => follows_check (fun _ => ?_)
      (follows_raise_unlock monitor_locks hko _ _)))
  refine follows_unlock monitor_locks (Prog.follows_bind.mpr ?_)
  refine follows_totalFlush_stay fault_good (fun _ => monitor_locks.flush) ?_
  refine monitored_resumeApplicationThreads (.step trivial fun _ _ => Prog.follows_bind.mpr ?_)
  refine monitored_suspendApplicationThreads (.step trivial fun g _ => Prog.follows_bind.mpr ?_)
  cases hc : g.stoppedContext with
  | none =>
    refine ⟨trivial, fun _ _ _ => ?_⟩
    simp [Monitor.Good, monitor, Monitor.next, hc]
  | some c => simp [Monitor.Good, monitor, Monitor.next, hc, assertHelper, deref]

end Monitored

/-- Every operation ends with a good monitor. -/
theorem monitored_prog (b : Build) (op : Operation) :
    Monitored (op.prog b) (fun _ l => l.Good) {} := by
  by_cases hstart : op = .serverThread
  · subst hstart
    refine Prog.follows_bind.mpr (monitored_suspendApplicationThreads ?_)
    simp [Monitor.Good]
  · by_cases hexec : ∃ S, op = .executeUntilEvent S
    · obtain ⟨S, rfl⟩ := hexec
      exact Prog.follows_bind.mpr (monitored_executeUntilEvent b S)
    · have hfree : (op.prog b).Follows monitor (fun _ l => l = {})
          (fun h l => (∃ e, h = .thrown e) → l.Good) {} :=
        locks_prog fault_good monitor_locks (fun _ _ => good_free)
          (fun _ _ => ⟨trivial, fun _ => rfl⟩)
          (fun _ _ => ⟨trivial, fun _ => rfl, fun _ => by
            simp [Monitor.Good, monitor, Monitor.next, Monitor.locked]⟩)
          hstart (fun S h => hexec ⟨S, h⟩)
      refine hfree.mono ?_ fun _ _ h => h
      rintro _ _ rfl
      exact good_free

/-- A path that ends by returning or throwing is balanced, unless no context is found after a
suspension or a string constructor throws. -/
theorem Operation.balanced_iff {b : Build} {op : Operation} {τ : List (Prog.Event drApi)}
    {x : Prog.Ending Halt Result} (h : (op.prog b).Path τ x)
    (hx : ∀ f, x ≠ .stopped (.fault f)) :
    Balanced false τ ↔ ¬FindsNoContext τ ∧ ¬StringThrows τ := by
  have hgood : (monitor.after {} τ).Good := by
    obtain ⟨-, hend⟩ := Discipline.follows_path (monitored_prog b op) h (monitor_admits _ _)
    cases x with
    | returned r => exact hend
    | stopped e =>
      cases e with
      | thrown e => exact hend ⟨e, rfl⟩
      | fault f => exact absurd rfl (hx f)
  have hbal := monitor_balanced {} τ
  have hmissing := monitor_missing {} τ
  have hthrew := monitor_threw {} τ
  unfold Monitor.Good at hgood
  rw [hbal, hmissing, hthrew] at hgood
  simpa [not_or] using hgood

/-- The application is suspended, and a signal is latched. -/
def leftoverWorld : World where
  globals := { suspendParams := some ⟨0, 0⟩ }
  event := true
  suspended := true

/-- What `executeUntilEvent` does there. -/
def leftoverTrace : List (Prog.Event drApi) :=
  ((Operation.executeUntilEvent {.breakpoint}).prog .debug).trace
    (fun o w => w.perform {} .server o) leftoverWorld

theorem path_leftoverTrace :
    ((Operation.executeUntilEvent {.breakpoint}).prog .debug).Path leftoverTrace
      (.stopped (.thrown (.exception "Unable to locate stopped context.".toList))) :=
  Prog.path_trace rfl

theorem balanced_iff_leftoverTrace :
    Balanced false leftoverTrace ↔ ¬FindsNoContext leftoverTrace ∧ ¬StringThrows leftoverTrace :=
  Operation.balanced_iff path_leftoverTrace nofun

/-- `executeUntilEvent` can unlock a mutex that it does not have. -/
theorem not_balanced :
    ¬∀ (b : Build) (op : Operation) (τ : List (Prog.Event drApi)) (x : Prog.Ending Halt Result),
      (op.prog b).Path τ x → (∀ f, x ≠ .stopped (.fault f)) → Balanced false τ := by
  intro h
  have hbal := h .debug _ leftoverTrace _ path_leftoverTrace nofun
  have hfree := ((monitor_balanced {} leftoverTrace).mpr ⟨rfl, hbal⟩).1
  have hmisused : (monitor.after {} leftoverTrace).misused = true := rfl
  rw [hmisused] at hfree
  cases hfree

end ConcreteEval
