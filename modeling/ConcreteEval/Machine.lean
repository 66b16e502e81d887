import ConcreteEval.Client
import ConcreteEval.Run

/-!
# The threads, interleaved

`Machine` is the client running in the target : the shared world and, for the server
thread and each application thread, the operation it is in with the program that remains
of it. One step is one atomic action of one thread, or a thread starting or ending an
operation (`Machine.step`). The server thread runs its start-up and then the service's
calls one at a time; any number of application threads run clean calls and callbacks,
in any order and with any arguments, while they are not suspended.

An operation that faults, or a callback that throws out of DR, stays where it is : what
the process does then is not modelled.
-/

namespace ConcreteEval

structure Machine where
  world : World
  /-- The operation each thread is in, and what remains of it. -/
  running : Actor → Option (Operation × Dr Result)

/-- What can happen next. -/
inductive Label
  | start (a : Actor) (op : Operation)
  | action (a : Actor) (env : Env)
  | finish (a : Actor)
  | unload (modinfo : Module)

/-- How an operation of `a` has ended, if it has. The server replies to a call that
returned or threw. -/
def endingOf (a : Actor) : Dr Result → Option (Prog.Ending Halt Result)
  | .ret r => some (.returned r)
  | .stop (.thrown e) => if a = .server then some (.stopped (.thrown e)) else none
  | _ => none

/-- How the server thread ends what it is in. -/
theorem endingOf_server_eq_some {p : Dr Result} {x : Prog.Ending Halt Result}
    (h : endingOf .server p = some x) :
    (∃ r, p = .ret r ∧ x = .returned r) ∨
      ∃ e, p = .stop (.thrown e) ∧ x = .stopped (.thrown e) := by
  cases p with
  | ret r => exact Or.inl ⟨r, rfl, (Option.some.inj h).symm⟩
  | stop e =>
    cases e with
    | thrown e => exact Or.inr ⟨e, rfl, (Option.some.inj h).symm⟩
    | fault f => cases h
  | act o k => cases h

/-- Whether `a` can start `op` : the server takes a call, an application thread that is
not suspended comes to a clean call or is in DR at a callback. -/
def World.canStart (w : World) (a : Actor) (op : Operation) : Bool :=
  if a = .server then op.isCall else op.isCallback && !w.suspended

theorem canStart_server {w : World} {op : Operation} (h : w.canStart .server op = true) :
    op.isCall = true ∧ w.enter op = w := by
  have hop : op.isCall = true := h
  cases op with
  | eventModuleLoaded modinfo => cases hop
  | _ => exact ⟨hop, rfl⟩

theorem canStart_app {w : World} {t : ℕ} {op : Operation} (h : w.canStart (.app t) op = true) :
    op.isCallback = true ∧ w.suspended = false := by
  simpa [World.canStart] using h

namespace Machine

variable (b : Build)

/-- `a` is left with `x`. -/
def set (m : Machine) (w : World) (a : Actor) (x : Option (Operation × Dr Result)) : Machine where
  world := w
  running := Function.update m.running a x

/-- One step of the machine. -/
def step (m : Machine) : Label → Option Machine
  | .start a op =>
    match m.running a with
    | none =>
      if m.world.canStart a op then
        some (m.set ((m.world.enter op).note (.started a op)) a (some (op, op.prog b)))
      else none
    | some _ => none
  | .action a env =>
    match m.running a with
    | some (op, .act o k) =>
      (m.world.perform env a o).map fun rw' => m.set rw'.2 a (some (op, k rw'.1))
    | _ => none
  | .finish a =>
    match m.running a with
    | some (op, p) => (endingOf a p).map fun x => m.set (m.world.note (.ended a op x)) a none
    | none => none
  | .unload modinfo =>
    if m.world.suspended then none
    else some { m with world := { m.world with modules := m.world.modules.erase modinfo } }

/-- The start : the server thread has been created, the application runs. -/
def boot (modules : List Module) : Machine where
  world := { modules := modules }
  running a := if a = .server then some (.serverThread, Operation.serverThread.prog b) else none

/-- Reached from the start through steps that satisfy `cond`. -/
def ReachedBy (cond : Machine → Label → Prop) (m : Machine) : Prop :=
  ∃ modules, Relation.ReflTransGen (Moves (step b) cond) (boot b modules) m

/-- Reached from the start. -/
def Reachable (m : Machine) : Prop :=
  m.ReachedBy b fun _ _ => True

/-- The machine after the steps `ls` from the start, if they can be taken. -/
def after (modules : List Module) (ls : List Label) : Machine :=
  (ls.foldlM (step b) (boot b modules)).getD (boot b modules)

theorem reachable_after (modules : List Module) (ls : List Label) :
    (after b modules ls).Reachable b := by
  refine ⟨modules, ?_⟩
  unfold after
  cases h : ls.foldlM (step b) (boot b modules) with
  | none => exact Relation.ReflTransGen.refl
  | some m => exact moves_of_foldlM (fun _ _ _ => trivial) h

/-- `n` actions of `a`. -/
def actions (a : Actor) (n : ℕ) : List Label :=
  List.replicate n (.action a {})

/-- The steps of the server's start-up in a build with `assert`. -/
def startUp : List Label :=
  actions .server 3 ++ [.finish .server]

/-- The steps of `executeUntilEvent S` up to its wait. -/
def resumes (S : EventTypes) : List Label :=
  .start .server (.executeUntilEvent S) :: actions .server 11

/-- The steps of `executeUntilEvent` from its wait on. -/
def stops : List Label :=
  actions .server 5 ++ [.finish .server]

/-! ### One application thread -/

/-- Whether the step is one of the server, of the thread `t`, or of DR. -/
def byServerOr (t : ℕ) : Label → Bool
  | .start a _ | .action a _ | .finish a => a = .server || a = .app t
  | .unload _ => true

/-- A step where `t` is the only application thread, if it passes the check `c`. -/
def aloneStep (t : ℕ) (c : Machine → Label → Bool) (m : Machine) (l : Label) : Option Machine :=
  if byServerOr t l && c m l then step b m l else none

/-- The machine after the steps `ls` from the start, if they can be taken with `t` the only
application thread and pass the check `c`. -/
def afterAlone (modules : List Module) (t : ℕ) (c : Machine → Label → Bool) (ls : List Label) :
    Machine :=
  (ls.foldlM (aloneStep b t c) (boot b modules)).getD (boot b modules)

variable {b}

theorem ReachedBy.reachable {cond : Machine → Label → Prop} {m : Machine}
    (h : m.ReachedBy b cond) : m.Reachable b :=
  h.imp fun _ h => moves_mono (fun _ _ _ => trivial) h

/-- What the start satisfies and every step from a state that is reached keeps. -/
theorem ReachedBy.invariant {cond : Machine → Label → Prop} {I : Machine → Prop} {m : Machine}
    (hm : m.ReachedBy b cond) (hboot : ∀ modules, I (boot b modules))
    (hstep : ∀ m l m', m.ReachedBy b cond → I m → cond m l → m.step b l = some m' → I m') :
    I m := by
  obtain ⟨modules, hm⟩ := hm
  induction hm with
  | refl => exact hboot modules
  | tail h hmove ih =>
    obtain ⟨l, hc, hs⟩ := hmove
    exact hstep _ l _ ⟨modules, h⟩ ih hc hs

/-- What starting an operation does. -/
theorem step_start {m m' : Machine} {a : Actor} {op : Operation}
    (h : m.step b (.start a op) = some m') :
    m.running a = none ∧ m.world.canStart a op = true ∧
      m' = m.set ((m.world.enter op).note (.started a op)) a (some (op, op.prog b)) := by
  simp only [step] at h
  split at h
  · rename_i hr
    split_ifs at h with hc
    exact ⟨hr, hc, (Option.some.inj h).symm⟩
  · cases h

/-- What one action of a thread does. -/
theorem step_action {m m' : Machine} {a : Actor} {env : Env}
    (h : m.step b (.action a env) = some m') :
    ∃ op o k r w', m.running a = some (op, .act o k) ∧
      m.world.perform env a o = some (r, w') ∧ m' = m.set w' a (some (op, k r)) := by
  simp only [step] at h
  split at h
  · rename_i op o k hr
    obtain ⟨⟨r, w'⟩, hp, rfl⟩ := Option.map_eq_some_iff.mp h
    exact ⟨op, o, k, r, w', hr, hp, rfl⟩
  · cases h

/-- What ending an operation does. -/
theorem step_finish {m m' : Machine} {a : Actor} (h : m.step b (.finish a) = some m') :
    ∃ op p x, m.running a = some (op, p) ∧ endingOf a p = some x ∧
      m' = m.set (m.world.note (.ended a op x)) a none := by
  simp only [step] at h
  split at h
  · rename_i op p hr
    obtain ⟨x, hx, rfl⟩ := Option.map_eq_some_iff.mp h
    exact ⟨op, p, x, hr, hx, rfl⟩
  · cases h

/-- What unloading a module does. -/
theorem step_unload {m m' : Machine} {modinfo : Module}
    (h : m.step b (.unload modinfo) = some m') :
    m.world.suspended = false ∧
      m' = { m with world := { m.world with modules := m.world.modules.erase modinfo } } := by
  simp only [step] at h
  split_ifs at h with hs
  exact ⟨by simpa using hs, (Option.some.inj h).symm⟩

@[simp] theorem set_world (m : Machine) (w : World) (a : Actor)
    (x : Option (Operation × Dr Result)) : (m.set w a x).world = w :=
  rfl

@[simp] theorem set_running_self (m : Machine) (w : World) (a : Actor)
    (x : Option (Operation × Dr Result)) : (m.set w a x).running a = x :=
  Function.update_self ..

theorem set_running_of_ne (m : Machine) (w : World) {a c : Actor}
    (x : Option (Operation × Dr Result)) (h : c ≠ a) : (m.set w a x).running c = m.running c :=
  Function.update_of_ne h ..

theorem step_running_of_ne {m m' : Machine} {l : Label} {t u : ℕ} (h : m.step b l = some m')
    (hl : byServerOr t l = true) (hu : u ≠ t) : m'.running (.app u) = m.running (.app u) := by
  have hne : ∀ a : Actor, (a = .server ∨ a = .app t) → Actor.app u ≠ a := by
    rintro a (rfl | rfl)
    · nofun
    · simpa using hu
  cases l with
  | start a op =>
    obtain ⟨-, -, rfl⟩ := step_start h
    exact set_running_of_ne _ _ _ (hne a (by simpa [byServerOr] using hl))
  | action a env =>
    obtain ⟨op, o, k, r, w', -, -, rfl⟩ := step_action h
    exact set_running_of_ne _ _ _ (hne a (by simpa [byServerOr] using hl))
  | finish a =>
    obtain ⟨op, p, x, -, -, rfl⟩ := step_finish h
    exact set_running_of_ne _ _ _ (hne a (by simpa [byServerOr] using hl))
  | unload modinfo =>
    obtain ⟨-, rfl⟩ := step_unload h
    rfl

/-- With one application thread, a check that implies the condition of the steps where the
others are idle makes a run of such steps. -/
theorem reachedBy_afterAlone {cond : Machine → Label → Prop} {t : ℕ}
    {c : Machine → Label → Bool}
    (hc : ∀ m l, (∀ u, u ≠ t → m.running (.app u) = none) → c m l = true → cond m l)
    (modules : List Module) (ls : List Label) :
    (afterAlone b modules t c ls).ReachedBy b cond := by
  have hrun : ∀ (ls : List Label) (m m' : Machine), m.ReachedBy b cond →
      (∀ u, u ≠ t → m.running (.app u) = none) → ls.foldlM (aloneStep b t c) m = some m' →
      m'.ReachedBy b cond := by
    intro ls
    induction ls with
    | nil =>
      intro m m' hm _ h
      obtain rfl : m = m' := by simpa using h
      exact hm
    | cons l ls ih =>
      intro m m' hm hidle h
      rw [List.foldlM_cons, Option.bind_eq_bind, Option.bind_eq_some_iff] at h
      obtain ⟨m₁, hs, h⟩ := h
      unfold aloneStep at hs
      split_ifs at hs with hl
      rw [Bool.and_eq_true] at hl
      refine ih m₁ m' ?_ (fun u hu => ?_) h
      · obtain ⟨modules, hm⟩ := hm
        exact ⟨modules, hm.tail ⟨l, hc m l hidle hl.2, hs⟩⟩
      · rw [step_running_of_ne hs hl.1 hu]
        exact hidle u hu
  have hboot : (boot b modules).ReachedBy b cond := ⟨modules, Relation.ReflTransGen.refl⟩
  unfold afterAlone
  cases h : ls.foldlM (aloneStep b t c) (boot b modules) with
  | none => exact hboot
  | some m => exact hrun ls _ m hboot (fun u _ => by simp [boot]) h

end Machine

end ConcreteEval
