import ConcreteEval.Tables
import ConcreteEval.Turns

/-!
# The history of a run

Beside a run of the machine stands what its operations have done, one at a time (`History`). An
operation has its turn where its thread unlocks the mutex : the turn keeps the modules that were
loaded then, the tables that the turns before it have left, and those that it leaves. A call that
ends is kept with its result. The history is read off the steps alone (`History.next`), so every run
has one (`Machine.ReachedBy.exists_recorded`).
-/

namespace ConcreteEval

/-- Whether the operation is one for the thread to start. -/
def Actor.takes : Actor → Operation → Bool
  | .server => Operation.isCall
  | .app _ => Operation.isCallback

/-- The modules that the start of the operation adds to DR's table. -/
def Operation.loads : Operation → List Module
  | .eventModuleLoaded modinfo => [modinfo]
  | _ => []

theorem World.enter_modules (w : World) (op : Operation) :
    (w.enter op).modules = op.loads ++ w.modules := by
  cases op <;> rfl

/-- An operation that has unlocked : whose it is, the modules that were loaded then and all that had
been at some time since it began, the tables that it has found, and those that it has left. -/
structure Turn where
  actor : Actor
  operation : Operation
  modules : List Module
  known : List Module
  found : Tables
  now : Tables

/-- A call that has ended, the modules that were loaded then, and its result. -/
structure EndedCall where
  operation : Operation
  modules : List Module
  result : Prog.Ending Halt Result

/-- What the operations of a run have done. -/
structure History where
  /-- For each thread, the modules that have been loaded at some time since its operation began. -/
  known : Actor → List Module
  /-- The tables that the operations leave one at a time. -/
  tables : Tables := {}
  /-- For each thread, the tables of the turn of its operation, if it has had it. -/
  found : Actor → Option Tables := fun _ => none
  /-- The operations that have unlocked, in their order. -/
  turns : List Turn := []
  /-- The calls that have ended, in their order. -/
  ends : List EndedCall := []

namespace History

/-- At the start of the machine, with these modules. -/
def boot (modules : List Module) : History where
  known _ := modules

/-- The thread starts the operation, while `modules` are loaded. -/
def start (h : History) (a : Actor) (op : Operation) (modules : List Module) : History :=
  { h with
    known := fun c => op.loads ++ Function.update h.known a modules c
    found := Function.update h.found a none }

/-- It has its turn, and leaves the tables `now`. -/
def turn (h : History) (a : Actor) (op : Operation) (modules : List Module) (now : Tables) :
    History :=
  { h with
    tables := now
    found := Function.update h.found a (some h.tables)
    turns := h.turns ++ [⟨a, op, modules, h.known a, h.tables, now⟩] }

/-- It ends. -/
def finish (h : History) (a : Actor) (op : Operation) (modules : List Module)
    (x : Prog.Ending Halt Result) : History :=
  if a = .server && op.isCall then { h with ends := h.ends ++ [⟨op, modules, x⟩] } else h

/-- What a step of the machine adds. -/
def next (h : History) (m : Machine) (l : Label) (m' : Machine) : History :=
  match l with
  | .start a op => h.start a op m.world.modules
  | .action a _ =>
    match m.running a with
    | some (op, p) =>
      if p.next? = some .drMutexUnlock then h.turn a op m.world.modules m'.world.globals.tables
      else h
    | none => h
  | .finish a =>
    match m.running a with
    | some (op, p) =>
      match endingOf a p with
      | some x => h.finish a op m.world.modules x
      | none => h
    | none => h
  | .unload _ => h

/-- The kinds of steps, and what each adds. -/
inductive Adds (h : History) (m m' : Machine) : Label → History → Prop
  | start {a op} : Adds h m m' (.start a op) (h.start a op m.world.modules)
  | turn {a env op k} (hrun : m.running a = some (op, .act .drMutexUnlock k)) :
    Adds h m m' (.action a env) (h.turn a op m.world.modules m'.world.globals.tables)
  | act {a env} (ho : m.nextOp a ≠ some .drMutexUnlock) : Adds h m m' (.action a env) h
  | finish {a op p x} (hrun : m.running a = some (op, p)) (hx : endingOf a p = some x) :
    Adds h m m' (.finish a) (h.finish a op m.world.modules x)
  | unload {M} : Adds h m m' (.unload M) h

theorem adds_next {b : Build} {m m' : Machine} {l : Label} (hs : m.step b l = some m')
    (h : History) : h.Adds m m' l (h.next m l m') := by
  cases l with
  | start a op => exact .start
  | action a env =>
    obtain ⟨op, o, k, r, w', hrun, -, -⟩ := Machine.step_action hs
    by_cases ho : o = .drMutexUnlock
    · subst ho
      simp only [next, hrun, Prog.next?_act, if_true]
      exact .turn hrun
    · have hne : (Prog.act o k : Dr Result).next? ≠ some .drMutexUnlock := by simpa using ho
      simp only [next, hrun, if_neg hne]
      exact .act (by simpa [Machine.nextOp, hrun] using ho)
  | finish a =>
    obtain ⟨op, p, x, hrun, hx, -⟩ := Machine.step_finish hs
    simp only [next, hrun, hx]
    exact .finish hrun hx
  | unload M => exact .unload

section

variable (h : History) {a c : Actor} (op : Operation) (modules : List Module) (now : Tables)
  (x : Prog.Ending Halt Result)

@[simp] theorem start_turns : (h.start a op modules).turns = h.turns :=
  rfl

@[simp] theorem start_ends : (h.start a op modules).ends = h.ends :=
  rfl

@[simp] theorem start_found_self : (h.start a op modules).found a = none :=
  Function.update_self ..

theorem start_found_of_ne (hc : c ≠ a) : (h.start a op modules).found c = h.found c :=
  Function.update_of_ne hc ..

theorem known_subset_start (hc : c ≠ a) : h.known c ⊆ (h.start a op modules).known c := by
  have hknown : (h.start a op modules).known c = op.loads ++ h.known c :=
    congrArg (op.loads ++ ·) (Function.update_of_ne hc ..)
  rw [hknown]
  exact List.subset_append_right _ _

@[simp] theorem turn_found_self : (h.turn a op modules now).found a = some h.tables :=
  Function.update_self ..

theorem turn_found_of_ne (hc : c ≠ a) : (h.turn a op modules now).found c = h.found c :=
  Function.update_of_ne hc ..

@[simp] theorem finish_known : (h.finish a op modules x).known = h.known := by
  unfold finish
  split_ifs <;> rfl

@[simp] theorem finish_tables : (h.finish a op modules x).tables = h.tables := by
  unfold finish
  split_ifs <;> rfl

@[simp] theorem finish_found : (h.finish a op modules x).found = h.found := by
  unfold finish
  split_ifs <;> rfl

@[simp] theorem finish_turns : (h.finish a op modules x).turns = h.turns := by
  unfold finish
  split_ifs <;> rfl

end

end History

/-! ## Runs with their histories -/

namespace Machine

variable {m m' : Machine} {h h' : History} {b : Build} {cond : Machine → Label → Prop}

theorem action_log {a : Actor} {env : Env} {op : Operation} {o : Op} {k : o.Reply → Dr Result}
    (hrun : m.running a = some (op, .act o k)) (hs : m.step b (.action a env) = some m') :
    m'.world.log = .did a o :: m.world.log := by
  obtain ⟨r, w, ha, rfl⟩ := step_act hrun hs
  rw [set_world, World.note_log, World.answer_log ha]

/-- One step that satisfies `cond`, with what it adds to the history. -/
def Records (b : Build) (cond : Machine → Label → Prop) :
    Machine × History → Machine × History → Prop :=
  Moves (recording (step b) History.next) fun r l => cond r.1 l

/-- Reached from the start through steps that satisfy `cond`, with this history. -/
def RecordedBy (b : Build) (cond : Machine → Label → Prop) (m : Machine) (h : History) : Prop :=
  ∃ modules, Relation.ReflTransGen (Records b cond) (boot b modules, .boot modules) (m, h)

/-- Every run has its history. -/
theorem ReachedBy.exists_recorded (hm : m.ReachedBy b cond) : ∃ h, m.RecordedBy b cond h := by
  obtain ⟨modules, hm⟩ := hm
  exact (exists_recording hm (History.boot modules)).imp fun h hrun => ⟨modules, hrun⟩

theorem RecordedBy.reachedBy (hm : m.RecordedBy b cond h) : m.ReachedBy b cond := by
  obtain ⟨modules, hm⟩ := hm
  exact ⟨modules, moves_of_recording hm⟩

/-- What the start satisfies and every step keeps, with what it adds to the history. -/
theorem RecordedBy.invariant {I : Machine → History → Prop} (hm : m.RecordedBy b cond h)
    (hboot : ∀ modules, I (boot b modules) (.boot modules))
    (hstep : ∀ m h l m', m.RecordedBy b cond h → I m h → cond m l → m.step b l = some m' →
      I m' (h.next m l m')) : I m h := by
  obtain ⟨modules, hm⟩ := hm
  exact invariant_of_recording (hboot modules)
    (fun m h l m' hr => hstep m h l m' ⟨modules, hr⟩) hm

/-- Dropping the condition on the steps. -/
theorem RecordedBy.mono {cond' : Machine → Label → Prop} (hc : ∀ m l, cond m l → cond' m l)
    (hm : m.RecordedBy b cond h) : m.RecordedBy b cond' h := by
  have hc' : ∀ (r : Machine × History) l, cond r.1 l → cond' r.1 l := fun r l => hc r.1 l
  exact hm.imp fun _ hm => moves_mono hc' hm

theorem RecordedBy.trans (hm : m.RecordedBy b cond h)
    (hrun : Relation.ReflTransGen (Records b cond) (m, h) (m', h')) : m'.RecordedBy b cond h' :=
  hm.imp fun _ hm => hm.trans hrun

/-- A step with its history that passes the check. -/
def checkedRecord (c : Machine → Label → Bool) :
    Machine × History → Label → Option (Machine × History) :=
  checkedBy (fun r l => c r.1 l) (recording (step .debug) History.next)

theorem records_of_checked {c : Machine → Label → Bool}
    (hc : ∀ m l, c m l = true → cond m l) {ls : List Label} {r₀ r : Machine × History}
    (h : ls.foldlM (checkedRecord c) r₀ = some r) :
    Relation.ReflTransGen (Records .debug cond) r₀ r := by
  have hc' : ∀ (r : Machine × History) l, c r.1 l = true → cond r.1 l := fun r l => hc r.1 l
  exact moves_of_checkedBy hc' h

/-- The machine after the steps `ls` from the start, with its history, if they can be taken and pass
the check `c`. -/
def recorded (c : Machine → Label → Bool) (ls : List Label) : Machine × History :=
  (ls.foldlM (checkedRecord c) (boot .debug [], .boot [])).getD
    (boot .debug [], .boot [])

theorem recordedBy_recorded {c : Machine → Label → Bool}
    (hc : ∀ m l, c m l = true → cond m l) (ls : List Label) :
    (recorded c ls).1.RecordedBy .debug cond (recorded c ls).2 := by
  refine ⟨[], ?_⟩
  unfold recorded
  cases hls : ls.foldlM (checkedRecord c) (boot .debug [], .boot []) with
  | none => exact Relation.ReflTransGen.refl
  | some r => exact records_of_checked hc hls

end Machine

end ConcreteEval
