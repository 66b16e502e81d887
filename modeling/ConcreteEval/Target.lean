import ConcreteEval.Alone
import ConcreteEval.Machine

/-!
# Whole operations, one after the other

`Target` is the client where every operation runs without another in between : each step is
the run of one call, of one callback, or of the part of `executeUntilEvent` before its wait or
from it on. With it goes DR's code cache, the blocks that a thread can enter while the
application runs : a block is cached as `event_basic_block` left it, and any block can be evicted
at any time. A resume empties the cache if a flush has been asked for in it (`Target.flushed`);
a build without `assert` asks for none.

The runs of a target are runs of the machine (`Target.reachable_machine`) : those in which the
threads take turns by whole operations. A call on which the string constructor throws is left
out, since it leaves the mutex locked.
-/

namespace ConcreteEval

/-- A block of the application as it was built, with what `event_basic_block` made of it. -/
structure Block where
  instrs : List Instr
  items : List Item

structure Target where
  world : World
  /-- The stop events of the `executeUntilEvent` that waits for an event. -/
  waiting : Option EventTypes
  cache : List Block

/-- What happens next. -/
inductive Activity
  | call (op : Operation) (env : Env)
  | resume (S : EventTypes)
  | stop (env : Env)
  | callback (t : ℕ) (op : Operation) (env : Env)
  | unload (modinfo : Module)
  | evict (n : ℕ)

/-- Run an operation of `a` alone, from its start to its end. -/
def World.alone (b : Build) (env : Env) (a : Actor) (op : Operation) (w : World) :
    Option (Prog.Ending Halt Result × World) :=
  let r := World.run env a (op.prog b) ((w.enter op).note (.started a op))
  (endingOf a r.1).map fun x => (x, r.2.note (.ended a op x))

/-- The calls that come to an end on their own, with the mutex free. -/
def Operation.isQuery (op : Operation) (env : Env) : Bool :=
  match op with
  | .addBreakpoint _ | .delBreakpoint _ | .getBreakpoints | .getContext => true
  | .getCodeBlock => env.bytes.isSome
  | _ => false

/-- The block that an operation has built. -/
def built : Operation → Prog.Ending Halt Result → List Block
  | .eventBasicBlock bb, .returned (.items l) => [⟨bb, l⟩]
  | _, _ => []

/-- What remains of `executeUntilEvent` at its wait. -/
def untilEvent (b : Build) : Dr Result :=
  (stopAtEvent b).bind fun e => .ret (.event e)

theorem executeUntilEvent_prog (b : Build) (S : EventTypes) :
    (Operation.executeUntilEvent S).prog b = (resumeUntilEvent b S).bind fun _ => untilEvent b :=
  Prog.bind_assoc _ _ _

/-- How often a flush of the code cache has been asked for. -/
def World.flushes (w : World) : ℕ :=
  w.log.countP fun
    | .did _ .drDelayFlushRegion => true
    | _ => false

namespace Target

/-- The cached blocks after the server has run from `w` to `w'` : those there were, but none if it
has asked for a flush. -/
def flushed (w w' : World) (cache : List Block) : List Block :=
  if w.flushes < w'.flushes then [] else cache

variable (b : Build)

/-- One step of the target. -/
def step (t : Target) : Activity → Option Target
  | .call op env =>
    if t.waiting = none ∧ op.isQuery env = true then
      (t.world.alone b env .server op).map fun r => { t with world := r.2 }
    else none
  | .resume S =>
    if t.waiting = none then
      match World.run {} .server (resumeUntilEvent b S)
          (t.world.note (.started .server (.executeUntilEvent S))) with
      | (.ret _, w) => some ⟨w, some S, flushed t.world w t.cache⟩
      | _ => none
    else none
  | .stop env =>
    match t.waiting with
    | none => none
    | some S =>
      let r := World.run env .server (untilEvent b) t.world
      (endingOf .server r.1).map fun x =>
        { t with world := r.2.note (.ended .server (.executeUntilEvent S) x), waiting := none }
  | .callback u op env =>
    if t.world.canStart (.app u) op then
      (t.world.alone b env (.app u) op).map fun r =>
        { t with world := r.2, cache := built op r.1 ++ t.cache }
    else none
  | .unload modinfo =>
    if t.world.suspended then none
    else some { t with world := { t.world with modules := t.world.modules.erase modinfo } }
  | .evict n => some { t with cache := t.cache.eraseIdx n }

/-- The start : the server thread has suspended the application. -/
def boot (modules : List Module) : Target where
  world := (World.run {} .server (Operation.serverThread.prog b) { modules := modules }).2.note
    (.ended .server .serverThread (.returned .void))
  waiting := none
  cache := []

/-- Reached from the start through steps that satisfy `cond`. -/
def ReachedBy (cond : Target → Activity → Prop) (t : Target) : Prop :=
  ∃ modules, Relation.ReflTransGen (Moves (step b) cond) (boot b modules) t

/-- The target after the steps `ls` from the start, if they can be taken. -/
def after (modules : List Module) (ls : List Activity) : Target :=
  (ls.foldlM (step b) (boot b modules)).getD (boot b modules)

variable {b} in
/-- One more step. -/
theorem ReachedBy.tail {cond : Target → Activity → Prop} {t t' : Target} {l : Activity}
    (h : t.ReachedBy b cond) (hc : cond t l) (hs : t.step b l = some t') : t'.ReachedBy b cond :=
  h.imp fun _ h => h.tail ⟨l, hc, hs⟩

variable {b} in
theorem ReachedBy.mono {cond cond' : Target → Activity → Prop} {t : Target}
    (h : t.ReachedBy b cond) (hc : ∀ t l, cond t l → cond' t l) : t.ReachedBy b cond' :=
  h.imp fun _ h => moves_mono hc h

theorem reachedBy_after {cond : Target → Activity → Prop} (modules : List Module)
    {ls : List Activity} (hc : ∀ t, ∀ l ∈ ls, cond t l) :
    (after b modules ls).ReachedBy b cond := by
  refine ⟨modules, ?_⟩
  unfold after
  cases h : ls.foldlM (step b) (boot b modules) with
  | none => exact Relation.ReflTransGen.refl
  | some t => exact moves_of_foldlM hc h

/-- The target as a state of the machine. -/
def machine (t : Target) : Machine where
  world := t.world
  running
    | .server => t.waiting.map fun S => (.executeUntilEvent S, untilEvent b)
    | .app _ => none

end Target

/-- A module at `[16, 32)`. -/
def lib : Module :=
  ⟨16, 32, "lib".toList, [], rfl⟩

/-! ## The machine runs a target -/

namespace Machine

variable {b : Build} {m : Machine} {env : Env} {a : Actor} {op : Operation}

/-- Steps of the machine under no condition. -/
abbrev Goes (b : Build) : Machine → Machine → Prop :=
  Relation.ReflTransGen (Moves (step b) fun _ _ => True)

theorem goes_step {l : Label} {m' : Machine} (h : m.step b l = some m') : Goes b m m' :=
  Relation.ReflTransGen.single ⟨l, trivial, h⟩

theorem set_set (m : Machine) (w w' : World) (a : Actor) (x y : Option (Operation × Dr Result)) :
    (m.set w a x).set w' a y = m.set w' a y := by
  simp [set]

theorem set_running (m : Machine) (w : World) {x : Option (Operation × Dr Result)}
    (h : m.running a = x) : m.set w a x = { m with world := w } := by
  subst h
  simp [set]

variable (env op) in
/-- A thread that runs alone the first program of a sequence makes steps of the machine. -/
theorem goes_run {α : Type} {p : Dr α} {f : α → Dr Result}
    (h : m.running a = some (op, p.bind f)) :
    Goes b m (m.set (World.run env a p m.world).2 a
      (some (op, (World.run env a p m.world).1.bind f))) := by
  have hstay : Goes b m (m.set m.world a (some (op, p.bind f))) := by
    rw [set_running m m.world h]
  induction p generalizing m with
  | ret r => exact hstay
  | stop e => exact hstay
  | act o k ih =>
    unfold World.run
    rw [Prog.exec_act]
    cases hp : m.world.perform env a o with
    | none => exact hstay
    | some rw' =>
      obtain ⟨r, w'⟩ := rw'
      have hstep : m.step b (.action a env) = some (m.set w' a (some (op, (k r).bind f))) := by
        simp [step, h, hp]
      have hrun : (m.set w' a (some (op, (k r).bind f))).running a = some (op, (k r).bind f) := by
        simp
      have hrest := ih r hrun (by rw [set_running _ _ hrun])
      rw [set_set] at hrest
      exact (goes_step hstep).trans hrest

variable (env op) in
/-- So does a thread that runs the rest of an operation alone. -/
theorem goes_rest {p : Dr Result} {x : Prog.Ending Halt Result} (h : m.running a = some (op, p))
    (hx : endingOf a (World.run env a p m.world).1 = some x) :
    Goes b m (m.set ((World.run env a p m.world).2.note (.ended a op x)) a none) := by
  have hrun := goes_run env (b := b) (m := m) (a := a) op (p := p)
    (f := .ret) (by rwa [Prog.bind_ret])
  rw [Prog.bind_ret] at hrun
  refine hrun.trans (goes_step (l := .finish a) ?_)
  simp [step, hx, set_set]

variable (op) in
theorem goes_start (hidle : m.running a = none) (hc : m.world.canStart a op = true) :
    Goes b m (m.set ((m.world.enter op).note (.started a op)) a (some (op, op.prog b))) :=
  goes_step (l := .start a op) (by simp [step, hidle, hc])

/-- So does a thread that runs a whole operation alone. -/
theorem goes_alone (hidle : m.running a = none) (hc : m.world.canStart a op = true)
    {x : Prog.Ending Halt Result} {w' : World} (h : m.world.alone b env a op = some (x, w')) :
    Goes b m { m with world := w' } := by
  obtain ⟨x', hx, heq⟩ := Option.map_eq_some_iff.mp h
  obtain ⟨rfl, rfl⟩ := Prod.mk.inj heq
  have hrest := goes_rest env op (b := b) (x := x')
    (m := m.set ((m.world.enter op).note (.started a op)) a (some (op, op.prog b)))
    (a := a) (p := op.prog b) (by simp) hx
  rw [set_set, set_running _ _ hidle] at hrest
  exact (goes_start op hidle hc).trans hrest

end Machine

namespace Target

variable {t t' : Target} {l : Activity}

/-- A query is one of the service's calls. -/
theorem isCall_of_isQuery {op : Operation} {env : Env} (h : op.isQuery env = true) :
    op.isCall = true := by
  cases op <;> first | rfl | cases h

/-- What a call does. -/
theorem step_call {op : Operation} {env : Env} (h : t.step b (.call op env) = some t') :
    t.waiting = none ∧ op.isQuery env = true ∧
      ∃ x w, t.world.alone b env .server op = some (x, w) ∧ t' = { t with world := w } := by
  simp only [step] at h
  split_ifs at h with hc
  obtain ⟨⟨x, w⟩, hal, rfl⟩ := Option.map_eq_some_iff.mp h
  exact ⟨hc.1, hc.2, x, w, hal, rfl⟩

/-- What resuming does. -/
theorem step_resume {S : EventTypes} (h : t.step b (.resume S) = some t') :
    t.waiting = none ∧ ∃ w, World.run {} .server (resumeUntilEvent b S)
      (t.world.note (.started .server (.executeUntilEvent S))) = (.ret (), w) ∧
      t' = ⟨w, some S, flushed t.world w t.cache⟩ := by
  simp only [step] at h
  split_ifs at h with hc
  split at h
  · rename_i w hrun
    exact ⟨hc, w, hrun, (Option.some.inj h).symm⟩
  · cases h

/-- What stopping does. -/
theorem step_stop {env : Env} (h : t.step b (.stop env) = some t') :
    ∃ S x, t.waiting = some S ∧
      endingOf .server (World.run env .server (untilEvent b) t.world).1 = some x ∧
      t' = { t with
        world := (World.run env .server (untilEvent b) t.world).2.note
          (.ended .server (.executeUntilEvent S) x)
        waiting := none } := by
  simp only [step] at h
  split at h
  · cases h
  · rename_i S hS
    obtain ⟨x, hx, rfl⟩ := Option.map_eq_some_iff.mp h
    exact ⟨S, x, hS, hx, rfl⟩

/-- What a callback does. -/
theorem step_callback {u : ℕ} {op : Operation} {env : Env}
    (h : t.step b (.callback u op env) = some t') :
    t.world.canStart (.app u) op = true ∧
      ∃ x w, t.world.alone b env (.app u) op = some (x, w) ∧
        t' = { t with world := w, cache := built op x ++ t.cache } := by
  simp only [step] at h
  split_ifs at h with hc
  obtain ⟨⟨x, w⟩, hal, rfl⟩ := Option.map_eq_some_iff.mp h
  exact ⟨hc, x, w, hal, rfl⟩

/-- What unloading does. -/
theorem step_unload {modinfo : Module} (h : t.step b (.unload modinfo) = some t') :
    t.world.suspended = false ∧
      t' = { t with world := { t.world with modules := t.world.modules.erase modinfo } } := by
  simp only [step] at h
  split_ifs at h with hs
  exact ⟨by simpa using hs, (Option.some.inj h).symm⟩

theorem machine_idle (h : t.waiting = none) : (t.machine b).running .server = none := by
  simp [machine, h]

/-- Between its steps only the server is in an operation. -/
theorem machine_set_server (t t' : Target) :
    (t.machine b).set t'.world .server
      (t'.waiting.map fun S => (.executeUntilEvent S, untilEvent b)) = t'.machine b := by
  unfold Machine.set machine
  congr 1
  funext a
  cases a with
  | server => rfl
  | app u => rfl

/-- Every step of a target is a run of the machine. -/
theorem machine_goes (h : t.step b l = some t') : Machine.Goes b (t.machine b) (t'.machine b) := by
  cases l with
  | call op env =>
    obtain ⟨hwait, hop, x, w, hal, rfl⟩ := step_call h
    exact Machine.goes_alone (m := t.machine b) (machine_idle hwait) (isCall_of_isQuery hop) hal
  | resume S =>
    obtain ⟨hwait, w, hrun, rfl⟩ := step_resume h
    have hstart := Machine.goes_start (.executeUntilEvent S) (b := b) (m := t.machine b)
      (machine_idle hwait) rfl
    rw [executeUntilEvent_prog] at hstart
    refine hstart.trans ?_
    have hgo := Machine.goes_run {} (.executeUntilEvent S) (b := b)
      (m := (t.machine b).set (t.world.note (.started .server (.executeUntilEvent S))) .server
        (some (.executeUntilEvent S, (resumeUntilEvent b S).bind fun _ => untilEvent b)))
      (Machine.set_running_self ..)
    rw [Machine.set_world, hrun, Machine.set_set] at hgo
    rw [← machine_set_server t ⟨w, some S, flushed t.world w t.cache⟩]
    exact hgo
  | stop env =>
    obtain ⟨S, x, hS, hx, rfl⟩ := step_stop h
    have hrest := Machine.goes_rest env (.executeUntilEvent S) (b := b) (m := t.machine b)
      (a := .server) (p := untilEvent b) (by simp [machine, hS]) hx
    rw [← machine_set_server t { t with
      world := (World.run env .server (untilEvent b) t.world).2.note
        (.ended .server (.executeUntilEvent S) x)
      waiting := none }]
    exact hrest
  | callback u op env =>
    obtain ⟨hc, x, w, hal, rfl⟩ := step_callback h
    exact Machine.goes_alone (m := t.machine b) rfl hc hal
  | unload modinfo =>
    obtain ⟨hs, rfl⟩ := step_unload h
    refine Machine.goes_step (l := .unload modinfo) ?_
    simp [Machine.step, machine, hs]
  | evict n =>
    obtain rfl := Option.some.inj h
    exact Relation.ReflTransGen.refl

/-- The server's start-up is a run of the machine. -/
theorem machine_boot (modules : List Module) :
    Machine.Goes b (Machine.boot b modules) ((boot b modules).machine b) := by
  have hrest := Machine.goes_rest {} .serverThread (b := b)
    (m := Machine.boot b modules) (a := .server) (p := Operation.serverThread.prog b)
    (x := .returned .void) rfl (by cases b <;> rfl)
  have heq : (Machine.boot b modules).set (boot b modules).world .server none =
      (boot b modules).machine b := by
    unfold Machine.set machine
    congr 1
    funext a
    cases a with
    | server => rfl
    | app u => rfl
  rw [← heq]
  exact hrest

/-- A run of a target is a run of the machine. -/
theorem machine_goes_run {cond : Target → Activity → Prop}
    (h : Relation.ReflTransGen (Moves (step b) cond) t t') :
    Machine.Goes b (t.machine b) (t'.machine b) := by
  induction h with
  | refl => exact Relation.ReflTransGen.refl
  | tail _ hstep ih =>
    obtain ⟨l, -, hs⟩ := hstep
    exact ih.trans (machine_goes hs)

/-- What a target reaches, the machine reaches. -/
theorem reachable_machine {cond : Target → Activity → Prop} (h : t.ReachedBy b cond) :
    (t.machine b).Reachable b := by
  obtain ⟨modules, h⟩ := h
  exact ⟨modules, (machine_boot modules).trans (machine_goes_run h)⟩

end Target

end ConcreteEval
