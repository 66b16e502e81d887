import ConcreteEval.Target

/-!
# What a target is for

`Book` is the purpose of the client : two tables of breakpoints over the loaded modules, the
stop events of the call that waits for an event, whether an event has been signalled, and the
blocks that a thread can enter. `Book.Step` says what every activity does to it, with the tables
changed as a whole.

`Target.book_step` proves that the client does this : every step of a target whose mutex is free
and whose application is suspended exactly between the calls of `executeUntilEvent`
(`Target.Ok`, which every target that is reached satisfies) is a step of its book.
-/

namespace ConcreteEval

structure Book where
  tables : Tables
  modules : List Module
  /-- The stop events of the `executeUntilEvent` that waits for an event. -/
  waiting : Option EventTypes
  signalled : Bool
  cache : List Block

/-- The tables after a call : an error leaves them as they are. -/
def Tables.serve (modules : List Module) (t : Tables) : Operation → Tables
  | .addBreakpoint bp => (t.add modules bp).toOption.getD t
  | .delBreakpoint bp => (t.delete modules bp).toOption.getD t
  | _ => t

section Serve

variable {modules : List Module} {t t' : Tables} {bp : WireBreakpoint} {msg : CxxString}

theorem Tables.serve_add (h : t.add modules bp = .ok t') :
    t.serve modules (.addBreakpoint bp) = t' := by
  rw [serve, h]
  rfl

theorem Tables.serve_add_error (h : t.add modules bp = .error msg) :
    t.serve modules (.addBreakpoint bp) = t := by
  rw [serve, h]
  rfl

theorem Tables.serve_delete (h : t.delete modules bp = .ok t') :
    t.serve modules (.delBreakpoint bp) = t' := by
  rw [serve, h]
  rfl

theorem Tables.serve_delete_error (h : t.delete modules bp = .error msg) :
    t.serve modules (.delBreakpoint bp) = t := by
  rw [serve, h]
  rfl

end Serve

namespace Book

/-- What each activity does to the book. -/
inductive Step (k : Book) : Activity → Book → Prop
  | call {op : Operation} {env : Env} (hw : k.waiting = none) (hop : op.isQuery env = true) :
    Step k (.call op env) { k with tables := k.tables.serve k.modules op }
  | resume {S : EventTypes} (hw : k.waiting = none) :
    Step k (.resume S) { k with waiting := some S, cache := [] }
  | stop {env : Env} (hw : k.waiting ≠ none) (hs : k.signalled = true) :
    Step k (.stop env) { k with waiting := none, signalled := false }
  | hit {S : EventTypes} {u : ℕ} {addr start endPc : AppPc} {env : Env}
      (hw : k.waiting = some S) :
    Step k (.callback u (.cleanCall (.updateFastforwardCount addr start endPc)) env) { k with
      tables := k.tables.hit addr
      signalled := k.signalled ||
        (k.tables.active.find? addr = some 1 && EventType.breakpoint ∈ S) }
  | relevant {S : EventTypes} {u : ℕ} {start endPc : AppPc} {env : Env}
      (hw : k.waiting = some S) :
    Step k (.callback u (.cleanCall (.relevantBlockCleanCall start endPc)) env)
      { k with signalled := k.signalled || EventType.relevantBlock ∈ S }
  | load {S : EventTypes} {u : ℕ} {modinfo : Module} {env : Env} {t : Tables}
      (hw : k.waiting = some S) (ht : k.tables.load modinfo = some t) :
    Step k (.callback u (.eventModuleLoaded modinfo) env)
      { k with tables := t, modules := modinfo :: k.modules }
  | build {S : EventTypes} {u : ℕ} {bb : List Instr} {first last : Instr} {env : Env}
      (hw : k.waiting = some S) (hfirst : bb.head? = some first)
      (hlast : bb.getLast? = some last) :
    Step k (.callback u (.eventBasicBlock bb) env) { k with
      cache := ⟨bb, World.instrumented k.tables.active S bb first.pc
        (last.pc + BitVec.ofNat 64 last.length)⟩ :: k.cache }
  | unload {modinfo : Module} (hw : k.waiting ≠ none) :
    Step k (.unload modinfo) { k with modules := k.modules.erase modinfo }
  | evict {n : ℕ} : Step k (.evict n) { k with cache := k.cache.eraseIdx n }

end Book

namespace World

variable {env : Env} {a : Actor} {w w' w₁ : World} {b : Build} {op : Operation}

/-- An operation that yields its end runs alone to this end. -/
theorem alone_of_yields {q : Dr Result} (hy : Yields env a (w.enter op) (op.prog b) q w₁)
    (hacts : w.Acts a) :
    ∃ w', w₁.Logs w' ∧ w.alone b env a op =
      (endingOf a q).map fun x => (x, w'.note (.ended a op x)) := by
  have hlogs : (w.enter op).Logs ((w.enter op).note (.started a op)) := ⟨_, rfl⟩
  obtain ⟨w', hrun, hl⟩ := hy (by simpa [Acts] using hacts) _ hlogs
  refine ⟨w', hl, ?_⟩
  unfold alone
  simp only [hrun]

theorem alone_eq_some {q : Dr Result} {x : Prog.Ending Halt Result}
    (hy : Yields env a (w.enter op) (op.prog b) q w₁) (hacts : w.Acts a)
    (hx : endingOf a q = some x) : ∃ w', w.alone b env a op = some (x, w') ∧ w₁.Logs w' := by
  obtain ⟨w', hl, hal⟩ := alone_of_yields hy hacts
  exact ⟨w'.note (.ended a op x), by rw [hal, hx, Option.map_some], hl.note _⟩

theorem alone_logs {q : Dr Result} {x : Prog.Ending Halt Result}
    (hy : Yields env a (w.enter op) (op.prog b) q w₁) (hacts : w.Acts a)
    (h : w.alone b env a op = some (x, w')) : endingOf a q = some x ∧ w₁.Logs w' := by
  obtain ⟨w₁', hl, hal⟩ := alone_of_yields hy hacts
  rw [hal] at h
  obtain ⟨x', hx, heq⟩ := Option.map_eq_some_iff.mp h
  obtain ⟨rfl, rfl⟩ := Prod.mk.inj heq
  exact ⟨hx, hl.note _⟩

/-- An operation that waits for the mutex first runs alone only where it gets it. -/
theorem free_of_alone {k : Unit → Dr Result} {x : Prog.Ending Halt Result}
    (hop : op.prog b = .act .drMutexLock k) (h : w.alone b env a op = some (x, w')) :
    w.mutex = none ∧ w.Acts a := by
  by_contra hnot
  have hwait : World.run env a (op.prog b) ((w.enter op).note (.started a op)) =
      (.act .drMutexLock k, (w.enter op).note (.started a op)) := by
    rw [hop]
    unfold World.run
    rw [Prog.exec_act]
    rcases not_and_or.mp hnot with hm | hs
    · simp [World.perform, World.answer, hm]
    · have hsus : w.suspended = true ∧ a ≠ .server := by simpa [Acts, not_or] using hs
      simp [World.perform, hsus]
  simp only [alone, hwait] at h
  cases h

/-- A call of `op` returns and leaves these tables, or it raises and leaves the world as it is. -/
def Serves (w : World) (b : Build) (env : Env) (op : Operation) :
    Except CxxString Tables → Prop
  | .ok t => ∃ w', w.alone b env .server op = some (.returned .void, w') ∧ (w.stores t).Logs w'
  | .error msg => ∃ w', w.alone b env .server op =
    some (.stopped (.thrown (.exception msg)), w') ∧ w.Logs w'

section Serves

variable {r : Except CxxString Tables}

theorem serves_of_yields {p : Dr Unit} (hop : op.prog b = p.bind fun _ => .ret .void)
    (henter : w.enter op = w)
    (h : match r with
      | .ok t => Yields env .server w p (.ret ()) (w.stores t)
      | .error msg => Yields env .server w p (throwException msg) w) : w.Serves b env op r := by
  cases r with
  | ok t =>
    have hprog : Yields env .server (w.enter op) (op.prog b) (.ret .void) (w.stores t) := by
      rw [henter, hop]
      exact .bind h (fun _ => Or.inr rfl) (.ret _)
    exact alone_eq_some hprog (Or.inr rfl) rfl
  | error msg =>
    have hprog : Yields env .server (w.enter op) (op.prog b)
        (.stop (.thrown (.exception msg))) w := by
      rw [henter, hop]
      exact .bind_stop h
    exact alone_eq_some hprog (Or.inr rfl) rfl

variable (env b) in
/-- A call of `addBreakpoint` returns with the breakpoint added, or raises. -/
theorem serves_addBreakpoint (hm : w.mutex = none) (bp : WireBreakpoint) :
    w.Serves b env (.addBreakpoint bp) (w.globals.tables.add w.modules bp) :=
  serves_of_yields rfl rfl (yields_addBreakpoint env .server hm bp)

variable (env b) in
/-- A call of `delBreakpoint` returns with the breakpoint deleted, or raises. -/
theorem serves_delBreakpoint (hm : w.mutex = none) (bp : WireBreakpoint) :
    w.Serves b env (.delBreakpoint bp) (w.globals.tables.delete w.modules bp) :=
  serves_of_yields rfl rfl (yields_delBreakpoint env .server b hm bp)

end Serves

variable (env b) in
/-- A call of `getBreakpoints` returns the active breakpoints. -/
theorem alone_getBreakpoints (hm : w.mutex = none) :
    ∃ w', w.alone b env .server .getBreakpoints =
      some (.returned (.breakpoints (listed w.globals.breakpoints)), w') ∧ w.Logs w' :=
  alone_eq_some (.bind (yields_getBreakpoints hm) id (.ret _)) (Or.inr rfl) rfl

theorem endingOf_app_stop (u : ℕ) (e : Halt) : endingOf (.app u) (.stop e) = none := by
  cases e <;> rfl

variable (env b) in
/-- The load of a module returns with the module activated, or does not end. -/
theorem alone_eventModuleLoaded (u : ℕ) (m : Module) (hm : w.mutex = none)
    (hs : w.suspended = false) :
    match w.globals.tables.load m with
    | some t => ∃ w', w.alone b env (.app u) (.eventModuleLoaded m) = some (.returned .void, w') ∧
      ((w.enter (.eventModuleLoaded m)).stores t).Logs w'
    | none => w.alone b env (.app u) (.eventModuleLoaded m) = none := by
  have hload := yields_eventModuleLoaded env (.app u) b
    (w := w.enter (.eventModuleLoaded m)) rfl hm
  simp only [enter_globals] at hload
  cases ht : w.globals.tables.load m with
  | some t =>
    simp only [ht] at hload
    exact alone_eq_some (.bind hload id (.ret _)) (Or.inl hs) rfl
  | none =>
    simp only [ht] at hload
    obtain ⟨e, w₁, hload⟩ := hload
    have hstop : Yields env (.app u) (w.enter (.eventModuleLoaded m))
        ((Operation.eventModuleLoaded m).prog b) (.stop e) w₁ := .bind_stop hload
    obtain ⟨w', -, hal⟩ := alone_of_yields hstop (Or.inl hs)
    exact hal.trans (by rw [endingOf_app_stop]; rfl)

/-- Come to an end and leave the world as it is. -/
def Looks {α : Type} (env : Env) (a : Actor) (w : World) (p : Dr α) : Prop :=
  (∃ r, Yields env a w p (.ret r) w) ∨ ∃ e, Yields env a w p (.stop e) w

theorem Looks.yields {α : Type} {p : Dr α} {f : α → Result} (h : Looks env a w p) :
    ∃ q, Yields env a w (p.bind fun r => .ret (f r)) q w := by
  rcases h with ⟨r, h⟩ | ⟨e, h⟩
  · exact ⟨_, .bind h id (.ret (f r))⟩
  · exact ⟨_, .bind_stop h⟩

theorem looks_getContext (hm : w.mutex = none) : Looks env a w getContext := by
  cases hc : w.globals.stoppedContext with
  | none =>
    refine Or.inr ⟨.thrown (.exception "Unable to locate stopped context.".toList), ?_⟩
    refine .step (answer_lock hm) id (.step rfl id ?_)
    exact yields_check_fails (by simp [hc]) hm
  | some c =>
    have hrun : ∃ r, Yields env a w getContext (.ret r) { w with mutex := none } := by
      apply Exists.intro
      refine .step (answer_lock hm) id (.step rfl id (yields_check (by simp [hc]) ?_))
      simp only [hc]
      exact .step rfl id (.ret _)
    rw [free_eq hm] at hrun
    exact Or.inl hrun

theorem looks_getCodeBlock (hm : w.mutex = none) (hbytes : env.bytes.isSome = true) :
    Looks env a w getCodeBlock := by
  obtain ⟨bytes, hbytes⟩ := Option.isSome_iff_exists.mp hbytes
  cases hc : w.globals.stoppedBlock with
  | none =>
    refine Or.inr ⟨.thrown (.exception "Unable to locate stopped block.".toList), ?_⟩
    refine .step (answer_lock hm) id (.step rfl id ?_)
    exact yields_check_fails (by simp [hc]) hm
  | some block => exact Or.inl ⟨_, yields_getCodeBlock hm hc hbytes⟩

theorem stores_tables (hm : w.mutex = none) : w.stores w.globals.tables = w :=
  free_eq hm

variable (env a b) in
/-- A query serves the tables. -/
theorem yields_query (hq : op.isQuery env = true) (hm : w.mutex = none) :
    ∃ q, Yields env a w (op.prog b) q
      (w.stores (w.globals.tables.serve w.modules op)) := by
  cases op with
  | addBreakpoint bp =>
    have hadd := yields_addBreakpoint env a hm bp
    cases ht : w.globals.tables.add w.modules bp with
    | ok t =>
      rw [ht] at hadd
      rw [Tables.serve_add ht]
      exact ⟨_, .bind hadd id (.ret _)⟩
    | error msg =>
      rw [ht] at hadd
      rw [Tables.serve_add_error ht, stores_tables hm]
      exact ⟨_, .bind_stop hadd⟩
  | delBreakpoint bp =>
    have hdel := yields_delBreakpoint env a b hm bp
    cases ht : w.globals.tables.delete w.modules bp with
    | ok t =>
      rw [ht] at hdel
      rw [Tables.serve_delete ht]
      exact ⟨_, .bind hdel id (.ret _)⟩
    | error msg =>
      rw [ht] at hdel
      rw [Tables.serve_delete_error ht, stores_tables hm]
      exact ⟨_, .bind_stop hdel⟩
  | getBreakpoints =>
    change ∃ q, Yields env a w _ q (w.stores w.globals.tables)
    rw [stores_tables hm]
    exact ⟨_, .bind (yields_getBreakpoints hm) id (.ret _)⟩
  | getCodeBlock =>
    change ∃ q, Yields env a w _ q (w.stores w.globals.tables)
    rw [stores_tables hm]
    exact (looks_getCodeBlock hm hq).yields
  | getContext =>
    change ∃ q, Yields env a w _ q (w.stores w.globals.tables)
    rw [stores_tables hm]
    exact (looks_getContext hm).yields
  | _ => cases hq

end World

namespace Target

/-- The book of a target. -/
def book (t : Target) : Book :=
  ⟨t.world.globals.tables, t.world.modules, t.waiting, t.world.event, t.cache⟩

@[simp] theorem book_tables (t : Target) : t.book.tables = t.world.globals.tables :=
  rfl

@[simp] theorem book_modules (t : Target) : t.book.modules = t.world.modules :=
  rfl

@[simp] theorem book_waiting (t : Target) : t.book.waiting = t.waiting :=
  rfl

@[simp] theorem book_signalled (t : Target) : t.book.signalled = t.world.event :=
  rfl

@[simp] theorem book_cache (t : Target) : t.book.cache = t.cache :=
  rfl

/-- Between two steps : the mutex is free, and the application is suspended exactly while no
call waits for an event. -/
structure Ok (t : Target) : Prop where
  mutex : t.world.mutex = none
  suspended : t.world.suspended = t.waiting.isNone
  params : t.world.globals.suspendParams.isSome = t.waiting.isNone
  stopEvents : ∀ S, t.waiting = some S → t.world.globals.stopEvents = some S

/-- The mutex is free, and the application as suspended as before, for the same events. -/
structure Calm (w w₁ : World) : Prop where
  mutex : w₁.mutex = none
  suspended : w₁.suspended = w.suspended
  params : w₁.globals.suspendParams = w.globals.suspendParams
  stopEvents : w₁.globals.stopEvents = w.globals.stopEvents

variable {t t' : Target} {env : Env} {a : Actor} {op : Operation} {w w₁ : World}

theorem calm_stores (w : World) (tb : Tables) : Calm w (w.stores tb) :=
  ⟨rfl, rfl, rfl, rfl⟩

theorem Calm.raises (h : Calm w w₁) (e : EventType) (start endPc : AppPc) (S : EventTypes) :
    Calm w (w₁.raises env e start endPc S) := by
  refine ⟨?_, ?_, ?_, ?_⟩
  · simpa using h.mutex
  · simpa using h.suspended
  · simpa using h.params
  · simpa using h.stopEvents

theorem Ok.calm (h : t.Ok) (hw : t'.waiting = t.waiting) (hc : Calm t.world t'.world) :
    t'.Ok where
  mutex := hc.mutex
  suspended := by rw [hc.suspended, hw, h.suspended]
  params := by rw [hc.params, hw, h.params]
  stopEvents S hS := by rw [hc.stopEvents, h.stopEvents S (hw ▸ hS)]

theorem ok_boot (modules : List Module) : (boot .debug modules).Ok :=
  ⟨rfl, rfl, rfl, nofun⟩

/-- An operation that runs alone to a calm world keeps the target as it should be, and its book
shows what the world shows. -/
theorem Ok.alone {x : Prog.Ending Halt Result} {q : Dr Result} {w' : World}
    (h : t.Ok) (cache : List Block) (hal : t.world.alone .debug env a op = some (x, w'))
    (hy : World.Yields env a (t.world.enter op) (op.prog .debug) q w₁) (hacts : t.world.Acts a)
    (hc : Calm t.world w₁) :
    endingOf a q = some x ∧ Ok { t with world := w', cache := cache } ∧
      book { t with world := w', cache := cache } =
        ⟨w₁.globals.tables, w₁.modules, t.waiting, w₁.event, cache⟩ := by
  obtain ⟨hx, l, rfl⟩ := World.alone_logs hy hacts hal
  exact ⟨hx, h.calm rfl ⟨hc.mutex, hc.suspended, hc.params, hc.stopEvents⟩, rfl⟩

/-- A call changes the book as `Tables.serve` says. -/
theorem book_call (h : t.Ok) (hs : t.step .debug (.call op env) = some t') :
    t'.Ok ∧ t.book.Step (.call op env) t'.book := by
  obtain ⟨hwait, hq, x, w', hal, rfl⟩ := step_call hs
  have henter : t.world.enter op = t.world := by
    cases op <;> first | rfl | cases hq
  obtain ⟨q, hy⟩ := World.yields_query env .server .debug hq h.mutex
  obtain ⟨-, hok, hb⟩ := h.alone t.cache hal (by rwa [henter]) (Or.inr rfl)
    (calm_stores _ _)
  refine ⟨hok, ?_⟩
  rw [hb]
  exact .call hwait hq

/-- The application runs, for the stop events `S`. -/
structure Runs (t : Target) (S : EventTypes) : Prop where
  ok : t.Ok
  acts : t.world.suspended = false
  waiting : t.waiting = some S

theorem Runs.stopEvents {S : EventTypes} (h : t.Runs S) :
    t.world.globals.stopEvents = some S :=
  h.ok.stopEvents S h.waiting

theorem Ok.runs {u : ℕ} (h : t.Ok) (hc : t.world.canStart (.app u) op = true) :
    ∃ S, t.Runs S := by
  obtain ⟨-, hacts⟩ := canStart_app hc
  obtain ⟨S, hS⟩ : ∃ S, t.waiting = some S := by
    rw [← Option.isSome_iff_exists, ← Option.isNone_eq_false_iff, ← h.suspended, hacts]
  exact ⟨S, h, hacts, hS⟩

variable {S : EventTypes} {u : ℕ} {x : Prog.Ending Halt Result} {w' : World}

variable (env) in
/-- A hit counts the tables down, and may raise the event. -/
theorem yields_hit (h : t.Runs S) (u : ℕ) (addr start endPc : AppPc) :
    ∃ w₁, World.Yields env (.app u) t.world (updateFastforwardCount .debug addr start endPc)
        (.ret ()) w₁ ∧ Calm t.world w₁ ∧
      w₁.globals.tables = t.book.tables.hit addr ∧ w₁.modules = t.world.modules ∧
      w₁.event = (t.world.event ||
        (t.book.tables.active.find? addr = some 1 && EventType.breakpoint ∈ S)) := by
  have hm := h.ok.mutex
  have hone : ∀ n : SizeT, n - 1 = 0 ↔ n = 1 := fun n => by bv_omega
  cases hn : t.world.globals.breakpoints.find? addr with
  | none =>
    refine ⟨_, World.yields_updateFastforwardCount_stale .debug hm hn start endPc,
      ⟨hm, rfl, rfl, rfl⟩, ?_, rfl, ?_⟩
    · simp [book, Tables.hit, hn]
    · simp [book, hn]
  | some n =>
    by_cases hn1 : n - 1 = 0
    · refine ⟨_, World.yields_updateFastforwardCount_fire .debug hm hn hn1 h.stopEvents start endPc,
        Calm.raises (calm_stores _ _) _ _ _ _, ?_, ?_, ?_⟩
      · rw [World.raises_tables]
        rfl
      · rw [World.raises_modules]
        rfl
      · rw [World.raises_event]
        simp [World.stores, book, hn, (hone n).mp hn1]
    · refine ⟨_, World.yields_updateFastforwardCount_count .debug hm hn hn1 start endPc,
        calm_stores _ _, rfl, rfl, ?_⟩
      have hne : n ≠ 1#64 := mt (hone n).mpr hn1
      simp [World.stores, book, hn, hne]

theorem book_hit {addr start endPc : AppPc} (h : t.Runs S)
    (hal : t.world.alone .debug env (.app u)
      (.cleanCall (.updateFastforwardCount addr start endPc)) = some (x, w')) :
    ({ t with world := w' } : Target).Ok ∧
      t.book.Step (.callback u (.cleanCall (.updateFastforwardCount addr start endPc)) env)
        ({ t with world := w' } : Target).book := by
  obtain ⟨w₁, hy, hcalm, htables, hmodules, hevent⟩ :=
    yields_hit env h u addr start endPc
  obtain ⟨-, hok, hb⟩ := h.ok.alone t.cache hal
    (.bind hy (fun _ => Or.inl (hcalm.suspended.trans h.acts)) (.ret _)) (Or.inl h.acts) hcalm
  refine ⟨hok, ?_⟩
  rw [hb, htables, hmodules, hevent]
  exact .hit h.waiting

theorem book_relevant {start endPc : AppPc} (h : t.Runs S)
    (hal : t.world.alone .debug env (.app u)
      (.cleanCall (.relevantBlockCleanCall start endPc)) = some (x, w')) :
    ({ t with world := w' } : Target).Ok ∧
      t.book.Step (.callback u (.cleanCall (.relevantBlockCleanCall start endPc)) env)
        ({ t with world := w' } : Target).book := by
  have hy := World.yields_relevantBlockCleanCall env (.app u) h.stopEvents start endPc
  have hcalm : Calm t.world (t.world.raises env .relevantBlock start endPc S) :=
    Calm.raises ⟨h.ok.mutex, rfl, rfl, rfl⟩ _ _ _ _
  obtain ⟨-, hok, hb⟩ := h.ok.alone t.cache hal
    (.bind hy (fun _ => Or.inl (hcalm.suspended.trans h.acts)) (.ret _)) (Or.inl h.acts) hcalm
  refine ⟨hok, ?_⟩
  rw [hb, World.raises_tables, World.raises_modules, World.raises_event]
  exact .relevant h.waiting

theorem book_load {m : Module} (h : t.Runs S)
    (hal : t.world.alone .debug env (.app u) (.eventModuleLoaded m) = some (x, w')) :
    ({ t with world := w' } : Target).Ok ∧
      t.book.Step (.callback u (.eventModuleLoaded m) env)
        ({ t with world := w' } : Target).book := by
  have hload := World.alone_eventModuleLoaded env .debug u m h.ok.mutex h.acts
  cases ht : t.world.globals.tables.load m with
  | none =>
    simp only [ht] at hload
    cases hload.symm.trans hal
  | some tb =>
    simp only [ht] at hload
    obtain ⟨w₁, hal', l, rfl⟩ := hload
    obtain ⟨-, rfl⟩ := Prod.mk.inj (Option.some.inj (hal'.symm.trans hal))
    exact ⟨h.ok.calm rfl ⟨rfl, rfl, rfl, rfl⟩, .load h.waiting ht⟩

theorem book_build {bb : List Instr} (h : t.Runs S)
    (hal : t.world.alone .debug env (.app u) (.eventBasicBlock bb) = some (x, w')) :
    ({ t with world := w', cache := built (.eventBasicBlock bb) x ++ t.cache } : Target).Ok ∧
      t.book.Step (.callback u (.eventBasicBlock bb) env) ({ t with
        world := w', cache := built (.eventBasicBlock bb) x ++ t.cache } : Target).book := by
  cases bb with
  | nil => cases hal
  | cons first bb =>
    obtain ⟨last, hlast⟩ : ∃ last, (first :: bb).getLast? = some last :=
      ⟨_, List.getLast?_eq_some_getLast (List.cons_ne_nil first bb)⟩
    have hy := World.yields_eventBasicBlock env (.app u) h.ok.mutex
      (List.head?_cons) hlast h.stopEvents
    obtain ⟨hx, hok, hb⟩ := h.ok.alone (built (.eventBasicBlock (first :: bb)) x ++ t.cache) hal
      (.bind hy id (.ret _)) (Or.inl h.acts) ⟨h.ok.mutex, rfl, rfl, rfl⟩
    obtain rfl := Option.some.inj hx
    refine ⟨hok, ?_⟩
    rw [hb]
    exact .build h.waiting List.head?_cons hlast

/-- Callbacks run while the application does. -/
theorem book_callback (h : t.Ok) (hs : t.step .debug (.callback u op env) = some t') :
    t'.Ok ∧ t.book.Step (.callback u op env) t'.book := by
  obtain ⟨hc, x, w', hal, rfl⟩ := step_callback hs
  obtain ⟨S, hS⟩ := h.runs hc
  cases op with
  | cleanCall c =>
    cases c with
    | updateFastforwardCount addr start endPc => exact book_hit hS hal
    | relevantBlockCleanCall start endPc => exact book_relevant hS hal
  | eventModuleLoaded modinfo => exact book_load hS hal
  | eventBasicBlock bb => exact book_build hS hal
  | _ => cases hc

/-- A resume asks for a flush. -/
theorem flushes_resumeUntilEvent {params : SuspendParams} (S : EventTypes) (hm : w.mutex = none)
    (hp : w.globals.suspendParams = some params) (hl : w.Logs w₁) :
    w₁.flushes < (World.run {} .server (resumeUntilEvent .debug S) w₁).2.flushes := by
  have hacts := World.performs_resumeUntilEvent {} S hm hp (Or.inr rfl) w₁ hl
  unfold World.flushes
  rw [World.log_run, List.countP_append, List.countP_reverse, Nat.lt_add_left_iff_pos,
    List.countP_pos_iff]
  have hflush : Op.drDelayFlushRegion ∈ ((resumeUntilEvent .debug S).trace
      (fun o w => w.perform {} .server o) w₁).map Sigma.fst := by
    rw [hacts]
    simp
  obtain ⟨x, hx, hfst⟩ := List.mem_map.mp hflush
  exact ⟨_, List.mem_map_of_mem hx, by rw [hfst]⟩

/-- Resuming lets the application run, for the stop events it is given. -/
theorem book_resume (h : t.Ok) (hs : t.step .debug (.resume S) = some t') :
    t'.Ok ∧ t.book.Step (.resume S) t'.book := by
  obtain ⟨hwait, w, hrun, rfl⟩ := step_resume hs
  obtain ⟨params, hp⟩ : ∃ params, t.world.globals.suspendParams = some params := by
    rw [← Option.isSome_iff_exists, h.params, hwait]
    rfl
  have hlogs : t.world.Logs (t.world.note (.started .server (.executeUntilEvent S))) := ⟨_, rfl⟩
  have hflush := flushes_resumeUntilEvent S h.mutex hp hlogs
  rw [hrun] at hflush
  have hcache : flushed t.world w t.cache = [] := if_pos hflush
  obtain ⟨w', hrun', l, rfl⟩ := World.yields_resumeUntilEvent {} (S := S) h.mutex hp
    (Or.inr rfl) _ hlogs
  obtain ⟨-, rfl⟩ := Prod.mk.inj (hrun.symm.trans hrun')
  rw [hcache]
  exact ⟨⟨h.mutex, rfl, rfl, fun S' hS' => hS'⟩, .resume hwait⟩

/-- What stopping leaves, once an event has been signalled. -/
theorem Ok.stop_eq (h : t.Ok) (hs : t.step .debug (.stop env) = some t') :
    t.waiting ≠ none ∧ t.world.event = true ∧ ∃ l, t' = { t with
      world := { t.world.stops env with event := false, log := l }
      waiting := none } := by
  obtain ⟨S, x, hwait, hx, rfl⟩ := step_stop hs
  have hp : t.world.globals.suspendParams = none := by
    rw [← Option.isNone_iff_eq_none, ← Option.isSome_eq_false_iff, h.params, hwait]
    rfl
  have he : t.world.event = true := by
    by_contra he
    have hrun : World.run env .server (untilEvent .debug) t.world =
        (untilEvent .debug, t.world) := by
      unfold World.run untilEvent stopAtEvent
      simp only [Prog.bind_eq, drEventWait_bind, Prog.act_bind, Prog.exec_act]
      simp [World.perform, World.answer, he]
    rw [hrun] at hx
    cases hx
  obtain ⟨q, hy⟩ : ∃ q, World.Yields env .server t.world (untilEvent .debug) q
      { t.world.stops env with event := false } := by
    have hy := World.yields_stopAtEvent env he hp h.mutex
    cases hc : t.world.globals.stoppedContext with
    | some c =>
      simp only [hc] at hy
      exact ⟨_, .bind hy (fun _ => Or.inr rfl) (.ret _)⟩
    | none =>
      simp only [hc] at hy
      exact ⟨_, .bind_stop hy⟩
  obtain ⟨w', hrun, l, rfl⟩ := hy (Or.inr rfl) t.world ⟨_, rfl⟩
  rw [hrun]
  exact ⟨by simp [hwait], he, _, rfl⟩

/-- Stopping suspends the application. -/
theorem book_stop (h : t.Ok) (hs : t.step .debug (.stop env) = some t') :
    t'.Ok ∧ t.book.Step (.stop env) t'.book := by
  obtain ⟨hwait, he, l, rfl⟩ := h.stop_eq hs
  exact ⟨⟨h.mutex, rfl, rfl, nofun⟩, .stop hwait he⟩

/-- Every step of a target is a step of its book. -/
theorem book_step {l : Activity} (h : t.Ok) (hs : t.step .debug l = some t') :
    t'.Ok ∧ t.book.Step l t'.book := by
  cases l with
  | call op env => exact book_call h hs
  | resume S => exact book_resume h hs
  | stop env => exact book_stop h hs
  | callback u op env => exact book_callback h hs
  | unload modinfo =>
    obtain ⟨hsus, rfl⟩ := step_unload hs
    have hwait : t.waiting ≠ none := by
      rw [h.suspended, Option.isNone_eq_false_iff] at hsus
      exact Option.isSome_iff_ne_none.mp hsus
    exact ⟨h.calm rfl ⟨h.mutex, rfl, rfl, rfl⟩, .unload hwait⟩
  | evict n =>
    obtain rfl := Option.some.inj hs
    exact ⟨h.calm rfl ⟨h.mutex, rfl, rfl, rfl⟩, .evict⟩

/-- Every target that is reached is as it should be. -/
theorem ReachedBy.ok {cond : Target → Activity → Prop} (h : t.ReachedBy .debug cond) : t.Ok := by
  obtain ⟨modules, h⟩ := h
  exact invariant_of_moves (ok_boot modules) (fun _ _ _ hok _ hs => (book_step hok hs).1) h

end Target

end ConcreteEval
