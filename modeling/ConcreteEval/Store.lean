import ConcreteEval.Connection
import ConcreteEval.Serial

/-!
# One store of breakpoints

What the callers have to do with is a store of breakpoints that takes one operation after the other
and answers each call from what it has then (`Store`). There is no such store : a call is a series
of actions of the server thread, with the hits and the load events of any number of application
threads in between, and its answer goes over a connection that other callers read from too.

But there is an order in which a store would do the same. It is the order of the turns in the
history of the run, in which the operations have unlocked the mutex (`unlocked`). In every run in
which the server unlocks only what it has, the store that takes them in this order, with the modules
that were loaded at each turn, gives the calls that have ended their answers, the callers have got
these answers, and the tables are those of the store whenever the mutex is free
(`Connection.Reachable.one_store`).
-/

namespace ConcreteEval

/-! ## The store -/

/-- The tables of the store, the turns that it has taken, and the calls that it has answered, in
their order. -/
inductive Store : Tables → List Turn → List EndedCall → Prop
  | empty : Store {} [] []
  | call {turns calls} {turn : Turn} {e : EndedCall} (h : Store turn.found turns calls)
    (hserver : turn.actor = .server) (hop : e.operation = turn.operation)
    (heffect : turn.operation.Effect turn.modules turn.known turn.found turn.now)
    (hanswer : turn.operation.Answer turn.modules turn.found e.result) :
    Store turn.now (turns ++ [turn]) (calls ++ [e])
  /-- A call that has no turn : any tables would give the answer. -/
  | reject {t turns calls} {e : EndedCall} (h : Store t turns calls)
    (hanswer : ∀ t', e.operation.Answer e.modules t' e.result) : Store t turns (calls ++ [e])
  | app {turns calls} {turn : Turn} (h : Store turn.found turns calls)
    (happ : turn.actor ≠ .server)
    (heffect : turn.operation.Effect turn.modules turn.known turn.found turn.now) :
    Store turn.now (turns ++ [turn]) calls

/-- A call that the store takes gets an answer. -/
theorem Operation.exists_answer (modules : List Module) (t : Tables) {op : Operation}
    (h : op.isCall = true) : ∃ x, op.Answer modules t x := by
  cases op with
  | addBreakpoint bp => exact ⟨_, rfl⟩
  | delBreakpoint bp => exact ⟨_, rfl⟩
  | getBreakpoints => exact ⟨_, rfl⟩
  | executeUntilEvent S => exact ⟨.returned .void, trivial⟩
  | getCodeBlock => exact ⟨.returned .void, trivial⟩
  | getContext => exact ⟨.returned .void, trivial⟩
  | _ => cases h

/-- The modules matter to the answer only where an address is resolved. -/
theorem Operation.answer_congr {modules modules' : List Module} {t : Tables}
    {x : Prog.Ending Halt Result} {op : Operation}
    (h : op.resolves = true → modules' = modules) (hx : op.Answer modules' t x) :
    op.Answer modules t x := by
  cases op with
  | addBreakpoint bp => rwa [← h rfl]
  | delBreakpoint bp => rwa [← h rfl]
  | _ => exact hx

/-! ## The order of the operations -/

/-- The operation that the thread has started last. -/
def lastStarted (a : Actor) : List Mark → Option Operation
  | [] => none
  | .started c op :: l => if c = a then some op else lastStarted a l
  | _ :: l => lastStarted a l

/-- The operations in the order in which they have unlocked the mutex, and their threads. -/
def unlocked : List Mark → List (Actor × Operation)
  | [] => []
  | .did a .drMutexUnlock :: l => unlocked l ++ ((lastStarted a l).map fun op => (a, op)).toList
  | _ :: l => unlocked l

theorem unlocked_did {a : Actor} {o : Op} (ho : o ≠ .drMutexUnlock) (l : List Mark) :
    unlocked (.did a o :: l) = unlocked l := by
  cases o with
  | drMutexUnlock => exact absurd rfl ho
  | _ => rfl

/-- Whose operation it is. -/
def Turn.by (turn : Turn) : Actor × Operation :=
  (turn.actor, turn.operation)

/-- The call, and how it has ended. -/
def EndedCall.ending (e : EndedCall) : Operation × Prog.Ending Halt Result :=
  (e.operation, e.result)

namespace Machine

variable {m m' : Machine} {h h' : History} {l : Label}

/-- The history has the unlocks and the endings of the log. -/
structure Logged (m : Machine) (h : History) : Prop where
  starts : ∀ a op p, m.running a = some (op, p) →
    op = .serverThread ∨ lastStarted a m.world.log = some op
  turns : h.turns.map Turn.by = unlocked m.world.log
  ends : h.ends.map EndedCall.ending = endedCalls m.world.log

theorem logged_boot (modules : List Module) :
    (boot .debug modules).Logged (.boot modules) where
  starts a op p hrun := by
    simp only [boot] at hrun
    split_ifs at hrun
    obtain ⟨rfl, -⟩ := Prod.mk.inj (Option.some.inj hrun)
    exact Or.inl rfl
  turns := rfl
  ends := rfl

/-- A step keeps what the threads are in. -/
theorem Logged.starts_step {b : Build} (hlog : m.Logged h) (hs : m.step b l = some m') {a : Actor}
    {op : Operation} {p : Dr Result} (hrun : m'.running a = some (op, p)) :
    op = .serverThread ∨ lastStarted a m'.world.log = some op := by
  rcases running_of_step hs hrun with ⟨p', hold⟩ | rfl
  · refine (hlog.starts a op p' hold).imp_right fun hlast => ?_
    rw [← hlast]
    cases l with
    | start c op' =>
      obtain ⟨hidle, -, rfl⟩ := step_start hs
      have hne : c ≠ a := by
        rintro rfl
        cases hidle.symm.trans hold
      simp [lastStarted, hne]
    | action c env =>
      obtain ⟨op', o, k, r, w', -, hp, rfl⟩ := step_action hs
      obtain ⟨-, w₁, ha, rfl⟩ := World.perform_eq_some hp
      simp [lastStarted, World.answer_log ha]
    | finish c =>
      obtain ⟨op', p', x, -, -, rfl⟩ := step_finish hs
      simp [lastStarted]
    | unload M =>
      obtain ⟨-, rfl⟩ := step_unload hs
      rfl
  · obtain ⟨-, -, rfl⟩ := step_start hs
    exact Or.inr (by simp [lastStarted])

/-- What unlocks has its turn. -/
theorem Logged.turns_next (hlog : m.Logged h) (hin : m.InSections h) (hown : m.UnlocksOwn l)
    (hs : m.step .debug l = some m') :
    (h.next m l m').turns.map Turn.by = unlocked m'.world.log := by
  have hadds := h.adds_next hs
  generalize h.next m l m' = h' at hadds ⊢
  cases hadds with
  | start =>
    obtain ⟨-, -, rfl⟩ := step_start hs
    simpa [unlocked] using hlog.turns
  | @turn a env op k hrun =>
    obtain ⟨-, heffect, -⟩ := hin.unlock hrun hown hs
    have hlast : lastStarted a m.world.log = some op := by
      refine (hlog.starts a op _ hrun).resolve_left ?_
      rintro rfl
      cases heffect
    simp [action_log hrun hs, unlocked, hlast, History.turn, hlog.turns, Turn.by]
  | act ho =>
    obtain ⟨op, o, k, r, w', hrun, -, -⟩ := step_action hs
    have hne : o ≠ .drMutexUnlock := by
      rintro rfl
      exact ho (by simp [nextOp, hrun])
    rw [action_log hrun hs, unlocked_did hne]
    exact hlog.turns
  | finish hrun hx =>
    obtain ⟨op, p, x, -, -, rfl⟩ := step_finish hs
    simpa [unlocked] using hlog.turns
  | unload =>
    obtain ⟨-, rfl⟩ := step_unload hs
    exact hlog.turns

/-- What ends is kept. -/
theorem Logged.ends_next {b : Build} (hlog : m.Logged h) (hs : m.step b l = some m') :
    (h.next m l m').ends.map EndedCall.ending = endedCalls m'.world.log := by
  have hadds := h.adds_next hs
  generalize h.next m l m' = h' at hadds ⊢
  cases hadds with
  | start =>
    obtain ⟨-, -, rfl⟩ := step_start hs
    simpa [endedCalls] using hlog.ends
  | turn hrun =>
    rw [action_log hrun hs]
    exact hlog.ends
  | act ho =>
    obtain ⟨op, o, k, r, w', hrun, -, -⟩ := step_action hs
    rw [action_log hrun hs]
    exact hlog.ends
  | @finish a op p x hrun hx =>
    obtain ⟨op', p', x', hrun', hx', rfl⟩ := step_finish hs
    obtain ⟨rfl, rfl⟩ := Prod.mk.inj (Option.some.inj (hrun.symm.trans hrun'))
    obtain rfl := Option.some.inj (hx.symm.trans hx')
    cases a with
    | app u => exact hlog.ends
    | server =>
      by_cases hcall : op.isCall = true
      · simp [History.finish, hcall, endedCalls_ended_call, hlog.ends, EndedCall.ending]
      · simpa [History.finish, hcall, endedCalls] using hlog.ends
  | unload =>
    obtain ⟨-, rfl⟩ := step_unload hs
    exact hlog.ends

theorem RecordedBy.logged (hm : m.RecordedBy .debug UnlocksOwn h) : m.Logged h :=
  hm.invariant logged_boot fun _ _ _ _ hm hlog hown hs =>
    ⟨fun _ _ _ => hlog.starts_step hs, hlog.turns_next hm.inSections hown hs, hlog.ends_next hs⟩

/-! ## What the store makes of a run -/

/-- The call of the server that has had its turn and not ended, with an answer that it can have. -/
inductive Pending (m : Machine) (h : History) : List EndedCall → Prop
  | untaken
    (hfree : ∀ op p, m.running .server = some (op, p) → op.isCall = true →
      h.found .server = none) : Pending m h []
  | taken {op p t} {e : EndedCall} (hrun : m.running .server = some (op, p))
    (hcall : op.isCall = true) (hop : e.operation = op) (hfound : h.found .server = some t)
    (hx : op.Answer m.world.modules t e.result) : Pending m h [e]

/-- The store beside the machine has taken the turns, and answered the calls that have ended. -/
def Stored (m : Machine) (h : History) : Prop :=
  ∀ calls, m.Pending h calls → Store h.tables h.turns (h.ends ++ calls)

theorem stored_boot (modules : List Module) :
    (boot .debug modules).Stored (.boot modules) := by
  intro calls hcalls
  cases hcalls with
  | untaken hfree => exact .empty
  | taken hrun hcall hop hfound hx => cases hfound

/-- Where nothing happens to the call of the server, what is pending was pending before. -/
theorem Pending.of_same {calls : List EndedCall} (hcalls : m'.Pending h' calls)
    (hrun : (m'.running .server).map Prod.fst = (m.running .server).map Prod.fst)
    (hfound : h'.found .server = h.found .server)
    (hmodules : ∀ op p, m.running .server = some (op, p) → op.resolves = true →
      m'.world.modules = m.world.modules) : m.Pending h calls := by
  have hback : ∀ {op p}, m'.running .server = some (op, p) →
      ∃ p', m.running .server = some (op, p') := by
    intro op p h
    rw [h] at hrun
    obtain ⟨⟨_, p'⟩, hrun', rfl⟩ := Option.map_eq_some_iff.mp hrun.symm
    exact ⟨p', hrun'⟩
  cases hcalls with
  | untaken hfree =>
    refine .untaken fun op p hrun' hcall => ?_
    rw [hrun'] at hrun
    obtain ⟨⟨_, p'⟩, hnew, rfl⟩ := Option.map_eq_some_iff.mp hrun
    exact hfound.symm.trans (hfree _ p' hnew hcall)
  | taken hrun' hcall hop hfound' hx =>
    obtain ⟨p', hold⟩ := hback hrun'
    exact .taken hold hcall hop (hfound.symm.trans hfound')
      (Operation.answer_congr (hmodules _ p' hold) hx)

/-- While the server resolves an address, the modules stay as they are. -/
theorem InSections.not_resolves (hin : m.InSections h) (hm : m.Reachable .debug)
    (hsusp : m.world.suspended = false) {op : Operation} {p : Dr Result}
    (hrun : m.running .server = some (op, p)) : op.resolves = false := by
  by_contra hop
  cases hsusp.symm.trans (hin.suspended hm hrun (by simpa using hop))

theorem Stored.start (hst : m.Stored h) (hin : m.InSections h) (hm : m.Reachable .debug)
    {a : Actor} {op : Operation} (hs : m.step .debug (.start a op) = some m') :
    m'.Stored (h.start a op m.world.modules) := by
  obtain ⟨hidle, hcan, hm'⟩ := step_start hs
  intro calls hcalls
  cases a with
  | server =>
    cases hcalls with
    | untaken _ => exact hst [] (.untaken fun op p hrun => by cases hidle.symm.trans hrun)
    | taken _ _ _ hfound _ => cases (h.start_found_self op _).symm.trans hfound
  | app u =>
    have hne : Actor.server ≠ .app u := by simp
    refine hst calls (hcalls.of_same ?_ (h.start_found_of_ne op _ hne) fun op p hrun hop => ?_)
    · rw [hm', set_running_of_ne _ _ _ hne]
    · cases hop.symm.trans (hin.not_resolves hm (canStart_app hcan).2 hrun)

/-- The store takes an operation where it unlocks. -/
theorem Stored.turn (hst : m.Stored h) (hin : m.InSections h) {a : Actor} {env : Env}
    {op : Operation} {k : Unit → Dr Result} (hrun : m.running a = some (op, .act .drMutexUnlock k))
    (hown : m.UnlocksOwn (.action a env)) (hs : m.step .debug (.action a env) = some m') :
    m'.Stored (h.turn a op m.world.modules m'.world.globals.tables) := by
  obtain ⟨hnone, heffect, -⟩ := hin.unlock hrun hown hs
  have hmodules := action_modules hs
  obtain ⟨r, w₁, ha, hm'⟩ := step_act hrun hs
  intro calls hcalls
  change Store (Turn.now ⟨a, op, m.world.modules, h.known a, h.tables, m'.world.globals.tables⟩) _ _
  cases a with
  | app u =>
    have hne : Actor.server ≠ .app u := by simp
    refine .app (hst calls (hcalls.of_same ?_ (h.turn_found_of_ne op _ _ hne)
      fun _ _ _ _ => hmodules)) hne.symm heffect
    rw [hm', set_running_of_ne _ _ _ hne]
  | server =>
    have hcall : op.isCall = true := by
      rcases hin.takes _ _ _ hrun with hop | ⟨-, rfl⟩
      · exact hop
      · cases heffect
    have hrun' : m'.running .server = some (op, k r) := by rw [hm', set_running_self]
    have hbefore : Store h.tables h.turns h.ends := by
      simpa using hst [] (.untaken fun _ _ _ _ => hnone)
    have htaken := h.turn_found_self (a := .server) op m.world.modules m'.world.globals.tables
    cases hcalls with
    | untaken hfree => cases htaken.symm.trans (hfree op _ hrun' hcall)
    | taken hrun₁ _ hop hfound hx =>
      obtain ⟨rfl, -⟩ := Prod.mk.inj (Option.some.inj (hrun₁.symm.trans hrun'))
      obtain rfl := Option.some.inj (htaken.symm.trans hfound)
      exact .call hbefore rfl hop heffect (hmodules ▸ hx)

/-- Any other action leaves the store alone. -/
theorem Stored.act (hst : m.Stored h) {a : Actor} {env : Env}
    (hs : m.step .debug (.action a env) = some m') : m'.Stored h := by
  have hmodules := action_modules hs
  obtain ⟨op, o, k, r, w', hrun, -, hm'⟩ := step_action hs
  intro calls hcalls
  refine hst calls (hcalls.of_same ?_ rfl fun _ _ _ _ => hmodules)
  by_cases hserver : Actor.server = a
  · rw [hm', ← hserver, set_running_self, hserver, hrun]
    rfl
  · rw [hm', set_running_of_ne _ _ _ hserver]

/-- The store has answered a call that ends, or turns it down. -/
theorem Stored.finish (hst : m.Stored h) (hin : m.InSections h) {a : Actor} {op : Operation}
    {p : Dr Result} {x : Prog.Ending Halt Result} (hrun : m.running a = some (op, p))
    (hx : endingOf a p = some x) (hs : m.step .debug (.finish a) = some m') :
    m'.Stored (h.finish a op m.world.modules x) := by
  obtain ⟨op', p', x', hrun', hx', rfl⟩ := step_finish hs
  intro calls hcalls
  rw [History.finish_tables, History.finish_turns]
  cases a with
  | app u =>
    have hne : Actor.server ≠ .app u := by simp
    refine hst calls (hcalls.of_same ?_ rfl fun _ _ _ _ => rfl)
    rw [set_running_of_ne _ _ _ hne]
  | server =>
    obtain rfl : calls = [] := by
      cases hcalls with
      | untaken _ => rfl
      | taken hrun₁ _ _ _ _ =>
        rw [set_running_self] at hrun₁
        cases hrun₁
    rw [List.append_nil]
    by_cases hcall : op.isCall = true
    · have hends : (h.finish .server op m.world.modules x).ends =
          h.ends ++ [⟨op, m.world.modules, x⟩] := by
        simp [History.finish, hcall]
      rw [hends]
      have hanswer := (hin.closes hrun hx).2
      cases hfound : h.found .server with
      | some t => exact hst _ (.taken hrun hcall rfl hfound (hanswer t (Or.inl hfound)))
      | none =>
        have hbefore := hst [] (.untaken fun _ _ _ _ => hfound)
        rw [List.append_nil] at hbefore
        exact .reject hbefore fun t => hanswer t (Or.inr hfound)
    · have hends : (h.finish .server op m.world.modules x).ends = h.ends := by
        simp [History.finish, hcall]
      rw [hends, ← List.append_nil h.ends]
      refine hst [] (.untaken fun op' p' hrun₁ hcall₁ => ?_)
      obtain ⟨rfl, -⟩ := Prod.mk.inj (Option.some.inj (hrun.symm.trans hrun₁))
      exact absurd hcall₁ hcall

theorem Stored.unload (hst : m.Stored h) (hin : m.InSections h) (hm : m.Reachable .debug)
    {M : Module} (hs : m.step .debug (.unload M) = some m') : m'.Stored h := by
  obtain ⟨hsusp, rfl⟩ := step_unload hs
  intro calls hcalls
  refine hst calls (hcalls.of_same rfl rfl fun op p hrun hop => ?_)
  cases hop.symm.trans (hin.not_resolves hm hsusp hrun)

/-- One more step, and what the store makes of it. -/
theorem Stored.step (hst : m.Stored h) (hin : m.InSections h) (hm : m.Reachable .debug)
    (hown : m.UnlocksOwn l) (hs : m.step .debug l = some m') : m'.Stored (h.next m l m') := by
  have hadds := h.adds_next hs
  generalize h.next m l m' = h' at hadds ⊢
  cases hadds with
  | start => exact hst.start hin hm hs
  | turn hrun => exact hst.turn hin hrun hown hs
  | act ho => exact hst.act hs
  | finish hrun hx => exact hst.finish hin hrun hx hs
  | unload => exact hst.unload hin hm hs

theorem RecordedBy.stored (hm : m.RecordedBy .debug UnlocksOwn h) : m.Stored h :=
  hm.invariant stored_boot fun _ _ _ _ hm hst hown hs =>
    hst.step hm.inSections hm.reachedBy.reachable hown hs

/-- What is pending is the call that the server is in. -/
def InProgress (m : Machine) (calls : List EndedCall) : Prop :=
  calls = [] ∨ ∃ op p e, m.running .server = some (op, p) ∧ e.operation = op ∧ calls = [e]

theorem exists_pending (m : Machine) (h : History) :
    ∃ calls, m.Pending h calls ∧ m.InProgress calls := by
  by_cases htaken : ∃ op p t, m.running .server = some (op, p) ∧ op.isCall = true ∧
      h.found .server = some t
  · obtain ⟨op, p, t, hrun, hcall, hfound⟩ := htaken
    obtain ⟨x, hx⟩ := Operation.exists_answer m.world.modules t hcall
    exact ⟨[⟨op, m.world.modules, x⟩], .taken hrun hcall rfl hfound hx,
      Or.inr ⟨op, p, _, hrun, rfl, rfl⟩⟩
  · refine ⟨[], .untaken fun op p hrun hcall => ?_, Or.inl rfl⟩
    by_contra hfound
    obtain ⟨t, ht⟩ := Option.ne_none_iff_exists'.mp hfound
    exact htaken ⟨op, p, t, hrun, hcall, ht⟩

end Machine

namespace Connection

variable {ι : Type} [DecidableEq ι] {rt : Runtime} {k : ClientKind} {s : Connection ι}

/-- Every run of callers, server and application in which the server unlocks only what it has has a
history that is one of a store. The store takes the operations in the order in which they have
unlocked the mutex, each with the modules that were loaded then. It gives the calls that have ended
at the server the answers with which they have ended, and maybe one to the call that the server is
in; the callers have got these answers, one after the other; and where nobody has the mutex, the
tables are those of the store. -/
theorem Reachable.one_store (hs : s.Reachable rt .debug k)
    (hm : s.session.machine.ReachedBy .debug Machine.UnlocksOwn) :
    ∃ h calls, s.session.machine.RecordedBy .debug Machine.UnlocksOwn h ∧
      Store h.tables h.turns (h.ends ++ calls) ∧ s.session.machine.InProgress calls ∧
      h.turns.map Turn.by = unlocked s.session.machine.world.log ∧
      h.ends.map EndedCall.ending = s.serverEnded ∧
      List.Forall₂ (Delivers rt) s.ended
        (((h.ends ++ calls).map EndedCall.ending).take s.ended.length) ∧
      (s.session.machine.world.mutex = none →
        s.session.machine.world.globals.tables = h.tables) := by
  obtain ⟨h, hm⟩ := hm.exists_recorded
  obtain ⟨calls, hpending, hprogress⟩ := Machine.exists_pending s.session.machine h
  have hlog := hm.logged
  have hended : h.ends.map EndedCall.ending = s.serverEnded := hlog.ends
  refine ⟨h, calls, hm, hm.stored calls hpending, hprogress, hlog.turns, hended, ?_,
    hm.inSections.free⟩
  have hdelivers := hs.ok.delivers
  have hlen := hdelivers.length_eq
  rw [List.length_take] at hlen
  rw [List.map_append, hended]
  rwa [List.take_append_of_le_length (by omega)]

/-- One caller adds a breakpoint, and another asks for all of them. -/
def addedAndListed : Connection ℕ :=
  afterChecked libraries .debug .concurrent Machine.unlocksOwnChecked []
    (Session.startUp.map .session ++
      [.send (.fresh 1 0 (.addBreakpoint (absBreakpoint 16 2).1)),
        .send (.fresh 2 1 .getBreakpoints)] ++
      (Session.serves 4 ++ Session.serves 3).map .session ++ [.recv 1, .recv 2])

theorem one_store_addedAndListed : addedAndListed.ended.length = 2 ∧
    ∃ h calls, addedAndListed.session.machine.RecordedBy .debug Machine.UnlocksOwn h ∧
      Store h.tables h.turns (h.ends ++ calls) ∧
      addedAndListed.session.machine.InProgress calls ∧
      h.turns.map Turn.by = unlocked addedAndListed.session.machine.world.log ∧
      h.ends.map EndedCall.ending = addedAndListed.serverEnded ∧
      List.Forall₂ (Delivers libraries) addedAndListed.ended
        (((h.ends ++ calls).map EndedCall.ending).take addedAndListed.ended.length) ∧
      (addedAndListed.session.machine.world.mutex = none →
        addedAndListed.session.machine.world.globals.tables = h.tables) := by
  obtain ⟨h, hm⟩ : addedAndListed.Reachable libraries .debug .concurrent ∧ _ :=
    reached_afterChecked Machine.unlocksOwn_of_checked [] _
  exact ⟨rfl, h.one_store hm⟩

end Connection

end ConcreteEval
