import ConcreteEval.Service

/-!
# The server and whoever talks to it

`Session` is the machine with its service on a connection : requests arrive in any number and order,
from any peer, the server reads one when it is in no call, and writes a reply when the handler has
ended. The start-up of the server thread comes before, and all other threads go on as they do in
the machine. A handler that faults writes no reply, and neither does a request whose arguments are
taken for something else.

The machine takes any call at any time while the server thread is in none. That is what the
peers can make of it : a session goes through the states of a machine, and a machine through those
of a session (`Machine.reachable_iff_session`). And the replies are one for each request that has
been read, in their order, each with what its own handler ended with
(`Session.Reachable.one_reply_each`).
-/

namespace ConcreteEval

open Thrift (Message SeqId)

/-- The method whose handler the operation is. -/
def Operation.method? : Operation → Option Method
  | .addBreakpoint _ => some .addBreakpoint
  | .delBreakpoint _ => some .delBreakpoint
  | .getBreakpoints => some .getBreakpoints
  | .executeUntilEvent _ => some .executeUntilEvent
  | .getCodeBlock => some .getCodeBlock
  | .getContext => some .getContext
  | _ => none

/-- The result is one that the method can send. -/
def Method.Answers (m : Method) (r : Result) : Prop :=
  ∃ a, m.unpack r = some a ∧ m.Sendable a

theorem returns_getBreakpoints : getBreakpoints.Returns WellOrdered := by
  intro _ g _
  exact World.wellOrdered_listed g.breakpoints

/-- A handler returns what its method can send. -/
theorem Operation.returns_prog (b : Build) {op : Operation} {m : Method}
    (h : op.method? = some m) : (op.prog b).Returns m.Answers := by
  cases op with
  | getBreakpoints =>
    obtain rfl := Option.some.inj h
    exact Prog.Ends.bind returns_getBreakpoints fun s hs => ⟨s, rfl, hs⟩
  | addBreakpoint bp =>
    obtain rfl := Option.some.inj h
    exact Prog.returns_bind _ fun _ => ⟨(), rfl, trivial⟩
  | delBreakpoint bp =>
    obtain rfl := Option.some.inj h
    exact Prog.returns_bind _ fun _ => ⟨(), rfl, trivial⟩
  | executeUntilEvent stopEvents =>
    obtain rfl := Option.some.inj h
    exact Prog.returns_bind _ fun e => ⟨e, rfl, trivial⟩
  | getCodeBlock =>
    obtain rfl := Option.some.inj h
    exact Prog.returns_bind _ fun c => ⟨c, rfl, trivial⟩
  | getContext =>
    obtain rfl := Option.some.inj h
    exact Prog.returns_bind _ fun c => ⟨c, rfl, trivial⟩
  | _ => cases h

/-! ## Calls of the machine -/

/-- The calls that have ended, with their endings, in their order. -/
def endedCalls : List Mark → List (Operation × Prog.Ending Halt Result)
  | [] => []
  | .ended .server op x :: l =>
    if op.isCall then endedCalls l ++ [(op, x)] else endedCalls l
  | _ :: l => endedCalls l

theorem endedCalls_ended_call {op : Operation} (h : op.isCall = true)
    (x : Prog.Ending Halt Result) (l : List Mark) :
    endedCalls (.ended .server op x :: l) = endedCalls l ++ [(op, x)] := by
  rw [endedCalls, if_pos h]

theorem Operation.isCall_of_method? {op : Operation} {m : Method} (h : op.method? = some m) :
    op.isCall = true := by
  cases op <;> first | rfl | cases h

/-- Whether the step starts or ends something on the server thread. -/
def Label.isEdge : Label → Bool
  | .start a _ | .finish a => a = .server
  | _ => false

namespace Machine

variable {b : Build} {m m' : Machine}

theorem Reachable.step {l : Label} (hm : m.Reachable b) (h : m.step b l = some m') :
    m'.Reachable b := by
  obtain ⟨modules, hm⟩ := hm
  exact ⟨modules, hm.tail ⟨l, trivial, h⟩⟩

/-- What holds of every program of an operation and goes on with its actions holds of what is left
of the operation that a thread is in. -/
theorem Reachable.of_running {F : Operation → Dr Result → Prop} (hm : m.Reachable b)
    (hprog : ∀ op, F op (op.prog b)) (hact : ∀ op o k r, F op (.act o k) → F op (k r))
    {a : Actor} {op : Operation} {p : Dr Result} (hrun : m.running a = some (op, p)) : F op p := by
  have hall : ∀ a op p, m.running a = some (op, p) → F op p := by
    refine ReachedBy.invariant (I := fun m => ∀ a op p, m.running a = some (op, p) → F op p) hm
      (fun modules => ?_) ?_
    · rintro a op p hrun
      simp only [boot] at hrun
      split_ifs at hrun with ha
      obtain ⟨rfl, rfl⟩ := Prod.mk.inj (Option.some.inj hrun)
      exact hprog .serverThread
    · rintro m l m' - ih - hs a op p hrun
      have hset : ∀ (c : Actor) (w : World) (z : Option (Operation × Dr Result)),
          (∀ op' p', z = some (op', p') → F op' p') → m' = m.set w c z → F op p := by
        rintro c w z hz rfl
        by_cases hac : a = c
        · rw [hac, set_running_self] at hrun
          exact hz op p hrun
        · rw [set_running_of_ne m w z hac] at hrun
          exact ih a op p hrun
      cases l with
      | start c op' =>
        obtain ⟨-, -, hm'⟩ := step_start hs
        refine hset _ _ _ (fun op'' p'' hz => ?_) hm'
        obtain ⟨rfl, rfl⟩ := Prod.mk.inj (Option.some.inj hz)
        exact hprog op'
      | action c env =>
        obtain ⟨op', o, k, r, w', hrun', -, hm'⟩ := step_action hs
        refine hset _ _ _ (fun op'' p'' hz => ?_) hm'
        obtain ⟨rfl, rfl⟩ := Prod.mk.inj (Option.some.inj hz)
        exact hact op' o k r (ih c op' (.act o k) hrun')
      | finish c =>
        obtain ⟨op', p', x, -, -, hm'⟩ := step_finish hs
        refine hset _ _ _ (fun op'' p'' hz => ?_) hm'
        cases hz
      | unload modinfo =>
        obtain ⟨-, rfl⟩ := step_unload hs
        exact ih a op p hrun
  exact hall a op p hrun

/-- A handler that runs will return what its method can send. -/
theorem Reachable.returns (hm : m.Reachable b) {a : Actor} {op : Operation} {p : Dr Result}
    {meth : Method} (hrun : m.running a = some (op, p)) (hmeth : op.method? = some meth) :
    p.Returns meth.Answers :=
  hm.of_running (F := fun op p => ∀ meth, op.method? = some meth → p.Returns meth.Answers)
    (fun _ _ hmeth => Operation.returns_prog b hmeth) (fun _ _ _ r h meth hmeth => h meth hmeth r)
    hrun meth hmeth

/-- A step that is no edge leaves the server thread in what it is in, and the calls that have
ended. -/
theorem step_of_not_isEdge {l : Label} (hl : l.isEdge = false) (h : m.step b l = some m') :
    endedCalls m'.world.log = endedCalls m.world.log ∧
      (m'.running .server).map Prod.fst = (m.running .server).map Prod.fst := by
  cases l with
  | start a op =>
    have ha : Actor.server ≠ a := by
      rintro rfl
      cases hl
    obtain ⟨-, -, rfl⟩ := step_start h
    constructor
    · simp only [set_world, World.note_log, World.enter_log]
      rfl
    · rw [set_running_of_ne _ _ _ ha]
  | action a env =>
    obtain ⟨op, o, k, r, w', hrun, hp, rfl⟩ := step_action h
    obtain ⟨-, w₁, hw, rfl⟩ := World.perform_eq_some hp
    constructor
    · simp only [set_world, World.note_log, World.answer_log hw]
      rfl
    · by_cases ha : Actor.server = a
      · rw [← ha, set_running_self, ha, hrun]
        rfl
      · rw [set_running_of_ne _ _ _ ha]
  | finish a =>
    have ha : Actor.server ≠ a := by
      rintro rfl
      cases hl
    obtain ⟨op, p, x, -, -, rfl⟩ := step_finish h
    constructor
    · simp only [set_world, World.note_log]
      cases a with
      | server => exact absurd rfl ha
      | app t => rfl
    · rw [set_running_of_ne _ _ _ ha]
  | unload modinfo =>
    obtain ⟨-, rfl⟩ := step_unload h
    exact ⟨rfl, rfl⟩

/-- What holds of every call that ends holds of the calls that have ended. -/
theorem Reachable.of_ended {I : Operation → Prog.Ending Halt Result → Prop} (hm : m.Reachable b)
    (hend : ∀ (m : Machine) op p x, m.Reachable b → m.running .server = some (op, p) →
      endingOf .server p = some x → op.isCall = true → I op x) {op : Operation}
    {x : Prog.Ending Halt Result} (hx : (op, x) ∈ endedCalls m.world.log) : I op x := by
  have hall : ∀ op x, (op, x) ∈ endedCalls m.world.log → I op x := by
    refine ReachedBy.invariant (I := fun m => ∀ op x, (op, x) ∈ endedCalls m.world.log → I op x) hm
      (fun modules => ?_) ?_
    · exact fun op x hx => absurd hx List.not_mem_nil
    · rintro m l m' hm ih - hs op x hx
      by_cases hl : l.isEdge = true
      · cases l with
        | start a op' =>
          obtain ⟨-, -, rfl⟩ := step_start hs
          simp only [set_world, World.note_log, World.enter_log, endedCalls] at hx
          exact ih op x hx
        | finish a =>
          obtain rfl : a = .server := by simpa [Label.isEdge] using hl
          obtain ⟨op', p, x', hrun, hx', rfl⟩ := step_finish hs
          simp only [set_world, World.note_log, endedCalls] at hx
          split_ifs at hx with hcall
          · rcases List.mem_append.mp hx with hx | hx
            · exact ih op x hx
            · obtain ⟨rfl, rfl⟩ := Prod.mk.inj (List.mem_singleton.mp hx)
              exact hend m op p x hm hrun hx' hcall
          · exact ih op x hx
        | action a env => cases hl
        | unload modinfo => cases hl
      · rw [(step_of_not_isEdge (by simpa using hl) hs).1] at hx
        exact ih op x hx
  exact hall op x hx

/-- The calls that have ended have returned what their methods can send. -/
theorem Reachable.ended_answers (hm : m.Reachable b) {op : Operation} {r : Result} {meth : Method}
    (hend : (op, .returned r) ∈ endedCalls m.world.log) (hmeth : op.method? = some meth) :
    meth.Answers r := by
  refine hm.of_ended (I := fun op x => ∀ r, x = .returned r → ∀ meth, op.method? = some meth →
    meth.Answers r) ?_ hend r rfl meth hmeth
  rintro m op p _ hm hrun hx - r rfl meth hmeth
  obtain ⟨_, rfl, hr⟩ | ⟨e, -, he⟩ := endingOf_server_eq_some hx
  · obtain rfl := Prog.Ending.returned.inj hr
    exact hm.returns hrun hmeth
  · cases he

end Machine

/-! ## The system -/

structure Session where
  machine : Machine
  /-- The requests that have arrived. -/
  requests : List Request := []
  /-- How many of them the server has read. -/
  next : ℕ := 0
  /-- The call that the server is in. -/
  serving : Option (Method × SeqId) := none
  /-- What the server has written. -/
  replies : List Message := []

namespace Session

inductive Label
  | arrive (x : Request)
  | serve
  | finish
  | machine (l : ConcreteEval.Label)

variable (rt : Runtime) (b : Build)

/-- The server reads the next request. -/
def serve (s : Session) : Option Session :=
  match s.machine.running .server, s.requests[s.next]? with
  | none, some x =>
    match dispatchCall rt x with
    | some (.replied y) => some { s with next := s.next + 1, replies := s.replies ++ [y] }
    | some (.called m op) =>
      (s.machine.step b (.start .server op)).map fun machine =>
        { s with machine := machine, next := s.next + 1, serving := some (m, x.seqid) }
    | none => none
  | _, _ => none

/-- How the server thread has ended what it is in. -/
def ending? (s : Session) : Option (Prog.Ending Halt Result) :=
  (s.machine.running .server).bind fun r => endingOf .server r.2

/-- The server thread ends its start-up, or a handler, and then it replies. -/
def finish (s : Session) : Option Session :=
  match s.ending?, s.machine.step b (.finish .server) with
  | some x, some machine =>
    match s.serving with
    | none => some { s with machine := machine }
    | some (m, seqid) =>
      (m.process rt seqid x).map fun y =>
        { s with machine := machine, serving := none, replies := s.replies ++ [y] }
  | _, _ => none

/-- One step of the session. -/
def step (s : Session) : Label → Option Session
  | .arrive x => some { s with requests := s.requests ++ [x] }
  | .serve => s.serve rt b
  | .finish => s.finish rt b
  | .machine l =>
    if l.isEdge then none
    else (s.machine.step b l).map fun machine => { s with machine := machine }

def boot (modules : List Module) : Session where
  machine := .boot b modules

def Reachable (s : Session) : Prop :=
  ∃ modules, Relation.ReflTransGen (Moves (step rt b) fun _ _ => True) (boot b modules) s

/-- The session after the steps `ls` from the start, if they can be taken. -/
def after (modules : List Module) (ls : List Label) : Session :=
  (ls.foldlM (step rt b) (boot b modules)).getD (boot b modules)

theorem reachable_after (modules : List Module) (ls : List Label) :
    (after rt b modules ls).Reachable rt b := by
  refine ⟨modules, ?_⟩
  unfold after
  cases h : ls.foldlM (step rt b) (boot b modules) with
  | none => exact Relation.ReflTransGen.refl
  | some s => exact moves_of_foldlM (fun _ _ _ => trivial) h

/-- The steps of the server's start-up in a build with `assert`. -/
def startUp : List Label :=
  (Machine.actions .server 3).map .machine ++ [.finish]

/-- The server reads a request, and its handler ends after `n` actions. -/
def serves (n : ℕ) : List Label :=
  .serve :: (Machine.actions .server n).map .machine ++ [.finish]

variable {rt b}

/-- What reading a request does. -/
theorem serve_cases {s s' : Session} (h : s.serve rt b = some s') :
    s.machine.running .server = none ∧ ∃ x, s.requests[s.next]? = some x ∧
      ((∃ y, dispatchCall rt x = some (.replied y) ∧
          s' = { s with next := s.next + 1, replies := s.replies ++ [y] }) ∨
        ∃ m op machine, dispatchCall rt x = some (.called m op) ∧
          s.machine.step b (.start .server op) = some machine ∧
          s' =
            { s with machine := machine, next := s.next + 1, serving := some (m, x.seqid) }) := by
  unfold serve at h
  split at h
  · rename_i x hidle hx
    refine ⟨hidle, x, hx, ?_⟩
    split at h
    · rename_i y hd
      exact Or.inl ⟨y, hd, (Option.some.inj h).symm⟩
    · rename_i m op hd
      obtain ⟨machine, hm, rfl⟩ := Option.map_eq_some_iff.mp h
      exact Or.inr ⟨m, op, machine, hd, hm, rfl⟩
    · cases h
  · cases h

/-- What ending the start-up or a handler does. -/
theorem finish_cases {s s' : Session} (h : s.finish rt b = some s') :
    ∃ op p x machine, s.machine.running .server = some (op, p) ∧ endingOf .server p = some x ∧
      s.machine.step b (.finish .server) = some machine ∧
      ((s.serving = none ∧ s' = { s with machine := machine }) ∨
        ∃ m seqid y, s.serving = some (m, seqid) ∧ m.process rt seqid x = some y ∧
          s' = { s with machine := machine, serving := none, replies := s.replies ++ [y] }) := by
  unfold finish at h
  split at h
  · rename_i x machine hx hm
    obtain ⟨⟨op, p⟩, hrun, hend⟩ := Option.bind_eq_some_iff.mp hx
    refine ⟨op, p, x, machine, hrun, hend, hm, ?_⟩
    split at h
    · rename_i hs
      exact Or.inl ⟨hs, (Option.some.inj h).symm⟩
    · rename_i m seqid hs
      obtain ⟨y, hy, rfl⟩ := Option.map_eq_some_iff.mp h
      exact Or.inr ⟨m, seqid, y, hs, hy, rfl⟩
  · cases h

/-- What a step of the machine does that is no edge. -/
theorem machine_cases {s s' : Session} {l : ConcreteEval.Label}
    (h : s.step rt b (.machine l) = some s') :
    l.isEdge = false ∧ ∃ machine, s.machine.step b l = some machine ∧
      s' = { s with machine := machine } := by
  simp only [step] at h
  split_ifs at h with hl
  obtain ⟨machine, hm, rfl⟩ := Option.map_eq_some_iff.mp h
  exact ⟨by simpa using hl, machine, hm, rfl⟩

/-- What has been written and what has ended stays. -/
theorem step_prefix {s s' : Session} {l : Label} (h : s.step rt b l = some s') :
    s.replies <+: s'.replies ∧
      endedCalls s.machine.world.log <+: endedCalls s'.machine.world.log := by
  cases l with
  | arrive x =>
    obtain rfl := Option.some.inj h
    exact ⟨List.prefix_refl _, List.prefix_refl _⟩
  | serve =>
    obtain ⟨-, x, -, ⟨y, -, rfl⟩ | ⟨m, op, machine, -, hm, rfl⟩⟩ := serve_cases h
    · exact ⟨List.prefix_append _ _, List.prefix_refl _⟩
    · obtain ⟨-, -, rfl⟩ := Machine.step_start hm
      refine ⟨List.prefix_refl _, ?_⟩
      simp only [Machine.set_world, World.note_log, World.enter_log, endedCalls, List.prefix_rfl]
  | finish =>
    obtain ⟨op, p, x, machine, -, -, hm, hcase⟩ := finish_cases h
    have hend : endedCalls s.machine.world.log <+: endedCalls machine.world.log := by
      obtain ⟨op', p', x', -, -, rfl⟩ := Machine.step_finish hm
      simp only [Machine.set_world, World.note_log, endedCalls]
      split_ifs
      · exact List.prefix_append _ _
      · exact List.prefix_rfl
    rcases hcase with ⟨-, rfl⟩ | ⟨m, seqid, y, -, -, rfl⟩
    · exact ⟨List.prefix_refl _, hend⟩
    · exact ⟨List.prefix_append _ _, hend⟩
  | machine l =>
    obtain ⟨hl, machine, hm, rfl⟩ := machine_cases h
    rw [(Machine.step_of_not_isEdge hl hm).1]
    exact ⟨List.prefix_refl _, List.prefix_refl _⟩

/-- Only arriving adds a request. -/
theorem step_requests {s s' : Session} {l : Label} (h : s.step rt b l = some s')
    (hl : ∀ x, l ≠ .arrive x) : s'.requests = s.requests := by
  cases l with
  | arrive x => exact absurd rfl (hl x)
  | serve =>
    obtain ⟨-, x, -, ⟨y, -, rfl⟩ | ⟨m, op, machine, -, -, rfl⟩⟩ := serve_cases h
    · rfl
    · rfl
  | finish =>
    obtain ⟨op, p, x, machine, -, -, -, ⟨-, rfl⟩ | ⟨m, seqid, y, -, -, rfl⟩⟩ := finish_cases h
    · rfl
    · rfl
  | machine l =>
    obtain ⟨-, machine, -, rfl⟩ := machine_cases h
    rfl

/-! ## One reply for each request -/

variable (rt) in
/-- The replies `ys` answer the requests `xs` in their order : an unknown method with an error, and
a known one with what its own handler ended with, which is the next of the calls `es`. -/
inductive Answered :
    List Request → List (Operation × Prog.Ending Halt Result) → List Message → Prop
  | nil : Answered [] [] []
  | replied {xs es ys x y} (h : Answered xs es ys) (hx : dispatchCall rt x = some (.replied y)) :
    Answered (xs ++ [x]) es (ys ++ [y])
  | called {xs es ys x m op z y} (h : Answered xs es ys)
    (hx : dispatchCall rt x = some (.called m op)) (hy : m.process rt x.seqid z = some y) :
    Answered (xs ++ [x]) (es ++ [(op, z)]) (ys ++ [y])

variable (rt) in
/-- The requests that the server has read and not answered. -/
inductive Serves (s : Session) : List Request → Prop
  | idle (hs : s.serving = none)
    (hrun : ∀ op, (s.machine.running .server).map Prod.fst = some op → op = .serverThread) :
    Serves s []
  | busy {x m op} (hs : s.serving = some (m, x.seqid))
    (hx : dispatchCall rt x = some (.called m op))
    (hrun : (s.machine.running .server).map Prod.fst = some op) : Serves s [x]

variable (rt b) in
structure Ok (s : Session) : Prop where
  machine : s.machine.Reachable b
  next : s.next ≤ s.requests.length
  answered : ∃ xs cur, s.requests.take s.next = xs ++ cur ∧ s.Serves rt cur ∧
    Answered rt xs (endedCalls s.machine.world.log) s.replies

theorem ok_boot (modules : List Module) : (boot b modules).Ok rt b where
  machine := ⟨modules, Relation.ReflTransGen.refl⟩
  next := le_refl 0
  answered := by
    refine ⟨[], [], rfl, .idle rfl fun op hop => ?_, .nil⟩
    simpa [boot, Machine.boot] using hop.symm

theorem method?_of_dispatchCall {x : Request} {m : Method} {op : Operation}
    (h : dispatchCall rt x = some (.called m op)) : op.method? = some m ∧ m.name = x.fname := by
  unfold dispatchCall at h
  split at h
  · cases h
  · rename_i m' hm
    obtain ⟨op', hop, heq⟩ := Option.map_eq_some_iff.mp h
    obtain ⟨rfl, rfl⟩ := Dispatch.called.inj heq
    refine ⟨?_, name_of_findMethod hm⟩
    cases m' with
    | executeUntilEvent =>
      obtain ⟨stopEvents, -, rfl⟩ := Option.map_eq_some_iff.mp hop
      rfl
    | _ =>
      obtain rfl := Option.some.inj hop
      rfl

theorem Serves.of_running {s s' : Session} {cur : List Request} (h : s.Serves rt cur)
    (hs : s'.serving = s.serving)
    (hrun : (s'.machine.running .server).map Prod.fst =
      (s.machine.running .server).map Prod.fst) : s'.Serves rt cur := by
  cases h with
  | idle hserving hop => exact .idle (hs.trans hserving) (hrun ▸ hop)
  | busy hserving hx hop => exact .busy (hs.trans hserving) hx (hrun.trans hop)

theorem Ok.step {s s' : Session} {l : Label} (h : s.Ok rt b) (hs : s.step rt b l = some s') :
    s'.Ok rt b := by
  obtain ⟨xs, cur, htake, hserves, hans⟩ := h.answered
  cases l with
  | arrive x =>
    obtain rfl := Option.some.inj hs
    have hlen : s.next ≤ (s.requests ++ [x]).length := by
      rw [List.length_append]
      exact h.next.trans (Nat.le_add_right _ _)
    refine ⟨h.machine, hlen, xs, cur, ?_, hserves.of_running rfl rfl, hans⟩
    rw [← htake]
    exact List.take_append_of_le_length h.next
  | serve =>
    obtain ⟨hidle, x, hx, hcase⟩ := serve_cases hs
    have hnext : s.next + 1 ≤ s.requests.length := (List.getElem?_eq_some_iff.mp hx).1
    have htake' : s.requests.take (s.next + 1) = xs ++ cur ++ [x] := by
      rw [List.take_add_one, htake, hx, Option.toList_some]
    -- The server thread is in no call, so every request that it has read is answered.
    obtain rfl : cur = [] := by
      cases hserves with
      | idle _ _ => rfl
      | busy _ _ hop =>
        rw [hidle] at hop
        cases hop
    rw [List.append_nil] at htake'
    rcases hcase with ⟨y, hd, rfl⟩ | ⟨m, op, machine, hd, hm, rfl⟩
    · refine ⟨h.machine, hnext, xs ++ [x], [], by simpa using htake', ?_, hans.replied hd⟩
      exact hserves.of_running rfl rfl
    · obtain ⟨-, -, rfl⟩ := Machine.step_start hm
      refine ⟨h.machine.step hm, hnext, xs, [x], htake', .busy rfl hd (by simp), ?_⟩
      simpa only [Machine.set_world, World.note_log, World.enter_log, endedCalls] using hans
  | finish =>
    obtain ⟨op, p, z, machine, hrun, hend, hm, hcase⟩ := finish_cases hs
    obtain ⟨op', p', z', hrun', hend', rfl⟩ := Machine.step_finish hm
    obtain ⟨rfl, rfl⟩ := Prod.mk.inj (Option.some.inj (hrun.symm.trans hrun'))
    obtain rfl := Option.some.inj (hend.symm.trans hend')
    rcases hcase with ⟨hserving, rfl⟩ | ⟨m, seqid, y, hserving, hy, rfl⟩
    · cases hserves with
      | idle _ hop =>
        obtain rfl := hop op (by rw [hrun]; rfl)
        refine ⟨h.machine.step hm, h.next, xs, [], htake, .idle hserving (by simp), ?_⟩
        exact hans
      | busy hserving' _ _ =>
        rw [hserving] at hserving'
        cases hserving'
    · cases hserves with
      | idle hserving' _ =>
        rw [hserving] at hserving'
        cases hserving'
      | busy hserving' hx hop =>
        obtain ⟨rfl, rfl⟩ := Prod.mk.inj (Option.some.inj (hserving.symm.trans hserving'))
        rw [hrun] at hop
        obtain rfl := Option.some.inj hop
        refine ⟨h.machine.step hm, h.next, xs ++ [_], [], by simpa using htake,
          .idle rfl (by simp), ?_⟩
        rw [Machine.set_world, World.note_log,
          endedCalls_ended_call (Operation.isCall_of_method? (method?_of_dispatchCall hx).1)]
        exact hans.called hx hy
  | machine l =>
    obtain ⟨hl, machine, hm, rfl⟩ := machine_cases hs
    obtain ⟨hlog, hrun⟩ := Machine.step_of_not_isEdge hl hm
    refine ⟨h.machine.step hm, h.next, xs, cur, htake, hserves.of_running rfl hrun, ?_⟩
    rw [hlog]
    exact hans

theorem Reachable.ok {s : Session} (h : s.Reachable rt b) : s.Ok rt b := by
  obtain ⟨modules, h⟩ := h
  exact invariant_of_moves (ok_boot modules) (fun _ _ _ hs _ hstep => hs.step hstep) h

/-- Where every request is a call, the calls that have ended and the replies are in step with the
requests. -/
theorem Answered.getElem? {xs : List Request} {es : List (Operation × Prog.Ending Halt Result)}
    {ys : List Message} (h : Answered rt xs es ys)
    (hxs : ∀ x ∈ xs, ∃ m op, dispatchCall rt x = some (.called m op)) :
    es.length = xs.length ∧ ys.length = xs.length ∧
      ∀ (i : ℕ) x m op, xs[i]? = some x → dispatchCall rt x = some (.called m op) →
        ∃ z y, es[i]? = some (op, z) ∧ ys[i]? = some y ∧ m.process rt x.seqid z = some y := by
  induction h with
  | nil => exact ⟨rfl, rfl, fun i x m op hx => by cases hx⟩
  | replied _ hx _ =>
    obtain ⟨m, op, hd⟩ := hxs _ (List.mem_append_right _ (List.mem_singleton.mpr rfl))
    rw [hx] at hd
    cases hd
  | @called xs es ys x m op z y _ hx hy ih =>
    obtain ⟨hes, hys, hi⟩ := ih fun x hx => hxs x (List.mem_append_left _ hx)
    refine ⟨by simp [hes], by simp [hys], fun i x' m' op' hx' hd => ?_⟩
    rcases Nat.lt_or_ge i xs.length with hlt | hge
    · rw [List.getElem?_append_left hlt] at hx'
      rw [List.getElem?_append_left (hes ▸ hlt), List.getElem?_append_left (hys ▸ hlt)]
      exact hi i x' m' op' hx' hd
    · obtain rfl : i = xs.length := by
        have hlen := (List.getElem?_eq_some_iff.mp hx').1
        rw [List.length_append, List.length_singleton] at hlen
        omega
      rw [List.getElem?_concat_length] at hx'
      obtain rfl := Option.some.inj hx'
      rw [hx] at hd
      obtain ⟨rfl, rfl⟩ := Dispatch.called.inj (Option.some.inj hd)
      refine ⟨z, y, ?_, ?_, hy⟩
      · rw [← hes, List.getElem?_concat_length]
      · rw [← hys, List.getElem?_concat_length]

/-- The reply has the name and the number of the request. -/
structure Matches (x : Request) (y : Message) : Prop where
  seqid : y.header.seqid = x.seqid
  fname : y.header.fname = x.fname
  mtype : y.header.mtype = .reply ∨ y.header.mtype = .exception

theorem matches_replied {x : Request} {y : Message} (h : dispatchCall rt x = some (.replied y)) :
    Matches x y := by
  unfold dispatchCall at h
  split at h
  · obtain rfl := Dispatch.replied.inj (Option.some.inj h)
    exact ⟨rfl, rfl, Or.inr rfl⟩
  · obtain ⟨op, -, heq⟩ := Option.map_eq_some_iff.mp h
    cases heq

theorem matches_process {x : Request} {m : Method} {z : Prog.Ending Halt Result} {y : Message}
    (hname : m.name = x.fname) (h : m.process rt x.seqid z = some y) : Matches x y := by
  cases z with
  | returned r =>
    obtain ⟨a, -, rfl⟩ := Option.map_eq_some_iff.mp h
    exact ⟨rfl, hname, Or.inl rfl⟩
  | stopped e =>
    cases e with
    | fault f => cases h
    | thrown e =>
      cases e with
      | lengthError =>
        obtain rfl := Option.some.inj h
        exact ⟨rfl, hname, Or.inr rfl⟩
      | exception msg =>
        simp only [Method.process] at h
        split_ifs at h
        · obtain rfl := Option.some.inj h
          exact ⟨rfl, hname, Or.inl rfl⟩
        · obtain rfl := Option.some.inj h
          exact ⟨rfl, hname, Or.inr rfl⟩

theorem Answered.forall₂_matches {xs : List Request}
    {es : List (Operation × Prog.Ending Halt Result)} {ys : List Message}
    (h : Answered rt xs es ys) : List.Forall₂ Matches xs ys := by
  induction h with
  | nil => exact .nil
  | replied _ hx ih => exact List.rel_append ih (.cons (matches_replied hx) .nil)
  | called _ hx hy ih =>
    exact List.rel_append ih (.cons (matches_process (method?_of_dispatchCall hx).2 hy) .nil)

/-- However the requests come and whatever they are, the server has written one reply for each
that it has read, in their order and under their names and numbers, but for the one it is in : to a
call what its own handler ended with, and no other call has ended. -/
theorem Reachable.one_reply_each {s : Session} (h : s.Reachable rt b) :
    ∃ xs cur, s.requests.take s.next = xs ++ cur ∧ s.Serves rt cur ∧
      Answered rt xs (endedCalls s.machine.world.log) s.replies ∧
      List.Forall₂ Matches xs s.replies := by
  obtain ⟨xs, cur, htake, hserves, hans⟩ := h.ok.answered
  exact ⟨xs, cur, htake, hserves, hans, hans.forall₂_matches⟩

/-- A call before anything has been stopped, and one of a method that there is not. -/
def twoReplied : Session :=
  after libraries .debug [] (startUp ++
    [.arrive (Call.getContext.send 0), .arrive ⟨"ping".toList, 7, []⟩] ++ serves 3 ++ [.serve])

theorem one_reply_each_twoReplied : twoReplied.replies.length = 2 ∧
    ∃ xs cur, twoReplied.requests.take twoReplied.next = xs ++ cur ∧
      twoReplied.Serves libraries cur ∧
      Answered libraries xs (endedCalls twoReplied.machine.world.log) twoReplied.replies ∧
      List.Forall₂ Matches xs twoReplied.replies :=
  ⟨rfl, (reachable_after libraries .debug [] _).one_reply_each⟩

/-! ## The machine and its peers -/

/-- The result that a handler has ended with is one that its method can send. -/
theorem Reachable.answers {s : Session} (h : s.Reachable rt b) {m : Method} {seqid : SeqId}
    (hs : s.serving = some (m, seqid)) {x : Prog.Ending Halt Result} (hx : s.ending? = some x) :
    ∀ r, x = .returned r → m.Answers r := by
  rintro r rfl
  obtain ⟨⟨op, p⟩, hrun, hend⟩ := Option.bind_eq_some_iff.mp hx
  obtain ⟨_, rfl, hr⟩ | ⟨e, -, he⟩ := endingOf_server_eq_some hend
  swap
  · cases he
  obtain rfl := Prog.Ending.returned.inj hr
  obtain ⟨xs, cur, -, hserves, -⟩ := h.ok.answered
  cases hserves with
  | idle hserving _ =>
    rw [hs] at hserving
    cases hserving
  | busy hserving hd hop =>
    obtain ⟨rfl, -⟩ := Prod.mk.inj (Option.some.inj (hs.symm.trans hserving))
    rw [hrun] at hop
    obtain rfl := Option.some.inj hop
    exact h.ok.machine.returns hrun (method?_of_dispatchCall hd).1

theorem Reachable.step {s s' : Session} {l : Label} (h : s.Reachable rt b)
    (hs : s.step rt b l = some s') : s'.Reachable rt b := by
  obtain ⟨modules, h⟩ := h
  exact ⟨modules, h.tail ⟨l, trivial, hs⟩⟩

/-- A handler that has ended is answered. -/
theorem Reachable.exists_finish {s : Session} (h : s.Reachable rt b) {machine : Machine}
    (hm : s.machine.step b (.finish .server) = some machine) :
    ∃ s', s.finish rt b = some s' ∧ s'.machine = machine ∧ s'.requests = s.requests ∧
      s'.next = s.next := by
  obtain ⟨op, p, x, hrun, hend, -⟩ := Machine.step_finish hm
  have hx : s.ending? = some x := by
    unfold ending?
    rw [hrun]
    exact hend
  cases hs : s.serving with
  | none => exact ⟨{ s with machine := machine }, by simp only [finish, hx, hm, hs], rfl, rfl, rfl⟩
  | some c =>
    obtain ⟨m, seqid⟩ := c
    have hy : ∃ y, m.process rt seqid x = some y := by
      obtain ⟨r, -, rfl⟩ | ⟨e, -, rfl⟩ := endingOf_server_eq_some hend
      · obtain ⟨a, ha, -⟩ := h.answers hs hx r rfl
        exact ⟨m.replyResult seqid { success := a, hasSuccess := true },
          by simp only [Method.process, ha, Option.map_some]⟩
      · cases e with
        | lengthError => exact ⟨_, rfl⟩
        | exception msg =>
          simp only [Method.process]
          split_ifs
          · exact ⟨_, rfl⟩
          · exact ⟨_, rfl⟩
    obtain ⟨y, hy⟩ := hy
    refine ⟨{ s with machine := machine, serving := none, replies := s.replies ++ [y] }, ?_, rfl,
      rfl, rfl⟩
    simp only [finish, hx, hm, hs, hy, Option.map_some]

end Session

/-- Every call of the service is one that a client can make. -/
theorem Call.exists_operation {op : Operation} (h : op.isCall = true) :
    ∃ c : Call, c.operation = op := by
  cases op with
  | addBreakpoint bp =>
    exact ⟨.addBreakpoint bp.1, congrArg Operation.addBreakpoint
      (Subtype.ext (Breakpoint.sent_of_decoded bp.2))⟩
  | delBreakpoint bp =>
    exact ⟨.delBreakpoint bp.1, congrArg Operation.delBreakpoint
      (Subtype.ext (Breakpoint.sent_of_decoded bp.2))⟩
  | getBreakpoints => exact ⟨.getBreakpoints, rfl⟩
  | executeUntilEvent stopEvents => exact ⟨.executeUntilEvent stopEvents, rfl⟩
  | getCodeBlock => exact ⟨.getCodeBlock, rfl⟩
  | getContext => exact ⟨.getContext, rfl⟩
  | _ => cases h

/-- The states of a session are those of the machine : no peer brings it anywhere else, and there
is a peer for each. -/
theorem Machine.reachable_iff_session (rt : Runtime) {b : Build} {m : Machine} :
    m.Reachable b ↔ ∃ s : Session, s.Reachable rt b ∧ s.machine = m := by
  constructor
  · intro hm
    suffices h : ∃ s : Session, s.Reachable rt b ∧ s.machine = m ∧ s.next = s.requests.length by
      obtain ⟨s, hs, hsm, -⟩ := h
      exact ⟨s, hs, hsm⟩
    refine hm.invariant (I := fun m => ∃ s : Session, s.Reachable rt b ∧ s.machine = m ∧
      s.next = s.requests.length) (fun modules => ?_) ?_
    · exact ⟨.boot b modules, ⟨modules, Relation.ReflTransGen.refl⟩, rfl, rfl⟩
    · rintro _ l m' - ⟨s, hs, rfl, hnext⟩ - hstep
      by_cases hl : l.isEdge = true
      · cases l with
        | start a op =>
          obtain rfl : a = .server := by simpa [Label.isEdge] using hl
          obtain ⟨hidle, hcan, -⟩ := Machine.step_start hstep
          obtain ⟨c, rfl⟩ := Call.exists_operation (canStart_server hcan).1
          have hserve : Session.serve rt b { s with requests := s.requests ++ [c.send 0] } =
              some { s with
                requests := s.requests ++ [c.send 0]
                machine := m'
                next := s.next + 1
                serving := some (c.method, (c.send 0).seqid) } := by
            simp only [Session.serve, hidle, hnext, List.getElem?_concat_length,
              dispatchCall_send, hstep, Option.map_some]
          have harrive : s.step rt b (.arrive (c.send 0)) =
              some { s with requests := s.requests ++ [c.send 0] } := rfl
          exact ⟨_, (hs.step harrive).step (l := .serve) hserve, rfl, by simp [hnext]⟩
        | finish a =>
          obtain rfl : a = .server := by simpa [Label.isEdge] using hl
          obtain ⟨s', hs', hm', hreq, hnext'⟩ := hs.exists_finish hstep
          exact ⟨s', hs.step (l := .finish) hs', hm', by rw [hnext', hreq, hnext]⟩
        | action a env => cases hl
        | unload modinfo => cases hl
      · have hmove : s.step rt b (.machine l) = some { s with machine := m' } := by
          simp only [Session.step, hl, hstep, Option.map_some]
          rfl
        exact ⟨_, hs.step hmove, rfl, hnext⟩
  · rintro ⟨s, hs, rfl⟩
    exact hs.ok.machine

end ConcreteEval
