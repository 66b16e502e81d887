import ConcreteEval.Session

/-!
# The generated clients on their connection

A session whose peers are callers with a generated client. `ConcreteEvaluatorClient` numbers every
call 0 and takes the next message for its reply, so only one caller at a time can use it.
`ConcreteEvaluatorConcurrentClient` can be used by any number of callers at once. A call gets a
number that no call in progress has, and its caller reads the header of the next message; where that
has another number, the header is left for the others (`pending`) and the caller waits, to look
again whenever it is woken. What a caller takes from the stream is the next thing there, a header
or a struct (`readHeader`, `recv`) : nothing in the model keeps it from taking the struct of
another's reply.

It never does. The oldest call is the one whose reply is next (`Ok`), it ends by the `recv` of its
caller and by no other, and it ends with what its own handler has ended with
(`Reachable.calls_delivered`). A reply that is there is taken by its caller, whatever the other
callers do (`Reachable.exists_recv`).
-/

namespace ConcreteEval

open Thrift (Header Message SeqId Token)

variable {ι : Type}

/-- A call in progress, with the object that its caller passes for the result. -/
structure Waiting (ι : Type) where
  caller : ι
  seqid : SeqId
  call : Call
  object : call.method.Ret

/-- A call that has ended at its caller. -/
structure Ended (ι : Type) extends Waiting ι where
  outcome : Outcome call.method.Ret

/-- A call whose caller passes a default-constructed object. -/
def Waiting.fresh (c : ι) (seqid : SeqId) (call : Call) : Waiting ι :=
  ⟨c, seqid, call, call.method.fresh⟩

def Waiting.request (w : Waiting ι) : Request :=
  w.call.send w.seqid

structure Connection (ι : Type) where
  session : Session
  /-- The calls in progress, in the order in which they were sent. -/
  waiting : List (Waiting ι) := []
  /-- How much the callers have read of what the server has written. -/
  read : ℕ := 0
  /-- A header that was read, and whose struct comes next. -/
  pending : Option Header := none
  /-- The calls that have ended, in their order. -/
  ended : List (Ended ι) := []

namespace Connection

inductive Label (ι : Type)
  | send (w : Waiting ι)
  | recv (c : ι)
  | session (l : Session.Label)

/-- What the server has written. -/
def stream (s : Connection ι) : List Token :=
  s.session.replies.flatMap Message.tokens

/-- The header that the next reader looks at, and how much has been read then. -/
def readHeader (s : Connection ι) : Option (Header × ℕ) :=
  match s.pending with
  | some h => some (h, s.read)
  | none =>
    match s.stream[s.read]? with
    | some (.header h) => some (h, s.read + 1)
    | _ => none

/-- The struct that the next reader takes once `n` tokens have been read. -/
def readBody (s : Connection ι) (n : ℕ) : Option Thrift.Fields :=
  match s.stream[n]? with
  | some (.body fields) => some fields
  | _ => none

variable [DecidableEq ι] (rt : Runtime) (b : Build) (k : ClientKind)

/-- Whether the call can be made : the numbers of the concurrent client are those of
`generateSeqId`, and a caller makes one call after the other. -/
def canSend (s : Connection ι) (w : Waiting ι) : Bool :=
  match k with
  | .plain => s.waiting.isEmpty && w.seqid == 0
  | .concurrent => s.waiting.all fun w' => w'.caller ≠ w.caller && w'.seqid ≠ w.seqid

/-- `recv_*` of a caller, up to the end of its call or to where it waits again. -/
def recv (s : Connection ι) (c : ι) : Option (Connection ι) := do
  let w ← s.waiting.find? fun w => w.caller = c
  let (h, n) ← s.readHeader
  if k = .plain ∨ h.seqid = w.seqid then do
    let body ← s.readBody n
    let outcome ← w.call.method.recv rt k w.object h body
    return { s with
      waiting := s.waiting.eraseP fun w => w.caller = c
      read := n + 1
      pending := none
      ended := s.ended ++ [⟨w, outcome⟩] }
  else
    return { s with read := n, pending := some h }

/-- One step of the connection. The clients are the only ones who send. -/
def step (s : Connection ι) : Label ι → Option (Connection ι)
  | .send w =>
    if s.canSend k w then
      (s.session.step rt b (.arrive w.request)).map fun session =>
        { s with session := session, waiting := s.waiting ++ [w] }
    else none
  | .recv c => s.recv rt k c
  | .session (.arrive _) => none
  | .session l => (s.session.step rt b l).map fun session => { s with session := session }

def boot (modules : List Module) : Connection ι where
  session := .boot b modules

def Reachable (s : Connection ι) : Prop :=
  ∃ modules, Relation.ReflTransGen (Moves (step rt b k) fun _ _ => True) (boot b modules) s

/-- The connection after the steps `ls` from the start, if they can be taken. -/
def after (modules : List Module) (ls : List (Label ι)) : Connection ι :=
  (ls.foldlM (step rt b k) (boot b modules)).getD (boot b modules)

theorem reachable_after (modules : List Module) (ls : List (Label ι)) :
    (after rt b k modules ls).Reachable rt b k := by
  refine ⟨modules, ?_⟩
  unfold after
  cases h : ls.foldlM (step rt b k) (boot b modules) with
  | none => exact Relation.ReflTransGen.refl
  | some s => exact moves_of_foldlM (fun _ _ _ => trivial) h

/-- What the machine does at a step of the connection. -/
def machineLabel (s : Connection ι) : Label ι → Option ConcreteEval.Label
  | .session .serve =>
    match s.session.requests[s.session.next]?.bind (dispatchCall rt) with
    | some (.called _ op) => some (.start .server op)
    | _ => none
  | .session .finish => some (.finish .server)
  | .session (.machine l) => some l
  | _ => none

/-- A step at which the machine passes the check `c`. -/
def checkedStep (c : Machine → ConcreteEval.Label → Bool) (s : Connection ι) (l : Label ι) :
    Option (Connection ι) :=
  if (s.machineLabel rt l).all (c s.session.machine) then s.step rt b k l else none

/-- The connection after the steps `ls` from the start, if they can be taken and pass the check. -/
def afterChecked (c : Machine → ConcreteEval.Label → Bool) (modules : List Module)
    (ls : List (Label ι)) : Connection ι :=
  (ls.foldlM (checkedStep rt b k c) (boot b modules)).getD (boot b modules)

/-- Two callers have sent their calls to a server that is up. -/
def twoSent : List (Label ℕ) :=
  Session.startUp.map .session ++
    [.send (.fresh 1 0 .getContext), .send (.fresh 2 1 .getBreakpoints)]

/-- The server has replied to the first of the two. -/
def oneServed : List (Label ℕ) :=
  twoSent ++ (Session.serves 3).map .session

/-- The second caller looks first, and then each takes its reply. -/
def bothReturned : List (Label ℕ) :=
  oneServed ++ (Session.serves 3).map .session ++ [.recv 2, .recv 1, .recv 2]

variable {rt b k} {s s' : Connection ι}

/-- What a caller's look at the stream does. -/
theorem recv_cases {c : ι} (h : s.recv rt k c = some s') :
    ∃ w hd n, s.waiting.find? (fun w => w.caller = c) = some w ∧ s.readHeader = some (hd, n) ∧
      (((k = .plain ∨ hd.seqid = w.seqid) ∧ ∃ body outcome, s.readBody n = some body ∧
          w.call.method.recv rt k w.object hd body = some outcome ∧
          s' = { s with
            waiting := s.waiting.eraseP fun w => w.caller = c
            read := n + 1
            pending := none
            ended := s.ended ++ [⟨w, outcome⟩] }) ∨
        ¬(k = .plain ∨ hd.seqid = w.seqid) ∧ s' = { s with read := n, pending := some hd }) := by
  obtain ⟨w, hw, h⟩ := Option.bind_eq_some_iff.mp h
  obtain ⟨⟨hd, n⟩, hh, h⟩ := Option.bind_eq_some_iff.mp h
  refine ⟨w, hd, n, hw, hh, ?_⟩
  dsimp only at h
  split_ifs at h with hk
  · obtain ⟨body, hb, h⟩ := Option.bind_eq_some_iff.mp h
    obtain ⟨outcome, ho, h⟩ := Option.bind_eq_some_iff.mp h
    exact Or.inl ⟨hk, body, outcome, hb, ho, (Option.some.inj h).symm⟩
  · exact Or.inr ⟨hk, (Option.some.inj h).symm⟩

/-- The machine does as much as the label says. -/
theorem step_machine {l : Label ι} (h : s.step rt b k l = some s') :
    match s.machineLabel rt l with
    | some l => s.session.machine.step b l = some s'.session.machine
    | none => s'.session.machine = s.session.machine := by
  cases l with
  | send w =>
    simp only [step] at h
    split_ifs at h
    obtain ⟨session, hs, rfl⟩ := Option.map_eq_some_iff.mp h
    obtain rfl := Option.some.inj hs
    rfl
  | recv c =>
    obtain ⟨w, hd, n, -, -, ⟨-, body, outcome, -, -, rfl⟩ | ⟨-, rfl⟩⟩ := recv_cases h
    · rfl
    · rfl
  | session l =>
    cases l with
    | arrive x => cases h
    | serve =>
      obtain ⟨session, hs, rfl⟩ := Option.map_eq_some_iff.mp h
      obtain ⟨-, x, hx, ⟨y, hd, rfl⟩ | ⟨m, op, machine, hd, hm, rfl⟩⟩ := Session.serve_cases hs
      · simp only [machineLabel, hx, Option.bind_some, hd]
      · simpa only [machineLabel, hx, Option.bind_some, hd] using hm
    | finish =>
      obtain ⟨session, hs, rfl⟩ := Option.map_eq_some_iff.mp h
      obtain ⟨op, p, x, machine, -, -, hm, ⟨-, rfl⟩ | ⟨m, seqid, y, -, -, rfl⟩⟩ :=
        Session.finish_cases hs
      · exact hm
      · exact hm
    | machine l =>
      obtain ⟨session, hs, rfl⟩ := Option.map_eq_some_iff.mp h
      obtain ⟨-, machine, hm, rfl⟩ := Session.machine_cases hs
      exact hm

/-- A run that passes the check is one of the connection, and its machine has been reached by steps
that pass it. -/
theorem reached_afterChecked {c : Machine → ConcreteEval.Label → Bool}
    {cond : Machine → ConcreteEval.Label → Prop} (hc : ∀ m l, c m l = true → cond m l)
    (modules : List Module) (ls : List (Label ι)) :
    (afterChecked rt b k c modules ls).Reachable rt b k ∧
      (afterChecked rt b k c modules ls).session.machine.ReachedBy b cond := by
  let I : Connection ι → Prop := fun s =>
    s.Reachable rt b k ∧ s.session.machine.ReachedBy b cond
  have hboot : I (boot b modules) :=
    ⟨⟨modules, Relation.ReflTransGen.refl⟩, modules, Relation.ReflTransGen.refl⟩
  have hstep : ∀ s l s', I s → checkedStep rt b k c s l = some s' → I s' := by
    rintro s l s' ⟨⟨ms, hs⟩, ms', hm⟩ h
    unfold checkedStep at h
    split_ifs at h with hall
    refine ⟨⟨ms, hs.tail ⟨l, trivial, h⟩⟩, ms', ?_⟩
    have hmachine := step_machine h
    cases hl : s.machineLabel rt l with
    | none =>
      rw [hl] at hmachine
      rwa [hmachine]
    | some l' =>
      rw [hl] at hmachine hall
      exact hm.tail ⟨l', hc _ _ hall, hmachine⟩
  unfold afterChecked
  cases h : ls.foldlM (checkedStep rt b k c) (boot b modules) with
  | none => exact hboot
  | some s =>
    have hmoves : Relation.ReflTransGen (Moves (checkedStep rt b k c) fun _ _ => True)
        (boot b modules) s := moves_of_foldlM (fun _ _ _ => trivial) h
    have hI : I s := invariant_of_moves hboot (fun s l s' hs _ => hstep s l s' hs) hmoves
    exact hI

/-! ## The invariant -/

variable (rt) in
/-- The call has ended with what the handler has ended with that ran it. -/
structure Delivers (e : Ended ι) (z : Operation × Prog.Ending Halt Result) : Prop where
  operation : z.1 = e.call.operation
  outcome : e.call.method.delivers rt e.object z.2 = some e.outcome

/-- The calls that the server has ended. -/
def serverEnded (s : Connection ι) : List (Operation × Prog.Ending Halt Result) :=
  endedCalls s.session.machine.world.log

/-- How much of the stream the callers have read : the replies of the calls that have ended, and
the next header if it is pending. -/
inductive Position (s : Connection ι) : Prop
  | between (hp : s.pending = none) (hr : s.read = 2 * s.ended.length)
  | inside {y : Message} (hy : s.session.replies[s.ended.length]? = some y)
    (hp : s.pending = some y.header) (hr : s.read = 2 * s.ended.length + 1)

variable (rt b k) in
structure Ok (s : Connection ι) : Prop where
  session : s.session.Reachable rt b
  requests : s.session.requests = (s.ended.map Ended.toWaiting ++ s.waiting).map Waiting.request
  one : k = .plain → s.waiting.length ≤ 1
  distinct : s.waiting.Pairwise fun w w' => w.caller ≠ w'.caller ∧ w.seqid ≠ w'.seqid
  position : s.Position
  replied : s.ended.length ≤ s.session.replies.length
  delivers : List.Forall₂ (Delivers rt) s.ended (s.serverEnded.take s.ended.length)

omit [DecidableEq ι] in
theorem ok_boot (modules : List Module) : (boot b modules : Connection ι).Ok rt b k where
  session := ⟨modules, Relation.ReflTransGen.refl⟩
  requests := rfl
  one _ := Nat.zero_le 1
  distinct := .nil
  position := .between rfl rfl
  replied := le_refl 0
  delivers := .nil

section

omit [DecidableEq ι]

/-- The next header is that of the reply to the oldest call. -/
theorem Ok.readHeader_eq (h : s.Ok rt b k) : s.readHeader =
    s.session.replies[s.ended.length]?.map fun y => (y.header, 2 * s.ended.length + 1) := by
  unfold readHeader
  cases h.position with
  | between hp hr =>
    rw [hp, hr]
    simp only [stream, Thrift.getElem?_tokens_header]
    cases s.session.replies[s.ended.length]? <;> rfl
  | inside hy hp hr => rw [hp, hr, hy, Option.map_some]

/-- The struct behind it is that of the same reply. -/
theorem readBody_eq (s : Connection ι) (n : ℕ) :
    s.readBody (2 * n + 1) = s.session.replies[n]?.map Message.body := by
  unfold readBody
  simp only [stream, Thrift.getElem?_tokens_body]
  cases s.session.replies[n]? <;> rfl

theorem dispatchCall_request (w : Waiting ι) :
    dispatchCall rt w.request = some (.called w.call.method w.call.operation) :=
  dispatchCall_send rt w.call w.seqid

/-- A reply that no call has ended with is that to the oldest call, and says what its own handler
has ended with. -/
theorem Ok.exists_oldest (h : s.Ok rt b k) {y : Message}
    (hy : s.session.replies[s.ended.length]? = some y) :
    ∃ w rest z, s.waiting = w :: rest ∧
      s.serverEnded[s.ended.length]? = some (w.call.operation, z) ∧ y.header.seqid = w.seqid ∧
      ∃ o, w.call.method.delivers rt w.object z = some o ∧
        w.call.method.recv rt k w.object y.header y.body = some o := by
  obtain ⟨xs, cur, htake, -, hans⟩ := h.session.ok.answered
  have hxs : ∀ x ∈ xs, ∃ w : Waiting ι, x = w.request := by
    intro x hx
    have hmem : x ∈ s.session.requests.take s.session.next := by
      rw [htake]
      exact List.mem_append_left _ hx
    have hmem' := List.mem_of_mem_take hmem
    rw [h.requests] at hmem'
    obtain ⟨w, -, rfl⟩ := List.mem_map.mp hmem'
    exact ⟨w, rfl⟩
  obtain ⟨-, hys, hi⟩ := hans.getElem? fun x hx => by
    obtain ⟨w, rfl⟩ := hxs x hx
    exact ⟨_, _, dispatchCall_request w⟩
  have hlt : s.ended.length < xs.length := by
    rw [← hys]
    exact (List.getElem?_eq_some_iff.mp hy).1
  have hx : xs[s.ended.length]? = s.waiting[0]?.map Waiting.request := by
    have hpre : (xs ++ cur)[s.ended.length]? = s.session.requests[s.ended.length]? := by
      rw [← htake, List.getElem?_take_of_lt]
      have hlen := congrArg List.length htake
      rw [List.length_take, List.length_append] at hlen
      omega
    rw [List.getElem?_append_left hlt] at hpre
    rw [hpre, h.requests, List.getElem?_map, List.getElem?_append_right (by simp)]
    simp
  cases hw : s.waiting with
  | nil =>
    rw [hw] at hx
    exact absurd hx (by simp [hlt])
  | cons w rest =>
    rw [hw] at hx
    obtain ⟨z, y', hz, hy', hproc⟩ := hi _ _ _ _ hx (dispatchCall_request w)
    obtain rfl := Option.some.inj (hy'.symm.trans hy)
    have hmethod : w.call.operation.method? = some w.call.method :=
      (Session.method?_of_dispatchCall (dispatchCall_send rt w.call w.seqid)).1
    have hanswers : ∀ r, z = .returned r →
        ∃ a, w.call.method.unpack r = some a ∧ w.call.method.Sendable a := by
      rintro r rfl
      exact h.session.ok.machine.ended_answers (List.mem_of_getElem? hz) hmethod
    obtain ⟨hseqid, -, hrecv⟩ := Method.delivers_process rt k w.object hanswers hproc
    obtain ⟨o, ho⟩ := Method.exists_delivers rt w.object hproc
    exact ⟨w, rest, z, rfl, hz, hseqid, o, ho, hrecv.trans ho⟩

/-- The callers go on from what they have read while the server goes on writing. -/
theorem Ok.of_session (h : s.Ok rt b k) {session : Session} (hs : session.Reachable rt b)
    {ws : List (Waiting ι)}
    (hreq : session.requests = (s.ended.map Ended.toWaiting ++ ws).map Waiting.request)
    (hone : k = .plain → ws.length ≤ 1)
    (hdis : ws.Pairwise fun w w' => w.caller ≠ w'.caller ∧ w.seqid ≠ w'.seqid)
    (hreplies : s.session.replies <+: session.replies)
    (hended : s.serverEnded <+: endedCalls session.machine.world.log) :
    Ok rt b k { s with session := session, waiting := ws } := by
  have htake : (endedCalls session.machine.world.log).take s.ended.length =
      s.serverEnded.take s.ended.length := by
    have hlen := h.delivers.length_eq
    rw [List.length_take] at hlen
    obtain ⟨es, hes⟩ := hended
    rw [← hes, List.take_append_of_le_length (by omega)]
  refine ⟨hs, hreq, hone, hdis, ?_, h.replied.trans hreplies.length_le, ?_⟩
  · cases h.position with
    | between hp hr => exact .between hp hr
    | inside hy hp hr =>
      obtain ⟨ys, hys⟩ := hreplies
      refine .inside ?_ hp hr
      simp only [← hys]
      rw [List.getElem?_append_left (List.getElem?_eq_some_iff.mp hy).1, hy]
  · change List.Forall₂ _ _ (List.take _ (endedCalls session.machine.world.log))
    rw [htake]
    exact h.delivers

end

theorem Ok.send (h : s.Ok rt b k) {w : Waiting ι} (hcan : s.canSend k w = true)
    {session : Session} (hs : s.session.step rt b (.arrive w.request) = some session) :
    Ok rt b k { s with session := session, waiting := s.waiting ++ [w] } := by
  obtain rfl := Option.some.inj hs
  refine h.of_session (h.session.step hs) ?_ ?_ ?_ List.prefix_rfl List.prefix_rfl
  · simp only [h.requests, ← List.append_assoc, List.map_append, List.map_cons, List.map_nil]
  · rintro rfl
    have hempty : s.waiting = [] := by
      simp only [canSend, Bool.and_eq_true, List.isEmpty_iff] at hcan
      exact hcan.1
    simp [hempty]
  · refine List.pairwise_append.mpr ⟨h.distinct, List.pairwise_singleton .., ?_⟩
    intro w' hw' w'' hw''
    obtain rfl := List.mem_singleton.mp hw''
    cases k with
    | plain =>
      simp only [canSend, Bool.and_eq_true, List.isEmpty_iff] at hcan
      rw [hcan.1] at hw'
      cases hw'
    | concurrent =>
      simp only [canSend, List.all_eq_true, Bool.and_eq_true, decide_eq_true_eq] at hcan
      exact hcan w' hw'

omit [DecidableEq ι] in
/-- Only the oldest call can take the reply that is next. -/
theorem Ok.eq_oldest (h : s.Ok rt b k) {w₀ w : Waiting ι} {rest : List (Waiting ι)}
    (hw₀ : s.waiting = w₀ :: rest) (hw : w ∈ s.waiting) (hk : k = .plain ∨ w₀.seqid = w.seqid) :
    w = w₀ := by
  rw [hw₀] at hw
  refine (List.mem_cons.mp hw).resolve_right fun hrest => ?_
  rcases hk with hk | hk
  · have hone := h.one hk
    rw [hw₀, List.length_cons] at hone
    have := List.length_pos_of_mem hrest
    omega
  · have hdis := h.distinct
    rw [hw₀] at hdis
    exact (List.rel_of_pairwise_cons hdis hrest).2 hk

omit [DecidableEq ι] in
/-- The oldest call ends with its reply. -/
theorem Ok.ends (h : s.Ok rt b k) {w : Waiting ι} {rest : List (Waiting ι)}
    (hw : s.waiting = w :: rest) {y : Message}
    (hy : s.session.replies[s.ended.length]? = some y) {z : Prog.Ending Halt Result}
    (hz : s.serverEnded[s.ended.length]? = some (w.call.operation, z))
    {outcome : Outcome w.call.method.Ret}
    (ho : w.call.method.delivers rt w.object z = some outcome) :
    Ok rt b k { s with
      waiting := rest
      read := 2 * s.ended.length + 1 + 1
      pending := none
      ended := s.ended ++ [⟨w, outcome⟩] } := by
  have hlen : (s.ended ++ [(⟨w, outcome⟩ : Ended ι)]).length = s.ended.length + 1 := by simp
  refine ⟨h.session, ?_, fun hk => ?_, ?_, .between rfl ?_, ?_, ?_⟩
  · rw [h.requests, hw]
    simp
  · have hone := h.one hk
    rw [hw, List.length_cons] at hone
    change rest.length ≤ 1
    omega
  · have hdis := h.distinct
    rw [hw] at hdis
    exact hdis.of_cons
  · change 2 * s.ended.length + 1 + 1 = 2 * (s.ended ++ [(⟨w, outcome⟩ : Ended ι)]).length
    omega
  · change (s.ended ++ [(⟨w, outcome⟩ : Ended ι)]).length ≤ s.session.replies.length
    have hlt := (List.getElem?_eq_some_iff.mp hy).1
    omega
  · change List.Forall₂ _ (s.ended ++ [(⟨w, outcome⟩ : Ended ι)]) (s.serverEnded.take _)
    rw [hlen, List.take_add_one, hz, Option.toList_some]
    exact List.rel_append h.delivers (.cons ⟨rfl, ho⟩ .nil)

theorem Ok.recv (h : s.Ok rt b k) {c : ι} (hs : s.recv rt k c = some s') : s'.Ok rt b k := by
  obtain ⟨w, hd, n, hw, hh, hcase⟩ := recv_cases hs
  rw [h.readHeader_eq] at hh
  obtain ⟨y, hy, heq⟩ := Option.map_eq_some_iff.mp hh
  obtain ⟨rfl, rfl⟩ := Prod.mk.inj heq
  rcases hcase with ⟨hk, body, outcome, hbody, ho, rfl⟩ | ⟨-, rfl⟩
  · obtain ⟨w₀, rest, z, hw₀, hz, hseqid, o, hdelivers, hrecv⟩ := h.exists_oldest hy
    rw [hseqid] at hk
    obtain rfl := h.eq_oldest hw₀ (List.mem_of_find?_eq_some hw) hk
    rw [readBody_eq, hy] at hbody
    obtain rfl := Option.some.inj hbody
    obtain rfl := Option.some.inj (hrecv.symm.trans ho)
    have herase : s.waiting.eraseP (fun w => w.caller = c) = rest := by
      have hc := List.find?_some hw
      rw [hw₀]
      exact List.eraseP_cons_of_pos hc
    rw [herase]
    exact h.ends hw₀ hy hz hdelivers
  · exact ⟨h.session, h.requests, h.one, h.distinct, .inside hy rfl rfl, h.replied, h.delivers⟩

theorem Ok.step {l : Label ι} (h : s.Ok rt b k) (hs : s.step rt b k l = some s') :
    s'.Ok rt b k := by
  have hsession : ∀ (l : Session.Label) (session : Session), (∀ x, l ≠ .arrive x) →
      s.session.step rt b l = some session → Ok rt b k { s with session := session } := by
    intro l session hl hstep
    have hreq := Session.step_requests hstep hl
    obtain ⟨hreplies, hended⟩ := Session.step_prefix hstep
    exact h.of_session (h.session.step hstep) (hreq ▸ h.requests) h.one h.distinct hreplies hended
  cases l with
  | send w =>
    simp only [Connection.step] at hs
    split_ifs at hs with hcan
    obtain ⟨session, hstep, rfl⟩ := Option.map_eq_some_iff.mp hs
    exact h.send hcan hstep
  | recv c => exact h.recv hs
  | session l =>
    cases l with
    | arrive x => cases hs
    | serve =>
      obtain ⟨session, hstep, rfl⟩ := Option.map_eq_some_iff.mp hs
      exact hsession .serve session (by simp) hstep
    | finish =>
      obtain ⟨session, hstep, rfl⟩ := Option.map_eq_some_iff.mp hs
      exact hsession .finish session (by simp) hstep
    | machine l =>
      obtain ⟨session, hstep, rfl⟩ := Option.map_eq_some_iff.mp hs
      exact hsession (.machine l) session (by simp) hstep

theorem Reachable.ok (h : s.Reachable rt b k) : s.Ok rt b k := by
  obtain ⟨modules, h⟩ := h
  exact invariant_of_moves (ok_boot modules) (fun _ _ _ hs _ hstep => hs.step hstep) h

/-! ## Calls over a whole run -/

/-- Any number of callers, with either client and in any interleaving with the server and the
application : the calls that have ended at their callers are the first of those that the server has
ended, in this order, each with what its own handler ended with, and the server has ended calls in
the order in which they were sent. -/
theorem Reachable.calls_delivered (h : s.Reachable rt b k) :
    List.Forall₂ (Delivers rt) s.ended (s.serverEnded.take s.ended.length) ∧
      s.serverEnded.map Prod.fst <+:
        (s.ended.map Ended.toWaiting ++ s.waiting).map fun w => w.call.operation := by
  have hok := h.ok
  refine ⟨hok.delivers, ?_⟩
  obtain ⟨xs, cur, htake, -, hans⟩ := hok.session.ok.answered
  have hxs : xs <+: (s.ended.map Ended.toWaiting ++ s.waiting).map Waiting.request := by
    rw [← hok.requests]
    exact (List.prefix_append xs cur).trans (htake ▸ List.take_prefix _ _)
  obtain ⟨ws, hws, rfl⟩ := List.prefix_map_iff.mp hxs
  obtain ⟨hes, -, hi⟩ := hans.getElem? fun x hx => by
    obtain ⟨w, -, rfl⟩ := List.mem_map.mp hx
    exact ⟨_, _, dispatchCall_request w⟩
  have hops : s.serverEnded.map Prod.fst = ws.map fun w => w.call.operation := by
    refine List.ext_getElem? fun i => ?_
    rw [List.getElem?_map, List.getElem?_map]
    cases hw : ws[i]? with
    | none =>
      have hge := List.getElem?_eq_none_iff.mp hw
      have hnone : s.serverEnded[i]? = none := by
        rw [List.getElem?_eq_none_iff]
        simpa [serverEnded, hes] using hge
      rw [hnone]
      rfl
    | some w =>
      obtain ⟨z, y, hz, -⟩ := hi i w.request _ _ (by rw [List.getElem?_map, hw]; rfl)
        (dispatchCall_request w)
      have hz' : s.serverEnded[i]? = some (w.call.operation, z) := hz
      rw [hz']
      rfl
  rw [hops]
  exact hws.map _

theorem calls_delivered_bothReturned :
    (after libraries .debug .concurrent [] bothReturned).ended.length = 2 ∧
      List.Forall₂ (Delivers libraries)
        (after libraries .debug .concurrent [] bothReturned).ended
        ((after libraries .debug .concurrent [] bothReturned).serverEnded.take 2) :=
  ⟨rfl, (reachable_after libraries .debug .concurrent [] bothReturned).calls_delivered.1⟩

/-- The next reply is taken by the caller of the oldest call, and left alone by the others. -/
theorem Ok.takes_next (hok : s.Ok rt b k)
    (hlt : s.ended.length < s.session.replies.length) :
    ∃ y w rest, s.session.replies[s.ended.length]? = some y ∧ s.waiting = w :: rest ∧
      (∃ s' o, s.recv rt k w.caller = some s' ∧ s'.session = s.session ∧ s'.pending = none ∧
        s'.ended = s.ended ++ [⟨w, o⟩] ∧ s'.waiting = rest) ∧
      ∀ w' ∈ rest, ∃ s', s.recv rt k w'.caller = some s' ∧ s'.session = s.session ∧
        s'.pending = some y.header ∧ s'.ended = s.ended ∧ s'.waiting = s.waiting := by
  obtain ⟨y, hy⟩ : ∃ y, s.session.replies[s.ended.length]? = some y :=
    ⟨_, List.getElem?_eq_getElem hlt⟩
  obtain ⟨w, rest, z, hw, hz, hseqid, o, ho, hrecv⟩ := hok.exists_oldest hy
  have hheader : s.readHeader = some (y.header, 2 * s.ended.length + 1) := by
    rw [hok.readHeader_eq, hy, Option.map_some]
  have hbody : s.readBody (2 * s.ended.length + 1) = some y.body := by
    rw [readBody_eq, hy, Option.map_some]
  have hdis := hok.distinct
  rw [hw] at hdis
  refine ⟨y, w, rest, hy, hw, ?_, fun w' hw' => ?_⟩
  · have hfind : s.waiting.find? (fun w' => w'.caller = w.caller) = some w := by
      rw [hw]
      exact List.find?_cons_of_pos (by simp)
    have herase : s.waiting.eraseP (fun w' => w'.caller = w.caller) = rest := by
      rw [hw]
      exact List.eraseP_cons_of_pos (by simp)
    refine ⟨{ s with
      waiting := rest
      read := 2 * s.ended.length + 1 + 1
      pending := none
      ended := s.ended ++ [⟨w, o⟩] }, o, ?_, rfl, rfl, rfl, rfl⟩
    simp only [Connection.recv, hfind, hheader, hbody, hrecv, herase, hseqid, or_true, if_true,
      Option.bind_eq_bind, Option.bind_some, Option.pure_def]
  · obtain ⟨hcaller, hid⟩ := List.rel_of_pairwise_cons hdis hw'
    have hk : ¬(k = .plain ∨ y.header.seqid = w'.seqid) := by
      rintro (hk | hk)
      · have hone := hok.one hk
        rw [hw, List.length_cons] at hone
        have := List.length_pos_of_mem hw'
        omega
      · exact hid (hseqid.symm.trans hk)
    have hfind : s.waiting.find? (fun w => w.caller = w'.caller) = some w' := by
      obtain ⟨l₁, l₂, hl⟩ := List.append_of_mem hw'
      rw [hw, List.find?_cons_of_neg (by simpa using hcaller), hl, List.find?_append,
        List.find?_cons_of_pos (by simp)]
      have hnone : l₁.find? (fun w => w.caller = w'.caller) = none := by
        rw [List.find?_eq_none]
        intro u hu
        have hrel := (List.pairwise_append.mp (hl ▸ hdis.of_cons)).2.2 u hu w' List.mem_cons_self
        simpa using hrel.1
      rw [hnone, Option.none_or]
    refine ⟨{ s with read := 2 * s.ended.length + 1, pending := some y.header }, ?_, rfl, rfl,
      rfl, rfl⟩
    simp only [Connection.recv, hfind, hheader, hk, if_false, Option.bind_eq_bind,
      Option.bind_some, Option.pure_def]

/-- A reply that is there ends the oldest call, at its own caller. Another caller who looks at it
first leaves it there, with its header for the others. -/
theorem Reachable.exists_recv (h : s.Reachable rt b k)
    (hlt : s.ended.length < s.session.replies.length) :
    ∃ y w rest, s.session.replies[s.ended.length]? = some y ∧ s.waiting = w :: rest ∧
      (∃ s' o, s.recv rt k w.caller = some s' ∧ s'.session = s.session ∧ s'.pending = none ∧
        s'.ended = s.ended ++ [⟨w, o⟩] ∧ s'.waiting = rest) ∧
      ∀ w' ∈ rest, ∃ s', s.recv rt k w'.caller = some s' ∧ s'.session = s.session ∧
        s'.pending = some y.header ∧ s'.ended = s.ended ∧ s'.waiting = s.waiting :=
  h.ok.takes_next hlt

theorem exists_recv_oneServed :
    ∃ y w rest, (after libraries .debug .concurrent [] oneServed).session.replies[0]? = some y ∧
      (after libraries .debug .concurrent [] oneServed).waiting = w :: rest ∧
      (∃ s' o, (after libraries .debug .concurrent [] oneServed).recv libraries .concurrent
          w.caller = some s' ∧
        s'.session = (after libraries .debug .concurrent [] oneServed).session ∧
        s'.pending = none ∧
        s'.ended = (after libraries .debug .concurrent [] oneServed).ended ++ [⟨w, o⟩] ∧
        s'.waiting = rest) ∧
      ∀ w' ∈ rest, ∃ s', (after libraries .debug .concurrent [] oneServed).recv libraries
          .concurrent w'.caller = some s' ∧
        s'.session = (after libraries .debug .concurrent [] oneServed).session ∧
        s'.pending = some y.header ∧
        s'.ended = (after libraries .debug .concurrent [] oneServed).ended ∧
        s'.waiting = (after libraries .debug .concurrent [] oneServed).waiting :=
  (reachable_after libraries .debug .concurrent [] oneServed).exists_recv (by decide)

/-- As long as no reply is there, the server has not come to the oldest call or is in it : the
server thread is in its start-up or in the call, or it can take it next. -/
theorem Reachable.oldest_served (h : s.Reachable rt b k) {w : Waiting ι} {rest : List (Waiting ι)}
    (hw : s.waiting = w :: rest) (hno : s.session.replies.length = s.ended.length) :
    (∃ op p, s.session.machine.running .server = some (op, p) ∧
        (op = .serverThread ∨ op = w.call.operation)) ∨
      ∃ s', s.step rt b k (.session .serve) = some s' ∧
        s'.session.machine.running .server =
          some (w.call.operation, w.call.operation.prog b) := by
  have hok := h.ok
  have hnext := hok.session.ok.next
  obtain ⟨xs, cur, htake, hserves, hans⟩ := hok.session.ok.answered
  have hxs : xs.length = s.ended.length := by
    rw [← hno]
    exact hans.forall₂_matches.length_eq
  have hlen := congrArg List.length htake
  rw [List.length_take, List.length_append, min_eq_left hnext] at hlen
  have hreq : s.session.requests[s.ended.length]? = some w.request := by
    rw [hok.requests, hw, List.getElem?_map, List.getElem?_append_right (by simp)]
    simp
  cases hserves with
  | idle hserving hop =>
    cases hrun : s.session.machine.running .server with
    | some r =>
      obtain ⟨op, p⟩ := r
      exact Or.inl ⟨op, p, rfl, Or.inl (hop op (by rw [hrun]; rfl))⟩
    | none =>
      rw [List.length_nil, Nat.add_zero, hxs] at hlen
      let machine := s.session.machine.set ((s.session.machine.world.enter w.call.operation).note
        (.started .server w.call.operation)) .server
          (some (w.call.operation, w.call.operation.prog b))
      have hstart : s.session.machine.step b (.start .server w.call.operation) = some machine := by
        have hcan : s.session.machine.world.canStart .server w.call.operation = true :=
          w.call.isCall_operation
        simp only [Machine.step, hrun, hcan, if_true, machine]
      have hserve : s.session.serve rt b = some { s.session with
          machine := machine
          next := s.session.next + 1
          serving := some (w.call.method, w.request.seqid) } := by
        simp only [Session.serve, hrun, hlen, hreq, dispatchCall_request, hstart, Option.map_some]
      refine Or.inr ⟨{ s with session := _ }, congrArg (Option.map _) hserve, ?_⟩
      exact Machine.set_running_self ..
  | @busy x m op hserving hx hop =>
    have hx' : s.session.requests[s.ended.length]? = some x := by
      rw [List.length_singleton, hxs] at hlen
      have hlast : (s.session.requests.take s.session.next)[s.ended.length]? = some x := by
        rw [htake, ← hxs, List.getElem?_concat_length]
      rwa [List.getElem?_take_of_lt (by omega)] at hlast
    obtain rfl := Option.some.inj (hx'.symm.trans hreq)
    rw [dispatchCall_request] at hx
    obtain ⟨-, rfl⟩ := Dispatch.called.inj (Option.some.inj hx)
    obtain ⟨⟨op, p⟩, hrun, hfst⟩ := Option.map_eq_some_iff.mp hop
    exact Or.inl ⟨op, p, hrun, Or.inr hfst⟩

end Connection

end ConcreteEval
