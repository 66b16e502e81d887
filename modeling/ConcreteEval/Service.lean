import ConcreteEval.Machine
import ConcreteEval.Results

/-!
# `ConcreteEvaluator.cpp`

The generated code between the wire and the handler. The methods differ in their names, in what
they take and return, and in whether their result has a field for the service's exception
(`Method.result`); what they share is written once. `dispatchCall` reads a request up to the call of
the handler, `process` is the rest, from the end of the handler on, and `recv` is what a client
makes of the reply.

A handler's exception has a field in the result of four methods. In the others it is an exception
like any other, of which the client gets the text (`Method.delivers_process`). Any method answers a
`std::exception` with its text, and a name that is not in `processMap_` with an error.

Thrift's own exception is read and written by the library, and the text of a `std::length_error`
is the runtime's (`Runtime`). Event handlers of the processor are left out.
-/

namespace ConcreteEval

open Thrift (FieldId Fields Value readStruct readStruct? Header Message MessageType SeqId
  TApplicationException ExceptionCodec)

/-- What the service code takes from its libraries. -/
structure Runtime where
  codec : ExceptionCodec
  /-- `what ()` of a `std::length_error`. -/
  lengthErrorWhat : CxxString

/-- One field of `TApplicationException::read`. -/
def readApplicationField (x : TApplicationException) (fid : FieldId) (v : Value) :
    TApplicationException :=
  match v with
  | .string message => if fid = 1 then { x with message := message } else x
  | .i32 type => if fid = 2 then { x with type := type } else x
  | _ => x

/-- The libraries of a build. -/
def libraries : Runtime where
  codec :=
    { write x := [(1, .string x.message), (2, .i32 x.type)]
      read := readStruct readApplicationField ⟨TApplicationException.unknown, []⟩
      read_write _ := rfl }
  lengthErrorWhat := "basic_string::_M_create".toList

inductive Method
  | addBreakpoint
  | delBreakpoint
  | getBreakpoints
  | executeUntilEvent
  | getCodeBlock
  | getContext
  deriving DecidableEq

namespace Method

def name : Method → CxxString
  | .addBreakpoint => "addBreakpoint".toList
  | .delBreakpoint => "delBreakpoint".toList
  | .getBreakpoints => "getBreakpoints".toList
  | .executeUntilEvent => "executeUntilEvent".toList
  | .getCodeBlock => "getCodeBlock".toList
  | .getContext => "getContext".toList

/-- What a call of the method returns. -/
@[reducible] def Ret : Method → Type
  | .addBreakpoint | .delBreakpoint => Unit
  | .getBreakpoints => List Breakpoint
  | .executeUntilEvent => EventType
  | .getCodeBlock => CodeBlock
  | .getContext => RegisterContext

/-- The `success` of a default-constructed result. -/
def fresh : (m : Method) → m.Ret
  | .addBreakpoint | .delBreakpoint => ()
  | .getBreakpoints => []
  | .executeUntilEvent => .breakpoint
  | .getCodeBlock => {}
  | .getContext => ∅

/-- The result of the handler. -/
def pack : (m : Method) → m.Ret → Result
  | .addBreakpoint, _ | .delBreakpoint, _ => .void
  | .getBreakpoints, s => .breakpoints s
  | .executeUntilEvent, e => .event e
  | .getCodeBlock, b => .codeBlock b
  | .getContext, c => .registers c

/-- What the method returns, if the result is one of its handler. -/
def unpack : (m : Method) → Result → Option m.Ret
  | .addBreakpoint, .void | .delBreakpoint, .void => some ()
  | .getBreakpoints, .breakpoints s => some s
  | .executeUntilEvent, .event e => some e
  | .getCodeBlock, .codeBlock b => some b
  | .getContext, .registers c => some c
  | _, _ => none

theorem pack_of_unpack {m : Method} {r : Result} {a : m.Ret} (h : m.unpack r = some a) :
    r = m.pack a := by
  cases m <;> cases r <;> cases h <;> rfl

end Method

/-! ## Results -/

/-- How a method's result goes over the wire. -/
structure ResultType (α : Type) where
  /-- Whether there is a field for the service's exception. -/
  throws : Bool
  /-- Read the field `success` into the object that is there : `none` where the bytes are taken for
  something else, and `some none` where the field is skipped. -/
  readSuccess : α → Value → Option (Option α)
  /-- The field `success`, if the method returns something. -/
  writeSuccess : α → Option Value
  /-- What a result without a field stands for. -/
  empty : Option α

def voidResult : ResultType Unit where
  throws := true
  readSuccess _ _ := some none
  writeSuccess _ := none
  empty := some ()

/-- `ConcreteEvaluator_getBreakpoints_result`. -/
def getBreakpointsResult : ResultType (List Breakpoint) where
  throws := false
  readSuccess _ v :=
    match v with
    | .set elems => (readBreakpoints elems).map some
    | _ => some none
  writeSuccess s := some (.set (writeBreakpoints s))
  empty := none

/-- `ConcreteEvaluator_executeUntilEvent_result`. A number that is not an event is outside of the
enumeration, and what the cast makes of it is not modelled. -/
def executeUntilEventResult : ResultType EventType where
  throws := false
  readSuccess _ v :=
    match v with
    | .i32 n => (EventType.ofNumber? n).map some
    | _ => some none
  writeSuccess e := some (.i32 e.number)
  empty := none

/-- `ConcreteEvaluator_getCodeBlock_result`. -/
def getCodeBlockResult : ResultType CodeBlock where
  throws := true
  readSuccess b v :=
    match v with
    | .struct fields => some (some (b.read fields))
    | _ => some none
  writeSuccess b := some (.struct b.write)
  empty := none

/-- `ConcreteEvaluator_getContext_result`. -/
def getContextResult : ResultType RegisterContext where
  throws := true
  readSuccess _ v :=
    match v with
    | .map entries => (readRegisters entries).map some
    | _ => some none
  writeSuccess c := some (.map (writeRegisters c))
  empty := none

/-- The result struct of the method; those of `addBreakpoint` and `delBreakpoint` are alike. -/
def Method.result : (m : Method) → ResultType m.Ret
  | .addBreakpoint | .delBreakpoint => voidResult
  | .getBreakpoints => getBreakpointsResult
  | .executeUntilEvent => executeUntilEventResult
  | .getCodeBlock => getCodeBlockResult
  | .getContext => getContextResult

/-- The members of a result struct. -/
structure CallResult (α : Type) where
  success : α
  exc : Exception := {}
  hasSuccess : Bool := false
  hasExc : Bool := false

namespace CallResult

variable {α : Type} (t : ResultType α)

/-- One field of `ConcreteEvaluator_*_result::read`, and of the same for `_presult`. -/
def readField (r : CallResult α) (fid : FieldId) (v : Value) : Option (CallResult α) :=
  if fid = 0 then
    (t.readSuccess r.success v).map fun success =>
      match success with
      | some a => { r with success := a, hasSuccess := true }
      | none => r
  else if fid = 1 ∧ t.throws = true then
    match v with
    | .struct fields => some { r with exc := r.exc.read fields, hasExc := true }
    | _ => some r
  else some r

/-- `ConcreteEvaluator_*_result::read`, where `success` is the object that is there. -/
def read (success : α) (fields : Fields) : Option (CallResult α) :=
  readStruct? (readField t) { success := success } fields

/-- `ConcreteEvaluator_*_result::write`. -/
def write (r : CallResult α) : Fields :=
  if r.hasSuccess then ((t.writeSuccess r.success).map fun v => (0, v)).toList
  else if r.hasExc then [(1, .struct r.exc.write)]
  else []

variable {t} {success a b : α}

/-- A value comes back, read into the object that is there. -/
theorem read_write_success {v : Value} (hw : t.writeSuccess a = some v)
    (hr : t.readSuccess success v = some (some b)) :
    read t success (write t { success := a, hasSuccess := true }) =
      some { success := b, hasSuccess := true } := by
  simp [read, write, hw, readStruct?, readField, hr]

/-- An exception comes back, and the object that is there is left alone. -/
theorem read_write_exc (ht : t.throws = true) (e : Exception) :
    read t success (write t { success := a, exc := e, hasExc := true }) =
      some { success := success, exc := e, hasExc := true } := by
  simp [read, write, readStruct?, readField, ht]

end CallResult

/-! ## Requests -/

/-- A request, as `dispatchCall` gets it. -/
structure Request where
  fname : CxxString
  seqid : SeqId
  args : Fields

/-- One field of `ConcreteEvaluator_executeUntilEvent_args::read`. -/
def readStopEventsField (s : EventTypes) (fid : FieldId) (v : Value) : Option EventTypes :=
  if fid = 1 then
    match v with
    | .set elems => readEvents elems
    | _ => some s
  else some s

/-- `ConcreteEvaluator_*_args::read` : the call of the handler. The methods without arguments skip
every field. -/
def Method.readArgs (m : Method) (args : Fields) : Option Operation :=
  match m with
  | .addBreakpoint => some (.addBreakpoint (readBreakpointArgs args))
  | .delBreakpoint => some (.delBreakpoint (readBreakpointArgs args))
  | .getBreakpoints => some .getBreakpoints
  | .executeUntilEvent => (readStruct? readStopEventsField ∅ args).map .executeUntilEvent
  | .getCodeBlock => some .getCodeBlock
  | .getContext => some .getContext

/-- The entries of `processMap_`. -/
def processMap : List Method :=
  [.addBreakpoint, .delBreakpoint, .getBreakpoints, .executeUntilEvent, .getCodeBlock, .getContext]

/-- `processMap_.find (fname)`. -/
def findMethod (fname : CxxString) : Option Method :=
  processMap.find? fun m => m.name = fname

theorem findMethod_name (m : Method) : findMethod m.name = some m := by
  cases m <;> decide

theorem name_of_findMethod {fname : CxxString} {m : Method} (h : findMethod fname = some m) :
    m.name = fname := by
  simpa using List.find?_some h

/-- What `dispatchCall` does up to the handler : it replies at once, or a handler is called. -/
inductive Dispatch
  | replied (x : Message)
  | called (m : Method) (op : Operation)

variable (rt : Runtime)

/-- `ConcreteEvaluatorProcessor::dispatchCall`, up to the call of the handler. -/
def dispatchCall (x : Request) : Option Dispatch :=
  match findMethod x.fname with
  | none =>
    some (.replied ⟨⟨x.fname, .exception, x.seqid⟩, rt.codec.write
      ⟨TApplicationException.unknownMethod,
        "Invalid method name: '".toList ++ x.fname ++ "'".toList⟩⟩)
  | some m => (m.readArgs x.args).map (.called m)

/-! ## Replies -/

/-- `what ()`. -/
def Thrown.what : Thrown → CxxString
  | .exception msg => (Exception.mk msg).what
  | .lengthError => rt.lengthErrorWhat.cStr

/-- The reply of `process_*` to an exception that it does not know. -/
def Method.replyError (m : Method) (seqid : SeqId) (e : Thrown) : Message :=
  ⟨⟨m.name, .exception, seqid⟩, rt.codec.write ⟨TApplicationException.unknown, e.what rt⟩⟩

/-- The reply of `process_*` with a result. -/
def Method.replyResult (m : Method) (seqid : SeqId) (r : CallResult m.Ret) : Message :=
  ⟨⟨m.name, .reply, seqid⟩, r.write m.result⟩

/-- `ConcreteEvaluatorProcessor::process_*`, from the end of the handler on. -/
def Method.process (m : Method) (seqid : SeqId) : Prog.Ending Halt Result → Option Message
  | .returned r =>
    (m.unpack r).map fun a => m.replyResult seqid { success := a, hasSuccess := true }
  | .stopped (.thrown (.exception msg)) =>
    if m.result.throws then
      some (m.replyResult seqid { success := m.fresh, exc := ⟨msg⟩, hasExc := true })
    else some (m.replyError rt seqid (.exception msg))
  | .stopped (.thrown e) => some (m.replyError rt seqid e)
  | .stopped (.fault _) => none

/-! ## Clients -/

/-- What a client calls the service with. -/
inductive Call
  | addBreakpoint (bp : Breakpoint)
  | delBreakpoint (bp : Breakpoint)
  | getBreakpoints
  | executeUntilEvent (stopEvents : EventTypes)
  | getCodeBlock
  | getContext

namespace Call

def method : Call → Method
  | .addBreakpoint _ => .addBreakpoint
  | .delBreakpoint _ => .delBreakpoint
  | .getBreakpoints => .getBreakpoints
  | .executeUntilEvent _ => .executeUntilEvent
  | .getCodeBlock => .getCodeBlock
  | .getContext => .getContext

/-- `ConcreteEvaluator_*_pargs::write`. -/
def writeArgs : Call → Fields
  | .addBreakpoint bp | .delBreakpoint bp => [(1, .struct bp.write)]
  | .executeUntilEvent stopEvents => [(1, .set (writeEvents stopEvents))]
  | .getBreakpoints | .getCodeBlock | .getContext => []

/-- `ConcreteEvaluatorClient::send_*`. -/
def send (c : Call) (seqid : SeqId) : Request :=
  ⟨c.method.name, seqid, c.writeArgs⟩

/-- The operation that the call stands for at the server. -/
def operation : Call → Operation
  | .addBreakpoint bp => .addBreakpoint bp.sent
  | .delBreakpoint bp => .delBreakpoint bp.sent
  | .getBreakpoints => .getBreakpoints
  | .executeUntilEvent stopEvents => .executeUntilEvent stopEvents
  | .getCodeBlock => .getCodeBlock
  | .getContext => .getContext

theorem isCall_operation (c : Call) : c.operation.isCall = true := by
  cases c <;> rfl

end Call

/-- How a client's call ends. -/
inductive Outcome (α : Type)
  | returned (a : α)
  | exception (e : Exception)
  | application (x : TApplicationException)
  /-- `TProtocolException (INVALID_DATA)`. -/
  | invalidData

/-- What a client makes of the members of a result struct. -/
def CallResult.outcome {α : Type} (t : ResultType α) (m : Method) (r : CallResult α) : Outcome α :=
  if r.hasSuccess then .returned r.success
  else if r.hasExc then .exception r.exc
  else
    match t.empty with
    | some a => .returned a
    | none => .application ⟨TApplicationException.missingResult,
        m.name ++ " failed: unknown result".toList⟩

/-- The two generated clients. -/
inductive ClientKind
  | plain
  | concurrent
  deriving DecidableEq

/-- `recv_*` of a client, from the header of the reply on, where `success` is the object that the
caller passes in. A client that skips the body reads the struct of its result where the next message
begins : what comes of it is not modelled. -/
def Method.recv (k : ClientKind) (m : Method) (success : m.Ret) (h : Header) (body : Fields) :
    Option (Outcome m.Ret) :=
  match h.mtype with
  | .exception => some (.application (rt.codec.read body))
  | .call | .oneway => none
  | .reply =>
    if h.fname = m.name then
      (CallResult.read m.result success body).map (CallResult.outcome m.result m)
    else
      match k with
      | .plain => none
      | .concurrent => some .invalidData

/-! ## What a reply delivers -/

namespace Method

/-- What the caller's object is after a call that returned `a` : a block is read into the one that
is there. -/
def received : (m : Method) → m.Ret → m.Ret → m.Ret
  | .addBreakpoint, _, _ | .delBreakpoint, _, _ => ()
  | .getBreakpoints, _, s => s
  | .executeUntilEvent, _, e => e
  | .getCodeBlock, success, b => success.overwrite b
  | .getContext, _, c => c

/-- What survives the wire. -/
def Sendable : (m : Method) → m.Ret → Prop
  | .getBreakpoints, s => WellOrdered s
  | _, _ => True

/-- How the call of a client ends whose handler has ended so. -/
def delivers (m : Method) (success : m.Ret) : Prog.Ending Halt Result → Option (Outcome m.Ret)
  | .returned r => (m.unpack r).map fun a => .returned (m.received success a)
  | .stopped (.thrown (.exception msg)) =>
    if m.result.throws then some (.exception ⟨msg⟩)
    else some (.application ⟨TApplicationException.unknown, (Exception.mk msg).what⟩)
  | .stopped (.thrown e) => some (.application ⟨TApplicationException.unknown, e.what rt⟩)
  | .stopped (.fault _) => none

/-- What a handler returns comes back, if it survives the wire. -/
theorem outcome_read_write {m : Method} (success : m.Ret) {a : m.Ret} (ha : m.Sendable a) :
    (CallResult.read m.result success
        (CallResult.write m.result { success := a, hasSuccess := true })).map
      (CallResult.outcome m.result m) = some (.returned (m.received success a)) := by
  have hread : ∀ {v : Value}, m.result.writeSuccess a = some v →
      m.result.readSuccess success v = some (some (m.received success a)) →
      (CallResult.read m.result success
          (CallResult.write m.result { success := a, hasSuccess := true })).map
        (CallResult.outcome m.result m) = some (.returned (m.received success a)) := by
    intro v hw hr
    rw [CallResult.read_write_success hw hr]
    rfl
  cases m with
  | addBreakpoint => rfl
  | delBreakpoint => rfl
  | getBreakpoints => exact hread rfl (congrArg (Option.map some) (readBreakpoints_write ha))
  | executeUntilEvent => exact hread rfl (congrArg (Option.map some) (EventType.ofNumber?_number a))
  | getCodeBlock => exact hread rfl (congrArg (fun b => some (some b)) (CodeBlock.read_written ..))
  | getContext => exact hread rfl (congrArg (Option.map some) (readRegisters_write a))

/-- Whatever the handler does, its client's call ends with it. -/
theorem delivers_process {m : Method} {seqid : SeqId} {x : Prog.Ending Halt Result}
    {y : Message} (k : ClientKind) (success : m.Ret)
    (hx : ∀ r, x = .returned r → ∃ a, m.unpack r = some a ∧ m.Sendable a)
    (hy : m.process rt seqid x = some y) :
    y.header.seqid = seqid ∧ y.header.fname = m.name ∧
      m.recv rt k success y.header y.body = m.delivers rt success x := by
  cases x with
  | returned r =>
    obtain ⟨a, ha, hsend⟩ := hx r rfl
    obtain rfl : m.replyResult seqid { success := a, hasSuccess := true } = y := by
      simpa [process, ha] using hy
    refine ⟨rfl, rfl, ?_⟩
    simp only [recv, replyResult, if_true, outcome_read_write success hsend, delivers, ha,
      Option.map_some]
  | stopped e =>
    cases e with
    | fault f => cases hy
    | thrown e =>
      have herror : ∀ e : Thrown, m.replyError rt seqid e = y →
          y.header.seqid = seqid ∧ y.header.fname = m.name ∧
            m.recv rt k success y.header y.body =
              some (.application ⟨TApplicationException.unknown, e.what rt⟩) := by
        rintro e rfl
        exact ⟨rfl, rfl, congrArg (fun x => some (Outcome.application x)) (rt.codec.read_write _)⟩
      cases e with
      | lengthError => exact herror .lengthError (Option.some.inj hy)
      | exception msg =>
        simp only [process] at hy
        simp only [delivers]
        by_cases ht : m.result.throws = true
        · rw [if_pos ht] at hy ⊢
          obtain rfl := Option.some.inj hy
          refine ⟨rfl, rfl, ?_⟩
          simp only [recv, replyResult, if_true, CallResult.read_write_exc ht, Option.map_some]
          rfl
        · rw [if_neg ht] at hy ⊢
          exact herror (.exception msg) (Option.some.inj hy)

/-- A reply that is written ends its client's call. -/
theorem exists_delivers {m : Method} {seqid : SeqId} {x : Prog.Ending Halt Result} {y : Message}
    (success : m.Ret) (hy : m.process rt seqid x = some y) :
    ∃ o, m.delivers rt success x = some o := by
  cases x with
  | returned r =>
    obtain ⟨a, ha, -⟩ := Option.map_eq_some_iff.mp hy
    exact ⟨.returned (m.received success a), by rw [delivers, ha, Option.map_some]⟩
  | stopped e =>
    cases e with
    | fault f => cases hy
    | thrown e =>
      cases e with
      | lengthError => exact ⟨_, rfl⟩
      | exception msg =>
        simp only [delivers]
        split_ifs
        · exact ⟨_, rfl⟩
        · exact ⟨_, rfl⟩

end Method

/-- The server understands what a client sends. -/
theorem dispatchCall_send (c : Call) (seqid : SeqId) :
    dispatchCall rt (c.send seqid) = some (.called c.method c.operation) := by
  have hargs : c.method.readArgs c.writeArgs = some c.operation := by
    cases c with
    | addBreakpoint bp =>
      exact congrArg (fun bp => some (Operation.addBreakpoint bp))
        (Subtype.ext (Breakpoint.read_written bp))
    | delBreakpoint bp =>
      exact congrArg (fun bp => some (Operation.delBreakpoint bp))
        (Subtype.ext (Breakpoint.read_written bp))
    | executeUntilEvent stopEvents =>
      have hset : readStruct? readStopEventsField ∅ [(1, .set (writeEvents stopEvents))] =
          some stopEvents := by
        simp [readStruct?, readStopEventsField, readEvents_write]
      exact congrArg (Option.map Operation.executeUntilEvent) hset
    | _ => rfl
  simp only [dispatchCall, Call.send, findMethod_name, hargs, Option.map_some]

end ConcreteEval
