import ConcreteEval.Connection
import ConcreteEval.Suspension

/-!
# What a client's call can end with

Every error of a handler names its cause : the address that it was called with
(`AbsOrRelAddr.Error`), the entry that is there or not, or what has not been stopped. The address
of a client comes with the fields that it has marked set, so the cause can be read off the object
that the client called with (`AbsOrRelAddr.error_sent`). The internal errors of `addBreakpoint` and
`delBreakpoint` are not among them, because an address that does not resolve is a relative one
(`ends_absOrRelAddrToAbsAddr`).

`Call.Outcomes` lists the outcomes of a call for each method, and in every run of callers, server
and application a call ends with one of them (`Connection.Reachable.outcomes`) : with a value, with
the service's exception where its method has one, or with the text of the exception where it has
none. No other error of the protocol reaches a caller. A block reaches its caller as the server has
returned it, all but its module (`Connection.Reachable.block_received`).
-/

namespace ConcreteEval

open Thrift (TApplicationException)

/-- If it is thrown, it is an `Exception` with such a message. -/
def Halt.RaisesOnly (E : CxxString → Prop) : Halt → Prop
  | .thrown (.exception msg) => E msg
  | .thrown .lengthError => False
  | .fault _ => True

theorem Halt.RaisesOnly.mono {E E' : CxxString → Prop} (h : ∀ msg, E msg → E' msg) {e : Halt}
    (he : e.RaisesOnly E) : e.RaisesOnly E' := by
  cases e with
  | fault f => trivial
  | thrown e =>
    cases e with
    | exception msg => exact h msg he
    | lengthError => exact he

/-- The error in a relative address that is looked up in its module. -/
def RelAddr.Error (r : RelAddr) (msg : CxxString) : Prop :=
  r.offset.isset.offset = false ∧
    if r.offset.isset.symbol then msg = unableToLocateSymbol r.offset.symbol r.modulename
    else msg = "Neither offset nor symbol set in OffsetOrSymbol".toList

/-- The error in an address that is looked up. -/
def AbsOrRelAddr.Error (a : AbsOrRelAddr) (msg : CxxString) : Prop :=
  a.isset.absaddr = false ∧
    if a.isset.reladdr then a.reladdr.Error msg
    else msg = "AbsOrRelAddr contained neither an absolute or relative address.".toList

/-- What is lost on the wire makes no difference to the errors. -/
theorem AbsOrRelAddr.error_sent (a : AbsOrRelAddr) (msg : CxxString) :
    a.sent.Error msg ↔ a.Error msg := by
  obtain ⟨absaddr, ⟨modulename, offset, symbol, hasOffset, hasSymbol⟩, hasAbsaddr, hasReladdr⟩ := a
  cases hasReladdr <;> cases hasSymbol <;>
    simp [Error, RelAddr.Error, sent, overwrite, RelAddr.overwrite, OffsetOrSymbol.overwrite]

/-! ## Errors of the handlers -/

section Ends

variable {E : CxxString → Prop}

theorem ends_assertHelper {c : Bool} {msg : CxxString} (u : Bool) (h : c = false → E msg) :
    (assertHelper c msg u).Ends (fun _ => c = true) (Halt.RaisesOnly E) := by
  cases c with
  | true => exact rfl
  | false =>
    cases u with
    | true => exact fun _ => h rfl
    | false => exact h rfl

theorem ends_resolveOffset (moddata : Module) (r : RelAddr) (u : Bool) :
    (resolveOffset moddata r u).Ends (fun _ => True) (Halt.RaisesOnly r.Error) := by
  unfold resolveOffset
  by_cases ho : r.offset.isset.offset = true
  · rw [if_pos ho]
    trivial
  · rw [if_neg ho]
    have ho : r.offset.isset.offset = false := by simpa using ho
    by_cases hs : r.offset.isset.symbol = true
    · rw [if_pos hs]
      exact (ends_assertHelper u fun _ => ⟨ho, by rw [if_pos hs]⟩).bind fun _ _ => trivial
    · rw [if_neg hs]
      exact (ends_assertHelper u fun _ => ⟨ho, by rw [if_neg hs]⟩).bind fun _ h => trivial

/-- An address that does not resolve is a relative one. -/
theorem ends_absOrRelAddrToAbsAddr (a : AbsOrRelAddr) (u : Bool) :
    (absOrRelAddrToAbsAddr a u).Ends (fun addr => addr = none → a.isset.reladdr = true)
      (Halt.RaisesOnly a.Error) := by
  unfold absOrRelAddrToAbsAddr
  by_cases ha : a.isset.absaddr = true
  · rw [if_pos ha]
    intro h
    cases h
  · rw [if_neg ha]
    have ha : a.isset.absaddr = false := by simpa using ha
    by_cases hr : a.isset.reladdr = true
    · rw [if_pos hr]
      intro moddata
      cases moddata with
      | none => exact fun _ => hr
      | some moddata =>
        refine ((ends_resolveOffset moddata a.reladdr u).mono (fun _ h => h) fun e he =>
          he.mono fun msg hmsg => ⟨ha, by rwa [if_pos hr]⟩).bind fun addr _ => ?_
        intro h
        cases h
    · rw [if_neg hr]
      exact (ends_assertHelper u fun _ => ⟨ha, by rw [if_neg hr]⟩).bind fun _ _ => trivial

/-- The messages of `addBreakpoint`. -/
def Breakpoint.AddError (bp : Breakpoint) (msg : CxxString) : Prop :=
  bp.addr.Error msg ∨ msg = "Breakpoint already exists".toList

/-- The messages of `delBreakpoint`. -/
def Breakpoint.DelError (bp : Breakpoint) (msg : CxxString) : Prop :=
  bp.addr.Error msg ∨ msg = "Breakpoint not found".toList

theorem ends_addBreakpoint (bp : WireBreakpoint) :
    (addBreakpoint bp).Ends (fun _ => True) (Halt.RaisesOnly bp.1.AddError) := by
  refine ((ends_absOrRelAddrToAbsAddr bp.1.addr false).mono (fun _ h => h) fun e he =>
    he.mono fun msg => Or.inl).bind fun addr haddr => ?_
  intro _
  cases addr with
  | some addr =>
    intro g
    exact (ends_assertHelper true fun _ => Or.inr rfl).bind fun _ _ _ _ => trivial
  | none =>
    refine (ends_assertHelper true fun h => ?_).bind fun _ _ => fun g => ?_
    · rw [haddr rfl] at h
      cases h
    · exact (ends_assertHelper true fun _ => Or.inr rfl).bind fun _ _ _ _ => trivial

theorem ends_totalFlush (b : Build) : (totalFlush b).Ends (fun _ => True) (Halt.RaisesOnly E) := by
  cases b with
  | debug =>
    intro r
    cases r <;> trivial
  | ndebug => trivial

theorem ends_delBreakpoint (b : Build) (bp : WireBreakpoint) :
    (delBreakpoint b bp).Ends (fun _ => True) (Halt.RaisesOnly bp.1.DelError) := by
  refine ((ends_absOrRelAddrToAbsAddr bp.1.addr false).mono (fun _ h => h) fun e he =>
    he.mono fun msg => Or.inl).bind fun addr haddr => ?_
  intro _
  cases addr with
  | some addr =>
    intro g
    refine (ends_assertHelper true fun _ => Or.inr rfl).bind fun _ _ _ => ?_
    exact (ends_totalFlush b).bind fun _ _ _ => trivial
  | none =>
    refine (ends_assertHelper true fun h => ?_).bind fun _ _ => fun g => ?_
    · rw [haddr rfl] at h
      cases h
    · exact (ends_assertHelper true fun _ => Or.inr rfl).bind fun _ _ _ _ => trivial

theorem ends_getContext : getContext.Ends (fun _ => True)
    (Halt.RaisesOnly (· = "Unable to locate stopped context.".toList)) := by
  intro _ g
  refine (ends_assertHelper (E := (· = _)) true fun _ => rfl).bind fun _ _ => ?_
  cases g.stoppedContext with
  | none => trivial
  | some c => exact fun _ => trivial

/-- `getCodeBlock` can also throw what a string constructor throws. -/
theorem ends_getCodeBlock : getCodeBlock.Ends (fun _ => True) fun e =>
    e.RaisesOnly (· = "Unable to locate stopped block.".toList) ∨ e = .thrown .lengthError := by
  intro _ g
  refine ((ends_assertHelper (E := (· = _)) true fun _ => rfl).mono (fun _ h => h)
    fun _ => Or.inl).bind fun _ _ => ?_
  cases g.stoppedBlock with
  | none => exact Or.inl trivial
  | some block =>
    intro bytes
    cases bytes with
    | none => exact Or.inr rfl
    | some bytes => exact fun _ _ => trivial

end Ends

/-- The errors that a call can end with. -/
def Operation.Error : Operation → Halt → Prop
  | .addBreakpoint bp => Halt.RaisesOnly bp.1.AddError
  | .delBreakpoint bp => Halt.RaisesOnly bp.1.DelError
  | .getBreakpoints => Halt.RaisesOnly fun _ => False
  | .executeUntilEvent _ => (· = unableToLocateContext)
  | .getCodeBlock => fun e =>
    e.RaisesOnly (· = "Unable to locate stopped block.".toList) ∨ e = .thrown .lengthError
  | .getContext => Halt.RaisesOnly (· = "Unable to locate stopped context.".toList)
  | _ => fun _ => True

theorem Operation.ends_prog (b : Build) {op : Operation} (hexec : ∀ S, op ≠ .executeUntilEvent S) :
    (op.prog b).Ends (fun _ => True) op.Error := by
  have hret : ∀ {α : Type} {p : Dr α} (f : α → Result), p.Ends (fun _ => True) op.Error →
      (p.bind fun a => .ret (f a)).Ends (fun _ => True) op.Error :=
    fun f hp => hp.bind fun _ _ => trivial
  cases op with
  | addBreakpoint bp => exact hret _ (ends_addBreakpoint bp)
  | delBreakpoint bp => exact hret _ (ends_delBreakpoint b bp)
  | getBreakpoints => exact fun _ _ _ => trivial
  | executeUntilEvent S => exact absurd rfl (hexec S)
  | getCodeBlock => exact hret _ ends_getCodeBlock
  | getContext => exact hret _ ends_getContext
  | _ => exact Prog.ends_true _

/-- A call has ended so. -/
def Operation.EndsIn (op : Operation) (x : Prog.Ending Halt Result) : Prop :=
  (∃ r, x = .returned r) ∨ ∃ e, x = .stopped (.thrown e) ∧ op.Error (.thrown e)

/-- No call ends with another error : `executeUntilEvent` always finds the application suspended. -/
theorem Machine.Reachable.call_ends {m : Machine} (hm : m.Reachable .debug) {op : Operation}
    {x : Prog.Ending Halt Result} (hx : (op, x) ∈ endedCalls m.world.log) : op.EndsIn x := by
  refine hm.of_ended (I := fun op x => op.EndsIn x) ?_ hx
  rintro m op p x hm hrun hend -
  obtain ⟨r, rfl, rfl⟩ | ⟨e, rfl, rfl⟩ := endingOf_server_eq_some hend
  · exact Or.inl ⟨r, rfl⟩
  refine Or.inr ⟨e, rfl, ?_⟩
  by_cases hexec : ∃ S, op = .executeUntilEvent S
  · obtain ⟨S, rfl⟩ := hexec
    obtain ⟨v, htr, -, -⟩ := hm.view
    obtain ⟨_, hret, -⟩ | ⟨herr, -⟩ := Machine.endingOf_server hend (htr.server _ _ hrun)
    · cases hret
    · exact Prog.Ending.stopped.inj herr
  · exact hm.of_running
      (F := fun op p => (∀ S, op ≠ .executeUntilEvent S) → p.Ends (fun _ => True) op.Error)
      (fun _ h => Operation.ends_prog _ h) (fun _ _ _ r h hne => h hne r) hrun
      fun S h => hexec ⟨S, h⟩

/-! ## Blocks -/

/-- A block with a module says where it is in the module by an offset. -/
def CodeBlock.Placed (b : CodeBlock) : Prop :=
  ∀ m, b.moduleinfo = some m → m.addr.offset.isset.offset = true

theorem returns_getCodeBlock : getCodeBlock.Returns CodeBlock.Placed := by
  intro _ g
  refine (Prog.ends_true (assertHelper _ _ true)).bind fun _ _ => ?_
  cases g.stoppedBlock with
  | none => trivial
  | some block =>
    intro bytes
    cases bytes with
    | none => trivial
    | some bytes =>
      intro _ moddata m hm
      obtain ⟨M, -, rfl⟩ := Option.map_eq_some_iff.mp hm
      rfl

/-- Every block that the server has returned is placed. -/
theorem Machine.Reachable.block_placed {b : Build} {m : Machine} (hm : m.Reachable b)
    {block : CodeBlock}
    (hx : (.getCodeBlock, .returned (.codeBlock block)) ∈ endedCalls m.world.log) :
    block.Placed := by
  let P : Operation → Result → Prop := fun op r =>
    op = .getCodeBlock → ∀ block, r = .codeBlock block → block.Placed
  refine hm.of_ended (I := fun op x => ∀ r, x = .returned r → P op r) ?_ hx _ rfl rfl block rfl
  rintro m op p _ hm hrun hend - r rfl
  obtain ⟨_, rfl, hr⟩ | ⟨e, -, he⟩ := endingOf_server_eq_some hend
  · obtain rfl := Prog.Ending.returned.inj hr
    refine hm.of_running (F := fun op p => p.Returns (P op)) (fun op => ?_)
      (fun _ _ _ r h => h r) hrun
    by_cases hop : op = .getCodeBlock
    · subst hop
      refine Prog.Ends.bind returns_getCodeBlock fun block hblock => ?_
      rintro - block' hblock'
      obtain rfl := Result.codeBlock.inj hblock'
      exact hblock
    · exact (Prog.ends_true _).mono (fun r _ h => absurd h hop) fun _ h => h
  · cases he

/-- What the caller's object is after a call that returned `sent` : where the block is in no module,
the object keeps the module that it had. -/
structure CodeBlock.Receives (object sent received : CodeBlock) : Prop where
  addr : received.addr = sent.addr
  bytes : received.bytes = sent.bytes
  keeps : sent.moduleinfo = none → received.moduleinfo = object.moduleinfo
  takes : ∀ m, sent.moduleinfo = some m → ∃ n, received.moduleinfo = some n ∧ n.base = m.base ∧
    n.addr.modulename = m.addr.modulename ∧ n.addr.offset.isset.offset = true ∧
      n.addr.offset.offset = m.addr.offset.offset

theorem CodeBlock.receives_overwrite (object : CodeBlock) {sent : CodeBlock} (h : sent.Placed) :
    object.Receives sent (object.overwrite sent) where
  addr := rfl
  bytes := rfl
  keeps hnone := by simp only [overwrite, hnone]
  takes m hm := by
    have hoffset : m.addr.offset.isset.offset = true := h m hm
    refine ⟨(object.moduleinfo.getD {}).overwrite m, by simp only [overwrite, hm], rfl, rfl, ?_, ?_⟩
    · simp [ModuleInfo.overwrite, RelAddr.overwrite, OffsetOrSymbol.overwrite, hoffset]
    · simp [ModuleInfo.overwrite, RelAddr.overwrite, OffsetOrSymbol.overwrite, hoffset]

/-! ## Outcomes of a client's calls -/

/-- What a client's call can end with. -/
def Call.Outcomes (rt : Runtime) : (c : Call) → Outcome c.method.Ret → Prop
  | .addBreakpoint bp, o => o = .returned () ∨ ∃ msg, bp.AddError msg ∧ o = .exception ⟨msg⟩
  | .delBreakpoint bp, o => o = .returned () ∨ ∃ msg, bp.DelError msg ∧ o = .exception ⟨msg⟩
  | .getBreakpoints, o => ∃ s, WellOrdered s ∧ o = .returned s
  | .executeUntilEvent _, o => (∃ e, o = .returned e) ∨
    o = .application ⟨TApplicationException.unknown,
      (Exception.mk "Unable to locate stopped context.".toList).what⟩
  | .getCodeBlock, o => (∃ b, o = .returned b) ∨
    o = .exception ⟨"Unable to locate stopped block.".toList⟩ ∨
    o = .application ⟨TApplicationException.unknown, rt.lengthErrorWhat.cStr⟩
  | .getContext, o => (∃ c, o = .returned c) ∨
    o = .exception ⟨"Unable to locate stopped context.".toList⟩

/-- A call that ended so at the server. -/
theorem Call.outcomes_of_delivers {rt : Runtime} {c : Call} {object : c.method.Ret}
    {x : Prog.Ending Halt Result} {o : Outcome c.method.Ret} (hx : c.operation.EndsIn x)
    (hans : ∀ r, x = .returned r → c.method.Answers r)
    (ho : c.method.delivers rt object x = some o) : c.Outcomes rt o := by
  rcases hx with ⟨r, rfl⟩ | ⟨e, rfl, he⟩
  · obtain ⟨a, ha, hsend⟩ := hans r rfl
    obtain rfl : .returned (c.method.received object a) = o := by
      simpa [Method.delivers, ha] using ho
    cases c with
    | addBreakpoint bp => exact Or.inl rfl
    | delBreakpoint bp => exact Or.inl rfl
    | getBreakpoints => exact ⟨a, hsend, rfl⟩
    | executeUntilEvent stopEvents => exact Or.inl ⟨a, rfl⟩
    | getCodeBlock => exact Or.inl ⟨_, rfl⟩
    | getContext => exact Or.inl ⟨a, rfl⟩
  · cases c with
    | addBreakpoint bp =>
      cases e with
      | exception msg =>
        obtain rfl := Option.some.inj ho
        exact Or.inr ⟨msg, (or_congr_left (AbsOrRelAddr.error_sent bp.addr msg)).mp he, rfl⟩
      | lengthError => exact he.elim
    | delBreakpoint bp =>
      cases e with
      | exception msg =>
        obtain rfl := Option.some.inj ho
        exact Or.inr ⟨msg, (or_congr_left (AbsOrRelAddr.error_sent bp.addr msg)).mp he, rfl⟩
      | lengthError => exact he.elim
    | getBreakpoints => cases e <;> exact he.elim
    | executeUntilEvent stopEvents =>
      obtain rfl : e = .exception "Unable to locate stopped context.".toList := Halt.thrown.inj he
      exact Or.inr (Option.some.inj ho).symm
    | getCodeBlock =>
      cases e with
      | exception msg =>
        obtain rfl := he.resolve_right (by simp)
        exact Or.inr (Or.inl (Option.some.inj ho).symm)
      | lengthError => exact Or.inr (Or.inr (Option.some.inj ho).symm)
    | getContext =>
      cases e with
      | exception msg =>
        obtain rfl := he
        exact Or.inr (Option.some.inj ho).symm
      | lengthError => exact he.elim

namespace Connection

variable {ι : Type} [DecidableEq ι] {rt : Runtime} {k : ClientKind} {s : Connection ι}

omit [DecidableEq ι] in
theorem exists_getElem?_of_forall₂ {β : Type} {R : Ended ι → β → Prop} {es : List (Ended ι)}
    {zs : List β} (h : List.Forall₂ R es zs) {i : ℕ} {e : Ended ι} (he : es[i]? = some e) :
    ∃ z, zs[i]? = some z ∧ R e z := by
  induction h generalizing i with
  | nil => cases he
  | @cons e' z es zs hz _ ih =>
    cases i with
    | zero =>
      obtain rfl : e' = e := Option.some.inj he
      exact ⟨z, rfl, hz⟩
    | succ i => exact ih he

/-- In every run of callers, server and application a call ends with one of its outcomes. -/
theorem Reachable.outcomes (h : s.Reachable rt .debug k) :
    ∀ e ∈ s.ended, e.call.Outcomes rt e.outcome := by
  intro e he
  have hok := h.ok
  have hm := hok.session.ok.machine
  obtain ⟨i, hi⟩ := List.mem_iff_getElem?.mp he
  obtain ⟨⟨op, x⟩, hz, hdel⟩ := exists_getElem?_of_forall₂ hok.delivers hi
  obtain rfl : op = e.call.operation := hdel.operation
  have hmem : (e.call.operation, x) ∈ endedCalls s.session.machine.world.log :=
    List.mem_of_mem_take (List.mem_of_getElem? hz)
  refine Call.outcomes_of_delivers (hm.call_ends hmem) ?_ hdel.outcome
  rintro r rfl
  refine hm.ended_answers hmem ?_
  exact (Session.method?_of_dispatchCall (dispatchCall_send rt e.call e.seqid)).1

theorem outcomes_bothReturned :
    (after libraries .debug .concurrent [] bothReturned).ended.length = 2 ∧
      ∀ e ∈ (after libraries .debug .concurrent [] bothReturned).ended,
        e.call.Outcomes libraries e.outcome :=
  ⟨rfl, (reachable_after libraries .debug .concurrent [] bothReturned).outcomes⟩

/-- A block arrives with the address and the bytes that the server has returned to this call, and
with its module; a block that is in no module leaves the caller's object with the module that it
held. -/
theorem Reachable.block_received {b : Build} (h : s.Reachable rt b k) {i : ℕ} {c : ι}
    {seqid : Thrift.SeqId} {object received : CodeBlock}
    (he : s.ended[i]? = some ⟨⟨c, seqid, .getCodeBlock, object⟩, .returned received⟩) :
    ∃ sent, s.serverEnded[i]? = some (.getCodeBlock, .returned (.codeBlock sent)) ∧
      object.Receives sent received := by
  have hok := h.ok
  obtain ⟨⟨op, x⟩, hz, hdel⟩ := exists_getElem?_of_forall₂ hok.delivers he
  obtain rfl : op = .getCodeBlock := hdel.operation
  have hi : s.serverEnded[i]? = some (Operation.getCodeBlock, x) := by
    rwa [List.getElem?_take_of_lt (List.getElem?_eq_some_iff.mp he).1] at hz
  have hmem : (Operation.getCodeBlock, x) ∈ s.serverEnded := List.mem_of_getElem? hi
  have houtcome : Method.delivers rt .getCodeBlock object x = some (.returned received) :=
    hdel.outcome
  cases x with
  | stopped e =>
    cases e with
    | fault f => cases houtcome
    | thrown e =>
      cases e with
      | exception msg => cases houtcome
      | lengthError => cases houtcome
  | returned r =>
    obtain ⟨sent, hsent, hreceived⟩ := Option.map_eq_some_iff.mp houtcome
    obtain rfl := Method.pack_of_unpack hsent
    obtain rfl : object.overwrite sent = received := Outcome.returned.inj hreceived
    exact ⟨sent, hi,
      object.receives_overwrite (hok.session.ok.machine.block_placed hmem)⟩

/-- Four times `nop`. -/
def nops : CxxString :=
  List.replicate 4 (Char.ofNat 0x90)

/-- The application stops at a block that is in no module, and the caller asks for it with an object
that has one. -/
def blockAsked : List (Label ℕ) :=
  Session.startUp.map .session ++
    [.send (.fresh 1 0 (.executeUntilEvent {.relevantBlock})), .session .serve] ++
    (Machine.actions .server 11 ++
      [ConcreteEval.Label.start (.app 1) (.cleanCall (.relevantBlockCleanCall 16 20))] ++
      Machine.actions (.app 1) 6 ++ Machine.actions .server 5).map (.session ∘ .machine) ++
    [.session .finish, .recv 1, .send ⟨1, 0, .getCodeBlock, ⟨0, [], some {}⟩⟩, .session .serve] ++
    List.replicate 5 (.session (.machine (.action .server { bytes := some nops }))) ++
    [.session .finish, .recv 1]

theorem block_received_blockAsked : ∃ sent,
    (after libraries .debug .plain [] blockAsked).serverEnded[1]? =
        some (.getCodeBlock, .returned (.codeBlock sent)) ∧
      CodeBlock.Receives ⟨0, [], some {}⟩ sent ⟨16, nops, some {}⟩ :=
  (reachable_after libraries .debug .plain [] blockAsked).block_received (i := 1) rfl

end Connection

end ConcreteEval
