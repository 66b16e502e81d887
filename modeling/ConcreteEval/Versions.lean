import ConcreteEval.Schema
import ConcreteEval.Session

/-!
# Clients of another version

The types of `concolic.thrift` as schemas, and the generated readers as readers of them. A client
that has been built from another version of the file may send fields in another order, or fields
that the server's version does not have, in the arguments or anywhere inside them. To the server its
requests are those of a client of its own version (`dispatchCall_same`), and so are whole runs :
with requests that say the same in place of others, the server goes through the same states and
writes the same replies (`Session.runs_same`).
-/

namespace ConcreteEval

open Thrift (Fields Value Schema Alike Reads reads_one reads_two readStruct? readStruct?_eq)

/-! ## Schemas -/

def OffsetOrSymbol.schema : Schema :=
  [(1, .i64), (2, .string)]

def RelAddr.schema : Schema :=
  [(1, .string), (2, .struct OffsetOrSymbol.schema)]

def AbsOrRelAddr.schema : Schema :=
  [(1, .i64), (2, .struct RelAddr.schema)]

def Breakpoint.schema : Schema :=
  [(1, .struct AbsOrRelAddr.schema), (2, .i64)]

/-- The arguments of the method. -/
def Method.schema : Method → Schema
  | .addBreakpoint | .delBreakpoint => [(1, .struct Breakpoint.schema)]
  | .executeUntilEvent => [(1, .set)]
  | .getBreakpoints | .getCodeBlock | .getContext => []

/-! ## Readers -/

theorem OffsetOrSymbol.reads : Reads schema OffsetOrSymbol.readField := by
  refine reads_two (by decide) ⟨fun {v} hv _ => ?_, nofun⟩ ⟨fun {v} hv _ => ?_, nofun⟩
    fun o v w => ?_
  · cases v <;> first | rfl | cases hv
  · cases v <;> first | rfl | cases hv
  · cases v <;> cases w <;> rfl

theorem OffsetOrSymbol.read_alike {l l' : Fields} (h : Alike schema l l') (o : OffsetOrSymbol) :
    o.read l = o.read l' :=
  reads.readStruct_eq h o

theorem RelAddr.reads : Reads schema RelAddr.readField := by
  refine reads_two (by decide) ⟨fun {v} hv _ => ?_, nofun⟩
    ⟨fun {v} hv _ => ?_, fun ht hl r => ?_⟩ fun r v w => ?_
  · cases v <;> first | rfl | cases hv
  · cases v <;> first | rfl | cases hv
  · cases ht
    have hoffset := OffsetOrSymbol.read_alike hl r.offset
    simp only [hoffset]
  · cases v <;> cases w <;> rfl

theorem RelAddr.read_alike {l l' : Fields} (h : Alike schema l l') (r : RelAddr) :
    r.read l = r.read l' :=
  reads.readStruct_eq h r

theorem AbsOrRelAddr.reads : Reads schema AbsOrRelAddr.readField := by
  refine reads_two (by decide) ⟨fun {v} hv _ => ?_, nofun⟩
    ⟨fun {v} hv _ => ?_, fun ht hl a => ?_⟩ fun a v w => ?_
  · cases v <;> first | rfl | cases hv
  · cases v <;> first | rfl | cases hv
  · cases ht
    have hreladdr := RelAddr.read_alike hl a.reladdr
    simp only [hreladdr]
  · cases v <;> cases w <;> rfl

theorem AbsOrRelAddr.read_alike {l l' : Fields} (h : Alike schema l l') (a : AbsOrRelAddr) :
    a.read l = a.read l' :=
  reads.readStruct_eq h a

theorem Breakpoint.reads : Reads schema Breakpoint.readField := by
  refine reads_two (by decide) ⟨fun {v} hv _ => ?_, fun ht hl bp => ?_⟩
    ⟨fun {v} hv _ => ?_, nofun⟩ fun bp v w => ?_
  · cases v <;> first | rfl | cases hv
  · cases ht
    have haddr := AbsOrRelAddr.read_alike hl bp.addr
    simp only [haddr]
  · cases v <;> first | rfl | cases hv
  · cases v <;> cases w <;> rfl

theorem Breakpoint.read_alike {l l' : Fields} (h : Alike schema l l') (bp : Breakpoint) :
    bp.read l = bp.read l' :=
  reads.readStruct_eq h bp

theorem Breakpoint.reads_args :
    Reads [(1, .struct Breakpoint.schema)] Breakpoint.readArgsField := by
  refine reads_one ⟨fun {v} hv _ => ?_, fun ht hl bp => ?_⟩
  · cases v <;> first | rfl | cases hv
  · cases ht
    exact Breakpoint.read_alike hl bp

theorem readBreakpointArgs_alike {l l' : Fields}
    (h : Alike [(1, .struct Breakpoint.schema)] l l') :
    readBreakpointArgs l = readBreakpointArgs l' :=
  Subtype.ext (Breakpoint.reads_args.readStruct_eq h {})

theorem readStopEvents_alike {l l' : Fields} (h : Alike [(1, .set)] l l') (S : EventTypes) :
    readStruct? readStopEventsField S l = readStruct? readStopEventsField S l' := by
  let A : Option EventTypes → Value → Option EventTypes :=
    fun s v => s.bind fun s => readStopEventsField s 1 v
  have hreads : Reads [(1, .set)] fun s fid v => if fid = 1 then A s v else s := by
    refine reads_one ⟨fun {v} hv s => ?_, nofun⟩
    cases s with
    | none => rfl
    | some s => cases v <;> first | rfl | cases hv
  have hread : (fun (s : Option EventTypes) fid v => s.bind fun s => readStopEventsField s fid v) =
      fun s fid v => if fid = 1 then A s v else s := by
    funext s fid v
    by_cases hfid : fid = 1
    · rw [if_pos hfid, hfid]
    · rw [if_neg hfid]
      cases s with
      | none => rfl
      | some s => exact if_neg hfid
  rw [readStruct?_eq, readStruct?_eq, hread]
  exact hreads.readStruct_eq h _

/-- The handler is called with the same arguments. -/
theorem Method.readArgs_alike {m : Method} {args args' : Fields} (h : Alike m.schema args args') :
    m.readArgs args = m.readArgs args' := by
  cases m with
  | addBreakpoint =>
    exact congrArg (fun bp => some (Operation.addBreakpoint bp)) (readBreakpointArgs_alike h)
  | delBreakpoint =>
    exact congrArg (fun bp => some (Operation.delBreakpoint bp)) (readBreakpointArgs_alike h)
  | executeUntilEvent =>
    exact congrArg (Option.map Operation.executeUntilEvent) (readStopEvents_alike h ∅)
  | _ => rfl

/-! ## Requests -/

/-- The requests say the same : the arguments of a method that there is are alike. -/
structure Request.Same (x x' : Request) : Prop where
  fname : x.fname = x'.fname
  seqid : x.seqid = x'.seqid
  args : ∀ m, findMethod x.fname = some m → Alike m.schema x.args x'.args

theorem Request.same_refl (x : Request) : x.Same x :=
  ⟨rfl, rfl, fun _ _ => .refl _ _⟩

/-- The server makes the same of both. -/
theorem dispatchCall_same (rt : Runtime) {x x' : Request} (h : x.Same x') :
    dispatchCall rt x = dispatchCall rt x' := by
  unfold dispatchCall
  rw [← h.fname, ← h.seqid]
  cases hm : findMethod x.fname with
  | none => rfl
  | some m => simp only [Method.readArgs_alike (h.args m hm)]

namespace Session

variable {rt : Runtime} {b : Build} {s s' s₁ : Session} {l l' : Label}

/-- The sessions differ in what the requests look like only. -/
structure Same (s s' : Session) : Prop where
  machine : s'.machine = s.machine
  requests : List.Forall₂ Request.Same s.requests s'.requests
  next : s'.next = s.next
  serving : s'.serving = s.serving
  replies : s'.replies = s.replies

/-- The labels differ in what an arriving request looks like only. -/
def Label.Same : Label → Label → Prop
  | .arrive x, .arrive x' => x.Same x'
  | l, l' => l = l'

theorem Label.same_refl (l : Label) : l.Same l := by
  cases l with
  | arrive x => exact x.same_refl
  | _ => rfl

theorem Same.exists_request (h : s.Same s') {i : ℕ} {x : Request} (hx : s.requests[i]? = some x) :
    ∃ x', s'.requests[i]? = some x' ∧ x.Same x' := by
  obtain ⟨hlen, hget⟩ := List.forall₂_iff_get.mp h.requests
  obtain ⟨hi, rfl⟩ := List.getElem?_eq_some_iff.mp hx
  exact ⟨_, List.getElem?_eq_getElem (hlen ▸ hi), hget i hi (hlen ▸ hi)⟩

theorem Same.serve (h : s.Same s') (hs : s.serve rt b = some s₁) :
    ∃ s₁', s'.serve rt b = some s₁' ∧ s₁.Same s₁' := by
  obtain ⟨hidle, x, hx, hcase⟩ := serve_cases hs
  obtain ⟨x', hx', hsame⟩ := h.exists_request hx
  have hd' := dispatchCall_same rt hsame
  rcases hcase with ⟨y, hd, rfl⟩ | ⟨m, op, machine, hd, hm, rfl⟩
  · refine ⟨{ s' with next := s'.next + 1, replies := s'.replies ++ [y] }, ?_, h.machine,
      h.requests, by simp [h.next], h.serving, by simp [h.replies]⟩
    simp only [Session.serve, h.machine, hidle, h.next, hx', ← hd', hd]
  · refine ⟨{ s' with machine := machine, next := s'.next + 1, serving := some (m, x'.seqid) }, ?_,
      rfl, h.requests, by simp [h.next], by simp [hsame.seqid], h.replies⟩
    simp only [Session.serve, h.machine, hidle, h.next, hx', ← hd', hd, hm, Option.map_some]

theorem Same.finish (h : s.Same s') (hs : s.finish rt b = some s₁) :
    ∃ s₁', s'.finish rt b = some s₁' ∧ s₁.Same s₁' := by
  obtain ⟨op, p, x, machine, hrun, hend, hm, hcase⟩ := finish_cases hs
  have hx : s'.ending? = some x := by
    unfold ending?
    rw [h.machine, hrun]
    exact hend
  rcases hcase with ⟨hserving, rfl⟩ | ⟨m, seqid, y, hserving, hy, rfl⟩
  · refine ⟨{ s' with machine := machine }, ?_, rfl, h.requests, h.next, h.serving, h.replies⟩
    simp only [Session.finish, hx, h.machine, hm, h.serving, hserving]
  · refine ⟨{ s' with machine := machine, serving := none, replies := s'.replies ++ [y] }, ?_, rfl,
      h.requests, h.next, rfl, by simp [h.replies]⟩
    simp only [Session.finish, hx, h.machine, hm, h.serving, hserving, hy, Option.map_some]

/-- One step of both. -/
theorem Same.step (h : s.Same s') (hl : l.Same l') (hs : s.step rt b l = some s₁) :
    ∃ s₁', s'.step rt b l' = some s₁' ∧ s₁.Same s₁' := by
  cases l with
  | arrive x =>
    cases l' with
    | arrive x' =>
      obtain rfl := Option.some.inj hs
      exact ⟨_, rfl, h.machine, List.rel_append h.requests (.cons hl .nil), h.next, h.serving,
        h.replies⟩
    | _ => cases hl
  | serve =>
    obtain rfl : Label.serve = l' := hl
    exact h.serve hs
  | finish =>
    obtain rfl : Label.finish = l' := hl
    exact h.finish hs
  | machine l =>
    obtain rfl : Label.machine l = l' := hl
    obtain ⟨hedge, machine, hm, rfl⟩ := machine_cases hs
    refine ⟨{ s' with machine := machine }, ?_, rfl, h.requests, h.next, h.serving, h.replies⟩
    simp [Session.step, hedge, h.machine, hm]

theorem same_refl (s : Session) : s.Same s :=
  ⟨rfl, List.forall₂_same.mpr fun x _ => x.same_refl, rfl, rfl, rfl⟩

/-- Whatever peers send to the server, other peers can send requests that say the same in their
place : it goes through the same states, and writes the same replies. -/
theorem runs_same {ls ls' : List Label} (hls : List.Forall₂ Label.Same ls ls')
    (hs : ls.foldlM (Session.step rt b) s = some s₁) :
    ∃ s₁', ls'.foldlM (Session.step rt b) s = some s₁' ∧ s₁'.machine = s₁.machine ∧
      s₁'.next = s₁.next ∧ s₁'.serving = s₁.serving ∧ s₁'.replies = s₁.replies := by
  have hrun : ∀ {ls ls' : List Label} {s s' : Session}, List.Forall₂ Label.Same ls ls' →
      s.Same s' → ls.foldlM (Session.step rt b) s = some s₁ →
      ∃ s₁', ls'.foldlM (Session.step rt b) s' = some s₁' ∧ s₁.Same s₁' := by
    intro ls ls' s s' hls
    induction hls generalizing s s' with
    | nil =>
      intro h hs
      obtain rfl : s = s₁ := by simpa using hs
      exact ⟨s', rfl, h⟩
    | cons hl _ ih =>
      intro h hs
      rw [List.foldlM_cons, Option.bind_eq_bind, Option.bind_eq_some_iff] at hs
      obtain ⟨s₂, hs₂, hs⟩ := hs
      obtain ⟨s₂', hs₂', h₂⟩ := h.step hl hs₂
      obtain ⟨s₁', hs₁', h₁⟩ := ih h₂ hs
      exact ⟨s₁', by simp [hs₂', hs₁'], h₁⟩
  obtain ⟨s₁', hs₁', h⟩ := hrun hls s.same_refl hs
  exact ⟨s₁', hs₁', h.machine, h.next, h.serving, h.replies⟩

/-- A breakpoint in a module that is not loaded. -/
def ahead : Request :=
  (Call.addBreakpoint (relBreakpoint "lib".toList 24 1).1).send 0

/-- The same from a client that has more fields and another order. -/
def aheadElsewhere : Request where
  fname := ahead.fname
  seqid := 0
  args := [(9, .string []), (1, .struct [(2, .i64 1), (1, .struct [(2, .struct
    [(2, .struct [(1, .i64 24)]), (3, .bool true), (1, .string "lib".toList)])])])]

theorem same_ahead : ahead.Same aheadElsewhere := by
  refine ⟨rfl, rfl, fun m hm => ?_⟩
  obtain rfl : Method.addBreakpoint = m :=
    Option.some.inj ((findMethod_name .addBreakpoint).symm.trans hm)
  have hrel : Alike RelAddr.schema
      [(1, .string "lib".toList), (2, .struct [(1, .i64 24)])]
      [(2, .struct [(1, .i64 24)]), (3, .bool true), (1, .string "lib".toList)] :=
    .trans (.swap (by decide) [])
      (.cons _ (.symm (.unknown (by simp [Schema.Knows, RelAddr.schema]) _)))
  have hbp : Alike Breakpoint.schema
      [(1, .struct [(2, .struct [(1, .string "lib".toList), (2, .struct [(1, .i64 24)])])]),
        (2, .i64 1)]
      [(2, .i64 1), (1, .struct [(2, .struct
        [(2, .struct [(1, .i64 24)]), (3, .bool true), (1, .string "lib".toList)])])] :=
    .trans (.nested (t := AbsOrRelAddr.schema) (by simp [Breakpoint.schema])
      (.nested (t := RelAddr.schema) (by simp [AbsOrRelAddr.schema]) hrel (.nil _)) (.refl _ _))
      (.swap (by decide) [])
  exact .trans (.nested (by simp [Method.schema]) hbp (.nil _))
    (.symm (.unknown (by simp [Schema.Knows, Method.schema]) _))

theorem runs_same_ahead :
    ∃ s₁', (startUp ++ [Label.arrive aheadElsewhere] ++ serves 5).foldlM
        (Session.step libraries .debug) (boot .debug []) = some s₁' ∧
      s₁'.machine =
        (after libraries .debug [] (startUp ++ [.arrive ahead] ++ serves 5)).machine ∧
      s₁'.next = 1 ∧ s₁'.serving = none ∧
      s₁'.replies =
        (after libraries .debug [] (startUp ++ [.arrive ahead] ++ serves 5)).replies := by
  have hrefl : ∀ ls : List Label, List.Forall₂ Label.Same ls ls := fun ls =>
    List.forall₂_same.mpr fun l _ => l.same_refl
  have hsame : Label.Same (.arrive ahead) (.arrive aheadElsewhere) := same_ahead
  have hls : List.Forall₂ Label.Same (startUp ++ [Label.arrive ahead] ++ serves 5)
      (startUp ++ [Label.arrive aheadElsewhere] ++ serves 5) :=
    List.rel_append (List.rel_append (hrefl startUp) (.cons hsame .nil)) (hrefl (serves 5))
  have hs : (startUp ++ [Label.arrive ahead] ++ serves 5).foldlM (Session.step libraries .debug)
      (boot .debug []) =
        some (after libraries .debug [] (startUp ++ [.arrive ahead] ++ serves 5)) := rfl
  exact runs_same hls hs

end Session

end ConcreteEval
