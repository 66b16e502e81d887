import ConcreteEval.Book
import ConcreteEval.Locking

/-!
# Locked sections

Every operation that looks at the breakpoints or edits them does so in one section between its
`dr_mutex_lock` and its `dr_mutex_unlock`. It looks at them first, and edits what it has found.
`critically` follows an operation through that section : with the tables that were found, and what
the operation has made of them. Where it unlocks, the second is the effect of the operation on the
first (`Operation.Effect`), and its result is an answer to the first (`Operation.Answer`). A hit
that signals has found one hit to go (`Operation.Signals`).

`Operation.Effect` says what each operation does to the tables at once, as `Tables.serve`,
`Tables.hit` and `Tables.load` do. The load event looks its module up by name, once for each
breakpoint that waits. What it finds is one of the modules of that name that have been loaded at
some time since the event began (`known`), but not always the one whose event it is
(`Tables.Activates`).
-/

namespace ConcreteEval

/-! ## Effects -/

/-- The tables after an assignment. -/
def Write.edit (t : Tables) : Write → Tables
  | .breakpoint addr n => { t with active := t.active.assign addr n }
  | .eraseBreakpoint addr => { t with active := t.active.erase addr }
  | .deferredBreakpoint ra n => { t with deferred := t.deferred.assign ra n }
  | .eraseDeferredBreakpoint ra => { t with deferred := t.deferred.erase ra }
  | _ => t

theorem Write.apply_tables (g : Globals) (x : Write) : (x.apply g).tables = x.edit g.tables := by
  cases x <;> rfl

theorem Write.edit_of_not {x : Write} (h : x.edits = false) (t : Tables) : x.edit t = t := by
  cases x <;> first | rfl | cases h

/-- Whether the action edits the tables. -/
def Op.edits : Op → Bool
  | .write x => x.edits
  | _ => false

/-- What an address stands for, given what its module was looked up as. -/
def AbsOrRelAddr.resolve (found : Option Module) (a : AbsOrRelAddr) :
    Except CxxString (Option AppPc) :=
  if a.isset.absaddr then
    .ok (some a.absaddr)
  else if a.isset.reladdr then
    match found with
    | none => .ok none
    | some m => (m.resolve a.reladdr).map some
  else
    .error "AbsOrRelAddr contained neither an absolute or relative address.".toList

/-- A relative address that is resolved was found in some module. -/
theorem AbsOrRelAddr.resolve_setReladdr {found : Option Module} {r : RelAddr} {addr : AppPc}
    (h : (({} : AbsOrRelAddr).setReladdr r).resolve found = .ok (some addr)) :
    ∃ m, found = some m ∧ m.resolve r = .ok addr := by
  cases found with
  | none => cases h
  | some m =>
    change (m.resolve r).map some = .ok (some addr) at h
    cases hm : m.resolve r with
    | error msg =>
      rw [hm] at h
      cases h
    | ok addr' =>
      rw [hm] at h
      obtain rfl := Option.some.inj (Except.ok.inj h)
      exact ⟨m, rfl, hm⟩

theorem AbsOrRelAddr.resolve_setReladdr_error {found : Option Module} {r : RelAddr}
    {msg : CxxString} (h : (({} : AbsOrRelAddr).setReladdr r).resolve found = .error msg) :
    ∃ m, found = some m ∧ m.resolve r = .error msg := by
  cases found with
  | none => cases h
  | some m =>
    change (m.resolve r).map some = .error msg at h
    cases hm : m.resolve r with
    | error msg' =>
      rw [hm] at h
      obtain rfl := Except.error.inj h
      exact ⟨m, rfl, hm⟩
    | ok addr =>
      rw [hm] at h
      cases h

namespace Tables

/-- The module can be found where `m` is looked up by its name : it is one of those that have been
loaded, with this name. -/
structure FoundFor (known : List Module) (m found : Module) : Prop where
  mem : found ∈ known
  name : found.preferredName = m.preferredName

/-- The entries that wait for the module become active one after the other, each at the address
inside it that it stands for in a module that is found for it. -/
inductive Activates (known : List Module) (m : Module) :
    List (DeferredKey × SizeT) → StdMap AppPc SizeT → StdMap AppPc SizeT → Prop
  | nil (active) : Activates known m [] active active
  | skip {p l active active'} (hp : p.1.1.modulename ≠ m.preferredName)
    (h : Activates known m l active active') : Activates known m (p :: l) active active'
  | take {p l active active'} {found : Module} {addr : AppPc}
    (hp : p.1.1.modulename = m.preferredName) (hfound : FoundFor known m found)
    (hres : found.resolve p.1.1 = .ok addr) (hspan : m.Spans addr)
    (h : Activates known m l (active.assign addr p.2) active') :
    Activates known m (p :: l) active active'

/-- What the load event of the module makes of the tables. -/
inductive Loads (known : List Module) (m : Module) (t : Tables) : Tables → Prop
  /-- It comes to its end. -/
  | all {active} (h : Activates known m t.deferred.entries t.active active) :
    Loads known m t ⟨active, t.deferred.filter fun ra => ra.1.modulename ≠ m.preferredName⟩
  /-- It throws at an entry that cannot be resolved. -/
  | some {active l p l'} {found : Module} {msg : CxxString} (hl : t.deferred.entries = l ++ p :: l')
    (h : Activates known m l t.active active) (hp : p.1.1.modulename = m.preferredName)
    (hfound : FoundFor known m found) (hres : found.resolve p.1.1 = .error msg) :
    Loads known m t ⟨active, t.deferred⟩

variable {known : List Module} {m : Module} {l : List (DeferredKey × SizeT)}
  {active active' : StdMap AppPc SizeT}

theorem Activates.append {l' : List (DeferredKey × SizeT)} {active'' : StdMap AppPc SizeT}
    (h : Activates known m l active active') (h' : Activates known m l' active' active'') :
    Activates known m (l ++ l') active active'' := by
  induction h with
  | nil => exact h'
  | skip hp _ ih => exact .skip hp (ih h')
  | take hp hfound hres hspan _ ih => exact .take hp hfound hres hspan (ih h')

end Tables

/-- What the operation makes of the tables that it finds, while `modules` are loaded and `known`
have been since it began. The start-up and the call for relevant blocks have no section. -/
def Operation.Effect (modules known : List Module) (found now : Tables) : Operation → Prop
  | .serverThread | .cleanCall (.relevantBlockCleanCall _ _) => False
  | .cleanCall (.updateFastforwardCount addr _ _) => now = found.hit addr
  | .eventModuleLoaded m => found.Loads known m now
  | op => now = found.serve modules op

/-- What a call replies that accepts or rejects. -/
def replyOf : Except CxxString Tables → Prog.Ending Halt Result
  | .ok _ => .returned .void
  | .error msg => .stopped (.thrown (.exception msg))

/-- How the operation can end that has found these tables. -/
def Operation.Answer (modules : List Module) (found : Tables) (x : Prog.Ending Halt Result) :
    Operation → Prop
  | .addBreakpoint bp => x = replyOf (found.add modules bp)
  | .delBreakpoint bp => x = replyOf (found.delete modules bp)
  | .getBreakpoints => x = .returned (.breakpoints (World.listed found.active))
  | .eventBasicBlock bb => ∀ r, x = .returned r → ∃ first last S, bb.head? = some first ∧
    bb.getLast? = some last ∧ r = .items (World.instrumented found.active S bb first.pc
      (last.pc + BitVec.ofNat 64 last.length))
  | _ => True

/-! ## The discipline -/

/-- How far a thread is with its section. -/
inductive Critical
  /-- Ahead of it. -/
  | ahead
  /-- In it, before its look at the tables. -/
  | locked
  /-- In it : the tables that were found, and what they have become. -/
  | inside (found now : Tables)
  /-- Past it. -/
  | past (found : Tables)

def Critical.next : Critical → (o : Op) → o.Reply → Critical
  | .ahead, .drMutexLock, _ => .locked
  | .locked, .read, g => .inside (g : Globals).tables (g : Globals).tables
  | .inside found now, .write x, _ => .inside found (x.edit now)
  | .inside found _, .drMutexUnlock, _ => .past found
  | l, _, _ => l

/-- What an operation may do. After the section, only `executeUntilEvent` may unlock again. -/
def Critical.Allows (modules known : List Module) (op : Operation) : Critical → Op → Prop
  | .ahead, o => o ≠ .drMutexUnlock ∧ o.edits = false
  | .locked, o => o ≠ .drMutexLock ∧ o ≠ .drMutexUnlock ∧ o.edits = false
  | .inside found now, o => o ≠ .drMutexLock ∧
    (o = .drMutexUnlock → op.Effect modules known found now)
  | .past _, o => o ≠ .drMutexLock ∧ o.edits = false ∧
    (o = .drMutexUnlock → ∃ S, op = .executeUntilEvent S)

/-- A hit that signals has found one hit to go. -/
def Operation.Signals (op : Operation) (l : Critical) : Op → Prop
  | .drEventSignal => ∀ addr start endPc,
    op = .cleanCall (.updateFastforwardCount addr start endPc) →
      ∃ found now, l = .inside found now ∧ found.active.find? addr = some 1
  | _ => True

/-- Whether the call resolves an address before its section. -/
def Operation.resolves : Operation → Bool
  | .addBreakpoint _ | .delBreakpoint _ => true
  | _ => false

/-- What a module can be looked up as. The modules stay as they are while a call resolves its
address; a load event can find any that has been loaded and has the name. -/
structure Found (modules known : List Module) (op : Operation) (name : CxxString)
    (r : Option Module) : Prop where
  call : op.resolves = true → r = modules.find? fun m => m.preferredName = name
  load : op.resolves = false → ∀ m, r = some m → m ∈ known ∧ m.preferredName = name

def critically (modules known : List Module) (op : Operation) : Discipline drApi Critical where
  allows l o := l.Allows modules known op o ∧ op.Signals l o
  admits _ o r :=
    match o, r with
    | .drLookupModuleByName name, r => Found modules known op name r
    | _, _ => True
  next := Critical.next

/-- How the operation can end, and where in its section. -/
def Operation.Closes (modules : List Module) (op : Operation) (x : Prog.Ending Halt Result) :
    Critical → Prop
  | .ahead => ∀ found, op.Answer modules found x
  | .locked => ∃ f, x = .stopped (.fault f)
  | .inside found now => (∃ f, x = .stopped (.fault f)) ∨
    now = found ∧ ∀ found, op.Answer modules found x
  | .past found => op.Answer modules found x

section Critically

variable {modules known : List Module} {op : Operation} {l : Critical} {α : Type}

/-- The operation, from somewhere in its section to its ends. -/
abbrev Keeps (modules known : List Module) (op : Operation) (p : Dr α) (ok : α → Critical → Prop)
    (l : Critical) : Prop :=
  p.Follows (critically modules known op) ok (fun e l => op.Closes modules (.stopped e) l) l

theorem Critical.next_eq {o : Op} (hread : l = .locked → o ≠ .read) (hlock : o ≠ .drMutexLock)
    (hunlock : o ≠ .drMutexUnlock) (hedits : o.edits = false) (r : o.Reply) : l.next o r = l := by
  cases o with
  | drMutexLock => exact absurd rfl hlock
  | drMutexUnlock => exact absurd rfl hunlock
  | read => cases l <;> first | rfl | exact absurd rfl (hread rfl)
  | write x =>
    cases l with
    | inside found now => exact congrArg (Critical.inside found) (Write.edit_of_not hedits now)
    | _ => rfl
  | _ => cases l <;> rfl

theorem critically_stays {o : Op} (hread : l = .locked → o ≠ .read) (hlock : o ≠ .drMutexLock)
    (hunlock : o ≠ .drMutexUnlock) (hedits : o.edits = false) (hsignals : op.Signals l o) :
    (critically modules known op).Stays l o := by
  refine ⟨⟨?_, hsignals⟩, Critical.next_eq hread hlock hunlock hedits⟩
  cases l with
  | ahead => exact ⟨hunlock, hedits⟩
  | locked => exact ⟨hlock, hunlock, hedits⟩
  | inside found now => exact ⟨hlock, fun h => absurd h hunlock⟩
  | past found => exact ⟨hlock, hedits, fun h => absurd h hunlock⟩

theorem critically_resolveOffset {m : Module} {r : RelAddr} {u : Bool}
    (hko : ∀ msg ok, m.resolve r = .error msg →
      Keeps modules known op (assertHelper false msg u) ok l) :
    Keeps modules known op (resolveOffset m r u)
      (fun addr l' => l' = l ∧ m.resolve r = .ok addr) l := by
  unfold resolveOffset
  unfold Module.resolve at hko ⊢
  by_cases ho : r.offset.isset.offset = true
  · simp only [if_pos ho]
    exact ⟨rfl, rfl⟩
  · simp only [if_neg ho] at hko ⊢
    by_cases hs : r.offset.isset.symbol = true
    · simp only [if_pos hs] at hko ⊢
      refine Prog.follows_bind.mpr (follows_assertHelper (fun h => ?_) fun h => ?_)
      · rw [if_pos (of_decide_eq_true h)]
        exact ⟨rfl, rfl⟩
      · exact hko _ _ (if_neg (of_decide_eq_false h))
    · simp only [if_neg hs] at hko ⊢
      exact Prog.follows_bind.mpr (hko _ _ rfl)

/-- Some reply fits the lookup. -/
theorem exists_found (modules known : List Module) (op : Operation) (name : CxxString) :
    ∃ r, Found modules known op name r := by
  by_cases hop : op.resolves = true
  · exact ⟨_, fun _ => rfl, fun h => by cases hop.symm.trans h⟩
  · exact ⟨none, fun h => absurd h hop, fun _ m hm => by cases hm⟩

/-- An address is resolved in what its module is looked up as. -/
theorem critically_resolve {a : AbsOrRelAddr} {u : Bool}
    (hko : ∀ r msg ok, Found modules known op a.reladdr.modulename.cStr r →
      a.resolve r = .error msg → Keeps modules known op (assertHelper false msg u) ok l) :
    Keeps modules known op (absOrRelAddrToAbsAddr a u) (fun addr l' => l' = l ∧
      ∃ r, Found modules known op a.reladdr.modulename.cStr r ∧ a.resolve r = .ok addr) l := by
  obtain ⟨r, hfound⟩ := exists_found modules known op a.reladdr.modulename.cStr
  unfold absOrRelAddrToAbsAddr
  unfold AbsOrRelAddr.resolve at hko ⊢
  by_cases ha : a.isset.absaddr = true
  · simp only [if_pos ha]
    exact ⟨rfl, _, hfound, rfl⟩
  · simp only [if_neg ha] at hko ⊢
    by_cases hr : a.isset.reladdr = true
    · simp only [if_pos hr] at hko ⊢
      have hstays : (critically modules known op).Stays l
          (.drLookupModuleByName a.reladdr.modulename.cStr) :=
        critically_stays (by simp) (by simp) (by simp) rfl trivial
      refine .step hstays.1 fun r hadm => ?_
      rw [hstays.2]
      cases r with
      | none => exact ⟨rfl, none, hadm, rfl⟩
      | some m =>
        refine (critically_resolveOffset fun msg ok hmsg => ?_).bind ?_
        · exact hko (some m) msg ok hadm (by simp only [hmsg]; rfl)
        · rintro addr _ ⟨rfl, haddr⟩
          exact ⟨rfl, some m, hadm, by simp only [haddr]; rfl⟩
    · simp only [if_neg hr] at hko ⊢
      exact Prog.follows_bind.mpr (hko _ _ _ hfound rfl)

/-! ### Calls -/

/-- A call that resolves an address does so among the modules. -/
theorem locate_of_found {a : AbsOrRelAddr} {r : Option Module} {x : Except CxxString (Option AppPc)}
    (hop : op.resolves = true) (hr : Found modules known op a.reladdr.modulename.cStr r)
    (h : a.resolve r = x) : locate modules a = x := by
  obtain rfl := hr.call hop
  exact h

/-- The end of a section. -/
theorem keeps_unlock {found now : Tables} {f : Unit → Dr α} {ok : α → Critical → Prop}
    (heffect : op.Effect modules known found now)
    (hf : Keeps modules known op (f ()) ok (.past found)) :
    Keeps modules known op (drMutexUnlock.bind f) ok (.inside found now) :=
  ⟨⟨⟨nofun, fun _ => heffect⟩, trivial⟩, fun _ _ => hf⟩

theorem keeps_lock {f : Unit → Dr α} {ok : α → Critical → Prop}
    (hf : Keeps modules known op (f ()) ok .locked) :
    Keeps modules known op (drMutexLock.bind f) ok .ahead :=
  ⟨⟨⟨nofun, rfl⟩, trivial⟩, fun _ _ => hf⟩

/-- The look at the tables. -/
theorem keeps_look {f : Globals → Dr α} {ok : α → Critical → Prop}
    (hf : ∀ g, Keeps modules known op (f g) ok (.inside g.tables g.tables)) :
    Keeps modules known op (readGlobals.bind f) ok .locked :=
  ⟨⟨⟨nofun, nofun, rfl⟩, trivial⟩, fun g _ => hf g⟩

theorem keeps_write {x : Write} {f : Unit → Dr α} {ok : α → Critical → Prop} {found now : Tables}
    (hf : Keeps modules known op (f ()) ok (.inside found (x.edit now))) :
    Keeps modules known op ((write x).bind f) ok (.inside found now) :=
  ⟨⟨⟨nofun, nofun⟩, trivial⟩, fun _ _ => hf⟩

/-- A check of what was found; where it fails, the call rejects. -/
theorem keeps_check {found : Tables} {c : Bool} {msg : CxxString} {f : Unit → Dr α}
    {ok : α → Critical → Prop}
    (hreject : c = false → op.Effect modules known found found ∧
      op.Answer modules found (.stopped (.thrown (.exception msg))))
    (hf : c = true → Keeps modules known op (f ()) ok (.inside found found)) :
    Keeps modules known op ((assertHelper c msg true).bind f) ok (.inside found found) := by
  refine Prog.follows_bind.mpr (follows_assertHelper hf fun hc => ?_)
  exact ⟨⟨⟨nofun, fun _ => (hreject hc).1⟩, trivial⟩, fun _ _ => (hreject hc).2⟩

/-- A call that finds an error in its address. -/
theorem answer_of_locate_error {bp : WireBreakpoint} {msg : CxxString} (found : Tables)
    (h : locate modules bp.1.addr = .error msg) :
    replyOf (found.add modules bp) = .stopped (.thrown (.exception msg)) ∧
      replyOf (found.delete modules bp) = .stopped (.thrown (.exception msg)) := by
  have hplace : Tables.place modules bp = .error msg := by
    rw [Tables.place, h]
    rfl
  rw [Tables.add, Tables.delete, hplace]
  exact ⟨rfl, rfl⟩

theorem keeps_addBreakpoint (bp : WireBreakpoint) :
    Keeps modules known (.addBreakpoint bp) (addBreakpoint bp)
      (fun _ l => Operation.Closes modules (.addBreakpoint bp) (.returned .void) l) .ahead := by
  have haccept : ∀ {found t : Tables}, found.add modules bp = .ok t →
      Keeps modules known (.addBreakpoint bp) drMutexUnlock
        (fun _ l => Operation.Closes modules (.addBreakpoint bp) (.returned .void) l)
        (.inside found t) :=
    fun h => keeps_unlock (f := .ret) (Tables.serve_add h).symm (congrArg replyOf h).symm
  have hreject : ∀ {found : Tables} {msg : CxxString}, found.add modules bp = .error msg →
      Operation.Effect modules known found found (.addBreakpoint bp) ∧
        Operation.Answer modules found (.stopped (.thrown (.exception msg))) (.addBreakpoint bp) :=
    fun h => ⟨(Tables.serve_add_error h).symm, (congrArg replyOf h).symm⟩
  refine Prog.Follows.bind (critically_resolve fun r msg ok hr hmsg => ?_) ?_
  · exact fun found => (answer_of_locate_error found (locate_of_found rfl hr hmsg)).1.symm
  · rintro addr _ ⟨rfl, r, hr, haddr⟩
    have hloc := locate_of_found rfl hr haddr
    refine keeps_lock ?_
    cases addr with
    | some addr =>
      have hadd : ∀ found : Tables, found.add modules bp =
          if found.active.find? addr = none ∨ found.active.find? addr = some 0 then
            .ok { found with active := found.active.assign addr bp.1.count }
          else .error "Breakpoint already exists".toList := by
        intro found
        rw [Tables.add, Tables.place, hloc]
        rfl
      refine keeps_look fun g => keeps_check (fun hc => ?_) fun hc => keeps_write ?_
      · have hfull : ¬(g.breakpoints.find? addr = none ∨ g.breakpoints.find? addr = some 0) := by
          simpa [StdMap.count_eq_zero] using hc
        exact hreject ((hadd _).trans (if_neg hfull))
      · have hfree : g.breakpoints.find? addr = none ∨ g.breakpoints.find? addr = some 0 := by
          simpa [StdMap.count_eq_zero] using hc
        exact haccept ((hadd _).trans (if_pos hfree))
    | none =>
      have hadd : ∀ found : Tables, found.add modules bp =
          if found.deferred.find? bp.reladdr = none then
            .ok { found with deferred := found.deferred.assign bp.reladdr bp.1.count }
          else .error "Breakpoint already exists".toList := by
        intro found
        rw [Tables.add, Tables.place, hloc]
        rfl
      rw [World.reladdr_of_locate hloc]
      refine keeps_look fun g => keeps_check (fun hc => ?_) fun hc => keeps_write ?_
      · have hfull : ¬g.deferredBreakpoints.find? bp.reladdr = none := by
          simpa [StdMap.count_eq_zero] using hc
        exact hreject ((hadd _).trans (if_neg hfull))
      · have hfree : g.deferredBreakpoints.find? bp.reladdr = none := by
          simpa [StdMap.count_eq_zero] using hc
        exact haccept ((hadd _).trans (if_pos hfree))

/-- A flush that fails is the end of the call. -/
theorem keeps_totalFlush (b : Build) {ok : Unit → Critical → Prop} (hl : l ≠ .locked)
    (hfault : op.Closes modules (.stopped (.fault .assertFailed)) l) (hok : ok () l) :
    Keeps modules known op (totalFlush b) ok l := by
  cases b with
  | debug =>
    have hstays : (critically modules known op).Stays l .drDelayFlushRegion :=
      critically_stays (fun h => absurd h hl) nofun nofun rfl trivial
    refine .step hstays.1 fun c _ => ?_
    rw [hstays.2]
    cases c with
    | true => exact hok
    | false => exact hfault
  | ndebug => exact hok

theorem keeps_delBreakpoint (b : Build) (bp : WireBreakpoint) :
    Keeps modules known (.delBreakpoint bp) (delBreakpoint b bp)
      (fun _ l => Operation.Closes modules (.delBreakpoint bp) (.returned .void) l) .ahead := by
  have haccept : ∀ {found t : Tables}, found.delete modules bp = .ok t →
      Keeps modules known (.delBreakpoint bp) drMutexUnlock
        (fun _ l => Operation.Closes modules (.delBreakpoint bp) (.returned .void) l)
        (.inside found t) :=
    fun h => keeps_unlock (f := .ret) (Tables.serve_delete h).symm (congrArg replyOf h).symm
  have hreject : ∀ {found : Tables} {msg : CxxString}, found.delete modules bp = .error msg →
      Operation.Effect modules known found found (.delBreakpoint bp) ∧
        Operation.Answer modules found (.stopped (.thrown (.exception msg))) (.delBreakpoint bp) :=
    fun h => ⟨(Tables.serve_delete_error h).symm, (congrArg replyOf h).symm⟩
  refine Prog.Follows.bind (critically_resolve fun r msg ok hr hmsg => ?_) ?_
  · exact fun found => (answer_of_locate_error found (locate_of_found rfl hr hmsg)).2.symm
  · rintro addr _ ⟨rfl, r, hr, haddr⟩
    have hloc := locate_of_found rfl hr haddr
    refine keeps_lock ?_
    cases addr with
    | some addr =>
      have hdelete : ∀ found : Tables, found.delete modules bp =
          if found.active.find? addr = none then .error "Breakpoint not found".toList
          else .ok { found with active := found.active.erase addr } := by
        intro found
        rw [Tables.delete, Tables.place, hloc]
        rfl
      refine keeps_look fun g => keeps_check (fun hc => ?_) fun hc => keeps_write ?_
      · have hnone : g.breakpoints.find? addr = none := by
          simpa [StdMap.count_eq_zero] using hc
        exact hreject ((hdelete _).trans (if_pos hnone))
      · have hsome : ¬g.breakpoints.find? addr = none := by
          simpa [StdMap.count_eq_zero] using hc
        refine Prog.follows_bind.mpr (keeps_totalFlush b (by simp) (Or.inl ⟨_, rfl⟩) ?_)
        exact haccept ((hdelete _).trans (if_neg hsome))
    | none =>
      have hdelete : ∀ found : Tables, found.delete modules bp =
          if found.deferred.find? bp.reladdr = none then .error "Breakpoint not found".toList
          else .ok { found with deferred := found.deferred.erase bp.reladdr } := by
        intro found
        rw [Tables.delete, Tables.place, hloc]
        rfl
      rw [World.reladdr_of_locate hloc]
      refine keeps_look fun g => keeps_check (fun hc => ?_) fun hc => keeps_write ?_
      · have hnone : g.deferredBreakpoints.find? bp.reladdr = none := by
          simpa [StdMap.count_eq_zero] using hc
        exact hreject ((hdelete _).trans (if_pos hnone))
      · have hsome : ¬g.deferredBreakpoints.find? bp.reladdr = none := by
          simpa [StdMap.count_eq_zero] using hc
        exact haccept ((hdelete _).trans (if_neg hsome))

theorem keeps_getBreakpoints :
    Keeps modules known .getBreakpoints getBreakpoints
      (fun s l => Operation.Closes modules .getBreakpoints (.returned (.breakpoints s)) l) .ahead :=
  keeps_lock (keeps_look fun _ => keeps_unlock rfl rfl)

/-- One more action that has nothing to do with the section. -/
theorem keeps_stay {o : Op} {f : o.Reply → Dr α} {ok : α → Critical → Prop} (hl : l ≠ .locked)
    (hlock : o ≠ .drMutexLock) (hunlock : o ≠ .drMutexUnlock) (hedits : o.edits = false)
    (hsignals : op.Signals l o) (hf : ∀ r, Keeps modules known op (f r) ok l) :
    Keeps modules known op ((Prog.act o .ret : Dr o.Reply).bind f) ok l :=
  follows_stay (critically_stays (fun h => absurd h hl) hlock hunlock hedits hsignals) hf

/-! ### Operations that answer anything -/

/-- The operation has no answer to keep to. -/
def Operation.Open (modules : List Module) (op : Operation) : Prop :=
  ∀ found x, op.Answer modules found x

variable (hop : op.Open modules)
include hop

theorem Operation.Open.closes_fault (f : Fault) (l : Critical) :
    op.Closes modules (.stopped (.fault f)) l := by
  cases l with
  | ahead => exact fun found => hop found _
  | locked => exact ⟨f, rfl⟩
  | inside found now => exact Or.inl ⟨f, rfl⟩
  | past found => exact hop found _

theorem keeps_cassert {b : Build} {e : Dr Bool} {ok : Unit → Critical → Prop} (hok : ok () l)
    (he : Keeps modules known op e (fun _ l' => l' = l) l) :
    Keeps modules known op (cassert b e) ok l :=
  follows_cassert_stay hop.closes_fault hok he

theorem keeps_suspendApplicationThreads (b : Build) {ok : Unit → Critical → Prop}
    (hl : l ≠ .locked) (hok : ok () l) :
    Keeps modules known op (suspendApplicationThreads b) ok l := by
  refine Prog.follows_bind.mpr (keeps_cassert hop ?_ ?_)
  · refine keeps_stay hl nofun nofun rfl trivial fun _ => ?_
    refine keeps_stay hl nofun nofun rfl trivial fun c => ?_
    exact follows_drAssert_stay hop.closes_fault fun _ => hok
  · exact keeps_stay hl nofun nofun rfl trivial fun _ => rfl

theorem keeps_resumeApplicationThreads (b : Build) {ok : Unit → Critical → Prop}
    (hl : l ≠ .locked) (hok : ok () l) :
    Keeps modules known op (resumeApplicationThreads b) ok l := by
  refine Prog.follows_bind.mpr (keeps_cassert hop ?_ ?_)
  · refine keeps_stay hl nofun nofun rfl trivial fun _ => ?_
    refine keeps_stay hl nofun nofun rfl trivial fun _ => ?_
    refine Prog.follows_bind.mpr (keeps_cassert hop ?_ ?_)
    · exact keeps_stay (f := .ret) hl nofun nofun rfl trivial fun _ => hok
    · refine keeps_stay hl nofun nofun rfl trivial fun g => ?_
      cases g.suspendParams with
      | none => exact hop.closes_fault _ _
      | some params => exact keeps_stay (f := .ret) hl nofun nofun rfl trivial fun _ => rfl
  · exact keeps_stay hl nofun nofun rfl trivial fun _ => rfl

omit hop in
theorem keeps_suspendHelper {e : EventType} {start endPc : AppPc} {ok : Unit → Critical → Prop}
    (hl : l ≠ .locked) (hsignals : op.Signals l .drEventSignal) (hok : ok () l) :
    Keeps modules known op (suspendHelper (some e) start endPc) ok l :=
  keeps_stay hl nofun nofun rfl trivial fun _ => keeps_stay hl nofun nofun rfl trivial fun _ =>
    keeps_stay hl nofun nofun rfl trivial fun _ => keeps_stay hl nofun nofun rfl trivial fun _ =>
      keeps_stay hl nofun nofun rfl hsignals fun _ =>
        keeps_stay (f := .ret) hl nofun nofun rfl trivial fun _ => hok

theorem keeps_stopEventsCount {e : EventType} {ok : Bool → Critical → Prop} (hl : l ≠ .locked)
    (hok : ∀ c, ok c l) : Keeps modules known op (stopEventsCount e) ok l := by
  refine keeps_stay hl nofun nofun rfl trivial fun g => ?_
  cases g.stopEvents with
  | none => exact hop.closes_fault _ _
  | some S => exact hok _

omit hop

theorem keeps_executeUntilEvent (b : Build) (S : EventTypes) :
    Keeps modules known (.executeUntilEvent S) (executeUntilEvent b S)
      (fun e l => Operation.Closes modules (.executeUntilEvent S) (.returned (.event e)) l)
      .ahead := by
  have hop : (Operation.executeUntilEvent S).Open modules := fun _ _ => trivial
  refine Prog.follows_bind.mpr (keeps_stay nofun nofun nofun rfl trivial fun _ => keeps_lock ?_)
  refine keeps_look fun g => keeps_check (fun _ => ⟨rfl, trivial⟩) fun _ => ?_
  refine keeps_unlock rfl (Prog.follows_bind.mpr ?_)
  refine keeps_totalFlush b nofun trivial (keeps_resumeApplicationThreads hop b nofun ?_)
  refine keeps_stay nofun nofun nofun rfl trivial fun _ => Prog.follows_bind.mpr ?_
  refine keeps_suspendApplicationThreads hop b nofun ?_
  refine keeps_stay nofun nofun nofun rfl trivial fun g => ?_
  refine Prog.follows_bind.mpr (follows_assertHelper (fun _ => ?_) fun _ => ?_)
  · cases g.stoppedContext with
    | none => exact trivial
    | some c => exact trivial
  · exact ⟨⟨⟨nofun, rfl, fun _ => ⟨S, rfl⟩⟩, trivial⟩, fun _ _ => trivial⟩

theorem keeps_getCodeBlock :
    Keeps modules known .getCodeBlock getCodeBlock
      (fun b l => Operation.Closes modules .getCodeBlock (.returned (.codeBlock b)) l) .ahead := by
  have hop : Operation.getCodeBlock.Open modules := fun _ _ => trivial
  refine keeps_lock (keeps_look fun g => keeps_check (fun _ => ⟨rfl, trivial⟩) fun _ => ?_)
  cases g.stoppedBlock with
  | none => exact Or.inl ⟨_, rfl⟩
  | some block =>
    refine keeps_stay nofun nofun nofun rfl trivial fun bytes => ?_
    cases bytes with
    | none => exact Or.inr ⟨rfl, fun _ => trivial⟩
    | some bytes =>
      exact keeps_unlock rfl (keeps_stay nofun nofun nofun rfl trivial fun _ => trivial)

theorem keeps_getContext :
    Keeps modules known .getContext getContext
      (fun c l => Operation.Closes modules .getContext (.returned (.registers c)) l) .ahead := by
  refine keeps_lock (keeps_look fun g => keeps_check (fun _ => ⟨rfl, trivial⟩) fun _ => ?_)
  cases g.stoppedContext with
  | none => exact Or.inl ⟨_, rfl⟩
  | some c => exact keeps_unlock rfl trivial

/-! ### Clean calls and callbacks -/

theorem keeps_updateFastforwardCount (b : Build) (addr start endPc : AppPc) :
    Keeps modules known (.cleanCall (.updateFastforwardCount addr start endPc))
      (updateFastforwardCount b addr start endPc)
      (fun _ l => Operation.Closes modules (.cleanCall (.updateFastforwardCount addr start endPc))
        (.returned .void) l) .ahead := by
  have hop : (Operation.cleanCall (.updateFastforwardCount addr start endPc)).Open modules :=
    fun _ _ => trivial
  refine keeps_lock (keeps_look fun g => ?_)
  cases hn : g.breakpoints.find? addr with
  | none =>
    refine keeps_unlock (Tables.hit_of_none hn).symm ?_
    exact keeps_totalFlush b (by simp) trivial trivial
  | some n =>
    refine keeps_write ?_
    have hhit : g.tables.hit addr = if n - 1 = 0 then
        { g.tables with active := (g.breakpoints.assign addr (n - 1)).erase addr }
        else { g.tables with active := g.breakpoints.assign addr (n - 1) } := by
      rw [Tables.hit, Globals.tables_active, hn]
    by_cases h : n - 1 = 0
    · simp only [h] at hhit ⊢
      refine keeps_write (Prog.follows_bind.mpr (keeps_stopEventsCount hop (by simp) fun c => ?_))
      cases c with
      | true =>
        refine Prog.follows_bind.mpr (keeps_suspendHelper (by simp) ?_ ?_)
        · rintro _ _ _ ⟨rfl, rfl, rfl⟩
          have hone : n = 1 := by bv_omega
          exact ⟨_, _, rfl, hn.trans (congrArg some hone)⟩
        exact keeps_unlock (f := .ret) hhit.symm trivial
      | false => exact keeps_unlock (f := .ret) hhit.symm trivial
    · simp only [if_neg h] at hhit ⊢
      exact keeps_unlock (f := .ret) hhit.symm trivial

theorem keeps_relevantBlockCleanCall (start endPc : AppPc) :
    Keeps modules known (.cleanCall (.relevantBlockCleanCall start endPc))
      (relevantBlockCleanCall start endPc)
      (fun _ l => Operation.Closes modules (.cleanCall (.relevantBlockCleanCall start endPc))
        (.returned .void) l) .ahead := by
  have hop : (Operation.cleanCall (.relevantBlockCleanCall start endPc)).Open modules :=
    fun _ _ => trivial
  refine Prog.follows_bind.mpr (keeps_stopEventsCount hop nofun fun c => ?_)
  cases c with
  | true => exact keeps_suspendHelper nofun nofun fun _ => trivial
  | false => exact fun _ => trivial

/-- The first loop activates the rest of what was found. -/
theorem keeps_activateDeferred (m : Module) {found : Tables} {active : StdMap AppPc SizeT}
    {ps qs : List (DeferredKey × SizeT)} (toDelete : List DeferredKey)
    (hentries : found.deferred.entries = ps ++ qs)
    (h : Tables.Activates known m ps found.active active) :
    Keeps modules known (.eventModuleLoaded m) (activateDeferred m qs toDelete)
      (fun ks l => ks = World.collect m qs toDelete ∧ ∃ active',
        l = .inside found ⟨active', found.deferred⟩ ∧
        Tables.Activates known m found.deferred.entries found.active active')
      (.inside found ⟨active, found.deferred⟩) := by
  have hop : (Operation.eventModuleLoaded m).Open modules := fun _ _ => trivial
  induction qs generalizing ps active toDelete with
  | nil =>
    rw [List.append_nil] at hentries
    exact ⟨rfl, active, rfl, hentries ▸ h⟩
  | cons p qs ih =>
    have hentries' : found.deferred.entries = ps ++ [p] ++ qs := by simpa using hentries
    rw [activateDeferred, World.collect]
    split_ifs with hp
    · have hname : (({} : AbsOrRelAddr).setReladdr p.1.1).reladdr.modulename.cStr =
          m.preferredName := by
        rw [← m.cStr_name, ← hp]
        rfl
      refine Prog.Follows.bind (critically_resolve fun r msg ok hr hmsg => ?_) ?_
      · obtain ⟨M, rfl, hM⟩ := AbsOrRelAddr.resolve_setReladdr_error hmsg
        refine ⟨⟨⟨by simp, fun _ => ?_⟩, trivial⟩, fun _ _ => trivial⟩
        obtain ⟨hmem, hM'⟩ := hr.load rfl M rfl
        exact .some hentries h hp ⟨hmem, hM'.trans hname⟩ hM
      · rintro addr _ ⟨rfl, r, hr, haddr⟩
        refine Prog.follows_bind.mpr (follows_drAssert_stay hop.closes_fault fun ha => ?_)
        obtain ⟨addr, rfl⟩ := Option.isSome_iff_exists.mp ha
        simp only [deref, Prog.bind_eq, Prog.ret_bind]
        refine Prog.follows_bind.mpr (follows_drAssert_stay hop.closes_fault fun hspan => ?_)
        obtain ⟨M, rfl, hM⟩ := AbsOrRelAddr.resolve_setReladdr haddr
        refine keeps_write (ih _ hentries' (h.append ?_))
        obtain ⟨hmem, hM'⟩ := hr.load rfl M rfl
        exact .take hp ⟨hmem, hM'.trans hname⟩ hM (of_decide_eq_true hspan) (.nil _)
    · exact ih _ hentries' (h.append (.skip hp (.nil _)))

/-- The second loop erases what was collected. -/
theorem keeps_eraseDeferred (m : Module) {found now : Tables} (ks : List DeferredKey) :
    Keeps modules known (.eventModuleLoaded m) (eraseDeferred ks)
      (fun _ l => l = .inside found ⟨now.active, ks.foldl StdMap.erase now.deferred⟩)
      (.inside found now) := by
  induction ks generalizing now with
  | nil => exact rfl
  | cons k ks ih => exact keeps_write (@ih ⟨now.active, now.deferred.erase k⟩)

theorem keeps_eventModuleLoaded (b : Build) (m : Module) :
    Keeps modules known (.eventModuleLoaded m) (eventModuleLoaded b m)
      (fun _ l => Operation.Closes modules (.eventModuleLoaded m) (.returned .void) l) .ahead := by
  refine keeps_lock (keeps_look fun g => ?_)
  refine Prog.Follows.bind (keeps_activateDeferred m [] (List.nil_append _).symm (.nil _)) ?_
  rintro ks _ ⟨rfl, active, rfl, hact⟩
  refine Prog.Follows.bind (keeps_eraseDeferred m _) ?_
  rintro _ _ rfl
  refine keeps_unlock ?_ trivial
  have hload := Tables.Loads.all hact
  rwa [← World.foldl_erase_collect] at hload

theorem keeps_eventBasicBlock (bb : List Instr) :
    Keeps modules known (.eventBasicBlock bb) (eventBasicBlock bb)
      (fun items l => Operation.Closes modules (.eventBasicBlock bb) (.returned (.items items)) l)
      .ahead := by
  unfold eventBasicBlock
  cases hfirst : bb.head? with
  | none => exact fun _ => nofun
  | some first =>
    cases hlast : bb.getLast? with
    | none => exact fun _ => nofun
    | some last =>
      refine keeps_lock (keeps_look fun g => Prog.follows_bind.mpr ?_)
      refine keeps_stay nofun nofun nofun rfl trivial fun g' => ?_
      cases g'.stopEvents with
      | none => exact Or.inl ⟨_, rfl⟩
      | some S =>
        have hitems : ∀ items, items = World.instrumented g.breakpoints S bb first.pc
            (last.pc + BitVec.ofNat 64 last.length) →
              Operation.Answer modules g.tables (.returned (.items items))
                (.eventBasicBlock bb) := by
          rintro items rfl r hr
          exact ⟨first, last, S, hfirst, hlast, (Prog.Ending.returned.inj hr).symm⟩
        refine keeps_unlock rfl ?_
        by_cases hS : EventType.relevantBlock ∈ S
        · simp only [hS, decide_true, if_true]
          refine hitems _ ?_
          rw [World.instrumented, if_pos hS]
        · simp only [hS, decide_false]
          refine hitems _ ?_
          rw [World.instrumented, if_neg hS]

/-- Every operation edits the tables in its section, and answers to what it has found. -/
theorem keeps_prog (b : Build) (op : Operation) :
    Keeps modules known op (op.prog b) (fun r l => op.Closes modules (.returned r) l) .ahead := by
  have hret : ∀ {α : Type} {p : Dr α} (f : α → Result),
      Keeps modules known op p (fun a l => op.Closes modules (.returned (f a)) l) .ahead →
      Keeps modules known op (p.bind fun a => .ret (f a))
        (fun r l => op.Closes modules (.returned r) l) .ahead :=
    fun f h => Prog.Follows.bind h fun _ _ h => h
  cases op with
  | serverThread =>
    refine hret _ (keeps_suspendApplicationThreads ?_ b nofun ?_)
    · exact fun _ _ => trivial
    · exact fun _ => trivial
  | addBreakpoint bp => exact hret _ (keeps_addBreakpoint bp)
  | delBreakpoint bp => exact hret _ (keeps_delBreakpoint b bp)
  | getBreakpoints => exact hret _ keeps_getBreakpoints
  | executeUntilEvent S => exact hret _ (keeps_executeUntilEvent b S)
  | getCodeBlock => exact hret _ keeps_getCodeBlock
  | getContext => exact hret _ keeps_getContext
  | cleanCall c =>
    cases c with
    | updateFastforwardCount addr start endPc =>
      exact hret _ (keeps_updateFastforwardCount b addr start endPc)
    | relevantBlockCleanCall start endPc =>
      exact hret _ (keeps_relevantBlockCleanCall start endPc)
  | eventModuleLoaded m => exact hret _ (keeps_eventModuleLoaded b m)
  | eventBasicBlock bb => exact hret _ (keeps_eventBasicBlock bb)

end Critically

end ConcreteEval
