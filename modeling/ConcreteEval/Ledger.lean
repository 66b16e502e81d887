import ConcreteEval.Book

/-!
# The breakpoints that are pending

A breakpoint is pending from the call that accepted it until it fires or is deleted. `Ledger` is a
target together with its pending breakpoints : the breakpoint as it was requested, the place its
entry is at, and the hits since it became active. What the ledger says of the requests is read off
the calls and the hits, not off the tables : `Ledger.pendingAfter` enters a breakpoint when its call
returns, takes it out when a call that deletes its place returns or when its address is hit with one
hit left, and moves it to its address when its module is loaded.

`Ledger.Change` is what a step does to the tables and to the ledger at once (`Ledger.change`); the
results on what the tables have to do with the requests go by its cases.
-/

namespace ConcreteEval

/-- A breakpoint that is pending. -/
structure Pending where
  bp : WireBreakpoint
  place : Tables.Place
  /-- The hits since it is active. -/
  hits : ℕ

/-- The load of a module makes what waits for it active. -/
def Pending.load (m : Module) (p : Pending) : Pending :=
  match p.place with
  | .active _ => p
  | .deferred ra =>
    if ra.1.modulename = m.preferredName then
      match m.resolve ra.1 with
      | .ok addr => { p with place := .active addr }
      | .error _ => p
    else p

/-- A hit of an address counts for the breakpoint there. -/
def Pending.hit (addr : AppPc) (p : Pending) : Pending :=
  if p.place.Same (.active addr) then { p with hits := p.hits + 1 } else p

section Pending

variable {m : Module} {p : Pending} {ra : DeferredKey} {addr : AppPc}

theorem Pending.load_of_active (h : p.place = .active addr) : p.load m = p := by
  unfold load
  rw [h]

theorem Pending.load_of_ne (h : p.place = .deferred ra)
    (hname : ra.1.modulename ≠ m.preferredName) :
    p.load m = p := by
  unfold load
  rw [h]
  exact if_neg hname

theorem Pending.load_of_resolve (h : p.place = .deferred ra)
    (hname : ra.1.modulename = m.preferredName) (hres : m.resolve ra.1 = .ok addr) :
    p.load m = { p with place := .active addr } := by
  unfold load
  rw [h]
  simp only [if_pos hname, hres]

theorem Pending.load_bp (m : Module) (p : Pending) : (p.load m).bp = p.bp := by
  unfold load
  split
  · rfl
  · split_ifs
    · split <;> rfl
    · rfl

theorem Pending.hit_of_not (h : ¬p.place.Same (.active addr)) : p.hit addr = p :=
  if_neg h

theorem Pending.hit_of_same (h : p.place.Same (.active addr)) :
    p.hit addr = { p with hits := p.hits + 1 } :=
  if_pos h

@[simp] theorem Pending.hit_bp (addr : AppPc) (p : Pending) : (p.hit addr).bp = p.bp := by
  unfold hit
  split_ifs <;> rfl

@[simp] theorem Pending.hit_place (addr : AppPc) (p : Pending) : (p.hit addr).place = p.place := by
  unfold hit
  split_ifs <;> rfl

end Pending

structure Ledger where
  target : Target
  pending : List Pending

namespace Ledger

def tables (k : Ledger) : Tables :=
  k.target.world.globals.tables

def modules (k : Ledger) : List Module :=
  k.target.world.modules

/-- The call returns. -/
def returns (k : Ledger) (env : Env) (op : Operation) : Bool :=
  match k.target.world.alone .debug env .server op with
  | some (.returned _, _) => true
  | _ => false

/-- The pending breakpoints after a step. -/
def pendingAfter (k : Ledger) : Activity → List Pending
  | .call (.addBreakpoint bp) env =>
    match Tables.place k.modules bp with
    | .ok pl => if k.returns env (.addBreakpoint bp) then ⟨bp, pl, 0⟩ :: k.pending else k.pending
    | .error _ => k.pending
  | .call (.delBreakpoint bp) env =>
    match Tables.place k.modules bp with
    | .ok pl =>
      if k.returns env (.delBreakpoint bp) then k.pending.filter fun p => ¬p.place.Same pl
      else k.pending
    | .error _ => k.pending
  | .callback _ (.eventModuleLoaded m) _ => k.pending.map (.load m)
  | .callback _ (.cleanCall (.updateFastforwardCount addr _ _)) _ =>
    match k.tables.active.find? addr with
    | some n =>
      if n = 1 then k.pending.filter fun p => ¬p.place.Same (.active addr)
      else k.pending.map (.hit addr)
    | none => k.pending
  | _ => k.pending

/-- One step of the target, entered in the ledger. -/
def step (k : Ledger) (l : Activity) : Option Ledger :=
  (k.target.step .debug l).map fun t => ⟨t, k.pendingAfter l⟩

def boot (modules : List Module) : Ledger where
  target := .boot .debug modules
  pending := []

/-- Reached from the start through steps that satisfy `cond`. -/
def ReachedBy (cond : Ledger → Activity → Prop) (k : Ledger) : Prop :=
  ∃ modules, Relation.ReflTransGen (Moves step cond) (boot modules) k

/-- The ledger after the steps `ls` from the start, if they can be taken. -/
def after (modules : List Module) (ls : List Activity) : Ledger :=
  (ls.foldlM step (boot modules)).getD (boot modules)

variable {k k' : Ledger} {l : Activity} {cond : Ledger → Activity → Prop}

/-- What the start satisfies and every step from a target that is as it should be keeps. -/
theorem ReachedBy.invariant {I : Ledger → Prop} (h : k.ReachedBy cond)
    (hboot : ∀ modules, I (boot modules))
    (hstep : ∀ k l k', k.target.Ok → I k → cond k l → k.step l = some k' → I k') :
    k.target.Ok ∧ I k := by
  obtain ⟨modules, h⟩ := h
  refine invariant_of_moves (I := fun k => k.target.Ok ∧ I k)
    ⟨Target.ok_boot modules, hboot modules⟩ ?_ h
  rintro k l k' ⟨hok, hi⟩ hc hs
  obtain ⟨t, ht, rfl⟩ := Option.map_eq_some_iff.mp hs
  exact ⟨(Target.book_step hok ht).1, hstep k l _ hok hi hc hs⟩

theorem reachedBy_after (modules : List Module) {ls : List Activity}
    (hc : ∀ k, ∀ l ∈ ls, cond k l) : (after modules ls).ReachedBy cond := by
  refine ⟨modules, ?_⟩
  unfold after
  cases h : ls.foldlM step (boot modules) with
  | none => exact Relation.ReflTransGen.refl
  | some k => exact moves_of_foldlM hc h

/-! ## What a step changes -/

/-- What a step does to the tables, the modules and the pending breakpoints. -/
inductive Change (k : Ledger) : Activity → Tables → List Module → List Pending → Prop
  | add {bp : WireBreakpoint} {env : Env} {pl : Tables.Place} {tb : Tables}
      (hpl : Tables.place k.modules bp = .ok pl) (hadd : k.tables.add k.modules bp = .ok tb) :
    Change k (.call (.addBreakpoint bp) env) tb k.modules (⟨bp, pl, 0⟩ :: k.pending)
  | delete {bp : WireBreakpoint} {env : Env} {pl : Tables.Place}
      (hpl : Tables.place k.modules bp = .ok pl) (hfind : k.tables.find? pl ≠ none) :
    Change k (.call (.delBreakpoint bp) env) (k.tables.remove pl) k.modules
      (k.pending.filter fun p => ¬p.place.Same pl)
  | load {u : ℕ} {m : Module} {env : Env} {tb : Tables} (ht : k.tables.load m = some tb) :
    Change k (.callback u (.eventModuleLoaded m) env) tb (m :: k.modules)
      (k.pending.map (.load m))
  | fire {u : ℕ} {addr start endPc : AppPc} {env : Env}
      (h : k.tables.active.find? addr = some 1) :
    Change k (.callback u (.cleanCall (.updateFastforwardCount addr start endPc)) env)
      (k.tables.remove (.active addr)) k.modules
      (k.pending.filter fun p => ¬p.place.Same (.active addr))
  | count {u : ℕ} {addr start endPc : AppPc} {env : Env} {n : SizeT}
      (h : k.tables.active.find? addr = some n) (hn : n ≠ 1) :
    Change k (.callback u (.cleanCall (.updateFastforwardCount addr start endPc)) env)
      (k.tables.put (n - 1) (.active addr)) k.modules (k.pending.map (.hit addr))
  | unload {m : Module} : Change k (.unload m) k.tables (k.modules.erase m) k.pending
  | other {l : Activity} : Change k l k.tables k.modules k.pending

/-- A call that serves with `r` returns if `r` is a success. -/
theorem returns_eq {env : Env} {op : Operation} {r : Except CxxString Tables}
    (h : k.target.world.Serves .debug env op r) : k.returns env op = r.isOk := by
  unfold returns
  cases r with
  | ok tb =>
    obtain ⟨w', hal, -⟩ := h
    rw [hal]
    rfl
  | error msg =>
    obtain ⟨w', hal, -⟩ := h
    rw [hal]
    rfl

theorem change_add (hok : k.target.Ok) (bp : WireBreakpoint) (env : Env) :
    k.Change (.call (.addBreakpoint bp) env) (k.tables.serve k.modules (.addBreakpoint bp))
      k.modules (k.pendingAfter (.call (.addBreakpoint bp) env)) := by
  have hret : k.returns env (.addBreakpoint bp) = (k.tables.add k.modules bp).isOk :=
    returns_eq (World.serves_addBreakpoint env .debug hok.mutex bp)
  cases ht : k.tables.add k.modules bp with
  | error msg =>
    rw [ht] at hret
    have hp : k.pendingAfter (.call (.addBreakpoint bp) env) = k.pending := by
      simp only [pendingAfter, hret]
      cases Tables.place k.modules bp <;> rfl
    rw [Tables.serve_add_error ht, hp]
    exact .other
  | ok tb =>
    obtain ⟨pl, hpl⟩ := Tables.exists_place_of_add ht
    rw [ht] at hret
    have hp : k.pendingAfter (.call (.addBreakpoint bp) env) = ⟨bp, pl, 0⟩ :: k.pending := by
      simp only [pendingAfter, hret, hpl]
      rfl
    rw [Tables.serve_add ht, hp]
    exact .add hpl ht

theorem change_delete (hok : k.target.Ok) (bp : WireBreakpoint) (env : Env) :
    k.Change (.call (.delBreakpoint bp) env) (k.tables.serve k.modules (.delBreakpoint bp))
      k.modules (k.pendingAfter (.call (.delBreakpoint bp) env)) := by
  have hret : k.returns env (.delBreakpoint bp) = (k.tables.delete k.modules bp).isOk :=
    returns_eq (World.serves_delBreakpoint env .debug hok.mutex bp)
  cases ht : k.tables.delete k.modules bp with
  | error msg =>
    rw [ht] at hret
    have hp : k.pendingAfter (.call (.delBreakpoint bp) env) = k.pending := by
      simp only [pendingAfter, hret]
      cases Tables.place k.modules bp <;> rfl
    rw [Tables.serve_delete_error ht, hp]
    exact .other
  | ok tb =>
    obtain ⟨pl, hpl⟩ := Tables.exists_place_of_delete ht
    rw [ht] at hret
    have hp : k.pendingAfter (.call (.delBreakpoint bp) env) =
        k.pending.filter fun p => ¬p.place.Same pl := by
      simp only [pendingAfter, hret, hpl]
      rfl
    obtain ⟨rfl, hfind⟩ := (Tables.delete_eq_ok hpl).mp ht
    rw [Tables.serve_delete ht, hp]
    exact .delete hpl hfind

/-- A hit of an address. -/
theorem change_hit (u : ℕ) (addr start endPc : AppPc) (env : Env) :
    k.Change (.callback u (.cleanCall (.updateFastforwardCount addr start endPc)) env)
      (k.tables.hit addr) k.modules
      (k.pendingAfter
        (.callback u (.cleanCall (.updateFastforwardCount addr start endPc)) env)) := by
  cases hn : k.tables.active.find? addr with
  | none =>
    rw [Tables.hit_of_none hn]
    simp only [pendingAfter, hn]
    exact .other
  | some n =>
    by_cases h1 : n = 1
    · subst h1
      rw [Tables.hit_of_one hn]
      simp only [pendingAfter, hn, if_true]
      exact .fire hn
    · rw [Tables.hit_of_ne_one hn h1]
      simp only [pendingAfter, hn, if_neg h1]
      exact .count hn h1

/-- Every step makes a change. -/
theorem change (hok : k.target.Ok) (hs : k.step l = some k') :
    k.Change l k'.tables k'.modules k'.pending := by
  obtain ⟨t, ht, rfl⟩ := Option.map_eq_some_iff.mp hs
  obtain ⟨-, hstep⟩ := Target.book_step hok ht
  change k.Change l t.book.tables t.book.modules (k.pendingAfter l)
  generalize t.book = b at hstep
  cases hstep with
  | @call op env hw hop =>
    cases op with
    | addBreakpoint bp => exact change_add hok bp env
    | delBreakpoint bp => exact change_delete hok bp env
    | _ => exact .other
  | hit hw => exact change_hit _ _ _ _ _
  | load hw hload => exact .load hload
  | unload hw => exact .unload
  | _ => exact .other

end Ledger

end ConcreteEval
