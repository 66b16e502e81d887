import ConcreteEval.Ledger

/-!
# Deleting a breakpoint by its address

`delBreakpoint` resolves the address again, and the outcome says which entry it removes. A
breakpoint that is pending always has an entry (`Ledger.Kept`), but the entry stays where it was
put while its address may come to stand for something else. It does not, as long as the modules
under the names of pending breakpoints change only in that the module a breakpoint waits for is
loaded (`Ledger.KeepsModules`) : then every pending breakpoint is deleted by its own address, and
no entry but its own is touched (`Ledger.deletes`).

Two breakpoints that resolve to one address share one entry, which either of them deletes.
-/

namespace ConcreteEval

namespace Ledger

/-- `delBreakpoint` with the address of the breakpoint returns, with its entry gone and every other
entry as it was. -/
def Deletes (k : Ledger) (p : Pending) : Prop :=
  ∀ env, ∃ w', k.target.world.alone .debug env .server (.delBreakpoint p.bp) =
      some (.returned .void, w') ∧
    w'.globals.tables.find? p.place = none ∧
    ∀ pl, ¬pl.Same p.place → w'.globals.tables.find? pl = k.tables.find? pl

/-- The step changes the modules under the names of pending breakpoints only in that it loads a
module that some of them wait for. -/
structure KeepsModules (k : Ledger) (l : Activity) : Prop where
  load : ∀ u m env, l = .callback u (.eventModuleLoaded m) env → ∀ p ∈ k.pending,
    p.bp.1.addr.isset.absaddr = false → m.preferredName = p.bp.1.addr.reladdr.modulename.cStr →
    moduleNamed k.modules p.bp.1.addr.reladdr.modulename = none ∧
      p.bp.1.addr.reladdr.modulename = m.preferredName
  unload : ∀ m, l = .unload m → ∀ p ∈ k.pending, p.bp.1.addr.isset.absaddr = false →
    moduleNamed (k.modules.erase m) p.bp.1.addr.reladdr.modulename =
      moduleNamed k.modules p.bp.1.addr.reladdr.modulename

variable {k k' : Ledger} {l : Activity} {tb tb' : Tables} {ms : List Module} {ps : List Pending}
  {m : Module} {p : Pending}

/-! ## Pending breakpoints have an entry -/

/-- Every pending breakpoint has an entry at its place, a deferred one under its own key. -/
structure Kept (tb : Tables) (ps : List Pending) : Prop where
  active : ∀ p ∈ ps, ∀ addr, p.place = .active addr → tb.active.find? addr ≠ none
  deferred : ∀ p ∈ ps, ∀ ra, p.place = .deferred ra → ∃ n, (ra, n) ∈ tb.deferred.entries

theorem Kept.find?_ne_none (h : Kept tb ps) (hp : p ∈ ps) : tb.find? p.place ≠ none := by
  cases hplace : p.place with
  | active addr => exact h.active p hp addr hplace
  | deferred ra =>
    obtain ⟨n, hn⟩ := h.deferred p hp ra hplace
    exact Option.ne_none_iff_exists'.mpr ⟨n, StdMap.find?_of_mem hn⟩

/-- A count is written to an address. -/
theorem Kept.put (h : Kept tb ps) (n : SizeT) (addr : AppPc) :
    Kept (tb.put n (.active addr)) ps := by
  refine ⟨fun p hp addr' hplace => ?_, h.deferred⟩
  change (tb.put n (.active addr)).find? (.active addr') ≠ none
  rw [Tables.find?_put]
  split_ifs
  · simp
  · exact h.active p hp addr' hplace

theorem Kept.hit (h : Kept tb ps) (addr : AppPc) : Kept tb (ps.map (.hit addr)) := by
  refine ⟨fun p hp addr' hplace => ?_, fun p hp ra hplace => ?_⟩
  · obtain ⟨q, hq, rfl⟩ := List.mem_map.mp hp
    exact h.active q hq addr' ((Pending.hit_place addr q).symm.trans hplace)
  · obtain ⟨q, hq, rfl⟩ := List.mem_map.mp hp
    exact h.deferred q hq ra ((Pending.hit_place addr q).symm.trans hplace)

/-- A breakpoint is added. -/
theorem Kept.add (h : Kept tb ps) {bp : WireBreakpoint} {pl : Tables.Place}
    (hpl : Tables.place ms bp = .ok pl) (hadd : tb.add ms bp = .ok tb') :
    Kept tb' (⟨bp, pl, 0⟩ :: ps) := by
  obtain ⟨rfl, -⟩ := Tables.add_eq_ok hpl hadd
  cases pl with
  | active addr =>
    have hput := h.put bp.1.count addr
    refine ⟨List.forall_mem_cons.mpr ⟨?_, hput.active⟩,
      List.forall_mem_cons.mpr ⟨nofun, h.deferred⟩⟩
    intro addr' hplace
    obtain rfl := Tables.Place.active.inj hplace
    change (tb.active.assign addr bp.1.count).find? addr ≠ none
    rw [StdMap.find?_assign_self]
    exact Option.some_ne_none _
  | deferred ra =>
    have hnone := Tables.find?_of_add hpl hadd
    refine ⟨List.forall_mem_cons.mpr ⟨nofun, h.active⟩,
      List.forall_mem_cons.mpr ⟨?_, fun p hp ra' hplace => ?_⟩⟩
    · intro ra' hplace
      obtain rfl := Tables.Place.deferred.inj hplace
      exact ⟨bp.1.count, StdMap.mem_assign_self hnone⟩
    · obtain ⟨n, hn⟩ := h.deferred p hp ra' hplace
      exact ⟨n, StdMap.mem_assign_of_mem hnone hn⟩

/-- The entry of a place goes, with the breakpoints there. -/
theorem Kept.remove (h : Kept tb ps) (pl : Tables.Place) :
    Kept (tb.remove pl) (ps.filter fun p => ¬p.place.Same pl) := by
  refine ⟨fun p hp addr hplace => ?_, fun p hp ra hplace => ?_⟩
  · obtain ⟨hp, hnot⟩ := List.mem_filter.mp hp
    change (tb.remove pl).find? (.active addr) ≠ none
    rw [Tables.find?_remove, if_neg (hplace ▸ of_decide_eq_true hnot)]
    exact h.active p hp addr hplace
  · obtain ⟨hp, hnot⟩ := List.mem_filter.mp hp
    obtain ⟨n, hn⟩ := h.deferred p hp ra hplace
    cases pl with
    | active addr => exact ⟨n, hn⟩
    | deferred ra' =>
      refine ⟨n, List.mem_filter.mpr ⟨hn, decide_eq_true fun hsame => ?_⟩⟩
      exact of_decide_eq_true hnot (hplace ▸ hsame.symm)

/-- What waits for a module is active once it is loaded. -/
theorem Kept.load (h : Kept tb ps) (ht : tb.load m = some tb') : Kept tb' (ps.map (.load m)) := by
  obtain ⟨-, hdeferred⟩ := Tables.load_eq_some ht
  have hfits : Tables.Fits m tb.deferred.entries :=
    Tables.isSome_load.mp (Option.isSome_iff_exists.mpr ⟨tb', ht⟩)
  have hkeep : ∀ addr, tb.active.find? addr ≠ none → tb'.active.find? addr ≠ none := by
    intro addr hne
    rw [Tables.find?_load ht]
    cases Tables.held m addr tb.deferred.entries with
    | none => exact hne
    | some n => exact Option.some_ne_none n
  have hone : ∀ p ∈ ps, (∀ addr, (p.load m).place = .active addr → tb'.active.find? addr ≠ none) ∧
      ∀ ra, (p.load m).place = .deferred ra → ∃ n, (ra, n) ∈ tb'.deferred.entries := by
    intro p hp
    cases hplace : p.place with
    | active addr =>
      rw [Pending.load_of_active hplace, hplace]
      refine ⟨fun addr' haddr => ?_, nofun⟩
      obtain rfl := Tables.Place.active.inj haddr
      exact hkeep addr (h.active p hp addr hplace)
    | deferred ra =>
      obtain ⟨n, hn⟩ := h.deferred p hp ra hplace
      by_cases hname : ra.1.modulename = m.preferredName
      · obtain ⟨x, hres, -⟩ := hfits (ra, n) hn hname
        rw [Pending.load_of_resolve hplace hname hres]
        refine ⟨fun addr' haddr => ?_, nofun⟩
        obtain rfl := Tables.Place.active.inj haddr
        rw [Tables.find?_load ht]
        obtain ⟨n', hheld⟩ :=
          Option.ne_none_iff_exists'.mp (Tables.held_ne_none hn ⟨hname, hres⟩)
        rw [hheld]
        exact Option.some_ne_none n'
      · rw [Pending.load_of_ne hplace hname, hplace]
        refine ⟨nofun, fun ra' hra => ⟨n, ?_⟩⟩
        obtain rfl := Tables.Place.deferred.inj hra
        rw [hdeferred]
        exact List.mem_filter.mpr ⟨hn, decide_eq_true hname⟩
  refine ⟨fun p hp => ?_, fun p hp => ?_⟩
  · obtain ⟨q, hq, rfl⟩ := List.mem_map.mp hp
    exact (hone q hq).1
  · obtain ⟨q, hq, rfl⟩ := List.mem_map.mp hp
    exact (hone q hq).2

/-- No step loses the entry of a pending breakpoint. -/
theorem Kept.change (h : Kept k.tables k.pending) (hc : k.Change l tb ms ps) : Kept tb ps := by
  cases hc with
  | add hpl hadd => exact h.add hpl hadd
  | delete hpl hfind => exact h.remove _
  | load ht => exact h.load ht
  | fire hone => exact h.remove _
  | count hn hn1 => exact (h.put _ _).hit _
  | unload => exact h
  | other => exact h

/-! ## Addresses that stay where they are -/

section Place

variable {ms' : List Module} {bp : WireBreakpoint} {ra : DeferredKey}

/-- Only the module under the name of a breakpoint matters for its place. -/
theorem place_congr (h : bp.1.addr.isset.absaddr = false →
    moduleNamed ms' bp.1.addr.reladdr.modulename = moduleNamed ms bp.1.addr.reladdr.modulename) :
    Tables.place ms' bp = Tables.place ms bp := by
  unfold Tables.place locate
  cases habs : bp.1.addr.isset.absaddr with
  | true => rfl
  | false => rw [h habs]

/-- A breakpoint waits if its module is not loaded. -/
theorem place_eq_deferred :
    Tables.place ms bp = .ok (.deferred ra) ↔
      bp.1.addr.isset.absaddr = false ∧ bp.1.addr.isset.reladdr = true ∧
        moduleNamed ms bp.1.addr.reladdr.modulename = none ∧ bp.reladdr = ra := by
  unfold Tables.place locate
  cases bp.1.addr.isset.absaddr with
  | true => simp [Except.map]
  | false =>
    cases bp.1.addr.isset.reladdr with
    | false => simp [Except.map]
    | true =>
      cases moduleNamed ms bp.1.addr.reladdr.modulename with
      | none => simp [Except.map]
      | some m => cases hr : m.resolve bp.1.addr.reladdr <;> simp [Except.map, hr]

/-- Once its module is loaded, a breakpoint that waited for it is at its address in the module. -/
theorem place_cons {x : AppPc} (h : Tables.place ms bp = .ok (.deferred ra))
    (hname : ra.1.modulename = m.preferredName) (hres : m.resolve ra.1 = .ok x) :
    Tables.place (m :: ms) bp = .ok (.active x) := by
  obtain ⟨habs, hrel, -, rfl⟩ := place_eq_deferred.mp h
  change bp.1.addr.reladdr.modulename = m.preferredName at hname
  change m.resolve bp.1.addr.reladdr = .ok x at hres
  rw [Tables.place, locate_loaded habs hrel (moduleNamed_cons hname), hres]
  rfl

theorem moduleNamed_cons_of_ne {name : CxxString} (h : m.preferredName ≠ name.cStr) :
    moduleNamed (m :: ms) name = moduleNamed ms name :=
  List.find?_cons_of_neg (by simpa using h)

end Place

/-- The address of every pending breakpoint stands for the place where its entry is. -/
def Stands (ms : List Module) (ps : List Pending) : Prop :=
  ∀ p ∈ ps, Tables.place ms p.bp = .ok p.place

theorem Stands.load (h : Stands k.modules k.pending) (hkept : Kept k.tables k.pending)
    {u : ℕ} {env : Env} (hkeep : k.KeepsModules (.callback u (.eventModuleLoaded m) env))
    (ht : k.tables.load m = some tb) : Stands (m :: k.modules) (k.pending.map (.load m)) := by
  have hfits : Tables.Fits m k.tables.deferred.entries :=
    Tables.isSome_load.mp (Option.isSome_iff_exists.mpr ⟨tb, ht⟩)
  intro q hq
  obtain ⟨p, hp, rfl⟩ := List.mem_map.mp hq
  have hplace := h p hp
  rw [Pending.load_bp]
  by_cases hname : p.bp.1.addr.isset.absaddr = false ∧
      m.preferredName = p.bp.1.addr.reladdr.modulename.cStr
  · -- The module is one that the breakpoint waits for.
    obtain ⟨hnone, heq⟩ := hkeep.load u m env rfl p hp hname.1 hname.2
    have hrel : p.bp.1.addr.isset.reladdr = true := by
      by_contra hrel
      unfold Tables.place locate at hplace
      simp [hname.1, hrel, Except.map] at hplace
    have hdeferred := place_eq_deferred.mpr ⟨hname.1, hrel, hnone, rfl⟩
    have hwaits := Except.ok.inj (hplace.symm.trans hdeferred)
    obtain ⟨n, hn⟩ := hkept.deferred p hp _ hwaits
    obtain ⟨x, hres, -⟩ := hfits _ hn heq
    rw [Pending.load_of_resolve hwaits heq hres]
    exact place_cons hdeferred heq hres
  · have hsame : Tables.place (m :: k.modules) p.bp = Tables.place k.modules p.bp :=
      place_congr fun habs => moduleNamed_cons_of_ne fun heq => hname ⟨habs, heq⟩
    have hload : p.load m = p := by
      cases hpl : p.place with
      | active addr => exact Pending.load_of_active hpl
      | deferred ra =>
        refine Pending.load_of_ne hpl fun heq => hname ?_
        obtain ⟨habs, -, -, rfl⟩ := place_eq_deferred.mp (hplace.trans (congrArg _ hpl))
        change p.bp.1.addr.reladdr.modulename = m.preferredName at heq
        exact ⟨habs, by rw [heq, m.cStr_name]⟩
    rw [hsame, hload, hplace]

theorem Stands.change (h : Stands k.modules k.pending) (hkept : Kept k.tables k.pending)
    (hkeep : k.KeepsModules l) (hc : k.Change l tb ms ps) : Stands ms ps := by
  cases hc with
  | add hpl hadd => exact List.forall_mem_cons.mpr ⟨hpl, h⟩
  | delete hpl hfind => exact fun p hp => h p (List.mem_filter.mp hp).1
  | load ht => exact h.load hkept hkeep ht
  | fire hone => exact fun p hp => h p (List.mem_filter.mp hp).1
  | count hn hn1 =>
    intro q hq
    obtain ⟨p, hp, rfl⟩ := List.mem_map.mp hq
    rw [Pending.hit_bp, Pending.hit_place]
    exact h p hp
  | unload =>
    intro p hp
    rw [place_congr (hkeep.unload _ rfl p hp)]
    exact h p hp
  | other => exact h

/-- In every run that keeps the modules under the names of pending breakpoints, a pending breakpoint
is deleted by its own address. -/
theorem deletes (hk : k.ReachedBy KeepsModules) (hp : p ∈ k.pending) : k.Deletes p := by
  obtain ⟨hok, hkept, hstands⟩ := ReachedBy.invariant
    (I := fun k => Kept k.tables k.pending ∧ Stands k.modules k.pending) hk
    (fun _ => ⟨⟨nofun, nofun⟩, nofun⟩) fun k l k' hok h hkeep hs =>
      ⟨h.1.change (change hok hs), h.2.change h.1 hkeep (change hok hs)⟩
  have hdel : k.tables.delete k.modules p.bp = .ok (k.tables.remove p.place) :=
    (Tables.delete_eq_ok (hstands p hp)).mpr ⟨rfl, hkept.find?_ne_none hp⟩
  intro env
  have hserves : k.target.world.Serves .debug env (.delBreakpoint p.bp)
      (k.tables.delete k.modules p.bp) := World.serves_delBreakpoint env .debug hok.mutex p.bp
  rw [hdel] at hserves
  obtain ⟨w', hal, l, rfl⟩ := hserves
  refine ⟨_, hal, ?_, fun pl hpl => ?_⟩
  · exact (Tables.find?_remove k.tables _ _).trans (if_pos (.refl _))
  · exact (Tables.find?_remove k.tables _ _).trans (if_neg hpl)

/-- A breakpoint at the offset 8 of a module that is not loaded, in an application that runs. -/
def waitsForLib : List Activity :=
  [.call (.addBreakpoint (relBreakpoint "lib".toList 8 1)) {}, .resume {}]

/-- Once the module is loaded the breakpoint is deleted from its address there. -/
theorem deletes_lib :
    Deletes (after [] (waitsForLib ++ [.callback 1 (.eventModuleLoaded lib) {}]))
      ⟨relBreakpoint "lib".toList 8 1, .active 24, 0⟩ := by
  refine deletes ?_ (List.mem_singleton.mpr rfl)
  obtain ⟨modules, h⟩ : (after [] waitsForLib).ReachedBy KeepsModules := by
    refine reachedBy_after [] fun k l hl => ⟨fun u m env h => ?_, fun m h => ?_⟩
    · subst h
      simp [waitsForLib] at hl
    · subst h
      simp [waitsForLib] at hl
  refine ⟨modules, h.tail ⟨.callback 1 (.eventModuleLoaded lib) {}, ⟨?_, nofun⟩, rfl⟩⟩
  rintro u m env hl p hp - -
  obtain ⟨-, hop, -⟩ := Activity.callback.inj hl
  obtain rfl := Operation.eventModuleLoaded.inj hop
  obtain rfl := List.mem_singleton.mp hp
  exact ⟨rfl, rfl⟩

/-- A breakpoint in a loaded module, which is unloaded before the next stop. -/
def losesLib : List Activity :=
  waitsForLib.take 1 ++ [.resume {.relevantBlock},
    .callback 1 (.cleanCall (.relevantBlockCleanCall 64 68)) {}, .unload lib, .stop {}]

/-- The address of a breakpoint in a module that is gone stands for a key that has no entry. -/
theorem not_deletes :
    ¬∀ k : Ledger, k.ReachedBy (fun _ _ => True) → k.target.waiting = none →
      ∀ p ∈ k.pending, k.Deletes p := by
  intro h
  have hdel := h (after [lib] losesLib) (reachedBy_after [lib] fun _ _ _ => trivial) rfl
    ⟨relBreakpoint "lib".toList 8 1, .active 24, 0⟩ (List.mem_singleton.mpr rfl)
  obtain ⟨w', hal, -⟩ := hdel {}
  cases hal

end Ledger

end ConcreteEval
