import ConcreteEval.Counts

/-!
# What `getBreakpoints` lists

`getBreakpoints` goes over `breakpoints` only. What it returns are the entries there, one element
for each (`World.perm_listed`; the hand-written order of `std::set` tells any two of them apart),
so a breakpoint whose module is not loaded is missing from the list, although `addBreakpoint`
accepts it and `delBreakpoint` finds it.

The list is the pending breakpoints, each with its address and what is left of its count, in
every run in which an accepted breakpoint resolves at once, to an address that has no entry
(`Ledger.lists`).
-/

namespace ConcreteEval

namespace World

/-- The order of breakpoints tells addresses apart. -/
theorem lt_or_lt_of_ne {p q : AppPc × SizeT} (h : p.1 ≠ q.1) :
    (listedBreakpoint p).lt (listedBreakpoint q) = true ∨
      (listedBreakpoint q).lt (listedBreakpoint p) = true := by
  have heq : ∀ {p q : AppPc × SizeT}, p.1 ≠ q.1 →
      (listedBreakpoint p).lt (listedBreakpoint q) = p.1.slt q.1 := by
    intro p q h
    have haddr : (listedBreakpoint p).addr.eq (listedBreakpoint q).addr = false := by
      simp [listedBreakpoint, AbsOrRelAddr.eq, AbsOrRelAddr.setAbsaddr, h]
    unfold Breakpoint.lt
    rw [haddr]
    simp [listedBreakpoint, AbsOrRelAddr.lt, AbsOrRelAddr.setAbsaddr, h]
  have hint : p.1.toInt ≠ q.1.toInt := fun h' => h (BitVec.eq_of_toInt_eq h')
  rw [heq h, heq h.symm, BitVec.slt_iff_toInt_lt, BitVec.slt_iff_toInt_lt]
  omega

/-- `getBreakpoints` lists every active breakpoint once. -/
theorem perm_listed (active : StdMap AppPc SizeT) :
    (listed active).Perm (active.entries.map listedBreakpoint) := by
  have hfold : ∀ (l : List (AppPc × SizeT)) (s : List (AppPc × SizeT)) (s' : List Breakpoint),
      l.Pairwise (fun p q => p.1 < q.1) → (∀ p ∈ l, ∀ q ∈ s, p.1 ≠ q.1) →
      s'.Perm (s.map listedBreakpoint) →
      (l.foldl (fun s p => setInsert (fun x y => x.lt y = true) (listedBreakpoint p) s) s').Perm
        ((l ++ s).map listedBreakpoint) := by
    intro l
    induction l with
    | nil => exact fun s s' _ _ hs => hs
    | cons p l ih =>
      intro s s' hl hne hs
      obtain ⟨hp, hl⟩ := List.pairwise_cons.mp hl
      have hinsert :
          (setInsert (fun x y : Breakpoint => x.lt y = true) (listedBreakpoint p) s').Perm
            ((p :: s).map listedBreakpoint) := by
        refine (perm_setInsert fun b hb => ?_).trans (hs.cons _)
        obtain ⟨q, hq, rfl⟩ := List.mem_map.mp (hs.mem_iff.mp hb)
        exact lt_or_lt_of_ne (hne p List.mem_cons_self q hq)
      refine (ih (p :: s) _ hl (fun q hq r hr => ?_) hinsert).trans
        (List.perm_middle.map listedBreakpoint)
      rcases List.mem_cons.mp hr with rfl | hr
      · exact fun h => BitVec.lt_irrefl _ (h ▸ hp q hq)
      · exact hne q (List.mem_cons_of_mem p hq) r hr
  have hlisted := hfold active.entries [] [] active.sorted (fun _ _ _ hq => nomatch hq) (.refl _)
  rwa [List.append_nil] at hlisted

end World

/-- What is left of the count of a pending breakpoint. -/
def Pending.left (p : Pending) : SizeT :=
  p.bp.1.count - BitVec.ofNat 64 p.hits

/-- The element that stands for a pending breakpoint : its address, and what is left of its
count. -/
def Pending.shown (p : Pending) : Breakpoint :=
  let a : AbsOrRelAddr := {}
  { addr :=
      match p.place with
      | .active addr => a.setAbsaddr addr
      | .deferred ra => a.setReladdr ra.1
    count := p.left }

theorem Pending.left_hit {p : Pending} {addr : AppPc} (h : p.place.Same (.active addr)) :
    (p.hit addr).left = p.left - 1 := by
  rw [Pending.hit_of_same h]
  change p.bp.1.count - BitVec.ofNat 64 (p.hits + 1) = p.bp.1.count - BitVec.ofNat 64 p.hits - 1
  rw [BitVec.ofNat_add]
  grind

namespace Ledger

/-- `getBreakpoints` returns the pending breakpoints and nothing else. -/
def Lists (k : Ledger) : Prop :=
  ∀ env, ∃ s w', k.target.world.alone .debug env .server .getBreakpoints =
      some (.returned (.breakpoints s), w') ∧ s.Perm (k.pending.map Pending.shown)

/-- A breakpoint that the step adds resolves at once, to an address that has no entry, unless it is
rejected. -/
def ResolvesAtOnce (k : Ledger) (l : Activity) : Prop :=
  ∀ bp env pl, l = .call (.addBreakpoint bp) env → Tables.place k.modules bp = .ok pl →
    match pl with
    | .active addr => k.tables.active.find? addr ≠ some 0
    | .deferred ra => k.tables.deferred.find? ra ≠ none

/-- The entries are the pending breakpoints, all of them active. -/
structure Filed (tb : Tables) (ps : List Pending) : Prop where
  active : ∀ p ∈ ps, ∃ addr, p.place = .active addr
  entry : ∀ p ∈ ps, tb.find? p.place = some p.left
  pending : ∀ pl, tb.find? pl ≠ none → ∃ p ∈ ps, p.place.Same pl
  apart : ps.Pairwise fun p q => ¬p.place.Same q.place

variable {k : Ledger} {l : Activity} {tb tb' : Tables} {ms : List Module} {ps : List Pending}
  {bp : WireBreakpoint} {pl : Tables.Place}

/-- A breakpoint is added at an address that has no entry. -/
theorem Filed.add (h : Filed tb ps) {addr : AppPc} (hfree : tb.active.find? addr = none) :
    Filed (tb.put bp.1.count (.active addr)) (⟨bp, .active addr, 0⟩ :: ps) := by
  have hnot : ∀ p ∈ ps, ¬p.place.Same (.active addr) := by
    intro p hp hsame
    have hentry := h.entry p hp
    rw [tb.find?_congr hsame] at hentry
    cases hfree.symm.trans hentry
  refine ⟨List.forall_mem_cons.mpr ⟨⟨addr, rfl⟩, h.active⟩, List.forall_mem_cons.mpr ⟨?_, ?_⟩, ?_,
    List.pairwise_cons.mpr ⟨fun p hp hsame => hnot p hp hsame.symm, h.apart⟩⟩
  · rw [Tables.find?_put, if_pos (Tables.Place.Same.refl _)]
    simp [Pending.left]
  · intro p hp
    rw [Tables.find?_put, if_neg (hnot p hp)]
    exact h.entry p hp
  · intro pl hpl
    rw [Tables.find?_put] at hpl
    split_ifs at hpl with hsame
    · exact ⟨_, List.mem_cons_self, hsame.symm⟩
    · obtain ⟨p, hp, hplace⟩ := h.pending pl hpl
      exact ⟨p, List.mem_cons_of_mem _ hp, hplace⟩

/-- An entry goes, with the breakpoint that it is. -/
theorem Filed.remove (h : Filed tb ps) (pl : Tables.Place) :
    Filed (tb.remove pl) (ps.filter fun p => ¬p.place.Same pl) := by
  refine ⟨fun p hp => h.active p (List.mem_filter.mp hp).1, fun p hp => ?_, fun pl' hpl' => ?_,
    h.apart.filter _⟩
  · obtain ⟨hp, hnot⟩ := List.mem_filter.mp hp
    rw [Tables.find?_remove, if_neg (of_decide_eq_true hnot)]
    exact h.entry p hp
  · rw [Tables.find?_remove] at hpl'
    obtain ⟨hsame, hfind⟩ : ¬pl'.Same pl ∧ tb.find? pl' ≠ none := by
      split_ifs at hpl' with hsame
      · exact absurd rfl hpl'
      · exact ⟨hsame, hpl'⟩
    obtain ⟨p, hp, hplace⟩ := h.pending pl' hfind
    refine ⟨p, List.mem_filter.mpr ⟨hp, decide_eq_true fun hpl => hsame ?_⟩, hplace⟩
    exact hplace.symm.trans hpl

/-- A hit counts the entry down, and the breakpoint that it is. -/
theorem Filed.count (h : Filed tb ps) {addr : AppPc} {n : SizeT}
    (hn : tb.active.find? addr = some n) :
    Filed (tb.put (n - 1) (.active addr)) (ps.map (.hit addr)) := by
  refine ⟨?_, ?_, fun pl hpl => ?_, ?_⟩
  · intro q hq
    obtain ⟨p, hp, rfl⟩ := List.mem_map.mp hq
    rw [Pending.hit_place]
    exact h.active p hp
  · intro q hq
    obtain ⟨p, hp, rfl⟩ := List.mem_map.mp hq
    rw [Pending.hit_place, Tables.find?_put]
    split_ifs with hsame
    · have hentry := h.entry p hp
      rw [tb.find?_congr hsame] at hentry
      rw [Pending.left_hit hsame, Option.some.inj (hn.symm.trans hentry)]
    · rw [Pending.hit_of_not hsame]
      exact h.entry p hp
  · have hold : tb.find? pl ≠ none := by
      rw [Tables.find?_put] at hpl
      split_ifs at hpl with hsame
      · rw [tb.find?_congr hsame]
        exact Option.ne_none_iff_exists'.mpr ⟨n, hn⟩
      · exact hpl
    obtain ⟨p, hp, hplace⟩ := h.pending pl hold
    exact ⟨p.hit addr, List.mem_map_of_mem hp, (Pending.hit_place addr p).symm ▸ hplace⟩
  · refine List.pairwise_map.mpr (h.apart.imp fun hpq => ?_)
    rwa [Pending.hit_place, Pending.hit_place]

/-- Nothing waits for a module. -/
theorem Filed.load (h : Filed tb ps) {m : Module} (ht : tb.load m = some tb') :
    tb' = tb ∧ ps.map (.load m) = ps := by
  have hempty : tb.deferred.entries = [] := by
    refine List.eq_nil_iff_forall_not_mem.mpr fun e he => ?_
    have hfind : tb.find? (.deferred e.1) ≠ none :=
      Option.ne_none_iff_exists'.mpr ⟨e.2, StdMap.find?_of_mem he⟩
    obtain ⟨p, hp, hplace⟩ := h.pending _ hfind
    obtain ⟨addr, haddr⟩ := h.active p hp
    rw [haddr] at hplace
    exact hplace
  constructor
  · obtain ⟨hact, hdeferred⟩ := Tables.load_eq_some ht
    rw [hempty] at hact
    refine Tables.ext (Option.some.inj hact).symm (hdeferred.trans ?_)
    ext1
    simp [StdMap.filter, hempty]
  · refine (List.map_congr_left fun p hp => ?_).trans (List.map_id ps)
    obtain ⟨addr, haddr⟩ := h.active p hp
    exact Pending.load_of_active haddr

theorem Filed.change (h : Filed k.tables k.pending) (hadd : k.ResolvesAtOnce l)
    (hc : k.Change l tb ms ps) : Filed tb ps := by
  cases hc with
  | @add bp env pl tb hpl ht =>
    obtain ⟨rfl, hfree⟩ := Tables.add_eq_ok hpl ht
    have honce := hadd bp env pl rfl hpl
    cases pl with
    | active addr => exact h.add (hfree.resolve_right fun hzero => honce hzero.2)
    | deferred ra =>
      exact absurd (Tables.find?_of_add hpl ht) honce
  | delete hpl hfind => exact h.remove _
  | load ht =>
    obtain ⟨rfl, hload⟩ := h.load ht
    rwa [hload]
  | fire hone => exact h.remove _
  | count hn hn1 => exact h.count hn
  | unload => exact h
  | other => exact h

/-- The entries, as elements of the list, are the pending breakpoints. -/
theorem Filed.perm (h : Filed tb ps) :
    (tb.active.entries.map listedBreakpoint).Perm (ps.map Pending.shown) := by
  have hshown : ∀ p ∈ ps, ∀ addr, p.place = .active addr →
      p.shown = listedBreakpoint (addr, p.left) := by
    intro p _ addr haddr
    unfold Pending.shown
    rw [haddr]
    rfl
  have hinj : ∀ {e e' : AppPc × SizeT}, listedBreakpoint e = listedBreakpoint e' → e.1 = e'.1 :=
    fun heq => congrArg (fun b : Breakpoint => b.addr.absaddr) heq
  have hnodup : (tb.active.entries.map listedBreakpoint).Nodup := by
    refine List.pairwise_map.mpr (tb.active.sorted.imp fun hlt heq => ?_)
    exact BitVec.lt_irrefl _ (hinj heq ▸ hlt)
  have hnodup' : (ps.map Pending.shown).Nodup := by
    refine List.pairwise_map.mpr (h.apart.imp_of_mem fun hp hq hnot heq => hnot ?_)
    obtain ⟨addr, haddr⟩ := h.active _ hp
    obtain ⟨addr', haddr'⟩ := h.active _ hq
    rw [hshown _ hp addr haddr, hshown _ hq addr' haddr'] at heq
    rw [haddr, haddr']
    exact hinj heq
  refine (List.perm_ext_iff_of_nodup hnodup hnodup').mpr fun b => ?_
  simp only [List.mem_map]
  constructor
  · rintro ⟨e, he, rfl⟩
    have hfind : tb.find? (.active e.1) = some e.2 := StdMap.find?_of_mem he
    obtain ⟨p, hp, hplace⟩ := h.pending _ (Option.ne_none_iff_exists'.mpr ⟨e.2, hfind⟩)
    obtain ⟨addr, haddr⟩ := h.active p hp
    obtain rfl : addr = e.1 := by rwa [haddr] at hplace
    have hleft := h.entry p hp
    rw [haddr, hfind] at hleft
    exact ⟨p, hp, (hshown p hp _ haddr).trans (by rw [← Option.some.inj hleft])⟩
  · rintro ⟨p, hp, rfl⟩
    obtain ⟨addr, haddr⟩ := h.active p hp
    have hentry := h.entry p hp
    rw [haddr] at hentry
    obtain ⟨e, he, hkey, hleft⟩ := StdMap.exists_mem_of_find? hentry
    obtain rfl : addr = e.1 := sameKey_appPc.mp hkey
    exact ⟨e, he, by rw [hshown p hp _ haddr, ← hleft]⟩

/-- In every run in which accepted breakpoints resolve at once, `getBreakpoints` returns the pending
breakpoints. -/
theorem lists (hk : k.ReachedBy ResolvesAtOnce) : k.Lists := by
  obtain ⟨hok, h⟩ := ReachedBy.invariant (I := fun k => Filed k.tables k.pending) hk
    (fun _ => ⟨nofun, nofun, nofun, .nil⟩) fun k l k' hok h hadd hs => h.change hadd (change hok hs)
  intro env
  obtain ⟨w', hal, -⟩ := World.alone_getBreakpoints env .debug hok.mutex
  exact ⟨_, w', hal, (World.perm_listed _).trans h.perm⟩

theorem resolvesAtOnce_add {env : Env} (addr : AppPc)
    (hpl : Tables.place k.modules bp = .ok (.active addr))
    (hfree : k.tables.active.find? addr ≠ some 0) :
    k.ResolvesAtOnce (.call (.addBreakpoint bp) env) := by
  rintro bp' env' pl hl hpl'
  obtain ⟨hop, -⟩ := Activity.call.inj hl
  obtain rfl := Operation.addBreakpoint.inj hop
  obtain rfl := Except.ok.inj (hpl.symm.trans hpl')
  exact hfree

/-- A breakpoint in a loaded module, hit once, in an application that has stopped for another. -/
def hitAndStopped : List Activity :=
  [.call (.addBreakpoint (relBreakpoint "lib".toList 8 2)) {},
    .call (.addBreakpoint (absBreakpoint 16 1)) {}, .resume {.breakpoint},
    .callback 1 (.cleanCall (.updateFastforwardCount 24 24 28)) {},
    .callback 1 (.cleanCall (.updateFastforwardCount 16 16 20)) {}, .stop {}]

theorem lists_hit :
    (after [lib] hitAndStopped).pending.map Pending.shown = [(absBreakpoint 24 1).1] ∧
      (after [lib] hitAndStopped).Lists := by
  refine ⟨rfl, lists ⟨[lib], ?_⟩⟩
  have hrest : ∀ k : Ledger, ∀ l ∈ hitAndStopped.drop 2, k.ResolvesAtOnce l := by
    rintro k l hl bp env pl rfl
    simp [hitAndStopped] at hl
  have hfirst : (boot [lib]).ResolvesAtOnce
      (.call (.addBreakpoint (relBreakpoint "lib".toList 8 2)) {}) :=
    resolvesAtOnce_add 24 rfl nofun
  have hsecond : (after [lib] (hitAndStopped.take 1)).ResolvesAtOnce
      (.call (.addBreakpoint (absBreakpoint 16 1)) {}) :=
    resolvesAtOnce_add 16 rfl nofun
  have hmove : Moves step ResolvesAtOnce (after [lib] (hitAndStopped.take 1))
    (after [lib] (hitAndStopped.take 2)) := ⟨_, hsecond, rfl⟩
  exact .head ⟨_, hfirst, rfl⟩ (.head hmove (moves_of_foldlM hrest rfl))

/-- A breakpoint whose module is not loaded is not listed. -/
theorem not_lists : ¬∀ k : Ledger, k.ReachedBy (fun _ _ => True) → k.Lists := by
  intro h
  have hk := h (after [] [.call (.addBreakpoint (relBreakpoint "lib".toList 8 1)) {}])
    (reachedBy_after [] fun _ _ _ => trivial)
  obtain ⟨s, w', hal, hperm⟩ := hk {}
  obtain ⟨hs, -⟩ := Prod.mk.inj (Option.some.inj hal)
  cases hs
  cases hperm.length_eq

end Ledger

end ConcreteEval
