import ConcreteEval.Book

/-!
# Eager and deferred activation

A breakpoint relative to a module that is not loaded can become active on two ways : it is added
first and waits for the load (`World.addThenLoad`), or the module is loaded first and it is added
at once (`World.loadThenAdd`). The two are compared by whether the breakpoint was accepted and by
the tables they leave; beside it, no load may replace the count of a breakpoint that is active
already (`World.ActivationAgrees`).

The two ways make different checks. `Tables.ActivatesApart` is the exact condition for them to
agree : with the entries that wait for the module inside it, the address that the breakpoint stands
for is inside it too and not taken, neither by an active breakpoint nor by one that waits.
-/

namespace ConcreteEval

namespace World

variable (b : Build)

/-- The load event of `m`, which comes while the application runs; none if the process ends. -/
def loads (w : World) (m : Module) : Option World :=
  (({ w with suspended := false } : World).alone b {} (.app 0) (.eventModuleLoaded m)).map Prod.snd

/-- The call of `addBreakpoint` : whether it accepted the breakpoint. -/
def adds (w : World) (bp : WireBreakpoint) : Option (Bool × World) :=
  (w.alone b {} .server (.addBreakpoint bp)).map fun
    | (.returned _, w') => (true, w')
    | (.stopped _, w') => (false, w')

/-- Add, then load : whether the breakpoint was accepted, and the tables. -/
def addThenLoad (w : World) (m : Module) (bp : WireBreakpoint) : Option (Bool × Tables) :=
  (w.adds b bp).bind fun r => (r.2.loads b m).map fun w' => (r.1, w'.globals.tables)

/-- Load, then add : whether the breakpoint was accepted, and the tables. -/
def loadThenAdd (w : World) (m : Module) (bp : WireBreakpoint) : Option (Bool × Tables) :=
  (w.loads b m).bind fun w₁ => (w₁.adds b bp).map fun r => (r.1, r.2.globals.tables)

/-- The load of `m` replaces no count of an active breakpoint. A count of zero can be replaced,
as `addBreakpoint` does. -/
def LoadKeeps (w : World) (m : Module) : Prop :=
  ∀ w', w.loads b m = some w' → ∀ addr c, w.globals.breakpoints.find? addr = some c → c ≠ 0 →
    w'.globals.breakpoints.find? addr = some c

structure ActivationAgrees (w : World) (m : Module) (bp : WireBreakpoint) : Prop where
  agrees : w.addThenLoad b m bp = w.loadThenAdd b m bp
  keeps : w.LoadKeeps b m
  keepsAdded : ∀ r, w.adds b bp = some r → r.2.LoadKeeps b m

end World

/-- The breakpoint has a relative address in `m`. -/
structure WireBreakpoint.RelativeTo (bp : WireBreakpoint) (m : Module) : Prop where
  absaddr : bp.1.addr.isset.absaddr = false
  reladdr : bp.1.addr.isset.reladdr = true
  name : bp.1.addr.reladdr.modulename = m.preferredName

/-- The breakpoint has a relative address in a module that is not loaded. -/
structure WireBreakpoint.Waits (bp : WireBreakpoint) (modules : List Module) : Prop where
  absaddr : bp.1.addr.isset.absaddr = false
  reladdr : bp.1.addr.isset.reladdr = true
  unloaded : moduleNamed modules bp.1.addr.reladdr.modulename = none

theorem WireBreakpoint.RelativeTo.waits {bp : WireBreakpoint} {m : Module} {modules : List Module}
    (h : bp.RelativeTo m) (hnew : moduleNamed modules m.preferredName = none) : bp.Waits modules :=
  ⟨h.absaddr, h.reladdr, by rwa [h.name]⟩

/-! ## On the tables -/

namespace Tables

/-- The exact condition, for a breakpoint relative to `m`. Where an entry that waits for `m` is not
inside it the load ends the process on both ways. -/
def ActivatesApart (t : Tables) (m : Module) (bp : WireBreakpoint) : Prop :=
  Fits m t.deferred.entries →
    (∀ addr c n, t.active.find? addr = some c → c ≠ 0 →
      held m addr t.deferred.entries = some n → n = c) ∧
    match t.deferred.find? bp.reladdr with
    | some _ => ∀ addr, m.resolve bp.reladdr.1 = .ok addr →
      ∃ c, c ≠ 0 ∧ (held m addr t.deferred.entries).or (t.active.find? addr) = some c
    | none => ∃ addr, m.resolve bp.reladdr.1 = .ok addr ∧ m.Spans addr ∧
      (t.active.find? addr = none ∨ t.active.find? addr = some 0) ∧
      ∀ n, held m addr t.deferred.entries = some n → n = 0 ∧
        (bp.1.count = 0 ∨ ∀ p ∈ t.deferred.entries, StandsFor m p addr → p.1 < bp.reladdr)

/-- The outcome of an addition : whether it is accepted, and the tables. -/
def added (modules : List Module) (bp : WireBreakpoint) (t : Tables) : Bool × Tables :=
  match t.add modules bp with
  | .ok t' => (true, t')
  | .error _ => (false, t)

/-- No load of `m` replaces the count of an active breakpoint. -/
def Keeps (m : Module) (t : Tables) : Prop :=
  ∀ t', t.load m = some t' → ∀ addr c, t.active.find? addr = some c → c ≠ 0 →
    t'.active.find? addr = some c

variable {t t' t₁ : Tables} {m : Module} {modules : List Module} {bp : WireBreakpoint} {x : AppPc}

/-- While its module is not loaded a breakpoint waits. -/
theorem place_waits (h : bp.Waits modules) : place modules bp = .ok (.deferred bp.reladdr) := by
  rw [place, locate_unloaded h.absaddr h.reladdr h.unloaded]
  rfl

theorem place_new (hrel : bp.RelativeTo m) (hnew : moduleNamed modules m.preferredName = none) :
    place modules bp = .ok (.deferred bp.reladdr) :=
  place_waits (hrel.waits hnew)

/-- Once its module is loaded it is active. -/
theorem place_loaded (hrel : bp.RelativeTo m) :
    place (m :: modules) bp = (m.resolve bp.reladdr.1).map .active := by
  rw [place, locate_loaded hrel.absaddr hrel.reladdr (moduleNamed_cons hrel.name)]
  change _ = (m.resolve bp.1.addr.reladdr).map _
  cases m.resolve bp.1.addr.reladdr <;> rfl

theorem added_taken (hrel : bp.RelativeTo m) (hnew : moduleNamed modules m.preferredName = none)
    {c : SizeT} (hc : t.deferred.find? bp.reladdr = some c) : t.added modules bp = (false, t) := by
  simp [added, add, place_new hrel hnew, hc]

theorem added_free (hrel : bp.RelativeTo m) (hnew : moduleNamed modules m.preferredName = none)
    (hc : t.deferred.find? bp.reladdr = none) :
    t.added modules bp =
      (true, { t with deferred := t.deferred.assign bp.reladdr bp.1.count }) := by
  simp [added, add, place_new hrel hnew, hc]

theorem added_loaded (hrel : bp.RelativeTo m) (hx : m.resolve bp.reladdr.1 = .ok x) :
    t.added (m :: modules) bp =
      if t.active.find? x = none ∨ t.active.find? x = some 0 then
        (true, { t with active := t.active.assign x bp.1.count })
      else (false, t) := by
  unfold added add
  rw [place_loaded hrel, hx]
  simp only [Except.map]
  split_ifs <;> rfl

theorem added_loaded_error (hrel : bp.RelativeTo m) {msg : CxxString}
    (hx : m.resolve bp.reladdr.1 = .error msg) : t.added (m :: modules) bp = (false, t) := by
  unfold added add
  rw [place_loaded hrel, hx]
  rfl

theorem keeps_iff (h : t.load m = some t₁) :
    t.Keeps m ↔ ∀ addr c n, t.active.find? addr = some c → c ≠ 0 →
      held m addr t.deferred.entries = some n → n = c := by
  unfold Keeps
  simp only [h, Option.some.injEq, forall_eq', find?_load h]
  refine forall_congr' fun addr => forall_congr' fun c => ?_
  constructor
  · intro hk n hc hc0 hn
    simpa [hn] using hk hc hc0
  · intro hk hc hc0
    cases hn : held m addr t.deferred.entries with
    | none => simpa using hc
    | some n => simp [hk n hc hc0 hn]

section Assign

variable {d : StdMap DeferredKey SizeT} {r : DeferredKey} {n : SizeT}

theorem fits_assign (hname : r.1.modulename = m.preferredName) (hfree : d.find? r = none) :
    Fits m (d.assign r n).entries ↔
      Fits m d.entries ∧ ∃ x, m.resolve r.1 = .ok x ∧ m.Spans x := by
  obtain ⟨l₁, l₂, hd, hassign⟩ := StdMap.exists_entries_assign (v := n) hfree
  rw [hd, hassign]
  unfold Fits
  constructor
  · intro h
    refine ⟨fun p hp => h p ?_, h (r, n) (by simp) hname⟩
    rcases List.mem_append.mp hp with hp | hp
    · exact List.mem_append_left _ hp
    · exact List.mem_append_right _ (List.mem_cons_of_mem _ hp)
  · rintro ⟨h, hr⟩ p hp
    rcases List.mem_append.mp hp with hp | hp
    · exact h p (List.mem_append_left _ hp)
    · rcases List.mem_cons.mp hp with rfl | hp
      · exact fun _ => hr
      · exact h p (List.mem_append_right _ hp)

/-- A new entry stands in no other address's way. -/
theorem held_assign_of_ne {addr : AppPc} (hfree : d.find? r = none)
    (hx : m.resolve r.1 = .ok x) (hne : addr ≠ x) :
    held m addr (d.assign r n).entries = held m addr d.entries := by
  obtain ⟨l₁, l₂, hd, hassign⟩ := StdMap.exists_entries_assign (v := n) hfree
  have hstands : ¬StandsFor m (r, n) addr := by
    rintro ⟨-, h⟩
    exact hne (Except.ok.inj (h.symm.trans hx))
  rw [hd, hassign, held_append, held_append, held, if_neg hstands, Option.or_none]

/-- Which of the entries for its address wins. -/
theorem held_assign_self (hfree : d.find? r = none) (hstands : StandsFor m (r, n) x) :
    held m x (d.assign r n).entries = some n ↔
      (∀ k, held m x d.entries = some k → k = n) ∨
        ∀ p ∈ d.entries, StandsFor m p x → p.1 < r := by
  obtain ⟨l₁, l₂, hd, hassign⟩ := StdMap.exists_entries_assign (v := n) hfree
  have hsorted := (d.assign r n).sorted
  rw [hassign] at hsorted
  have hbefore : ∀ p ∈ l₁, p.1 < r := fun p hp =>
    (List.pairwise_append.mp hsorted).2.2 p hp _ List.mem_cons_self
  have hafter : ∀ p ∈ l₂, r < p.1 :=
    (List.pairwise_cons.mp (List.pairwise_append.mp hsorted).2.1).1
  rw [hd, hassign, held_append, held_append, held, if_pos hstands]
  cases hl₂ : held m x l₂ with
  | none =>
    have hright : ∀ p ∈ l₁ ++ l₂, StandsFor m p x → p.1 < r := by
      intro p hp hpx
      rcases List.mem_append.mp hp with hp | hp
      · exact hbefore p hp
      · exact absurd hl₂ (held_ne_none hp hpx)
    simpa using Or.inr hright
  | some k =>
    have hright : ¬∀ p ∈ l₁ ++ l₂, StandsFor m p x → p.1 < r := by
      intro h
      obtain ⟨p, hp, hpx, -⟩ := exists_of_held hl₂
      have hlt := h p (List.mem_append_right _ hp) hpx
      exact irrefl r (trans_of (· < ·) (hafter p hp) hlt)
    simp only [hright, or_false]
    simp

end Assign

/-- Both ways lead to the same outcome, and no load replaces a count. -/
def AgreeOn (modules : List Module) (m : Module) (bp : WireBreakpoint) (t : Tables) : Prop :=
  ((t.added modules bp).2.load m).map (fun t' => ((t.added modules bp).1, t')) =
      (t.load m).map (fun t' => t'.added (m :: modules) bp) ∧
    t.Keeps m ∧ (t.added modules bp).2.Keeps m

theorem load_eq_none_of_not_fits (h : ¬Fits m t.deferred.entries) : t.load m = none := by
  rw [← isSome_load, Option.not_isSome_iff_eq_none] at h
  exact h

/-- Where an entry of the module is not inside it both ways end the process. -/
theorem agreeOn_of_not_fits (hrel : bp.RelativeTo m)
    (hnew : moduleNamed modules m.preferredName = none) (h : ¬Fits m t.deferred.entries) :
    t.AgreeOn modules m bp := by
  have hload := load_eq_none_of_not_fits h
  have hload' : (t.added modules bp).2.load m = none := by
    cases hc : t.deferred.find? bp.reladdr with
    | some c =>
      rw [added_taken hrel hnew hc]
      exact hload
    | none =>
      rw [added_free hrel hnew hc]
      refine load_eq_none_of_not_fits fun hfit => h ?_
      exact ((fits_assign hrel.name hc).mp hfit).1
  refine ⟨by rw [hload, hload']; rfl, ?_, ?_⟩
  · intro t' ht'
    cases hload.symm.trans ht'
  · intro t' ht'
    cases hload'.symm.trans ht'

/-- A breakpoint that waits already is rejected on both ways, if its address is taken then. -/
theorem agreeOn_taken (hrel : bp.RelativeTo m) (hnew : moduleNamed modules m.preferredName = none)
    {c : SizeT} (hc : t.deferred.find? bp.reladdr = some c) (hload : t.load m = some t₁) :
    t.AgreeOn modules m bp ↔ t.Keeps m ∧ ∀ addr, m.resolve bp.reladdr.1 = .ok addr →
      ∃ c, c ≠ 0 ∧ (held m addr t.deferred.entries).or (t.active.find? addr) = some c := by
  unfold AgreeOn
  rw [added_taken hrel hnew hc, hload]
  simp only [Option.map_some, Option.some.injEq, and_self]
  rw [and_comm, and_congr_right_iff]
  intro _
  cases hr : m.resolve bp.reladdr.1 with
  | error msg => simp [added_loaded_error hrel hr]
  | ok x =>
    rw [added_loaded hrel hr]
    simp only [← find?_load hload, Except.ok.injEq, forall_eq']
    cases hx : t₁.active.find? x with
    | none => simp
    | some n => by_cases hn : n = 0 <;> simp [hn]

section Free

variable {n : SizeT}

/-- The tables with a new entry that waits. -/
def defers (t : Tables) (r : DeferredKey) (n : SizeT) : Tables :=
  { t with deferred := t.deferred.assign r n }

/-- The load of a new entry and the addition after the load give the same tables, if the entry
wins at its address. -/
theorem load_defers_eq_iff (hrel : bp.RelativeTo m) (hc : t.deferred.find? bp.reladdr = none)
    (hload : t.load m = some t₁) (hload₂ : (t.defers bp.reladdr n).load m = some t')
    (hx : m.resolve bp.reladdr.1 = .ok x) :
    t' = { t₁ with active := t₁.active.assign x n } ↔
      held m x (t.deferred.assign bp.reladdr n).entries = some n := by
  have hstands : StandsFor m (bp.reladdr, n) x := ⟨hrel.name, hx⟩
  have hmem : (bp.reladdr, n) ∈ (t.deferred.assign bp.reladdr n).entries := by
    obtain ⟨l₁, l₂, -, hassign⟩ := StdMap.exists_entries_assign (v := n) hc
    rw [hassign]
    simp
  have hdeferred : t'.deferred = t₁.deferred := by
    rw [(load_eq_some hload₂).2, (load_eq_some hload).2]
    refine StdMap.filter_assign hc ?_
    have hname : bp.reladdr.1.modulename = m.preferredName := hrel.name
    simp [hname]
  constructor
  · intro heq
    have hfind := find?_load hload₂ x
    rw [heq, StdMap.find?_assign_self] at hfind
    cases hheld : held m x (t.deferred.assign bp.reladdr n).entries with
    | none => exact absurd hheld (held_ne_none hmem hstands)
    | some k =>
      have hd : held m x (t.defers bp.reladdr n).deferred.entries = some k := hheld
      rw [hd, Option.some_or] at hfind
      exact hfind.symm
  · intro hheld
    refine Tables.ext (StdMap.ext_find? (fun _ _ => sameKey_appPc.mp) fun y => ?_) hdeferred
    rw [find?_load hload₂ y, StdMap.find?_assign]
    by_cases hy : y = x
    · subst hy
      rw [if_pos (SameKey.refl y)]
      exact congrArg (Option.or · _) hheld
    · rw [if_neg (mt sameKey_appPc.mp hy), find?_load hload y]
      exact congrArg (Option.or · _) (held_assign_of_ne hc hx hy)

end Free

/-- A new breakpoint has to stand for an address inside the module that is not taken, neither by an
active breakpoint nor by one that waits. -/
theorem agreeOn_free (hrel : bp.RelativeTo m) (hnew : moduleNamed modules m.preferredName = none)
    (hc : t.deferred.find? bp.reladdr = none) (hload : t.load m = some t₁) :
    t.AgreeOn modules m bp ↔ t.Keeps m ∧ ∃ addr, m.resolve bp.reladdr.1 = .ok addr ∧
      m.Spans addr ∧ (t.active.find? addr = none ∨ t.active.find? addr = some 0) ∧
      ∀ n, held m addr t.deferred.entries = some n → n = 0 ∧
        (bp.1.count = 0 ∨ ∀ p ∈ t.deferred.entries, StandsFor m p addr → p.1 < bp.reladdr) := by
  have hfits := fits_assign (n := bp.1.count) hrel.name hc
  have hagree : t.AgreeOn modules m bp ↔
      ((t.defers bp.reladdr bp.1.count).load m).map (fun t' => (true, t')) =
        some (t₁.added (m :: modules) bp) ∧
      t.Keeps m ∧ (t.defers bp.reladdr bp.1.count).Keeps m := by
    unfold AgreeOn
    rw [added_free hrel hnew hc, hload]
    rfl
  rw [hagree]
  by_cases hr : ∃ x, m.resolve bp.reladdr.1 = .ok x ∧ m.Spans x
  · obtain ⟨x, hx, hspan⟩ := hr
    obtain ⟨t₂, hload₂⟩ : ∃ t₂, (t.defers bp.reladdr bp.1.count).load m = some t₂ := by
      refine Option.isSome_iff_exists.mp (isSome_load.mpr (hfits.mpr ⟨?_, x, hx, hspan⟩))
      exact isSome_load.mp (by rw [hload]; rfl)
    have heq := load_defers_eq_iff hrel hc hload hload₂ hx
    have hself := held_assign_self (n := bp.1.count) hc (m := m) (x := x) ⟨hrel.name, hx⟩
    have hfind := find?_load hload x
    rw [hload₂, added_loaded hrel hx, keeps_iff hload, keeps_iff hload₂]
    constructor
    · rintro ⟨hag, hkeeps, -⟩
      have hfree : t₁.active.find? x = none ∨ t₁.active.find? x = some 0 := by
        by_contra hfree
        rw [if_neg hfree] at hag
        simp at hag
      rw [if_pos hfree] at hag
      have ht₂ := hself.mp (heq.mp (by simpa using hag))
      rw [hfind] at hfree
      refine ⟨hkeeps, x, hx, hspan, ?_, fun k hk => ?_⟩
      · cases hactive : t.active.find? x with
        | none => exact Or.inl rfl
        | some c =>
          by_contra hne
          have hc0 : c ≠ 0 := fun h => hne (Or.inr (by rw [h]))
          cases hk : held m x t.deferred.entries with
          | none =>
            rw [hk, Option.none_or, hactive] at hfree
            exact hne hfree
          | some k =>
            rw [hk, Option.some_or, hkeeps x c k hactive hc0 hk] at hfree
            exact hne hfree
      · have hk0 : k = 0 := by simpa [hk] using hfree
        refine ⟨hk0, ht₂.imp_left fun h => ?_⟩
        rw [← h k hk, hk0]
    · rintro ⟨hkeeps, y, hy, -, htaken, hheld⟩
      obtain rfl : x = y := Except.ok.inj (hx.symm.trans hy)
      have hfree : t₁.active.find? x = none ∨ t₁.active.find? x = some 0 := by
        rw [hfind]
        cases hk : held m x t.deferred.entries with
        | none => simpa using htaken
        | some k => simp [(hheld k hk).1]
      have hwins : (∀ k, held m x t.deferred.entries = some k → k = bp.1.count) ∨
          ∀ p ∈ t.deferred.entries, StandsFor m p x → p.1 < bp.reladdr := by
        cases hk : held m x t.deferred.entries with
        | none =>
          refine Or.inl fun k hk => ?_
          cases hk
        | some k =>
          obtain ⟨hk0, hcount | hlast⟩ := hheld k hk
          · refine Or.inl fun k' hk' => ?_
            rw [← Option.some.inj hk', hk0, hcount]
          · exact Or.inr hlast
      refine ⟨?_, hkeeps, fun addr c k hactive hc0 hk => ?_⟩
      · rw [if_pos hfree, heq.mpr (hself.mpr hwins)]
        rfl
      · have hne : addr ≠ x := by
          rintro rfl
          rcases htaken with h | h
          · cases hactive.symm.trans h
          · exact hc0 (Option.some.inj (hactive.symm.trans h))
        exact hkeeps addr c k hactive hc0 ((held_assign_of_ne hc hx hne).symm.trans hk)
  · have hnone : (t.defers bp.reladdr bp.1.count).load m = none :=
      load_eq_none_of_not_fits fun hfit => hr (hfits.mp hfit).2
    rw [hnone]
    constructor
    · rintro ⟨h, -⟩
      cases h
    · rintro ⟨-, x, hx, hspan, -⟩
      exact absurd ⟨x, hx, hspan⟩ hr

theorem agreeOn_iff (hrel : bp.RelativeTo m) (hnew : moduleNamed modules m.preferredName = none) :
    t.AgreeOn modules m bp ↔ t.ActivatesApart m bp := by
  unfold ActivatesApart
  by_cases hfit : Fits m t.deferred.entries
  · obtain ⟨t₁, hload⟩ := Option.isSome_iff_exists.mp (isSome_load.mpr hfit)
    rw [← keeps_iff hload]
    cases hc : t.deferred.find? bp.reladdr with
    | some c => simpa [hfit] using agreeOn_taken hrel hnew hc hload
    | none => simpa [hfit] using agreeOn_free hrel hnew hc hload
  · simpa [hfit] using agreeOn_of_not_fits hrel hnew hfit

end Tables

namespace World

variable {b : Build} {w : World} {m : Module} {bp : WireBreakpoint}

variable (bp) in
theorem adds_eq (hm : w.mutex = none) :
    ∃ w', w.adds b bp = some ((w.globals.tables.added w.modules bp).1, w') ∧
      w'.globals.tables = (w.globals.tables.added w.modules bp).2 ∧ w'.mutex = none ∧
      w'.modules = w.modules := by
  have hadd := serves_addBreakpoint {} b hm bp
  unfold adds Tables.added
  cases ht : w.globals.tables.add w.modules bp with
  | ok t =>
    rw [ht] at hadd
    obtain ⟨w', hal, l, rfl⟩ := hadd
    exact ⟨{ w.stores t with log := l }, by rw [hal]; rfl, rfl, rfl, rfl⟩
  | error msg =>
    rw [ht] at hadd
    obtain ⟨w', hal, l, rfl⟩ := hadd
    exact ⟨{ w with log := l }, by rw [hal]; rfl, rfl, hm, rfl⟩

theorem loads_eq (hm : w.mutex = none) :
    match w.globals.tables.load m with
    | some t => ∃ w', w.loads b m = some w' ∧ w'.globals.tables = t ∧ w'.mutex = none ∧
      w'.modules = m :: w.modules
    | none => w.loads b m = none := by
  have hload := alone_eventModuleLoaded {} b 0 m
    (w := { w with suspended := false }) hm rfl
  unfold loads
  cases ht : w.globals.tables.load m with
  | some t =>
    simp only [ht] at hload
    obtain ⟨w', hal, hl⟩ := hload
    refine ⟨w', by rw [hal]; rfl, ?_⟩
    obtain ⟨l, rfl⟩ := hl
    exact ⟨rfl, rfl, rfl⟩
  | none =>
    simp only [ht] at hload
    rw [hload]
    rfl

theorem addThenLoad_eq (hm : w.mutex = none) :
    w.addThenLoad b m bp =
      ((w.globals.tables.added w.modules bp).2.load m).map fun t =>
        ((w.globals.tables.added w.modules bp).1, t) := by
  obtain ⟨w₁, hadds, htables, hm₁, -⟩ := adds_eq (b := b) bp hm
  have hload := loads_eq (b := b) (m := m) hm₁
  unfold addThenLoad
  rw [hadds, Option.bind_some, ← htables]
  cases ht : w₁.globals.tables.load m with
  | some t =>
    simp only [ht] at hload
    obtain ⟨w', hw', rfl, -⟩ := hload
    rw [hw']
    rfl
  | none =>
    simp only [ht] at hload
    rw [hload]
    rfl

theorem loadThenAdd_eq (hm : w.mutex = none) :
    w.loadThenAdd b m bp =
      (w.globals.tables.load m).map fun t => t.added (m :: w.modules) bp := by
  have hload := loads_eq (b := b) (m := m) hm
  unfold loadThenAdd
  cases ht : w.globals.tables.load m with
  | some t =>
    simp only [ht] at hload
    obtain ⟨w₁, hw₁, rfl, hm₁, hmodules⟩ := hload
    obtain ⟨w', hadds, htables, -⟩ := adds_eq (b := b) bp hm₁
    rw [hw₁, Option.bind_some, hadds, ← hmodules]
    simp [htables]
  | none =>
    simp only [ht] at hload
    rw [hload]
    rfl

theorem loadKeeps_iff (hm : w.mutex = none) :
    w.LoadKeeps b m ↔ w.globals.tables.Keeps m := by
  have hload := loads_eq (b := b) (m := m) hm
  unfold LoadKeeps Tables.Keeps
  cases ht : w.globals.tables.load m with
  | some t =>
    simp only [ht] at hload
    obtain ⟨w', hw', rfl, -⟩ := hload
    simp [hw']
  | none =>
    simp only [ht] at hload
    simp [hload]

/-- Eager and deferred activation agree exactly if the breakpoint is apart from the others. -/
theorem activation_agrees_iff (hm : w.mutex = none) (hrel : bp.RelativeTo m)
    (hnew : moduleNamed w.modules m.preferredName = none) :
    w.ActivationAgrees b m bp ↔ w.globals.tables.ActivatesApart m bp := by
  obtain ⟨w', hadds, htables, hm', -⟩ := adds_eq (b := b) bp hm
  rw [← Tables.agreeOn_iff hrel hnew, Tables.AgreeOn, ← addThenLoad_eq (b := b) hm,
    ← loadThenAdd_eq (b := b) hm, ← loadKeeps_iff (b := b) hm, ← htables,
    ← loadKeeps_iff (b := b) hm']
  constructor
  · intro h
    exact ⟨h.agrees, h.keeps, h.keepsAdded _ hadds⟩
  · rintro ⟨hagrees, hkeeps, hadded⟩
    refine ⟨hagrees, hkeeps, fun r hr => ?_⟩
    obtain rfl := Option.some.inj (hadds.symm.trans hr)
    exact hadded

end World

/-! ## At a module -/

/-- Breakpoints at `lib + 4` and in another module wait, and one at 40 is active. -/
def othersAdded : Target :=
  .after .debug [] [.call (.addBreakpoint (relBreakpoint "lib".toList 4 2)) {},
    .call (.addBreakpoint (relBreakpoint "other".toList 8 1)) {},
    .call (.addBreakpoint (absBreakpoint 40 3)) {}]

theorem activation_agrees_iff_lib :
    othersAdded.world.globals.deferredBreakpoints.entries.length = 2 ∧
      othersAdded.world.ActivationAgrees .debug lib (relBreakpoint "lib".toList 8 1) := by
  refine ⟨rfl, (World.activation_agrees_iff rfl ⟨rfl, rfl, rfl⟩ rfl).mpr fun _ => ⟨?_, ?_⟩⟩
  · intro addr c n hc _ hn
    have hentries : othersAdded.world.globals.tables.active.entries = [(40, 3)] := rfl
    obtain ⟨p, hp, hkey, -⟩ := StdMap.exists_mem_of_find? hc
    rw [hentries, List.mem_singleton] at hp
    obtain rfl : addr = 40 := by
      rw [hp] at hkey
      exact sameKey_appPc.mp hkey
    cases hn
  · exact ⟨24, rfl, by decide, Or.inl rfl, nofun⟩

/-- A breakpoint at 24 is active, and `lib` is not loaded. -/
def takenAddress : Target :=
  .after .debug [] [.call (.addBreakpoint (absBreakpoint 24 3)) {}]

/-- The load replaces the count of the breakpoint at 24 with that of `lib + 8`, which
`addBreakpoint` rejects after the load. -/
theorem not_activation_agrees :
    ¬∀ (t : Target) (m : Module) (bp : WireBreakpoint), t.ReachedBy .debug (fun _ _ => True) →
      moduleNamed t.world.modules m.preferredName = none → bp.RelativeTo m →
      (bp.reladdr.1.offset.isset.offset = true ∨ bp.reladdr.1.offset.isset.symbol = true) →
      t.world.ActivationAgrees .debug m bp := by
  intro h
  have hreached : takenAddress.ReachedBy .debug fun _ _ => True :=
    Target.reachedBy_after .debug [] fun _ _ _ => trivial
  have hag := (h takenAddress lib (relBreakpoint "lib".toList 8 1) hreached rfl ⟨rfl, rfl, rfl⟩
    (Or.inl rfl)).agrees
  have hfst := congrArg (Option.map Prod.fst) hag
  cases hfst

end ConcreteEval
