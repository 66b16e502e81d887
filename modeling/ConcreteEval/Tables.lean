import ConcreteEval.Helpers

/-!
# The breakpoint tables

What the operations are for : two tables, of the breakpoints that are active at an address and
of those that wait for their module. `Tables.add`, `Tables.delete`, `Tables.load` and
`Tables.hit` say what the operations do to the tables, given the loaded modules, as functions;
`ConcreteEval.Alone` proves that the code computes them. An address is looked up in the modules
first (`locate`); the outcome decides which table it belongs to.
-/

namespace ConcreteEval

/-! ## Resolving addresses -/

/-- The address in the module that a relative address stands for, or the error. -/
def Module.resolve (m : Module) (r : RelAddr) : Except CxxString AppPc :=
  if r.offset.isset.offset then
    .ok (m.start + r.offset.offset)
  else if r.offset.isset.symbol then
    if m.drGetProcAddress r.offset.symbol.cStr ≠ 0 then
      .ok (m.drGetProcAddress r.offset.symbol.cStr)
    else
      .error (unableToLocateSymbol r.offset.symbol r.modulename)
  else
    .error "Neither offset nor symbol set in OffsetOrSymbol".toList

/-- The module of a name. -/
def moduleNamed (modules : List Module) (name : CxxString) : Option Module :=
  modules.find? fun m => m.preferredName = name.cStr

/-- The module at an address. -/
def moduleAt (modules : List Module) (pc : AppPc) : Option Module :=
  modules.find? fun m => m.start ≤ pc ∧ pc < m.endPc

/-- The address that an absolute or relative address stands for; none while its module is not
loaded. -/
def locate (modules : List Module) (a : AbsOrRelAddr) : Except CxxString (Option AppPc) :=
  if a.isset.absaddr then
    .ok (some a.absaddr)
  else if a.isset.reladdr then
    match moduleNamed modules a.reladdr.modulename with
    | none => .ok none
    | some m => (m.resolve a.reladdr).map some
  else
    .error "AbsOrRelAddr contained neither an absolute or relative address.".toList

section Locate

variable {modules : List Module} {m : Module} {a : AbsOrRelAddr}

/-- A relative address is resolved in the module of its name. -/
theorem locate_loaded (habs : a.isset.absaddr = false) (hrel : a.isset.reladdr = true)
    (hm : moduleNamed modules a.reladdr.modulename = some m) :
    locate modules a = (m.resolve a.reladdr).map some := by
  simp [locate, habs, hrel, hm]

theorem locate_unloaded (habs : a.isset.absaddr = false) (hrel : a.isset.reladdr = true)
    (hm : moduleNamed modules a.reladdr.modulename = none) : locate modules a = .ok none := by
  simp [locate, habs, hrel, hm]

theorem moduleNamed_cons {name : CxxString} (h : name = m.preferredName) :
    moduleNamed (m :: modules) name = some m := by
  subst h
  simp [moduleNamed, m.cStr_name]

theorem locate_cons {r : RelAddr} (h : r.modulename = m.preferredName) :
    locate (m :: modules) (({} : AbsOrRelAddr).setReladdr r) = (m.resolve r).map some :=
  locate_loaded rfl rfl (moduleNamed_cons h)

end Locate

/-- The address is inside the module, its end included. -/
def Module.Spans (m : Module) (addr : AppPc) : Prop :=
  m.start ≤ addr ∧ addr ≤ m.endPc

instance (m : Module) (addr : AppPc) : Decidable (m.Spans addr) :=
  inferInstanceAs (Decidable (_ ∧ _))

/-! ## Tables -/

@[ext] structure Tables where
  active : StdMap AppPc SizeT := ∅
  deferred : StdMap DeferredKey SizeT := ∅

def Globals.tables (g : Globals) : Tables :=
  ⟨g.breakpoints, g.deferredBreakpoints⟩

/-- The globals with other tables. -/
def Globals.withTables (g : Globals) (t : Tables) : Globals :=
  { g with breakpoints := t.active, deferredBreakpoints := t.deferred }

section Globals

variable (g : Globals) (t : Tables)

@[simp] theorem Globals.tables_active : g.tables.active = g.breakpoints :=
  rfl

@[simp] theorem Globals.tables_deferred : g.tables.deferred = g.deferredBreakpoints :=
  rfl

@[simp] theorem Globals.tables_withTables : (g.withTables t).tables = t :=
  rfl

end Globals

namespace Tables

/-- Where an entry of the tables is. -/
inductive Place
  | active (addr : AppPc)
  | deferred (ra : DeferredKey)

/-- The place of a breakpoint. -/
def place (modules : List Module) (bp : WireBreakpoint) : Except CxxString Place :=
  (locate modules bp.1.addr).map fun
    | some addr => .active addr
    | none => .deferred bp.reladdr

/-- The entry at a place. -/
def find? (t : Tables) : Place → Option SizeT
  | .active addr => t.active.find? addr
  | .deferred ra => t.deferred.find? ra

/-- Accept a breakpoint, or reject it with an error. An active entry with count zero does not
stand in the way. -/
def add (modules : List Module) (bp : WireBreakpoint) (t : Tables) : Except CxxString Tables :=
  match place modules bp with
  | .error msg => .error msg
  | .ok (.active addr) =>
    if t.active.find? addr = none ∨ t.active.find? addr = some 0 then
      .ok { t with active := t.active.assign addr bp.1.count }
    else
      .error "Breakpoint already exists".toList
  | .ok (.deferred ra) =>
    if t.deferred.find? ra = none then
      .ok { t with deferred := t.deferred.assign ra bp.1.count }
    else
      .error "Breakpoint already exists".toList

/-- Remove a breakpoint, or reject with an error. -/
def delete (modules : List Module) (bp : WireBreakpoint) (t : Tables) :
    Except CxxString Tables :=
  match place modules bp with
  | .error msg => .error msg
  | .ok (.active addr) =>
    if t.active.find? addr = none then
      .error "Breakpoint not found".toList
    else
      .ok { t with active := t.active.erase addr }
  | .ok (.deferred ra) =>
    if t.deferred.find? ra = none then
      .error "Breakpoint not found".toList
    else
      .ok { t with deferred := t.deferred.erase ra }

/-- Activate the deferred entries of a module one after the other, as long as they are inside
the module. -/
def activate (m : Module) :
    List (DeferredKey × SizeT) → StdMap AppPc SizeT → Option (StdMap AppPc SizeT)
  | [], active => some active
  | p :: l, active =>
    if p.1.1.modulename = m.preferredName then
      match m.resolve p.1.1 with
      | .ok addr => if m.Spans addr then activate m l (active.assign addr p.2) else none
      | .error _ => none
    else
      activate m l active

/-- The tables after the load of a module; none if an entry is not inside the module. -/
def load (m : Module) (t : Tables) : Option Tables :=
  (activate m t.deferred.entries t.active).map fun active =>
    ⟨active, t.deferred.filter fun ra => ra.1.modulename ≠ m.preferredName⟩

/-- The tables after a hit of an address. -/
def hit (addr : AppPc) (t : Tables) : Tables :=
  match t.active.find? addr with
  | some n =>
    if n - 1 = 0 then { t with active := (t.active.assign addr (n - 1)).erase addr }
    else { t with active := t.active.assign addr (n - 1) }
  | none => t

section Activate

variable {m : Module} {l l₁ l₂ : List (DeferredKey × SizeT)} {active active' : StdMap AppPc SizeT}

/-- The entry waits for the module, and stands for `x` in it. -/
def StandsFor (m : Module) (p : DeferredKey × SizeT) (x : AppPc) : Prop :=
  p.1.1.modulename = m.preferredName ∧ m.resolve p.1.1 = .ok x

instance (m : Module) (p : DeferredKey × SizeT) (x : AppPc) : Decidable (StandsFor m p x) :=
  inferInstanceAs (Decidable (_ ∧ _))

/-- All entries that wait for the module stand for an address inside it. -/
def Fits (m : Module) (l : List (DeferredKey × SizeT)) : Prop :=
  ∀ p ∈ l, p.1.1.modulename = m.preferredName → ∃ x, m.resolve p.1.1 = .ok x ∧ m.Spans x

theorem Fits.spans {p : DeferredKey × SizeT} {x : AppPc} (h : Fits m l) (hp : p ∈ l)
    (hx : StandsFor m p x) : m.Spans x := by
  obtain ⟨y, hy, hspan⟩ := h p hp hx.1
  rwa [Except.ok.inj (hx.2.symm.trans hy)]

/-- The count of the last entry that stands for `x`. -/
def held (m : Module) (x : AppPc) : List (DeferredKey × SizeT) → Option SizeT
  | [] => none
  | p :: l => (held m x l).or (if StandsFor m p x then some p.2 else none)

theorem held_append (x : AppPc) :
    held m x (l₁ ++ l₂) = (held m x l₂).or (held m x l₁) := by
  induction l₁ with
  | nil => simp [held]
  | cons p l₁ ih => rw [List.cons_append, held, ih, held, Option.or_assoc]

theorem exists_of_held {x : AppPc} {n : SizeT} (h : held m x l = some n) :
    ∃ p ∈ l, StandsFor m p x ∧ p.2 = n := by
  induction l with
  | nil => cases h
  | cons p l ih =>
    rw [held, Option.or_eq_some_iff] at h
    rcases h with h | ⟨-, h⟩
    · obtain ⟨q, hq, hx, hn⟩ := ih h
      exact ⟨q, List.mem_cons_of_mem p hq, hx, hn⟩
    · split_ifs at h with hx
      exact ⟨p, List.mem_cons_self, hx, Option.some.inj h⟩

theorem held_ne_none {x : AppPc} {p : DeferredKey × SizeT} (hp : p ∈ l) (hx : StandsFor m p x) :
    held m x l ≠ none := by
  induction l with
  | nil => cases hp
  | cons q l ih =>
    rw [held]
    rcases List.mem_cons.mp hp with rfl | hp
    · simp [hx]
    · simp [ih hp]

/-- A module is activated if its entries are inside it. -/
theorem isSome_activate : (activate m l active).isSome = true ↔ Fits m l := by
  induction l generalizing active with
  | nil => simp [activate, Fits]
  | cons p l ih =>
    rw [activate]
    unfold Fits at ih ⊢
    rw [List.forall_mem_cons]
    by_cases hp : p.1.1.modulename = m.preferredName
    · rw [if_pos hp]
      cases hr : m.resolve p.1.1 with
      | error msg => simp [hp]
      | ok x =>
        by_cases hx : m.Spans x
        · simp [hx, ih]
        · simp [hx, hp]
    · rw [if_neg hp, ih]
      simp [hp]

/-- An address gets the count of the last entry that stands for it. -/
theorem find?_activate (h : activate m l active = some active') (x : AppPc) :
    active'.find? x = (held m x l).or (active.find? x) := by
  induction l generalizing active with
  | nil =>
    obtain rfl := Option.some.inj h
    rfl
  | cons p l ih =>
    rw [activate] at h
    rw [held]
    split_ifs at h with hp
    · split at h
      · rename_i addr hr
        split_ifs at h with hspan
        rw [ih h, StdMap.find?_assign, Option.or_assoc]
        congr 1
        have hx : StandsFor m p x ↔ SameKey x addr := by
          rw [sameKey_appPc, StandsFor, hr, Except.ok.injEq]
          exact ⟨fun h => h.2.symm, fun h => ⟨hp, h.symm⟩⟩
        by_cases hxa : SameKey x addr
        · simp [hx, hxa]
        · simp [hx, hxa]
      · cases h
    · rw [ih h, if_neg (fun hx => hp hx.1), Option.or_none]

theorem load_eq_some {t t' : Tables} (h : t.load m = some t') :
    activate m t.deferred.entries t.active = some t'.active ∧
      t'.deferred = t.deferred.filter fun ra => ra.1.modulename ≠ m.preferredName := by
  obtain ⟨active, hact, rfl⟩ := Option.map_eq_some_iff.mp h
  exact ⟨hact, rfl⟩

theorem isSome_load {t : Tables} : (t.load m).isSome = true ↔ Fits m t.deferred.entries := by
  rw [load, Option.isSome_map, isSome_activate]

/-- What is active after the load of a module. -/
theorem find?_load {t t' : Tables} (h : t.load m = some t') (x : AppPc) :
    t'.active.find? x = (held m x t.deferred.entries).or (t.active.find? x) :=
  find?_activate (load_eq_some h).1 x

end Activate

section Hit

variable {t : Tables} {addr c : AppPc}

theorem hit_of_none (h : t.active.find? addr = none) : t.hit addr = t := by
  rw [hit, h]

/-- The entry of the address that is hit. -/
theorem find?_hit (t : Tables) (addr : AppPc) :
    (t.hit addr).active.find? addr =
      (t.active.find? addr).bind fun n => if n - 1 = 0 then none else some (n - 1) := by
  rw [hit]
  cases hn : t.active.find? addr with
  | none => exact hn
  | some n =>
    by_cases h : n - 1 = 0
    · simp only [if_pos h, StdMap.find?_erase_self, Option.bind_some]
    · simp only [if_neg h, StdMap.find?_assign_self, Option.bind_some]

/-- A hit changes no other entry. -/
theorem find?_hit_of_ne (h : c ≠ addr) : (t.hit addr).active.find? c = t.active.find? c := by
  have hc : ¬SameKey c addr := mt sameKey_appPc.mp h
  rw [hit]
  cases t.active.find? addr with
  | none => rfl
  | some n =>
    by_cases hn : n - 1 = 0
    · simp only [if_pos hn, StdMap.find?_erase_of_not hc, StdMap.find?_assign_of_not hc]
    · simp only [if_neg hn, StdMap.find?_assign_of_not hc]

@[simp] theorem hit_deferred (t : Tables) (addr : AppPc) :
    (t.hit addr).deferred = t.deferred := by
  rw [hit]
  cases t.active.find? addr with
  | none => rfl
  | some n => by_cases hn : n - 1 = 0 <;> simp only [if_pos, if_neg, hn, not_false_eq_true]

end Hit

/-! ## Places -/

/-- Entries at the two places are one entry. -/
def Place.Same : Place → Place → Prop
  | .active addr, .active addr' => addr = addr'
  | .deferred ra, .deferred ra' => SameKey ra ra'
  | _, _ => False

instance : DecidableRel Place.Same
  | .active addr, .active addr' => inferInstanceAs (Decidable (addr = addr'))
  | .deferred ra, .deferred ra' => inferInstanceAs (Decidable (SameKey ra ra'))
  | .active _, .deferred _ => .isFalse id
  | .deferred _, .active _ => .isFalse id

theorem Place.Same.refl (pl : Place) : pl.Same pl := by
  cases pl with
  | active addr => exact rfl
  | deferred ra => exact SameKey.refl ra

theorem Place.Same.symm {pl pl' : Place} (h : pl.Same pl') : pl'.Same pl := by
  cases pl <;> cases pl' <;> first | exact Eq.symm h | exact SameKey.symm h | exact h.elim

theorem Place.Same.trans {pl pl' pl'' : Place} (h : pl.Same pl') (h' : pl'.Same pl'') :
    pl.Same pl'' := by
  cases pl <;> cases pl' <;> cases pl'' <;>
    first | exact Eq.trans h h' | exact SameKey.trans h h' | exact h.elim | exact h'.elim

theorem find?_congr (t : Tables) {pl pl' : Place} (h : pl.Same pl') : t.find? pl = t.find? pl' := by
  cases pl with
  | active addr =>
    cases pl' with
    | active addr' =>
      obtain rfl : addr = addr' := h
      rfl
    | deferred ra' => exact h.elim
  | deferred ra =>
    cases pl' with
    | active addr' => exact h.elim
    | deferred ra' => exact StdMap.find?_congr _ h

/-- The tables with an entry at the place. -/
def put (t : Tables) (n : SizeT) : Place → Tables
  | .active addr => { t with active := t.active.assign addr n }
  | .deferred ra => { t with deferred := t.deferred.assign ra n }

/-- The tables without the entry at the place. -/
def remove (t : Tables) : Place → Tables
  | .active addr => { t with active := t.active.erase addr }
  | .deferred ra => { t with deferred := t.deferred.erase ra }

section Places

variable {t t' : Tables} {modules : List Module} {bp : WireBreakpoint} {pl pl' : Place}

theorem find?_put (t : Tables) (n : SizeT) (pl pl' : Place) :
    (t.put n pl).find? pl' = if pl'.Same pl then some n else t.find? pl' := by
  cases pl with
  | active addr =>
    cases pl' with
    | active addr' =>
      change (t.active.assign addr n).find? addr' = _
      rw [StdMap.find?_assign]
      exact if_congr sameKey_appPc rfl rfl
    | deferred ra' => rfl
  | deferred ra =>
    cases pl' with
    | active addr' => rfl
    | deferred ra' => exact StdMap.find?_assign _ _ _ _

theorem find?_remove (t : Tables) (pl pl' : Place) :
    (t.remove pl).find? pl' = if pl'.Same pl then none else t.find? pl' := by
  cases pl with
  | active addr =>
    cases pl' with
    | active addr' =>
      change (t.active.erase addr).find? addr' = _
      rw [StdMap.find?_erase]
      exact if_congr sameKey_appPc rfl rfl
    | deferred ra' => rfl
  | deferred ra =>
    cases pl' with
    | active addr' => rfl
    | deferred ra' => exact StdMap.find?_erase _ _ _

/-- A breakpoint is added at a place that is free. -/
theorem add_eq_ok (hpl : place modules bp = .ok pl) (h : t.add modules bp = .ok t') :
    t' = t.put bp.1.count pl ∧
      (t.find? pl = none ∨ (∃ addr, pl = .active addr) ∧ t.find? pl = some 0) := by
  unfold add at h
  rw [hpl] at h
  cases pl with
  | active addr =>
    simp only at h
    split_ifs at h with hfree
    exact ⟨(Except.ok.inj h).symm, hfree.imp_right fun hz => ⟨⟨addr, rfl⟩, hz⟩⟩
  | deferred ra =>
    simp only at h
    split_ifs at h with hfree
    exact ⟨(Except.ok.inj h).symm, Or.inl hfree⟩

/-- One that waits is added with a new key. -/
theorem find?_of_add {ra : DeferredKey} (hpl : place modules bp = .ok (.deferred ra))
    (h : t.add modules bp = .ok t') : t.deferred.find? ra = none := by
  rcases (add_eq_ok hpl h).2 with hnone | ⟨⟨addr, haddr⟩, -⟩
  · exact hnone
  · cases haddr

/-- A breakpoint is deleted from a place that has an entry. -/
theorem delete_eq_ok (hpl : place modules bp = .ok pl) :
    t.delete modules bp = .ok t' ↔ t' = t.remove pl ∧ t.find? pl ≠ none := by
  unfold delete
  rw [hpl]
  cases pl with
  | active addr =>
    by_cases hnone : t.active.find? addr = none
    · simp [hnone, find?]
    · simp only [find?, remove, ne_eq, hnone, not_false_eq_true, and_true, if_false,
        Except.ok.injEq]
      exact eq_comm
  | deferred ra =>
    by_cases hnone : t.deferred.find? ra = none
    · simp [hnone, find?]
    · simp only [find?, remove, ne_eq, hnone, not_false_eq_true, and_true, if_false,
        Except.ok.injEq]
      exact eq_comm

/-- A hit with one hit left removes the entry. -/
theorem hit_of_one {addr : AppPc} (h : t.active.find? addr = some 1) :
    t.hit addr = t.remove (.active addr) := by
  have herase : (t.active.assign addr (1 - 1)).erase addr = t.active.erase addr := by
    refine StdMap.ext_find? (fun a b => sameKey_appPc.mp) fun x => ?_
    rw [StdMap.find?_erase, StdMap.find?_erase, StdMap.find?_assign]
    split_ifs <;> rfl
  rw [hit, h]
  simp only [remove, ← herase]
  rfl

/-- Any other hit counts the entry down. -/
theorem hit_of_ne_one {addr : AppPc} {n : SizeT} (h : t.active.find? addr = some n) (hn : n ≠ 1) :
    t.hit addr = t.put (n - 1) (.active addr) := by
  have hsub : n - 1 ≠ 0 := by bv_omega
  rw [hit, h]
  simp only [if_neg hsub]
  rfl

theorem exists_place_of_add (h : t.add modules bp = .ok t') : ∃ pl, place modules bp = .ok pl := by
  cases hpl : place modules bp with
  | error msg =>
    rw [add, hpl] at h
    cases h
  | ok pl => exact ⟨pl, rfl⟩

theorem exists_place_of_delete (h : t.delete modules bp = .ok t') :
    ∃ pl, place modules bp = .ok pl := by
  cases hpl : place modules bp with
  | error msg =>
    rw [delete, hpl] at h
    cases h
  | ok pl => exact ⟨pl, rfl⟩

end Places

end Tables

end ConcreteEval
