import ConcreteEval.Ledger

/-!
# Counts

A count comes in as an `i64`, is kept as a `size_t`, is counted down before it is compared with
zero, and goes out as an `i64` again. None of this loses a number where the counts that are
requested are positive : every entry is then justified by a pending breakpoint, whose count is
what is left of it and the hits it has had (`Ledger.Justified`), and all counts stay from 1 to `2
^ 63 - 1` (`Ledger.counts_positive`). No check keeps a request with any other count out.
-/

namespace ConcreteEval

/-- What `getBreakpoints` lists are active breakpoints. -/
theorem mem_listed {active : StdMap AppPc SizeT} {e : Breakpoint} (h : e ∈ World.listed active) :
    ∃ p ∈ active.entries, e = listedBreakpoint p := by
  have hfold : ∀ (l : List (AppPc × SizeT)) (s : List Breakpoint),
      e ∈ l.foldl (fun s p => setInsert (fun x y => x.lt y = true) (listedBreakpoint p) s) s →
      e ∈ s ∨ ∃ p ∈ l, e = listedBreakpoint p := by
    intro l
    induction l with
    | nil => exact fun s hs => Or.inl hs
    | cons p l ih =>
      intro s hs
      rcases ih _ hs with hs | ⟨q, hq, he⟩
      · rcases mem_setInsert hs with rfl | hs
        · exact Or.inr ⟨p, List.mem_cons_self, rfl⟩
        · exact Or.inl hs
      · exact Or.inr ⟨q, List.mem_cons_of_mem p hq, he⟩
  exact (hfold _ _ h).resolve_left List.not_mem_nil

namespace Ledger

/-- A count that a client can ask for, as a number of hits. -/
def InRange (n : SizeT) : Prop :=
  1 ≤ n.toNat ∧ n.toNat ≤ 2 ^ 63 - 1

/-- The counts are from 1 to `2 ^ 63 - 1`; counting down does not wrap; no breakpoint has more hits
to go than were requested; and `getBreakpoints` reports each count as the number that it is. -/
structure CountsPositive (k : Ledger) : Prop where
  active : ∀ e ∈ k.tables.active.entries, InRange e.2
  deferred : ∀ e ∈ k.tables.deferred.entries, InRange e.2
  decrement : ∀ e ∈ k.tables.active.entries, (e.2 - 1).toNat + 1 = e.2.toNat
  requested : ∀ e ∈ k.tables.active.entries, ∃ p ∈ k.pending, p.place = .active e.1 ∧
    (e.2.toNat : ℤ) ≤ p.bp.1.count.toInt
  reported : ∀ env x w', k.target.world.alone .debug env .server .getBreakpoints = some (x, w') →
    ∃ s, x = .returned (.breakpoints s) ∧ ∀ bp ∈ s, ∃ e ∈ k.tables.active.entries,
      bp.addr = ({} : AbsOrRelAddr).setAbsaddr e.1 ∧ bp.count.toInt = e.2.toNat

/-- A breakpoint is added with a positive count, unless its place has an entry. -/
def AddsPositive (k : Ledger) (l : Activity) : Prop :=
  ∀ bp env pl, l = .call (.addBreakpoint bp) env → Tables.place k.modules bp = .ok pl →
    k.tables.find? pl = none → 0 < bp.1.count.toInt

/-- Every entry is a pending breakpoint with what is left of its count. -/
structure Justified (tb : Tables) (ps : List Pending) : Prop where
  active : ∀ addr n, tb.active.find? addr = some n → n ≠ 0 ∧
    ∃ p ∈ ps, p.place = .active addr ∧ n.toNat + p.hits = p.bp.1.count.toNat
  deferred : ∀ e ∈ tb.deferred.entries,
    ∃ p ∈ ps, p.place = .deferred e.1 ∧ p.hits = 0 ∧ e.2 = p.bp.1.count
  requested : ∀ p ∈ ps, 0 < p.bp.1.count.toInt

variable {k k' : Ledger} {l : Activity} {tb : Tables} {ps : List Pending}

theorem justified_boot (modules : List Module) :
    Justified (boot modules).tables (boot modules).pending :=
  ⟨nofun, nofun, nofun⟩

theorem toNat_of_pos {n : BitVec 64} (h : 0 < n.toInt) : (n.toNat : ℤ) = n.toInt ∧ InRange n := by
  have hn := n.isLt
  unfold InRange
  rw [BitVec.toInt_eq_toNat_cond] at h ⊢
  split_ifs at h ⊢ with hlt
  · omega
  · omega

theorem ne_zero_of_pos {n : BitVec 64} (h : 0 < n.toInt) : n ≠ 0 := by
  rintro rfl
  simp at h

/-- A breakpoint is added where there is no entry. -/
theorem Justified.add (h : Justified tb ps) {bp : WireBreakpoint} {pl : Tables.Place}
    (hfree : tb.find? pl = none) (hpos : 0 < bp.1.count.toInt) :
    Justified (tb.put bp.1.count pl) (⟨bp, pl, 0⟩ :: ps) := by
  refine ⟨fun addr n hn => ?_, fun e he => ?_, fun p hp => ?_⟩
  · have hn' := Tables.find?_put tb bp.1.count pl (.active addr)
    rw [show (tb.put bp.1.count pl).find? (.active addr) = some n from hn] at hn'
    split_ifs at hn' with hsame
    · cases pl with
      | active addr' =>
        obtain rfl : addr = addr' := hsame
        obtain rfl := Option.some.inj hn'
        exact ⟨ne_zero_of_pos hpos, _, List.mem_cons_self, rfl, rfl⟩
      | deferred ra => exact hsame.elim
    · obtain ⟨hne, p, hp, hplace⟩ := h.active addr n hn'.symm
      exact ⟨hne, p, List.mem_cons_of_mem _ hp, hplace⟩
  · cases pl with
    | active addr =>
      obtain ⟨p, hp, hplace⟩ := h.deferred e he
      exact ⟨p, List.mem_cons_of_mem _ hp, hplace⟩
    | deferred ra =>
      obtain ⟨l₁, l₂, hd, hassign⟩ := StdMap.exists_entries_assign (v := bp.1.count) hfree
      have hcases : e = (ra, bp.1.count) ∨ e ∈ tb.deferred.entries := by
        have he : e ∈ (tb.deferred.assign ra bp.1.count).entries := he
        rw [hassign] at he
        rw [hd]
        simp only [List.mem_append, List.mem_cons] at he ⊢
        tauto
      rcases hcases with rfl | he
      · exact ⟨_, List.mem_cons_self, rfl, rfl, rfl⟩
      · obtain ⟨p, hp, hplace⟩ := h.deferred e he
        exact ⟨p, List.mem_cons_of_mem _ hp, hplace⟩
  · rcases List.mem_cons.mp hp with rfl | hp
    · exact hpos
    · exact h.requested p hp

/-- The breakpoints at a place go, by a deletion or because they fire. -/
theorem Justified.remove (h : Justified tb ps) (pl : Tables.Place) :
    Justified (tb.remove pl) (ps.filter fun p => ¬p.place.Same pl) := by
  have hmem : ∀ {p : Pending}, p ∈ ps → ¬p.place.Same pl →
      p ∈ ps.filter fun p => ¬p.place.Same pl :=
    fun hp hnot => List.mem_filter.mpr ⟨hp, decide_eq_true hnot⟩
  refine ⟨fun addr n hn => ?_, fun e he => ?_, fun p hp => h.requested p (List.mem_filter.mp hp).1⟩
  · have hn' := Tables.find?_remove tb pl (.active addr)
    rw [show (tb.remove pl).find? (.active addr) = some n from hn] at hn'
    split_ifs at hn' with hsame
    obtain ⟨hne, p, hp, hplace, hcount⟩ := h.active addr n hn'.symm
    exact ⟨hne, p, hmem hp (hplace ▸ hsame), hplace, hcount⟩
  · cases pl with
    | active addr =>
      obtain ⟨p, hp, hplace, hq⟩ := h.deferred e he
      exact ⟨p, hmem hp (by rw [hplace]; exact id), hplace, hq⟩
    | deferred ra =>
      have he : e ∈ (tb.deferred.erase ra).entries := he
      obtain ⟨he, hnot⟩ := List.mem_filter.mp he
      obtain ⟨p, hp, hplace, hq⟩ := h.deferred e he
      refine ⟨p, hmem hp ?_, hplace, hq⟩
      rw [hplace]
      exact fun hsame => of_decide_eq_true hnot hsame.symm

/-- The load of a module. -/
theorem Justified.load (h : Justified tb ps) {m : Module} {tb' : Tables}
    (ht : tb.load m = some tb') : Justified tb' (ps.map (.load m)) := by
  refine ⟨fun addr n hn => ?_, fun e he => ?_, fun p hp => ?_⟩
  · rw [Tables.find?_load ht] at hn
    cases hheld : Tables.held m addr tb.deferred.entries with
    | none =>
      rw [hheld, Option.none_or] at hn
      obtain ⟨hne, p, hp, hplace, hcount⟩ := h.active addr n hn
      have hload : p.load m = p := Pending.load_of_active hplace
      exact ⟨hne, p, List.mem_map.mpr ⟨p, hp, hload⟩, hplace, hcount⟩
    | some n' =>
      rw [hheld, Option.some_or] at hn
      obtain rfl := Option.some.inj hn
      obtain ⟨e, he, ⟨hname, hres⟩, rfl⟩ := Tables.exists_of_held hheld
      obtain ⟨p, hp, hplace, hhits, hcount⟩ := h.deferred e he
      refine ⟨?_, _, List.mem_map_of_mem hp, ?_⟩
      · rw [hcount]
        exact ne_zero_of_pos (h.requested p hp)
      · rw [Pending.load_of_resolve hplace hname hres, hcount, hhits]
        exact ⟨rfl, rfl⟩
  · rw [(Tables.load_eq_some ht).2] at he
    obtain ⟨he, hname⟩ := List.mem_filter.mp he
    obtain ⟨p, hp, hplace, hq⟩ := h.deferred e he
    have hload : p.load m = p := Pending.load_of_ne hplace (of_decide_eq_true hname)
    exact ⟨p, List.mem_map.mpr ⟨p, hp, hload⟩, hplace, hq⟩
  · obtain ⟨q, hq, rfl⟩ := List.mem_map.mp hp
    rw [Pending.load_bp]
    exact h.requested q hq

/-- A hit that leaves hits to go. -/
theorem Justified.count (h : Justified tb ps) {addr : AppPc} {n : SizeT}
    (hn : tb.active.find? addr = some n) (h1 : n ≠ 1) :
    Justified (tb.put (n - 1) (.active addr)) (ps.map (.hit addr)) := by
  refine ⟨fun a c hc => ?_, fun e he => ?_, fun p hp => ?_⟩
  · have hc' := Tables.find?_put tb (n - 1) (.active addr) (.active a)
    rw [show (tb.put (n - 1) (.active addr)).find? (.active a) = some c from hc] at hc'
    split_ifs at hc' with hsame
    · obtain rfl : a = addr := hsame
      obtain rfl := Option.some.inj hc'
      obtain ⟨hne, p, hp, hplace, hcount⟩ := h.active a n hn
      refine ⟨by bv_omega, _, List.mem_map_of_mem hp, (Pending.hit_place a p).trans hplace, ?_⟩
      rw [Pending.hit_bp, Pending.hit_of_same (by rw [hplace]; exact rfl), ← hcount]
      have hsub : (n - 1).toNat + 1 = n.toNat := by bv_omega
      change (n - 1).toNat + (p.hits + 1) = n.toNat + p.hits
      omega
    · obtain ⟨hne, p, hp, hplace, hcount⟩ := h.active a c hc'.symm
      have hhit : p.hit addr = p := Pending.hit_of_not (by rw [hplace]; exact hsame)
      exact ⟨hne, p, List.mem_map.mpr ⟨p, hp, hhit⟩, hplace, hcount⟩
  · obtain ⟨p, hp, hplace, hq⟩ := h.deferred e he
    have hhit : p.hit addr = p := Pending.hit_of_not (by rw [hplace]; exact id)
    exact ⟨p, List.mem_map.mpr ⟨p, hp, hhit⟩, hplace, hq⟩
  · obtain ⟨q, hq, rfl⟩ := List.mem_map.mp hp
    rw [Pending.hit_bp]
    exact h.requested q hq

theorem Justified.change {ms : List Module} (h : Justified k.tables k.pending)
    (hadd : k.AddsPositive l) (hc : k.Change l tb ms ps) : Justified tb ps := by
  cases hc with
  | @add bp env pl tb hpl ht =>
    obtain ⟨rfl, hfree⟩ := Tables.add_eq_ok hpl ht
    have hfree : k.tables.find? pl = none := by
      refine hfree.resolve_right ?_
      rintro ⟨⟨addr, rfl⟩, hzero⟩
      exact (h.active addr 0 hzero).1 rfl
    exact h.add hfree (hadd bp env pl rfl hpl hfree)
  | delete hpl hfind => exact h.remove _
  | load ht => exact h.load ht
  | fire hone => exact h.remove _
  | count hn hn1 => exact h.count hn hn1
  | unload => exact h
  | other => exact h

/-- In every run whose requests have positive counts, where they are not rejected, all counts are
positive and none of the conversions changes one. -/
theorem counts_positive (hk : k.ReachedBy AddsPositive) : k.CountsPositive := by
  obtain ⟨hok, h⟩ := ReachedBy.invariant (I := fun k => Justified k.tables k.pending) hk
    justified_boot fun k l k' hok h hadd hs => h.change hadd (change hok hs)
  have hactive : ∀ e ∈ k.tables.active.entries, e.2 ≠ 0 ∧ InRange e.2 ∧ ∃ p ∈ k.pending,
      p.place = .active e.1 ∧ (e.2.toNat : ℤ) ≤ p.bp.1.count.toInt := by
    intro e he
    obtain ⟨hne, p, hp, hplace, hcount⟩ := h.active e.1 e.2 (StdMap.find?_of_mem he)
    obtain ⟨hint, hrange⟩ := toNat_of_pos (h.requested p hp)
    have hpos : 0 < e.2.toNat := by bv_omega
    unfold InRange at hrange ⊢
    exact ⟨hne, by omega, p, hp, hplace, by omega⟩
  refine ⟨fun e he => (hactive e he).2.1, fun e he => ?_, fun e he => ?_,
    fun e he => (hactive e he).2.2, fun env x w' hal => ?_⟩
  · obtain ⟨p, hp, -, -, hcount⟩ := h.deferred e he
    rw [hcount]
    exact (toNat_of_pos (h.requested p hp)).2
  · have hne := (hactive e he).1
    bv_omega
  · obtain ⟨w₁, hal', -⟩ := World.alone_getBreakpoints env .debug hok.mutex
    obtain ⟨rfl, -⟩ := Prod.mk.inj (Option.some.inj (hal'.symm.trans hal))
    refine ⟨_, rfl, fun bp hbp => ?_⟩
    obtain ⟨e, he, rfl⟩ := mem_listed hbp
    refine ⟨e, he, rfl, ?_⟩
    obtain ⟨-, hrange⟩ := (hactive e he).2.1
    change (e.2 : BitVec 64).toInt = e.2.toNat
    rw [BitVec.toInt_eq_toNat_cond, if_pos (by omega)]

/-- Add a breakpoint at 16, and let the application run into it. -/
def hitOnce (n : I64) : Ledger :=
  after [] [.call (.addBreakpoint (absBreakpoint 16 n)) {}, .resume {},
    .callback 1 (.cleanCall (.updateFastforwardCount 16 16 20)) {}]

theorem counts_positive_two :
    (hitOnce 2).tables.active.entries = [(16, 1)] ∧ (hitOnce 2).CountsPositive := by
  refine ⟨rfl, counts_positive (reachedBy_after [] fun k l hl bp env pl hbp _ _ => ?_)⟩
  subst hbp
  obtain ⟨rfl, -⟩ : bp = absBreakpoint 16 2 ∧ env = {} := by
    simpa using (List.mem_cons.mp hl).resolve_right (by simp)
  decide

/-- A breakpoint with count zero is accepted, and the first hit makes the count wrap. -/
theorem not_counts_positive :
    ¬∀ k : Ledger, k.ReachedBy (fun _ _ => True) → k.CountsPositive := by
  intro h
  have hk := h (hitOnce 0) (reachedBy_after [] fun _ _ _ => trivial)
  have hentries : (hitOnce 0).tables.active.entries = [(16, 0 - 1)] := rfl
  have hrange := hk.active (16, 0 - 1) (by rw [hentries]; exact List.mem_singleton_self _)
  exact absurd hrange.2 (by decide)

end Ledger

end ConcreteEval
