import ConcreteEval.Store

/-!
# Hits in any interleaving

A thread counts a hit down in five or more actions : it looks the count up under the mutex, writes
one less, and erases an entry whose count has come to zero. Other threads that hit the same address
stop in between, as does the server in its calls.

Between two states with a free mutex of a run in which the server unlocks only what it has, the
tables change by the turns that are added to its history in between, as if one operation had been
done after the other (`Machine.takes_between`). Where these turns neither add nor delete nor move a
breakpoint, every entry has been counted down by exactly the hits of its address, and is gone
exactly if there were as many as its count : no hit is lost, and none is counted twice
(`Machine.hits_counted`). And a hit that signals is the last that its entry waited for
(`Machine.signals_last`).
-/

namespace ConcreteEval

/-! ## Counting down -/

/-- What `k` hits of its address leave of a count. A count of 0 wraps at the first. -/
def countDown (k : ℕ) (n? : Option SizeT) : Option SizeT :=
  n?.bind fun n => if k ≤ (n - 1).toNat then some (n - BitVec.ofNat 64 k) else none

theorem countDown_zero (n? : Option SizeT) : countDown 0 n? = n? := by
  cases n? with
  | none => rfl
  | some n => simp [countDown]

/-- One more hit. -/
theorem countDown_succ (k : ℕ) (n? : Option SizeT) :
    countDown (k + 1) n? =
      (countDown k n?).bind fun n => if n - 1 = 0 then none else some (n - 1) := by
  cases n? with
  | none => rfl
  | some n =>
    simp only [countDown, Option.bind_some]
    by_cases hk : k ≤ (n - 1).toNat
    · have hlast : n - BitVec.ofNat 64 k - 1 = 0 ↔ ¬k + 1 ≤ (n - 1).toNat := by bv_omega
      have hsub : n - BitVec.ofNat 64 k - 1 = n - BitVec.ofNat 64 (k + 1) := by bv_omega
      rw [if_pos hk, Option.bind_some]
      by_cases hmore : k + 1 ≤ (n - 1).toNat
      · rw [if_pos hmore, if_neg (mt hlast.mp (not_not.mpr hmore)), hsub]
      · rw [if_neg hmore, if_pos (hlast.mpr hmore)]
    · rw [if_neg hk, if_neg (by omega), Option.bind_none]

theorem countDown_add (j k : ℕ) (n? : Option SizeT) :
    countDown j (countDown k n?) = countDown (k + j) n? := by
  induction j with
  | zero => exact countDown_zero _
  | succ j ih => rw [countDown_succ, ih, ← Nat.add_assoc, countDown_succ]

/-- A count with one hit to go. -/
theorem eq_of_countDown_eq_one {k : ℕ} {n? : Option SizeT} (h : countDown k n? = some 1) :
    ∃ n, n? = some n ∧ k = (n - 1).toNat := by
  obtain ⟨n, rfl, hn⟩ := Option.bind_eq_some_iff.mp h
  split_ifs at hn with hk
  have hone : n - BitVec.ofNat 64 k = 1 := Option.some.inj hn
  exact ⟨n, rfl, by bv_omega⟩

/-- Whether the operation is a hit of the address. -/
def Operation.hits (x : AppPc) : Operation → Bool
  | .cleanCall (.updateFastforwardCount addr _ _) => addr = x
  | _ => false

/-- Whether the operation is one that adds, deletes or moves breakpoints. -/
def Operation.settles : Operation → Bool
  | .addBreakpoint _ | .delBreakpoint _ | .eventModuleLoaded _ => true
  | _ => false

/-- The turn has added, deleted or moved breakpoints : its operation does, and it has not left the
tables as they were, as a call does that is turned down. -/
def Turn.Settles (turn : Turn) : Prop :=
  turn.operation.settles = true ∧ turn.now ≠ turn.found

instance : DecidableEq Tables := fun _ _ =>
  decidable_of_iff _ Tables.ext_iff.symm

instance (turn : Turn) : Decidable turn.Settles :=
  inferInstanceAs (Decidable (_ ∧ _))

/-- How many of the turns hit the address. -/
def hitsOf (x : AppPc) (turns : List Turn) : ℕ :=
  turns.countP fun turn => turn.operation.hits x

theorem hitsOf_snoc (x : AppPc) (turns : List Turn) (turn : Turn) :
    hitsOf x (turns ++ [turn]) =
      hitsOf x turns + if turn.operation.hits x = true then 1 else 0 := by
  simp [hitsOf]

/-- An operation that settles no breakpoint only counts down. -/
theorem Operation.find?_of_effect {modules known : List Module} {t now : Tables} {op : Operation}
    (heffect : op.Effect modules known t now) (hop : op.settles = true → now = t) :
    now.deferred = t.deferred ∧ ∀ x, now.active.find? x =
      countDown (if op.hits x = true then 1 else 0) (t.active.find? x) := by
  have hsame : now = t → (∀ x, op.hits x = false) → now.deferred = t.deferred ∧
      ∀ x, now.active.find? x =
        countDown (if op.hits x = true then 1 else 0) (t.active.find? x) := by
    rintro rfl hnone
    refine ⟨rfl, fun x => ?_⟩
    rw [hnone x, if_neg (by simp), countDown_zero]
  cases op with
  | serverThread => cases heffect
  | addBreakpoint bp => exact hsame (hop rfl) fun _ => rfl
  | delBreakpoint bp => exact hsame (hop rfl) fun _ => rfl
  | eventModuleLoaded m => exact hsame (hop rfl) fun _ => rfl
  | cleanCall c =>
    cases c with
    | relevantBlockCleanCall start endPc => cases heffect
    | updateFastforwardCount addr start endPc =>
      obtain rfl : now = t.hit addr := heffect
      refine ⟨Tables.hit_deferred t addr, fun x => ?_⟩
      by_cases hx : addr = x
      · subst hx
        rw [Tables.find?_hit, if_pos (by simp [hits]), countDown_succ, countDown_zero]
      · rw [Tables.find?_hit_of_ne (Ne.symm hx), if_neg (by simpa [hits] using hx), countDown_zero]
  | _ => exact hsame heffect fun _ => rfl

/-! ## Turns one after the other -/

/-- The tables before and after turns that have their effects one after the other. -/
inductive TakesEach (t : Tables) : List Turn → Tables → Prop
  | nil : TakesEach t [] t
  | snoc {turns} {turn : Turn} (h : TakesEach t turns turn.found)
    (heffect : turn.operation.Effect turn.modules turn.known turn.found turn.now) :
    TakesEach t (turns ++ [turn]) turn.now

/-- They count every entry down by the hits of its address. -/
theorem TakesEach.counted {t t' : Tables} {turns : List Turn} (h : TakesEach t turns t')
    (hturns : ∀ turn ∈ turns, ¬turn.Settles) :
    t'.deferred = t.deferred ∧
      ∀ x, t'.active.find? x = countDown (hitsOf x turns) (t.active.find? x) := by
  induction h with
  | nil => exact ⟨rfl, fun x => (countDown_zero _).symm⟩
  | @snoc turns turn h heffect ih =>
    obtain ⟨hdeferred, hactive⟩ := ih fun turn' ht => hturns turn' (List.mem_append_left _ ht)
    have hquiet : turn.operation.settles = true → turn.now = turn.found := by
      simpa [Turn.Settles] using hturns turn (List.mem_append_right _ List.mem_cons_self)
    obtain ⟨hdeferred', hactive'⟩ := Operation.find?_of_effect heffect hquiet
    refine ⟨hdeferred'.trans hdeferred, fun x => ?_⟩
    rw [hactive', hactive, hitsOf_snoc, countDown_add]

namespace Machine

variable {m₀ m m' : Machine} {h₀ h : History} {l : Label}

/-- The turns since the history `h₀`. -/
def Since (h₀ h : History) : Prop :=
  ∃ turns, h.turns = h₀.turns ++ turns ∧ TakesEach h₀.tables turns h.tables

theorem since_refl (h : History) : Since h h :=
  ⟨[], (List.append_nil _).symm, .nil⟩

/-- One more step. -/
theorem Since.step (hsince : Since h₀ h) (hin : m.InSections h) (hown : m.UnlocksOwn l)
    (hs : m.step .debug l = some m') : Since h₀ (h.next m l m') := by
  obtain ⟨turns, hturns, htakes⟩ := hsince
  rcases hin.takes_next hown hs with ⟨hsame, htables⟩ | ⟨turn, hturn⟩
  · exact ⟨turns, hsame.trans hturns, by rwa [htables]⟩
  · rw [← hturn.found] at htakes
    refine ⟨turns ++ [turn], ?_, ?_⟩
    · rw [hturn.turns, hturns, List.append_assoc]
    · rw [← hturn.now]
      exact htakes.snoc hturn.effect

theorem Since.takesEach (hsince : Since h₀ h) {turns : List Turn}
    (hturns : h.turns = h₀.turns ++ turns) : TakesEach h₀.tables turns h.tables := by
  obtain ⟨turns', hturns', htakes⟩ := hsince
  obtain rfl : turns' = turns := List.append_cancel_left (hturns'.symm.trans hturns)
  exact htakes

/-- A hit that signals has the one hit to go before it. -/
theorem InSections.signals (hin : m.InSections h) {a : Actor} {x start endPc : AppPc}
    {p : Dr Result}
    (hrun : m.running a = some (.cleanCall (.updateFastforwardCount x start endPc), p))
    (hnext : m.nextOp a = some .drEventSignal) : h.tables.active.find? x = some 1 := by
  obtain ⟨l, hat, hf⟩ := hin.thread a _ p hrun
  cases p with
  | act o k =>
    obtain rfl : o = .drEventSignal := by simpa [nextOp, hrun] using hnext
    obtain ⟨-, hsignals⟩ := (hf m.world.modules (h.known a) (fun _ => rfl) (List.Subset.refl _)).1
    obtain ⟨found', now, rfl, hone⟩ := hsignals x start endPc rfl
    obtain ⟨-, -, rfl, -⟩ := hat
    exact hone
  | _ => simp [nextOp, hrun] at hnext

section Between

variable (hm₀ : m₀.RecordedBy .debug UnlocksOwn h₀)
  (hrun : Relation.ReflTransGen (Records .debug UnlocksOwn) (m₀, h₀) (m, h))

include hm₀ hrun

theorem since_of_records : Since h₀ h := by
  refine invariant_of_recording (I := fun _ h => Since h₀ h) (since_refl h₀) ?_ hrun
  rintro m h l m' hr hsince hown hs
  exact hsince.step (hm₀.trans hr).inSections hown hs

variable (hfree₀ : m₀.world.mutex = none) {turns : List Turn}
  (hturns : h.turns = h₀.turns ++ turns)

include hfree₀ hturns

/-- Between two states with a free mutex, the tables change by the turns that are added to the
history in between, one after the other. -/
theorem takes_between (hfree : m.world.mutex = none) :
    TakesEach m₀.world.globals.tables turns m.world.globals.tables := by
  rw [hm₀.inSections.free hfree₀, (hm₀.trans hrun).inSections.free hfree]
  exact (since_of_records hm₀ hrun).takesEach hturns

/-- As long as the server unlocks only what it has, whatever else the threads do in between each
other's actions : if no breakpoint has been added, deleted or moved between two states with a free
mutex, every breakpoint has been counted down by exactly the hits of its address that have unlocked
since, and is gone exactly if there were as many as its count. -/
theorem hits_counted (hfree : m.world.mutex = none) (hsettles : ∀ turn ∈ turns, ¬turn.Settles) :
    m.world.globals.deferredBreakpoints = m₀.world.globals.deferredBreakpoints ∧
      ∀ x, m.world.globals.breakpoints.find? x =
        countDown (hitsOf x turns) (m₀.world.globals.breakpoints.find? x) :=
  (takes_between hm₀ hrun hfree₀ hturns hfree).counted hsettles

/-- As long as the server unlocks only what it has, whatever else the threads do in between each
other's actions : a thread that is about to signal in a hit is in the last hit that its breakpoint
waited for, and all others of its count have unlocked. -/
theorem signals_last (hsettles : ∀ turn ∈ turns, ¬turn.Settles) {a : Actor}
    {x start endPc : AppPc} {p : Dr Result}
    (hhit : m.running a = some (.cleanCall (.updateFastforwardCount x start endPc), p))
    (hnext : m.nextOp a = some .drEventSignal) :
    ∃ n, m₀.world.globals.breakpoints.find? x = some n ∧ hitsOf x turns = (n - 1).toNat := by
  have hone := (hm₀.trans hrun).inSections.signals hhit hnext
  have htakes := (since_of_records hm₀ hrun).takesEach hturns
  rw [(htakes.counted hsettles).2 x, ← hm₀.inSections.free hfree₀] at hone
  exact eq_of_countDown_eq_one hone

end Between

/-- A breakpoint at 16 with a count of 3. -/
def countOf3 : List Label :=
  startUp ++ [.start .server (.addBreakpoint (absBreakpoint 16 3))] ++ actions .server 4 ++
    [.finish .server]

/-- A call to delete one at 20, where there is none. -/
def turnedDown : List Label :=
  [.start .server (.delBreakpoint (absBreakpoint 20 3))] ++ actions .server 3 ++ [.finish .server]

/-- A thread comes to the breakpoint. -/
def comesTo16 (u : ℕ) : Label :=
  .start (.app u) (.cleanCall (.updateFastforwardCount 16 16 20))

/-- Two threads come to it before either has counted its hit. -/
def twoHits : List Label :=
  [comesTo16 1, comesTo16 2] ++ actions (.app 2) 4 ++ actions (.app 1) 4

/-- One of them comes to it again, and does `n` actions of the last hit. -/
def lastHit (n : ℕ) : List Label :=
  twoHits ++ [.finish (.app 2), comesTo16 2] ++ actions (.app 2) n

/-- The breakpoint has been added, and the application is suspended. -/
def threeToGo : Machine × History :=
  recorded unlocksOwnChecked countOf3

theorem recordedBy_threeToGo : threeToGo.1.RecordedBy .debug UnlocksOwn threeToGo.2 :=
  recordedBy_recorded unlocksOwn_of_checked countOf3

theorem hits_counted_twoHits :
    ∃ r, (turnedDown ++ resumes {.breakpoint} ++ twoHits).foldlM (checkedRecord unlocksOwnChecked)
        threeToGo = some r ∧ r.1.world.globals.breakpoints.find? 16 = some 1 := by
  obtain ⟨r, hr, hfree, hsettles, hhits⟩ :
      ∃ r, (turnedDown ++ resumes {.breakpoint} ++ twoHits).foldlM
          (checkedRecord unlocksOwnChecked) threeToGo = some r ∧ r.1.world.mutex = none ∧
        (∀ turn ∈ r.2.turns.drop threeToGo.2.turns.length, ¬turn.Settles) ∧
        hitsOf 16 (r.2.turns.drop threeToGo.2.turns.length) = 2 := by
    refine ⟨_, rfl, rfl, ?_, rfl⟩
    decide +kernel
  have hm₀ := recordedBy_threeToGo
  have hrun := records_of_checked unlocksOwn_of_checked hr
  obtain ⟨turns, hturns, -⟩ := since_of_records hm₀ hrun
  rw [hturns, List.drop_left] at hsettles hhits
  refine ⟨r, hr, ?_⟩
  rw [(hits_counted hm₀ hrun rfl hturns hfree hsettles).2 16, hhits]
  rfl

theorem signals_last_lastHit :
    ∃ r, (turnedDown ++ resumes {.breakpoint} ++ lastHit 9).foldlM
        (checkedRecord unlocksOwnChecked) threeToGo = some r ∧
      r.1.nextOp (.app 2) = some .drEventSignal ∧
      ∃ n, threeToGo.1.world.globals.breakpoints.find? 16 = some n ∧ 2 = (n - 1).toNat := by
  obtain ⟨r, hr, hnext, ⟨p, hhit⟩, hsettles, hhits⟩ :
      ∃ r, (turnedDown ++ resumes {.breakpoint} ++ lastHit 9).foldlM
          (checkedRecord unlocksOwnChecked) threeToGo = some r ∧
        r.1.nextOp (.app 2) = some .drEventSignal ∧
        (∃ p, r.1.running (.app 2) = some (.cleanCall (.updateFastforwardCount 16 16 20), p)) ∧
        (∀ turn ∈ r.2.turns.drop threeToGo.2.turns.length, ¬turn.Settles) ∧
        hitsOf 16 (r.2.turns.drop threeToGo.2.turns.length) = 2 := by
    refine ⟨_, rfl, rfl, ⟨_, rfl⟩, ?_, rfl⟩
    decide +kernel
  have hm₀ := recordedBy_threeToGo
  have hrun := records_of_checked unlocksOwn_of_checked hr
  obtain ⟨turns, hturns, -⟩ := since_of_records hm₀ hrun
  rw [hturns, List.drop_left] at hsettles hhits
  refine ⟨r, hr, hnext, ?_⟩
  rw [← hhits]
  exact signals_last hm₀ hrun rfl hturns hsettles hhit hnext

end Machine

end ConcreteEval
