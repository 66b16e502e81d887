import ConcreteEval.Book

/-!
# Breakpoints fire on the count they were given

An address with count `n` in `breakpoints` is counted down by the hits of it. The threads take
turns in any order, with hits of other addresses, other callbacks and calls in between, as long
as no call and no load writes to the entry (`AfterHits`). The `n`-th hit erases the entry and is
the one that suspends; the hits before it store what remains, the hits after it find nothing and
ask for a flush (`Fires`).

The actions of a hit are read off the log (`Acted`); that a hit calls `suspend_helper` means that
the actions of one path through it are among them (`Calls`).
-/

namespace ConcreteEval

/-- Whether the activity is a hit of `a`. -/
def Activity.hits (a : AppPc) : Activity → Bool
  | .callback _ (.cleanCall (.updateFastforwardCount addr _ _)) _ => addr = a
  | _ => false

/-- Whether the activity can write to the tables other than by a hit. -/
def Activity.edits : Activity → Bool
  | .call (.addBreakpoint _) _ | .call (.delBreakpoint _) _
  | .callback _ (.eventModuleLoaded _) _ => true
  | _ => false

/-- The actions `os` include those of a run of `p`, in one piece. -/
def Calls (p : Dr Unit) (os : List Op) : Prop :=
  ∃ τ, p.Path τ (.returned ()) ∧ List.IsInfix (τ.map Sigma.fst) os

/-- The actions of `suspend_helper`. -/
def suspendHelperActs (e : EventType) (mcontext : Mcontext) (start endPc : AppPc) : List Op :=
  [.drGetCurrentDrcontext, .drGetMcontext drMcAll, .write (.stoppedContext (some (e, mcontext))),
    .write (.stoppedBlock (some (start, endPc))), .drEventSignal, .drSleep 1000]

/-- The actions of a hit of `a` while its entry is `n?`. -/
def hitActs (n? : Option SizeT) (S : EventTypes) (a start endPc : AppPc) (mcontext : Mcontext) :
    List Op :=
  match n? with
  | none => [.drMutexLock, .read, .drMutexUnlock, .drDelayFlushRegion]
  | some n =>
    if n - 1 = 0 then
      [.drMutexLock, .read, .write (.breakpoint a (n - 1)), .write (.eraseBreakpoint a), .read] ++
        ((if EventType.breakpoint ∈ S then suspendHelperActs .breakpoint mcontext start endPc
          else []) ++ [.drMutexUnlock])
    else [.drMutexLock, .read, .write (.breakpoint a (n - 1)), .drMutexUnlock]

namespace World

variable {env : Env} {a : Actor} {w w₁ : World} {α β : Type}

theorem performs_suspendHelper (e : EventType) (start endPc : AppPc) :
    Performs env a w (suspendHelper (some e) start endPc)
      (suspendHelperActs e { env.mcontext with flags := drMcAll } start endPc) :=
  .step rfl id (.step rfl id (.step rfl id (.step rfl id (.step rfl id (.step rfl id (.ret ()))))))

theorem performs_stopEventsCount {e : EventType} {S : EventTypes}
    (hS : w.globals.stopEvents = some S) : Performs env a w (stopEventsCount e) [.read] := by
  refine .step rfl id ?_
  rw [hS]
  exact .ret _

variable (env a) in
/-- What a hit does. -/
theorem performs_updateFastforwardCount {S : EventTypes} (hm : w.mutex = none)
    (hS : w.globals.stopEvents = some S) (addr start endPc : AppPc) :
    Performs env a w (updateFastforwardCount .debug addr start endPc)
      (hitActs (w.globals.breakpoints.find? addr) S addr start endPc
        { env.mcontext with flags := drMcAll }) := by
  unfold hitActs
  cases hn : w.globals.breakpoints.find? addr with
  | none =>
    refine .step (answer_lock hm) id (.step rfl id ?_)
    simp only [hn]
    exact .step rfl id (.step rfl id (.ret ()))
  | some n =>
    by_cases hn1 : n - 1 = 0
    · simp only [if_pos hn1]
      refine .step (answer_lock hm) id (.step rfl id ?_)
      simp only [hn]
      refine .step rfl id ?_
      simp only [if_pos hn1]
      refine .step rfl id (.bind (performs_stopEventsCount (S := S) hS)
        (yields_stopEventsCount (S := S) hS) id ?_)
      by_cases he : EventType.breakpoint ∈ S
      · simp only [he, decide_true, if_true]
        exact .bind (performs_suspendHelper _ _ _) (yields_suspendHelper _ _ _ _ _) id
          (.step rfl id (.ret ()))
      · simp only [he, decide_false, if_false]
        exact .step rfl id (.ret ())
    · simp only [if_neg hn1]
      refine .step (answer_lock hm) id (.step rfl id ?_)
      simp only [hn]
      refine .step rfl id ?_
      simp only [if_neg hn1]
      exact .step rfl id (.ret ())

/-- The log of an operation that runs alone. -/
theorem log_alone {b : Build} {op : Operation} {os : List Op} {x : Prog.Ending Halt Result}
    {w' : World} (h : w.alone b env a op = some (x, w')) (hacts : w.Acts a)
    (hp : Performs env a (w.enter op) (op.prog b) os) :
    w'.log = .ended a op x :: ((os.map (.did a)).reverse ++ .started a op :: w.log) := by
  obtain ⟨x', -, heq⟩ := Option.map_eq_some_iff.mp h
  obtain ⟨rfl, rfl⟩ := Prod.mk.inj heq
  have hlogs : (w.enter op).Logs ((w.enter op).note (.started a op)) := ⟨_, rfl⟩
  rw [note_log, log_run, note_log, enter_log, ← hp (by simpa [Acts] using hacts) _ hlogs]
  simp

end World

namespace Target

/-- The count of `a` in `breakpoints`. -/
def entry (t : Target) (a : AppPc) : Option SizeT :=
  t.world.globals.breakpoints.find? a

/-- Between `t` and `t'` the operation `op` of `a` ran, with the actions `os`. -/
def Acted (t t' : Target) (a : Actor) (op : Operation) (os : List Op) : Prop :=
  ∃ x, t'.world.log =
    .ended a op x :: ((os.map (.did a)).reverse ++ .started a op :: t.world.log)

variable {t t' : Target} {S : EventTypes} {u : ℕ} {a start endPc : AppPc} {env : Env}

theorem acted_hit (h : t.Runs S) (hs : t.step .debug
    (.callback u (.cleanCall (.updateFastforwardCount a start endPc)) env) = some t') :
    Acted t t' (.app u) (.cleanCall (.updateFastforwardCount a start endPc))
      (hitActs (t.entry a) S a start endPc { env.mcontext with flags := drMcAll }) := by
  obtain ⟨hc, x, w', hal, rfl⟩ := step_callback hs
  have hacts := World.performs_updateFastforwardCount env (.app u) h.ok.mutex
    h.stopEvents a start endPc
  obtain ⟨w₁, hy, hcalm, -⟩ := yields_hit env h u a start endPc
  have hop : World.Performs env (.app u) t.world
      ((Operation.cleanCall (.updateFastforwardCount a start endPc)).prog .debug)
      (hitActs (t.entry a) S a start endPc { env.mcontext with flags := drMcAll } ++ []) :=
    .bind hacts hy (fun _ => Or.inl (hcalm.suspended.trans h.acts)) (.ret _)
  rw [List.append_nil] at hop
  exact ⟨x, World.log_alone hal (Or.inl h.acts) hop⟩

/-! ## Counting down -/

/-- `k` hits of `a` after `t₀`, with any other steps in between that leave its entry alone. -/
inductive AfterHits (a : AppPc) (t₀ : Target) : ℕ → Target → Prop
  | start : AfterHits a t₀ 0 t₀
  | hit {k : ℕ} {t t' : Target} {l : Activity} (h : AfterHits a t₀ k t) (hl : l.hits a = true)
      (hs : t.step .debug l = some t') : AfterHits a t₀ (k + 1) t'
  | other {k : ℕ} {t t' : Target} {l : Activity} (h : AfterHits a t₀ k t)
      (hl : l.hits a = false) (hedit : l.edits = true → t'.entry a = t.entry a)
      (hs : t.step .debug l = some t') : AfterHits a t₀ k t'

/-- What the hit of `a` does that comes after `k` others, where `a` became active with the count
`n` : what is stored, which hit erases, which one suspends, what a late hit does, and that no
other entry changes. -/
structure Fires (a : AppPc) (n : SizeT) (k : ℕ) (t t' : Target) (start endPc : AppPc)
    (os : List Op) : Prop where
  stored : k + 1 < n.toNat → t'.entry a = some (n - BitVec.ofNat 64 (k + 1))
  erased : t.entry a ≠ none ∧ t'.entry a = none ↔ k + 1 = n.toNat
  suspends : (∃ e s s', Calls (suspendHelper e s s') os) ↔
    k + 1 = n.toNat ∧ ∃ S, t.world.globals.stopEvents = some S ∧ EventType.breakpoint ∈ S
  once : (∃ e s s', Calls (suspendHelper e s s') os) →
    Calls (suspendHelper (some .breakpoint) start endPc) os ∧ os.count .drEventSignal = 1
  late : n.toNat ≤ k → t'.world.globals.tables = t.world.globals.tables ∧
    os = [.drMutexLock, .read, .drMutexUnlock, .drDelayFlushRegion]
  others : (∀ c, c ≠ a → t'.entry c = t.entry c) ∧
    t'.world.globals.deferredBreakpoints = t.world.globals.deferredBreakpoints

section Hits

variable {l : Activity} {c : AppPc}

/-- A hit counts the tables down. -/
theorem tables_hit (h : t.Ok) (hs : t.step .debug l = some t') (hl : l.hits a = true) :
    t'.world.globals.tables = t.world.globals.tables.hit a := by
  obtain ⟨-, hstep⟩ := book_step h hs
  suffices hb : t'.book.tables = t.book.tables.hit a from hb
  generalize t'.book = k' at hstep
  cases hstep with
  | hit hw =>
    rw [Activity.hits, decide_eq_true_eq] at hl
    rw [hl]
  | _ => cases hl

/-- A step that is no hit of `a` and does not edit the tables keeps the entry. -/
theorem entry_other (h : t.Ok) (hs : t.step .debug l = some t') (hl : l.hits a = false)
    (hedit : l.edits = false) : t'.entry a = t.entry a := by
  obtain ⟨-, hstep⟩ := book_step h hs
  suffices hb : t'.book.tables.active.find? a = t.book.tables.active.find? a from hb
  generalize t'.book = k' at hstep
  cases hstep with
  | @call op env hw hop =>
    cases op with
    | addBreakpoint bp => cases hedit
    | delBreakpoint bp => cases hedit
    | _ => rfl
  | hit hw =>
    rw [Activity.hits, decide_eq_false_iff_not] at hl
    exact Tables.find?_hit_of_ne (Ne.symm hl)
  | load hw ht => cases hedit
  | _ => rfl

/-- What is left of the count `n` after `k` hits. -/
def left (n : SizeT) (k : ℕ) : Option SizeT :=
  if k < n.toNat then some (n - BitVec.ofNat 64 k) else none

theorem left_sub_one {n : SizeT} {k : ℕ} (h : k < n.toNat) :
    n - BitVec.ofNat 64 k - 1 = 0 ↔ k + 1 = n.toNat := by
  bv_omega

theorem left_succ (n : SizeT) (k : ℕ) :
    (left n k).bind (fun m => if m - 1 = 0 then none else some (m - 1)) = left n (k + 1) := by
  unfold left
  by_cases h : k < n.toNat
  · rw [if_pos h, Option.bind_some]
    by_cases h₁ : k + 1 = n.toNat
    · rw [if_pos ((left_sub_one h).mpr h₁), if_neg (by omega)]
    · rw [if_neg (mt (left_sub_one h).mp h₁), if_pos (by omega)]
      congr 1
      bv_omega
  · rw [if_neg h, if_neg (by omega)]
    rfl

theorem left_eq_none {n : SizeT} {k : ℕ} : left n k = none ↔ n.toNat ≤ k := by
  unfold left
  split_ifs with h
  · simpa using h
  · simpa using h

theorem left_eq_one {n : SizeT} {k : ℕ} : left n k = some 1 ↔ k + 1 = n.toNat := by
  unfold left
  split_ifs with h
  · rw [Option.some.injEq]
    bv_omega
  · simp only [false_iff]
    omega

/-- After `k` hits of `a` its entry is what is left. -/
theorem AfterHits.entry {t₀ : Target} {n : SizeT} {k : ℕ} (h : AfterHits a t₀ k t)
    (hok : t₀.Ok) (hn : t₀.entry a = some n) (h1 : 1 ≤ n.toNat) :
    t.Ok ∧ t.entry a = left n k := by
  induction h with
  | start =>
    refine ⟨hok, ?_⟩
    rw [hn, left, if_pos (by omega)]
    simp
  | @hit k t t' l h hl hs ih =>
    refine ⟨(book_step ih.1 hs).1, ?_⟩
    have htables := tables_hit ih.1 hs hl
    have hfind := Tables.find?_hit t.world.globals.tables a
    rw [← htables] at hfind
    exact hfind.trans ((congrArg (Option.bind · _) ih.2).trans (left_succ n k))
  | @other k t t' l h hl hedit hs ih =>
    refine ⟨(book_step ih.1 hs).1, ?_⟩
    cases he : l.edits with
    | true => rw [hedit he, ih.2]
    | false => rw [entry_other ih.1 hs hl he, ih.2]

end Hits

/-! ## What a hit calls -/

theorem path_suspendHelper {e : Option EventType} {s s' : AppPc} {τ : List (Prog.Event drApi)}
    (h : (suspendHelper e s s').Path τ (.returned ())) :
    ∃ e' mc, e = some e' ∧ τ.map Sigma.fst = suspendHelperActs e' mc s s' := by
  obtain ⟨-, τ₁, rfl, mc, τ₂, rfl, h⟩ := h
  cases e with
  | none => cases h.2
  | some e =>
    obtain ⟨-, τ₃, rfl, -, τ₄, rfl, -, τ₅, rfl, -, τ₆, rfl, rfl, -⟩ := h
    exact ⟨e, mc, rfl, rfl⟩

theorem calls_suspendHelper {e : EventType} (mc : Mcontext) {s s' : AppPc} {os : List Op}
    (h : List.IsInfix (suspendHelperActs e mc s s') os) :
    Calls (suspendHelper (some e) s s') os := by
  refine ⟨[⟨.drGetCurrentDrcontext, ()⟩, ⟨.drGetMcontext drMcAll, mc⟩,
    ⟨.write (.stoppedContext (some (e, mc))), ()⟩, ⟨.write (.stoppedBlock (some (s, s'))), ()⟩,
    ⟨.drEventSignal, ()⟩, ⟨.drSleep 1000, ()⟩], ?_, h⟩
  exact ⟨(), _, rfl, mc, _, rfl, (), _, rfl, (), _, rfl, (), _, rfl, (), _, rfl, rfl, rfl⟩

/-- Without a signal there was no call of `suspend_helper`. -/
theorem drEventSignal_mem_of_calls {e : Option EventType} {s s' : AppPc} {os : List Op}
    (h : Calls (suspendHelper e s s') os) : Op.drEventSignal ∈ os := by
  obtain ⟨τ, hτ, hos⟩ := h
  obtain ⟨e', mc, -, hfst⟩ := path_suspendHelper hτ
  rw [hfst] at hos
  exact hos.subset (by simp [suspendHelperActs])

/-- Only the hit that takes the count to zero signals, for a stop event. -/
theorem drEventSignal_mem_hitActs {n? : Option SizeT} {mc : Mcontext} :
    Op.drEventSignal ∈ hitActs n? S a start endPc mc ↔
      n? = some 1 ∧ EventType.breakpoint ∈ S := by
  unfold hitActs
  cases n? with
  | none => simp
  | some n =>
    have hone : n - 1 = 0 ↔ n = 1 := by bv_omega
    by_cases hn : n - 1 = 0
    · by_cases he : EventType.breakpoint ∈ S <;>
        simp [suspendHelperActs, he, hone.mp hn]
    · have hne : n ≠ 1#64 := mt hone.mpr hn
      simp only [if_neg hn]
      simp [hne]

/-- For a stop event it calls `suspend_helper` once. -/
theorem calls_hitActs (mc : Mcontext) (hS : EventType.breakpoint ∈ S) :
    Calls (suspendHelper (some .breakpoint) start endPc) (hitActs (some 1) S a start endPc mc) ∧
      (hitActs (some 1) S a start endPc mc).count .drEventSignal = 1 := by
  have hacts : hitActs (some 1) S a start endPc mc =
      [.drMutexLock, .read, .write (.breakpoint a 0), .write (.eraseBreakpoint a), .read] ++
        (suspendHelperActs .breakpoint mc start endPc ++ [.drMutexUnlock]) := by
    simp [hitActs, hS]
  rw [hacts]
  refine ⟨calls_suspendHelper mc ⟨_, _, List.append_assoc _ _ _⟩, ?_⟩
  simp [suspendHelperActs]

/-- In every run, the hits of an address fire on its count. -/
theorem exact_firing {t₀ : Target} {n : SizeT} {k : ℕ}
    (ht₀ : t₀.ReachedBy .debug fun _ _ => True) (hn : t₀.entry a = some n) (h1 : 1 ≤ n.toNat)
    (h : AfterHits a t₀ k t) :
    (t.entry a = if k < n.toNat then some (n - BitVec.ofNat 64 k) else none) ∧
      ∀ u start endPc env t', t.step .debug
          (.callback u (.cleanCall (.updateFastforwardCount a start endPc)) env) = some t' →
        ∃ os, Acted t t' (.app u) (.cleanCall (.updateFastforwardCount a start endPc)) os ∧
          Fires a n k t t' start endPc os := by
  obtain ⟨hok, hleft⟩ := h.entry ht₀.ok hn h1
  refine ⟨hleft, fun u start endPc env t' hs => ?_⟩
  obtain ⟨S, hS⟩ := hok.runs (step_callback hs).1
  refine ⟨_, acted_hit hS hs, ?_⟩
  have htables := tables_hit (a := a) hok hs (by simp [Activity.hits])
  have hnext : t'.entry a = left n (k + 1) :=
    ((AfterHits.hit h (by simp [Activity.hits]) hs).entry ht₀.ok hn h1).2
  have hsuspends : (∃ e s s', Calls (suspendHelper e s s') (hitActs (t.entry a) S a start endPc
      { env.mcontext with flags := drMcAll })) → t.entry a = some 1 ∧ EventType.breakpoint ∈ S :=
    fun ⟨e, s, s', hcalls⟩ => drEventSignal_mem_hitActs.mp (drEventSignal_mem_of_calls hcalls)
  constructor
  · intro hk
    rw [hnext, left, if_pos hk]
  · rw [hnext, hleft, left_eq_none, ne_eq, left_eq_none]
    omega
  · rw [hS.stopEvents, ← left_eq_one, ← hleft]
    constructor
    · intro hcalls
      obtain ⟨hone, he⟩ := hsuspends hcalls
      exact ⟨hone, S, rfl, he⟩
    · rintro ⟨hone, S', hS', he⟩
      obtain rfl := Option.some.inj hS'
      rw [hone]
      exact ⟨_, _, _, (calls_hitActs _ he).1⟩
  · intro hcalls
    obtain ⟨hone, he⟩ := hsuspends hcalls
    rw [hone]
    exact calls_hitActs _ he
  · intro hk
    have hnone : t.entry a = none := hleft.trans (left_eq_none.mpr hk)
    refine ⟨htables.trans (Tables.hit_of_none hnone), ?_⟩
    rw [hnone]
    rfl
  · refine ⟨fun c hc => ?_, ?_⟩
    · have hfind := Tables.find?_hit_of_ne (t := t.world.globals.tables) hc
      rw [← htables] at hfind
      exact hfind
    · have hdeferred := Tables.hit_deferred t.world.globals.tables a
      rw [← htables] at hdeferred
      exact hdeferred

/-- A breakpoint at 16 with count 2, in an application that runs for its event. -/
def twoAhead : List Activity :=
  [.call (.addBreakpoint (absBreakpoint 16 2)) {}, .resume {.breakpoint}]

/-- A hit of 16 by the thread `u`. -/
def hit16 (u : ℕ) : Activity :=
  .callback u (.cleanCall (.updateFastforwardCount 16 16 20)) {}

theorem exact_firing_two :
    (after .debug [] (twoAhead ++ [hit16 1])).entry 16 = some 1 ∧
      ∃ os, Fires 16 2 1 (after .debug [] (twoAhead ++ [hit16 1]))
        (after .debug [] (twoAhead ++ [hit16 1, hit16 2])) 16 20 os := by
  have hafter : AfterHits 16 (after .debug [] twoAhead) 1
      (after .debug [] (twoAhead ++ [hit16 1])) :=
    .hit (l := hit16 1) .start rfl rfl
  have hfire := exact_firing (n := 2) (reachedBy_after .debug [] fun _ _ _ => trivial) rfl
    (by decide) hafter
  obtain ⟨os, -, hos⟩ := hfire.2 2 16 20 {} _ rfl
  exact ⟨hfire.1, os, hos⟩

end Target

end ConcreteEval
