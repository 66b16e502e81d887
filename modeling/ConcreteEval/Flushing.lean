import ConcreteEval.Locking
import ConcreteEval.Tables

/-!
# Flushing without the mutex

DR is to be asked for a flush only by a thread that does not hold the mutex (`FlushesFree`). The
discipline `holding` keeps whether a thread has the mutex; every operation follows it, ends without
the mutex unless a string constructor throws (`holding_prog`), and flushes without it. The one
exception is `delBreakpoint`, which erases an active breakpoint and flushes before it unlocks. So a
path flushes without the mutex just if it is not a deletion that finds the address of its
breakpoint active (`Operation.flushesFree_iff`).
-/

namespace ConcreteEval

/-! ## Holding the mutex -/

/-- Whether the thread has the mutex after an action. -/
def nextHeld (held : Bool) : (o : Op) → o.Reply → Bool
  | .drMutexLock, _ => true
  | .drMutexUnlock, _ => false
  | _, _ => held

/-- The discipline of not flushing with the mutex, unless `may` says that it may be done. -/
def holding (may : Prop) : Discipline drApi Bool :=
  ⟨fun held o => o = .drDelayFlushRegion → held = false ∨ may, fun _ _ _ => True, nextHeld⟩

/-- Raising is done without the mutex. -/
def RaisesFree (h : Halt) (held : Bool) : Prop :=
  ∀ msg, h = .thrown (.exception msg) → held = false

section Holding

variable {may : Prop}

theorem holding_admits (held : Bool) (τ : List (Prog.Event drApi)) :
    (holding may).Admits held τ := by
  induction τ generalizing held with
  | nil => trivial
  | cons e τ ih => exact ⟨trivial, ih _⟩

theorem holding_plain {held : Bool} {o : Op} (ho : o.isPlain = true) :
    (holding may).Stays held o := by
  constructor
  · rintro rfl
    cases ho
  · intro r
    cases o <;> first | rfl | cases ho

theorem holding_locks (may : Prop) : (holding may).Locks false true where
  lock := ⟨nofun, fun _ => rfl⟩
  unlock := ⟨nofun, fun _ => rfl⟩
  plainFree _ ho := holding_plain ho
  plainLocked _ ho := holding_plain ho
  flush := ⟨fun _ => Or.inl rfl, fun _ => rfl⟩

theorem raisesFree_fault (f : Fault) (held : Bool) : RaisesFree (.fault f) held :=
  nofun

theorem raisesFree_free (msg : CxxString) : RaisesFree (.thrown (.exception msg)) false :=
  fun _ _ => rfl

theorem holding_suspendApplicationThreads {b : Build} {ok : Unit → Bool → Prop}
    (hok : ok () false) :
    (suspendApplicationThreads b).Follows (holding may) ok RaisesFree false := by
  refine Prog.follows_bind.mpr (follows_cassert_stay raisesFree_fault ?_
    (follows_stay (holding_plain rfl) fun g => rfl))
  refine follows_stay (holding_plain rfl) fun _ => .step nofun fun c _ => ?_
  exact follows_drAssert_stay raisesFree_fault fun _ => hok

theorem holding_resumeApplicationThreads {b : Build} {ok : Unit → Bool → Prop}
    (hok : ok () false) :
    (resumeApplicationThreads b).Follows (holding may) ok RaisesFree false := by
  refine Prog.follows_bind.mpr (follows_cassert_stay raisesFree_fault ?_
    (follows_stay (holding_plain rfl) fun g => rfl))
  refine follows_stay (holding_plain rfl) fun _ => follows_stay (holding_plain rfl) fun _ => ?_
  refine Prog.follows_bind.mpr (follows_cassert_stay raisesFree_fault
    (follows_stay (f := .ret) (holding_plain rfl) fun _ => hok) ?_)
  refine follows_stay (holding_plain rfl) fun g => ?_
  cases g.suspendParams with
  | none => exact raisesFree_fault _ _
  | some params => exact ⟨nofun, fun _ _ => rfl⟩

theorem holding_executeUntilEvent (b : Build) (S : EventTypes) :
    (executeUntilEvent b S).Follows (holding may) (fun _ held => held = false) RaisesFree
      false := by
  have hraise := fun msg ok => follows_raise_unlock (holding_locks may) raisesFree_free
    msg ok
  refine Prog.follows_bind.mpr (follows_stay (holding_plain rfl) fun _ =>
    follows_lock (holding_locks may) (follows_stay (holding_plain rfl) fun g =>
      follows_check (fun _ => ?_) (hraise _ _)))
  refine follows_unlock (holding_locks may) (Prog.follows_bind.mpr ?_)
  refine follows_totalFlush_stay raisesFree_fault (fun _ => (holding_locks may).flush) ?_
  refine holding_resumeApplicationThreads (.step nofun fun _ _ => Prog.follows_bind.mpr ?_)
  refine holding_suspendApplicationThreads (follows_stay (holding_plain rfl) fun g => ?_)
  refine follows_check (fun hc => ?_) ⟨nofun, fun _ _ _ _ => rfl⟩
  obtain ⟨c, hc⟩ := Option.isSome_iff_exists.mp hc
  rw [hc]
  exact rfl

/-- Every operation ends without the mutex unless a string constructor throws, and only
`delBreakpoint` flushes with it. -/
theorem holding_prog {b : Build} {op : Operation}
    (hmay : b = .debug → (∃ bp, op = .delBreakpoint bp) → may) :
    (op.prog b).Follows (holding may) (fun _ held => held = false) RaisesFree false := by
  by_cases hstart : op = .serverThread
  · subst hstart
    exact Prog.follows_bind.mpr (holding_suspendApplicationThreads rfl)
  · by_cases hexec : ∃ S, op = .executeUntilEvent S
    · obtain ⟨S, rfl⟩ := hexec
      exact Prog.follows_bind.mpr (holding_executeUntilEvent b S)
    · exact locks_prog raisesFree_fault (holding_locks may) raisesFree_free
        (fun hb hop => ⟨fun _ => Or.inr (hmay hb hop), fun _ => rfl⟩)
        (fun _ _ => ⟨nofun, fun _ => rfl, nofun⟩) hstart fun S h => hexec ⟨S, h⟩

end Holding

/-! ## Flushes on a path -/

/-- Every flush on the path is asked for without the mutex; `held` is whether the thread has it at
the start. -/
def FlushesFree : Bool → List (Prog.Event drApi) → Prop
  | _, [] => True
  | _, ⟨.drMutexLock, _⟩ :: τ => FlushesFree true τ
  | _, ⟨.drMutexUnlock, _⟩ :: τ => FlushesFree false τ
  | held, ⟨.drDelayFlushRegion, _⟩ :: τ => held = false ∧ FlushesFree held τ
  | held, _ :: τ => FlushesFree held τ

/-- The discipline says of a path whether it flushes without the mutex. -/
theorem flushesFree_of_allows {held : Bool} {τ : List (Prog.Event drApi)}
    (h : (holding False).Allows held τ) : FlushesFree held τ := by
  induction τ generalizing held with
  | nil => trivial
  | cons e τ ih =>
    obtain ⟨o, r⟩ := e
    obtain ⟨ho, h⟩ := h
    cases o with
    | drDelayFlushRegion => exact ⟨(ho rfl).resolve_right id, ih h⟩
    | _ => exact ih h

/-- The address that `a` stands for on a path, where the lookup of its module, if there is one,
comes first. -/
def locatedOn (a : AbsOrRelAddr) : List (Prog.Event drApi) → Option AppPc
  | ⟨.drLookupModuleByName _, some m⟩ :: _ => (m.resolve a.reladdr).toOption
  | _ => if a.isset.absaddr then some a.absaddr else none

/-- On the path the address of the breakpoint is found to be active. -/
def FindsActive (bp : WireBreakpoint) (τ : List (Prog.Event drApi)) : Prop :=
  ∃ addr g, locatedOn bp.1.addr τ = some addr ∧ ⟨Op.read, g⟩ ∈ τ ∧
    (g : Globals).breakpoints.find? addr ≠ none

section Paths

variable {α β : Type} {τ : List (Prog.Event drApi)}

/-- A check made with the mutex passes, or the mutex is unlocked and nothing follows. -/
theorem path_check {c : Bool} {msg : CxxString} {f : Unit → Dr α} {x : Prog.Ending Halt α}
    (h : ((assertHelper c msg true).bind f).Path τ x) :
    (c = true ∧ (f ()).Path τ x) ∨ c = false ∧ ∃ r, τ = [⟨.drMutexUnlock, r⟩] := by
  cases c with
  | true => exact Or.inl ⟨rfl, h⟩
  | false =>
    obtain ⟨r, τ', rfl, rfl, -⟩ := h
    exact Or.inr ⟨rfl, r, rfl⟩

/-- A check made without the mutex passes, or nothing follows. -/
theorem path_check_free {c : Bool} {msg : CxxString} {f : Unit → Dr α} {x : Prog.Ending Halt α}
    (h : ((assertHelper c msg false).bind f).Path τ x) :
    (c = true ∧ (f ()).Path τ x) ∨ c = false ∧ τ = [] ∧ ∃ e, x = .stopped e := by
  cases c with
  | true => exact Or.inl ⟨rfl, h⟩
  | false =>
    obtain ⟨rfl, rfl⟩ := h
    exact Or.inr ⟨rfl, rfl, _, rfl⟩

theorem path_resolveOffset {m : Module} {reladdr : RelAddr} {x : Prog.Ending Halt AppPc}
    (h : (resolveOffset m reladdr false).Path τ x) :
    τ = [] ∧ ∀ addr, x = .returned addr → m.resolve reladdr = .ok addr := by
  unfold resolveOffset at h
  unfold Module.resolve
  by_cases ho : reladdr.offset.isset.offset = true
  · rw [if_pos ho] at h ⊢
    obtain ⟨rfl, rfl⟩ := h
    exact ⟨rfl, fun addr hx => by rw [Prog.Ending.returned.inj hx]⟩
  · rw [if_neg ho] at h ⊢
    by_cases hs : reladdr.offset.isset.symbol = true
    · rw [if_pos hs] at h ⊢
      rcases path_check_free h with ⟨hr, rfl, rfl⟩ | ⟨-, rfl, e, rfl⟩
      · exact ⟨rfl, fun addr hx => by
          rw [if_pos (of_decide_eq_true hr), Prog.Ending.returned.inj hx]⟩
      · exact ⟨rfl, nofun⟩
    · rw [if_neg hs] at h
      obtain ⟨rfl, rfl⟩ := h
      exact ⟨rfl, nofun⟩

/-- Resolving an address looks its module up, if it has one, and nothing else. -/
theorem path_absOrRelAddrToAbsAddr {a : AbsOrRelAddr} {x : Prog.Ending Halt (Option AppPc)}
    (h : (absOrRelAddrToAbsAddr a false).Path τ x) :
    (τ = [] ∨ ∃ name m, τ = [⟨.drLookupModuleByName name, m⟩]) ∧
      ∀ addr, x = .returned addr → ∀ r τ', locatedOn a (τ ++ ⟨.drMutexLock, r⟩ :: τ') = addr := by
  unfold absOrRelAddrToAbsAddr at h
  by_cases habs : a.isset.absaddr = true
  · rw [if_pos habs] at h
    obtain ⟨rfl, rfl⟩ := h
    refine ⟨Or.inl rfl, fun addr hx r τ' => ?_⟩
    rw [← Prog.Ending.returned.inj hx]
    simp [locatedOn, habs]
  · rw [if_neg habs] at h
    by_cases hrel : a.isset.reladdr = true
    · rw [if_pos hrel] at h
      obtain ⟨moddata, τ₁, rfl, h⟩ := h
      cases moddata with
      | none =>
        obtain ⟨rfl, rfl⟩ := h
        refine ⟨Or.inr ⟨_, _, rfl⟩, fun addr hx r τ' => ?_⟩
        rw [← Prog.Ending.returned.inj hx]
        simp [locatedOn, habs]
      | some m =>
        have h : ((resolveOffset m a.reladdr false).bind fun r => .ret (some r)).Path τ₁ x := h
        rcases Prog.path_bind.mp h with ⟨addr, τ₂, τ₃, rfl, h₂, rfl, rfl⟩ | ⟨e, rfl, h₂⟩
        · obtain ⟨rfl, hres⟩ := path_resolveOffset h₂
          refine ⟨Or.inr ⟨_, _, rfl⟩, fun addr' hx r τ' => ?_⟩
          rw [← Prog.Ending.returned.inj hx]
          simp [locatedOn, hres addr rfl, Except.toOption]
        · obtain ⟨rfl, -⟩ := path_resolveOffset h₂
          exact ⟨Or.inr ⟨_, _, rfl⟩, nofun⟩
    · rw [if_neg hrel] at h
      obtain ⟨rfl, rfl⟩ := h
      exact ⟨Or.inl rfl, nofun⟩

/-- A lookup in front changes nothing of the flushes, and nothing of what is read. -/
theorem flushesFree_append (τ' : List (Prog.Event drApi))
    (h : τ = [] ∨ ∃ name m, τ = [⟨.drLookupModuleByName name, m⟩]) :
    (FlushesFree false (τ ++ τ') ↔ FlushesFree false τ') ∧
      ∀ g, (⟨.read, g⟩ : Prog.Event drApi) ∈ τ ++ τ' ↔ ⟨.read, g⟩ ∈ τ' := by
  rcases h with rfl | ⟨name, m, rfl⟩
  · exact ⟨Iff.rfl, fun g => Iff.rfl⟩
  · exact ⟨Iff.rfl, fun g => by simp⟩

/-- A deletion flushes with the mutex just if it finds its address active. -/
theorem path_delBreakpoint {bp : WireBreakpoint} {x : Prog.Ending Halt Unit}
    (h : (delBreakpoint .debug bp).Path τ x) : FlushesFree false τ ↔ ¬FindsActive bp τ := by
  rcases Prog.path_bind.mp h with ⟨addr, τ₁, τ₂, rfl, h₁, r, τ₃, rfl, h₂⟩ | ⟨e, rfl, h₁⟩
  · obtain ⟨hτ₁, hloc⟩ := path_absOrRelAddrToAbsAddr h₁
    obtain ⟨hfree, hread⟩ := flushesFree_append (⟨.drMutexLock, r⟩ :: τ₃) hτ₁
    unfold FindsActive
    rw [hfree, hloc addr rfl]
    simp only [hread]
    cases addr with
    | some addr =>
      obtain ⟨g, τ₄, rfl, h₂⟩ := h₂
      rcases path_check h₂ with ⟨hc, r', τ₅, rfl, h₃⟩ | ⟨hc, r', rfl⟩
      · have hactive : g.breakpoints.find? addr ≠ none := by
          simpa [StdMap.count_eq_zero] using hc
        have hflush : ∃ r'' τ₆, τ₅ = ⟨.drDelayFlushRegion, r''⟩ :: τ₆ := by
          have h₃ : ((totalFlush .debug).bind fun _ => drMutexUnlock).Path τ₅ x := h₃
          rcases Prog.path_bind.mp h₃ with ⟨u, τ₆, τ₇, rfl, h₄, -⟩ | ⟨e, -, h₄⟩
          · obtain ⟨r'', τ₈, rfl, -⟩ := h₄
            exact ⟨r'', _, rfl⟩
          · obtain ⟨r'', τ₈, rfl, -⟩ := h₄
            exact ⟨r'', _, rfl⟩
        obtain ⟨r'', τ₆, rfl⟩ := hflush
        constructor
        · rintro ⟨hheld, -⟩
          cases hheld
        · intro hn
          exact absurd ⟨addr, g, rfl, by simp, hactive⟩ hn
      · have hnone : g.breakpoints.find? addr = none := by
          simpa [StdMap.count_eq_zero] using hc
        refine ⟨fun _ => ?_, fun _ => trivial⟩
        rintro ⟨addr', g', haddr, hg, hactive⟩
        obtain rfl := Option.some.inj haddr
        obtain rfl : g' = g := by simpa using hg
        exact hactive hnone
    | none =>
      have hnone : ¬∃ addr g, (none : Option AppPc) = some addr ∧
          ⟨Op.read, g⟩ ∈ ⟨Op.drMutexLock, r⟩ :: τ₃ ∧
            (g : Globals).breakpoints.find? addr ≠ none := by
        rintro ⟨addr, g, haddr, -⟩
        cases haddr
      refine ⟨fun _ => hnone, fun _ => ?_⟩
      rcases path_check h₂ with ⟨-, g, τ₄, rfl, h₃⟩ | ⟨-, r', rfl⟩
      · rcases path_check h₃ with ⟨-, r', τ₅, rfl, h₄⟩ | ⟨-, r', rfl⟩
        · obtain ⟨r'', τ₆, rfl, rfl, -⟩ := h₄
          trivial
        · trivial
      · trivial
  · obtain ⟨hτ, -⟩ := path_absOrRelAddrToAbsAddr h₁
    obtain ⟨hfree, hread⟩ := flushesFree_append [] hτ
    rw [List.append_nil] at hfree hread
    refine ⟨fun _ => ?_, fun _ => hfree.mpr trivial⟩
    rintro ⟨addr, g, -, hg, -⟩
    exact List.not_mem_nil ((hread g).mp hg)

end Paths

/-- A path flushes without the mutex just if it is not a deletion that finds the address of its
breakpoint active, in a build with `assert`. -/
theorem Operation.flushesFree_iff {b : Build} {op : Operation} {τ : List (Prog.Event drApi)}
    {x : Prog.Ending Halt Result} (h : (op.prog b).Path τ x) :
    FlushesFree false τ ↔
      ∀ bp, b = .debug → op = .delBreakpoint bp → ¬FindsActive bp τ := by
  by_cases hdel : b = .debug ∧ ∃ bp, op = .delBreakpoint bp
  · obtain ⟨rfl, bp, rfl⟩ := hdel
    have hpath : ∃ x, (ConcreteEval.delBreakpoint .debug bp).Path τ x := by
      rcases Prog.path_bind.mp h with ⟨a, τ₁, τ₂, rfl, h, rfl, -⟩ | ⟨e, -, h⟩
      · exact ⟨_, by rwa [List.append_nil]⟩
      · exact ⟨_, h⟩
    obtain ⟨x, hpath⟩ := hpath
    rw [path_delBreakpoint hpath]
    refine ⟨fun hn bp' _ hop => ?_, fun hn => hn bp rfl rfl⟩
    obtain rfl := Operation.delBreakpoint.inj hop
    exact hn
  · have hfollows : (op.prog b).Follows (holding False) (fun _ held => held = false) RaisesFree
        false :=
      holding_prog fun hb hop => hdel ⟨hb, hop⟩
    have hallows := (Discipline.follows_path hfollows h (holding_admits _ _)).1
    refine ⟨fun _ bp hb hop => absurd ⟨hb, bp, hop⟩ hdel, fun _ => ?_⟩
    exact flushesFree_of_allows hallows

/-- A breakpoint at 16 is active, in a suspended application. -/
def activeWorld : World where
  globals := { suspendParams := some ⟨0, 0⟩, breakpoints := StdMap.assign ∅ 16 1 }
  suspended := true

/-- What deleting the breakpoint at an address does there. -/
def deleteTrace (addr : AbsAddr) : List (Prog.Event drApi) :=
  ((Operation.delBreakpoint (absBreakpoint addr 1)).prog .debug).trace
    (fun o w => w.perform {} .server o) activeWorld

theorem flushesFree_iff_inactive :
    FlushesFree false (deleteTrace 32) ↔
      ∀ bp, Build.debug = .debug →
        Operation.delBreakpoint (absBreakpoint 32 1) = .delBreakpoint bp →
        ¬FindsActive bp (deleteTrace 32) :=
  Operation.flushesFree_iff (Prog.path_trace rfl)

/-- Deleting an active breakpoint flushes with the mutex. -/
theorem not_flushesFree :
    ¬∀ (b : Build) (op : Operation) (τ : List (Prog.Event drApi)) (x : Prog.Ending Halt Result),
      (op.prog b).Path τ x → FlushesFree false τ := by
  intro h
  have hpath : ((Operation.delBreakpoint (absBreakpoint 16 1)).prog .debug).Path (deleteTrace 16)
      (.returned .void) := Prog.path_trace rfl
  have hfree := h _ _ _ _ hpath
  have htrace : deleteTrace 16 = [⟨.drMutexLock, ()⟩, ⟨.read, activeWorld.globals⟩,
      ⟨.write (.eraseBreakpoint 16), ()⟩, ⟨.drDelayFlushRegion, true⟩, ⟨.drMutexUnlock, ()⟩] := rfl
  rw [htrace] at hfree
  cases hfree.1

end ConcreteEval
