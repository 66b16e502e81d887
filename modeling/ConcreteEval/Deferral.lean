import ConcreteEval.Loading
import ConcreteEval.Locking
import ConcreteEval.Suspension

/-!
# Deferred means not loaded

A breakpoint is deferred by `addBreakpoint` alone, after a lookup that does not find its module; and
as long as the call lasts the application is suspended, so that no module comes or goes
(`deferring`). When the module is loaded, the thread of the load event finds the entry in its look
at the globals, and erases it before the event ends (`activating`).

So an entry that waits for a loaded module has a thread in a load event that has yet to erase it
(`Machine.Activating`), in every state that is reached : where no load event is in progress, no
deferred breakpoint names a loaded module (`Machine.deferred_not_loaded`).
-/

namespace ConcreteEval

/-- Whether the action makes an entry of `deferred_breakpoints`. -/
def Op.defers : Op → Bool
  | .write (.deferredBreakpoint _ _) => true
  | _ => false

/-! ## Clean calls and callbacks -/

/-- How far a load event is with an entry. -/
inductive Activation
  /-- Ahead of the look at the globals. -/
  | ahead
  /-- The look has found the entry. -/
  | found
  /-- The entry has been erased, or there was none. -/
  | erased
  deriving DecidableEq

/-- How far the load event is with the entry of `k` after an action. -/
def Activation.next (k : DeferredKey) : Activation → (o : Op) → o.Reply → Activation
  | .ahead, .read, g => if (g : Globals).deferredBreakpoints.find? k = none then .erased else .found
  | l, .write (.eraseDeferredBreakpoint ra), _ => if SameKey ra k then .erased else l
  | l, _, _ => l

/-- The discipline of deferring no breakpoint, with the entry of `k` in view. -/
def activating (k : DeferredKey) : Discipline drApi Activation :=
  ⟨fun _ o => o.defers = false, fun _ _ _ => True, Activation.next k⟩

/-- The load event of the module of `k` ends with the entry erased. -/
def Operation.Erases (op : Operation) (k : DeferredKey) (l : Activation) : Prop :=
  ∀ m, op = .eventModuleLoaded m → m.preferredName = k.1.modulename → l = .erased

section Activating

variable {k : DeferredKey} {l : Activation} {α β : Type}

/-- `p` defers no breakpoint. -/
def NeverDefers (k : DeferredKey) (p : Dr α) : Prop :=
  ∀ l, p.Follows (activating k) (fun _ _ => True) (fun _ _ => True) l

theorem NeverDefers.ret (a : α) : NeverDefers k (.ret a) :=
  fun _ => trivial

theorem NeverDefers.stop (e : Halt) : NeverDefers k (.stop e : Dr α) :=
  fun _ => trivial

theorem NeverDefers.bind {p : Dr α} {f : α → Dr β} (hp : NeverDefers k p)
    (hf : ∀ a, NeverDefers k (f a)) : NeverDefers k (p.bind f) :=
  fun l => Prog.Follows.bind (hp l) fun a l _ => hf a l

theorem NeverDefers.step {o : Op} {f : o.Reply → Dr α} (ho : o.defers = false)
    (hf : ∀ r, NeverDefers k (f r)) : NeverDefers k ((Prog.act o .ret : Dr o.Reply).bind f) :=
  fun _ => Prog.Follows.step ho fun r _ => hf r _

/-- A single action. -/
theorem NeverDefers.single {o : Op} (ho : o.defers = false) :
    NeverDefers k (.act o .ret : Dr o.Reply) :=
  .step (f := .ret) ho fun r => .ret r

theorem neverDefers_cassert (b : Build) {e : Dr Bool} (he : NeverDefers k e) :
    NeverDefers k (cassert b e) := by
  cases b with
  | debug =>
    refine .bind he fun c => ?_
    cases c with
    | true => exact .ret ()
    | false => exact .stop _
  | ndebug => exact .ret ()

theorem neverDefers_totalFlush (b : Build) : NeverDefers k (totalFlush b) :=
  neverDefers_cassert b (.single rfl)

theorem neverDefers_stopEventsCount (e : EventType) : NeverDefers k (stopEventsCount e) := by
  refine .step rfl fun g => ?_
  cases g.stopEvents with
  | none => exact .stop _
  | some S => exact .ret _

theorem neverDefers_suspendHelper (e : EventType) (start endPc : AppPc) :
    NeverDefers k (suspendHelper (some e) start endPc) :=
  .step rfl fun _ => .step rfl fun _ => .step rfl fun _ => .step rfl fun _ => .step rfl fun _ =>
    .single rfl

theorem neverDefers_updateFastforwardCount (b : Build) (addr start endPc : AppPc) :
    NeverDefers k (updateFastforwardCount b addr start endPc) := by
  refine .step rfl fun _ => .step rfl fun g => ?_
  cases g.breakpoints.find? addr with
  | none => exact .step rfl fun _ => neverDefers_totalFlush b
  | some n =>
    refine .step rfl fun _ => ?_
    by_cases hn : n - 1 = 0
    · simp only [hn]
      refine .step rfl fun _ => .bind (neverDefers_stopEventsCount _) fun c => ?_
      cases c with
      | true => exact .bind (neverDefers_suspendHelper _ _ _) fun _ => .single rfl
      | false => exact .single rfl
    · simp only [hn]
      exact .single rfl

theorem neverDefers_relevantBlockCleanCall (start endPc : AppPc) :
    NeverDefers k (relevantBlockCleanCall start endPc) := by
  refine .bind (neverDefers_stopEventsCount _) fun c => ?_
  cases c with
  | true => exact neverDefers_suspendHelper _ _ _
  | false => exact .ret ()

theorem neverDefers_eventBasicBlock (bb : List Instr) : NeverDefers k (eventBasicBlock bb) := by
  unfold eventBasicBlock
  cases bb.head? with
  | none => exact .stop _
  | some first =>
    cases bb.getLast? with
    | none => exact .stop _
    | some last =>
      refine .step rfl fun _ => .step rfl fun g => .bind (neverDefers_stopEventsCount _) fun c => ?_
      refine .step rfl fun _ => ?_
      cases c <;> exact .ret _

theorem activation_next {o : Op} (hr : o ≠ .read)
    (he : ∀ ra, o ≠ .write (.eraseDeferredBreakpoint ra))
    (r : o.Reply) : Activation.next k l o r = l := by
  cases o with
  | read => exact absurd rfl hr
  | write x =>
    cases x with
    | eraseDeferredBreakpoint ra => exact absurd rfl (he ra)
    | _ => cases l <;> rfl
  | _ => cases l <;> rfl

theorem activation_next_erase (ra : DeferredKey) :
    Activation.next k l (.write (.eraseDeferredBreakpoint ra)) () =
      if SameKey ra k then .erased else l := by
  cases l <;> rfl

theorem activating_stays {o : Op} (hd : o.defers = false) (hr : o ≠ .read)
    (he : ∀ ra, o ≠ .write (.eraseDeferredBreakpoint ra)) : (activating k).Stays l o :=
  ⟨hd, activation_next hr he⟩

theorem activating_lookup (name : CxxString) :
    (activating k).Stays l (.drLookupModuleByName name) :=
  activating_stays rfl nofun nofun

theorem activating_breakpoint (addr : AppPc) (n : SizeT) :
    (activating k).Stays l (.write (.breakpoint addr n)) :=
  activating_stays rfl nofun nofun

/-- The first loop of `event_module_loaded` collects the keys of the module. -/
theorem activating_activateDeferred (m : Module) (ps : List (DeferredKey × SizeT))
    (toDelete : List DeferredKey) :
    (activateDeferred m ps toDelete).Follows (activating k)
      (fun ks l' => l' = l ∧ ks = World.collect m ps toDelete) (fun _ _ => True) l := by
  induction ps generalizing toDelete with
  | nil => exact ⟨rfl, rfl⟩
  | cons p ps ih =>
    rw [activateDeferred, World.collect]
    split_ifs
    · refine Prog.Follows.bind (follows_absOrRelAddrToAbsAddr
        activating_lookup fun _ _ => ⟨rfl, fun _ _ => trivial⟩) ?_
      rintro addr _ rfl
      refine Prog.follows_bind.mpr (follows_drAssert (fun ha => ?_) fun _ => trivial)
      obtain ⟨addr, rfl⟩ := Option.isSome_iff_exists.mp ha
      simp only [deref, Prog.bind_eq, Prog.ret_bind]
      refine Prog.follows_bind.mpr (follows_drAssert (fun _ => ?_) fun _ => trivial)
      exact follows_stay (activating_breakpoint _ _) fun _ => ih _
    · exact ih _

/-- The second loop erases the keys. -/
theorem activating_eraseDeferred (ks : List DeferredKey)
    (h : l = .erased ∨ ∃ ra ∈ ks, SameKey ra k) :
    (eraseDeferred ks).Follows (activating k) (fun _ l' => l' = .erased) (fun _ _ => True) l := by
  induction ks generalizing l with
  | nil =>
    rcases h with rfl | ⟨ra, hra, -⟩
    · exact rfl
    · cases hra
  | cons ra ks ih =>
    refine .step rfl fun _ _ => ih ?_
    change Activation.next k l (.write (.eraseDeferredBreakpoint ra)) () = _ ∨ _
    rw [activation_next_erase]
    by_cases hk : SameKey ra k
    · rw [if_pos hk]
      exact Or.inl rfl
    · rw [if_neg hk]
      refine h.imp_right fun ⟨ra', hra', hsame⟩ => ⟨ra', ?_, hsame⟩
      rcases List.mem_cons.mp hra' with rfl | hra'
      · exact absurd hsame hk
      · exact hra'

/-- The load event of a module erases what waits for it. -/
theorem activating_eventModuleLoaded (b : Build) (m : Module) :
    (eventModuleLoaded b m).Follows (activating k)
      (fun _ l => m.preferredName = k.1.modulename → l = .erased) (fun _ _ => True) .ahead := by
  refine follows_stay (activating_stays rfl nofun nofun) fun _ => .step rfl fun g _ => ?_
  refine Prog.Follows.bind (activating_activateDeferred m _ _) ?_
  rintro toDelete l ⟨rfl, rfl⟩
  by_cases hname : m.preferredName = k.1.modulename
  · refine Prog.Follows.bind (activating_eraseDeferred _ ?_) ?_
    · by_cases hk : g.deferredBreakpoints.find? k = none
      · exact Or.inl (if_pos hk)
      · obtain ⟨n, hn⟩ := Option.ne_none_iff_exists'.mp hk
        obtain ⟨p, hp, hsame, -⟩ := StdMap.exists_mem_of_find? hn
        have hp' := (DeferredKey.modulename_eq_of_sameKey hsame).symm.trans hname.symm
        obtain ⟨ra, hra, hsame'⟩ := World.exists_mem_collect hp hp' (s := [])
        exact Or.inr ⟨ra, hra, hsame'.trans hsame.symm⟩
    · rintro _ l rfl
      exact follows_stay (activating_stays rfl nofun nofun) fun _ _ => rfl
  · have hnever : ∀ ks : List DeferredKey, NeverDefers k (eraseDeferred ks) := by
      intro ks
      induction ks with
      | nil => exact .ret ()
      | cons ra ks ih => exact .step rfl fun _ => ih
    refine Prog.Follows.bind (hnever _ _) fun _ l _ => ?_
    exact .step rfl fun _ _ h => absurd h hname

/-- Every clean call and callback. -/
theorem activating_prog {b : Build} (op : Operation) (hop : op.isCallback = true) :
    (op.prog b).Follows (activating k) (fun _ l => op.Erases k l) (fun _ _ => True) .ahead := by
  have hnever : ∀ {p : Dr Result}, (∀ m, op ≠ .eventModuleLoaded m) → NeverDefers k p →
      p.Follows (activating k) (fun _ l => op.Erases k l) (fun _ _ => True) .ahead :=
    fun hne hp => (hp .ahead).mono (fun _ _ _ m h => absurd h (hne m)) fun _ _ h => h
  cases op with
  | cleanCall c =>
    cases c with
    | updateFastforwardCount addr start endPc =>
      exact hnever nofun
        (.bind (neverDefers_updateFastforwardCount b addr start endPc) fun _ => .ret _)
    | relevantBlockCleanCall start endPc =>
      exact hnever nofun (.bind (neverDefers_relevantBlockCleanCall start endPc) fun _ => .ret _)
  | eventModuleLoaded m =>
    refine Prog.Follows.bind (activating_eventModuleLoaded b m) fun _ l hl m' hm' => ?_
    obtain rfl := Operation.eventModuleLoaded.inj hm'
    exact hl
  | eventBasicBlock bb =>
    exact hnever nofun (.bind (neverDefers_eventBasicBlock bb) fun _ => .ret _)
  | _ => cases hop

end Activating

/-! ## Calls -/

/-- The name of the last lookup that found no module. -/
def missed : Option CxxString → (o : Op) → o.Reply → Option CxxString
  | _, .drLookupModuleByName name, none => some name
  | s, _, _ => s

/-- The discipline of deferring a breakpoint only after a lookup that does not find its module. -/
def deferring : Discipline drApi (Option CxxString) where
  allows s o := ∀ ra n, o = .write (.deferredBreakpoint ra n) → s = some ra.1.modulename.cStr
  admits _ _ _ := True
  next := missed

theorem deferring_stays {s : Option CxxString} {o : Op} (hd : o.defers = false)
    (hl : ∀ name, o ≠ .drLookupModuleByName name) : deferring.Stays s o := by
  refine ⟨fun ra n ho => ?_, fun r => ?_⟩
  · subst ho
    cases hd
  · cases o with
    | drLookupModuleByName name => exact absurd rfl (hl name)
    | _ => rfl

theorem deferring_assertHelper {c : Bool} {msg : CxxString} {u : Bool} {s : Option CxxString}
    {ok : Unit → Option CxxString → Prop} (hok : c = true → ok () s) :
    (assertHelper c msg u).Follows deferring ok (fun _ _ => True) s := by
  refine follows_assertHelper hok fun _ => ?_
  cases u with
  | true => exact ⟨nofun, fun _ _ => trivial⟩
  | false => trivial

/-- An address that is not resolved had its module looked up. -/
theorem deferring_absOrRelAddrToAbsAddr (a : AbsOrRelAddr) :
    (absOrRelAddrToAbsAddr a false).Follows deferring
      (fun addr s => addr = none → s = some a.reladdr.modulename.cStr) (fun _ _ => True) none := by
  unfold absOrRelAddrToAbsAddr
  by_cases habs : a.isset.absaddr = true
  · rw [if_pos habs]
    exact nofun
  · rw [if_neg habs]
    by_cases hrel : a.isset.reladdr = true
    · rw [if_pos hrel]
      refine ⟨nofun, fun moddata _ => ?_⟩
      cases moddata with
      | none => exact fun _ => rfl
      | some m =>
        have hres : (resolveOffset m a.reladdr false).Follows deferring (fun _ l' => l' = none)
            (fun _ _ => True) none :=
          follows_resolveOffset fun _ _ => trivial
        exact hres.bind fun _ _ _ => nofun
    · rw [if_neg hrel]
      trivial

/-- `addBreakpoint` defers the breakpoint under the name that it has looked up. -/
theorem deferring_addBreakpoint (bp : WireBreakpoint) :
    (addBreakpoint bp).Follows deferring (fun _ _ => True) (fun _ _ => True) none := by
  refine Prog.Follows.bind (deferring_absOrRelAddrToAbsAddr _) fun addr s hs => ?_
  refine follows_stay (deferring_stays rfl nofun) fun _ => ?_
  cases addr with
  | some addr =>
    refine follows_stay (deferring_stays rfl nofun) fun g => ?_
    refine Prog.follows_bind.mpr (deferring_assertHelper fun _ => ?_)
    exact follows_stay (deferring_stays rfl nofun) fun _ =>
      follows_stay (f := .ret) (deferring_stays rfl nofun) fun _ => trivial
  | none =>
    refine Prog.follows_bind.mpr (deferring_assertHelper fun _ => ?_)
    refine follows_stay (deferring_stays rfl nofun) fun g => ?_
    refine Prog.follows_bind.mpr (deferring_assertHelper fun _ => ?_)
    refine .step (fun ra n ho => ?_) fun _ _ =>
      follows_stay (f := .ret) (deferring_stays rfl nofun) fun _ => trivial
    obtain ⟨rfl, -⟩ : bp.reladdr = ra ∧ bp.1.count = n := by simpa using ho
    exact hs rfl

section Calls

variable {k : DeferredKey} {α : Type}

theorem NeverDefers.check {c : Bool} {msg : CxxString} {u : Bool} {f : Unit → Dr α}
    (hf : c = true → NeverDefers k (f ())) : NeverDefers k ((assertHelper c msg u).bind f) := by
  cases c with
  | true => exact hf rfl
  | false =>
    cases u with
    | true => exact .step rfl fun _ => .stop _
    | false => exact .stop _

theorem neverDefers_absOrRelAddrToAbsAddr (a : AbsOrRelAddr) (u : Bool) :
    NeverDefers k (absOrRelAddrToAbsAddr a u) := by
  intro l
  refine (follows_absOrRelAddrToAbsAddr activating_lookup
    fun msg ok => ?_).mono (fun _ _ _ => trivial) fun _ _ h => h
  cases u with
  | true => exact ⟨rfl, fun _ _ => trivial⟩
  | false => trivial

theorem neverDefers_delBreakpoint (b : Build) (bp : WireBreakpoint) :
    NeverDefers k (delBreakpoint b bp) := by
  refine .bind (neverDefers_absOrRelAddrToAbsAddr _ _) fun addr => .step rfl fun _ => ?_
  cases addr with
  | some addr =>
    refine .step rfl fun g => .check fun _ => .step rfl fun _ => ?_
    exact .bind (neverDefers_totalFlush b) fun _ => .single rfl
  | none =>
    exact .check fun _ => .step rfl fun g => .check fun _ => .step rfl fun _ => .single rfl

theorem neverDefers_getCodeBlock : NeverDefers k getCodeBlock := by
  refine .step rfl fun _ => .step rfl fun g => .check fun hb => ?_
  obtain ⟨block, hb⟩ := Option.isSome_iff_exists.mp hb
  rw [hb]
  refine .step rfl fun bytes => ?_
  cases bytes with
  | none => exact .stop _
  | some bytes => exact .step rfl fun _ => .step rfl fun _ => .ret _

theorem neverDefers_getContext : NeverDefers k getContext := by
  refine .step rfl fun _ => .step rfl fun g => .check fun hc => ?_
  obtain ⟨c, hc⟩ := Option.isSome_iff_exists.mp hc
  rw [hc]
  exact .step rfl fun _ => .ret _

theorem neverDefers_suspendApplicationThreads (b : Build) :
    NeverDefers k (suspendApplicationThreads b) := by
  refine .bind (neverDefers_cassert b (.step rfl fun g => .ret _)) fun _ => .step rfl fun _ => ?_
  refine .step rfl fun c => ?_
  cases c with
  | true => exact .ret ()
  | false => exact .stop _

theorem neverDefers_resumeApplicationThreads (b : Build) :
    NeverDefers k (resumeApplicationThreads b) := by
  refine .bind (neverDefers_cassert b (.step rfl fun g => .ret _)) fun _ => .step rfl fun _ =>
    .step rfl fun _ => .bind (neverDefers_cassert b (.step rfl fun g => ?_)) fun _ => .single rfl
  cases g.suspendParams with
  | none => exact .stop _
  | some params => exact .single rfl

theorem neverDefers_executeUntilEvent (b : Build) (S : EventTypes) :
    NeverDefers k (executeUntilEvent b S) := by
  refine .bind ?_ fun _ => .step rfl fun _ => .bind (neverDefers_suspendApplicationThreads b)
    fun _ => .step rfl fun g => .check fun hc => ?_
  · refine .step rfl fun _ => .step rfl fun _ => .step rfl fun g => .check fun _ => ?_
    exact .step rfl fun _ => .bind (neverDefers_totalFlush b) fun _ =>
      neverDefers_resumeApplicationThreads b
  · obtain ⟨c, hc⟩ := Option.isSome_iff_exists.mp hc
    rw [hc]
    exact .ret _

/-- No other operation of the server defers a breakpoint. -/
theorem neverDefers_prog {b : Build} {op : Operation} (hop : op.isCallback = false)
    (hadd : ∀ bp, op ≠ .addBreakpoint bp) : NeverDefers k (op.prog b) := by
  cases op with
  | serverThread => exact .bind (neverDefers_suspendApplicationThreads b) fun _ => .ret _
  | addBreakpoint bp => exact absurd rfl (hadd bp)
  | delBreakpoint bp => exact .bind (neverDefers_delBreakpoint b bp) fun _ => .ret _
  | getBreakpoints =>
    exact .step rfl fun _ => .step rfl fun _ => .step rfl fun _ => .ret _
  | executeUntilEvent S => exact .bind (neverDefers_executeUntilEvent b S) fun _ => .ret _
  | getCodeBlock => exact .bind neverDefers_getCodeBlock fun _ => .ret _
  | getContext => exact .bind neverDefers_getContext fun _ => .ret _
  | _ => cases hop

end Calls

/-! ## Entries of loaded modules -/

namespace World

variable {w w₁ : World} {env : Env} {a : Actor} {o : Op} {r : o.Reply} {k : DeferredKey}

/-- The modules come and go by DR alone. -/
theorem modules_answer (h : w.answer env a o = some (r, w₁)) : w₁.modules = w.modules := by
  rw [answer_eq h]
  cases o <;> rfl

theorem find?_of_erased {ra : DeferredKey} {u : Unit}
    (h : w.answer env a (.write (.eraseDeferredBreakpoint ra)) = some (u, w₁))
    (hsame : SameKey ra k) : w₁.globals.deferredBreakpoints.find? k = none := by
  rw [answer_eq h]
  exact (StdMap.find?_erase _ _ _).trans (if_pos hsame.symm)

/-- Where an entry of `deferred_breakpoints` can come from. -/
theorem deferred_answer (h : w.answer env a o = some (r, w₁))
    (hk : w₁.globals.deferredBreakpoints.find? k ≠ none) :
    (w.globals.deferredBreakpoints.find? k ≠ none ∧
        ∀ ra, o = .write (.eraseDeferredBreakpoint ra) → ¬SameKey ra k) ∨
      ∃ ra n, o = .write (.deferredBreakpoint ra n) ∧ SameKey k ra := by
  have herased : ∀ ra, o = .write (.eraseDeferredBreakpoint ra) → ¬SameKey ra k := by
    rintro ra rfl hsame
    exact hk (find?_of_erased h hsame)
  rw [answer_eq h] at hk
  cases o with
  | write x =>
    cases x with
    | deferredBreakpoint ra n =>
      by_cases hsame : SameKey k ra
      · exact Or.inr ⟨ra, n, rfl, hsame⟩
      · refine Or.inl ⟨?_, herased⟩
        rwa [← StdMap.find?_assign_of_not (v := n) hsame]
    | eraseDeferredBreakpoint ra =>
      have hsame : ¬SameKey k ra := fun hsame => herased ra rfl hsame.symm
      refine Or.inl ⟨?_, herased⟩
      rwa [← StdMap.find?_erase_of_not hsame]
    | _ => exact Or.inl ⟨hk, herased⟩
  | _ => exact Or.inl ⟨hk, herased⟩

/-- A thread that has yet to erase an entry has not done so if the entry is still there. -/
theorem next_ne_erased (h : w.answer env a o = some (r, w₁))
    (hk : w.globals.deferredBreakpoints.find? k ≠ none)
    (ho : ∀ ra, o = .write (.eraseDeferredBreakpoint ra) → ¬SameKey ra k) {l : Activation}
    (hl : l ≠ .erased) : Activation.next k l o r ≠ .erased := by
  by_cases hread : o = .read
  · subst hread
    obtain ⟨rfl, -⟩ := Prod.mk.inj (Option.some.inj h)
    cases l with
    | ahead =>
      change (if w.globals.deferredBreakpoints.find? k = none then _ else _) ≠ _
      rw [if_neg hk]
      simp
    | found => exact hl
    | erased => exact absurd rfl hl
  · by_cases herase : ∃ ra, o = .write (.eraseDeferredBreakpoint ra)
    · obtain ⟨ra, rfl⟩ := herase
      change Activation.next k l (.write (.eraseDeferredBreakpoint ra)) () ≠ _
      rw [activation_next_erase, if_neg (ho ra rfl)]
      exact hl
    · rw [activation_next hread fun ra hra => herase ⟨ra, hra⟩]
      exact hl

end World

namespace Machine

variable {m m' : Machine} {l : Label} {k : DeferredKey}

/-- A thread is in a load event of the module of `k`, and has yet to erase the entry. -/
def Activating (m : Machine) (k : DeferredKey) : Prop :=
  ∃ t M p l, m.running (.app t) = some (.eventModuleLoaded M, p) ∧
    M.preferredName = k.1.modulename ∧
    p.Follows (activating k) (fun _ l => l = .erased) (fun _ _ => True) l ∧ l ≠ .erased

/-- How the threads are with the breakpoints that wait. -/
structure Defers (m : Machine) : Prop where
  others : ∀ a op p, m.running a = some (op, p) → (a = .server → ∀ bp, op ≠ .addBreakpoint bp) →
    ∀ k, ∃ l, p.Follows (activating k) (fun _ _ => True) (fun _ _ => True) l
  adds : ∀ bp p, m.running .server = some (.addBreakpoint bp, p) →
    ∃ s, p.Follows deferring (fun _ _ => True) (fun _ _ => True) s ∧
      ∀ name, s = some name → ∀ M ∈ m.world.modules, M.preferredName ≠ name
  waits : ∀ k, m.world.globals.deferredBreakpoints.find? k ≠ none → ∀ M ∈ m.world.modules,
    M.preferredName = k.1.modulename → m.Activating k

theorem defers_boot (b : Build) (modules : List Module) : (boot b modules).Defers where
  others a op p h _ k := by
    cases a with
    | server =>
      obtain ⟨rfl, rfl⟩ : _ = op ∧ _ = p := by simpa [boot] using h
      exact ⟨.ahead, neverDefers_prog rfl (by simp) _⟩
    | app t => simp [boot] at h
  adds bp p h := by simp [boot] at h
  waits k h := absurd rfl h

/-- While a breakpoint is added the application is suspended. -/
theorem Reachable.suspended_of_add (hm : m.Reachable .debug) {bp : WireBreakpoint}
    {p : Dr Result} (h : m.running .server = some (.addBreakpoint bp, p)) :
    m.world.suspended = true := by
  obtain ⟨v, htr, hv, -⟩ := hm.view
  have hcall : v.call = some (.addBreakpoint bp) := by simp [htr.call, h]
  have hheld : v.stage.Held := by simpa [hcall, Stage.Of] using hv.call
  have hs := (hv.suspended_of_not_awake hheld.not_awake).1
  rwa [htr.world] at hs

/-- A load event that has begun erases what waits for its module. -/
theorem activating_of_running {b : Build} {t : ℕ} {M : Module}
    (h : m.running (.app t) = some (.eventModuleLoaded M, (Operation.eventModuleLoaded M).prog b))
    (hname : M.preferredName = k.1.modulename) : m.Activating k := by
  refine ⟨t, M, _, .ahead, h, hname, ?_, by simp⟩
  have hprog := activating_prog (b := b) (k := k) (.eventModuleLoaded M) rfl
  exact hprog.mono (fun _ l hl => hl M rfl hname)
    fun _ _ h => h

/-- The thread that is to erase the entry goes on, or another thread moves. -/
theorem Activating.acts {a : Actor} {op : Operation} {o : Op} {kont : o.Reply → Dr Result}
    {env : Env} {r : o.Reply} {w₁ : World} (h : m.Activating k)
    (hr : m.running a = some (op, .act o kont)) (ha : m.world.answer env a o = some (r, w₁))
    (hk : m.world.globals.deferredBreakpoints.find? k ≠ none)
    (ho : ∀ ra, o = .write (.eraseDeferredBreakpoint ra) → ¬SameKey ra k) (w : World) :
    (m.set w a (some (op, kont r))).Activating k := by
  obtain ⟨t, M, p, l, hrun, hname, hf, hl⟩ := h
  by_cases hta : a = .app t
  · subst hta
    obtain ⟨rfl, rfl⟩ := Prod.mk.inj (Option.some.inj (hrun.symm.trans hr))
    exact ⟨t, M, kont r, _, set_running_self .., hname, hf.2 r trivial,
      World.next_ne_erased ha hk ho hl⟩
  · exact ⟨t, M, p, l, (set_running_of_ne _ _ _ (Ne.symm hta)).trans hrun, hname, hf, hl⟩

/-- It is not a thread that starts or ends an operation. -/
theorem Activating.other (h : m.Activating k) {a : Actor} (w : World)
    {x : Option (Operation × Dr Result)}
    (ha : ∀ t M p l, a = .app t → m.running a = some (.eventModuleLoaded M, p) →
      p.Follows (activating k) (fun _ l => l = .erased) (fun _ _ => True) l → l = .erased) :
    (m.set w a x).Activating k := by
  obtain ⟨t, M, p, l, hrun, hname, hf, hl⟩ := h
  have hne : Actor.app t ≠ a := by
    rintro rfl
    exact hl (ha t M p l rfl hrun hf)
  exact ⟨t, M, p, l, (set_running_of_ne _ _ _ hne).trans hrun, hname, hf, hl⟩

/-- A thread acts. -/
theorem Defers.action (h : m.Defers) {a : Actor} {op : Operation} {o : Op}
    {kont : o.Reply → Dr Result} {env : Env} {r : o.Reply} {w₁ : World}
    (hr : m.running a = some (op, .act o kont)) (ha : m.world.answer env a o = some (r, w₁)) :
    (m.set (w₁.note (.did a o)) a (some (op, kont r))).Defers where
  others c op' p hrun hadd k := by
    by_cases hc : c = a
    · subst hc
      rw [set_running_self] at hrun
      obtain ⟨rfl, rfl⟩ := Prod.mk.inj (Option.some.inj hrun)
      obtain ⟨l, hf⟩ := h.others c op _ hr hadd k
      exact ⟨_, hf.2 r trivial⟩
    · rw [set_running_of_ne _ _ _ hc] at hrun
      exact h.others c op' p hrun hadd k
  adds bp p hrun := by
    have hmodules : (w₁.note (.did a o)).modules = m.world.modules :=
      (World.note_modules _ _).trans (World.modules_answer ha)
    rw [set_world, hmodules]
    by_cases hc : a = .server
    · subst hc
      rw [set_running_self] at hrun
      obtain ⟨rfl, rfl⟩ := Prod.mk.inj (Option.some.inj hrun)
      obtain ⟨s, hf, hs⟩ := h.adds bp _ hr
      refine ⟨_, hf.2 r trivial, fun name hname M hM => ?_⟩
      change missed s o r = some name at hname
      cases o with
      | drLookupModuleByName looked =>
        obtain ⟨rfl, -⟩ := Prod.mk.inj (Option.some.inj ha)
        cases hlook : m.world.modules.find? fun M => M.preferredName = looked with
        | none =>
          rw [hlook] at hname
          obtain rfl := Option.some.inj hname
          simpa using List.find?_eq_none.mp hlook M hM
        | some M' =>
          rw [hlook] at hname
          exact hs name hname M hM
      | _ => exact hs name hname M hM
    · rw [set_running_of_ne _ _ _ (Ne.symm hc)] at hrun
      exact h.adds bp p hrun
  waits k hk M hM hname := by
    rw [set_world, World.note_modules, World.modules_answer ha] at hM
    rcases World.deferred_answer ha hk with ⟨hk, ho⟩ | ⟨ra, n, rfl, hsame⟩
    · exact (h.waits k hk M hM hname).acts hr ha hk ho _
    · -- Only `addBreakpoint` defers, and its module is not loaded.
      by_cases hadd : a = .server → ∀ bp, op ≠ .addBreakpoint bp
      · obtain ⟨l, hf⟩ := h.others a op _ hr hadd k
        cases hf.1
      · obtain ⟨rfl, bp, rfl⟩ : a = .server ∧ ∃ bp, op = .addBreakpoint bp := by
          simpa using hadd
        obtain ⟨s, hf, hs⟩ := h.adds bp _ hr
        refine absurd ?_ (hs _ (hf.1 ra n rfl) M hM)
        rw [← DeferredKey.modulename_eq_of_sameKey hsame, ← hname, M.cStr_name]

theorem Defers.step (hm : m.Reachable .debug) (h : m.Defers) (hs : m.step .debug l = some m') :
    m'.Defers := by
  cases l with
  | start a op =>
    obtain ⟨hr, hstart, rfl⟩ := step_start hs
    refine ⟨fun c op' p hrun hadd k => ?_, fun bp p hrun => ?_, fun k hk M hM hname => ?_⟩
    · by_cases hc : c = a
      · subst hc
        rw [set_running_self] at hrun
        obtain ⟨rfl, rfl⟩ := Prod.mk.inj (Option.some.inj hrun)
        cases c with
        | server =>
          have hop : op.isCallback = false := by
            have hcall := (canStart_server hstart).1
            cases op <;> first | rfl | cases hcall
          exact ⟨.ahead, neverDefers_prog hop (hadd rfl) _⟩
        | app t =>
          exact ⟨.ahead, (activating_prog _ (canStart_app hstart).1).mono (fun _ _ _ => trivial)
            fun _ _ h => h⟩
      · rw [set_running_of_ne _ _ _ hc] at hrun
        exact h.others c op' p hrun hadd k
    · cases a with
      | server =>
        rw [set_running_self] at hrun
        obtain ⟨rfl, rfl⟩ := Prod.mk.inj (Option.some.inj hrun)
        exact ⟨none, Prog.Follows.bind (deferring_addBreakpoint bp) fun _ _ _ => trivial, nofun⟩
      | app t =>
        have hne : Actor.server ≠ .app t := nofun
        rw [set_running_of_ne _ _ _ hne] at hrun
        exact absurd (hm.suspended_of_add hrun) (by simp [(canStart_app hstart).2])
    · have hold : ∀ M ∈ m.world.modules, M.preferredName = k.1.modulename →
          (m.set ((m.world.enter op).note (.started a op)) a
            (some (op, op.prog .debug))).Activating k := by
        intro M hM hname
        refine (h.waits k (by simpa using hk) M hM hname).other _ fun t M' p l _ hrun => ?_
        cases hr.symm.trans hrun
      cases op with
      | eventModuleLoaded M' =>
        rcases List.mem_cons.mp hM with rfl | hM
        · cases a with
          | server => cases hstart
          | app t => exact activating_of_running (set_running_self ..) hname
        · exact hold M hM hname
      | _ => exact hold M hM hname
  | action a env =>
    obtain ⟨op, o, kont, r, w', hr, hp, rfl⟩ := step_action hs
    obtain ⟨-, w₁, ha, rfl⟩ := World.perform_eq_some hp
    exact h.action hr ha
  | finish a =>
    obtain ⟨op, p, x, hr, hx, rfl⟩ := step_finish hs
    have hrun : ∀ {c q}, (m.set (m.world.note (.ended a op x)) a none).running c = some q →
        m.running c = some q := by
      intro c q hq
      by_cases hc : c = a
      · subst hc
        rw [set_running_self] at hq
        cases hq
      · rwa [set_running_of_ne _ _ _ hc] at hq
    refine ⟨fun c op' p' hc => h.others c op' p' (hrun hc), fun bp p' hc => h.adds bp p' (hrun hc),
      fun k hk M hM hname => (h.waits k hk M hM hname).other _ ?_⟩
    rintro t M' p' l rfl hr' hf
    obtain ⟨rfl, rfl⟩ := Prod.mk.inj (Option.some.inj (hr.symm.trans hr'))
    cases p with
    | ret r => exact hf
    | stop e => cases (World.endingOf_app_stop t e).symm.trans hx
    | act o kont => cases hx
  | unload modinfo =>
    obtain ⟨-, rfl⟩ := step_unload hs
    refine ⟨h.others, fun bp p hrun => ?_, fun k hk M hM hname =>
      h.waits k hk M (List.mem_of_mem_erase hM) hname⟩
    obtain ⟨s, hf, hs⟩ := h.adds bp p hrun
    exact ⟨s, hf, fun name hname M hM => hs name hname M (List.mem_of_mem_erase hM)⟩

theorem Reachable.defers (hm : m.Reachable .debug) : m.Defers :=
  ReachedBy.invariant hm (defers_boot .debug) fun _ _ _ hm h _ hs => h.step hm.reachable hs

/-- Where no load event is in progress no deferred breakpoint names a loaded module, and a load
event that comes to its end activates exactly the breakpoints that wait for its module. -/
theorem deferred_not_loaded (hm : m.Reachable .debug) :
    ((∀ t M p, m.running (.app t) ≠ some (.eventModuleLoaded M, p)) →
      ∀ p ∈ m.world.globals.deferredBreakpoints.entries, ∀ M ∈ m.world.modules,
        M.preferredName ≠ p.1.1.modulename) ∧
    ∀ u M env x w',
      m.world.alone .debug env (.app u) (.eventModuleLoaded M) = some (x, w') →
      m.world.LoadsAll M w' := by
  refine ⟨fun hidle p hp M hM hname => ?_, fun u M env x w' hal => World.loadsAll_of_alone hal⟩
  have hfind : m.world.globals.deferredBreakpoints.find? p.1 ≠ none := by
    rw [StdMap.find?_of_mem hp]
    simp
  obtain ⟨t, M', q, l, hrun, -⟩ := hm.defers.waits p.1 hfind M hM hname
  exact hidle t M' q hrun

/-- Two breakpoints wait for their modules, and `lib` is loaded. -/
def loadedLib : Machine :=
  after .debug [] (startUp ++
    [.start .server (.addBreakpoint (relBreakpoint "lib".toList 8 1))] ++ actions .server 5 ++
    [.finish .server, .start .server (.addBreakpoint (relBreakpoint "other".toList 8 1))] ++
    actions .server 5 ++ [.finish .server] ++ resumes {} ++
    [.start (.app 1) (.eventModuleLoaded lib)] ++ actions (.app 1) 6 ++ [.finish (.app 1)])

theorem deferred_not_loaded_lib :
    loadedLib.world.modules = [lib] ∧ loadedLib.world.globals.breakpoints.entries = [(24, 1)] ∧
      loadedLib.world.globals.deferredBreakpoints.entries.length = 1 ∧
      ((∀ t M p, loadedLib.running (.app t) ≠ some (.eventModuleLoaded M, p)) →
        ∀ p ∈ loadedLib.world.globals.deferredBreakpoints.entries,
          ∀ M ∈ loadedLib.world.modules, M.preferredName ≠ p.1.1.modulename) ∧
      ∀ u M env x w',
        loadedLib.world.alone .debug env (.app u) (.eventModuleLoaded M) = some (x, w') →
        loadedLib.world.LoadsAll M w' :=
  ⟨rfl, rfl, rfl, deferred_not_loaded (reachable_after .debug [] _)⟩

end Machine

end ConcreteEval
