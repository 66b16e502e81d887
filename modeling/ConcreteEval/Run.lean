import Mathlib.Logic.Relation

/-!
# Runs of a labelled system

A system is a partial step function `step : S → L → Option S` : the label says who moves
and how, and `none` that the move is not possible. `Moves step cond` is one step whose
state and label satisfy `cond`, and `Relation.ReflTransGen` of it the runs all of whose
steps do. An invariant of the steps that satisfy `cond` is an invariant of those runs
(`invariant_of_moves`), and a list of labels that can be taken one after the other is a
run (`moves_of_foldlM`, and `moves_of_checkedBy` where the condition can be checked on the way).

A history can be kept beside the state (`recording`). It restricts no run : the runs with a history
are the runs of the system (`exists_recording`, `moves_of_recording`), and an invariant of both is
proved step by step in the same way (`invariant_of_recording`).
-/

namespace ConcreteEval

variable {S L : Type} {step : S → L → Option S} {cond : S → L → Prop}

/-- One step that satisfies `cond`. -/
def Moves (step : S → L → Option S) (cond : S → L → Prop) (s s' : S) : Prop :=
  ∃ l, cond s l ∧ step s l = some s'

/-- A predicate of the start that every step satisfying `cond` keeps holds after every
run of such steps. -/
theorem invariant_of_moves {I : S → Prop} {s₀ s : S} (h₀ : I s₀)
    (hstep : ∀ s l s', I s → cond s l → step s l = some s' → I s')
    (h : Relation.ReflTransGen (Moves step cond) s₀ s) : I s := by
  induction h with
  | refl => exact h₀
  | tail _ hm ih =>
    obtain ⟨l, hc, hs⟩ := hm
    exact hstep _ l _ ih hc hs

/-- Dropping the condition on the steps. -/
theorem moves_mono {cond' : S → L → Prop} (hc : ∀ s l, cond s l → cond' s l) {s₀ s : S}
    (h : Relation.ReflTransGen (Moves step cond) s₀ s) :
    Relation.ReflTransGen (Moves step cond') s₀ s := by
  have hle : Moves step cond ≤ Moves step cond' := fun _ _ ⟨l, hl, hs⟩ => ⟨l, hc _ _ hl, hs⟩
  exact Relation.ReflTransGen.mono hle _ _ h

/-- Labels taken one after the other. -/
theorem moves_of_foldlM {ls : List L} {s₀ s : S} (hc : ∀ s, ∀ l ∈ ls, cond s l)
    (h : ls.foldlM step s₀ = some s) : Relation.ReflTransGen (Moves step cond) s₀ s := by
  induction ls generalizing s₀ with
  | nil =>
    obtain rfl : s₀ = s := by simpa using h
    exact Relation.ReflTransGen.refl
  | cons l ls ih =>
    rw [List.foldlM_cons, Option.bind_eq_bind, Option.bind_eq_some_iff] at h
    obtain ⟨s₁, hs, h⟩ := h
    have hrest := ih (fun s l' hl' => hc s l' (List.mem_cons_of_mem l hl')) h
    exact Relation.ReflTransGen.head ⟨l, hc s₀ l List.mem_cons_self, hs⟩ hrest

/-! ## Histories -/

section Recording

variable {H : Type} {next : H → S → L → S → H}

/-- The system with a history beside its state; `next` adds to it what a step has done. -/
def recording (step : S → L → Option S) (next : H → S → L → S → H) (r : S × H) (l : L) :
    Option (S × H) :=
  (step r.1 l).map fun s => (s, next r.2 r.1 l s)

theorem recording_eq_some {r r' : S × H} {l : L} (h : recording step next r l = some r') :
    step r.1 l = some r'.1 ∧ r'.2 = next r.2 r.1 l r'.1 := by
  obtain ⟨s, hs, rfl⟩ := Option.map_eq_some_iff.mp h
  exact ⟨hs, rfl⟩

theorem recording_of_step {s s' : S} {l : L} (h : step s l = some s') (k : H) :
    recording step next (s, k) l = some (s', next k s l s') :=
  congrArg (Option.map _) h

/-- A run with its history is a run. -/
theorem moves_of_recording {r r' : S × H} (h : Relation.ReflTransGen
      (Moves (recording step next) fun r l => cond r.1 l) r r') :
    Relation.ReflTransGen (Moves step cond) r.1 r'.1 := by
  refine Relation.ReflTransGen.lift Prod.fst ?_ _ _ h
  rintro r r' ⟨l, hc, hs⟩
  exact ⟨l, hc, (recording_eq_some hs).1⟩

/-- Every run has a history. -/
theorem exists_recording {s s' : S} (h : Relation.ReflTransGen (Moves step cond) s s') (k : H) :
    ∃ k', Relation.ReflTransGen (Moves (recording step next) fun r l => cond r.1 l)
      (s, k) (s', k') := by
  induction h with
  | refl => exact ⟨k, Relation.ReflTransGen.refl⟩
  | tail _ hm ih =>
    obtain ⟨l, hc, hs⟩ := hm
    obtain ⟨k', ih⟩ := ih
    exact ⟨_, ih.tail ⟨l, hc, recording_of_step hs k'⟩⟩

/-- What the start satisfies, and every step keeps with what it adds to the history, holds of the
state and the history after every run. -/
theorem invariant_of_recording {I : S → H → Prop} {s₀ s : S} {k₀ k : H} (h₀ : I s₀ k₀)
    (hstep : ∀ s k l s', Relation.ReflTransGen
      (Moves (recording step next) fun r l => cond r.1 l) (s₀, k₀) (s, k) →
        I s k → cond s l → step s l = some s' → I s' (next k s l s'))
    (h : Relation.ReflTransGen (Moves (recording step next) fun r l => cond r.1 l)
      (s₀, k₀) (s, k)) : I s k := by
  have hall : ∀ r, Relation.ReflTransGen (Moves (recording step next) fun r l => cond r.1 l)
      (s₀, k₀) r → I r.1 r.2 := by
    intro r hr
    induction hr with
    | refl => exact h₀
    | @tail r₁ r₂ h₁ hmove ih =>
      obtain ⟨l, hc, hs⟩ := hmove
      obtain ⟨hs, hnext⟩ := recording_eq_some hs
      rw [hnext]
      exact hstep r₁.1 r₁.2 l r₂.1 h₁ ih hc hs
  exact hall _ h

end Recording

/-! ## Checked runs -/

/-- A step that passes the check. -/
def checkedBy (c : S → L → Bool) (step : S → L → Option S) (s : S) (l : L) : Option S :=
  if c s l then step s l else none

/-- Labels taken one after the other, each past a check of the condition. -/
theorem moves_of_checkedBy {c : S → L → Bool} (hc : ∀ s l, c s l = true → cond s l) {ls : List L}
    {s₀ s : S} (h : ls.foldlM (checkedBy c step) s₀ = some s) :
    Relation.ReflTransGen (Moves step cond) s₀ s := by
  have hmoves : Relation.ReflTransGen (Moves (checkedBy c step) fun _ _ => True) s₀ s :=
    moves_of_foldlM (fun _ _ _ => trivial) h
  refine Relation.ReflTransGen.mono ?_ _ _ hmoves
  rintro s s' ⟨l, -, hs⟩
  unfold checkedBy at hs
  by_cases hl : c s l = true
  · rw [if_pos hl] at hs
    exact ⟨l, hc s l hl, hs⟩
  · rw [if_neg hl] at hs
    cases hs

end ConcreteEval
