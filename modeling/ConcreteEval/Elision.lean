import ConcreteEval.Discipline

/-!
# Programs without their checks

A program next to what is left of it when its checks are compiled out.
`Elides keeps skips aborts p q` says that `q` does what `p` does : `p` performs the actions of
`q`, all of which satisfy `keeps`, and in between further actions, which satisfy `skips` and whose
replies `p` uses for nothing but to abort. It is shown along the two programs (`Elides.bind` goes
through a sequence).

If `p` runs alone, does not abort, and happens to perform only actions that satisfy `keeps`, then
`q` ends with the same in a world related to that of `p`, for every relation of worlds that the
actions respect (`Elides.exec`). An action that is only skipped is one that `q` never performs
(`Elides.within`).
-/

namespace ConcreteEval

/-- The discipline of performing only actions that satisfy `keeps`. -/
def Discipline.only {σ : Signature} (keeps : σ.Op → Prop) : Discipline σ Unit :=
  ⟨fun _ o => keeps o, fun _ _ _ => True, fun _ _ _ => ()⟩

namespace Prog

variable {σ : Signature} {ε α β W : Type} {keeps skips : σ.Op → Prop} {aborts : ε → Prop}

/-- Every action of `p` satisfies `keeps`. -/
def Within (keeps : σ.Op → Prop) (p : Prog σ ε α) : Prop :=
  p.Follows (.only keeps) (fun _ _ => True) (fun _ _ => True) ()

theorem Within.bind {p : Prog σ ε α} {f : α → Prog σ ε β} (h : p.Within keeps)
    (hf : ∀ a, (f a).Within keeps) : (p.bind f).Within keeps :=
  Follows.bind h fun a _ _ => hf a

theorem Within.trace {p : Prog σ ε α} (h : p.Within keeps)
    {answer : (o : σ.Op) → W → Option (σ.Reply o × W)} {w : W} :
    ∀ e ∈ p.trace answer w, keeps e.1 := by
  induction p generalizing w with
  | ret a => exact fun _ he => absurd he List.not_mem_nil
  | stop e => exact fun _ he => absurd he List.not_mem_nil
  | act o k ih =>
    rw [Prog.trace]
    cases answer o w with
    | none => exact fun _ he => absurd he List.not_mem_nil
    | some rw' =>
      obtain ⟨r, w'⟩ := rw'
      exact List.forall_mem_cons.mpr ⟨h.1, ih r (h.2 r trivial)⟩

/-- A program that ends got an answer to its first action. -/
theorem exists_answer {answer : (o : σ.Op) → W → Option (σ.Reply o × W)} {o : σ.Op}
    {k : σ.Reply o → Prog σ ε α} {w : W} {x : Ending ε α}
    (hx : ((act o k).exec answer w).1.ending? = some x) : ∃ r w₁, answer o w = some (r, w₁) := by
  rw [exec_act] at hx
  cases ha : answer o w with
  | none =>
    rw [ha] at hx
    cases hx
  | some rw₁ => exact ⟨rw₁.1, rw₁.2, rfl⟩

/-- `q` is `p` without checks. -/
inductive Elides (keeps skips : σ.Op → Prop) (aborts : ε → Prop) :
    Prog σ ε α → Prog σ ε α → Prop
  | ret (a : α) : Elides keeps skips aborts (.ret a) (.ret a)
  | stop (e : ε) : Elides keeps skips aborts (.stop e) (.stop e)
  | act {o : σ.Op} {k k' : σ.Reply o → Prog σ ε α} (ho : keeps o)
      (h : ∀ r, Elides keeps skips aborts (k r) (k' r)) :
    Elides keeps skips aborts (.act o k) (.act o k')
  | skip {o : σ.Op} {k : σ.Reply o → Prog σ ε α} {q : Prog σ ε α} (ho : skips o)
      (hq : q.Within keeps) (h : ∀ r, Elides keeps skips aborts (k r) q) :
    Elides keeps skips aborts (.act o k) q
  | abort {e : ε} {q : Prog σ ε α} (he : aborts e) (hq : q.Within keeps) :
    Elides keeps skips aborts (.stop e) q

namespace Elides

variable {p q : Prog σ ε α}

theorem within (h : Elides keeps skips aborts p q) : q.Within keeps := by
  induction h with
  | ret a => trivial
  | stop e => trivial
  | act ho h ih => exact ⟨ho, fun r _ => ih r⟩
  | skip ho hq h ih => exact hq
  | abort he hq => exact hq

theorem refl (h : p.Within keeps) : Elides keeps skips aborts p p := by
  induction p with
  | ret a => exact .ret a
  | stop e => exact .stop e
  | act o k ih => exact .act h.1 fun r => ih r (h.2 r trivial)

/-- A sequence without the checks of its parts. -/
theorem bind {f g : α → Prog σ ε β} (h : Elides keeps skips aborts p q)
    (hf : ∀ a, Elides keeps skips aborts (f a) (g a)) :
    Elides keeps skips aborts (p.bind f) (q.bind g) := by
  induction h with
  | ret a => exact hf a
  | stop e => exact .stop e
  | act ho h ih => exact .act ho ih
  | skip ho hq h ih => exact .skip ho (hq.bind fun a => (hf a).within) ih
  | abort he hq => exact .abort he (hq.bind fun a => (hf a).within)

/-- A program that does not abort, and performs no action that is only skipped, ends as it does
without its checks. -/
theorem exec {answer : (o : σ.Op) → W → Option (σ.Reply o × W)} {R : W → W → Prop}
    (hkeep : ∀ o r w w' w₁, keeps o → R w w' → answer o w = some (r, w₁) →
      ∃ w₁', answer o w' = some (r, w₁') ∧ R w₁ w₁')
    (hskip : ∀ o r w w' w₁, skips o → keeps o → R w w' → answer o w = some (r, w₁) → R w₁ w')
    (h : Elides keeps skips aborts p q) {w w' : W} (hR : R w w') {x : Ending ε α}
    (hx : (p.exec answer w).1.ending? = some x) (habort : ∀ e, x = .stopped e → ¬aborts e)
    (hkept : ∀ e ∈ p.trace answer w, keeps e.1) :
    ∃ w₁', q.exec answer w' = ((p.exec answer w).1, w₁') ∧ R (p.exec answer w).2 w₁' := by
  induction h generalizing w w' with
  | ret a => exact ⟨w', rfl, hR⟩
  | stop e => exact ⟨w', rfl, hR⟩
  | @act o k k' ho h ih =>
    obtain ⟨r, w₁, ha⟩ := exists_answer hx
    obtain ⟨w₁', ha', hR₁⟩ := hkeep o r w w' w₁ ho hR ha
    rw [trace, ha] at hkept
    rw [exec_act_of_some _ ha] at hx ⊢
    rw [exec_act_of_some _ ha']
    exact ih r hR₁ hx fun e he => hkept e (List.mem_cons_of_mem _ he)
  | @skip o k q ho hq h ih =>
    obtain ⟨r, w₁, ha⟩ := exists_answer hx
    rw [trace, ha] at hkept
    rw [exec_act_of_some _ ha] at hx ⊢
    have hR₁ := hskip o r w w' w₁ ho (hkept ⟨o, r⟩ List.mem_cons_self) hR ha
    exact ih r hR₁ hx fun e he => hkept e (List.mem_cons_of_mem _ he)
  | abort he hq => exact absurd he (habort _ (Option.some.inj hx).symm)

end Elides

end Prog

end ConcreteEval
