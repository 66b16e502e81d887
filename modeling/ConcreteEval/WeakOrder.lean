import Mathlib.Data.Set.Operations
import Mathlib.Order.Comparable

/-!
# Strict weak orders on a set of values

`std::set` and `std::map` need of `operator<` that it is a strict weak order on the values that are
compared (`StrictWeakOrderOn`). An order that compares a key is one (`StrictWeakOrderOn.of_key`).

An `operator<` with two fields first asks whether the first fields differ, and compares these or the
second ones. If what tells the first fields apart tells more than what orders them, two values whose
first fields differ can still be neither less nor greater; that such a pair does no harm is then the
exact condition (`strictWeakOrderOn_iff_of_finer`).
-/

namespace ConcreteEval

/-- `lt` is a strict weak order on the values of `s`. -/
structure StrictWeakOrderOn {α : Type} (lt : α → α → Prop) (s : Set α) : Prop where
  irrefl : ∀ a ∈ s, ¬lt a a
  asymm : ∀ a ∈ s, ∀ b ∈ s, lt a b → ¬lt b a
  trans : ∀ a ∈ s, ∀ b ∈ s, ∀ c ∈ s, lt a b → lt b c → lt a c
  incomp_trans : ∀ a ∈ s, ∀ b ∈ s, ∀ c ∈ s,
    IncompRel lt a b → IncompRel lt b c → IncompRel lt a c

section Key

variable {α κ : Type} [LinearOrder κ] {lt : α → α → Prop} {s : Set α} {key : α → κ}

/-- Neither value is less than the other if the keys are equal. -/
theorem incompRel_iff_of_key (h : ∀ a ∈ s, ∀ b ∈ s, lt a b ↔ key a < key b) {a b : α}
    (ha : a ∈ s) (hb : b ∈ s) : IncompRel lt a b ↔ key a = key b := by
  rw [IncompRel, h a ha b hb, h b hb a ha, not_lt, not_lt]
  exact ⟨fun hab => le_antisymm hab.2 hab.1, fun hab => ⟨hab.ge, hab.le⟩⟩

variable (key) in
theorem StrictWeakOrderOn.of_key (h : ∀ a ∈ s, ∀ b ∈ s, lt a b ↔ key a < key b) :
    StrictWeakOrderOn lt s where
  irrefl a ha hlt := lt_irrefl _ ((h a ha a ha).mp hlt)
  asymm a ha b hb hlt hgt := lt_asymm ((h a ha b hb).mp hlt) ((h b hb a ha).mp hgt)
  trans a ha b hb c hc hab hbc :=
    (h a ha c hc).mpr (((h a ha b hb).mp hab).trans ((h b hb c hc).mp hbc))
  incomp_trans a ha b hb c hc hab hbc := by
    rw [incompRel_iff_of_key h ha hb] at hab
    rw [incompRel_iff_of_key h hb hc] at hbc
    rw [incompRel_iff_of_key h ha hc]
    exact hab.trans hbc

end Key

section Finer

variable {α ε κ γ : Type} [LinearOrder κ] [LinearOrder γ] {lt : α → α → Prop} {s : Set α}
  {fst : α → ε} {key : ε → κ} {snd : α → γ}

/-- Neither value is less than the other if the first fields differ and have one key, or they are
equal and the second ones are too. -/
theorem incompRel_iff_of_finer
    (h : ∀ a ∈ s, ∀ b ∈ s, lt a b ↔
      fst a ≠ fst b ∧ key (fst a) < key (fst b) ∨ fst a = fst b ∧ snd a < snd b)
    {a b : α} (ha : a ∈ s) (hb : b ∈ s) :
    IncompRel lt a b ↔ key (fst a) = key (fst b) ∧ (fst a = fst b → snd a = snd b) := by
  rw [IncompRel, h a ha b hb, h b hb a ha]
  by_cases hf : fst a = fst b
  · simp only [hf, ne_eq, not_true_eq_false, false_and, true_and, false_or, not_lt, forall_const]
    exact ⟨fun hab => le_antisymm hab.2 hab.1, fun hab => ⟨hab.ge, hab.le⟩⟩
  · have hf' : fst b ≠ fst a := Ne.symm hf
    simp only [hf, hf', ne_eq, not_false_eq_true, true_and, false_and, or_false, not_lt,
      IsEmpty.forall_iff, and_true]
    exact ⟨fun hab => le_antisymm hab.2 hab.1, fun hab => ⟨hab.ge, hab.le⟩⟩

variable (fst key snd) in
/-- An order on two fields, the first of which is told apart by more than its key. -/
theorem strictWeakOrderOn_iff_of_finer
    (h : ∀ a ∈ s, ∀ b ∈ s, lt a b ↔
      fst a ≠ fst b ∧ key (fst a) < key (fst b) ∨ fst a = fst b ∧ snd a < snd b) :
    StrictWeakOrderOn lt s ↔ ∀ a ∈ s, ∀ b ∈ s, fst a ≠ fst b → key (fst a) = key (fst b) →
      ∀ c ∈ s, fst c = fst a → snd c = snd a := by
  have hincomp := fun {a b : α} (ha : a ∈ s) (hb : b ∈ s) => incompRel_iff_of_finer h ha hb
  constructor
  · intro hs a ha b hb hne hkey c hc hfst
    have hab : IncompRel lt a b := (hincomp ha hb).mpr ⟨hkey, fun heq => absurd heq hne⟩
    have hbc : IncompRel lt b c := by
      refine (hincomp hb hc).mpr ⟨by rw [hfst, hkey], fun heq => ?_⟩
      exact absurd (hfst.symm.trans heq.symm) hne
    have hac := hs.incomp_trans a ha b hb c hc hab hbc
    exact (((hincomp ha hc).mp hac).2 hfst.symm).symm
  · intro hs
    have htrans : ∀ a ∈ s, ∀ b ∈ s, ∀ c ∈ s, lt a b → lt b c → lt a c := by
      intro a ha b hb c hc hab hbc
      rw [h a ha b hb] at hab
      rw [h b hb c hc] at hbc
      rw [h a ha c hc]
      rcases hab with ⟨-, hab⟩ | ⟨hfst, hab⟩
      · have hac : key (fst a) < key (fst c) := by
          rcases hbc with ⟨-, hbc⟩ | ⟨hfst, -⟩
          · exact hab.trans hbc
          · rwa [← hfst]
        exact Or.inl ⟨fun heq => hac.ne (congrArg key heq), hac⟩
      · rw [hfst]
        exact hbc.imp_right (And.imp_right hab.trans)
    have hirrefl : ∀ a ∈ s, ¬lt a a := by
      intro a ha hlt
      rcases (h a ha a ha).mp hlt with ⟨hne, -⟩ | ⟨-, hlt⟩
      · exact hne rfl
      · exact lt_irrefl _ hlt
    refine ⟨hirrefl, fun a ha b hb hlt hgt => hirrefl a ha (htrans a ha b hb a ha hlt hgt), htrans,
      fun a ha b hb c hc hab hbc => ?_⟩
    rw [hincomp ha hb] at hab
    rw [hincomp hb hc] at hbc
    refine (hincomp ha hc).mpr ⟨hab.1.trans hbc.1, fun hac => ?_⟩
    by_cases hfst : fst a = fst b
    · exact (hab.2 hfst).trans (hbc.2 (hfst.symm.trans hac))
    · exact (hs a ha b hb hfst hab.1 c hc hac.symm).symm

end Finer

end ConcreteEval
