import Mathlib.Data.List.Pairwise
import Mathlib.Data.List.Perm.Basic
import Mathlib.Data.List.Sort
import Mathlib.Order.Comparable

/-!
# Ordered maps and sets under a hand-written order

`std::map<K, V>` keeps its entries sorted by `operator<` on the keys and takes two keys
for the same if neither is less than the other (`SameKey`). `StdMap K V` is that : the
sorted list of entries, with the sortedness carried along. With a strict weak order on
the keys the maps obey the usual laws (`find?_assign`, `find?_erase`), an assignment to
an equivalent key keeps the key that is there, and an assignment to a new key puts it at
one place of the list (`exists_entries_assign`).

`setInsert` is `std::set<T>::insert` on the sorted list of elements. It needs no law of
the order to be run; where the order separates the new element from the others it adds
exactly that one (`perm_setInsert`).
-/

namespace ConcreteEval

/-- Neither key is less than the other. -/
abbrev SameKey {K : Type} [LT K] (a b : K) : Prop :=
  IncompRel (· < ·) a b

/-- The entries of a `std::map`, sorted by key. -/
@[ext] structure StdMap (K V : Type) [LT K] where
  entries : List (K × V)
  sorted : entries.Pairwise fun p q => p.1 < q.1

section SameKey

variable {K : Type} [LT K] [IsStrictWeakOrder K (· < ·)] {a b c : K}

theorem SameKey.refl (a : K) : SameKey a a :=
  IncompRel.rfl

omit [IsStrictWeakOrder K (· < ·)] in
theorem SameKey.symm (h : SameKey a b) : SameKey b a :=
  IncompRel.symm h

theorem SameKey.trans (h₁ : SameKey a b) (h₂ : SameKey b c) : SameKey a c :=
  IsStrictWeakOrder.incomp_trans a b c h₁ h₂

theorem SameKey.congr_left (h : SameKey a b) : SameKey a c ↔ SameKey b c :=
  ⟨fun hc => SameKey.trans h.symm hc, fun hc => h.trans hc⟩

end SameKey

namespace StdMap

variable {K V : Type} [LT K]

instance : EmptyCollection (StdMap K V) :=
  ⟨⟨[], List.Pairwise.nil⟩⟩

@[simp] theorem entries_empty : (∅ : StdMap K V).entries = [] :=
  rfl

instance [DecidableEq K] [DecidableEq V] : DecidableEq (StdMap K V) := fun _ _ =>
  decidable_of_iff _ StdMap.ext_iff.symm

variable [DecidableLT K]

/-- The value at the key equivalent to `k`. -/
def find? (m : StdMap K V) (k : K) : Option V :=
  (m.entries.find? fun p => SameKey k p.1).map Prod.snd

/-- `m.count (k)`. -/
def count (m : StdMap K V) (k : K) : ℕ :=
  if (m.find? k).isSome then 1 else 0

/-- `m.erase (k)`. -/
def erase (m : StdMap K V) (k : K) : StdMap K V where
  entries := m.entries.filter fun p => ¬SameKey k p.1
  sorted := m.sorted.filter _

/-- The entries whose key satisfies `f`. -/
def filter (m : StdMap K V) (f : K → Bool) : StdMap K V where
  entries := m.entries.filter fun p => f p.1
  sorted := m.sorted.filter _

@[simp] theorem find?_empty (k : K) : (∅ : StdMap K V).find? k = none :=
  rfl

theorem count_eq_zero {m : StdMap K V} {k : K} : m.count k = 0 ↔ m.find? k = none := by
  unfold count
  cases m.find? k <;> simp

/-- `m[k] = v` on the list of entries. -/
def assignEntries (k : K) (v : V) : List (K × V) → List (K × V)
  | [] => [(k, v)]
  | p :: l =>
    if k < p.1 then (k, v) :: p :: l
    else if p.1 < k then p :: assignEntries k v l
    else (p.1, v) :: l

theorem mem_assignEntries {k : K} {v : V} {p : K × V} {l : List (K × V)}
    (h : p ∈ assignEntries k v l) : p.1 = k ∨ p.1 ∈ l.map Prod.fst := by
  induction l with
  | nil => simp_all [assignEntries]
  | cons q l ih =>
    rw [assignEntries] at h
    split_ifs at h with h₁ h₂
    · rcases List.mem_cons.mp h with rfl | h
      · exact Or.inl rfl
      · exact Or.inr (List.mem_map_of_mem h)
    · rcases List.mem_cons.mp h with rfl | h
      · exact Or.inr (by simp)
      · exact (ih h).imp_right (by simp +contextual)
    · rcases List.mem_cons.mp h with rfl | h
      · exact Or.inr (by simp)
      · exact Or.inr (List.mem_map_of_mem (List.mem_cons_of_mem _ h))

section StrictWeakOrder

variable [IsStrictWeakOrder K (· < ·)]

theorem pairwise_assignEntries {k : K} {v : V} {l : List (K × V)}
    (h : l.Pairwise fun p q => p.1 < q.1) :
    (assignEntries k v l).Pairwise fun p q => p.1 < q.1 := by
  induction l with
  | nil => simp [assignEntries]
  | cons p l ih =>
    obtain ⟨hp, hl⟩ := List.pairwise_cons.mp h
    rw [assignEntries]
    split_ifs with h₁ h₂
    · refine List.pairwise_cons.mpr ⟨fun q hq => ?_, h⟩
      rcases List.mem_cons.mp hq with rfl | hq
      · exact h₁
      · exact trans_of (· < ·) h₁ (hp q hq)
    · refine List.pairwise_cons.mpr ⟨fun q hq => ?_, ih hl⟩
      rcases mem_assignEntries hq with hk | hk
      · rwa [hk]
      · obtain ⟨q', hq', hk⟩ := List.mem_map.mp hk
        rw [← hk]
        exact hp q' hq'
    · exact List.pairwise_cons.mpr ⟨hp, hl⟩

/-- `m[k] = v`. -/
def assign (m : StdMap K V) (k : K) (v : V) : StdMap K V where
  entries := assignEntries k v m.entries
  sorted := pairwise_assignEntries m.sorted

theorem find?_congr (m : StdMap K V) {j k : K} (h : SameKey j k) : m.find? j = m.find? k := by
  unfold find?
  simp only [h.congr_left]

theorem find?_assignEntries {k j : K} {v : V} {l : List (K × V)} :
    ((assignEntries k v l).find? fun p => SameKey j p.1).map Prod.snd =
      if SameKey j k then some v else (l.find? fun p => SameKey j p.1).map Prod.snd := by
  induction l with
  | nil => by_cases h : SameKey j k <;> simp [assignEntries, h]
  | cons p l ih =>
    rw [assignEntries]
    by_cases h₁ : k < p.1
    · rw [if_pos h₁]
      by_cases hj : SameKey j k <;> simp [hj]
    · rw [if_neg h₁]
      by_cases h₂ : p.1 < k
      · rw [if_pos h₂]
        by_cases hjp : SameKey j p.1
        · have hj : ¬SameKey j k := fun h => (hjp.symm.trans h).1 h₂
          simp [hjp, hj]
        · simpa [hjp] using ih
      · rw [if_neg h₂]
        have hkp : SameKey j p.1 ↔ SameKey j k :=
          ⟨fun h => h.trans ⟨h₂, h₁⟩, fun h => h.trans ⟨h₁, h₂⟩⟩
        by_cases hj : SameKey j k
        · simp [hkp.mpr hj, hj]
        · simp [mt hkp.mp hj, hj]

theorem find?_assign (m : StdMap K V) (k j : K) (v : V) :
    (m.assign k v).find? j = if SameKey j k then some v else m.find? j :=
  find?_assignEntries

@[simp] theorem find?_assign_self (m : StdMap K V) (k : K) (v : V) :
    (m.assign k v).find? k = some v := by
  rw [find?_assign, if_pos (SameKey.refl k)]

theorem find?_assign_of_not {m : StdMap K V} {k j : K} {v : V} (h : ¬SameKey j k) :
    (m.assign k v).find? j = m.find? j := by
  rw [find?_assign, if_neg h]

theorem find?_erase (m : StdMap K V) (k j : K) :
    (m.erase k).find? j = if SameKey j k then none else m.find? j := by
  unfold find? erase
  rw [List.find?_filter]
  split_ifs with h
  · rw [Option.map_eq_none_iff, List.find?_eq_none]
    intro p _ hp
    simp only [decide_eq_true_eq] at hp
    exact hp.1 (h.symm.trans hp.2)
  · congr 2
    funext p
    have hp : SameKey j p.1 → ¬SameKey k p.1 := fun hj hk => h (hj.trans hk.symm)
    simpa using hp

@[simp] theorem find?_erase_self (m : StdMap K V) (k : K) : (m.erase k).find? k = none := by
  rw [find?_erase, if_pos (SameKey.refl k)]

omit [IsStrictWeakOrder K (· < ·)] in
/-- Erasing keys one after the other. -/
theorem entries_foldl_erase (m : StdMap K V) (ks : List K) :
    (ks.foldl erase m).entries = m.entries.filter fun p => ∀ k ∈ ks, ¬SameKey k p.1 := by
  induction ks generalizing m with
  | nil => simp
  | cons k ks ih =>
    rw [List.foldl_cons, ih]
    change (m.entries.filter _).filter _ = _
    rw [List.filter_filter]
    refine List.filter_congr fun p _ => ?_
    simp [Bool.and_comm]

theorem find?_erase_of_not {m : StdMap K V} {k j : K} (h : ¬SameKey j k) :
    (m.erase k).find? j = m.find? j := by
  rw [find?_erase, if_neg h]

/-- Every entry is found at its key. -/
theorem find?_of_mem {m : StdMap K V} {p : K × V} (h : p ∈ m.entries) :
    m.find? p.1 = some p.2 := by
  obtain ⟨l₁, l₂, hl⟩ := List.append_of_mem h
  have hs := m.sorted
  rw [hl] at hs
  have hne : l₁.find? (fun q => SameKey p.1 q.1) = none := by
    rw [List.find?_eq_none]
    intro q hq hpq
    have hlt := (List.pairwise_append.mp hs).2.2 q hq p (by simp)
    simp only [decide_eq_true_eq] at hpq
    exact hpq.2 hlt
  unfold find?
  rw [hl, List.find?_append, hne, Option.none_or, List.find?_cons]
  simp

omit [IsStrictWeakOrder K (· < ·)] in
theorem exists_mem_of_find? {m : StdMap K V} {k : K} {v : V} (h : m.find? k = some v) :
    ∃ p ∈ m.entries, SameKey k p.1 ∧ p.2 = v := by
  obtain ⟨p, hp, rfl⟩ := Option.map_eq_some_iff.mp h
  exact ⟨p, List.mem_of_find?_eq_some hp, by simpa using List.find?_some hp, rfl⟩

/-- Where equivalent keys are equal, a map is determined by its values. -/
theorem ext_find? (heq : ∀ a b : K, SameKey a b → a = b) {m₁ m₂ : StdMap K V}
    (h : ∀ k, m₁.find? k = m₂.find? k) : m₁ = m₂ := by
  have hmem : ∀ (m : StdMap K V) (p : K × V), p ∈ m.entries ↔ m.find? p.1 = some p.2 := by
    intro m p
    constructor
    · exact find?_of_mem
    · intro hp
      obtain ⟨q, hq, hkey, hval⟩ := exists_mem_of_find? hp
      have hqp : q = p := Prod.ext (heq _ _ hkey).symm hval
      exact hqp ▸ hq
  have hirrefl : Std.Irrefl fun p q : K × V => p.1 < q.1 := ⟨fun p => irrefl p.1⟩
  have hantisymm : Std.Antisymm fun p q : K × V => p.1 < q.1 :=
    ⟨fun p q hpq hqp => absurd (trans_of (· < ·) hpq hqp) (irrefl p.1)⟩
  ext1
  refine m₁.sorted.eq_of_mem_iff m₂.sorted fun p => ?_
  rw [hmem, hmem, h]

/-- Lookups, assignments and erasures take equivalent keys for one key, and others apart. -/
structure Lawful (m : StdMap K V) : Prop where
  congr : ∀ j k : K, SameKey j k → m.find? j = m.find? k
  mem : ∀ p ∈ m.entries, m.find? p.1 = some p.2
  assign : ∀ (j k : K) (v : V), (m.assign k v).find? j = if SameKey j k then some v else m.find? j
  erase : ∀ j k : K, (m.erase k).find? j = if SameKey j k then none else m.find? j

/-- A strict weak order on the keys makes every map lawful. -/
theorem lawful (m : StdMap K V) : m.Lawful :=
  ⟨fun _ _ => m.find?_congr, fun _ => find?_of_mem, fun j k => m.find?_assign k j,
    fun j k => m.find?_erase k j⟩

/-- An assignment to a new key puts it at one place of the entries. -/
theorem exists_entries_assign {m : StdMap K V} {k : K} {v : V} (h : m.find? k = none) :
    ∃ l₁ l₂, m.entries = l₁ ++ l₂ ∧ (m.assign k v).entries = l₁ ++ (k, v) :: l₂ := by
  have hk : ∀ p ∈ m.entries, ¬SameKey k p.1 := by
    intro p hp
    have := List.find?_eq_none.mp (Option.map_eq_none_iff.mp h) p hp
    simpa using this
  change ∃ l₁ l₂, m.entries = l₁ ++ l₂ ∧ assignEntries k v m.entries = l₁ ++ (k, v) :: l₂
  revert hk
  generalize m.entries = l
  intro hk
  induction l with
  | nil => exact ⟨[], [], rfl, rfl⟩
  | cons p l ih =>
    rw [assignEntries]
    by_cases h₁ : k < p.1
    · exact ⟨[], p :: l, rfl, by rw [if_pos h₁]; rfl⟩
    · have h₂ : p.1 < k := by
        by_contra h₂
        exact hk p (by simp) ⟨h₁, h₂⟩
      obtain ⟨l₁, l₂, rfl, hl⟩ := ih fun q hq => hk q (by simp [hq])
      exact ⟨p :: l₁, l₂, rfl, by rw [if_neg h₁, if_pos h₂, hl]; rfl⟩

theorem mem_assign_self {m : StdMap K V} {k : K} {v : V} (h : m.find? k = none) :
    (k, v) ∈ (m.assign k v).entries := by
  obtain ⟨l₁, l₂, -, hassign⟩ := exists_entries_assign (v := v) h
  simp [hassign]

theorem mem_assign_of_mem {m : StdMap K V} {k : K} {v : V} {p : K × V} (h : m.find? k = none)
    (hp : p ∈ m.entries) : p ∈ (m.assign k v).entries := by
  obtain ⟨l₁, l₂, hm, hassign⟩ := exists_entries_assign (v := v) h
  rw [hm] at hp
  rw [hassign]
  simp only [List.mem_append, List.mem_cons] at hp ⊢
  exact hp.imp_right Or.inr

/-- A new key that the filter drops makes no difference. -/
theorem filter_assign {m : StdMap K V} {f : K → Bool} {k : K} {v : V} (h : m.find? k = none)
    (hf : f k = false) : (m.assign k v).filter f = m.filter f := by
  obtain ⟨l₁, l₂, hm, hassign⟩ := exists_entries_assign (v := v) h
  ext1
  change (m.assign k v).entries.filter _ = m.entries.filter _
  rw [hm, hassign, List.filter_append, List.filter_append,
    List.filter_cons_of_neg (by simp [hf])]

/-! ### Assignments one after the other -/

section Foldl

variable {ι : Type} {f : ι → K} {g : ι → V} {l : List ι}

theorem find?_foldl_assign_of_not {m : StdMap K V} {k : K} (hk : ∀ i ∈ l, ¬SameKey k (f i)) :
    (l.foldl (fun m i => m.assign (f i) (g i)) m).find? k = m.find? k := by
  induction l generalizing m with
  | nil => rfl
  | cons j l ih =>
    rw [List.foldl_cons, ih fun i hi => hk i (List.mem_cons_of_mem j hi)]
    exact find?_assign_of_not (hk j List.mem_cons_self)

/-- Where no two of the keys are equivalent every assignment lasts. -/
theorem find?_foldl_assign_of_mem {m : StdMap K V} {i : ι} (hi : i ∈ l)
    (hf : ∀ i ∈ l, ∀ j ∈ l, SameKey (f i) (f j) → i = j) :
    (l.foldl (fun m i => m.assign (f i) (g i)) m).find? (f i) = some (g i) := by
  induction l generalizing m with
  | nil => cases hi
  | cons j l ih =>
    have hf' : ∀ i ∈ l, ∀ j ∈ l, SameKey (f i) (f j) → i = j := fun i hi k hk =>
      hf i (List.mem_cons_of_mem j hi) k (List.mem_cons_of_mem j hk)
    rw [List.foldl_cons]
    by_cases hil : i ∈ l
    · exact ih hil hf'
    · obtain rfl : i = j := (List.mem_cons.mp hi).resolve_right hil
      have hne : ∀ k ∈ l, ¬SameKey (f i) (f k) := by
        intro k hk hsame
        obtain rfl := hf i hi k (List.mem_cons_of_mem i hk) hsame
        exact hil hk
      rw [find?_foldl_assign_of_not hne, find?_assign_self]

/-- An assignment behind the last key. -/
theorem assignEntries_of_forall_lt {k : K} {v : V} {l : List (K × V)} (h : ∀ p ∈ l, p.1 < k) :
    assignEntries k v l = l ++ [(k, v)] := by
  induction l with
  | nil => rfl
  | cons p l ih =>
    have hp : p.1 < k := h p List.mem_cons_self
    have hk : ¬k < p.1 := fun hkp => irrefl _ (trans_of (· < ·) hp hkp)
    rw [assignEntries, if_neg hk, if_pos hp, ih fun q hq => h q (List.mem_cons_of_mem p hq),
      List.cons_append]

/-- The entries assigned in their order make up the map. -/
theorem foldl_assign_entries (m : StdMap K V) :
    m.entries.foldl (fun m p => m.assign p.1 p.2) ∅ = m := by
  have hfold : ∀ (l : List (K × V)) (m' : StdMap K V),
      (m'.entries ++ l).Pairwise (fun p q => p.1 < q.1) →
      (l.foldl (fun m p => m.assign p.1 p.2) m').entries = m'.entries ++ l := by
    intro l
    induction l with
    | nil => exact fun m' _ => (List.append_nil _).symm
    | cons p l ih =>
      intro m' hl
      have hassign : (m'.assign p.1 p.2).entries = m'.entries ++ [p] :=
        assignEntries_of_forall_lt fun q hq => (List.pairwise_append.mp hl).2.2 q hq p (by simp)
      have happ : (m'.assign p.1 p.2).entries ++ l = m'.entries ++ p :: l := by simp [hassign]
      rw [List.foldl_cons, ih _ (happ ▸ hl), happ]
  ext1
  exact hfold m.entries ∅ m.sorted

end Foldl

end StrictWeakOrder

end StdMap

/-! ## Sets -/

section Set

variable {α : Type} (lt : α → α → Prop) [DecidableRel lt]

/-- `s.insert (x)`, on the elements of `s` in order. -/
def setInsert (x : α) : List α → List α
  | [] => [x]
  | y :: s => if lt x y then x :: y :: s else if lt y x then y :: setInsert x s else y :: s

variable {lt}

theorem mem_setInsert {x y : α} {s : List α} (h : y ∈ setInsert lt x s) : y = x ∨ y ∈ s := by
  induction s with
  | nil => simpa [setInsert] using h
  | cons z s ih =>
    rw [setInsert] at h
    split_ifs at h with h₁ h₂
    · exact List.mem_cons.mp h
    · rcases List.mem_cons.mp h with rfl | h
      · exact Or.inr List.mem_cons_self
      · exact (ih h).imp_right (List.mem_cons_of_mem z)
    · exact Or.inr h

/-- The elements that are there stay. -/
theorem mem_setInsert_of_mem {x y : α} {s : List α} (h : y ∈ s) : y ∈ setInsert lt x s := by
  induction s with
  | nil => cases h
  | cons z s ih =>
    rw [setInsert]
    split_ifs
    · exact List.mem_cons_of_mem x h
    · rcases List.mem_cons.mp h with rfl | h
      · exact List.mem_cons_self
      · exact List.mem_cons_of_mem z (ih h)
    · exact h

/-- `x` is in the set afterwards, or an element that the order does not tell from it. -/
theorem exists_mem_setInsert (hx : ∀ x, ¬lt x x) (x : α) (s : List α) :
    ∃ y ∈ setInsert lt x s, ¬lt x y ∧ ¬lt y x := by
  induction s with
  | nil => exact ⟨x, by simp [setInsert], hx x, hx x⟩
  | cons z s ih =>
    rw [setInsert]
    by_cases h₁ : lt x z
    · rw [if_pos h₁]
      exact ⟨x, List.mem_cons_self, hx x, hx x⟩
    · by_cases h₂ : lt z x
      · rw [if_neg h₁, if_pos h₂]
        obtain ⟨y, hy, hxy⟩ := ih
        exact ⟨y, List.mem_cons_of_mem z hy, hxy⟩
      · rw [if_neg h₁, if_neg h₂]
        exact ⟨z, List.mem_cons_self, h₁, h₂⟩

/-- A set stays sorted. -/
theorem pairwise_setInsert [IsTrans α lt] {x : α} {s : List α} (h : s.Pairwise lt) :
    (setInsert lt x s).Pairwise lt := by
  induction s with
  | nil => simp [setInsert]
  | cons y s ih =>
    obtain ⟨hy, hs⟩ := List.pairwise_cons.mp h
    rw [setInsert]
    split_ifs with h₁ h₂
    · refine List.pairwise_cons.mpr ⟨fun z hz => ?_, h⟩
      rcases List.mem_cons.mp hz with rfl | hz
      · exact h₁
      · exact trans_of lt h₁ (hy z hz)
    · refine List.pairwise_cons.mpr ⟨fun z hz => ?_, ih hs⟩
      rcases mem_setInsert hz with rfl | hz
      · exact h₂
      · exact hy z hz
    · exact h

/-- Where the order separates `x` from every element, `x` is added. -/
theorem perm_setInsert {x : α} {s : List α} (h : ∀ y ∈ s, lt x y ∨ lt y x) :
    (setInsert lt x s).Perm (x :: s) := by
  induction s with
  | nil => exact List.Perm.refl _
  | cons y s ih =>
    rw [setInsert]
    by_cases h₁ : lt x y
    · rw [if_pos h₁]
    · have h₂ : lt y x := (h y (by simp)).resolve_left h₁
      rw [if_neg h₁, if_pos h₂]
      exact ((ih fun z hz => h z (by simp [hz])).cons y).trans (List.Perm.swap x y s)

/-- An insertion behind the last element. -/
theorem setInsert_of_forall_lt {x : α} {s : List α} (h : ∀ y ∈ s, lt y x ∧ ¬lt x y) :
    setInsert lt x s = s ++ [x] := by
  induction s with
  | nil => rfl
  | cons y s ih =>
    obtain ⟨hyx, hxy⟩ := h y List.mem_cons_self
    rw [setInsert, if_neg hxy, if_pos hyx, ih fun z hz => h z (List.mem_cons_of_mem y hz),
      List.cons_append]

/-- The elements inserted in their order make up the set. -/
theorem foldl_setInsert {s : List α} (h : s.Pairwise fun x y => lt x y ∧ ¬lt y x) :
    s.foldl (fun s x => setInsert lt x s) [] = s := by
  have hfold : ∀ l s' : List α, (s' ++ l).Pairwise (fun x y => lt x y ∧ ¬lt y x) →
      l.foldl (fun s x => setInsert lt x s) s' = s' ++ l := by
    intro l
    induction l with
    | nil => exact fun s' _ => (List.append_nil s').symm
    | cons x l ih =>
      intro s' hl
      have hinsert : setInsert lt x s' = s' ++ [x] :=
        setInsert_of_forall_lt fun y hy => (List.pairwise_append.mp hl).2.2 y hy x (by simp)
      rw [List.foldl_cons, hinsert, ih _ (by simpa using hl)]
      simp
  exact hfold s [] h

/-- Inserting images under the order of the images. -/
theorem setInsert_map {β : Type} {f : β → α} {lt' : β → β → Prop} [DecidableRel lt']
    (h : ∀ x y, lt' x y ↔ lt (f x) (f y)) (x : β) (s : List β) :
    setInsert lt (f x) (s.map f) = (setInsert lt' x s).map f := by
  induction s with
  | nil => rfl
  | cons y s ih =>
    rw [List.map_cons, setInsert, setInsert]
    by_cases h₁ : lt' x y
    · rw [if_pos h₁, if_pos ((h x y).mp h₁), List.map_cons, List.map_cons]
    · rw [if_neg h₁, if_neg (mt (h x y).mpr h₁)]
      by_cases h₂ : lt' y x
      · rw [if_pos h₂, if_pos ((h y x).mp h₂), ih, List.map_cons]
      · rw [if_neg h₂, if_neg (mt (h y x).mpr h₂), List.map_cons]

end Set

end ConcreteEval
