import ConcreteEval.Thrift

/-!
# Structs that say the same

Two programs that have been built from different versions of an IDL can still talk to each other. A
reader takes the fields of a struct as they come and skips those that it does not know, by their ids
or by their types. So to a reader that knows the fields of a schema, two structs say the same if
one comes from the other by changing the order of fields with different ids and by adding or
dropping fields that the schema does not have, in the struct itself and in those inside it
(`Alike`).

A reader that reads different fields into different places (`Reads`) makes the same of both
(`Reads.readStruct_eq`).
-/

namespace ConcreteEval

namespace Thrift

/-- The type that a field has in the IDL. -/
inductive FieldType
  | bool
  | byte
  | i16
  | i32
  | i64
  | double
  | string
  | struct (fields : List (FieldId × FieldType))
  | map
  | set
  | list

/-- The fields of a struct in the IDL. -/
abbrev Schema := List (FieldId × FieldType)

/-- Whether the value has the type that is announced for it. -/
def Value.is : Value → FieldType → Bool
  | .bool _, .bool | .byte _, .byte | .i16 _, .i16 | .i32 _, .i32 | .i64 _, .i64
  | .double _, .double | .string _, .string | .struct _, .struct _ | .map _, .map | .set _, .set
  | .list _, .list => true
  | _, _ => false

/-- The schema has a field with this id and the type of this value. -/
def Schema.Knows (s : Schema) (fid : FieldId) (v : Value) : Prop :=
  ∃ t, (fid, t) ∈ s ∧ v.is t = true

/-- The fields say the same to a reader that knows the schema. -/
inductive Alike : Schema → Fields → Fields → Prop
  | nil (s) : Alike s [] []
  | cons {s l l'} (f) (h : Alike s l l') : Alike s (f :: l) (f :: l')
  | nested {s t fid fields fields' l l'} (ht : (fid, .struct t) ∈ s)
    (hfields : Alike t fields fields') (h : Alike s l l') :
    Alike s ((fid, .struct fields) :: l) ((fid, .struct fields') :: l')
  | swap {s f g} (hne : f.1 ≠ g.1) (l) : Alike s (f :: g :: l) (g :: f :: l)
  | unknown {s f} (hf : ¬s.Knows f.1 f.2) (l) : Alike s (f :: l) l
  | symm {s l l'} (h : Alike s l l') : Alike s l' l
  | trans {s l l' l''} (h : Alike s l l') (h' : Alike s l' l'') : Alike s l l''

@[refl] theorem Alike.refl (s : Schema) (l : Fields) : Alike s l l := by
  induction l with
  | nil => exact .nil s
  | cons f l ih => exact .cons f ih

section Reads

variable {α : Type} {readField R : α → FieldId → Value → α} {A B : α → Value → α} {s : Schema}
  {l l' : Fields} {x y : FieldId} {t u : FieldType}

/-- What the reader makes of one field : nothing of one that the schema does not have, and the same
of structs that say the same. -/
structure Reads (s : Schema) (readField : α → FieldId → Value → α) : Prop where
  comm : ∀ {i j}, i ≠ j → ∀ a v w,
    readField (readField a i v) j w = readField (readField a j w) i v
  unknown : ∀ {fid v}, ¬s.Knows fid v → ∀ a, readField a fid v = a
  nested : ∀ {fid t fields fields'}, (fid, .struct t) ∈ s → Alike t fields fields' →
    ∀ a, readField a fid (.struct fields) = readField a fid (.struct fields')

/-- A reader makes the same of structs that say the same. -/
theorem Reads.readStruct_eq (hr : Reads s readField) (h : Alike s l l') (a : α) :
    readStruct readField a l = readStruct readField a l' := by
  induction h generalizing a with
  | nil s => rfl
  | cons f _ ih => exact ih hr _
  | nested ht hfields _ _ ih =>
    rw [readStruct_cons, readStruct_cons, hr.nested ht hfields]
    exact ih hr _
  | @swap s f g hne l =>
    obtain ⟨i, v⟩ := f
    obtain ⟨j, w⟩ := g
    simp only [readStruct_cons]
    rw [hr.comm hne]
  | @unknown s f hf l =>
    obtain ⟨fid, v⟩ := f
    rw [readStruct_cons, hr.unknown hf]
  | symm _ ih => exact (ih hr a).symm
  | trans _ _ ih ih' => exact (ih hr a).trans (ih' hr a)

/-- How a reader reads a field of the type. -/
structure ReadsField (t : FieldType) (A : α → Value → α) : Prop where
  unknown : ∀ {v : Value}, v.is t = false → ∀ a, A a v = a
  nested : ∀ {s fields fields'}, t = .struct s → Alike s fields fields' →
    ∀ a, A a (.struct fields) = A a (.struct fields')

theorem reads_nil : Reads [] fun (a : α) _ _ => a where
  comm _ _ _ _ := rfl
  unknown _ _ := rfl
  nested ht := absurd ht List.not_mem_nil

/-- A reader that knows one field more, which is read into a place of its own. -/
theorem Reads.cons (hr : Reads s R) (hx : ∀ t, (x, t) ∉ s) (hA : ReadsField t A)
    (hcomm : ∀ a v j w, R (A a v) j w = A (R a j w) v) :
    Reads ((x, t) :: s) fun a fid v => if fid = x then A a v else R a fid v where
  comm {i j} hne a v w := by
    by_cases hi : i = x
    · have hj : j ≠ x := fun hj => hne (hi.trans hj.symm)
      simp only [if_pos hi, if_neg hj, hcomm]
    · by_cases hj : j = x
      · simp only [if_neg hi, if_pos hj, hcomm]
      · simp only [if_neg hi, if_neg hj]
        exact hr.comm hne a v w
  unknown {fid v} hv a := by
    by_cases hfid : fid = x
    · subst hfid
      rw [if_pos rfl]
      refine hA.unknown ?_ a
      by_contra his
      exact hv ⟨t, List.mem_cons_self, by simpa using his⟩
    · rw [if_neg hfid]
      refine hr.unknown ?_ a
      rintro ⟨t', ht', his⟩
      exact hv ⟨t', List.mem_cons_of_mem _ ht', his⟩
  nested {fid t' fields fields'} ht' hfields a := by
    rcases List.mem_cons.mp ht' with heq | hmem
    · obtain ⟨rfl, rfl⟩ := Prod.mk.inj heq
      rw [if_pos rfl, if_pos rfl]
      exact hA.nested rfl hfields a
    · have hfid : fid ≠ x := by
        rintro rfl
        exact hx _ hmem
      rw [if_neg hfid, if_neg hfid]
      exact hr.nested hmem hfields a

theorem reads_one (hA : ReadsField t A) :
    Reads [(x, t)] fun a fid v => if fid = x then A a v else a :=
  reads_nil.cons (by simp) hA fun _ _ _ _ => rfl

/-- A reader that reads two fields into different places. -/
theorem reads_two (hxy : x ≠ y) (hA : ReadsField t A) (hB : ReadsField u B)
    (hcomm : ∀ a v w, B (A a v) w = A (B a w) v) :
    Reads [(x, t), (y, u)] fun a fid v =>
      if fid = x then A a v else if fid = y then B a v else a := by
  refine (reads_one hB).cons (by simp [hxy]) hA fun a v j w => ?_
  by_cases hj : j = y
  · simp only [if_pos hj, hcomm]
  · simp only [if_neg hj]

/-- Reading that can fail is reading into an object that may have been lost. -/
theorem readStruct?_eq (readField : α → FieldId → Value → Option α) (a : α) (fields : Fields) :
    readStruct? readField a fields =
      readStruct (fun a fid v => a.bind fun a => readField a fid v) (some a) fields := by
  have hnone : ∀ fields : Fields,
      readStruct (fun (a : Option α) fid v => a.bind fun a => readField a fid v) none fields =
        none := by
    intro fields
    induction fields with
    | nil => rfl
    | cons f fields ih => exact ih
  unfold readStruct?
  induction fields generalizing a with
  | nil => rfl
  | cons f fields ih =>
    obtain ⟨fid, v⟩ := f
    rw [List.foldlM_cons, readStruct_cons, Option.bind_some]
    cases readField a fid v with
    | none => exact (hnone fields).symm
    | some b => exact ih b

end Reads

end Thrift

end ConcreteEval
