import Bytecode.Proofs.Identifier
import Bytecode.Value
import Mathlib.Data.List.Forall2
import Mathlib.Data.List.Perm.Subperm
/-!
# Equality of values

`Value.Equal` says when two values are equal: of the same kind, and with equal parts,
down to their numbers. The fields of an object are told apart by their names, so their
order is no part of it. `Value.same` looks for the fields of one object in the other one
and only counts those of the other; since no name stands twice, none is left over
(`Table.names_eq_iff`), and it decides `Equal`.
-/
namespace Bytecode

/-- With no name twice, names that are all among as many others are all of them. -/
theorem Table.names_eq_iff {ν : Type} {fields others : Table Text ν} (h : (fields.map (·.1)).Nodup)
    (hothers : (others.map (·.1)).Nodup) :
    (∀ name, name ∈ fields.map (·.1) ↔ name ∈ others.map (·.1)) ↔
      fields.length = others.length ∧ ∀ name ∈ fields.map (·.1), name ∈ others.map (·.1) := by
  constructor
  · intro hnames
    have hperm : (fields.map (·.1)).Perm (others.map (·.1)) := (List.perm_ext_iff_of_nodup h hothers).2 hnames
    exact ⟨by simpa using hperm.length_eq, fun name hname => (hnames name).1 hname⟩
  · rintro ⟨hlength, hsubset⟩ name
    have hperm : (fields.map (·.1)).Perm (others.map (·.1)) :=
      (h.subperm hsubset).perm_of_length_le (by simp [hlength])
    exact hperm.mem_iff

namespace Value

/-- Arrays and objects are made of other values. -/
def isCompound : Value → Bool
  | array .. | object .. => true
  | _ => false

theorem isCompound_of_toInt? {v : Value} {n : Int} (h : v.toInt? = some n) : v.isCompound = false := by
  cases v with
  | array | object => cases h
  | _ => rfl

/-- No name stands twice in an object, and no reference has a key that is no number. -/
inductive Proper : Value → Prop
  | scalar {v : Value} {n : Int} : v.toInt? = some n → Proper v
  | reference {ref : Option Number} : ref ≠ some .notANumber → Proper (.reference ref)
  | array (element : Ty) {items : List Value} : (∀ v ∈ items, Proper v) → Proper (.array element items)
  | object (className : Text) {fields : Table Text Value} : (fields.map (·.1)).Nodup →
      (∀ entry ∈ fields, Proper entry.2) → Proper (.object className fields)

theorem Proper.items {element : Ty} {items : List Value} (h : Proper (.array element items)) : ∀ v ∈ items, Proper v := by
  cases h with
  | scalar hn => cases hn
  | array _ hitems => exact hitems

theorem Proper.fields {className : Text} {fields : Table Text Value} (h : Proper (.object className fields)) :
    (fields.map (·.1)).Nodup ∧ ∀ entry ∈ fields, Proper entry.2 := by
  cases h with
  | scalar hn => cases hn
  | object _ hnames hfields => exact ⟨hnames, hfields⟩

/-- Equal values: they are of one kind, and their parts are equal. -/
inductive Equal : Value → Value → Prop
  | plain {v : Value} : v.isCompound = false → Equal v v
  | array (element : Ty) {items items' : List Value} : items.length = items'.length →
      (∀ i (h : i < items.length) (h' : i < items'.length), Equal (items.get ⟨i, h⟩) (items'.get ⟨i, h'⟩)) →
      Equal (.array element items) (.array element items')
  | object (className : Text) {fields fields' : Table Text Value} :
      (∀ name, name ∈ fields.map (·.1) ↔ name ∈ fields'.map (·.1)) →
      (∀ name v w, Table.get? name fields = some v → Table.get? name fields' = some w → Equal v w) →
      Equal (.object className fields) (.object className fields')

/-! ## An equivalence -/

theorem Proper.equal {v : Value} (h : v.Proper) : Equal v v := by
  induction h with
  | scalar hn => exact .plain (isCompound_of_toInt? hn)
  | reference => exact .plain rfl
  | array element hitems ih => exact .array element rfl fun i h _ => ih _ (List.get_mem ..)
  | object className hnames hfields ih =>
    refine .object className (fun _ => Iff.rfl) fun name v w hv hw => ?_
    obtain rfl : v = w := Option.some.inj (hv.symm.trans hw)
    exact ih _ (Table.mem_of_get? hv)

theorem Equal.symm {v w : Value} (h : Equal v w) : Equal w v := by
  induction h with
  | plain hplain => exact .plain hplain
  | array element hlength _ ih => exact .array element hlength.symm fun i h h' => ih i h' h
  | object className hnames _ ih =>
    exact .object className (fun name => (hnames name).symm) fun name v w hv hw => ih name w v hw hv

theorem Equal.trans {u v w : Value} (h : Equal u v) (h' : Equal v w) : Equal u w := by
  induction h generalizing w with
  | plain hplain => exact h'
  | array element hlength _ ih =>
    cases h' with
    | plain hplain => cases hplain
    | array _ hlength' hitems' =>
      exact .array element (hlength.trans hlength') fun i h h' => ih i h (hlength ▸ h) (hitems' i _ h')
  | object className hnames _ ih =>
    cases h' with
    | plain hplain => cases hplain
    | object _ hnames' hfields' =>
      refine .object className (fun name => (hnames name).trans (hnames' name)) fun name u w hu hw => ?_
      have hname : name ∈ _ := (hnames name).1 (List.mem_map_of_mem (Table.mem_of_get? hu))
      obtain ⟨v, hv⟩ := Option.isSome_iff_exists.1 (Table.isSome_get?_iff.2 hname)
      exact ih name u v hu hv (hfields' name v w hv hw)

/-! ## Deciding it -/

theorem same_iff_eq {v : Value} (hproper : v.Proper) (h : v.isCompound = false) {w : Value} :
    v.same w = true ↔ v = w := by
  cases hproper with
  | @scalar _ n hn =>
    cases v with
    | reference ref => cases hn
    | array | object => cases h
    | _ => cases w <;> simp [same]
  | reference hkey =>
    cases w with
    | reference other => simp [same, sameKey_iff, hkey]
    | _ => simp [same]
  | array | object => cases h

theorem equal_iff_eq {v : Value} (h : v.isCompound = false) {w : Value} : v.Equal w ↔ v = w := by
  constructor
  · intro hequal
    cases hequal with
    | plain => rfl
    | array | object => cases h
  · rintro rfl
    exact .plain h

theorem sameItems_iff {items items' : List Value} :
    sameItems items items' = true ↔ List.Forall₂ (fun v w => v.same w = true) items items' := by
  induction items generalizing items' with
  | nil => cases items' <;> simp [sameItems]
  | cons v items ih => cases items' <;> simp [sameItems, ih]

theorem sameFields_iff {fields others : Table Text Value} :
    sameFields fields others = true ↔
      ∀ entry ∈ fields, ∃ w, Table.get? entry.1 others = some w ∧ entry.2.same w = true := by
  induction fields with
  | nil => simp [sameFields]
  | cons entry fields ih =>
    obtain ⟨name, v⟩ := entry
    cases hget : Table.get? name others <;> simp [sameFields, hget, ih]

theorem same_array_iff {element : Ty} {items : List Value} {w : Value} :
    (array element items).same w = true ↔ ∃ items', w = .array element items' ∧ items.length = items'.length ∧
      ∀ i (h : i < items.length) (h' : i < items'.length), (items.get ⟨i, h⟩).same (items'.get ⟨i, h'⟩) = true := by
  cases w with
  | array element' items' =>
    simp only [same, Bool.and_eq_true, Ty.same_eq_true_iff, sameItems_iff, List.forall₂_iff_get, array.injEq]
    constructor
    · rintro ⟨rfl, hitems⟩
      exact ⟨items', ⟨rfl, rfl⟩, hitems⟩
    · rintro ⟨_, ⟨rfl, rfl⟩, hitems⟩
      exact ⟨rfl, hitems⟩
  | _ => simp [same]

theorem same_object_iff {className : Text} {fields : Table Text Value} {w : Value} :
    (object className fields).same w = true ↔ ∃ others, w = .object className others ∧ fields.length = others.length ∧
      ∀ entry ∈ fields, ∃ x, Table.get? entry.1 others = some x ∧ entry.2.same x = true := by
  cases w with
  | object className' others =>
    simp only [same, Bool.and_eq_true, decide_eq_true_eq, sameFields_iff, object.injEq]
    constructor
    · rintro ⟨⟨rfl, hlength⟩, hfields⟩
      exact ⟨others, ⟨rfl, rfl⟩, hlength, hfields⟩
    · rintro ⟨_, ⟨rfl, rfl⟩, hlength, hfields⟩
      exact ⟨⟨rfl, hlength⟩, hfields⟩
  | _ => simp [same]

/-- `same` finds out what a value is equal to. -/
def Decided (v : Value) : Prop := ∀ w : Value, w.Proper → (v.same w = true ↔ v.Equal w)

theorem decided_plain {v : Value} (hproper : v.Proper) (h : v.isCompound = false) : v.Decided := by
  intro w hw
  rw [same_iff_eq hproper h, equal_iff_eq h]

theorem decided_array {element : Ty} {items : List Value} (h : ∀ v ∈ items, v.Decided) :
    (array element items).Decided := by
  intro w hw
  rw [same_array_iff]
  constructor
  · rintro ⟨items', rfl, hlength, hsame⟩
    refine .array element hlength fun i hi hi' => ?_
    exact (h _ (List.get_mem ..) _ (hw.items _ (List.get_mem ..))).1 (hsame i hi hi')
  · intro hequal
    cases hequal with
    | plain hplain => cases hplain
    | array _ hlength hitems =>
      refine ⟨_, rfl, hlength, fun i hi hi' => ?_⟩
      exact (h _ (List.get_mem ..) _ (hw.items _ (List.get_mem ..))).2 (hitems i hi hi')

theorem decided_object {className : Text} {fields : Table Text Value} (hnames : (fields.map (·.1)).Nodup)
    (h : ∀ entry ∈ fields, entry.2.Decided) : (object className fields).Decided := by
  intro w hw
  rw [same_object_iff]
  constructor
  · rintro ⟨others, rfl, hlength, hfound⟩
    obtain ⟨hnames', hothers⟩ := hw.fields
    have hsubset : ∀ name ∈ fields.map (·.1), name ∈ others.map (·.1) := by
      intro name hname
      obtain ⟨entry, hentry, rfl⟩ := List.mem_map.1 hname
      obtain ⟨x, hget, -⟩ := hfound entry hentry
      exact List.mem_map.2 ⟨_, Table.mem_of_get? hget, rfl⟩
    -- The counts agree, so the other object has no further names.
    refine .object className ((Table.names_eq_iff hnames hnames').2 ⟨hlength, hsubset⟩) fun name v x hv hx => ?_
    obtain ⟨y, hy, hsame⟩ := hfound _ (Table.mem_of_get? hv)
    obtain rfl : x = y := Option.some.inj (hx.symm.trans hy)
    exact (h _ (Table.mem_of_get? hv) x (hothers _ (Table.mem_of_get? hx))).1 hsame
  · intro hequal
    cases hequal with
    | plain hplain => cases hplain
    | object _ hall hfields =>
      obtain ⟨hnames', hothers⟩ := hw.fields
      obtain ⟨hlength, hsubset⟩ := (Table.names_eq_iff hnames hnames').1 hall
      refine ⟨_, rfl, hlength, fun entry hentry => ?_⟩
      obtain ⟨x, hx⟩ := Option.isSome_iff_exists.1 (Table.isSome_get?_iff.2 (hsubset _ (List.mem_map_of_mem hentry)))
      have hv := (Table.get?_eq_some_iff hnames).2 hentry
      exact ⟨x, hx, (h entry hentry x (hothers _ (Table.mem_of_get? hx))).2 (hfields _ _ _ hv hx)⟩

/-- Through all the parts of a value: what it is made of is decided, and so it is itself. -/
theorem Proper.decided {v : Value} (h : v.Proper) : v.Decided := by
  induction h with
  | scalar hn => exact decided_plain (.scalar hn) (isCompound_of_toInt? hn)
  | reference hkey => exact decided_plain (.reference hkey) rfl
  | array element _ ih => exact decided_array ih
  | object className hnames _ ih => exact decided_object hnames ih

/-- The order of the fields is no part of an object. -/
theorem Proper.equal_of_perm {className : Text} {fields others : Table Text Value} (h : Proper (.object className fields))
    (hperm : fields.Perm others) : Equal (.object className fields) (.object className others) := by
  obtain ⟨hnames, hfields⟩ := h.fields
  have hnames' : (others.map (·.1)).Nodup := (hperm.map _).nodup_iff.1 hnames
  refine .object className (fun name => (hperm.map _).mem_iff) fun name v w hv hw => ?_
  have hmem := Table.mem_of_get? hv
  have hv' := (Table.get?_eq_some_iff hnames').2 (hperm.mem_iff.1 hmem)
  obtain rfl : v = w := Option.some.inj (hv'.symm.trans hw)
  exact (hfields _ hmem).equal

theorem Proper.of_perm {className : Text} {fields others : Table Text Value} (h : Proper (.object className fields))
    (hperm : fields.Perm others) : Proper (.object className others) := by
  obtain ⟨hnames, hfields⟩ := h.fields
  exact .object className ((hperm.map _).nodup_iff.1 hnames) fun entry hentry => hfields entry (hperm.mem_iff.2 hentry)

theorem equivalence_same : Equivalence fun v w : {v : Value // v.Proper} => v.1.same w.1 = true where
  refl v := (v.2.decided v v.2).2 v.2.equal
  symm {v w} h := (w.2.decided v v.2).2 ((v.2.decided w w.2).1 h).symm
  trans {u v w} huv hvw := by
    have huv' := (u.2.decided v v.2).1 huv
    have hvw' := (v.2.decided w w.2).1 hvw
    exact (u.2.decided w w.2).2 (huv'.trans hvw')

end Value

/-- Unambiguous descriptors are the same for the same types only. -/
theorem Ty.same_iff_descriptor {type other : Ty} (h : type.Unambiguous) (hother : other.Unambiguous) :
    type.same other = true ↔ type.descriptor = other.descriptor := by
  rw [Ty.same_eq_true_iff]
  exact ⟨congrArg descriptor, descriptor_injective h hother⟩

/-- On values with integer payloads `same` is an equivalence, and it holds of the values that are
equal, of no others; an object is the same in whatever order its fields are. Types are the same if
they are built the same way, and, if no class name holds a `;`, if they have one descriptor. -/
theorem same_is_equality :
    (Equivalence fun v w : {v : Value // v.Proper} => v.1.same w.1 = true) ∧
      (∀ v w : Value, v.Proper → w.Proper → (v.same w = true ↔ v.Equal w)) ∧
      (∀ className fields others, Value.Proper (.object className fields) → List.Perm fields others →
        (Value.object className fields).same (.object className others) = true) ∧
      (∀ type other : Ty, type.same other = true ↔ type = other) ∧
      ∀ type other : Ty, type.Unambiguous → other.Unambiguous →
        (type.same other = true ↔ type.descriptor = other.descriptor) := by
  refine ⟨Value.equivalence_same, fun v w hv hw => hv.decided w hw, ?_, fun _ _ => Ty.same_eq_true_iff,
    fun _ _ h hother => Ty.same_iff_descriptor h hother⟩
  intro className fields others h hperm
  exact (h.decided _ (h.of_perm hperm)).2 (h.equal_of_perm hperm)

namespace Sample

/-- A point whose name is an array. -/
def point : List (Text × Value) :=
  [("x", .int 1), ("y", .int 2), ("name", .array (.primitive .char) [.char 112])]

theorem proper_point : Value.Proper (.object "Point" point) := by
  refine .object "Point" (by decide) ?_
  simp only [point, List.forall_mem_cons]
  refine ⟨.scalar rfl, .scalar rfl, .array _ ?_, List.forall_mem_nil _⟩
  simpa using Value.Proper.scalar rfl

end Sample

open Sample in
/-- The fields in the opposite order. Without one of them the point is another one. -/
theorem reversed_point_is_same :
    Value.Proper (.object "Point" point) ∧
      (Value.object "Point" point).same (.object "Point" point.reverse) = true ∧
      (Value.object "Point" point).same (.object "Point" point.tail) = false ∧
      Ty.same (.array (.object "Point")) (.array (.object "Point")) = true := by
  obtain ⟨-, -, hperm, htypes, -⟩ := same_is_equality
  exact ⟨proper_point, hperm _ _ _ proper_point (List.reverse_perm _).symm, rfl, (htypes _ _).2 rfl⟩

end Bytecode
