import Bytecode.Arguments
import Bytecode.Proofs.Decoding
/-!
# The first state

The reader of argument texts makes scalars and arrays of scalars (`parse_literal`),
and binding such values gives a state whose values are within its heap
(`State.within_initial`): every array goes to the heap, and its key to a slot.
-/
namespace Bytecode

/-- A value that narrowing makes. -/
def Value.Scalar (v : Value) : Prop := ∃ p n, v = .narrow p n

/-- A scalar, or an array of scalars. -/
inductive Value.Literal : Value → Prop
  | scalar {v : Value} : v.Scalar → Literal v
  | array (element : Ty) {items : List Value} : (∀ v ∈ items, v.Scalar) → Literal (.array element items)

/-! ## Reading -/

/-- Whatever the action answers has the property. -/
def Yields {ε σ α : Type} (P : α → Prop) (x : EStateM ε σ α) : Prop := ∀ s a s', x s = .ok a s' → P a

section Yields

variable {ε σ α β : Type} {P : α → Prop} {Q : β → Prop}

theorem yields_pure {a : α} (h : P a) : Yields P (pure a : EStateM ε σ α) := by
  intro s b s' hok
  cases hok
  exact h

theorem yields_throw (e : ε) : Yields P (throw e : EStateM ε σ α) := by
  intro s a s' hok
  cases hok

theorem yields_any (x : EStateM ε σ α) : Yields (fun _ => True) x := fun _ _ _ _ => trivial

theorem Yields.bind {x : EStateM ε σ α} {f : α → EStateM ε σ β} (hx : Yields P x)
    (hf : ∀ a, P a → Yields Q (f a)) :
    Yields Q (x >>= f) := by
  intro s b s' h
  rw [bind_apply] at h
  cases hs : x s with
  | ok a t =>
    rw [hs] at h
    exact hf a (hx s a t hs) t b s' h
  | error e t => rw [hs] at h; cases h

/-- Behind an action of which nothing is known. -/
theorem Yields.after {x : EStateM ε σ α} {f : α → EStateM ε σ β} (hf : ∀ a, Yields Q (f a)) :
    Yields Q (x >>= f) :=
  (yields_any x).bind fun a _ => hf a

end Yields

namespace Value

theorem scalar_char (u : CodeUnit) : (char u.toNat).Scalar := ⟨_, _, char_eq_narrow u⟩

theorem scalar_int {n : Int} (h : -2147483648 ≤ n) (h' : n ≤ 2147483647) : (int n).Scalar := by
  refine ⟨.int, n, ?_⟩
  rw [narrow_int, Word.signed, Int.bmod_eq_of_le]
  · exact h
  · exact Int.lt_of_le_of_lt h' (by decide)

theorem scalar_boolean (b : Bool) : (boolean b).Scalar := ⟨_, _, boolean_eq_narrow b⟩

theorem Scalar.within {size : Nat} {v : Value} (h : v.Scalar) : v.Within size := by
  obtain ⟨p, n, rfl⟩ := h
  exact .scalar p n

end Value

namespace Arguments

open Value

theorem yields_readChar (literal : Text) : Yields Scalar (readChar literal) := by
  unfold readChar
  split
  · split
    · exact .after fun _ => yields_pure (scalar_char _)
    · exact yields_throw _
  · exact yields_throw _

theorem yields_readScalar : Yields Scalar readScalar := by
  refine .after fun _ => .after fun t => ?_
  split
  · exact yields_readChar _
  · split
    · refine .after fun _ => ?_
      simp only []
      split
      · rename_i hrange
        simp only [Bool.and_eq_true, decide_eq_true_eq] at hrange
        -- A number that is not refused is in the range of an `int`, where narrowing keeps it.
        exact yields_pure (scalar_int hrange.1 hrange.2)
      · exact yields_throw _
    · split
      · exact .after fun _ => yields_pure (scalar_boolean true)
      · split
        · exact .after fun _ => yields_pure (scalar_boolean false)
        · exact yields_throw _

section Lists

variable {P : Value → Prop} {item : Reader Value}

theorem yields_readItems (hitem : Yields P item) (bound : Nat) :
    Yields (∀ v ∈ ·, P v) (readItems item bound) := by
  induction bound with
  | zero => exact yields_throw _
  | succ bound ih =>
    refine hitem.bind fun v hv => .after fun more => ?_
    split
    · exact ih.bind fun vs hvs => yields_pure (List.forall_mem_cons.2 ⟨hv, hvs⟩)
    · exact yields_pure (List.forall_mem_singleton.2 hv)

theorem yields_readUntil (hitem : Yields P item) (close : CodeUnit) :
    Yields (∀ v ∈ ·, P v) (readUntil close item) := by
  refine .after fun empty => ?_
  split
  · exact yields_pure fun v hv => absurd hv List.not_mem_nil
  · refine .after fun t => (yields_readItems hitem _).bind fun vs hvs => ?_
    exact .after fun _ => yields_pure hvs

end Lists

theorem yields_readElement (type : Primitive) : Yields (fun v => v.Scalar ∧ v.kind = type.name) (readElement type) := by
  refine yields_readScalar.bind fun v hv => ?_
  split
  · rename_i hkind
    exact yields_pure ⟨hv, hkind⟩
  · exact yields_throw _

section Values

variable {P : Value → Prop} (hscalar : ∀ v, v.Scalar → P v)
  (harray : ∀ (type : Primitive) (items : List Value), (∀ v ∈ items, v.Scalar ∧ v.kind = type.name) →
    P (.array (.primitive type) items))

include harray in
theorem yields_readArray : Yields P readArray := by
  refine .after fun t => ?_
  split
  · exact yields_throw _
  · split
    · exact yields_throw _
    · refine .after fun _ => .after fun _ => ?_
      exact (yields_readUntil (yields_readElement _) _).bind fun items hitems => yields_pure (harray _ items hitems)

include hscalar harray in
theorem yields_readValue : Yields P readValue := by
  refine .after fun isArray => ?_
  split
  · exact yields_readArray harray
  · intro s v s' h
    exact hscalar v (yields_readScalar s v s' h)

include hscalar harray in
theorem yields_readAll : Yields (∀ v ∈ ·, P v) readAll := by
  refine .after fun _ => (yields_readUntil (yields_readValue hscalar harray) _).bind fun vs hvs => ?_
  refine .after fun _ => .after fun rest => ?_
  split
  · exact yields_pure hvs
  · exact yields_throw _

include hscalar harray in
/-- What scalars have, and arrays whose items are scalars of one kind, all values have that a text lists. -/
theorem parse_all {text : Text} {values : List Value} (h : parse text = .ok values) : ∀ v ∈ values, P v := by
  unfold parse at h
  simp only [] at h
  split at h
  · rename_i hread
    cases h
    exact yields_readAll hscalar harray _ _ _ hread
  · cases h

end Values

/-- All values that a text lists are scalars and arrays of scalars. -/
theorem parse_literal {text : Text} {values : List Value} (h : parse text = .ok values) : ∀ v ∈ values, v.Literal := by
  refine parse_all (fun v => .scalar) (fun type items hitems => ?_) h
  exact .array _ fun v hv => (hitems v hv).1

end Arguments

/-! ## Binding -/

namespace State

/-- A scalar argument is bound as a scalar. -/
theorem bindArgument_scalar (heap : Heap) {v : Value} (h : v.Scalar) :
    ∃ w, w.Scalar ∧ bindArgument heap v = (w, heap) := by
  obtain ⟨p, n, rfl⟩ := h
  cases p with
  | boolean =>
    -- A boolean is passed as the integer 0 or 1.
    refine ⟨_, ?_, rfl⟩
    split
    · exact Value.scalar_int (by decide) (by decide)
    · exact Value.scalar_int (by decide) (by decide)
  | int => exact ⟨_, ⟨.int, n, rfl⟩, rfl⟩
  | char => exact ⟨_, ⟨.char, n, rfl⟩, rfl⟩
  | short => exact ⟨_, ⟨.short, n, rfl⟩, rfl⟩
  | byte => exact ⟨_, ⟨.byte, n, rfl⟩, rfl⟩

/-- Binding an argument gives an operand, and a heap with one more array if the argument is one. -/
theorem within_bindArgument {heap : Heap} (hheap : heap.All (Value.Within heap.size)) {v : Value} (hv : v.Literal) :
    heap.size ≤ (bindArgument heap v).2.size ∧
      (bindArgument heap v).1.Within (bindArgument heap v).2.size ∧
      (bindArgument heap v).2.All (Value.Within (bindArgument heap v).2.size) := by
  cases hv with
  | scalar hscalar =>
    obtain ⟨w, hw, hbind⟩ := bindArgument_scalar heap hscalar
    rw [hbind]
    exact ⟨Nat.le_refl _, hw.within, hheap⟩
  | @array element items hitems =>
    have hgrows : heap.size ≤ (heap.allocate (.array element items)).size := by simp
    have hitems' : ∀ v ∈ items, v.Within (heap.allocate (.array element items)).size := by
      intro v hv
      exact (hitems v hv).within
    have hkey : heap.size < (heap.allocate (.array element items)).size := by simp
    refine ⟨hgrows, .reference hkey, .allocate ?_ (.array element hitems')⟩
    intro entry hentry
    exact (hheap entry hentry).mono fun v hv => hv.mono hgrows

theorem within_bindArguments {heap : Heap} (hheap : heap.All (Value.Within heap.size)) {values : List Value}
    (hvalues : ∀ v ∈ values, v.Literal) :
    heap.size ≤ (bindArguments heap values).2.size ∧
      (∀ v ∈ (bindArguments heap values).1, v.Within (bindArguments heap values).2.size) ∧
      (bindArguments heap values).2.All (Value.Within (bindArguments heap values).2.size) := by
  induction values generalizing heap with
  | nil => exact ⟨Nat.le_refl _, fun v hv => absurd hv List.not_mem_nil, hheap⟩
  | cons v values ih =>
    obtain ⟨hv, hvalues⟩ := List.forall_mem_cons.1 hvalues
    obtain ⟨hgrows, harg, hheap'⟩ := within_bindArgument hheap hv
    obtain ⟨hgrows', hargs, hheap''⟩ := ih hheap' hvalues
    exact ⟨Nat.le_trans hgrows hgrows', List.forall_mem_cons.2 ⟨harg.mono hgrows', hargs⟩, hheap''⟩

/-- The state in which a method begins with values that were read. -/
theorem within_initial (method : MethodId) {values : List Value} (h : ∀ v ∈ values, v.Literal) :
    (initial method values).All (Value.Within (initial method values).heap.size) := by
  have hempty : Heap.empty.All (Value.Within Heap.empty.size) := by
    intro entry hentry
    exact absurd hentry (Array.not_mem_empty _)
  obtain ⟨-, hargs, hheap⟩ := within_bindArguments hempty h
  refine ⟨fun frame hframe => ?_, hheap, fun entry hentry => absurd hentry List.not_mem_nil⟩
  obtain rfl := List.mem_singleton.1 hframe
  exact Frame.all_start method hargs

end State

end Bytecode
