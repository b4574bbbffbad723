import Bytecode.Proofs.Identifier
/-!
# Reading back descriptors

What is read from a descriptor is what the descriptor writes: the reader of one
type takes exactly that type's descriptor from the front of a text
(`Ty.readDescriptor_sound`), and the reader of parameters exactly theirs, although
a class name may hold the parenthesis that ends them. So descriptors are read and
written without loss, and nothing else is accepted (`descriptors_lossless`).
-/
namespace Bytecode

/-! ## Refusals -/

/-- If there is no answer, the fault is that the input cannot be read. -/
def BlamesInput {α : Type} (x : Except Fault α) : Prop :=
  ∀ fault, x = .error fault → fault.label = "InputParseError"

section Answers

variable {α β : Type}

theorem except_map_eq_ok {f : α → β} {x : Except Fault α} {b : β} : x.map f = .ok b ↔ ∃ a, x = .ok a ∧ f a = b := by
  cases x <;> simp [Except.map]

theorem except_bind_eq_ok {f : α → Except Fault β} {x : Except Fault α} {b : β} :
    (x >>= f) = .ok b ↔ ∃ a, x = .ok a ∧ f a = .ok b := by
  cases x <;> simp [bind, Except.bind]

theorem blamesInput_ok (a : α) : BlamesInput (.ok a : Except Fault α) := by
  intro fault h
  cases h

theorem blamesInput_input (cause : InputFault) : BlamesInput (.error (.input cause) : Except Fault α) := by
  intro fault h
  cases h
  rfl

theorem BlamesInput.bind {x : Except Fault α} {f : α → Except Fault β} (hx : BlamesInput x)
    (hf : ∀ a, BlamesInput (f a)) : BlamesInput (x >>= f) := by
  cases x with
  | ok a => exact hf a
  | error cause =>
    intro fault h
    cases h
    exact hx cause rfl

theorem BlamesInput.map {x : Except Fault α} (hx : BlamesInput x) (f : α → β) : BlamesInput (x.map f) := by
  cases x with
  | ok a => exact blamesInput_ok (f a)
  | error cause =>
    intro fault h
    cases h
    exact hx cause rfl

end Answers

/-! ## One type -/

theorem Primitive.letter_of_ofLetter? {u : CodeUnit} {p : Primitive} (h : Primitive.ofLetter? u = some p) :
    p.letter = u := by
  simpa using List.find?_some h

/-- Reading takes the descriptor of what it answers from the front of the text. -/
theorem Ty.readDescriptor_sound {whole t rest : Text} {type : Ty}
    (h : Ty.readDescriptor whole t = .ok (type, rest)) : type.Unambiguous ∧ t = type.descriptor ++ rest := by
  induction t generalizing type rest with
  | nil => cases h
  | cons u tail ih =>
    rw [Ty.readDescriptor] at h
    split at h
    · rename_i p hletter
      cases h
      exact ⟨trivial, by rw [← Primitive.letter_of_ofLetter? hletter]; rfl⟩
    · split at h
      · rename_i hbracket
        obtain ⟨⟨element, after⟩, helement, heq⟩ := except_map_eq_ok.1 h
        cases heq
        obtain ⟨hvalid, rfl⟩ := ih helement
        exact ⟨hvalid, by rw [hbracket]; rfl⟩
      · split at h
        · rename_i hclass
          split at h
          · rename_i className after hcut
            cases h
            obtain ⟨hsemi, rfl⟩ := Text.cutFirst_eq_some hcut
            exact ⟨hsemi, by simp [Ty.descriptor_object, hclass]⟩
          · cases h
        · cases h

theorem Ty.blamesInput_readDescriptor (whole t : Text) : BlamesInput (Ty.readDescriptor whole t) := by
  induction t with
  | nil => exact blamesInput_input _
  | cons u tail ih =>
    rw [Ty.readDescriptor]
    split
    · exact blamesInput_ok _
    · split
      · exact ih.map _
      · split
        · split
          · exact blamesInput_ok _
          · exact blamesInput_input _
        · exact blamesInput_input _

theorem Ty.ofDescriptor_sound {t : Text} {type : Ty} (h : Ty.ofDescriptor t = .ok type) :
    type.Unambiguous ∧ type.descriptor = t := by
  obtain ⟨⟨read, after⟩, hread, h⟩ := except_bind_eq_ok.1 h
  obtain ⟨hvalid, ht⟩ := Ty.readDescriptor_sound hread
  simp only at h
  split at h
  · rename_i hempty
    cases h
    rw [List.isEmpty_iff.1 hempty, List.append_nil] at ht
    exact ⟨hvalid, ht.symm⟩
  · cases h

theorem Ty.blamesInput_ofDescriptor (t : Text) : BlamesInput (Ty.ofDescriptor t) := by
  refine (Ty.blamesInput_readDescriptor t t).bind fun (type, after) => ?_
  simp only
  split
  · exact blamesInput_ok _
  · exact blamesInput_input _

/-! ## Signatures -/

/-- Reading parameters takes their descriptors and the parenthesis that ends them. -/
theorem readParams_sound {whole t rest : Text} {params : List Ty} (h : readParams whole t = .ok (params, rest)) :
    (∀ type ∈ params, type.Unambiguous) ∧ t = params.flatMap Ty.descriptor ++ CodeUnit.ofChar ')' :: rest := by
  fun_induction readParams whole t generalizing params rest with
  | case1 t hclose =>
    cases h
    obtain ⟨tail, rfl⟩ := List.head?_eq_some_iff.1 hclose
    exact ⟨List.forall_mem_nil _, rfl⟩
  | case2 t _ fault _ => cases h
  | case3 t _ param after hread _ ih =>
    obtain ⟨⟨later, after'⟩, hlater, heq⟩ := except_map_eq_ok.1 h
    cases heq
    obtain ⟨hparam, rfl⟩ := Ty.readDescriptor_sound hread
    obtain ⟨hvalid, rfl⟩ := ih hlater
    exact ⟨List.forall_mem_cons.2 ⟨hparam, hvalid⟩, by simp⟩

theorem blamesInput_readParams (whole t : Text) : BlamesInput (readParams whole t) := by
  fun_induction readParams whole t with
  | case1 t _ => exact blamesInput_ok _
  | case2 t _ fault hfault =>
    intro cause h
    cases h
    exact Ty.blamesInput_readDescriptor whole t fault hfault
  | case3 t _ param after _ _ ih => exact ih.map _

theorem parseSignature_sound {t : Text} {params : List Ty} {returns : Option Ty}
    (h : parseSignature t = .ok (params, returns)) :
    UnambiguousSignature params returns ∧ signatureText params returns = t := by
  have hopen : Text.ofString "(" = [CodeUnit.ofChar '('] := by decide
  unfold parseSignature at h
  split at h
  · cases h
  · rename_i inner hinner
    obtain ⟨⟨read, result⟩, hread, hresult⟩ := except_bind_eq_ok.1 h
    obtain ⟨hparams, rfl⟩ := readParams_sound hread
    have ht := Text.dropLead?_eq_some_iff.1 hinner
    simp only at hresult
    split at hresult
    · rename_i hvoid
      cases hresult
      exact ⟨⟨hparams, by simp⟩, by simp [ht, signatureText_eq, hopen, hvoid]⟩
    · obtain ⟨type, htype, hresult⟩ := except_bind_eq_ok.1 hresult
      cases hresult
      obtain ⟨hvalid, rfl⟩ := Ty.ofDescriptor_sound htype
      exact ⟨⟨hparams, by simpa using hvalid⟩, by simp [ht, signatureText_eq, hopen]⟩

theorem blamesInput_parseSignature (t : Text) : BlamesInput (parseSignature t) := by
  unfold parseSignature
  split
  · exact blamesInput_input _
  · rename_i inner _
    refine (blamesInput_readParams t inner).bind fun (params, result) => ?_
    simp only
    split
    · exact blamesInput_ok _
    · exact (Ty.blamesInput_ofDescriptor result).bind fun _ => blamesInput_ok _

/-! ## Both ways -/

/-- What is written is read back as it was, what is read is written as it was, and every text that is not written for
anything is refused as an input that cannot be read. -/
structure Lossless {α : Type} (valid : α → Prop) (write : α → Text) (read : Text → Except Fault α) : Prop where
  read_write {a : α} : valid a → read (write a) = .ok a
  write_read {t : Text} {a : α} : read t = .ok a → valid a ∧ write a = t
  refuses {t : Text} : (∀ a, valid a → write a ≠ t) → ∃ fault, read t = .error fault ∧ fault.label = "InputParseError"

theorem lossless_of_blamesInput {α : Type} {valid : α → Prop} {write : α → Text} {read : Text → Except Fault α}
    (hwrite : ∀ {a}, valid a → read (write a) = .ok a) (hread : ∀ {t a}, read t = .ok a → valid a ∧ write a = t)
    (hblames : ∀ t, BlamesInput (read t)) : Lossless valid write read where
  read_write := hwrite
  write_read := hread
  refuses {t} hnone := by
    cases hanswer : read t with
    | ok a => exact absurd (hread hanswer).2 (hnone a (hread hanswer).1)
    | error fault => exact ⟨fault, rfl, hblames t fault hanswer⟩

/-- The descriptors of types, and those of parameters with a result, as long as no class name holds a `;`. -/
theorem descriptors_lossless :
    Lossless Ty.Unambiguous Ty.descriptor Ty.ofDescriptor ∧
      Lossless (fun signature : List Ty × Option Ty => UnambiguousSignature signature.1 signature.2)
        (fun signature => signatureText signature.1 signature.2) parseSignature :=
  ⟨lossless_of_blamesInput Ty.ofDescriptor_descriptor Ty.ofDescriptor_sound Ty.blamesInput_ofDescriptor,
    lossless_of_blamesInput parseSignature_signatureText parseSignature_sound blamesInput_parseSignature⟩

end Bytecode
