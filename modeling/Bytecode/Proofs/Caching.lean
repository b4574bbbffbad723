import Bytecode.Proofs.Reach
import Mathlib.Data.Finset.Card
/-!
# The store as a cache

A store is asked for bodies, for instructions, for declarations and for what static
fields start with. Whatever was asked before, also in vain, it answers as a fresh store
does, and it remembers the bodies and the declarations that were found and nothing else
(`Store.Remembers`). One request keeps this true (`Store.Remembers.ask`), and so does any
sequence of requests (`store_is_transparent`).
-/
namespace Bytecode

/-! ## Requests -/

/-- What a store can be asked. -/
inductive Request where
  | body (method : MethodId)
  | instruction (pc : ProgramCounter)
  | declaration (className : Text)
  | initial (field : FieldRef)

/-- What a store replies. -/
inductive Reply where
  | body (code : Code)
  | instruction (instruction : Instruction)
  | declaration (info : ClassInfo)
  | initial (value : Value)

namespace Request

/-- The method whose body is needed for the reply. -/
def method? : Request → Option MethodId
  | .body method => some method
  | .instruction pc => some pc.method
  | .declaration _ | .initial _ => none

/-- The class whose declaration is needed for the reply. -/
def class? : Request → Option Text
  | .body _ | .instruction _ => none
  | .declaration className => some className
  | .initial field => some field.className

/-- The method that is asked about cannot be taken for another. -/
def Unambiguous (request : Request) : Prop := ∀ method ∈ request.method?, method.Unambiguous

/-- The image has neither body nor declaration for the reply. -/
def Misses (image : Image) (request : Request) : Prop :=
  (∀ method ∈ request.method?, (answer (Image.code method image)).isOk = false) ∧
    ∀ className ∈ request.class?, (answer (Image.classInfo className image)).isOk = false

end Request

namespace Store

def ask : Request → EStateM Fault Store Reply
  | .body method => .body <$> code method
  | .instruction pc => .instruction <$> fetch pc
  | .declaration className => .declaration <$> classInfo className
  | .initial field => .initial <$> staticValue field

/-- What requests leave of a store, one after another, whether they fail or not. -/
def after (requests : List Request) (store : Store) : Store :=
  requests.foldl (fun s request => final (ask request s)) store

/-- The methods that were asked about and have bodies. -/
def fetched (image : Image) (requests : List Request) : Finset MethodId :=
  ((requests.filterMap Request.method?).filter fun method => (answer (Image.code method image)).isOk).toFinset

/-- The classes that were asked about and have declarations. -/
def declared (image : Image) (requests : List Request) : Finset Text :=
  ((requests.filterMap Request.class?).filter fun className =>
    (answer (Image.classInfo className image)).isOk).toFinset

theorem map_apply {α β : Type} (f : α → β) (x : EStateM Fault Store α) (store : Store) :
    answer ((f <$> x) store) = (answer (x store)).map f ∧ final ((f <$> x) store) = final (x store) := by
  change answer (EStateM.map f x store) = _ ∧ final (EStateM.map f x store) = _
  unfold EStateM.map
  cases x store <;> exact ⟨rfl, rfl⟩

/-- A request leaves what fetching the one body or the one declaration that it needs leaves. -/
theorem final_ask (request : Request) (store : Store) :
    (∃ method, request.method? = some method ∧ request.class? = none ∧
        final (ask request store) = final (code method store)) ∨
      ∃ className, request.method? = none ∧ request.class? = some className ∧
        final (ask request store) = final (classInfo className store) := by
  cases request with
  | body method => exact .inl ⟨method, rfl, rfl, (map_apply _ _ store).2⟩
  | instruction pc => exact .inl ⟨pc.method, rfl, rfl, (map_apply _ _ store).2.trans (fetch_eq pc store).2⟩
  | declaration className => exact .inr ⟨className, rfl, rfl, (map_apply _ _ store).2⟩
  | initial field =>
    exact .inr ⟨field.className, rfl, rfl, (map_apply _ _ store).2.trans (staticValue_eq field store).2⟩

/-- Two stores that are faithful to one image give the same replies. -/
theorem Faithful.answer_ask {image : Image} {store store' : Store} (h : Faithful image store)
    (h' : Faithful image store') {request : Request} (hrequest : request.Unambiguous) :
    answer (ask request store) = answer (ask request store') := by
  cases request with
  | body method =>
    have hm : method.Unambiguous := hrequest method rfl
    simp only [ask, map_apply, h.code hm, h'.code hm]
  | instruction pc =>
    have hm : pc.method.Unambiguous := hrequest pc.method rfl
    simp only [ask, map_apply, h.fetch hm, h'.fetch hm]
  | declaration className => simp only [ask, map_apply, h.classInfo className, h'.classInfo className]
  | initial field =>
    simp only [ask, map_apply, staticValue_eq, h.classInfo field.className, h'.classInfo field.className]

/-! ## What a store remembers -/

theorem mem_fetched {image : Image} {requests : List Request} {method : MethodId} :
    method ∈ fetched image requests ↔
      (∃ request ∈ requests, request.method? = some method) ∧ (answer (Image.code method image)).isOk = true := by
  simp [fetched]

theorem mem_declared {image : Image} {requests : List Request} {className : Text} :
    className ∈ declared image requests ↔
      (∃ request ∈ requests, request.class? = some className) ∧
        (answer (Image.classInfo className image)).isOk = true := by
  simp [declared]

/-- What a store over an image is after some requests. -/
structure Remembers (image : Image) (requests : List Request) (store : Store) : Prop where
  faithful : Faithful image store
  /-- Each body that was fetched is kept once, under the text of its method. -/
  methods : ∃ methods : List MethodId, methods.Nodup ∧ (∀ method, method ∈ methods ↔ method ∈ fetched image requests) ∧
    store.methods.map (·.1) = methods.map MethodId.text
  /-- The declarations that were found are kept. -/
  classes : ∀ className, className ∈ store.classes.map (·.1) ↔ className ∈ declared image requests

theorem remembers_ofImage (image : Image) : Remembers image [] (ofImage image) where
  faithful := faithful_ofImage image
  methods := ⟨[], List.nodup_nil, fun _ => by simp [fetched], rfl⟩
  classes _ := by simp [declared, ofImage]

theorem unambiguous_of_mem_fetched {image : Image} {requests : List Request} {method : MethodId}
    (hrequests : ∀ request ∈ requests, request.Unambiguous) (h : method ∈ fetched image requests) :
    method.Unambiguous := by
  obtain ⟨⟨request, hmem, hmethod⟩, -⟩ := mem_fetched.1 h
  exact hrequests request hmem method hmethod

/-- The keys that fetching a body leaves: one more if the body is new and the image has it. -/
theorem keys_code (method : MethodId) (store : Store) :
    (final (code method store)).methods.map (·.1) =
      if method.text ∈ store.methods.map (·.1) ∨ (answer (Image.code method store.image)).isOk = false then
        store.methods.map (·.1)
      else store.methods.map (·.1) ++ [method.text] := by
  rw [code_apply]
  cases hget : Table.get? method.text store.methods with
  | some code =>
    have hmem : method.text ∈ store.methods.map (·.1) :=
      List.mem_map.2 ⟨_, Table.mem_of_get? hget, rfl⟩
    rw [if_pos (.inl hmem)]
    rfl
  | none =>
    have hmem := Table.get?_eq_none_iff.1 hget
    cases himage : Image.code method store.image with
    | error fault image =>
      rw [if_pos (.inr rfl)]
      rfl
    | ok code image =>
      rw [if_neg (not_or.2 ⟨hmem, by simp [answer, Except.isOk, Except.toBool]⟩)]
      simp [final, Table.insert_of_get?_eq_none hget]

/-- The keys that finding a declaration leaves: one more if it is new and the image has it. -/
theorem keys_classInfo (className : Text) (store : Store) :
    (final (classInfo className store)).classes.map (·.1) =
      if className ∈ store.classes.map (·.1) ∨ (answer (Image.classInfo className store.image)).isOk = false then
        store.classes.map (·.1)
      else store.classes.map (·.1) ++ [className] := by
  rw [classInfo_apply]
  cases hget : Table.get? className store.classes with
  | some info =>
    have hmem : className ∈ store.classes.map (·.1) := List.mem_map.2 ⟨_, Table.mem_of_get? hget, rfl⟩
    rw [if_pos (.inl hmem)]
    rfl
  | none =>
    have hmem := Table.get?_eq_none_iff.1 hget
    cases himage : Image.classInfo className store.image with
    | error fault image =>
      rw [if_pos (.inr rfl)]
      rfl
    | ok info image =>
      rw [if_neg (not_or.2 ⟨hmem, by simp [answer, Except.isOk, Except.toBool]⟩)]
      simp [final, Table.insert_of_get?_eq_none hget]

/-- The text of a method is a key if and only if the method's own body was fetched. -/
theorem Remembers.text_mem {image : Image} {requests : List Request} {store : Store}
    (h : Remembers image requests store) (hrequests : ∀ request ∈ requests, request.Unambiguous) {method : MethodId}
    (hm : method.Unambiguous) : method.text ∈ store.methods.map (·.1) ↔ method ∈ fetched image requests := by
  obtain ⟨methods, -, hmethods, hkeys⟩ := h.methods
  rw [hkeys, List.mem_map]
  constructor
  · rintro ⟨other, hother, htext⟩
    have hfetched := (hmethods other).1 hother
    exact MethodId.text_injective (unambiguous_of_mem_fetched hrequests hfetched) hm htext ▸ hfetched
  · intro hfetched
    exact ⟨method, (hmethods method).2 hfetched, rfl⟩

/-- A request that needs a body is remembered with it if it was found. -/
theorem Remembers.code {image : Image} {requests : List Request} {store : Store} (h : Remembers image requests store)
    (hrequests : ∀ request ∈ requests, request.Unambiguous) {request : Request} {method : MethodId}
    (hmethod : request.method? = some method) (hclass : request.class? = none) (hm : method.Unambiguous) :
    Remembers image (requests ++ [request]) (final (Store.code method store)) where
  faithful := (h.faithful.code hm).2
  methods := by
    have hkey := h.text_mem hrequests hm
    obtain ⟨methods, hnodup, hmethods, hkeys⟩ := h.methods
    have hsame := h.faithful.agrees.code method
    rw [← hmethods] at hkey
    have hfetched : ∀ other, other ∈ fetched image (requests ++ [request]) ↔
        other ∈ methods ∨ other = method ∧ (answer (Image.code method image)).isOk = true := by
      intro other
      rw [hmethods, mem_fetched, mem_fetched]
      simp only [List.mem_append, List.mem_singleton]
      grind
    rw [keys_code, hsame]
    split
    · rename_i hold
      rw [hkey] at hold
      refine ⟨methods, hnodup, fun other => ?_, hkeys⟩
      rw [hfetched]
      grind
    · rename_i hnew
      rw [not_or, hkey] at hnew
      refine ⟨methods ++ [method], ?_, fun other => ?_, by simp [hkeys]⟩
      · rw [List.nodup_append]
        grind
      · rw [hfetched]
        grind
  classes className := by
    rw [classes_code, h.classes, mem_declared, mem_declared]
    grind

/-- A request that needs a declaration is remembered with it if it was found. -/
theorem Remembers.classInfo {image : Image} {requests : List Request} {store : Store}
    (h : Remembers image requests store) {request : Request} {className : Text}
    (hmethod : request.method? = none) (hclass : request.class? = some className) :
    Remembers image (requests ++ [request]) (final (Store.classInfo className store)) where
  faithful := (h.faithful.classInfo className).2
  methods := by
    obtain ⟨methods, hnodup, hmethods, hkeys⟩ := h.methods
    refine ⟨methods, hnodup, fun other => ?_, methods_classInfo className store ▸ hkeys⟩
    rw [hmethods, mem_fetched, mem_fetched]
    grind
  classes other := by
    have hsame := h.faithful.agrees.classInfo className
    have hdeclared : other ∈ declared image (requests ++ [request]) ↔
        other ∈ store.classes.map (·.1) ∨
          other = className ∧ (answer (Image.classInfo className image)).isOk = true := by
      rw [h.classes, mem_declared, mem_declared]
      simp only [List.mem_append, List.mem_singleton]
      grind
    rw [keys_classInfo, hsame, hdeclared]
    grind

/-- A request adds to what is remembered what it found. -/
theorem Remembers.ask {image : Image} {requests : List Request} {store : Store} (h : Remembers image requests store)
    (hrequests : ∀ request ∈ requests, request.Unambiguous) {request : Request} (hrequest : request.Unambiguous) :
    Remembers image (requests ++ [request]) (final (Store.ask request store)) := by
  rcases final_ask request store with ⟨method, hmethod, hclass, heq⟩ | ⟨className, hmethod, hclass, heq⟩ <;> rw [heq]
  · exact h.code hrequests hmethod hclass (hrequest method hmethod)
  · exact h.classInfo hmethod hclass

theorem Remembers.after {image : Image} {asked requests : List Request} {store : Store}
    (h : Remembers image asked store) (hasked : ∀ request ∈ asked, request.Unambiguous)
    (hrequests : ∀ request ∈ requests, request.Unambiguous) :
    Remembers image (asked ++ requests) (Store.after requests store) := by
  induction requests generalizing asked store with
  | nil => simpa [Store.after] using h
  | cons request requests ih =>
    obtain ⟨hrequest, hrest⟩ := List.forall_mem_cons.1 hrequests
    have hmore : ∀ r ∈ asked ++ [request], r.Unambiguous :=
      List.forall_mem_append.2 ⟨hasked, List.forall_mem_singleton.2 hrequest⟩
    have hnext := ih (h.ask hasked hrequest) hmore hrest
    rwa [List.append_assoc] at hnext

/-- So many bodies are kept as methods with bodies were asked about. -/
theorem Remembers.cachedMethodCount {image : Image} {requests : List Request} {store : Store}
    (h : Remembers image requests store) : store.cachedMethodCount = (fetched image requests).card := by
  obtain ⟨methods, hnodup, hmethods, hkeys⟩ := h.methods
  have hset : fetched image requests = methods.toFinset := by
    ext method
    rw [List.mem_toFinset, hmethods]
  have hlength := congrArg List.length hkeys
  simp only [List.length_map] at hlength
  rw [hset, List.toFinset_card_of_nodup hnodup, ← hlength]
  rfl

/-- A request for which the image has nothing leaves nothing behind. -/
theorem Faithful.ask_misses {image : Image} {store : Store} (h : Faithful image store) {request : Request}
    (hrequest : request.Unambiguous) (hmisses : request.Misses image) :
    (final (ask request store)).methods = store.methods ∧ (final (ask request store)).classes = store.classes := by
  rcases final_ask request store with ⟨method, hmethod, -, heq⟩ | ⟨className, -, hclass, heq⟩ <;> rw [heq]
  · have hmiss := hmisses.1 method hmethod
    refine ⟨?_, classes_code method store⟩
    rw [code_apply]
    cases hget : Table.get? method.text store.methods with
    | some code =>
      rw [h.methods method code (hrequest method hmethod) hget] at hmiss
      cases hmiss
    | none =>
      rw [← h.agrees.code method] at hmiss
      cases himage : Image.code method store.image with
      | error fault image' => rfl
      | ok code image' => rw [himage] at hmiss; cases hmiss
  · have hmiss := hmisses.2 className hclass
    refine ⟨methods_classInfo className store, ?_⟩
    rw [classInfo_apply]
    cases hget : Table.get? className store.classes with
    | some info =>
      rw [h.classes className info hget] at hmiss
      cases hmiss
    | none =>
      rw [← h.agrees.classInfo className] at hmiss
      cases himage : Image.classInfo className store.image with
      | error fault image' => rfl
      | ok info image' => rw [himage] at hmiss; cases hmiss

end Store

/-- After any requests, some of which may have failed, a store replies to the next one as a fresh
store does, over the image as it was and as the requests left it. It has kept the bodies and the
declarations that were found; a request that fails because the image has nothing for it leaves no
trace; and the bodies that it has kept are as many as the methods whose bodies were found. -/
theorem store_is_transparent (image : Image) (requests : List Request)
    (hrequests : ∀ request ∈ requests, request.Unambiguous) :
    let store := Store.after requests (.ofImage image)
    (∀ request : Request, request.Unambiguous →
      answer (Store.ask request store) = answer (Store.ask request (.ofImage image)) ∧
        answer (Store.ask request store) = answer (Store.ask request (.ofImage store.image))) ∧
    (∀ request : Request, request.Unambiguous → request.Misses image →
      (final (Store.ask request store)).methods = store.methods ∧
        (final (Store.ask request store)).classes = store.classes) ∧
    (∀ className, (Table.get? className store.classes).isSome ↔ className ∈ Store.declared image requests) ∧
    (∀ method : MethodId, method.Unambiguous →
      ((Table.get? method.text store.methods).isSome ↔ method ∈ Store.fetched image requests)) ∧
    store.cachedMethodCount = (Store.fetched image requests).card := by
  have hremembers := (Store.remembers_ofImage image).after (List.forall_mem_nil _) hrequests
  rw [List.nil_append] at hremembers
  have hfaithful := hremembers.faithful
  intro store
  refine ⟨fun request hrequest => ⟨?_, ?_⟩, fun request => hfaithful.ask_misses, fun className => ?_,
    fun method hm => ?_, hremembers.cachedMethodCount⟩
  · exact hfaithful.answer_ask (Store.faithful_ofImage image) hrequest
  · exact hfaithful.answer_ask ((Store.faithful_ofImage store.image).of_agrees hfaithful.agrees) hrequest
  · rw [Table.isSome_get?_iff]
    exact hremembers.classes className
  · rw [Table.isSome_get?_iff]
    exact hremembers.text_mem hrequests hm

namespace Sample

/-- A body, a method and a class that do not exist, and two instructions of another body, one of them
past its end. -/
def requests : List Request :=
  [.body (method "first"), .body (method "last"), .initial ⟨"Other", "x", .primitive .int⟩,
    .instruction ⟨method "main", .int 1⟩, .instruction ⟨method "main", .int 7⟩]

theorem unambiguous_requests : ∀ request ∈ requests, request.Unambiguous := by
  have hmain : (method "main").Unambiguous := unambiguous_method (by decide)
  simp only [requests, List.forall_mem_cons]
  refine ⟨?_, ?_, ?_, ?_, ?_, List.forall_mem_nil _⟩ <;> rintro _ ⟨⟩
  · exact unambiguous_method (by decide)
  · exact unambiguous_method (by decide)
  · exact hmain
  · exact hmain

end Sample

open Sample in
theorem two_bodies_are_kept :
    (∀ request ∈ requests, request.Unambiguous) ∧
      (Store.after requests (.ofImage image)).cachedMethodCount = 2 ∧
      answer (Store.ask (.body (method "first")) (Store.after requests (.ofImage image))) = .ok (.body firstCode) := by
  have hmethod : Request.Unambiguous (.body (method "first")) := unambiguous_requests _ List.mem_cons_self
  obtain ⟨hreplies, -, -, -, hcount⟩ := store_is_transparent image requests unambiguous_requests
  exact ⟨unambiguous_requests, hcount.trans (by decide), (hreplies _ hmethod).1.trans rfl⟩

end Bytecode
