import TreeCodec.Proofs.Keys
import TreeCodec.Proofs.StrictMode

/-!
# Objects as sources

An object that is read by itself is read as the tree that it is, in every state of a
reading (`object_reads_as_tree`): with the same datum and the same notes, or with the same
error. Only below a type that no object fills (`Codec.Bars`) do both fail each with an
error of its own, and no conversion from an object begins at such a type.

* `Codec.ReadsAlike`: what is claimed of the two readings of an object;
* `Codec.readsAlike_layer`: so it is for a layer if it is so for what is below;
* `Codec.readsAlike_decoder`: so it is at any depth.
-/

namespace TreeCodec

/-- Whether no object fills a type, which is no pointer and reads no other type's tree. -/
def Catalogue.barsObjects (c : Catalogue) (ty : Ty) : Bool :=
  match ty, c.below ty with
  | .pointer _ _, _ => false
  | _, .nothing => true
  | _, .items _ => true
  | _, _ => false

namespace Codec

/-- Below layers without hook that read the same tree, a pointer on loan among them, there
is a type without hook that no object fills. -/
inductive Bars (cx : Codec) : Ty → Ty → Prop
  | here {ty : Ty} (hook : cx.registry.decoder? ty = none)
    (bars : cx.catalogue.barsObjects ty = true) : Bars cx ty ty
  | content {ty t u : Ty} (hook : cx.registry.decoder? ty = none)
    (layer : cx.catalogue.below ty = .content t) (h : Bars cx t u) : Bars cx ty u
  | borrowed {t u : Ty} (hook : cx.registry.decoder? (.pointer .borrowed t) = none)
    (h : Bars cx t u) : Bars cx (.pointer .borrowed t) u

/-- How the reading of an object relates to that of the same object as a tree. -/
inductive ReadsAlike (cx : Codec) (ty : Ty) :
    (object tree : StateT Audit ConvertM Datum) → Prop
  | same (x : StateT Audit ConvertM Datum) : ReadsAlike cx ty x x
  /-- Both fail, the reading of the object with the type that no object fills. -/
  | barred {t : Ty} (bars : cx.Bars ty t) (e : Error) :
    ReadsAlike cx ty (throw (.mismatch (.other t .object))) (throw e)

variable {cx : Codec} {ty t : Ty} {x y : StateT Audit ConvertM Datum}

theorem ReadsAlike.cases (h : cx.ReadsAlike ty x y) :
    x = y ∨ ∃ t e, cx.Bars ty t ∧ x = throw (.mismatch (.other t .object)) ∧ y = throw e := by
  cases h with
  | same => exact .inl rfl
  | barred bars e => exact .inr ⟨_, e, bars, rfl, rfl⟩

/-- What a layer makes of its content. -/
theorem ReadsAlike.bind (h : cx.ReadsAlike t x y) (bars : ∀ u, cx.Bars t u → cx.Bars ty u)
    (wrap : Datum → StateT Audit ConvertM Datum) : cx.ReadsAlike ty (x >>= wrap) (y >>= wrap) := by
  cases h with
  | same => exact .same _
  | barred below e => exact .barred (bars _ below) e

theorem ReadsAlike.pointer {p : Pointer} (hook : cx.registry.decoder? (.pointer p t) = none)
    (h : cx.ReadsAlike t x y) :
    cx.ReadsAlike (.pointer p t) (decodePointer p t x) (decodePointer p t y) := by
  cases p with
  | weak => exact .same _
  | borrowed => exact h.bind (fun _ => .borrowed hook) _
  | owned => exact h.bind (fun _ => .content hook rfl) _
  | counted => exact h.bind (fun _ => .content hook rfl) _
  | atomic => exact h.bind (fun _ => .content hook rfl) _

/-! ## Layers -/

section Layers

variable {dec : Decoder ConvertM} {s : Scope} {o : Object}
  (below : ∀ t, cx.ReadsAlike t (dec.object s t o) (dec.tree s t (.object o)))
include below

theorem readsAlike_declared {name : String} (hook : cx.registry.decoder? (.named name) = none) :
    cx.ReadsAlike (.named name) (decodeObjectLayer cx dec s (.named name) o)
      (decodeLayer cx dec s (.named name) (.object o)) := by
  simp only [decodeObjectLayer, decodeLayer]
  rcases body : cx.catalogue.body? name with _ | ⟨fs⟩ | ⟨fs⟩ | ⟨t⟩ | ⟨vs⟩
  · exact .barred (.here hook (by simp [Catalogue.barsObjects, Catalogue.below, body])) _
  · exact .same _
  · exact .barred (.here hook (by simp [Catalogue.barsObjects, Catalogue.below, body])) _
  · exact (below t).bind (fun _ => .content hook (Catalogue.below_newtype body)) _
  · exact .barred (.here hook (by simp [Catalogue.barsObjects, Catalogue.below, body])) _

theorem readsAlike_layer (hook : cx.registry.decoder? ty = none) :
    cx.ReadsAlike ty (decodeObjectLayer cx dec s ty o) (decodeLayer cx dec s ty (.object o)) := by
  cases ty with
  | option t => exact (below t).bind (fun _ => .content hook rfl) _
  | pointer p t => exact (below t).pointer hook
  | nonZero k => exact (below (.int k)).bind (fun _ => .content hook rfl) _
  | map => exact .same _
  | named name => exact readsAlike_declared below hook
  | list t =>
    rcases bytes : (Ty.list t).isBytes with _ | _ <;> simp only [decodeLayer, bytes]
    · exact .barred (.here hook rfl) _
    · exact .barred (.here hook rfl) _
  | _ => exact .barred (.here hook rfl) _

end Layers

/-! ## Whole readings -/

theorem readsAlike_decoder (cx : Codec) (depth : Nat) (s : Scope) (ty : Ty) (o : Object) :
    cx.ReadsAlike ty ((decoder cx depth).object s ty o) ((decoder cx depth).tree s ty (.object o)) := by
  induction depth generalizing ty with
  | zero => exact .same _
  | succ depth ih =>
    show cx.ReadsAlike ty (decodeObjectStep cx (decoder cx depth) s ty o)
      (decodeStep cx (decoder cx depth) s ty (.object o))
    rw [decodeObjectStep, decodeStep.eq_def]
    rcases hook : cx.registry.decoder? ty with _ | read
    · exact readsAlike_layer ih hook
    · exact .same _

/-- Where a conversion from an object may begin, there is no type that no object fills. -/
theorem not_bars_of_acceptsObject (h : cx.acceptsObject ty = true) : ¬ cx.Bars ty t := by
  rcases hook : cx.registry.decoder? ty with _ | read
  · cases ty with
    | map a key value =>
      intro bars
      cases bars with
      | here _ bars => cases bars
      | content _ layer => cases layer
    | named name =>
      obtain ⟨fs, body⟩ : ∃ fs, cx.catalogue.body? name = some (.record fs) := by
        simp only [acceptsObject, hook, Option.isSome_none, Bool.false_eq_true, if_false] at h
        split at h
        · exact ⟨_, ‹_›⟩
        · cases h
      intro bars
      cases bars with
      | here _ bars => simp [Catalogue.barsObjects, Catalogue.below, body] at bars
      | content _ layer => simp [Catalogue.below, body] at layer
    | _ => simp [acceptsObject, hook] at h
  · intro bars
    cases bars <;> simp_all

end Codec

/-- An object is read as the tree that it is, at any depth, at any place, from any notes and
any cache: with the same answer, but that both readings fail below a type that no object
fills. A conversion from an object that may begin gives what the one from the tree gives,
strictly or not. -/
theorem object_reads_as_tree (cx : Codec) (ty : Ty) (o : Object) (cache : FieldCache) :
    (∀ depth s a,
      let object := (((Codec.decoder cx depth).object s ty o).run a : ConvertM _).answer cache
      let tree := (((Codec.decoder cx depth).tree s ty (.object o)).run a : ConvertM _).answer cache
      object = tree ∨ ∃ t e, cx.Bars ty t ∧
        object = (.error (.mismatch (.other t .object)), cache) ∧ tree = (.error e, cache)) ∧
    (cx.acceptsObject ty = true → ∀ strict,
      (cx.fromObject strict ty o : ConvertM Datum).answer cache =
        (cx.fromTree strict ty (.object o) : ConvertM Datum).answer cache) := by
  refine ⟨fun depth s a => ?_, fun accepted strict => ?_⟩
  · obtain same | ⟨t, e, bars, object, tree⟩ := (cx.readsAlike_decoder depth s ty o).cases
    · exact .inl (by rw [same])
    · exact .inr ⟨t, e, bars, by rw [object]; rfl, by rw [tree]; rfl⟩
  · obtain same | ⟨t, e, bars, -⟩ := (cx.readsAlike_decoder cx.maxDepth (.root strict) ty o).cases
    · rw [Codec.fromObject, if_pos accepted, Codec.fromTree, same]
    · exact absurd bars (Codec.not_bars_of_acceptsObject accepted)

/-- An object with a key that no stop has, strictly and not. -/
theorem object_reads_as_tree_route :
    let o : Object := [("label", .string "a"), ("z", .int 2)]
    Codec.route.acceptsObject (.named "stop") = true ∧ ∀ strict,
      (Codec.route.fromObject strict (.named "stop") o : ConvertM Datum).answer .empty =
        (Codec.route.fromTree strict (.named "stop") (.object o) : ConvertM Datum).answer .empty := by
  intro o
  have accepted : Codec.route.acceptsObject (.named "stop") = true := rfl
  exact ⟨accepted, (object_reads_as_tree Codec.route (.named "stop") o .empty).2 accepted⟩

end TreeCodec
