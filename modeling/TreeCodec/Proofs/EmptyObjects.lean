import TreeCodec.Proofs.Splicing
import TreeCodec.Proofs.UnknownKeys
import TreeCodec.Proofs.Zeros

/-!
# Null reads as the empty object

A record without hook and default is read from null as its zero, and from an object without keys
field by field. If its inlined fields are such records too, both come to the same.

* `Codec.Nests`: records of this kind, within one another;
* `Codec.Nests.decodeRecord_empty`: an empty object is read as the zero of the record;
* `null_is_the_empty_record`: so null and the empty object have the same result.
-/

namespace TreeCodec

/-- A record without hook and without default. Its inlined fields have no default of their own
and are records of which `P` holds. -/
structure Codec.NestsLayer (cx : Codec) (P : String → Prop) (name : String) (fs : List Field) :
    Prop where
  hook : cx.registry.decoder? (.named name) = none
  bare : (Ty.named name).default? cx.catalogue = none
  body : cx.catalogue.body? name = some (.record fs)
  inlined : ∀ f ∈ fs, f.skipped = false → f.inline = true →
    f.default? = none ∧ ∃ inner, f.ty = .named inner ∧ P inner

/-- Records of this kind, at most `height` of them inlined within one another. -/
def Codec.Nests (cx : Codec) : Nat → String → Prop
  | 0, _ => False
  | height + 1, name => ∃ fs, cx.NestsLayer (cx.Nests height) name fs

/-! ## Readings -/

/-- A reading whose value concurs with a result, whatever was noted before. -/
def Reads {α : Type} (x : StateT Audit (Except Error) α) (r : Except Error α) : Prop :=
  ∀ a, Concur (x.run' a) r

namespace Reads

variable {α β : Type} {x : StateT Audit (Except Error) α} {r : Except Error α}

theorem ofExcept (r : Except Error α) : Reads (MonadExcept.ofExcept r) r := by
  intro a
  cases r <;> exact .refl _

theorem bind {f : α → StateT Audit (Except Error) β} {g : α → Except Error β} (hx : Reads x r)
    (hf : ∀ v, Reads (f v) (g v)) : Reads (x >>= f) (r >>= g) := by
  intro a
  have first := hx a
  rw [StateT.run'_eq] at first ⊢
  rw [StateT.run_bind]
  rcases hr : x.run a with e | ⟨v, a'⟩ <;> rw [hr] at first
  · exact first.bind (f := fun v => (f v).run' a) fun v => hf v a
  · exact first.bind (f := fun v => (f v).run' a') fun v => hf v a'

theorem map (h : Reads x r) (f : α → β) : Reads (x >>= fun v => pure (f v)) (r.map f) :=
  h.bind fun _ _ => .refl _

theorem noted (f : Audit → Audit) (h : Reads x r) : Reads (modify f >>= fun _ => x) r :=
  fun a => h (f a)

end Reads

namespace Codec

variable {cx : Codec} {dec : Decoder (Except Error)} {s : Scope}

/-- A field reads its zero from an empty object, if what it inlines does. -/
theorem decodeField_empty (ty : Ty) (i : Nat) {f : Field}
    (inlined : f.skipped = false → f.inline = true →
      Reads (dec.object s.inline f.ty []) (cx.catalogue.zeroField f)) :
    Reads (decodeField cx dec s ty [] i f) (cx.catalogue.zeroField f) := by
  rcases kept : f.skipped with _ | _
  · rcases apart : f.inline with _ | _
    · rw [decodeField_apart kept apart]
      exact .noted _ (.ofExcept _)
    · rw [decodeField_inlined kept apart]
      exact inlined kept apart
  · rw [decodeField_skipped kept]
    exact .ofExcept _

theorem decodeFields_empty (ty : Ty) (i : Nat) {fs : List Field}
    (inlined : ∀ f ∈ fs, f.skipped = false → f.inline = true →
      Reads (dec.object s.inline f.ty []) (cx.catalogue.zeroField f)) :
    Reads (decodeFields cx dec s ty [] i fs)
      (cx.catalogue.zeroFieldsWith (cx.catalogue.zeroDeclared cx.catalogue.decls.length) fs) := by
  induction fs generalizing i with
  | nil => exact .ofExcept (.ok _)
  | cons f fs ih =>
    have first := decodeField_empty ty i (inlined f List.mem_cons_self)
    have rest := ih (i + 1) fun g hg => inlined g (List.mem_cons_of_mem _ hg)
    rw [Catalogue.zeroFieldsWith_cons]
    exact first.bind fun d => rest.map (d :: ·)

/-- The zero of a record without default is that of its fields, one layer further down. -/
theorem NestsLayer.zero_eq {P : String → Prop} {name : String} {fs : List Field}
    (layer : cx.NestsLayer P name fs) :
    cx.catalogue.zero (.named name) =
      cx.catalogue.zeroDeclared cx.catalogue.decls.length name := by
  rw [Catalogue.zero, Catalogue.zeroWith, layer.bare]

section Nests

variable (closed : cx.catalogue.Closed)
include closed

/-- The zeros of a record's fields make up the zero of the record. -/
theorem NestsLayer.concur_zero {P : String → Prop} {name : String} {fs : List Field}
    (layer : cx.NestsLayer P name fs) :
    Concur ((cx.catalogue.zeroFieldsWith
        (cx.catalogue.zeroDeclared cx.catalogue.decls.length) fs).map Datum.product)
      (cx.catalogue.zero (.named name)) := by
  have declared : (cx.catalogue.find? name).isSome = true := by
    have body : (cx.catalogue.body? name).isSome = true := by rw [layer.body]; rfl
    rwa [Catalogue.body?, Option.isSome_map] at body
  have enough := closed.concur_zeroDeclared declared
  rw [layer.zero_eq]
  rwa [Catalogue.zeroDeclared, layer.body] at enough

/-- A record is read from an empty object as its zero, if its inlined fields are. -/
theorem NestsLayer.decodeRecord_empty {P : String → Prop} {name : String} {fs : List Field}
    (layer : cx.NestsLayer P name fs)
    (inlined : ∀ f ∈ fs, f.skipped = false → f.inline = true →
      Reads (dec.object s.inline f.ty []) (cx.catalogue.zeroField f)) :
    Reads (decodeRecord cx dec s (.named name) fs []) (cx.catalogue.zero (.named name)) := by
  have fields := decodeFields_empty (.named name) 0 inlined
  have whole : Reads (decodeRecord cx dec s (.named name) fs []) _ :=
    .noted _ (fields.bind fun ds => .noted _ (.ofExcept (.ok (Datum.product ds))))
  exact fun a => (whole a).trans (layer.concur_zero closed)

/-- So it is, if there is depth enough for the records that are inlined within one another. -/
theorem NestsLayer.decoder_empty {height : Nat} {name : String} {fs : List Field}
    (layer : cx.NestsLayer (cx.Nests height) name fs) {depth : Nat} (deep : height ≤ depth)
    (s : Scope) : Reads (decodeRecord cx (decoder cx depth) s (.named name) fs [])
      (cx.catalogue.zero (.named name)) := by
  induction height generalizing name fs depth s with
  | zero =>
    exact layer.decodeRecord_empty closed fun f hf kept inline =>
      (layer.inlined f hf kept inline).2.elim fun _ h => h.2.elim
  | succ height ih =>
    refine layer.decodeRecord_empty closed fun f hf kept inline => ?_
    obtain ⟨none, inner, typed, gs, nested⟩ := layer.inlined f hf kept inline
    obtain ⟨depth, rfl⟩ := Nat.exists_eq_add_of_le' (Nat.one_le_of_lt deep)
    have zero : cx.catalogue.zeroField f = cx.catalogue.zero (.named inner) := by
      rw [Catalogue.zeroField, Catalogue.zeroFieldWith, none, typed]
      rfl
    rw [typed, zero]
    show Reads (decodeObjectStep cx (decoder cx depth) s.inline (.named inner) []) _
    simp only [decodeObjectStep, nested.hook, decodeObjectLayer, nested.body]
    exact ih nested (Nat.le_of_succ_le_succ deep) s.inline

theorem NestsLayer.tree_empty {height : Nat} {name : String} {fs : List Field}
    (layer : cx.NestsLayer (cx.Nests height) name fs) {depth : Nat} (deep : height < depth)
    (s : Scope) :
    Reads ((decoder cx depth).tree s (.named name) (.object [])) (cx.catalogue.zero (.named name)) := by
  obtain ⟨depth, rfl⟩ := Nat.exists_eq_add_of_le' (Nat.one_le_of_lt deep)
  show Reads (decodeStep cx (decoder cx depth) s (.named name) (.object [])) _
  simp only [decodeStep, layer.hook, decodeLayer, layer.body, decodeDeclared]
  exact layer.decoder_empty closed (Nat.le_of_lt_succ deep) s

end Nests

/-! ## Unknown keys -/

/-- Where a key is unknown, there is one. -/
theorem UnknownPart.not_nil : ∀ {ty : Ty} {o : Object} {p q : Path}, cx.UnknownPart ty o p q →
    o = [] → False
  | _, _, _, _, .content _ _ h, empty => h.not_nil empty
  | _, _, _, _, .entry _ _ hx _, empty => List.ne_nil_of_mem hx empty
  | _, _, _, _, .field _ _ _ _ _ hx _, empty => by rw [empty] at hx; cases hx
  | _, _, _, _, .inlined _ _ _ _ _ h, empty => h.not_nil empty

theorem Unknown.not_empty : ∀ {ty : Ty} {x : Tree} {p q : Path}, cx.Unknown ty x p q →
    x = .object [] → False
  | _, _, _, _, .content _ _ _ h, empty => h.not_empty empty
  | _, _, _, _, .item _ _ _ _ _, empty => by cases empty
  | _, _, _, _, .key _ _ hk _, empty => by rw [Tree.object.inj empty] at hk; cases hk
  | _, _, _, _, .part h, empty => h.not_nil (Tree.object.inj empty)

/-! ## Building -/

theorem isEndless_accept (d : Datum) (a : Audit) : isEndless (cx.accept ty d a) = false := by
  rw [accept]
  split
  · split <;> rfl
  · rfl

/-- A tree without unknown keys is read to what its value comes to, strictly or not. -/
theorem concur_fromTree {strict : Bool} {x : Tree} {r : Except Error Datum}
    (read : Reads ((decoder cx cx.maxDepth).tree (.root strict) ty x) r)
    (known : ∀ q, ¬ cx.Unknown ty x [] q) :
    Concur (cx.fromTree strict ty x) (r >>= fun d => cx.accept ty d .empty) := by
  have notes : Notes ((decoder cx cx.maxDepth).tree (.root strict) ty x) noKey noPath := by
    cases strict with
    | false =>
      have lax : Simulation.quiet.place (.root false) (.root false) := rfl
      exact (cx.quiet_decoder cx.maxDepth).tree lax ty x
    | true =>
      refine ((cx.notesUnknown_decoder cx.maxDepth).tree [] ty x).congr (fun _ => .rfl) fun q => ?_
      exact ⟨known q, False.elim⟩
  have value := read .empty
  rw [StateT.run'_eq] at value
  rw [fromTree]
  let dec : Decoder (Except Error) := decoder cx cx.maxDepth
  rcases run : (dec.tree (.root strict) ty x).run .empty with e | ⟨d, a⟩ <;> rw [run] at value
  · rw [build_error run]
    exact value.bind fun _ => .refl _
  · obtain ⟨ks, qs, -, hq, rfl⟩ := notes .empty d a run
    obtain rfl : qs = [] := List.eq_nil_iff_forall_not_mem.mpr fun q hm => (hq q).mp hm
    rw [build_of_ok run]
    exact value.bind (f := fun d => cx.accept ty d .empty) fun _ => .refl _

end Codec

/-! ## Null -/

/-- A record whose inlined fields are records, none of them with a hook or a default, has the same
result from null and from the empty object, but that zeros which contain themselves have none. It is
the record of the zeros of the fields, if all of them have one, and else an error. -/
theorem null_is_the_empty_record (cx : Codec) (closed : cx.catalogue.Closed) {name : String}
    {fs : List Field} {height : Nat} (record : cx.NestsLayer (cx.Nests height) name fs)
    (deep : height < cx.maxDepth) (strict : Bool) :
    let null : Except Error Datum := cx.fromTree strict (.named name) .null
    let empty : Except Error Datum := cx.fromTree strict (.named name) (.object [])
    (null = empty ∨ isEndless null = true ∧ isEndless empty = true) ∧
    (∀ ds, List.Forall₂ (fun f d => cx.catalogue.zeroField f = .ok d) fs ds →
      null = cx.accept (.named name) (.product ds) .empty) ∧
    ∀ d, null = .ok d →
      ∃ ds, d = .product ds ∧ List.Forall₂ (fun f d => cx.catalogue.zeroField f = .ok d) fs ds := by
  intro null empty
  let accept d := cx.accept (.named name) d .empty
  have ofNull : Concur null (cx.catalogue.zero (.named name) >>= accept) := by
    refine Codec.concur_fromTree ?_ fun _ => Codec.not_unknown_null
    obtain ⟨depth, limit⟩ := Nat.exists_eq_add_of_le' (Nat.one_le_of_lt deep)
    rw [limit]
    exact .ofExcept _
  have ofEmpty : Concur empty (cx.catalogue.zero (.named name) >>= accept) :=
    Codec.concur_fromTree (record.tree_empty closed deep _) fun _ h => h.not_empty rfl
  have made := ofNull.trans ((record.concur_zero closed).symm.bind fun d => .refl (accept d))
  refine ⟨(ofNull.trans ofEmpty.symm).eq_or_endless, fun ds zeros => ?_, fun d read => ?_⟩
  · rw [Catalogue.zeroFieldsWith_eq_ok_iff.mpr zeros] at made
    exact made.eq (Codec.isEndless_accept _ _)
  · rw [read] at made
    have same := (made.symm.eq rfl).symm
    rcases zeros : cx.catalogue.zeroFieldsWith _ fs with e | ds <;> rw [zeros] at same
    · cases same
    · obtain ⟨rfl, -⟩ := Codec.eq_of_accept same.symm
      exact ⟨ds, rfl, Catalogue.zeroFieldsWith_eq_ok_iff.mp zeros⟩

/-- A hull has the fields of its deck in the place of the deck. -/
def Catalogue.hulls : Catalogue where
  decls :=
    [("hull", { body := .record [
        { key := "deck", ty := .named "deck", inline := true },
        { key := "flag", ty := .named "flag" },
        { key := "crew", ty := .int .int64, default? := some (.int 3) },
        { key := "log", ty := .pointer .owned .string, skipped := true }] }),
      ("deck", { body := .record [{ key := "planks", ty := .array (.named "flag") 2 }] }),
      ("flag", { body := .enumeration [⟨"red", []⟩, ⟨"blue", []⟩] })]

/-- A hull of nothing has an inlined deck with two planks, the first flag, the crew that it has by
default, and an empty log that no object holds. -/
theorem null_is_the_empty_record_hull :
    let cx := Codec.standard .hulls
    let hull := Datum.product
      [.product [.seq [.variant 0 [], .variant 0 []]], .variant 0 [], .int 3, .wrapped (.text "")]
    let fs := cx.catalogue.fields (.named "hull")
    cx.catalogue.Closed ∧ cx.NestsLayer (cx.Nests 1) "hull" fs ∧ 1 < cx.maxDepth ∧
    cx.fromTree true (.named "hull") .null = (.ok hull : Except Error Datum) ∧
    cx.fromTree true (.named "hull") (.object []) = (.ok hull : Except Error Datum) := by
  intro cx hull fs
  have closed : cx.catalogue.Closed := by
    show ∀ decl ∈ Catalogue.hulls.decls, _
    decide
  have deck : cx.NestsLayer (cx.Nests 0) "deck" (cx.catalogue.fields (.named "deck")) := {
    hook := Registry.decoder?_initial nofun
    bare := rfl
    body := rfl
    inlined := fun f hf _ inline => by
      obtain rfl := List.mem_singleton.mp hf
      cases inline }
  have layer : cx.NestsLayer (cx.Nests 1) "hull" fs := {
    hook := Registry.decoder?_initial nofun
    bare := rfl
    body := rfl
    inlined := fun f hf _ inline => by
      change f ∈ [_, _, _, _] at hf
      simp only [List.mem_cons, List.not_mem_nil, or_false] at hf
      rcases hf with rfl | rfl | rfl | rfl <;> cases inline
      exact ⟨rfl, "deck", rfl, _, deck⟩ }
  have null : cx.fromTree true (.named "hull") .null = (.ok hull : Except Error Datum) := rfl
  refine ⟨closed, layer, by decide, null, ?_⟩
  obtain ⟨same | ⟨endless, -⟩, -⟩ := null_is_the_empty_record cx closed layer (by decide) true
  · rw [← same, null]
  · rw [null] at endless
    cases endless

end TreeCodec
