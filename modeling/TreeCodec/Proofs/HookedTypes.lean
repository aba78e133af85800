import TreeCodec.Proofs.RoundTrip

/-!
# Data with hooks come back from their trees

The hooks of a type may replace what its description prescribes and lose nothing. The tree
of a datum of a type made of such a type and of lossless layers is read as the datum
(`fromTree_toTree_hooked`), wherever the hooked type stands outside inlined fields, unless
it is a wrapper itself and below a newtype. A newtype is written as what is below all
wrappers, so that the hooks of these are left behind (`Codec.encode_newtype_peel`), but it
is read layer by layer, by the hook of each. What is written then may be nothing that the
hook reads (`reading_is_lost`).
-/

namespace TreeCodec

/-- Whether a type has its use of another one's hooks: a newtype does not peel that type,
and a record does not inline it. -/
structure Catalogue.Respects (c : Catalogue) (hooked ty : Ty) : Prop where
  newtype {name : String} {t : Ty} (named : ty = .named name)
    (body : c.body? name = some (.newtype t)) (below : c.PeelsTo t hooked) :
    c.isPeeled hooked = false
  record {name : String} {fs : List Field} (named : ty = .named name)
    (body : c.body? name = some (.record fs)) {f : Field} (hf : f ∈ fs) (inline : f.inline = true) :
    ¬ c.PeelsTo f.ty hooked

/-- Only declared types peel and inline. -/
theorem Catalogue.Respects.of_ne {c : Catalogue} {hooked ty : Ty} (other : ∀ name, ty ≠ .named name) :
    c.Respects hooked ty :=
  ⟨fun named => absurd named (other _), fun named => absurd named (other _)⟩

namespace Codec

/-- A type of a set of types, each a hooked one or made of types of the set without loss. -/
def LosslessAround (cx : Codec) (hooked ty : Ty) : Prop :=
  ∃ L : Ty → Prop, L ty ∧
    ∀ t, L t → t = hooked ∨ cx.LosslessLayer L t ∧ cx.catalogue.Respects hooked t

section Registered

variable {cx : Codec} {hooked : Ty} {write : Datum → Except Error Tree}
  {read : Tree → Except Error Datum}
  (registered : cx.registry = Registry.initial.register hooked ⟨some write, some read⟩)
include registered

theorem hooks_of_registered :
    cx.registry.encoder? hooked = some write ∧ cx.registry.decoder? hooked = some read := by
  rw [registered, Registry.encoder?_register, Registry.decoder?_register, if_pos rfl, if_pos rfl]
  exact ⟨rfl, rfl⟩

theorem hooks_of_other {t : Ty} (other : t ≠ hooked) :
    cx.registry.encoder? t = Registry.initial.encoder? t ∧
      cx.registry.decoder? t = Registry.initial.decoder? t := by
  rw [registered, Registry.encoder?_register, Registry.decoder?_register, if_neg other, if_neg other]
  exact ⟨rfl, rfl⟩

theorem no_hooks {t : Ty} (other : t ≠ hooked) (slot : t ≠ .tree) :
    cx.registry.encoder? t = none ∧ cx.registry.decoder? t = none := by
  obtain ⟨write?, read?⟩ := hooks_of_other registered other
  exact ⟨write?.trans (Registry.encoder?_initial slot), read?.trans (Registry.decoder?_initial slot)⟩

/-- Around hooks that undo each other, what is lossless is faithful. -/
theorem LosslessLayer.faithful_around {L : Ty → Prop} {ty : Ty} (layer : cx.LosslessLayer L ty)
    (respects : cx.catalogue.Respects hooked ty) (other : ty ≠ hooked) : cx.Faithful L ty := by
  by_cases slot : ty = .tree
  · subst slot
    obtain ⟨write?, read?⟩ := hooks_of_other registered other
    exact .slot write? read?
  obtain ⟨write?, read?⟩ := no_hooks registered other slot
  refine .layer write? read? layer (fun name t named body u below peeled => ?_)
    fun name fs named body f hf inline u below => ?_
  · refine (no_hooks registered (fun at_hook => ?_) fun at_slot => ?_).1
    · subst at_hook
      rw [respects.newtype named body below] at peeled
      cases peeled
    · subst at_slot
      cases peeled
  · refine no_hooks registered (fun at_hook => ?_) fun at_slot => ?_
    · subst at_hook
      exact respects.record named body hf inline below
    · subst at_slot
      subst named
      cases (layer.reachesRecord body f hf inline).of_peelsTo below

end Registered

end Codec

/-- The tree of a datum is read as the datum, strictly or not, where hooks that undo each
other are in use for one of the types it is made of. -/
theorem fromTree_toTree_hooked (cx : Codec) {hooked : Ty} {write : Datum → Except Error Tree}
    {read : Tree → Except Error Datum}
    (registered : cx.registry = Registry.initial.register hooked ⟨some write, some read⟩)
    (undone : cx.catalogue.Undone hooked write read) {ty : Ty}
    (lossless : cx.LosslessAround hooked ty) {d : Datum} (typed : HasType cx.catalogue ty d)
    (valid : cx.catalogue.Valid ty d) (deep : d.height ≤ cx.maxDepth) {x : Tree}
    (written : cx.toTree ty d = (.ok x : Except Error Tree)) :
    ∃ e, d.Same e ∧ ∀ strict, cx.fromTree strict ty x = (.ok e : Except Error Datum) := by
  obtain ⟨L, hL, closed⟩ := lossless
  have faithful t (h : L t) : cx.Faithful L t := by
    obtain ⟨write?, read?⟩ := Codec.hooks_of_registered registered
    by_cases hook : t = hooked
    · subst hook
      exact .hook write? read? undone
    · obtain same | ⟨layer, respects⟩ := closed t h
      · exact absurd same hook
      · exact layer.faithful_around registered respects hook
  exact ((Codec.restores_decoder faithful cx.maxDepth).tree hL typed deep written).fromTree valid

/-! ## Temperatures -/

/-- Temperatures, readings of them, and the readings of a day. -/
def Catalogue.weather : Catalogue where
  decls :=
    [("celsius", { body := .newtype (.int .int64) }),
      ("reading", { body := .newtype (.named "celsius") }),
      ("day", { body := .record [
        { key := "noon", ty := .named "celsius" },
        { key := "others", ty := .list (.option (.pointer .owned (.named "celsius"))) }] })]

namespace Codec

/-- A temperature is written as an object that names its unit. -/
def writeCelsius : Datum → Except Error Tree
  | .wrapped (.int n) => .ok (.object [("celsius", .int (.ofInt n))])
  | _ => .error (.custom "not a temperature")

/-- A temperature is read from an object that names its unit. -/
def readCelsius : Tree → Except Error Datum
  | .object o =>
    match Object.find? o "celsius" with
    | some (.int n) => .ok (.wrapped (.int n.toInt))
    | _ => .error (.custom "no temperature")
  | _ => .error (.custom "no temperature")

/-- A codec with hooks for temperatures. -/
def weather (maxDepth : Nat) : Codec where
  catalogue := .weather
  registry := Registry.initial.register (.named "celsius") ⟨some writeCelsius, some readCelsius⟩
  maxDepth := maxDepth

/-- Every temperature is read from what is written of it. -/
theorem readCelsius_writeCelsius (d : Datum) (hd : HasType .weather (.named "celsius") d) :
    ∃ x, x ≠ .null ∧ writeCelsius d = .ok x ∧ readCelsius x = .ok d := by
  obtain ⟨e, rfl, he⟩ := hd.newtype_inv (t := .int .int64) rfl
  cases he with
  | @int _ n hn =>
    refine ⟨_, Tree.object_ne_null _, rfl, ?_⟩
    simp [readCelsius, Object.find?, Scalar.toInt_of_contains hn]

theorem undone_celsius : Catalogue.weather.Undone (.named "celsius") writeCelsius readCelsius :=
  Catalogue.undone_of_inverse readCelsius_writeCelsius

theorem neverNull_celsius (maxDepth : Nat) : (weather maxDepth).NeverNull (.named "celsius") :=
  neverNull_of_undone rfl undone_celsius

theorem losslessAround_day (maxDepth : Nat) :
    (weather maxDepth).LosslessAround (.named "celsius") (.named "day") := by
  let L (t : Ty) : Prop := t ∈ [.named "celsius", .named "day",
    .list (.option (.pointer .owned (.named "celsius"))),
    .option (.pointer .owned (.named "celsius")), .pointer .owned (.named "celsius")]
  have day : (weather maxDepth).LosslessLayer L (.named "day") :=
    .record rfl (by simp [L]) (by simp) (by simp [FieldConsumes]) (by simp) (by simp)
  refine ⟨L, by simp [L], ?_⟩
  simp only [L, List.forall_mem_cons]
  refine ⟨.inl trivial, .inr ⟨day, ?_, ?_⟩, .inr ⟨.list (by simp), .of_ne (by simp)⟩,
    .inr ⟨.option (by simp) ((neverNull_celsius _).pointer rfl rfl), .of_ne (by simp)⟩,
    .inr ⟨.pointer rfl (by simp), .of_ne (by simp)⟩, by simp⟩
  · intro name t named body
    cases named
    cases body
  · intro name fs named body f hf inline
    cases named
    cases body
    simp at hf
    rcases hf with rfl | rfl <;> cases inline

end Codec

/-- A day with a temperature at noon and another one, and an hour without. -/
theorem fromTree_toTree_hooked_day :
    let cx := Codec.weather Codec.defaultDepth
    let c (n : Int) := Datum.wrapped (.int n)
    let d := Datum.product [c 21, .seq [.present (.wrapped (c (-3))), .absent]]
    ∃ x, HasType .weather (.named "day") d ∧
      cx.toTree (.named "day") d = (.ok x : Except Error Tree) ∧
      ∃ e, d.Same e ∧ ∀ strict, cx.fromTree strict (.named "day") x = (.ok e : Except Error Datum) := by
  intro cx c d
  have celsius {n : Int} (hn : IntTy.int64.contains n = true) :
      HasType .weather (.named "celsius") (c n) := .newtype rfl (.int hn)
  have others : HasType .weather (.list (.option (.pointer .owned (.named "celsius"))))
      (.seq [.present (.wrapped (c (-3))), .absent]) := by
    refine .list ?_
    simp only [List.forall_mem_cons]
    exact ⟨.present (.pointer _ (celsius rfl)), .absent _, by simp⟩
  have typed : HasType .weather (.named "day") d :=
    .record rfl (.cons (celsius rfl) (.cons others .nil))
  refine ⟨_, typed, rfl, ?_⟩
  exact fromTree_toTree_hooked cx rfl Codec.undone_celsius (Codec.losslessAround_day _) typed
    (fun _ _ => rfl) (by decide) rfl

/-- Only what a newtype peels is in the way: a reading is a temperature in a newtype, and its
tree cannot be read, however deep the codec goes. The number is written as such, and the
temperature is to be read by its hook. -/
theorem reading_is_lost :
    (∀ d, HasType .weather (.named "celsius") d →
      ∃ x, x ≠ .null ∧ Codec.writeCelsius d = .ok x ∧ Codec.readCelsius x = .ok d) ∧
    HasType .weather (.named "reading") (.wrapped (.wrapped (.int 21))) ∧
    ∀ maxDepth, 2 ≤ maxDepth →
      let cx := Codec.weather maxDepth
      (∃ L : Ty → Prop, L (.named "reading") ∧
        ∀ t, L t → t = .named "celsius" ∨ cx.LosslessLayer L t) ∧
      cx.toTree (.named "reading") (.wrapped (.wrapped (.int 21))) =
        (.ok (.int 21) : Except Error Tree) ∧
      ∀ strict, cx.fromTree strict (.named "reading") (.int 21) =
        (.error (.custom "no temperature") : Except Error Datum) := by
  refine ⟨Codec.readCelsius_writeCelsius, .newtype rfl (.newtype rfl (.int rfl)), ?_⟩
  intro maxDepth deep cx
  obtain ⟨k, rfl⟩ := Nat.exists_eq_add_of_le' deep
  refine ⟨?_, rfl, fun strict => ?_⟩
  · refine ⟨fun t => t ∈ [.named "reading", .named "celsius"], by simp, ?_⟩
    simp only [List.forall_mem_cons]
    exact ⟨.inr (.newtype rfl (by simp) (Codec.neverNull_celsius _)), .inl trivial, by simp⟩
  · cases strict <;> rfl

end TreeCodec
