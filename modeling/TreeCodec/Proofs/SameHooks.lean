import TreeCodec.Codec

/-!
# What a conversion goes by

A conversion looks at the declared types, at the hooks in use and at the limit, and not at
how the registry came to hold its hooks. Codecs that agree on these (`Codec.SameHooks`)
convert alike: `Codec.SameHooks.toTree`, `Codec.SameHooks.toObject`,
`Codec.SameHooks.fromTree`, `Codec.SameHooks.fromObject`, `Codec.SameHooks.transcode`. A
single layer does not look at the limit: `Codec.SameHooks.decodeStep`,
`Codec.SameHooks.decodeObjectStep`, `Codec.SameHooks.encodeStep`.
-/

namespace TreeCodec

/-- The same types are declared and the same hooks in use. -/
structure Codec.SameHooks (cx cx' : Codec) : Prop where
  catalogue : cx.catalogue = cx'.catalogue
  encoder (ty : Ty) : cx.registry.encoder? ty = cx'.registry.encoder? ty
  decoder (ty : Ty) : cx.registry.decoder? ty = cx'.registry.decoder? ty

namespace Codec

variable {m : Type → Type} [Monad m] [MonadExceptOf Error m] {cx cx' : Codec}

/-! ## Layers -/

section Layers

variable (h : cx.catalogue = cx'.catalogue)
include h

theorem decodeEntries_of_catalogue (dec : Decoder m) (s : Scope) (key value : Ty) (o : Object) :
    decodeEntries cx dec s key value o = decodeEntries cx' dec s key value o := by
  induction o with
  | nil => rfl
  | cons e rest ih => rw [decodeEntries, decodeEntries, ih, h]

theorem encodeEntries_of_catalogue (encode : Datum → m Tree) (key : Ty) (o : Object)
    (es : List (Datum × Datum)) :
    encodeEntries cx encode key o es = encodeEntries cx' encode key o es := by
  induction es generalizing o with
  | nil => rfl
  | cons e es ih => simp only [encodeEntries, ih, h]

variable [MonadFields m]

theorem decodeFields_of_catalogue (dec : Decoder m) (s : Scope) (ty : Ty) (o : Object) (i : Nat)
    (fs : List Field) : decodeFields cx dec s ty o i fs = decodeFields cx' dec s ty o i fs := by
  induction fs generalizing i with
  | nil => rfl
  | cons f fs ih => simp only [decodeFields, decodeField, decodeKey, ih, h]

theorem encodeFields_of_catalogue (encode : Ty → Datum → m Tree) (ty : Ty) (i : Nat)
    (fs : List Field) (ds : List Datum) (o : Object) :
    encodeFields cx encode ty i fs ds o = encodeFields cx' encode ty i fs ds o := by
  induction fs generalizing i ds o with
  | nil => cases ds <;> rfl
  | cons f fs ih =>
    cases ds with
    | nil => rfl
    | cons d ds => simp only [encodeFields, encodeField, ih, h]

end Layers

namespace SameHooks

variable [MonadFields m] (h : cx.SameHooks cx')
include h

theorem decodeStep (dec : Decoder m) : Codec.decodeStep cx dec = Codec.decodeStep cx' dec := by
  funext s ty x
  unfold Codec.decodeStep decodeLayer decodeDeclared decodeRecord
  simp only [decodeEntries_of_catalogue h.catalogue, decodeFields_of_catalogue h.catalogue,
    h.catalogue, h.decoder]

theorem decodeObjectStep (dec : Decoder m) :
    Codec.decodeObjectStep cx dec = Codec.decodeObjectStep cx' dec := by
  funext s ty o
  unfold Codec.decodeObjectStep decodeObjectLayer decodeRecord
  simp only [decodeEntries_of_catalogue h.catalogue, decodeFields_of_catalogue h.catalogue,
    h.catalogue, h.decoder]

theorem encodeStep (encode : Ty → Datum → m Tree) :
    Codec.encodeStep cx encode = Codec.encodeStep cx' encode := by
  funext ty d
  unfold Codec.encodeStep encodeLayer encodeDeclared
  simp only [encodeEntries_of_catalogue h.catalogue, encodeFields_of_catalogue h.catalogue,
    h.catalogue, h.encoder]

/-! ## Conversions -/

variable (hl : cx.maxDepth = cx'.maxDepth)
include hl

theorem decoder_eq (depth : Nat) : (Codec.decoder cx depth : Decoder m) = Codec.decoder cx' depth := by
  induction depth with
  | zero => rw [decoder_zero, decoder_zero, hl]
  | succ depth ih => rw [decoder_succ, decoder_succ, h.decodeStep, h.decodeObjectStep, ih]

theorem encode (depth : Nat) : (Codec.encode cx depth : Ty → Datum → m Tree) = Codec.encode cx' depth := by
  induction depth with
  | zero =>
    funext ty d
    rw [Codec.encode, Codec.encode, hl]
  | succ depth ih =>
    funext ty d
    rw [Codec.encode, Codec.encode, h.encodeStep, ih]

theorem toTree (ty : Ty) (d : Datum) : (cx.toTree ty d : m Tree) = cx'.toTree ty d := by
  rw [Codec.toTree, Codec.toTree, h.encode hl, hl]

theorem toObject (ty : Ty) (d : Datum) : (cx.toObject ty d : m Object) = cx'.toObject ty d := by
  rw [Codec.toObject, Codec.toObject, h.toTree hl]

omit hl [MonadFields m] in
theorem build (ty : Ty) (read : StateT Audit m Datum) : cx.build ty read = cx'.build ty read := by
  simp only [Codec.build, accept, h.catalogue]

theorem fromTree (strict : Bool) (ty : Ty) (x : Tree) :
    (cx.fromTree strict ty x : m Datum) = cx'.fromTree strict ty x := by
  rw [Codec.fromTree, Codec.fromTree, h.build, h.decoder_eq hl, hl]

theorem fromObject (strict : Bool) (ty : Ty) (o : Object) :
    (cx.fromObject strict ty o : m Datum) = cx'.fromObject strict ty o := by
  have accepts : cx.acceptsObject ty = cx'.acceptsObject ty := by
    simp only [acceptsObject, h.decoder, h.catalogue]
  rw [Codec.fromObject, Codec.fromObject, accepts, h.build, h.decoder_eq hl, hl]

theorem transcode (strict : Bool) (src dst : Ty) (d : Datum) :
    (cx.transcode strict src dst d : m Transcript) = cx'.transcode strict src dst d := by
  simp only [Codec.transcode, h.toTree hl, h.fromTree hl]

end SameHooks

end Codec

end TreeCodec
