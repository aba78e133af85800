import Mathlib.Data.Set.List
import TreeCodec.Proofs.LeafTrees
import TreeCodec.Proofs.Wrappers

/-!
# Byte strings have one spelling

A byte string is written as a text and read from that text alone: all other texts are refused
as base64.

* `hasType_bytes_iff`: lists of bytes are byte strings;
* `Codec.toTree_bytes`, `Codec.fromTree_bytes`: without hooks, they are written and read by
  `Base64`;
* `byte_strings_have_one_spelling`: the texts that are read are those that are written.
-/

namespace TreeCodec

/-- The type of byte strings. -/
def Ty.bytes : Ty := .list (.int .byte)

/-- The datum of a byte string. -/
def Datum.ofBytes (bytes : List UInt8) : Datum := .seq (bytes.map .ofByte)

/-! ## Lists of bytes -/

theorem IntTy.contains_byte_iff {n : Int} : IntTy.byte.contains n = true ↔ 0 ≤ n ∧ n < 256 := by
  simp [IntTy.contains, IntTy.min, IntTy.max, IntTy.byte, IntWidth.bits]
  omega

theorem hasType_byte_iff {c : Catalogue} {d : Datum} :
    HasType c (.int .byte) d ↔ ∃ b, Datum.ofByte b = d := by
  constructor
  · rintro ⟨⟩
    rename_i n range
    refine ⟨.ofNat n.toNat, Codec.ofByte_of_byte? ?_⟩
    rw [Datum.byte?, if_pos (IntTy.contains_byte_iff.mp range)]
  · rintro ⟨b, rfl⟩
    have bound := b.toNat_lt
    exact .int (IntTy.contains_byte_iff.mpr (by omega))

/-- The data of lists of bytes are the byte strings. -/
theorem hasType_bytes_iff {c : Catalogue} {d : Datum} :
    HasType c .bytes d ↔ ∃ bytes, d = .ofBytes bytes := by
  constructor
  · intro typed
    rcases typed with ⟨⟩
    rename_i ds each
    have spelled : ds ∈ Set.range (List.map Datum.ofByte) := by
      rw [Set.range_list_map]
      exact fun d hd => hasType_byte_iff.mp (each d hd)
    obtain ⟨bytes, rfl⟩ := spelled
    exact ⟨bytes, rfl⟩
  · rintro ⟨bytes, rfl⟩
    refine .list fun d hd => ?_
    obtain ⟨b, -, rfl⟩ := List.mem_map.mp hd
    exact hasType_byte_iff.mpr ⟨b, rfl⟩

/-! ## Conversions -/

namespace Codec

variable {cx : Codec}

/-- A byte string is written as its base64 text. -/
theorem toTree_bytes (hook : cx.registry.encoder? .bytes = none) (deep : 1 ≤ cx.maxDepth)
    (bytes : List UInt8) :
    cx.toTree .bytes (.ofBytes bytes) =
      (.ok (.string (Base64.encodeString bytes)) : Except Error Tree) := by
  obtain ⟨depth, limit⟩ := Nat.exists_eq_add_of_le' deep
  have written : encodeBytes .bytes (bytes.map .ofByte) =
      .ok (.string (Base64.encodeString bytes)) := by
    rw [encodeBytes, mapM_byte?]
  rw [toTree, limit, encode, encodeStep, hook]
  show MonadExcept.ofExcept (encodeBytes .bytes (bytes.map .ofByte)) = _
  rw [written]
  rfl

/-- A text is read as the byte string that it spells. -/
theorem fromTree_bytes (hook : cx.registry.decoder? .bytes = none) (deep : 1 ≤ cx.maxDepth)
    (strict : Bool) (s : String) :
    cx.fromTree strict .bytes (.string s) =
      match Base64.decodeString s with
      | .ok bytes => (.ok (.ofBytes bytes) : Except Error Datum)
      | .error e => .error (.base64 e) := by
  obtain ⟨depth, limit⟩ := Nat.exists_eq_add_of_le' deep
  have layer : (decoder cx cx.maxDepth).tree (.root strict) .bytes (.string s) =
      (MonadExcept.ofExcept (decodeBytes (.string s)) : StateT Audit (Except Error) Datum) := by
    rw [limit, decoder_succ]
    exact decodeStep_hookless hook (Tree.string_ne_null s) (decoder cx depth) (.root strict)
  rw [fromTree, layer, decodeBytes]
  rcases Base64.decodeString s with e | bytes <;> rfl

end Codec

/-! ## One spelling -/

/-- Byte strings have one spelling. Each is written as a text from which it is read, in either
mode. Of the texts, one is read as a byte string that is written as this very text, or else it is
no byte string's text and refused as base64. -/
theorem byte_strings_have_one_spelling (cx : Codec) (writes : cx.registry.encoder? .bytes = none)
    (reads : cx.registry.decoder? .bytes = none) (deep : 1 ≤ cx.maxDepth) (strict : Bool) :
    (∀ d, HasType cx.catalogue .bytes d → ∃ s,
      cx.toTree .bytes d = (.ok (.string s) : Except Error Tree) ∧
      cx.fromTree strict .bytes (.string s) = (.ok d : Except Error Datum)) ∧
    (∀ s d, cx.fromTree strict .bytes (.string s) = (.ok d : Except Error Datum) →
      HasType cx.catalogue .bytes d ∧ cx.toTree .bytes d = (.ok (.string s) : Except Error Tree)) ∧
    ∀ s, (∀ d, HasType cx.catalogue .bytes d →
        cx.toTree .bytes d ≠ (.ok (.string s) : Except Error Tree)) →
      ∃ e, cx.fromTree strict .bytes (.string s) = (.error (.base64 e) : Except Error Datum) := by
  have read s := Codec.fromTree_bytes reads deep strict s
  have written bytes := Codec.toTree_bytes writes deep bytes
  refine ⟨fun d typed => ?_, fun s d given => ?_, fun s other => ?_⟩
  · obtain ⟨bytes, rfl⟩ := hasType_bytes_iff.mp typed
    refine ⟨_, written bytes, ?_⟩
    rw [read, Base64.decodeString_encodeString]
  · rw [read] at given
    rcases spelled : Base64.decodeString s with e | bytes <;> rw [spelled] at given <;> cases given
    refine ⟨hasType_bytes_iff.mpr ⟨bytes, rfl⟩, ?_⟩
    rw [written, Base64.encodeString_of_decodeString spelled]
  · rcases spelled : Base64.decodeString s with e | bytes
    · exact ⟨e, by rw [read, spelled]⟩
    · refine absurd ?_ (other _ (hasType_bytes_iff.mpr ⟨bytes, rfl⟩))
      rw [written, Base64.encodeString_of_decodeString spelled]

/-- Two bytes are written with padding, and read with it only. -/
theorem byte_strings_have_one_spelling_route :
    let cx := Codec.route
    cx.registry.encoder? .bytes = none ∧ cx.registry.decoder? .bytes = none ∧ 1 ≤ cx.maxDepth ∧
    HasType cx.catalogue .bytes (.ofBytes [1, 2]) ∧
    cx.fromTree true .bytes (.string "AQI=") = (.ok (.ofBytes [1, 2]) : Except Error Datum) ∧
    cx.toTree .bytes (.ofBytes [1, 2]) = (.ok (.string "AQI=") : Except Error Tree) ∧
    ∃ e, cx.fromTree true .bytes (.string "AQI") = (.error (.base64 e) : Except Error Datum) := by
  intro cx
  obtain ⟨-, read, refused⟩ :=
    byte_strings_have_one_spelling cx rfl rfl (by decide) true
  have two : cx.fromTree true .bytes (.string "AQI=") =
      (.ok (.ofBytes [1, 2]) : Except Error Datum) := rfl
  refine ⟨rfl, rfl, by decide, (read _ _ two).1, two, (read _ _ two).2, refused _ ?_⟩
  intro d typed written
  obtain ⟨bytes, rfl⟩ := hasType_bytes_iff.mp typed
  rw [Codec.toTree_bytes rfl (by decide)] at written
  have spelled : Base64.encodeString bytes = "AQI" := by injection written with h; injection h
  have back := Base64.decodeString_encodeString bytes
  have unreadable : Base64.decodeString "AQI" = .error .invalidPadding := rfl
  rw [spelled, unreadable] at back
  cases back

end TreeCodec
