import TreeCodec.Proofs.ObjectRoots

/-!
# The order of reports

Unknown keys are reported in the order of the texts that report them, and such a text puts the
path between quotes. So the order is that of the bytes of the paths, as long as none of them
continues another one with a character before the quote, which comes to stand where the other
text has its closing quote.

* `Utf8.bytes_le_iff`: texts are ordered as their bytes;
* `Error.unknownField_le_iff`: the order of the reporting texts, by the paths alone
  (`Path.ReportedBefore`);
* `reports_are_ordered`: every report is in this order;
* `continued_path_is_reported_first`: which is not that of the paths.
-/

namespace TreeCodec

/-! ## Bytes of texts -/

namespace Utf8

/-- The bytes of a text. -/
def bytes (s : String) : List UInt8 := s.toUTF8.data.toList

theorem bytes_eq (s : String) : bytes s = s.toList.flatMap String.utf8EncodeChar := by
  rw [bytes, String.toUTF8_eq_toByteArray, ← String.ofList_toList (s := s), String.toByteArray_ofList,
    List.utf8Encode, List.toList_data_toByteArray, String.toList_ofList]

/-- A character before another one is encoded by lesser bytes, whatever comes behind the two. -/
theorem encodeChar_append_lt {c d : Char} (h : c < d) (s t : List UInt8) :
    String.utf8EncodeChar c ++ s < String.utf8EncodeChar d ++ t := by
  have less : c.val.toNat < d.val.toNat := h
  have bound : d.val.toNat < 0x110000 := by
    rcases d.valid with below | above
    · exact Nat.lt_trans below (by decide)
    · exact above.2
  simp only [String.utf8EncodeChar]
  generalize c.val.toNat = m at less ⊢
  generalize d.val.toNat = n at less bound ⊢
  have digits (k : Nat) : k / 4096 = k / 64 / 64 ∧ k / 262144 = k / 64 / 64 / 64 := by omega
  rw [(digits m).1, (digits m).2, (digits n).1, (digits n).2]
  -- First bytes of different lengths do not overlap. Of the same length, the digits decide.
  split_ifs <;>
    simp only [List.cons_append, List.nil_append, List.cons_lt_cons_iff, UInt8.lt_iff_toNat_lt,
      ← UInt8.toNat_inj, UInt8.toNat_ofNat'] <;>
    omega

theorem encode_lt {cs ds : List Char} (h : cs < ds) :
    cs.flatMap String.utf8EncodeChar < ds.flatMap String.utf8EncodeChar := by
  induction cs generalizing ds with
  | nil =>
    obtain _ | ⟨d, ds⟩ := ds
    · exact absurd h (List.lt_irrefl [])
    · rcases first : String.utf8EncodeChar d with _ | ⟨b, bs⟩
      · exact absurd first String.utf8EncodeChar_ne_nil
      · rw [List.flatMap_cons, first]
        exact List.nil_lt_cons _ _
  | cons c cs ih =>
    obtain _ | ⟨d, ds⟩ := ds
    · cases h
    rw [List.flatMap_cons, List.flatMap_cons]
    obtain less | ⟨rfl, less⟩ := List.cons_lt_cons_iff.mp h
    · exact encodeChar_append_lt less _ _
    · exact List.append_left_lt (ih less)

/-- Texts are ordered as their bytes. -/
theorem bytes_le_iff {s t : String} : bytes s ≤ bytes t ↔ s ≤ t := by
  have mono {s t : String} (h : s < t) : bytes s < bytes t := by
    rw [bytes_eq, bytes_eq]
    exact encode_lt (String.lt_iff.mp h)
  constructor
  · intro h
    exact String.not_lt.mp fun less => h (mono less)
  · intro h less
    by_cases same : s = t
    · subst same
      exact List.lt_irrefl _ less
    · exact List.lt_asymm less (mono (Std.lt_of_le_of_ne h same))

end Utf8

/-! ## Quoted texts -/

/-- A text continues another one with a character before the quote. -/
def Undercuts (s t : List Char) : Prop := ∃ c rest, s = t ++ c :: rest ∧ c < '"'

namespace Undercuts

variable {c d : Char} {s t : List Char}

theorem not_nil : ¬ Undercuts [] t := by
  rintro ⟨e, rest, h, -⟩
  simp at h

theorem cons_nil : Undercuts (c :: s) [] ↔ c < '"' := by
  constructor
  · rintro ⟨e, rest, h, before⟩
    cases h
    exact before
  · exact fun before => ⟨c, s, rfl, before⟩

theorem cons_cons : Undercuts (c :: s) (d :: t) ↔ c = d ∧ Undercuts s t := by
  constructor
  · rintro ⟨e, rest, h, before⟩
    cases h
    exact ⟨rfl, e, rest, rfl, before⟩
  · rintro ⟨rfl, e, rest, rfl, before⟩
    exact ⟨e, rest, rfl, before⟩

end Undercuts

/-- Behind a common beginning, texts are ordered as without it. -/
theorem append_lt_append_iff {pre s t : List Char} : pre ++ s < pre ++ t ↔ s < t := by
  induction pre with
  | nil => exact Iff.rfl
  | cons c pre ih => simp [ih]

/-- Texts before a closing quote are ordered as without it, unless one undercuts the other. -/
theorem quoted_lt_iff {s t : List Char} :
    s ++ ['"'] < t ++ ['"'] ↔ Undercuts s t ∨ s < t ∧ ¬ Undercuts t s := by
  induction s generalizing t with
  | nil =>
    cases t with
    | nil => simp [Undercuts.not_nil]
    | cons d t =>
      have behind : '"' < d ∨ '"' = d ↔ ¬ d < '"' := by rw [Char.not_lt, Std.le_iff_lt_or_eq]
      have shorter : [] < t ++ ['"'] := by cases t <;> exact List.nil_lt_cons _ _
      simp only [List.nil_append, List.cons_append, List.cons_lt_cons_iff, shorter, and_true, behind,
        Undercuts.not_nil, Undercuts.cons_nil, false_or, List.nil_lt_cons, true_and]
  | cons c s ih =>
    cases t with
    | nil => simp [List.cons_lt_cons_iff, Undercuts.not_nil, Undercuts.cons_nil]
    | cons d t =>
      simp only [List.cons_append, List.cons_lt_cons_iff, ih, Undercuts.cons_cons]
      by_cases same : c = d
      · subst same
        simp
      · simp [same, Ne.symm same]

/-! ## Reports -/

namespace Path

/-- A path continues another one with a character before the quote. -/
def Undercuts (p q : Path) : Prop := TreeCodec.Undercuts p.render.toList q.render.toList

/-- The order of reports: that of the bytes of the paths, but for a path which undercuts
another one and so comes before it. -/
def ReportedBefore (p q : Path) : Prop :=
  (p.Undercuts q ∨ Utf8.bytes p.render ≤ Utf8.bytes q.render) ∧ ¬ q.Undercuts p

end Path

/-- The order of the texts that report paths, by the paths alone. -/
theorem Error.unknownField_le_iff {p q : Path} :
    unknownField p ≤ unknownField q ↔ p.ReportedBefore q := by
  have before : unknownField q < unknownField p ↔
      q.Undercuts p ∨ q.render < p.render ∧ ¬ p.Undercuts q := by
    rw [String.lt_iff, String.lt_iff, unknownField, unknownField]
    simp only [String.toList_append, List.append_assoc, append_lt_append_iff]
    exact quoted_lt_iff
  rw [← String.not_lt, before, Path.ReportedBefore, Utf8.bytes_le_iff, ← String.not_lt, not_or,
    Classical.not_and_iff_not_or_not, Classical.not_not, and_comm, or_comm]

/-- A report in the order of the reporting texts, or no report. -/
def Error.Ordered (e : Error) : Prop :=
  ∀ ps, e = .unknownFields ps → ps.Pairwise Path.ReportedBefore

theorem Codec.ordered_of_accept {cx : Codec} {ty : Ty} {d : Datum} {audit : Audit} {e : Error}
    (h : cx.accept ty d audit = .error e) : e.Ordered := by
  rw [accept] at h
  split at h
  · split at h
    · cases h
    · cases h
      rintro ps ⟨⟩
      exact (audit.report_pairwise Error.unknownField).imp Error.unknownField_le_iff.mp
  · cases h
    rintro ps ⟨⟩

/-- Every report is in the order of the reporting texts, if those by hooks are: by the bytes of
the paths, but for a path before one which it continues with a character before the quote. So it
is in the order of the paths if no path has such a character. -/
theorem reports_are_ordered (cx : Codec) (hooks : ∀ e, cx.registry.Raises e → e.Ordered)
    (ty : Ty) (strict : Bool) (ps : List Path)
    (failed : (∃ t, cx.fromTree strict ty t = (.error (.unknownFields ps) : Except Error Datum)) ∨
      ∃ o, cx.fromObject strict ty o = (.error (.unknownFields ps) : Except Error Datum)) :
    ps.Pairwise Path.ReportedBefore ∧
    ((∀ p ∈ ps, ∀ c ∈ p.render.toList, ¬ c < '"') →
      ps.Pairwise fun p q => Utf8.bytes p.render ≤ Utf8.bytes q.render) := by
  have own (e : Error) (he : e.isLocal = true) : e.Ordered := by
    rintro ps rfl
    cases he
  have limit : (Error.depthExceeded cx.maxDepth).Ordered := by rintro ps ⟨⟩
  have refused (d : Datum) (audit : Audit) (e : Error) (given : cx.accept ty d audit = .error e) :
      e.Ordered := Codec.ordered_of_accept given
  have ordered : ps.Pairwise Path.ReportedBefore := by
    obtain ⟨t, h⟩ | ⟨o, h⟩ := failed
    · exact (Codec.of_reading_error own hooks limit refused).1 t h ps rfl
    · rcases accepted : cx.acceptsObject ty with _ | _
      · rw [Codec.fromObject, accepted] at h
        cases h
      · exact (Codec.of_reading_error own hooks limit refused).2 o accepted h ps rfl
  refine ⟨ordered, fun above => ordered.imp_of_mem fun hp _ before => before.1.resolve_left ?_⟩
  rintro ⟨c, rest, continued, below⟩
  exact above _ hp c (by simp [continued]) below

/-- A record without fields. -/
def Catalogue.fieldless : Catalogue where
  decls := [("fieldless", { body := .record [] })]

/-- Of two keys that nothing consumes, the one that continues the other with a space is reported
first. -/
theorem Codec.report_of_fieldless {maxDepth : Nat} (deep : 1 ≤ maxDepth) :
    let cx : Codec := ⟨.fieldless, .initial, maxDepth⟩
    cx.fromTree true (.named "fieldless") (.object [("a", .null), ("a ", .null)]) =
      (.error (.unknownFields [[.key "a "], [.key "a"]]) : Except Error Datum) := by
  obtain ⟨depth, rfl⟩ := Nat.exists_eq_add_of_le' deep
  intro cx
  have read : ((decoder cx cx.maxDepth).tree (.root true) (.named "fieldless")
      (.object [("a", .null), ("a ", .null)])).run .empty =
        (.ok (.product [], ⟨[], [[.key "a"], [.key "a "]]⟩) : Except Error (Datum × Audit)) := rfl
  have order : ¬ Error.unknownField [.key "a"] ≤ Error.unknownField [.key "a "] := by decide
  have report : Audit.report ⟨[], [[.key "a"], [.key "a "]]⟩ Error.unknownField =
      [[.key "a "], [.key "a"]] := by
    simp [Audit.report, List.mergeSort, List.MergeSort.Internal.splitInTwo, order]
  exact (build_of_ok read).trans (congrArg (Except.error ∘ Error.unknownFields) report)

/-- The report of two keys, without hooks of its own. -/
theorem reports_are_ordered_fieldless :
    let cx : Codec := ⟨.fieldless, .initial, 1⟩
    let ps : List Path := [[.key "a "], [.key "a"]]
    (∀ e, cx.registry.Raises e → e.Ordered) ∧
    (∃ t, cx.fromTree true (.named "fieldless") t =
      (.error (.unknownFields ps) : Except Error Datum)) ∧
    ps.Pairwise Path.ReportedBefore := by
  intro cx ps
  have hooks (e : Error) (raised : cx.registry.Raises e) : e.Ordered := by
    obtain ⟨ty, hook, x, hk, he⟩ := raised
    rintro ps rfl
    exact absurd rfl (Registry.reportless_initial ty hook hk x _ he)
  have failed : ∃ t, cx.fromTree true (.named "fieldless") t =
      (.error (.unknownFields ps) : Except Error Datum) := ⟨_, Codec.report_of_fieldless (Nat.le_refl 1)⟩
  exact ⟨hooks, failed, (reports_are_ordered cx hooks (.named "fieldless") true ps (.inl failed)).1⟩

/-- This is not the order of the paths, however deep the codec goes. -/
theorem continued_path_is_reported_first :
    let ps : List Path := [[.key "a "], [.key "a"]]
    (¬ ps.Pairwise fun p q => Utf8.bytes p.render ≤ Utf8.bytes q.render) ∧
    ∀ maxDepth, 1 ≤ maxDepth →
      let cx : Codec := ⟨.fieldless, .initial, maxDepth⟩
      cx.fromTree true (.named "fieldless") (.object [("a", .null), ("a ", .null)]) =
        (.error (.unknownFields ps) : Except Error Datum) :=
  ⟨by decide, fun _ deep => Codec.report_of_fieldless deep⟩

end TreeCodec
