import TreeCodec.Proofs.NotedOnce
import TreeCodec.Proofs.OwnOutput
import TreeCodec.Proofs.PathTexts
import TreeCodec.Tree.Place

/-!
# Reported paths as positions

A report of unknown keys says where they are (`reports_identify_positions`): no text stands in it
twice, and each can be followed through the tree, in one way only, to a key of an object.

* `Tree.HoldsKey`: where a path leads to a key;
* `Codec.Unknown.holdsKey`: what is unknown in a tree is a key of the tree;
* `Codec.Reports`: the reports that a strict conversion makes itself, which are all if no hook
  reports (`Codec.Reports.of_reportless`).
-/

namespace TreeCodec

/-! ## Keys of a tree -/

namespace Tree

variable {x y : Tree} {s : Segment} {p : Path}

/-- A path leads to a key of an object. -/
def HoldsKey (x : Tree) (p : Path) : Prop :=
  ∃ q k o, p = q ++ [.key k] ∧ x.get? q = some (.object o) ∧ k ∈ Object.keys o

/-- No key of an object is empty or has a point or an opening bracket in it. -/
def PlainKeys (x : Tree) : Prop :=
  ∀ q o, x.get? q = some (.object o) → ∀ k ∈ Object.keys o, (Segment.key k).Plain

theorem get?_cons (child : x.child? s = some y) (p : Path) : x.get? (s :: p) = y.get? p := by
  rw [get?, child]

theorem HoldsKey.cons (child : x.child? s = some y) (h : y.HoldsKey p) : x.HoldsKey (s :: p) := by
  obtain ⟨q, k, o, rfl, found, hk⟩ := h
  exact ⟨s :: q, k, o, rfl, (get?_cons child q).trans found, hk⟩

theorem PlainKeys.object {o : Object} (keys : ∀ k ∈ Object.keys o, (Segment.key k).Plain)
    (each : ∀ e ∈ o, e.2.PlainKeys) : (Tree.object o).PlainKeys := by
  intro q o' found
  cases q with
  | nil =>
    cases found
    exact keys
  | cons s q =>
    rcases child : (Tree.object o).child? s with _ | y
    · rw [get?, child] at found
      cases found
    · rw [get?_cons child] at found
      cases s with
      | index i => cases child
      | key k => exact each (k, y) (Object.mem_of_find? child) q o' found

theorem PlainKeys.child (plain : x.PlainKeys) (child : x.child? s = some y) : y.PlainKeys :=
  fun q o found => plain (s :: q) o ((get?_cons child q).trans found)

theorem PlainKeys.segment (plain : x.PlainKeys) (child : x.child? s = some y) : s.Plain := by
  cases s with
  | index i => trivial
  | key k =>
    cases x with
    | object o => exact plain [] o rfl k (Object.mem_keys_of_find? child)
    | _ => cases child

/-- What can be followed through plain keys is plain. -/
theorem PlainKeys.path (plain : x.PlainKeys) (found : x.get? p = some y) : p.Plain := by
  induction p generalizing x with
  | nil => nofun
  | cons s p ih =>
    rcases child : x.child? s with _ | z
    · rw [get?, child] at found
      cases found
    · rw [get?_cons child] at found
      exact List.forall_mem_cons.mpr ⟨plain.segment child, ih (plain.child child) found⟩

theorem HoldsKey.plain (h : x.HoldsKey p) (plain : x.PlainKeys) : p.Plain := by
  obtain ⟨q, k, o, rfl, found, hk⟩ := h
  have last : Path.Plain [.key k] := List.forall_mem_singleton.mpr (plain q o found k hk)
  exact List.forall_mem_append.mpr ⟨plain.path found, last⟩

end Tree

namespace Codec

mutual

/-- What is unknown in a tree is a key of the tree. -/
theorem Unknown.holdsKey {cx : Codec} : ∀ {ty : Ty} {x : Tree} {p q : Path}, cx.Unknown ty x p q →
    x.Ordered → ∃ rest, q = p ++ rest ∧ x.HoldsKey rest
  | _, _, _, _, .content _ _ _ h, ordered => h.holdsKey ordered
  | _, _, _, _, .item _ _ _ hx h, ordered => by
    obtain ⟨rest, rfl, holds⟩ := h.holdsKey (ordered.item (List.mem_of_getElem? hx))
    exact ⟨_, List.append_assoc .., holds.cons hx⟩
  | _, .object o, _, _, .key _ _ hk _, _ => ⟨_, rfl, [], _, o, rfl, rfl, hk⟩
  | _, _, _, _, .part h, ordered => h.holdsKey ordered

theorem UnknownPart.holdsKey {cx : Codec} : ∀ {ty : Ty} {o : Object} {p q : Path},
    cx.UnknownPart ty o p q → (Tree.object o).Ordered →
    ∃ rest, q = p ++ rest ∧ (Tree.object o).HoldsKey rest
  | _, _, _, _, .content _ _ h, ordered => h.holdsKey ordered
  | _, _, _, _, .entry _ _ hx h, ordered => by
    obtain ⟨rest, rfl, holds⟩ := h.holdsKey (ordered.entry hx)
    exact ⟨_, List.append_assoc .., holds.cons (ordered.sorted.find?_of_mem hx)⟩
  | _, _, _, _, .field _ _ _ _ _ hx h, ordered => by
    obtain ⟨rest, rfl, holds⟩ := h.holdsKey (ordered.entry (Object.mem_of_find? hx))
    exact ⟨_, List.append_assoc .., holds.cons hx⟩
  | _, _, _, _, .inlined _ _ _ _ _ h, ordered => h.holdsKey ordered

end

/-! ## Reports -/

variable {cx : Codec} {ty : Ty} {x : Tree} {ps : List Path}

/-- A strict conversion of a tree, or of an object on its own, fails with a report that it makes
itself: the lax conversion does not fail with it, as it does with a report that a hook hands on. -/
inductive Reports (cx : Codec) (ty : Ty) : Tree → List Path → Prop
  | tree {x : Tree} {ps : List Path}
    (failed : cx.fromTree true ty x = (.error (.unknownFields ps) : Except Error Datum))
    (own : cx.fromTree false ty x ≠ (.error (.unknownFields ps) : Except Error Datum)) :
    Reports cx ty x ps
  | object {o : Object} {ps : List Path}
    (failed : cx.fromObject true ty o = (.error (.unknownFields ps) : Except Error Datum))
    (own : cx.fromObject false ty o ≠ (.error (.unknownFields ps) : Except Error Datum)) :
    Reports cx ty (.object o) ps

/-- A reading that notes nothing and does not end in a report builds none. -/
theorem build_ne_report {read : StateT Audit (Except Error) Datum} (quiet : Notes read noKey noPath)
    (unreported : ∀ a e, read.run a = .error e → e.kind ≠ .strictDecoding) :
    cx.build ty read ≠ .error (.unknownFields ps) := by
  intro failed
  rcases ended : read.run .empty with e | ⟨d, a⟩
  · rw [build_error ended] at failed
    cases failed
    exact unreported .empty _ ended rfl
  · obtain ⟨ks, qs, -, hq, rfl⟩ := quiet .empty d a ended
    obtain rfl : qs = [] := List.eq_nil_iff_forall_not_mem.mpr fun q hm => (hq q).mp hm
    rw [build_of_ok ended, accept] at failed
    split at failed <;> cases failed

/-- Where no hook reports, all reports are the conversion's own. -/
theorem Reports.of_reportless (hooks : cx.registry.Reportless) :
    (cx.fromTree true ty x = (.error (.unknownFields ps) : Except Error Datum) →
      cx.Reports ty x ps) ∧
    ∀ o, cx.fromObject true ty o = (.error (.unknownFields ps) : Except Error Datum) →
      cx.Reports ty (.object o) ps := by
  have admitted : Simulation.reportless.AdmitsHooks cx.registry := hooks
  have limit : Simulation.reportless.admits (.depthExceeded cx.maxDepth) := nofun
  have fields : Simulation.reportless.Knows cx.catalogue := fun _ _ _ _ _ _ => trivial
  have unreported := Simulation.decoder cx admitted fields limit cx.maxDepth
  have quiet := cx.quiet_decoder cx.maxDepth
  have lax : Simulation.quiet.place (.root false) (.root false) := rfl
  have place : Simulation.reportless.place (.root false) (.root false) := trivial
  refine ⟨fun failed => .tree failed ?_, fun o failed => .object failed ?_⟩
  · exact build_ne_report (quiet.tree lax ty x) (unreported.tree place ty x)
  · rw [fromObject]
    split
    · exact build_ne_report (quiet.object lax ty o) (unreported.object place ty o)
    · exact fun refused => by cases refused

/-- What a reading builds instead of a datum is a report of what it noted, or else what a reading
with the same value builds. -/
theorem of_build_report {U : Path → Prop} {lax strict : StateT Audit (Except Error) Datum}
    (same : SameValue lax strict) (notes : Notes strict noKey U) (once : Once strict)
    (failed : cx.build ty strict = .error (.unknownFields ps))
    (own : cx.build ty lax ≠ .error (.unknownFields ps)) : ps.Nodup ∧ ∀ q ∈ ps, U q := by
  rcases read : strict.run .empty with e | ⟨d, a⟩
  · have value := same .empty .empty
    rw [StateT.run'_eq, StateT.run'_eq, read] at value
    -- The lax reading fails alike, and so what it builds is the report.
    rcases read' : lax.run .empty with e' | ⟨d, a⟩ <;> rw [read'] at value <;> cases value
    rw [build_error read] at failed
    exact absurd (build_error read') (failed ▸ own)
  · obtain ⟨ks, qs, -, hq, nodup, rfl⟩ := once.notes notes read
    rw [build_of_ok read, accept] at failed
    split at failed
    · split at failed
      · cases failed
      · cases failed
        have noted : (Audit.empty.note ks qs).unknown = qs := List.nil_append qs
        rw [Audit.report, noted]
        refine ⟨(List.mergeSort_perm ..).nodup_iff.mpr nodup, fun q hm => (hq q).mp ?_⟩
        exact List.mem_mergeSort.mp hm
    · cases failed

/-- Own reports tell unknown keys, each of them once. -/
theorem Reports.unknown (report : cx.Reports ty x ps) (tidy : cx.Tidy ty) (ordered : x.Ordered) :
    ps.Nodup ∧ ∀ q ∈ ps, cx.Unknown ty x [] q := by
  have place : (Simulation.sameValue (Except Error)).place (.root false) (.root true) := trivial
  have same := cx.sameValue_decoder (m := Except Error) cx.maxDepth
  have notes := cx.notesUnknown_decoder cx.maxDepth
  have once := cx.notesOnce_decoder cx.maxDepth
  cases report with
  | tree failed own =>
    exact of_build_report (same.tree place ty x) (notes.tree [] ty x)
      (once.tree [] tidy ordered) failed own
  | @object o ps failed own =>
    rcases accepted : cx.acceptsObject ty with _ | _
    · rw [fromObject, accepted] at failed
      cases failed
    · rw [fromObject, if_pos accepted] at failed own
      exact of_build_report (same.object place ty o) (notes.object [] ty o)
        (once.object [] false tidy ordered) failed own

end Codec

/-- Of a tree with plain keys, the texts of a report are different. Each is the text of just one
path of plain keys and indices, which leads to a key of the tree. -/
theorem reports_identify_positions (cx : Codec) (ty : Ty) (x : Tree) (ps : List Path)
    (inlines : cx.InlinesRecords ty) (apart : cx.Everywhere cx.KeysApart ty)
    (ordered : x.Ordered) (plain : x.PlainKeys) (report : cx.Reports ty x ps) :
    (ps.map Path.render).Nodup ∧ ∀ text ∈ ps.map Path.render,
      ∃ p : Path, x.HoldsKey p ∧ ∀ q : Path, q.Plain ∧ q.render = text ↔ q = p := by
  obtain ⟨nodup, unknown⟩ := report.unknown ⟨inlines, apart⟩ ordered
  have holds (p : Path) (hp : p ∈ ps) : x.HoldsKey p := by
    obtain ⟨_, rfl, holds⟩ := (unknown p hp).holdsKey ordered
    exact holds
  refine ⟨nodup.map_on fun p hp q hq same => ?_, fun text listed => ?_⟩
  · exact Path.eq_of_render ((holds p hp).plain plain) ((holds q hq).plain plain) same
  · obtain ⟨p, hp, rfl⟩ := List.mem_map.mp listed
    have plainPath := (holds p hp).plain plain
    refine ⟨p, holds p hp, fun q => ⟨fun h => Path.eq_of_render h.1 plainPath h.2, ?_⟩⟩
    rintro rfl
    exact ⟨plainPath, rfl⟩

/-- Two stops, each with a third coordinate. -/
theorem reports_identify_positions_route :
    let x : Tree := .object
      [("label", .string "a"), ("next", .object [("z", .int 1)]), ("z", .int 2)]
    let ps : List Path := [[.key "next", .key "z"], [.key "z"]]
    Codec.route.InlinesRecords (.named "stop") ∧
    Codec.route.Everywhere Codec.route.KeysApart (.named "stop") ∧ x.Ordered ∧ x.PlainKeys ∧
    Codec.route.Reports (.named "stop") x ps ∧
    ((ps.map Path.render).Nodup ∧ ∀ text ∈ ps.map Path.render,
      ∃ p : Path, x.HoldsKey p ∧ ∀ q : Path, q.Plain ∧ q.render = text ↔ q = p) := by
  intro x ps
  have inlines := Codec.inlinesRecords_route (.named "stop")
  have apart := Codec.keysApart_route (.named "stop")
  have ordered : x.Ordered := by
    refine .object (by decide) (List.forall_mem_cons.mpr
      ⟨.string _, List.forall_mem_cons.mpr ⟨?_, List.forall_mem_singleton.mpr (.int _)⟩⟩)
    exact .object (by decide) (List.forall_mem_singleton.mpr (.int _))
  have plain : x.PlainKeys := by
    have text (s : String) : (Tree.string s).PlainKeys := by
      rintro (_ | ⟨_, _⟩) o found <;> cases found
    have int (n : Int64) : (Tree.int n).PlainKeys := by
      rintro (_ | ⟨_, _⟩) o found <;> cases found
    refine .object (by simp [Object.keys, Segment.Plain]) (List.forall_mem_cons.mpr
      ⟨text _, List.forall_mem_cons.mpr ⟨?_, List.forall_mem_singleton.mpr (int _)⟩⟩)
    exact .object (by simp [Object.keys, Segment.Plain]) (List.forall_mem_singleton.mpr (int _))
  have read : ((Codec.decoder Codec.route 256).tree (.root true) (.named "stop") x).run .empty =
      (.ok (_, ⟨[], ps⟩) : Except Error (Datum × Audit)) := rfl
  have order : Error.unknownField [.key "next", .key "z"] ≤ Error.unknownField [.key "z"] := by
    decide
  have report : Audit.report ⟨[], ps⟩ Error.unknownField = ps := by
    simp [Audit.report, ps, List.mergeSort, List.MergeSort.Internal.splitInTwo, order]
  have reports : Codec.route.Reports (.named "stop") x ps := by
    refine (Codec.Reports.of_reportless Registry.reportless_initial).1 ?_
    exact (Codec.build_of_ok read).trans (congrArg (Except.error ∘ Error.unknownFields) report)
  exact ⟨inlines, apart, ordered, plain, reports,
    reports_identify_positions Codec.route _ x ps inlines apart ordered plain reports⟩

end TreeCodec
