import TreeCodec.Proofs.Walks

/-!
# Balanced walks

A walk that ends well leaves its cursor where it found it (`walks_are_balanced`): what it has
set it has set back, each level that it has opened it has closed, and all that it adds are
unknown keys and, for an inlined part, keys consumed at the level that was open. A lax walk
changes nothing but the flag and the depth, not even on its way.

* `Codec.onlyAdds_tree`, `Codec.notes_read`: what a reading notes, by where it stands;
* `Cursor.Balanced`, `Codec.balanced_of_result`: what a walk may change, and what it may not;
* `Codec.nothing_on_lax_walk`: what a lax walk never has on its cursor.
-/

namespace TreeCodec

/-! ## Notes by place -/

/-- A computation that, if it succeeds, only adds to the notes. -/
def OnlyAdds {α : Type} (x : StateT Audit (Except Error) α) : Prop := ∃ K U, Notes x K U

namespace OnlyAdds

variable {α β : Type} {x : StateT Audit (Except Error) α}

theorem throw (e : Error) : OnlyAdds (throw e : StateT Audit (Except Error) α) :=
  ⟨noKey, noPath, .throw e⟩

theorem ofExcept (r : Except Error α) :
    OnlyAdds (MonadExcept.ofExcept r : StateT Audit (Except Error) α) := ⟨_, _, .ofExcept r⟩

theorem map (h : OnlyAdds x) (f : α → β) : OnlyAdds (x >>= fun v => pure (f v)) := by
  obtain ⟨K, U, h⟩ := h
  exact ⟨K, U, h.map f⟩

theorem follow (h : OnlyAdds x) (f : α → Except Error β) :
    OnlyAdds (x >>= fun v => MonadExcept.ofExcept (f v)) := by
  obtain ⟨K, U, h⟩ := h
  exact ⟨K, U, h.follow fun v => .ofExcept (f v)⟩

theorem pointer {q : Pointer} {t : Ty} {x : StateT Audit (Except Error) Datum} (h : OnlyAdds x) :
    OnlyAdds (Codec.decodePointer q t x) := by
  obtain ⟨K, U, h⟩ := h
  exact ⟨K, U, .decodePointer fun _ => h⟩

end OnlyAdds

namespace Codec

variable (cx : Codec) {dec : Decoder (Except Error)}

section Inlined

variable (hd : cx.NotesUnknown dec) (p : Path)
include hd

theorem onlyAdds_positional (ty : Ty) (ts : List Ty) (x : Tree) :
    OnlyAdds (decodePositional dec ⟨true, p, true⟩ ty ts x) := by
  cases x with
  | array xs =>
    rw [decodePositional]
    split
    · exact ⟨_, _, hd.decodeItems p true 0 ts xs⟩
    · exact .throw _
  | _ => exact .throw _

theorem onlyAdds_array (t : Ty) (n : Nat) (x : Tree) :
    OnlyAdds (decodeArray dec ⟨true, p, true⟩ t n x) := by
  cases x with
  | array xs =>
    rw [decodeArray]
    split
    · exact .throw _
    · split
      · exact .throw _
      · split
        · exact .throw _
        · exact .map ⟨_, _, hd.decodeItems p true 0 (.replicate n t) xs⟩ Datum.seq
  | _ => exact .throw _

theorem onlyAdds_list (t : Ty) (x : Tree) : OnlyAdds (decodeList dec ⟨true, p, true⟩ t x) := by
  cases x with
  | array xs => exact .map ⟨_, _, hd.decodeItems p true 0 (.replicate xs.length t) xs⟩ Datum.seq
  | _ => exact .throw _

variable (below : ∀ t x, OnlyAdds (dec.tree ⟨true, p, true⟩ t x))
include below

theorem onlyAdds_declared (ty : Ty) (body : Body) (x : Tree) :
    OnlyAdds (decodeDeclared cx dec ⟨true, p, true⟩ ty body x) := by
  cases body with
  | newtype t => exact (below t x).map Datum.wrapped
  | record fs =>
    cases x with
    | object o => exact .map ⟨_, _, hd.decodeFields p true ty o 0 fs⟩ Datum.product
    | _ => exact .throw _
  | tuple fs => exact (cx.onlyAdds_positional hd p ty _ x).map Datum.product
  | enumeration vs => exact .ofExcept _

theorem onlyAdds_layer (ty : Ty) (x : Tree) :
    OnlyAdds (decodeLayer cx dec ⟨true, p, true⟩ ty x) := by
  have scalar : OnlyAdds (MonadExcept.ofExcept (Scalar.decode ty x)) := .ofExcept _
  cases ty with
  | option t => exact (below t x).map Datum.present
  | pointer q t => exact (below t x).pointer
  | nonZero k => exact (below (.int k) x).follow _
  | tuple ts => exact (cx.onlyAdds_positional hd p _ ts x).map Datum.product
  | named name =>
    simp only [decodeLayer]
    cases cx.catalogue.body? name with
    | some body => exact cx.onlyAdds_declared hd p below _ body x
    | none => exact .throw _
  | list t =>
    simp only [decodeLayer]
    split
    · exact .ofExcept _
    · exact cx.onlyAdds_list hd p t x
  | array t n => exact cx.onlyAdds_array hd p t n x
  | map a key value =>
    cases x with
    | object o => exact .map ⟨_, _, hd.decodeEntries p true key value o⟩ Datum.map
    | _ => exact .throw _
  | tree => exact .throw _
  | borrowedText => exact .throw _
  | slice t => exact .throw _
  | set a t => exact .throw _
  | _ => exact scalar

end Inlined

/-- The reading of a tree as an inlined part only adds to the notes. -/
theorem onlyAdds_tree (depth : Nat) (p : Path) (ty : Ty) (x : Tree) :
    OnlyAdds ((decoder cx depth).tree ⟨true, p, true⟩ ty x) := by
  induction depth generalizing ty x with
  | zero => exact .throw _
  | succ depth ih =>
    show OnlyAdds (decodeStep cx (decoder cx depth) ⟨true, p, true⟩ ty x)
    rw [decodeStep.eq_def]
    split
    · exact .ofExcept _
    · split
      · exact .ofExcept _
      · exact cx.onlyAdds_layer (notesUnknown_decoder cx depth) p ih ty _

/-- A reading that is no inlined part notes no key as consumed. -/
theorem notes_read (depth : Nat) (s : Scope) (ty : Ty) (source : Source) :
    ∃ K U, (s.inlined = false → K = noKey) ∧ Notes ((decoder cx depth).read s ty source) K U := by
  obtain ⟨strict, p, inlined⟩ := s
  have noted := notesUnknown_decoder cx depth
  have quiet := quiet_decoder cx depth
  cases strict with
  | false =>
    have lax : Simulation.quiet.place ⟨false, p, inlined⟩ ⟨false, p, inlined⟩ := rfl
    cases source with
    | tree x => exact ⟨noKey, noPath, fun _ => rfl, quiet.tree lax ty x⟩
    | object o => exact ⟨noKey, noPath, fun _ => rfl, quiet.object lax ty o⟩
  | true =>
    cases inlined with
    | false =>
      cases source with
      | tree x => exact ⟨_, _, fun _ => rfl, noted.tree p ty x⟩
      | object o => exact ⟨_, _, fun _ => rfl, noted.object p ty o⟩
    | true =>
      cases source with
      | tree x =>
        obtain ⟨K, U, h⟩ := cx.onlyAdds_tree depth p ty x
        exact ⟨K, U, nofun, h⟩
      | object o => exact ⟨_, _, nofun, noted.part p ty o⟩

end Codec

/-! ## Balance -/

/-- A cursor that is back where another one was. Only a part of a record may have added keys,
to the innermost level alone. -/
structure Cursor.Balanced (c c' : Cursor) : Prop where
  strict : c'.strict = c.strict
  path : c'.path = c.path
  inlined : c'.inlined = c.inlined
  depth : c'.depth = c.depth
  open_levels : c'.levels.length = c.levels.length
  outer_levels : c'.levels.tail = c.levels.tail
  innermost : ∀ keys, c.levels.head? = some keys →
    ∃ added, c'.levels.head? = some (added ++ keys) ∧ (added ≠ [] → c.inlined = true)
  unknown : c.unknown <+: c'.unknown

theorem Cursor.balanced_note {s : Scope} {ks : List String} (part : s.inlined = false → ks = [])
    (a : Audit) (qs : List Path) (n : Nat) :
    Balanced (standing s a n) (standing s (a.note ks qs) n) where
  strict := rfl
  path := rfl
  inlined := rfl
  depth := rfl
  open_levels := by rcases a with ⟨_ | ⟨keys, outer⟩, unknown⟩ <;> rfl
  outer_levels := by rcases a with ⟨_ | ⟨keys, outer⟩, unknown⟩ <;> rfl
  innermost keys top := by
    rcases a with ⟨_ | ⟨keys', outer⟩, unknown⟩ <;> cases top
    exact ⟨ks, rfl, fun some => Bool.of_not_eq_false (mt part some)⟩
  unknown := by
    show a.unknown.map Path.render <+: (a.unknown ++ qs).map Path.render
    rw [List.map_append]
    exact List.prefix_append _ _

namespace Codec

variable (cx : Codec) (room : Nat) (ty : Ty) (source : Source)

/-- What a walk from a place comes to, and where it ends. -/
theorem walk_ends (s : Scope) (a : Audit) (n : Nat) (trail : List Cursor) :
    Walk.Ends ⟨.standing s a n, trail⟩ (.standing s · n)
      ((cx.walker room).read ty source ⟨.standing s a n, trail⟩)
      (((decoder cx (min room (cx.maxDepth - n))).read s ty source).run a) :=
  (cx.walker_follows room n).read s ty source a trail

/-- A walk that yields a datum is back where it began. -/
theorem balanced_of_result {w : Walk} {d : Datum}
    (well : ((cx.walker room).read ty source).result w = .ok d) :
    w.cursor.Balanced (((cx.walker room).read ty source).final w).cursor := by
  obtain ⟨cursor, trail⟩ := w
  obtain ⟨s, a, place⟩ := cursor.exists_standing
  generalize cursor.depth = n at place
  subst place
  have ends := cx.walk_ends room ty source s a n trail
  -- The walk ends at the cursor for the decoder's notes, so that only these are left to look at.
  obtain ⟨K, U, unpart, noted⟩ := cx.notes_read (min room (cx.maxDepth - n)) s ty source
  have same := ends.result_eq.symm.trans well
  rcases read : ((decoder cx (min room (cx.maxDepth - n))).read s ty source).run a with
    e | ⟨d', a'⟩
  · rw [read] at same
    cases same
  · obtain ⟨ks, qs, consumed, -, rfl⟩ := noted a d' a' read
    rw [ends.cursor_eq read]
    refine Cursor.balanced_note (fun apart => List.eq_nil_iff_forall_not_mem.mpr fun k hk => ?_) a qs n
    rw [consumed, unpart apart] at hk
    exact hk

/-- A lax walk that has nothing on its cursor never has. -/
theorem nothing_on_lax_walk : ∀ c ∈ (((cx.walker room).read ty source).final ⟨.fresh false, []⟩).cursors,
    c.path = "" ∧ c.levels = [] ∧ c.unknown = [] := by
  obtain ⟨since, split, alike⟩ := (cx.walk_ends room ty source (.root false) .empty 0 []).still rfl
  intro c hc
  have passed_or_first : c ∈ since ++ [Cursor.fresh false] := split ▸ hc
  rcases List.mem_append.mp passed_or_first with passed | first
  · have like := alike c passed
    exact ⟨like.path, like.levels, like.unknown⟩
  · obtain rfl := List.mem_singleton.mp first
    exact ⟨rfl, rfl, rfl⟩

end Codec

/-- Every walk is balanced. It comes to what the decoder reads at its place; where that is a
datum, it ends with a balanced cursor; and from the fresh lax cursor on, no cursor that it passes
has a path, a level or an unknown key, however it ends. -/
theorem walks_are_balanced (cx : Codec) (room : Nat) (ty : Ty) (source : Source) :
    let walk := (cx.walker room).read ty source
    (∀ s a n trail,
      let start : Walk := ⟨.standing s a n, trail⟩
      let read := ((cx.decoder (min room (cx.maxDepth - n))).read s ty source).run a
      walk.result start = Prod.fst <$> read ∧
      ∀ d a', read = .ok (d, a') → (walk.final start).cursor = .standing s a' n) ∧
    (∀ w d, walk.result w = .ok d → w.cursor.Balanced (walk.final w).cursor) ∧
    ∀ c ∈ (walk.final ⟨.fresh false, []⟩).cursors, c.path = "" ∧ c.levels = [] ∧ c.unknown = [] := by
  intro walk
  refine ⟨fun s a n trail => ?_, fun w d well => cx.balanced_of_result room ty source well,
    cx.nothing_on_lax_walk room ty source⟩
  have ends := cx.walk_ends room ty source s a n trail
  exact ⟨ends.result_eq, fun d a' => ends.cursor_eq⟩

/-- A stop that is part of a leg notes its keys at the leg's level, and the key that the stop
behind it does not know at a level that is closed again. -/
theorem walks_are_balanced_stop :
    let walk := (Codec.route.walker 9).read (.named "stop") (.object
      [("label", .string "a"), ("next", .object [("label", .string "b"), ("far", .int 1)])])
    let leg : Scope := ⟨true, [.key "legs", .index 1], true⟩
    let missed : Path := [.key "legs", .index 0, .key "far"]
    let start : Walk := ⟨.standing leg ⟨[["name"], ["legs"]], [missed]⟩ 1, []⟩
    let next : Datum := .product [.text "b", .wrapped (.product [.int 0, .int 0]), .seq [], .absent]
    let stop : Datum :=
      .product [.text "a", .wrapped (.product [.int 0, .int 0]), .seq [], .present (.wrapped next)]
    walk.result start = .ok stop ∧ start.cursor.Balanced (walk.final start).cursor ∧
      (walk.final start).cursor = .standing leg
        ⟨[["next", "notes", "y", "x", "label", "name"], ["legs"]],
          [missed, [.key "legs", .index 1, .key "next", .key "far"]]⟩ 1 := by
  intro walk leg missed start next stop
  obtain ⟨reads, balanced, -⟩ := walks_are_balanced Codec.route 9 (.named "stop") (.object
    [("label", .string "a"), ("next", .object [("label", .string "b"), ("far", .int 1)])])
  obtain ⟨result, place⟩ := reads leg ⟨[["name"], ["legs"]], [missed]⟩ 1 []
  have read : walk.result start = .ok stop := result.trans rfl
  exact ⟨read, balanced start stop read, place stop _ rfl⟩

end TreeCodec
