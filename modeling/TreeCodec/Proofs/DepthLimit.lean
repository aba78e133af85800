import TreeCodec.Proofs.SameHooks
import TreeCodec.Proofs.Simulation
import TreeCodec.Proofs.Typing

/-!
# Depth limits

A limit decides nothing but how far a conversion may go.

* `Codec.cut_decoder`: a reading that may go less deep, under any limit, is cut by the limit
  or is the same reading;
* `Codec.eventually_alike`: two readings that settle together end alike from some limit on;
* `Codec.encode_of_height_le`: a datum is written alike at all depths from its height on.
-/

namespace TreeCodec

/-! ## Reading -/

/-- The same readings with their sides exchanged. -/
def Simulation.flip {m m' : Type → Type} [Monad m] [Monad m'] [MonadExceptOf Error m]
    [MonadExceptOf Error m'] [MonadFields m] [MonadFields m'] (sim : Simulation m m') :
    Simulation m' m where
  rel x y := sim.rel y x
  place s s' := sim.place s' s
  admits := sim.admits
  admits_local := sim.admits_local
  knows := sim.knows
  rel_pure := sim.rel_pure
  rel_bind := sim.rel_bind
  rel_throw := sim.rel_throw
  rel_fieldInfo := sim.rel_fieldInfo
  place_enter := sim.place_enter
  place_inline := sim.place_inline
  rel_beginRecord := sim.rel_beginRecord
  rel_askKey := sim.rel_askKey
  rel_endRecord := sim.rel_endRecord

theorem Simulation.Agree.flip {m m' : Type → Type} [Monad m] [Monad m'] [MonadExceptOf Error m]
    [MonadExceptOf Error m'] [MonadFields m] [MonadFields m'] {sim : Simulation m m'}
    {dec : Decoder m} {dec' : Decoder m'} (h : sim.Agree dec dec') : sim.flip.Agree dec' dec :=
  ⟨fun hs ty x => h.tree hs ty x, fun hs ty o => h.object hs ty o⟩

/-- A reading that a limit cuts, or else the same reading as another one. -/
def Simulation.cut (limit : Nat) : Simulation (Except Error) (Except Error) where
  rel x y := ∀ a, x.run a = y.run a ∨ x.run a = .error (.depthExceeded limit)
  place s s' := s = s'
  admits _ := True
  admits_local _ := trivial
  rel_pure _ _ := .inl rfl
  rel_bind {_ _ x y f g} h hf a := by
    rw [StateT.run_bind, StateT.run_bind]
    rcases h a with same | cut
    · rw [same]
      rcases y.run a with e | ⟨v, a'⟩
      · exact .inl rfl
      · exact hf v a'
    · rw [cut]
      exact .inr rfl
  rel_throw _ _ := .inl rfl
  rel_fieldInfo _ _ := .inl rfl
  place_enter segment h := Scope.enter_congr segment h
  place_inline h := congrArg Scope.inline h
  rel_beginRecord h a := .inl (by rw [h])
  rel_askKey _ h a := .inl (by rw [h])
  rel_endRecord _ h a := .inl (by rw [h])

namespace Codec

/-- The codec with another depth limit. -/
def withDepth (cx : Codec) (depth : Nat) : Codec := { cx with maxDepth := depth }

section WithDepth

variable {m : Type → Type} [Monad m] [MonadExceptOf Error m] [MonadFields m] (cx : Codec)
  (limit : Nat)

theorem sameHooks_withDepth : (cx.withDepth limit).SameHooks cx := ⟨rfl, fun _ => rfl, fun _ => rfl⟩

/-- The limit has no part in how a layer is read. -/
theorem decodeStep_withDepth (dec : Decoder m) :
    decodeStep (cx.withDepth limit) dec = decodeStep cx dec :=
  (cx.sameHooks_withDepth limit).decodeStep dec

theorem decodeObjectStep_withDepth (dec : Decoder m) :
    decodeObjectStep (cx.withDepth limit) dec = decodeObjectStep cx dec :=
  (cx.sameHooks_withDepth limit).decodeObjectStep dec

/-- The limit has no part in how a layer is written. -/
theorem encodeStep_withDepth (encode : Ty → Datum → m Tree) :
    encodeStep (cx.withDepth limit) encode = encodeStep cx encode :=
  (cx.sameHooks_withDepth limit).encodeStep encode

end WithDepth

/-- A reading that may go less deep is cut or the same, whatever the limits of both are. -/
theorem cut_decoder (cx : Codec) (limit limit' : Nat) {depth depth' : Nat} (h : depth ≤ depth') :
    (Simulation.cut limit).Agree (decoder (cx.withDepth limit) depth)
      (decoder (cx.withDepth limit') depth') := by
  induction depth generalizing depth' with
  | zero => exact ⟨fun _ _ _ _ => .inr rfl, fun _ _ _ _ => .inr rfl⟩
  | succ depth ih =>
    obtain ⟨below, rfl⟩ : ∃ n, depth' = n + 1 := ⟨depth' - 1, by omega⟩
    have agree := ih (show depth ≤ below by omega)
    have hooks : (Simulation.cut limit).AdmitsHooks cx.registry := fun _ _ _ _ _ _ => trivial
    simp only [decoder_succ, decodeStep_withDepth, decodeObjectStep_withDepth]
    have fields : (Simulation.cut limit).Knows cx.catalogue := fun _ _ _ _ _ _ => trivial
    exact ⟨fun hs ty x => Simulation.decodeStep cx hooks fields agree hs ty x,
      fun hs ty o => Simulation.decodeObjectStep cx hooks fields agree hs ty o⟩

/-- Two readings that settle together: what the limit does not cut of the first one stays as
it is when it may go `slack` levels deeper, and so does the second one. Then both end alike from
some limit on. -/
theorem eventually_alike {α : Type} {x y : Nat → Nat → Except Error α} (slack : Nat)
    (deeper : ∀ limit limit' depth depth', depth + slack ≤ depth' →
      x limit depth = x limit' depth' ∨ x limit depth = .error (.depthExceeded limit))
    (forth : ∀ limit limit' depth depth', depth + slack ≤ depth' →
      x limit depth = y limit' depth' ∨ x limit depth = .error (.depthExceeded limit))
    (back : ∀ limit depth,
      y limit depth = x limit (depth + slack) ∨ y limit depth = .error (.depthExceeded limit)) :
    ∃ least, ∀ limit ≥ least, x limit limit = y limit limit := by
  -- A limit that lets the reading pass settles it for every larger limit.
  by_cases h : ∃ limit depth, x limit depth ≠ .error (.depthExceeded limit)
  · obtain ⟨limit₀, depth₀, passes⟩ := h
    refine ⟨depth₀ + slack, fun limit deep => ?_⟩
    have own := (deeper limit₀ limit depth₀ limit deep).resolve_right passes
    have other := (forth limit₀ limit depth₀ limit deep).resolve_right passes
    exact own.symm.trans other
  · have stuck limit depth : x limit depth = .error (.depthExceeded limit) :=
      not_not.mp fun passes => h ⟨limit, depth, passes⟩
    refine ⟨0, fun limit _ => ?_⟩
    rcases back limit limit with same | cut
    · rw [same, stuck, stuck]
    · rw [stuck, cut]

end Codec

/-! ## Writing -/

/-- What is below wrappers is no higher. -/
theorem Catalogue.height_peel_le (c : Catalogue) (ty : Ty) (d : Datum) :
    (c.peel ty d).2.height ≤ d.height := by
  induction ty, d using Catalogue.peel.induct c with
  | case1 ty d t inner ih =>
    simp only [peel, inner, Datum.height]
    omega
  | case2 ty d inner => simp [peel, inner]
  | case3 d t ih =>
    simp only [peel, Datum.height]
    omega
  | case4 ty d other => simp [peel]
  | case5 ty d other other' => simp [peel]

namespace Codec

variable {m : Type → Type} [Monad m]

section Congr

variable {encode encode' : Ty → Datum → m Tree}

theorem encodeItems_congr (t : Ty) (ds : List Datum) (h : ∀ d ∈ ds, encode t d = encode' t d) :
    encodeItems (encode t) ds = encodeItems (encode' t) ds := by
  induction ds with
  | nil => rfl
  | cons d ds ih =>
    rw [encodeItems, encodeItems, h d List.mem_cons_self,
      ih fun e he => h e (List.mem_cons_of_mem _ he)]

variable [MonadExceptOf Error m] (cx : Codec)

theorem encodeMembers_congr (ty : Ty) (ts : List Ty) (ds : List Datum)
    (h : ∀ d ∈ ds, ∀ t, encode t d = encode' t d) :
    encodeMembers encode ty ts ds = encodeMembers encode' ty ts ds := by
  induction ds generalizing ts with
  | nil => cases ts <;> rfl
  | cons d ds ih =>
    cases ts with
    | nil => rfl
    | cons t ts =>
      rw [encodeMembers, encodeMembers, h d List.mem_cons_self t,
        ih ts fun e he => h e (List.mem_cons_of_mem _ he)]

theorem encodeEntries_congr (key t : Ty) (es : List (Datum × Datum)) (o : Object)
    (h : ∀ e ∈ es, encode t e.2 = encode' t e.2) :
    encodeEntries cx (encode t) key o es = encodeEntries cx (encode' t) key o es := by
  induction es generalizing o with
  | nil => rfl
  | cons e es ih =>
    simp only [encodeEntries, h e List.mem_cons_self,
      ih _ fun e he => h e (List.mem_cons_of_mem _ he)]

variable [MonadFields m]

theorem encodeFields_congr (ty : Ty) (i : Nat) (fs : List Field) (ds : List Datum) (o : Object)
    (h : ∀ d ∈ ds, ∀ t, encode t d = encode' t d) :
    encodeFields cx encode ty i fs ds o = encodeFields cx encode' ty i fs ds o := by
  induction ds generalizing fs i o with
  | nil => cases fs <;> rfl
  | cons d ds ih =>
    cases fs with
    | nil => rfl
    | cons f fs =>
      have rest i o := ih i fs o fun e he => h e (List.mem_cons_of_mem _ he)
      simp only [encodeFields, encodeField, h d List.mem_cons_self f.ty, rest]

theorem encodeDeclared_congr {name : String} {body : Body} (d : Datum)
    (declared : cx.catalogue.body? name = some body)
    (h : ∀ e, e.height < d.height → ∀ t, encode t e = encode' t e) :
    encodeDeclared cx encode (.named name) body d = encodeDeclared cx encode' (.named name) body d := by
  unfold encodeDeclared
  split
  · rename_i t d
    have inner := Catalogue.inner?_newtype declared
    have lower := cx.catalogue.height_peel_le t d
    simp only [Catalogue.peel, inner]
    refine h _ ?_ _
    rw [Datum.height]
    omega
  · rename_i fs ds
    rw [encodeFields_congr cx _ 0 fs ds [] fun e he => h e (Datum.height_lt_product he)]
  · rename_i fs ds
    rw [encodeMembers_congr _ _ ds fun e he => h e (Datum.height_lt_product he)]
  · rfl
  · rfl

/-- A layer is written by way of what is lower. -/
theorem encodeLayer_congr (ty : Ty) (d : Datum)
    (h : ∀ e, e.height < d.height → ∀ t, encode t e = encode' t e) :
    encodeLayer cx encode ty d = encodeLayer cx encode' ty d := by
  unfold encodeLayer
  split
  · rfl
  · rename_i t d
    exact h d (by rw [Datum.height]; omega) t
  · rfl
  · rename_i p t d
    exact h d (by rw [Datum.height]; omega) t
  · rename_i k d
    exact h d (by rw [Datum.height]; omega) (.int k)
  · rename_i ts ds
    rw [encodeMembers_congr _ ts ds fun e he => h e (Datum.height_lt_product he)]
  · split
    · rename_i body declared
      exact encodeDeclared_congr cx d declared h
    · rfl
  · rename_i t ds
    rw [encodeItems_congr t ds fun e he => h e (Datum.height_lt_seq he) t]
  · rename_i t n ds
    rw [encodeItems_congr t ds fun e he => h e (Datum.height_lt_seq he) t]
  · rename_i a key t es
    rw [encodeEntries_congr cx key t es [] fun e he => h e.2 (Datum.height_lt_map he) t]
  all_goals rfl

end Congr

variable [MonadExceptOf Error m] [MonadFields m] (cx : Codec)

/-- A datum is written alike at all depths from its height on. -/
theorem encode_of_height_le {depth depth' : Nat} (ty : Ty) (d : Datum) (h : d.height ≤ depth)
    (h' : d.height ≤ depth') : (encode cx depth ty d : m Tree) = encode cx depth' ty d := by
  induction depth generalizing depth' ty d with
  | zero =>
    have := d.height_pos
    omega
  | succ depth ih =>
    have positive := d.height_pos
    obtain ⟨below, rfl⟩ : ∃ n, depth' = n + 1 := ⟨depth' - 1, by omega⟩
    have lower e (he : e.height < d.height) t : (encode cx depth t e : m Tree) = encode cx below t e :=
      ih t e (by omega) (by omega)
    rw [encode, encode, encodeStep, encodeStep]
    split
    · rfl
    · exact encodeLayer_congr cx ty d lower

theorem encode_succ_of_height_le {depth : Nat} (ty : Ty) {d : Datum} (h : d.height ≤ depth) :
    (encode cx (depth + 1) ty d : m Tree) = encode cx depth ty d :=
  encode_of_height_le cx ty d (Nat.le_succ_of_le h) h

end Codec

end TreeCodec
