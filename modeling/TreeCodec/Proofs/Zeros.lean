import Mathlib.Data.Finset.Card
import Mathlib.Data.List.Forall2
import TreeCodec.Zero

/-!
# Zeros do not depend on the depth that they are given

A zero of a declared type is built in as many layers as there are declarations. If it is not
done by then, no number of layers would do.

* `Ty.opened`, `Catalogue.Closed`: the declared types whose zeros a zero is made of, and
  catalogues in which all of them are declared;
* `SettledBy`: a result that only a refusal of an endless zero keeps from being another;
* `Catalogue.settledBy_zeroDeclared_succ`: one more layer leaves a zero as it is, if there is one;
* `Catalogue.Closed.settled`: nor does one more layer help, by the number of declarations on. The
  types whose zeros are endless grow fewer with every layer until they stay the same.
-/

namespace TreeCodec

/-! ## Opened types -/

mutual

/-- The declared types whose zeros the zero of a type is made of. -/
def Ty.opened : Ty → List String
  | .array t _ => t.opened
  | .pointer _ t => t.opened
  | .tuple ts => Ty.openedAll ts
  | .named name => [name]
  | _ => []

def Ty.openedAll : List Ty → List String
  | [] => []
  | t :: ts => t.opened ++ Ty.openedAll ts

end

/-- The types of the parts of a declared type's zero. -/
def Body.parts : Body → List Ty
  | .record fs => fs.map Field.ty
  | .tuple fs => fs.map Field.ty
  | .newtype t => [t]
  | .enumeration _ => []

/-- A catalogue that declares all types that its own types' zeros are made of. -/
def Catalogue.Closed (c : Catalogue) : Prop :=
  ∀ decl ∈ c.decls, ∀ t ∈ decl.2.body.parts, ∀ name ∈ t.opened, (c.find? name).isSome = true

/-! ## Endless zeros -/

/-- Whether an error is the refusal of a zero that would contain itself. -/
def Error.isEndless : Error → Bool
  | .noForm (.endlessZero _) => true
  | _ => false

/-- Whether a result is the refusal of a zero that would contain itself. -/
def isEndless {α : Type} : Except Error α → Bool
  | .error e => e.isEndless
  | .ok _ => false

/-- A result that is another one, unless it refuses an endless zero. -/
def SettledBy {α : Type} (r r' : Except Error α) : Prop := isEndless r = true ∨ r = r'

namespace SettledBy

variable {α β : Type} {r r' : Except Error α}

theorem refl (r : Except Error α) : SettledBy r r := .inr rfl

theorem bind {f f' : α → Except Error β} (h : SettledBy r r') (hf : ∀ v, SettledBy (f v) (f' v)) :
    SettledBy (r >>= f) (r' >>= f') := by
  obtain endless | rfl := h
  · cases r with
    | error e => exact .inl endless
    | ok v => cases endless
  · cases r with
    | error e => exact refl _
    | ok v => exact hf v

theorem map (h : SettledBy r r') (f : α → β) : SettledBy (r.map f) (r'.map f) := by
  obtain endless | rfl := h
  · cases r with
    | error e => exact .inl endless
    | ok v => cases endless
  · exact refl _

end SettledBy

/-- Results that are the same, or both refuse endless zeros. -/
def Concur {α : Type} (r r' : Except Error α) : Prop := SettledBy r r' ∧ SettledBy r' r

namespace Concur

variable {α β : Type} {r r' r'' : Except Error α}

theorem refl (r : Except Error α) : Concur r r := ⟨.refl r, .refl r⟩

theorem symm (h : Concur r r') : Concur r' r := ⟨h.2, h.1⟩

theorem bind {f f' : α → Except Error β} (h : Concur r r') (hf : ∀ v, Concur (f v) (f' v)) :
    Concur (r >>= f) (r' >>= f') :=
  ⟨h.1.bind fun v => (hf v).1, h.2.bind fun v => (hf v).2⟩

theorem eq_or_endless (h : Concur r r') : r = r' ∨ isEndless r = true ∧ isEndless r' = true := by
  obtain ⟨endless | same, endless' | same'⟩ := h
  · exact .inr ⟨endless, endless'⟩
  · exact .inl same'.symm
  · exact .inl same
  · exact .inl same

/-- A result that refuses no endless zero is the only one that concurs with it. -/
theorem eq (h : Concur r r') (ends : isEndless r' = false) : r = r' := by
  obtain same | ⟨-, endless⟩ := h.eq_or_endless
  · exact same
  · simp [ends] at endless

theorem trans (h : Concur r r') (h' : Concur r' r'') : Concur r r'' := by
  obtain rfl | ⟨endless, -⟩ := h.eq_or_endless
  · exact h'
  · obtain rfl | ⟨-, endless''⟩ := h'.eq_or_endless
    · exact h
    · exact ⟨.inl endless, .inl endless''⟩

end Concur

/-! ## One layer more -/

namespace Catalogue

variable {c : Catalogue}

section Parts

variable {declared declared' : String → Except Error Datum}

theorem zerosWith_cons (t : Ty) (ts : List Ty) :
    c.zerosWith declared (t :: ts) =
      c.zeroWith declared t >>= fun d => (c.zerosWith declared ts).map (d :: ·) := by
  rw [zerosWith]
  rcases c.zeroWith declared t with e | d <;> rfl

theorem zeroFieldsWith_cons (f : Field) (fs : List Field) :
    c.zeroFieldsWith declared (f :: fs) =
      c.zeroFieldWith declared f >>= fun d => (c.zeroFieldsWith declared fs).map (d :: ·) := by
  rw [zeroFieldsWith]
  rcases c.zeroFieldWith declared f with e | d <;> rfl

theorem settledBy_zerosWith {ts : List Ty}
    (h : ∀ t ∈ ts, SettledBy (c.zeroWith declared t) (c.zeroWith declared' t)) :
    SettledBy (c.zerosWith declared ts) (c.zerosWith declared' ts) := by
  induction ts with
  | nil => exact .refl _
  | cons t ts ih =>
    have rest := ih fun u hu => h u (List.mem_cons_of_mem _ hu)
    rw [zerosWith_cons, zerosWith_cons]
    exact (h t List.mem_cons_self).bind fun d => rest.map (d :: ·)

theorem mem_openedAll {ts : List Ty} {t : Ty} (ht : t ∈ ts) {name : String} (h : name ∈ t.opened) :
    name ∈ Ty.openedAll ts := by
  induction ts with
  | nil => cases ht
  | cons u ts ih =>
    rw [Ty.openedAll, List.mem_append]
    rcases List.mem_cons.mp ht with rfl | ht
    · exact .inl h
    · exact .inr (ih ht)

/-- A zero is settled by another if the zeros are that it is made of. -/
theorem settledBy_zeroWith (ty : Ty)
    (h : ∀ name ∈ ty.opened, SettledBy (declared name) (declared' name)) :
    SettledBy (c.zeroWith declared ty) (c.zeroWith declared' ty) := by
  rw [zeroWith.eq_def, zeroWith.eq_def]
  split
  · exact .refl _
  · split
    · rename_i t n _
      split
      · exact .refl _
      · exact (settledBy_zeroWith t h).map _
    · rename_i p t _
      obtain endless | same := settledBy_zeroWith t h
      · rcases zero : c.zeroWith declared t with e | d <;> rw [zero] at endless
        · exact .inl endless
        · cases endless
      · rw [same]
        exact .refl _
    · exact (settledBy_zerosWith fun t ht =>
        settledBy_zeroWith t fun name hn => h name (mem_openedAll ht hn)).map _
    · exact h _ (List.mem_singleton.mpr rfl)
    · exact .refl _
termination_by ty
decreasing_by all_goals subst ty; decreasing_tactic

theorem settledBy_zeroFieldWith (f : Field)
    (h : ∀ name ∈ f.ty.opened, SettledBy (declared name) (declared' name)) :
    SettledBy (c.zeroFieldWith declared f) (c.zeroFieldWith declared' f) := by
  rw [zeroFieldWith, zeroFieldWith]
  split
  · exact .refl _
  · exact settledBy_zeroWith f.ty h

theorem settledBy_zeroFieldsWith {fs : List Field}
    (h : ∀ f ∈ fs, ∀ name ∈ f.ty.opened, SettledBy (declared name) (declared' name)) :
    SettledBy (c.zeroFieldsWith declared fs) (c.zeroFieldsWith declared' fs) := by
  induction fs with
  | nil => exact .refl _
  | cons f fs ih =>
    have first := settledBy_zeroFieldWith (c := c) f (h f List.mem_cons_self)
    have rest := ih fun g hg => h g (List.mem_cons_of_mem _ hg)
    rw [zeroFieldsWith_cons, zeroFieldsWith_cons]
    exact first.bind fun d => rest.map (d :: ·)

end Parts

/-- A layer of a declared type's zero is settled if its parts are. -/
theorem settledBy_zeroDeclared {depth depth' : Nat} {name : String}
    (h : ∀ body, c.body? name = some body → ∀ t ∈ body.parts, ∀ part ∈ t.opened,
      SettledBy (c.zeroDeclared depth part) (c.zeroDeclared depth' part)) :
    SettledBy (c.zeroDeclared (depth + 1) name) (c.zeroDeclared (depth' + 1) name) := by
  rw [zeroDeclared, zeroDeclared]
  split
  · rename_i fs body
    exact (settledBy_zeroFieldsWith fun f hf =>
      h _ body f.ty (List.mem_map_of_mem hf)).map _
  · rename_i fs body
    exact (settledBy_zeroFieldsWith fun f hf =>
      h _ body f.ty (List.mem_map_of_mem hf)).map _
  · rename_i t body
    exact (settledBy_zeroWith t (h _ body t List.mem_cons_self)).map _
  · exact .refl _
  · exact .refl _
  · exact .refl _

/-- With one layer more, a zero is the same, or it was endless before. -/
theorem settledBy_zeroDeclared_succ (depth : Nat) (name : String) :
    SettledBy (c.zeroDeclared depth name) (c.zeroDeclared (depth + 1) name) := by
  induction depth generalizing name with
  | zero => exact .inl rfl
  | succ depth ih => exact settledBy_zeroDeclared fun _ _ _ _ part _ => ih part

/-! ## Enough layers -/

/-- No zero of a declared type that is endless at a depth is there with one layer more. -/
def Settled (c : Catalogue) (depth : Nat) : Prop :=
  ∀ name, (c.find? name).isSome = true →
    SettledBy (c.zeroDeclared (depth + 1) name) (c.zeroDeclared depth name)

/-- The declared types whose zeros are endless at a depth. -/
def endlessNames (c : Catalogue) (depth : Nat) : Finset String :=
  (c.decls.map Prod.fst).toFinset.filter fun name => isEndless (c.zeroDeclared depth name)

theorem mem_of_find? {name : String} {decl : Decl} (h : c.find? name = some decl) :
    (name, decl) ∈ c.decls := by
  obtain ⟨before, after, split, -⟩ := List.lookup_eq_some_iff.mp h
  rw [split]
  simp

theorem Settled.succ (closed : c.Closed) {depth : Nat} (h : c.Settled depth) :
    c.Settled (depth + 1) := by
  intro name _
  refine settledBy_zeroDeclared fun body hb t ht part hp => h part ?_
  obtain ⟨decl, found, rfl⟩ := Option.map_eq_some_iff.mp hb
  exact closed _ (mem_of_find? found) t ht part hp

/-- While zeros are not settled, every layer makes an endless one fewer. -/
theorem card_endlessNames_lt {depth : Nat} (h : ¬ c.Settled depth) :
    (c.endlessNames (depth + 1)).card < (c.endlessNames depth).card := by
  refine Finset.card_lt_card ((Finset.ssubset_iff_of_subset fun name hn => ?_).mpr ?_)
  · obtain ⟨declared, endless⟩ := Finset.mem_filter.mp hn
    obtain before | same := c.settledBy_zeroDeclared_succ depth name
    · exact Finset.mem_filter.mpr ⟨declared, before⟩
    · exact Finset.mem_filter.mpr ⟨declared, same ▸ endless⟩
  · obtain ⟨name, declared, unsettled⟩ : ∃ name, (c.find? name).isSome = true ∧
        ¬ SettledBy (c.zeroDeclared (depth + 1) name) (c.zeroDeclared depth name) := by
      simpa [Settled] using h
    obtain ⟨decl, found⟩ := Option.isSome_iff_exists.mp declared
    obtain ⟨ended, other⟩ := not_or.mp unsettled
    have endless : isEndless (c.zeroDeclared depth name) = true :=
      (c.settledBy_zeroDeclared_succ depth name).resolve_right fun same => other same.symm
    refine ⟨name, Finset.mem_filter.mpr ⟨?_, endless⟩, fun still => ended (Finset.mem_filter.mp still).2⟩
    exact List.mem_toFinset.mpr (List.mem_map_of_mem (mem_of_find? found))

/-- As many layers as there are declarations are enough. -/
theorem Closed.settled (closed : c.Closed) : c.Settled c.decls.length := by
  have fewer depth : c.Settled depth ∨ (c.endlessNames depth).card + depth ≤ c.decls.length := by
    induction depth with
    | zero =>
      have names := List.toFinset_card_le (c.decls.map Prod.fst)
      rw [List.length_map] at names
      exact .inr ((Finset.card_filter_le _ _).trans names)
    | succ depth ih =>
      by_cases settled : c.Settled depth
      · exact .inl (settled.succ closed)
      · have less := card_endlessNames_lt settled
        have bound := ih.resolve_left settled
        exact .inr (by omega)
  by_contra unsettled
  have less := card_endlessNames_lt unsettled
  have bound := (fewer c.decls.length).resolve_left unsettled
  omega

/-- One layer more or less makes no difference to the zero of a declared type. -/
theorem Closed.concur_zeroDeclared (closed : c.Closed) {name : String}
    (declared : (c.find? name).isSome = true) :
    Concur (c.zeroDeclared (c.decls.length + 1) name) (c.zeroDeclared c.decls.length name) :=
  ⟨closed.settled name declared, c.settledBy_zeroDeclared_succ _ name⟩

/-- Fields have zeros if each of them has. -/
theorem zeroFieldsWith_eq_ok_iff {declared : String → Except Error Datum} {fs : List Field}
    {ds : List Datum} : c.zeroFieldsWith declared fs = .ok ds ↔
      List.Forall₂ (fun f d => c.zeroFieldWith declared f = .ok d) fs ds := by
  induction fs generalizing ds with
  | nil => cases ds <;> simp [zeroFieldsWith]
  | cons f fs ih =>
    rw [zeroFieldsWith_cons]
    constructor
    · intro h
      rcases first : c.zeroFieldWith declared f with e | d <;> rw [first] at h
      · cases h
      · rcases rest : c.zeroFieldsWith declared fs with e | es <;> rw [rest] at h <;> cases h
        exact .cons first (ih.mp rest)
    · rintro (_ | ⟨first, rest⟩)
      rw [first, ih.mpr rest]
      rfl

end Catalogue

end TreeCodec
